import UnusedImports.Import.Declaration
import UnusedImports.Reference

/-!
Verdicts on imports. An import is kept when the policy protects it or when a reference
carries the name it binds; only an import for which nothing of the kind can be shown is
removed. A type import without an alias is not used by a call, because a call without a
receiver names a method.
-/
namespace UnusedImports

structure Policy where
  /-- Paths to keep; a path ending in a star covers everything below it. -/
  preserve : List String := []
  keepStaticWildcards : Bool := true
  keepAnnotated : Bool := true
deriving DecidableEq

inductive Reason where
  | wildcard
  | staticWildcard
  | allowListed
  | annotated
  /-- A reference uses what the import brings in. -/
  | referenced (context : Context) (span : Span)
deriving DecidableEq

inductive Verdict where
  | keep (reason : Reason)
  | remove
deriving DecidableEq

namespace Verdict

def isRemove : Verdict → Bool
  | .remove => true
  | .keep _ => false

def message : Verdict → String
  | .keep .wildcard => "kept (wildcard)"
  | .keep .staticWildcard => "kept (static wildcard)"
  | .keep .allowListed => "kept (allow-listed)"
  | .keep .annotated => "kept (annotated)"
  | .keep (.referenced context span) =>
    "kept (" ++ context.name ++ " reference at " ++ span.position ++ ")"
  | .remove => "unused"

def ofReference? : Option Reference → Verdict
  | some reference => .keep (.referenced reference.context reference.span)
  | none => .remove

end Verdict

structure Decision where
  declaration : ImportDeclaration
  verdict : Verdict
deriving DecidableEq

namespace Policy

/-- Whether a pattern covers a path. A pattern that ends in a dot and a star covers the path
before them and every path below it; any other pattern covers itself alone. -/
def covers (pattern path : List Char) : Bool :=
  if ['.', '*'].isSuffixOf pattern then
    let stem := pattern.take (pattern.length - 2)
    path == stem || (stem ++ ['.']).isPrefixOf path
  else path == pattern

def allows (policy : Policy) (path : String) : Bool :=
  policy.preserve.any fun pattern => covers pattern.toList path.toList

end Policy

namespace Decision

def staticNames (declarations : List ImportDeclaration) : List String :=
  declarations.filterMap fun declaration =>
    if declaration.kind = .static then declaration.boundName else none

/-- Whether a reference may be to a member of some type: it is a call, a value or an
interpolated name, and no static import binds it by name. -/
def mayBeMember (names : List String) (reference : Reference) : Bool :=
  (reference.context == .staticMember || reference.context == .value ||
    reference.context == .interpolation) && !names.contains reference.name

def firstNamed (references : List Reference) (name : String) : Option Reference :=
  references.find? fun reference => reference.name == name

def firstNamedType (references : List Reference) (name : String) : Option Reference :=
  references.find? fun reference =>
    reference.name == name && reference.context != .staticMember

/-- The references of a file by their names, those with one name in their order. -/
structure ReferenceIndex where
  buckets : List (String × List Reference)

namespace ReferenceIndex

def add (reference : Reference) : List (String × List Reference) → List (String × List Reference)
  | [] => [(reference.name, [reference])]
  | bucket :: rest =>
    if bucket.1 = reference.name then (bucket.1, bucket.2 ++ [reference]) :: rest
    else bucket :: add reference rest

def ofReferences (references : List Reference) : ReferenceIndex :=
  ⟨references.foldl (fun buckets reference => add reference buckets) []⟩

def firstMatch (index : ReferenceIndex) (name : String) (accepts : Context → Bool) :
    Option Reference :=
  (index.buckets.lookup name).bind fun bucket =>
    bucket.find? fun reference => accepts reference.context

theorem lookup_add (reference : Reference) (buckets : List (String × List Reference))
    (name : String) :
    ((add reference buckets).lookup name).getD [] =
      (buckets.lookup name).getD [] ++ [reference].filter (·.name == name) := by
  induction buckets with
  | nil =>
    by_cases hname : name = reference.name
    · simp [add, hname]
    · simp [add, List.lookup_cons, hname, Ne.symm hname, beq_false_of_ne]
  | cons bucket rest ih =>
    obtain ⟨first, found⟩ := bucket
    rw [add]
    by_cases hfirst : first = reference.name
    · subst hfirst
      by_cases hname : name = reference.name
      · simp [hname]
      · simp [List.lookup_cons, hname, Ne.symm hname, beq_false_of_ne]
    · rw [if_neg hfirst]
      by_cases hname : name = first
      · simp [hname, Ne.symm hfirst]
      · simpa [List.lookup_cons, hname, beq_false_of_ne] using ih

/-- The bucket of a name has all references to it. -/
theorem lookup_foldl_add (references : List Reference) (buckets : List (String × List Reference))
    (name : String) :
    ((references.foldl (fun buckets reference => add reference buckets) buckets).lookup
      name).getD [] = (buckets.lookup name).getD [] ++ references.filter (·.name == name) := by
  induction references generalizing buckets with
  | nil => simp
  | cons reference rest ih =>
    rw [List.foldl_cons, ih, lookup_add, List.append_assoc, ← List.filter_append]
    rfl

theorem firstMatch_ofReferences (references : List Reference) (name : String)
    (accepts : Context → Bool) :
    (ofReferences references).firstMatch name accepts =
      references.find? fun reference => reference.name == name && accepts reference.context := by
  have hbucket := lookup_foldl_add references [] name
  rw [List.lookup_nil, Option.getD_none, List.nil_append] at hbucket
  have hfind : (references.filter (·.name == name)).find? (fun reference =>
      accepts reference.context) = references.find? fun reference =>
        reference.name == name && accepts reference.context := by
    rw [List.find?_filter]
    simp only [Bool.decide_and, Bool.decide_eq_true]
  rw [← hfind, ← hbucket, firstMatch, ofReferences]
  cases (references.foldl (fun buckets reference => add reference buckets) []).lookup name <;> rfl

end ReferenceIndex

/-- The index gives the same reference as the list. -/
theorem firstNamed_eq_firstMatch (references : List Reference) (name : String) :
    firstNamed references name =
      (ReferenceIndex.ofReferences references).firstMatch name fun _ => true := by
  simp only [ReferenceIndex.firstMatch_ofReferences, Bool.and_true, firstNamed]

theorem firstNamedType_eq_firstMatch (references : List Reference) (name : String) :
    firstNamedType references name =
      (ReferenceIndex.ofReferences references).firstMatch name (· != .staticMember) := by
  rw [ReferenceIndex.firstMatch_ofReferences, firstNamedType]

def verdictOn (policy : Policy) (references : List Reference) (names : List String)
    (declaration : ImportDeclaration) : Verdict :=
  if policy.allows declaration.path then .keep .allowListed
  else if declaration.annotated ∧ policy.keepAnnotated then .keep .annotated
  else
    match declaration.kind with
    | .wildcard => .keep .wildcard
    | .staticWildcard =>
      if policy.keepStaticWildcards then .keep .staticWildcard
      else .ofReference? (references.find? (mayBeMember names))
    | .static => .ofReference? (declaration.boundName.bind (firstNamed references))
    | .plain =>
      if declaration.aliasName.isSome then
        .ofReference? (declaration.boundName.bind (firstNamed references))
      else .ofReference? (declaration.simpleName.bind (firstNamedType references))

def judge (policy : Policy) (declarations : List ImportDeclaration)
    (references : List Reference) : List Decision :=
  declarations.map fun declaration =>
    ⟨declaration, verdictOn policy references (staticNames declarations) declaration⟩

def unused (decisions : List Decision) : List ImportDeclaration :=
  (decisions.filter fun decision => decision.verdict.isRemove).map Decision.declaration

end Decision

end UnusedImports
