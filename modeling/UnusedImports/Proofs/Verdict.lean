import UnusedImports.Verdict

/-!
When an import is kept. A verdict comes down to two questions that have nothing to do with the
order in which it is reached: whether the policy protects the import, and whether some
reference uses what it brings in. Both answers only ever grow with the references, which is
what lets the verdicts of a file settle.
-/
namespace UnusedImports

def Policy.protects (policy : Policy) (declaration : ImportDeclaration) : Bool :=
  policy.allows declaration.path || (declaration.annotated && policy.keepAnnotated) ||
    declaration.kind == .wildcard ||
    (declaration.kind == .staticWildcard && policy.keepStaticWildcards)

namespace Decision

/-- Whether a reference uses what an import brings in, when `names` are the names that static
imports bind. -/
def isUsedBy (names : List String) (declaration : ImportDeclaration) (reference : Reference) :
    Bool :=
  match declaration.kind with
  | .wildcard => false
  | .staticWildcard => mayBeMember names reference
  | .static => declaration.boundName == some reference.name
  | .plain =>
    if declaration.aliasName.isSome then declaration.boundName == some reference.name
    else declaration.simpleName == some reference.name && reference.context != .staticMember

theorem isRemove_ofReference (found : Option Reference) :
    (Verdict.ofReference? found).isRemove = false ↔ found.isSome = true := by
  cases found with
  | none => simp [Verdict.ofReference?, Verdict.isRemove]
  | some reference => simp [Verdict.ofReference?, Verdict.isRemove]

theorem isSome_bind_firstNamed (name : Option String) (references : List Reference) :
    (name.bind (firstNamed references)).isSome = true ↔
      ∃ reference ∈ references, (name == some reference.name) = true := by
  cases name with
  | none => simp
  | some bound =>
    simp only [Option.bind_some, firstNamed, List.find?_isSome, Option.some_beq_some, beq_iff_eq]
    constructor
    · intro hcase
      obtain ⟨reference, hmem, rfl⟩ := hcase
      exact ⟨reference, hmem, rfl⟩
    · intro hcase
      obtain ⟨reference, hmem, rfl⟩ := hcase
      exact ⟨reference, hmem, rfl⟩

theorem isSome_bind_firstNamedType (name : Option String) (references : List Reference) :
    (name.bind (firstNamedType references)).isSome = true ↔
      ∃ reference ∈ references,
        (name == some reference.name && reference.context != .staticMember) = true := by
  cases name with
  | none => simp
  | some bound =>
    simp only [Option.bind_some, firstNamedType, List.find?_isSome, Option.some_beq_some,
      Bool.and_eq_true, beq_iff_eq]
    constructor
    · intro hcase
      obtain ⟨reference, hmem, rfl, hcontext⟩ := hcase
      exact ⟨reference, hmem, rfl, hcontext⟩
    · intro hcase
      obtain ⟨reference, hmem, rfl, hcontext⟩ := hcase
      exact ⟨reference, hmem, rfl, hcontext⟩

/-- An import is kept exactly when the policy protects it or a reference uses it. -/
theorem isRemove_verdictOn (policy : Policy) (references : List Reference)
    (names : List String) (declaration : ImportDeclaration) :
    (verdictOn policy references names declaration).isRemove = false ↔
      policy.protects declaration = true ∨
        ∃ reference ∈ references, isUsedBy names declaration reference = true := by
  unfold verdictOn Policy.protects isUsedBy
  by_cases hallowed : policy.allows declaration.path = true
  · simp [hallowed, Verdict.isRemove]
  by_cases hannotated : declaration.annotated = true ∧ policy.keepAnnotated = true
  · rw [if_neg hallowed, if_pos hannotated]
    simp [hannotated, Verdict.isRemove]
  have hrefused : policy.allows declaration.path = false := by simpa using hallowed
  have hnot : (declaration.annotated && policy.keepAnnotated) = false := by
    simpa using hannotated
  rw [if_neg hallowed, if_neg hannotated, hnot, hrefused]
  cases declaration.kind with
  | wildcard => simp [Verdict.isRemove]
  | staticWildcard =>
    by_cases hkeep : policy.keepStaticWildcards = true
    · simp [hkeep, Verdict.isRemove]
    · simp [hkeep, isRemove_ofReference, List.find?_isSome]
  | static => simp [isRemove_ofReference, isSome_bind_firstNamed]
  | plain =>
    by_cases halias : declaration.aliasName.isSome = true
    · simp [halias, isRemove_ofReference, isSome_bind_firstNamed]
    · simp [halias, isRemove_ofReference, isSome_bind_firstNamedType]

end Decision

end UnusedImports
