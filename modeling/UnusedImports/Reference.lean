import UnusedImports.Outline.Basic

/-!
References: the bare names of a source. A name after a member access operator belongs to
its receiver and refers to nothing by itself; every other identifier is a reference, and
its neighbours tell in what context it stands.
-/
namespace UnusedImports

inductive Context where
  | type
  | value
  /-- A name directly after the sign of an annotation. -/
  | annotationType
  /-- A call without a receiver. -/
  | staticMember
  | interpolation
deriving DecidableEq

def Context.name : Context → String
  | type => "type"
  | value => "value"
  | annotationType => "annotation"
  | staticMember => "static-member"
  | interpolation => "interpolation"

structure Use where
  name : String
  context : Context
deriving DecidableEq

structure Reference where
  name : String
  context : Context
  span : Span
deriving DecidableEq

namespace Reference

abbrev Site := Symbol × Nat

def nextOnLine? : List Site → Option (Symbol × List Site)
  | [] => none
  | site :: rest =>
    match site.1 with
    | .gap => nextOnLine? rest
    | .newline => none
    | symbol => some (symbol, rest)

def introducesType (symbol : Symbol) : Bool := symbol.word?.any Lexicon.introducesType

/-- Whether what follows a name on its line makes it a type: another name, an ellipsis, empty
square brackets, or the class literal. -/
def namesType (next : Symbol) (after : List Site) : Bool :=
  match next with
  | .identifier _ | .ellipsis => true
  | .opening .square => (nextOnLine? after).any fun second => second.1 == .closing .square
  | .dot => (nextOnLine? after).any fun second => second.1 == .keyword "class"
  | _ => false

/-- The context of a bare name at a depth of interpolation, between the last symbol before it
that is not trivia and what follows it. -/
def contextOf (depth : Nat) (before : Option Symbol) (after : List Site) : Context :=
  if 0 < depth then .interpolation
  else if before = some .atSign then .annotationType
  else
    match nextOnLine? after with
    | none => if before.any introducesType then .type else .value
    | some (next, rest) =>
      if next = .opening .round ∧ before ≠ some (.keyword "new") then .staticMember
      else if before.any introducesType then .type
      else if namesType next rest then .type
      else .value

def useAt (before : Option Symbol) (site : Site) (after : List Site) : Option Use :=
  match site.1 with
  | .identifier name =>
    if before.any Symbol.isMemberAccess then none
    else some ⟨name, contextOf site.2 before after⟩
  | _ => none

/-- The use at each of some sites, when `before` is the last symbol before them that is not
trivia. -/
def usesFrom (before : Option Symbol) : List Site → List (Option Use)
  | [] => []
  | site :: rest =>
    useAt before site rest ::
      usesFrom (if site.1.isTrivia then before else some site.1) rest

def uses (tokens : List Token) : List (Option Use) :=
  usesFrom none (tokens.map fun token => (token.symbol, token.depth))

def ofTokens (locate : Extent → Span) (tokens : List Token) : List (Option Reference) :=
  List.zipWith
    (fun token use => use.map fun use => ⟨use.name, use.context, locate token.extent⟩)
    tokens (uses tokens)

def within (references : List (Option Reference)) (extent : Extent) : List Reference :=
  (extent.slice references).filterMap id

end Reference

mutual

/-- The parts of a body item that are searched for references: a statement as a whole, and
the header and the members of a type declaration. -/
def Outline.Item.parts : Outline.Item → List Extent
  | .statement tokens => [tokens]
  | .declaration _ header members => header :: Outline.partsOf members

def Outline.partsOf : List Outline.Item → List Extent
  | [] => []
  | item :: rest => item.parts ++ Outline.partsOf rest

end

end UnusedImports
