import UnusedImports.Outline.Clause
import UnusedImports.Outline.Item

/-!
The outline of a source: its package clause, its imports and its body items, each by the
positions of its tokens. Only the bracket structure and the two clauses can be refused;
everything else is some statement of the body.
-/
namespace UnusedImports

structure ImportStatement where
  /-- The annotations before the keyword. -/
  annotations : Option Extent
  clause : Outline.ImportClause
  /-- All tokens of the statement, annotations included. -/
  tokens : Extent

structure Outline where
  package : Option Extent
  imports : List ImportStatement
  body : List Outline.Item

namespace Outline

def empty : Outline := ⟨none, [], []⟩

def addImport (statement : ImportStatement) (outline : Outline) : Outline :=
  { outline with imports := statement :: outline.imports }

def addItems (items : List Item) (outline : Outline) : Outline :=
  { outline with body := items ++ outline.body }

/-- The last symbol of a list that is not trivia, or the one given where there is none. -/
def lastSignificant (before : Option Symbol) (symbols : List Symbol) : Option Symbol :=
  symbols.foldl (fun last symbol => if symbol.isTrivia then last else some symbol) before

def passed (symbols later : List Symbol) : List Symbol :=
  symbols.take (symbols.length - later.length)

inductive Opening where
  /-- An import whose keyword is followed by `rest`. -/
  | importKeyword (rest : List Symbol)
  /-- A package clause whose keyword is followed by `rest`. -/
  | packageKeyword (rest : List Symbol)
  | body

/-- What the symbols open with. The keyword of an import is not one after a member access
operator, and the package can only be given where `packageAllowed`. -/
def openingOf (packageAllowed : Bool) (before : Option Symbol) (symbols : List Symbol) :
    Opening :=
  match afterAnnotations symbols with
  | .keyword word :: rest =>
    if word = "import" then
      if (lastSignificant before (passed symbols (.keyword word :: rest))).any
          Symbol.isMemberAccess then .body
      else .importKeyword rest
    else if word = "package" ∧ packageAllowed then .packageKeyword rest
    else .body
  | _ => .body

theorem length_of_importKeyword {packageAllowed : Bool} {before : Option Symbol}
    {symbols rest : List Symbol}
    (h : openingOf packageAllowed before symbols = .importKeyword rest) :
    rest.length < symbols.length := by
  unfold openingOf at h
  split at h
  · rename_i word after hafter
    have := length_afterAnnotations symbols
    rw [hafter, List.length_cons] at this
    split at h
    · split at h
      · simp at h
      · simp only [Opening.importKeyword.injEq] at h
        rw [← h]
        omega
    · split at h <;> simp at h
  · simp at h

theorem length_of_packageKeyword {packageAllowed : Bool} {before : Option Symbol}
    {symbols rest : List Symbol}
    (h : openingOf packageAllowed before symbols = .packageKeyword rest) :
    rest.length < symbols.length := by
  unfold openingOf at h
  split at h
  · rename_i word after hafter
    have := length_afterAnnotations symbols
    rw [hafter, List.length_cons] at this
    split at h
    · split at h <;> simp at h
    · split at h
      · simp only [Opening.packageKeyword.injEq] at h
        rw [← h]
        omega
      · simp at h
  · simp at h

/-- Reads the top level of some symbols that end at the position `stop`. `before` is the
last symbol before them that is not trivia; the package clause must come before any body
item and comes once. -/
def topLevel (stop : Nat) (packageAllowed : Bool) (before : Option Symbol)
    (symbols : List Symbol) : Except ParseFault Outline :=
  match symbols with
  | [] => .ok empty
  | symbol :: rest =>
    let start := stop - (rest.length + 1)
    if isSeparator symbol then
      topLevel stop packageAllowed (lastSignificant before [symbol]) rest
    else
      match _ho : openingOf packageAllowed before (symbol :: rest) with
      | .importKeyword after =>
        let keyword := stop - (after.length + 1)
        match _hi : importClause (.keyword "import") after with
        | .error wrong => .error ⟨.malformedImport, stop - wrong.length⟩
        | .ok (clause, next) =>
          (topLevel stop packageAllowed
              (lastSignificant before (passed (symbol :: rest) next)) next).map
            (addImport
              ⟨if start < keyword then some ⟨start, keyword⟩ else none, clause,
                ⟨start, stop - next.length⟩⟩)
      | .packageKeyword after =>
        let keyword := stop - (after.length + 1)
        match _hp : packageClause? after with
        | none => .error ⟨.malformedPackage, keyword⟩
        | some next =>
          (topLevel stop false (lastSignificant before (passed (symbol :: rest) next)) next).map
            fun outline =>
              { outline.addItems (if start < keyword then [.statement ⟨start, keyword⟩] else [])
                with package := some ⟨keyword, stop - next.length⟩ }
      | .body =>
        let first := firstItem stop symbol rest
        (topLevel stop false (lastSignificant before (passed (symbol :: rest) first.2))
            first.2).map (addItems [first.1])
termination_by symbols.length
decreasing_by
  · exact Nat.lt_succ_self _
  · have := length_of_importKeyword _ho
    have := length_importClause _hi
    omega
  · have := length_of_packageKeyword _ho
    have := length_packageClause _hp
    omega
  · have := length_firstItem stop symbol rest
    simp only [List.length_cons]
    omega

def ofSymbols (symbols : List Symbol) : Except ParseFault Outline :=
  match bracketFault? symbols with
  | some fault => .error fault
  | none => topLevel symbols.length true none symbols

end Outline

end UnusedImports
