import UnusedImports.Outline.Symbol

/-!
Bracket structure. A source whose brackets do not match is refused as a whole: the fault is
the first closing bracket that does not fit, or else the last bracket left open. In a source
whose brackets match, the end of a group is found by counting.
-/
namespace UnusedImports

inductive ParseCause where
  | unbalancedBracket (bracket : Bracket)
  | unclosedBracket (bracket : Bracket)
  | malformedImport
  | malformedPackage
deriving DecidableEq

def ParseCause.message : ParseCause → String
  | .unbalancedBracket bracket => "unbalanced closing `" ++ bracket.closing ++ "`"
  | .unclosedBracket bracket => "unclosed `" ++ bracket.opening ++ "`"
  | .malformedImport => "malformed import statement"
  | .malformedPackage => "malformed package clause"

structure ParseFault where
  cause : ParseCause
  position : Nat
deriving DecidableEq

namespace Outline

/-- The fault in the bracket structure of symbols that start at `position`, after the
brackets in `pending` were opened, the latest first. -/
def bracketFaultFrom (pending : List (Bracket × Nat)) (position : Nat) :
    List Symbol → Option ParseFault
  | [] => pending.head?.map fun last => ⟨.unclosedBracket last.1, last.2⟩
  | symbol :: rest =>
    match symbol with
    | .opening bracket => bracketFaultFrom ((bracket, position) :: pending) (position + 1) rest
    | .closing bracket =>
      match pending with
      | [] => some ⟨.unbalancedBracket bracket, position⟩
      | last :: pending =>
        if last.1 = bracket then bracketFaultFrom pending (position + 1) rest
        else some ⟨.unbalancedBracket bracket, position⟩
    | _ => bracketFaultFrom pending (position + 1) rest

def bracketFault? (symbols : List Symbol) : Option ParseFault := bracketFaultFrom [] 0 symbols

/-- Splits the symbols after an opening bracket into those inside the group and those after
the bracket that closes it, when `nested` further groups are open. -/
def splitGroup (nested : Nat) : List Symbol → List Symbol × List Symbol
  | [] => ([], [])
  | symbol :: rest =>
    match symbol, nested with
    | .closing _, 0 => ([], rest)
    | .closing _, nested + 1 => (splitGroup nested rest).map (symbol :: ·) id
    | .opening _, nested => (splitGroup (nested + 1) rest).map (symbol :: ·) id
    | _, nested => (splitGroup nested rest).map (symbol :: ·) id

/-- The position of the bracket that closes the one at a position, where the split of the group
finds it. -/
def closing? (symbols : List Symbol) (position : Nat) : Option Nat :=
  match symbols[position]? with
  | some (.opening _) =>
    some (position + 1 + (splitGroup 0 (symbols.drop (position + 1))).1.length)
  | _ => none

def afterGroup (symbols : List Symbol) : List Symbol := (splitGroup 0 symbols).2

theorem length_splitGroup (nested : Nat) (symbols : List Symbol) :
    (splitGroup nested symbols).1.length + (splitGroup nested symbols).2.length ≤
      symbols.length := by
  fun_induction splitGroup nested symbols with
  | case1 => exact Nat.le_refl _
  | case2 => simp
  | case3 => simp only [List.length_cons, Prod.map_fst, Prod.map_snd, id] at *; omega
  | case4 => simp only [List.length_cons, Prod.map_fst, Prod.map_snd, id] at *; omega
  | case5 => simp only [List.length_cons, Prod.map_fst, Prod.map_snd, id] at *; omega

theorem length_afterGroup (symbols : List Symbol) :
    (afterGroup symbols).length ≤ symbols.length := by
  have h := length_splitGroup 0 symbols
  unfold afterGroup
  omega

end Outline

end UnusedImports
