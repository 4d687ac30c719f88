import UnusedImports.Outline.Nesting

/-!
Well nested symbols. A source without a bracket fault is well nested, and in well nested
symbols the split after an opening bracket finds the bracket that closes it, of the same shape,
with well nested symbols on either side.
-/
namespace UnusedImports

def Symbol.isBracket : Symbol → Bool
  | .opening _ | .closing _ => true
  | _ => false

namespace Outline

/-- The symbols close the pending brackets, the latest first, and all that they open. -/
inductive Nests : List Bracket → List Symbol → Prop
  | nil : Nests [] []
  | opening {bracket : Bracket} {pending : List Bracket} {rest : List Symbol} :
      Nests (bracket :: pending) rest → Nests pending (.opening bracket :: rest)
  | closing {bracket : Bracket} {pending : List Bracket} {rest : List Symbol} :
      Nests pending rest → Nests (bracket :: pending) (.closing bracket :: rest)
  | plain {symbol : Symbol} {pending : List Bracket} {rest : List Symbol} :
      symbol.isBracket = false → Nests pending rest → Nests pending (symbol :: rest)

theorem nests_of_bracketFaultFrom {pending : List (Bracket × Nat)} {position : Nat}
    {symbols : List Symbol} (h : bracketFaultFrom pending position symbols = none) :
    Nests (pending.map Prod.fst) symbols := by
  fun_induction bracketFaultFrom pending position symbols with
  | case1 pending position =>
    cases pending with
    | nil => exact Nests.nil
    | cons last pending => simp at h
  | case2 pending position rest bracket ih => exact Nests.opening (ih h)
  | case3 => simp at h
  | case4 position rest last pending ih => exact Nests.closing (ih h)
  | case5 => simp at h
  | case6 pending position symbol rest hopening hclosing ih =>
    refine Nests.plain ?_ (ih h)
    cases symbol with
    | opening bracket => exact absurd rfl (hopening bracket)
    | closing bracket => exact absurd rfl (hclosing bracket)
    | _ => rfl

theorem nests_of_bracketFault {symbols : List Symbol} (h : bracketFault? symbols = none) :
    Nests [] symbols := nests_of_bracketFaultFrom h

theorem Nests.of_plain {symbols : List Symbol}
    (h : ∀ symbol ∈ symbols, symbol.isBracket = false) : Nests [] symbols := by
  induction symbols with
  | nil => exact Nests.nil
  | cons symbol rest ih =>
    exact Nests.plain (h symbol List.mem_cons_self)
      (ih fun next hnext => h next (List.mem_cons_of_mem symbol hnext))

theorem Nests.append {inner outer : List Bracket} {read rest : List Symbol}
    (hread : Nests inner read) (hrest : Nests outer rest) :
    Nests (inner ++ outer) (read ++ rest) := by
  induction hread with
  | nil => exact hrest
  | opening _ ih => exact Nests.opening ih
  | closing _ ih => exact Nests.closing ih
  | plain hplain _ ih => exact Nests.plain hplain ih

theorem Nests.tail {symbol : Symbol} {pending : List Bracket} {rest : List Symbol}
    (hplain : symbol.isBracket = false) (h : Nests pending (symbol :: rest)) :
    Nests pending rest := by
  cases h with
  | opening _ => simp [Symbol.isBracket] at hplain
  | closing _ => simp [Symbol.isBracket] at hplain
  | plain _ h => exact h

theorem Nests.of_opening {bracket : Bracket} {pending : List Bracket} {rest : List Symbol}
    (h : Nests pending (.opening bracket :: rest)) : Nests (bracket :: pending) rest := by
  cases h with
  | opening h => exact h
  | plain hplain _ => simp [Symbol.isBracket] at hplain

theorem Nests.of_closing {bracket : Bracket} {pending : List Bracket} {rest : List Symbol}
    (h : Nests (bracket :: pending) (.closing bracket :: rest)) : Nests pending rest := by
  cases h with
  | closing h => exact h
  | plain hplain _ => simp [Symbol.isBracket] at hplain

theorem bracketFaultFrom_of_nests {pending : List (Bracket × Nat)} (position : Nat)
    {symbols : List Symbol} (h : Nests (pending.map Prod.fst) symbols) :
    bracketFaultFrom pending position symbols = none := by
  fun_induction bracketFaultFrom pending position symbols with
  | case1 pending position =>
    cases pending with
    | nil => rfl
    | cons last pending => cases h
  | case2 pending position rest bracket ih => exact ih h.of_opening
  | case3 position rest bracket =>
    cases h with
    | plain hplain _ => simp [Symbol.isBracket] at hplain
  | case4 position rest last pending ih =>
    cases h with
    | closing h => exact ih h
    | plain hplain _ => simp [Symbol.isBracket] at hplain
  | case5 position rest bracket last pending hne =>
    cases h with
    | closing _ => exact absurd rfl hne
    | plain hplain _ => simp [Symbol.isBracket] at hplain
  | case6 pending position symbol rest hopening hclosing ih =>
    refine ih (h.tail ?_)
    cases symbol with
    | opening bracket => exact absurd rfl (hopening bracket)
    | closing bracket => exact absurd rfl (hclosing bracket)
    | _ => rfl

/-- Symbols that nest have no bracket fault. -/
theorem bracketFault_of_nests {symbols : List Symbol} (h : Nests [] symbols) :
    bracketFault? symbols = none := bracketFaultFrom_of_nests 0 h

/-- What follows well nested symbols closes what they leave pending. -/
theorem Nests.of_append {inner outer : List Bracket} {read rest : List Symbol}
    (hread : Nests inner read) (h : Nests (inner ++ outer) (read ++ rest)) :
    Nests outer rest := by
  induction hread with
  | nil => exact h
  | opening _ ih => exact ih h.of_opening
  | closing _ ih => exact ih h.of_closing
  | plain hplain _ ih => exact ih (h.tail hplain)

theorem Nests.head_ne_closing {bracket : Bracket} {rest : List Symbol} :
    ¬ Nests [] (.closing bracket :: rest) := by
  intro h
  cases h with
  | plain hplain _ => simp [Symbol.isBracket] at hplain

/-- The split of a group finds the bracket that closes it. -/
theorem splitGroup_of_nests (inner : List Bracket) {outer : List Bracket} {bracket : Bracket}
    {symbols : List Symbol} (h : Nests (inner ++ bracket :: outer) symbols) :
    symbols = (splitGroup inner.length symbols).1 ++
        .closing bracket :: (splitGroup inner.length symbols).2 ∧
      Nests inner (splitGroup inner.length symbols).1 ∧
      Nests outer (splitGroup inner.length symbols).2 := by
  -- The brackets opened on the way are added to `inner`, one for each level of the split.
  induction symbols generalizing inner with
  | nil =>
    cases inner with
    | nil => cases h
    | cons _ _ => cases h
  | cons symbol rest ih =>
    cases hshape : symbol with
    | opening bracket =>
      subst hshape
      obtain ⟨hsplit, hinside, hafter⟩ := ih (bracket :: inner) h.of_opening
      refine ⟨?_, ?_, ?_⟩
      · simpa [splitGroup] using hsplit
      · simpa [splitGroup] using Nests.opening hinside
      · simpa [splitGroup] using hafter
    | closing bracket =>
      subst hshape
      cases inner with
      | nil =>
        cases h with
        | closing h => exact ⟨rfl, Nests.nil, h⟩
        | plain hplain _ => simp [Symbol.isBracket] at hplain
      | cons last inner =>
        cases h with
        | closing h =>
          obtain ⟨hsplit, hinside, hafter⟩ := ih inner h
          refine ⟨?_, ?_, ?_⟩
          · simpa [splitGroup] using hsplit
          · simpa [splitGroup] using Nests.closing hinside
          · simpa [splitGroup] using hafter
        | plain hplain _ => simp [Symbol.isBracket] at hplain
    | _ =>
      have hplain : symbol.isBracket = false := by simp [hshape, Symbol.isBracket]
      obtain ⟨hsplit, hinside, hafter⟩ := ih inner (h.tail hplain)
      subst hshape
      refine ⟨?_, ?_, ?_⟩
      · simpa [splitGroup] using hsplit
      · simpa [splitGroup] using Nests.plain hplain hinside
      · simpa [splitGroup] using hafter

/-- A group that is opened is closed by a bracket of its shape. -/
theorem splitGroup_zero_of_nests {outer : List Bracket} {bracket : Bracket}
    {rest : List Symbol} (h : Nests outer (.opening bracket :: rest)) :
    rest = (splitGroup 0 rest).1 ++ .closing bracket :: (splitGroup 0 rest).2 ∧
      Nests [] (splitGroup 0 rest).1 ∧ Nests outer (splitGroup 0 rest).2 :=
  splitGroup_of_nests [] h.of_opening

end Outline

end UnusedImports
