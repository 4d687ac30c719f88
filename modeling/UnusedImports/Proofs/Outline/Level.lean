import UnusedImports.Proofs.Outline.Item

/-!
Bracket levels. The level after some symbols is the number of brackets that they open less the
number that they close. In well nested symbols no stretch from the start closes more than it opens,
and all of them close just what they open, so a position has level zero exactly if what stands
before it is well nested. A statement is broken at no line end or semicolon of level zero.
-/
namespace UnusedImports

namespace Symbol

def isOpening : Symbol → Bool
  | .opening _ => true
  | _ => false

def isClosing : Symbol → Bool
  | .closing _ => true
  | _ => false

/-- Whether a statement breaks off at the symbol outside brackets. -/
def breaks : Symbol → Bool
  | .newline | .semicolon => true
  | _ => false

theorem not_isOpening_of_plain {symbol : Symbol} (h : symbol.isBracket = false) :
    symbol.isOpening = false ∧ symbol.isClosing = false := by
  cases symbol <;> simp_all [isBracket, isOpening, isClosing]

end Symbol

namespace Outline

def level (symbols : List Symbol) : Nat :=
  symbols.countP Symbol.isOpening - symbols.countP Symbol.isClosing

def Rises (symbols : List Symbol) : Prop :=
  symbols.countP Symbol.isClosing ≤ symbols.countP Symbol.isOpening

section Counting

variable {pending : List Bracket} {first second symbols : List Symbol}

/-- Well nested symbols close what they open and what was pending before them. -/
theorem Nests.countP_eq (h : Nests pending symbols) :
    symbols.countP Symbol.isClosing = symbols.countP Symbol.isOpening + pending.length := by
  induction h with
  | nil => rfl
  | opening _ ih =>
    rw [List.countP_cons_of_pos (p := Symbol.isOpening) rfl,
      List.countP_cons_of_neg (by simp [Symbol.isClosing]), ih,
      List.length_cons]
    omega
  | closing _ ih =>
    rw [List.countP_cons_of_pos (p := Symbol.isClosing) rfl,
      List.countP_cons_of_neg (by simp [Symbol.isOpening]), ih,
      List.length_cons]
    omega
  | plain hplain _ ih =>
    obtain ⟨hopening, hclosing⟩ := Symbol.not_isOpening_of_plain hplain
    rw [List.countP_cons_of_neg (by simp [hclosing]), List.countP_cons_of_neg (by simp [hopening]),
      ih]

/-- A stretch from their start closes no more than it opens and was pending before it. -/
theorem Nests.countP_le (h : Nests pending (first ++ second)) :
    first.countP Symbol.isClosing ≤ first.countP Symbol.isOpening + pending.length := by
  induction first generalizing pending with
  | nil => simp
  | cons symbol first ih =>
    rw [List.cons_append] at h
    cases h with
    | opening h =>
      have hle := ih h
      rw [List.countP_cons_of_pos (p := Symbol.isOpening) rfl,
        List.countP_cons_of_neg (by simp [Symbol.isClosing])]
      rw [List.length_cons] at hle
      omega
    | closing h =>
      have hle := ih h
      rw [List.countP_cons_of_pos (p := Symbol.isClosing) rfl,
        List.countP_cons_of_neg (by simp [Symbol.isOpening]), List.length_cons]
      omega
    | plain hplain h =>
      obtain ⟨hopening, hclosing⟩ := Symbol.not_isOpening_of_plain hplain
      rw [List.countP_cons_of_neg (by simp [hclosing]),
        List.countP_cons_of_neg (by simp [hopening])]
      exact ih h

theorem Nests.rises (h : Nests [] (first ++ second)) : Rises first := h.countP_le

/-- After well nested symbols the level is that of what follows them. -/
theorem level_append (h : Nests [] first) (second : List Symbol) :
    level (first ++ second) = level second := by
  have hcount := h.countP_eq
  simp only [level, List.countP_append, List.length_nil, Nat.add_zero] at hcount ⊢
  omega

theorem level_eq_zero (h : Nests [] symbols) : level symbols = 0 := by
  have hlevel := level_append h []
  rwa [List.append_nil] at hlevel

/-- A bracket that is opened stays open as long as no more is closed than opened behind it. -/
theorem level_pos (bracket : Bracket) (hfirst : Rises first) (hsecond : Rises second) :
    0 < level (first ++ .opening bracket :: second) := by
  simp only [level, List.countP_append, Rises] at *
  rw [List.countP_cons_of_pos (p := Symbol.isOpening) rfl,
    List.countP_cons_of_neg (by simp [Symbol.isClosing])]
  omega

/-- Up to the end of what is well nested behind an opening bracket, all positions are inside it. -/
theorem level_take_pos (hsymbols : Nests [] symbols) {bracket : Bracket} {first stop : Nat}
    (hopening : symbols[first]? = some (.opening bracket))
    (hinside : Nests [] (Extent.slice ⟨first + 1, stop⟩ symbols)) {position : Nat}
    (hfirst : first < position) (hstop : position ≤ stop) : 0 < level (symbols.take position) := by
  obtain ⟨count, rfl⟩ := Nat.exists_eq_add_of_lt hfirst
  obtain ⟨hbound, hget⟩ := List.getElem?_eq_some_iff.mp hopening
  have htake : symbols.take (first + count + 1) =
      symbols.take first ++ .opening bracket :: (symbols.drop (first + 1)).take count := by
    rw [Nat.add_assoc, List.take_add, List.drop_eq_getElem_cons hbound, hget, List.take_succ_cons]
  have hbefore : Rises (symbols.take first) := by
    rw [← List.take_append_drop first symbols] at hsymbols
    exact hsymbols.rises
  have hbody : Rises ((symbols.drop (first + 1)).take count) := by
    rw [Extent.slice, ← List.take_append_drop count (List.take _ _), List.take_take,
      Nat.min_eq_left (by simp only; omega)] at hinside
    exact hinside.rises
  rw [htake]
  exact level_pos bracket hbefore hbody

theorem level_append_of_plain (first : List Symbol)
    (h : ∀ symbol ∈ second, symbol.isBracket = false) : level (first ++ second) = level first := by
  have hopening : second.countP Symbol.isOpening = 0 := by
    refine List.countP_eq_zero.mpr fun symbol hmem => ?_
    simp [(Symbol.not_isOpening_of_plain (h symbol hmem)).1]
  have hclosing : second.countP Symbol.isClosing = 0 := by
    refine List.countP_eq_zero.mpr fun symbol hmem => ?_
    simp [(Symbol.not_isOpening_of_plain (h symbol hmem)).2]
  simp [level, List.countP_append, hopening, hclosing]

end Counting

/-- A line end or a semicolon among the symbols stands in brackets that they open. -/
def Unbroken (symbols : List Symbol) : Prop :=
  ∀ first symbol second, symbols = first ++ symbol :: second → symbol.breaks = true →
    0 < level first

theorem Unbroken.nil : Unbroken [] := by
  intro first symbol second h
  simp at h

theorem Unbroken.cons {symbol : Symbol} {rest : List Symbol} (hsymbol : symbol.breaks = false)
    (hplain : symbol.isBracket = false) (h : Unbroken rest) : Unbroken (symbol :: rest) := by
  intro first next second hsplit hnext
  cases first with
  | nil =>
    obtain ⟨rfl, -⟩ := List.cons.inj hsplit
    simp [hsymbol] at hnext
  | cons head first =>
    obtain ⟨rfl, hrest⟩ := List.cons.inj hsplit
    rw [show symbol :: first = [symbol] ++ first from rfl,
      level_append (Nests.plain hplain Nests.nil)]
    exact h first next second hrest hnext

/-- A group is passed over as a whole. -/
theorem Unbroken.group {bracket : Bracket} {inside rest : List Symbol} (hinside : Nests [] inside)
    (h : Unbroken rest) : Unbroken (.opening bracket :: (inside ++ .closing bracket :: rest)) := by
  have hgroup : Nests [] (.opening bracket :: (inside ++ [.closing bracket])) :=
    Nests.opening (hinside.append (Nests.closing Nests.nil))
  intro first symbol second hsplit hsymbol
  cases first with
  | nil =>
    obtain ⟨rfl, -⟩ := List.cons.inj hsplit
    simp [Symbol.breaks] at hsymbol
  | cons head first =>
    obtain ⟨rfl, hrest⟩ := List.cons.inj hsplit
    rcases List.append_eq_append_iff.mp hrest with ⟨more, hfirst, hmore⟩ | ⟨more, hinside', -⟩
    · cases more with
      | nil =>
        obtain ⟨rfl, -⟩ := List.cons.inj hmore
        simp [Symbol.breaks] at hsymbol
      | cons close more =>
        obtain ⟨rfl, hafter⟩ := List.cons.inj hmore
        rw [hfirst, show Symbol.opening bracket :: (inside ++ .closing bracket :: more) =
          .opening bracket :: (inside ++ [.closing bracket]) ++ more by simp, level_append hgroup]
        exact h more symbol second hafter hsymbol
    · rw [hinside'] at hinside
      have hnil : Rises [] := Nat.le_refl _
      exact level_pos bracket hnil hinside.rises

/-- A statement goes on over line ends and semicolons in brackets only. -/
theorem exists_unbroken (symbols : List Symbol) (hnests : Nests [] symbols) :
    ∃ read, symbols = read ++ statementEnd symbols ∧ Unbroken read := by
  fun_induction statementEnd symbols with
  | case1 => exact ⟨[], rfl, Unbroken.nil⟩
  | case2 rest => exact ⟨[], rfl, Unbroken.nil⟩
  | case3 rest => exact ⟨[], rfl, Unbroken.nil⟩
  | case4 rest bracket ih =>
    obtain ⟨hsplit, hinside, hafter⟩ := splitGroup_zero_of_nests hnests
    obtain ⟨read, hread, hunbroken⟩ := ih hafter
    refine ⟨.opening bracket :: ((splitGroup 0 rest).1 ++ .closing bracket :: read), ?_,
      Unbroken.group hinside hunbroken⟩
    conv => lhs; rw [hsplit, show (splitGroup 0 rest).2 = afterGroup rest from rfl, hread]
    simp
  | case5 symbol rest hnewline hsemicolon hopening ih =>
    have hplain : symbol.isBracket = false := by
      cases symbol with
      | opening bracket => exact absurd rfl (hopening bracket)
      | closing bracket => exact absurd hnests Nests.head_ne_closing
      | _ => rfl
    have hgoes : symbol.breaks = false := by cases symbol <;> simp_all [Symbol.breaks]
    obtain ⟨read, hread, hunbroken⟩ := ih (hnests.tail hplain)
    refine ⟨symbol :: read, ?_, hunbroken.cons hgoes hplain⟩
    conv => lhs; rw [hread]
    simp

theorem afterStatement_eq {symbol : Symbol} (h : isSeparator symbol = false) (rest : List Symbol) :
    afterStatement symbol rest = statementEnd (symbol :: rest) := by
  cases symbol <;> simp_all [afterStatement, statementEnd, isSeparator, Symbol.isTrivia]

/-- What a statement reads is unbroken. -/
theorem unbroken_of_afterStatement {symbol : Symbol} {rest read : List Symbol}
    (hsymbol : isSeparator symbol = false) (hnests : Nests [] (symbol :: rest))
    (hread : symbol :: rest = read ++ afterStatement symbol rest) : Unbroken read := by
  obtain ⟨whole, hwhole, hunbroken⟩ := exists_unbroken _ hnests
  rw [← afterStatement_eq hsymbol rest, hread] at hwhole
  rwa [List.append_cancel_right hwhole]

end Outline

end UnusedImports
