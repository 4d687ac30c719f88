import UnusedImports.Proofs.Outline.Nesting
import UnusedImports.Proofs.Outline.Symbol

/-!
Brackets that match. Tokens are well nested if their brackets are groups inside and beside one
another, and a bracket closes the latest one that is open before it, provided that both have the
same shape. The check of the bracket structure accepts just the tokens that are well nested, the
end of a group that it finds is the bracket that closes it, and the fault it reports is the first
closing bracket that does not close anything, or else the last opening one that is not closed.
-/
namespace UnusedImports

namespace Token

def Opens (token : Token) (bracket : Bracket) : Prop :=
  token.kind = .operator ∧ token.text = bracket.opening

def Closes (token : Token) (bracket : Bracket) : Prop :=
  token.kind = .operator ∧ token.text = bracket.closing

/-- Tokens whose brackets are groups inside and beside one another. -/
inductive WellNested : List Token → Prop
  | nil : WellNested []
  | plain {token : Token} {rest : List Token}
      (hplain : ∀ bracket, ¬ token.Opens bracket ∧ ¬ token.Closes bracket)
      (hrest : WellNested rest) : WellNested (token :: rest)
  | group {opening closing : Token} {bracket : Bracket} {inside rest : List Token}
      (hopens : opening.Opens bracket) (hinside : WellNested inside)
      (hcloses : closing.Closes bracket) (hrest : WellNested rest) :
      WellNested (opening :: (inside ++ closing :: rest))

/-- Of the brackets that are open before a position the latest is the one at `first`: what stands
between is well nested. -/
def LatestOpen (tokens : List Token) (position first : Nat) (bracket : Bracket) : Prop :=
  ∃ before opening inside, tokens.take position = before ++ opening :: inside ∧
    before.length = first ∧ opening.Opens bracket ∧ WellNested inside

def Matches (tokens : List Token) (first last : Nat) : Prop :=
  ∃ bracket closing, LatestOpen tokens last first bracket ∧ tokens[last]? = some closing ∧
    closing.Closes bracket

section Symbols

variable {token : Token} {bracket : Bracket}

theorem symbol_eq_opening_iff : token.symbol = .opening bracket ↔ token.Opens bracket := by
  constructor
  · intro h
    have hsign := isSign_of_symbol (show token.symbol.sign? = some bracket.opening by rw [h]; rfl)
    simpa [isSign, Opens] using hsign
  · rintro ⟨hkind, htext⟩
    rw [symbol, hkind, htext]
    cases bracket <;> rfl

theorem symbol_eq_closing_iff : token.symbol = .closing bracket ↔ token.Closes bracket := by
  constructor
  · intro h
    have hsign := isSign_of_symbol (show token.symbol.sign? = some bracket.closing by rw [h]; rfl)
    simpa [isSign, Closes] using hsign
  · rintro ⟨hkind, htext⟩
    rw [symbol, hkind, htext]
    cases bracket <;> rfl

theorem isBracket_symbol_iff :
    token.symbol.isBracket = false ↔
      ∀ bracket, ¬ token.Opens bracket ∧ ¬ token.Closes bracket := by
  simp only [← symbol_eq_opening_iff, ← symbol_eq_closing_iff]
  constructor
  · intro h bracket
    constructor <;> intro heq <;> simp [heq, Symbol.isBracket] at h
  · intro h
    cases hsymbol : token.symbol with
    | opening bracket => exact absurd hsymbol (h bracket).1
    | closing bracket => exact absurd hsymbol (h bracket).2
    | _ => rfl

theorem Opens.unique {other : Bracket} (h : token.Opens bracket) (hother : token.Opens other) :
    bracket = other :=
  Symbol.opening.inj
    ((symbol_eq_opening_iff.mpr h).symm.trans (symbol_eq_opening_iff.mpr hother))

theorem Closes.unique {other : Bracket} (h : token.Closes bracket) (hother : token.Closes other) :
    bracket = other :=
  Symbol.closing.inj
    ((symbol_eq_closing_iff.mpr h).symm.trans (symbol_eq_closing_iff.mpr hother))

theorem Opens.not_closes {other : Bracket} (h : token.Opens bracket) : ¬ token.Closes other := by
  intro hcloses
  have hsame := (symbol_eq_opening_iff.mpr h).symm.trans (symbol_eq_closing_iff.mpr hcloses)
  simp at hsame

end Symbols

end Token

namespace Outline

/-- Symbols close just one stack of pending brackets. -/
theorem Nests.unique {pending other : List Bracket} {symbols : List Symbol}
    (h : Nests pending symbols) (hother : Nests other symbols) : pending = other := by
  induction h generalizing other with
  | nil =>
    cases hother
    rfl
  | opening _ ih => exact (List.cons.inj (ih hother.of_opening)).2
  | closing _ ih =>
    cases hother with
    | closing hrest => rw [ih hrest]
    | plain hplain _ => simp [Symbol.isBracket] at hplain
  | plain hplain _ ih => exact ih (hother.tail hplain)

/-- What stands behind the first symbols closes what they leave pending. -/
theorem Nests.exists_pending {pending : List Bracket} {first second : List Symbol}
    (h : Nests pending (first ++ second)) : ∃ later, Nests later second := by
  induction first generalizing pending with
  | nil => exact ⟨pending, h⟩
  | cons symbol first ih =>
    cases h with
    | opening hrest => exact ih hrest
    | closing hrest => exact ih hrest
    | plain _ hrest => exact ih hrest

end Outline

namespace Token

open Outline

theorem exists_append_of_getElem? {tokens : List Token} {position : Nat} {token : Token}
    (h : tokens[position]? = some token) :
    ∃ before after, tokens = before ++ token :: after ∧ before.length = position := by
  obtain ⟨hlt, rfl⟩ := List.getElem?_eq_some_iff.mp h
  refine ⟨tokens.take position, tokens.drop (position + 1), ?_, ?_⟩
  · rw [← List.drop_eq_getElem_cons hlt, List.take_append_drop]
  · rw [List.length_take, Nat.min_eq_left (Nat.le_of_lt hlt)]

section Nesting

variable {tokens read inside rest : List Token} {opening closing : Token} {bracket : Bracket}

/-- The groups of the tokens are those of their symbols. -/
theorem wellNested_iff : WellNested tokens ↔ Nests [] (tokens.map symbol) := by
  constructor
  · intro h
    induction h with
    | nil => exact .nil
    | plain hplain _ ih => exact .plain (isBracket_symbol_iff.mpr hplain) ih
    | group hopens _ hcloses _ ihinside ihrest =>
      rw [List.map_cons, List.map_append, List.map_cons, symbol_eq_opening_iff.mpr hopens,
        symbol_eq_closing_iff.mpr hcloses]
      exact .opening (ihinside.append (.closing ihrest))
  · -- The rest behind a group is shorter than the tokens, and so is what stands inside.
    induction hlength : tokens.length using Nat.strongRecOn generalizing tokens with
    | _ length ih =>
      intro h
      cases tokens with
      | nil => exact .nil
      | cons token tokens =>
        rw [List.length_cons] at hlength
        by_cases hplain : token.symbol.isBracket = false
        · exact .plain (isBracket_symbol_iff.mp hplain) (ih _ (by omega) rfl (h.tail hplain))
        · cases hsymbol : token.symbol with
          | opening bracket =>
            rw [List.map_cons, hsymbol] at h
            obtain ⟨hsplit, hinside, hafter⟩ := splitGroup_zero_of_nests h
            obtain ⟨inside, later, rfl, hinside', hlater⟩ := List.map_eq_append_iff.mp hsplit
            obtain ⟨closing, rest, rfl, hcloses, hrest⟩ := List.map_eq_cons_iff.mp hlater
            rw [List.length_append, List.length_cons] at hlength
            exact .group (symbol_eq_opening_iff.mp hsymbol)
              (ih _ (by omega) rfl (hinside' ▸ hinside)) (symbol_eq_closing_iff.mp hcloses)
              (ih _ (by omega) rfl (hrest ▸ hafter))
          | closing bracket =>
            rw [List.map_cons, hsymbol] at h
            exact absurd h Nests.head_ne_closing
          | _ => simp [hsymbol, Symbol.isBracket] at hplain

theorem WellNested.append (hread : WellNested read) (hrest : WellNested rest) :
    WellNested (read ++ rest) := by
  rw [wellNested_iff, List.map_append]
  exact (wellNested_iff.mp hread).append (wellNested_iff.mp hrest)

/-- Nothing is closed behind well nested tokens that was not opened before them. -/
theorem not_wellNested_closing (hread : WellNested read) (hcloses : closing.Closes bracket) :
    ¬ WellNested (read ++ closing :: rest) := by
  intro h
  rw [wellNested_iff, List.map_append, List.map_cons, symbol_eq_closing_iff.mpr hcloses] at h
  exact Nests.head_ne_closing ((wellNested_iff.mp hread).of_append h)

/-- What is opened before well nested tokens is not closed by them. -/
theorem not_wellNested_opening (hopens : opening.Opens bracket) (hinside : WellNested inside) :
    ¬ WellNested (read ++ opening :: inside) := by
  intro h
  rw [wellNested_iff, List.map_append, List.map_cons, symbol_eq_opening_iff.mpr hopens] at h
  obtain ⟨pending, hpending⟩ := h.exists_pending
  exact absurd (hpending.of_opening.unique (wellNested_iff.mp hinside)) (by simp)

/-- A bracket that opens in well nested tokens opens a group, which is split from the rest. -/
theorem WellNested.exists_group (h : WellNested (read ++ opening :: rest))
    (hopens : opening.Opens bracket) :
    ∃ inside closing after, rest = inside ++ closing :: after ∧ WellNested inside ∧
      closing.Closes bracket ∧
      splitGroup 0 (rest.map symbol) = (inside.map symbol, after.map symbol) := by
  rw [wellNested_iff, List.map_append, List.map_cons, symbol_eq_opening_iff.mpr hopens] at h
  obtain ⟨pending, hpending⟩ := h.exists_pending
  obtain ⟨hrest, hinside, -⟩ := splitGroup_zero_of_nests hpending
  obtain ⟨inside, later, rfl, hinside', hlater⟩ := List.map_eq_append_iff.mp hrest
  obtain ⟨closing, after, rfl, hcloses, hafter⟩ := List.map_eq_cons_iff.mp hlater
  exact ⟨inside, closing, after, rfl, wellNested_iff.mpr (hinside' ▸ hinside),
    symbol_eq_closing_iff.mp hcloses, Prod.ext hinside'.symm hafter.symm⟩

end Nesting

section Matching

variable {tokens : List Token} {position first last : Nat} {bracket : Bracket}

theorem LatestOpen.lt (h : LatestOpen tokens position first bracket) : first < position := by
  obtain ⟨before, opening, inside, htake, rfl, -, -⟩ := h
  have hlength := congrArg List.length htake
  rw [List.length_take, List.length_append, List.length_cons] at hlength
  omega

/-- Only one bracket is the latest that is open. -/
theorem LatestOpen.unique {other : Nat} {shape : Bracket}
    (h : LatestOpen tokens position first bracket)
    (hother : LatestOpen tokens position other shape) : first = other ∧ bracket = shape := by
  obtain ⟨before, opening, inside, htake, rfl, hopens, hinside⟩ := h
  obtain ⟨before', opening', inside', htake', rfl, hopens', hinside'⟩ := hother
  rcases List.append_eq_append_iff.mp (htake.symm.trans htake') with
    ⟨more, rfl, hmore⟩ | ⟨more, rfl, hmore⟩
  · cases more with
    | nil =>
      obtain ⟨rfl, rfl⟩ := List.cons.inj hmore
      exact ⟨by simp, hopens.unique hopens'⟩
    | cons token more =>
      obtain ⟨rfl, rfl⟩ := List.cons.inj hmore
      exact absurd hinside (not_wellNested_opening hopens' hinside')
  · cases more with
    | nil =>
      obtain ⟨rfl, rfl⟩ := List.cons.inj hmore
      exact ⟨by simp, hopens.unique hopens'⟩
    | cons token more =>
      obtain ⟨rfl, rfl⟩ := List.cons.inj hmore
      exact absurd hinside' (not_wellNested_opening hopens hinside)

/-- What holds of some of the tokens holds of them in their place. -/
theorem LatestOpen.within {inside : List Token} (before after : List Token)
    (h : LatestOpen inside position first bracket) (hposition : position ≤ inside.length) :
    LatestOpen (before ++ (inside ++ after)) (before.length + position) (before.length + first)
      bracket := by
  obtain ⟨earlier, opening, nested, htake, rfl, hopens, hnested⟩ := h
  refine ⟨before ++ earlier, opening, nested, ?_, by simp, hopens, hnested⟩
  rw [List.take_length_add_append, List.take_append_of_le_length hposition, htake,
    List.append_assoc]

theorem Matches.lt (h : Matches tokens first last) : first < last := by
  obtain ⟨bracket, closing, hopen, -, -⟩ := h
  exact hopen.lt

theorem Matches.exists_opens (h : Matches tokens first last) :
    ∃ token bracket, tokens[first]? = some token ∧ token.Opens bracket := by
  obtain ⟨bracket, _, hopen, -, -⟩ := h
  have hlt := hopen.lt
  obtain ⟨before, opening, inside, htake, rfl, hopens, -⟩ := hopen
  refine ⟨opening, bracket, ?_, hopens⟩
  rw [← List.getElem?_take_of_lt hlt, htake]
  simp

theorem Matches.wellNested (h : Matches tokens first last) :
    WellNested (Extent.slice ⟨first + 1, last⟩ tokens) := by
  obtain ⟨bracket, _, ⟨before, opening, inside, htake, rfl, -, hinside⟩, -, -⟩ := h
  have hslice : Extent.slice ⟨before.length + 1, last⟩ tokens = inside := by
    rw [Extent.slice, ← List.drop_take, htake, List.drop_append]
    simp
  rwa [hslice]

theorem Matches.within {inside : List Token} (before after : List Token)
    (h : Matches inside first last) :
    Matches (before ++ (inside ++ after)) (before.length + first) (before.length + last) := by
  obtain ⟨bracket, closing, hopen, hclosing, hcloses⟩ := h
  obtain ⟨hlast, -⟩ := List.getElem?_eq_some_iff.mp hclosing
  refine ⟨bracket, closing, hopen.within before after (Nat.le_of_lt hlast), ?_, hcloses⟩
  rw [List.getElem?_append_right (Nat.le_add_right _ _), Nat.add_sub_cancel_left,
    List.getElem?_append_left hlast, hclosing]

theorem matches_of_group {before inside after : List Token} {opening closing : Token}
    (hopens : opening.Opens bracket) (hinside : WellNested inside)
    (hcloses : closing.Closes bracket) :
    Matches (before ++ opening :: (inside ++ closing :: after)) before.length
      (before ++ opening :: inside).length := by
  rw [show before ++ opening :: (inside ++ closing :: after) =
    (before ++ opening :: inside) ++ closing :: after by simp]
  exact ⟨bracket, closing, ⟨before, opening, inside, List.take_left, rfl, hopens, hinside⟩,
    by simp, hcloses⟩

/-- A bracket that is closed before a position is not open there. -/
theorem LatestOpen.not_matches (h : LatestOpen tokens position first bracket)
    (hlt : last < position) : ¬ Matches tokens first last := by
  rintro ⟨shape, closing, ⟨before', opening', inside', htake', hfirst', -, hinside'⟩, hclosing,
    hcloses⟩
  obtain ⟨before, opening, inside, htake, hfirst, -, hinside⟩ := h
  obtain ⟨read, rest, rfl, rfl⟩ := exists_append_of_getElem? hclosing
  rw [List.take_left] at htake'
  rw [List.take_append, List.take_of_length_le (Nat.le_of_lt hlt),
    show position - read.length = position - read.length - 1 + 1 by omega, List.take_succ_cons,
    htake', List.append_assoc] at htake
  obtain ⟨-, hsame⟩ := List.append_inj htake (by omega)
  obtain ⟨-, hsame⟩ := List.cons.inj hsame
  exact not_wellNested_closing hinside' hcloses (hsame ▸ hinside)

theorem Matches.unique {other : Nat} (h : Matches tokens first last)
    (hother : Matches tokens first other) : last = other := by
  obtain ⟨_, _, hopen, -⟩ := id h
  obtain ⟨_, _, hopen', -⟩ := id hother
  rcases Nat.lt_trichotomy last other with hlt | heq | hgt
  · exact absurd h (hopen'.not_matches hlt)
  · exact heq
  · exact absurd hother (hopen.not_matches hgt)

end Matching

section Reading

variable {before rest tokens : List Token} {pending : List (Bracket × Nat)} {bracket : Bracket}
  {position : Nat}

/-- The tokens are well nested but for some brackets that they leave open, the latest first, each
with its position. -/
inductive Leaves : List Token → List (Bracket × Nat) → Prop
  | nested {read : List Token} (hread : WellNested read) : Leaves read []
  | opening {before inside : List Token} {opening : Token} {bracket : Bracket}
      {pending : List (Bracket × Nat)} (hbefore : Leaves before pending)
      (hopens : opening.Opens bracket) (hinside : WellNested inside) :
      Leaves (before ++ opening :: inside) ((bracket, before.length) :: pending)

theorem Leaves.append (h : Leaves before pending) (hrest : WellNested rest) :
    Leaves (before ++ rest) pending := by
  cases h with
  | nested hread => exact .nested (hread.append hrest)
  | opening hbefore hopens hinside =>
    rw [List.append_assoc, List.cons_append]
    exact .opening hbefore hopens (hinside.append hrest)

theorem Leaves.close {closing : Token} {first : Nat}
    (h : Leaves before ((bracket, first) :: pending)) (hcloses : closing.Closes bracket) :
    Leaves (before ++ [closing]) pending := by
  cases h with
  | opening hbefore hopens hinside =>
    rw [List.append_assoc, List.cons_append]
    exact hbefore.append (.group hopens hinside hcloses .nil)

/-- The latest of the brackets left open is the latest that is open behind the tokens. -/
theorem Leaves.latestOpen {first : Nat} (h : Leaves before ((bracket, first) :: pending))
    (rest : List Token) : LatestOpen (before ++ rest) before.length first bracket := by
  cases h with
  | opening _ hopens hinside => exact ⟨_, _, _, List.take_left, rfl, hopens, hinside⟩

theorem Leaves.not_latestOpen (h : Leaves before []) (rest : List Token) (first : Nat) :
    ¬ LatestOpen (before ++ rest) before.length first bracket := by
  rintro ⟨earlier, opening, inside, htake, -, hopens, hinside⟩
  rw [List.take_left] at htake
  cases h with
  | nested hread => exact not_wellNested_opening hopens hinside (htake ▸ hread)

def ClosesLatest (tokens : List Token) (position : Nat) : Prop :=
  ∀ last closing bracket, last < position → tokens[last]? = some closing →
    closing.Closes bracket → ∃ first, LatestOpen tokens last first bracket

/-- The first bracket that does not close anything, or else the last one that is not closed. -/
inductive Faulty (tokens : List Token) : ParseFault → Prop
  | unbalanced {position : Nat} {closing : Token} {bracket : Bracket}
      (hclosing : tokens[position]? = some closing) (hcloses : closing.Closes bracket)
      (hnone : ∀ first, ¬ LatestOpen tokens position first bracket)
      (hearlier : ClosesLatest tokens position) :
      Faulty tokens ⟨.unbalancedBracket bracket, position⟩
  | unclosed {position : Nat} {opening : Token} {bracket : Bracket}
      (hopening : tokens[position]? = some opening) (hopens : opening.Opens bracket)
      (hnone : ∀ last, ¬ Matches tokens position last)
      (hlater : ∀ first later shape, position < first → tokens[first]? = some later →
        later.Opens shape → ∃ last, Matches tokens first last)
      (hclosed : ClosesLatest tokens tokens.length) :
      Faulty tokens ⟨.unclosedBracket bracket, position⟩

/-- In well nested tokens every bracket that opens is closed. -/
theorem WellNested.exists_matches {first : Nat} {opening : Token} (h : WellNested tokens)
    (hopening : tokens[first]? = some opening) (hopens : opening.Opens bracket) :
    ∃ last, Matches tokens first last := by
  obtain ⟨before, rest, rfl, rfl⟩ := exists_append_of_getElem? hopening
  obtain ⟨inside, closing, after, rfl, hinside, hcloses, -⟩ := h.exists_group hopens
  exact ⟨_, matches_of_group hopens hinside hcloses⟩

theorem ClosesLatest.succ (h : ClosesLatest tokens position) {token : Token}
    (hat : tokens[position]? = some token)
    (htoken : ∀ bracket, token.Closes bracket → ∃ first, LatestOpen tokens position first bracket) :
    ClosesLatest tokens (position + 1) := by
  intro last closing bracket hlast hclosing hcloses
  rcases Nat.lt_succ_iff_lt_or_eq.mp hlast with hlt | rfl
  · exact h last closing bracket hlt hclosing hcloses
  · obtain rfl := Option.some.inj (hat.symm.trans hclosing)
    exact htoken bracket hcloses

/-- A bracket left open behind all tokens is the last one that is not closed. -/
theorem Leaves.faulty {first : Nat} (h : Leaves tokens ((bracket, first) :: pending))
    (hclosed : ClosesLatest tokens tokens.length) :
    Faulty tokens ⟨.unclosedBracket bracket, first⟩ := by
  have hopen := h.latestOpen []
  rw [List.append_nil] at hopen
  cases h with
  | @opening before inside opening _ _ _ hopens hinside =>
    have hopening : (before ++ opening :: inside)[before.length]? = some opening := by simp
    refine .unclosed hopening hopens (fun last hmatches => ?_)
      (fun other later shape hlt hlater hshape => ?_) hclosed
    · refine hopen.not_matches ?_ hmatches
      obtain ⟨_, _, -, hclosing, -⟩ := hmatches
      exact (List.getElem?_eq_some_iff.mp hclosing).1
    · obtain ⟨further, rfl⟩ := Nat.exists_eq_add_of_le (show before.length + 1 ≤ other from hlt)
      rw [List.getElem?_append_right (by omega), show before.length + 1 + further - before.length =
        further + 1 by omega, List.getElem?_cons_succ] at hlater
      obtain ⟨last, hmatches⟩ := hinside.exists_matches hlater hshape
      have hwithin := hmatches.within (before ++ [opening]) []
      rw [List.append_nil, List.append_assoc, List.singleton_append, List.length_append,
        List.length_singleton] at hwithin
      exact ⟨_, hwithin⟩

/-- Reading on finds the fault that the tokens have, unless all brackets close what they should. -/
theorem Leaves.read (h : Leaves before pending)
    (hearlier : ClosesLatest (before ++ rest) before.length) :
    (∀ fault, bracketFaultFrom pending before.length (rest.map symbol) = some fault →
        Faulty (before ++ rest) fault) ∧
      (bracketFaultFrom pending before.length (rest.map symbol) = none →
        ClosesLatest (before ++ rest) (before ++ rest).length) := by
  induction rest generalizing before pending with
  | nil =>
    rw [List.append_nil] at *
    refine ⟨fun fault hfault => ?_, fun _ => hearlier⟩
    cases pending with
    | nil => simp [bracketFaultFrom] at hfault
    | cons latest pending =>
      obtain rfl := Option.some.inj hfault
      exact h.faulty hearlier
  | cons token rest ih =>
    have hat : (before ++ token :: rest)[before.length]? = some token := by simp
    have hnext : before ++ token :: rest = (before ++ [token]) ++ rest := by simp
    have hlength : (before ++ [token]).length = before.length + 1 := by simp
    -- Once the token is taken in, the rest is read by induction.
    have hread : ∀ {pending}, Leaves (before ++ [token]) pending →
        (∀ bracket, token.Closes bracket →
          ∃ first, LatestOpen (before ++ token :: rest) before.length first bracket) →
        (∀ fault, bracketFaultFrom pending (before.length + 1) (rest.map symbol) = some fault →
            Faulty (before ++ token :: rest) fault) ∧
          (bracketFaultFrom pending (before.length + 1) (rest.map symbol) = none →
            ClosesLatest (before ++ token :: rest) (before ++ token :: rest).length) := by
      intro pending hleaves htoken
      have hsucc := hearlier.succ hat htoken
      rw [hnext] at hsucc ⊢
      rw [← hlength] at hsucc ⊢
      exact ih hleaves hsucc
    cases hsymbol : token.symbol with
    | opening bracket =>
      have hopens := symbol_eq_opening_iff.mp hsymbol
      simp only [List.map_cons, hsymbol, bracketFaultFrom]
      exact hread (.opening h hopens .nil) fun shape hcloses => absurd hcloses hopens.not_closes
    | closing bracket =>
      have hcloses := symbol_eq_closing_iff.mp hsymbol
      simp only [List.map_cons, hsymbol, bracketFaultFrom]
      cases pending with
      | nil =>
        refine ⟨fun fault hfault => ?_, by simp⟩
        obtain rfl := Option.some.inj hfault
        exact .unbalanced hat hcloses (h.not_latestOpen _) hearlier
      | cons latest pending =>
        obtain ⟨shape, first⟩ := latest
        have hopen := h.latestOpen (token :: rest)
        by_cases hsame : shape = bracket
        · subst hsame
          simp only [if_true]
          refine hread (h.close hcloses) fun other hother => ?_
          obtain rfl := hcloses.unique hother
          exact ⟨first, hopen⟩
        · simp only [hsame, if_false]
          refine ⟨fun fault hfault => ?_, by simp⟩
          obtain rfl := Option.some.inj hfault
          exact .unbalanced hat hcloses (fun other hother => hsame (hopen.unique hother).2) hearlier
    | _ =>
      have hplain := isBracket_symbol_iff.mp
        (show token.symbol.isBracket = false by rw [hsymbol]; rfl)
      simp only [List.map_cons, hsymbol, bracketFaultFrom]
      exact hread (h.append (.plain hplain .nil)) fun bracket hcloses =>
        absurd hcloses (hplain bracket).2

theorem read_tokens (tokens : List Token) :
    (∀ fault, bracketFault? (tokens.map symbol) = some fault → Faulty tokens fault) ∧
      (bracketFault? (tokens.map symbol) = none → ClosesLatest tokens tokens.length) := by
  have hnone : ClosesLatest ([] ++ tokens) ([] : List Token).length := fun last _ _ hlast => by
    simp at hlast
  exact (Leaves.nested .nil).read hnone

/-- In well nested tokens every bracket that closes closes the latest that is open. -/
theorem WellNested.closesLatest (h : WellNested tokens) : ClosesLatest tokens tokens.length := by
  exact (read_tokens tokens).2 (bracketFault_of_nests (wellNested_iff.mp h))

/-- Two groups are apart, unless one stands inside the other. -/
theorem Matches.apart {first last other close : Nat} (h : Matches tokens first last)
    (hother : Matches tokens other close) (hlt : first < other) : last < other ∨ close < last := by
  obtain ⟨bracket, closing, hopen, hclosing, hcloses⟩ := h
  obtain ⟨shape, _, hopen', -, -⟩ := hother
  obtain ⟨before, opening, inside, htake, rfl, hopens, hinside⟩ := id hopen'
  rcases Nat.lt_or_ge last before.length with hlt' | hge
  · exact Or.inl hlt'
  rcases Nat.lt_trichotomy last close with hbefore | rfl | hgt
  · have hat : (before ++ opening :: inside)[last]? = some closing := by
      rw [← htake, List.getElem?_take_of_lt hbefore, hclosing]
    obtain ⟨further, rfl⟩ := Nat.exists_eq_add_of_le hge
    rw [List.getElem?_append_right (Nat.le_add_right _ _), Nat.add_sub_cancel_left] at hat
    cases further with
    | zero =>
      obtain rfl := Option.some.inj hat
      exact absurd hcloses hopens.not_closes
    | succ further =>
      -- The bracket at `last` closes one between `other` and `close`, so not the one at `first`.
      rw [List.getElem?_cons_succ] at hat
      have hfurther := (List.getElem?_eq_some_iff.mp hat).1
      obtain ⟨inner, hinner⟩ := hinside.closesLatest further closing bracket hfurther hat hcloses
      have hwithin := hinner.within (before ++ [opening]) [] (Nat.le_of_lt hfurther)
      rw [List.append_nil, List.append_assoc, List.singleton_append, ← htake, List.length_append,
        List.length_singleton, Nat.add_right_comm, Nat.add_assoc] at hwithin
      obtain ⟨earlier, opened, nested, htake', hearlier, hrest⟩ := hwithin
      rw [List.take_take, Nat.min_eq_left (Nat.le_of_lt hbefore)] at htake'
      have hsame := (hopen.unique ⟨earlier, opened, nested, htake', hearlier, hrest⟩).1
      omega
  · have hsame := (hopen.unique hopen').1
    omega
  · exact Or.inr hgt

/-- Tokens have one fault at most. -/
theorem Faulty.unique {fault other : ParseFault} (h : Faulty tokens fault)
    (hother : Faulty tokens other) : fault = other := by
  cases h with
  | @unbalanced position closing bracket hclosing hcloses hnone hearlier =>
    cases hother with
    | @unbalanced position' closing' bracket' hclosing' hcloses' hnone' hearlier' =>
      rcases Nat.lt_trichotomy position position' with hlt | rfl | hgt
      · obtain ⟨first, hopen⟩ := hearlier' position closing bracket hlt hclosing hcloses
        exact absurd hopen (hnone first)
      · obtain rfl := Option.some.inj (hclosing.symm.trans hclosing')
        rw [hcloses.unique hcloses']
      · obtain ⟨first, hopen⟩ := hearlier position' closing' bracket' hgt hclosing' hcloses'
        exact absurd hopen (hnone' first)
    | unclosed _ _ _ _ hclosed =>
      obtain ⟨first, hopen⟩ := hclosed position closing bracket
        (List.getElem?_eq_some_iff.mp hclosing).1 hclosing hcloses
      exact absurd hopen (hnone first)
  | @unclosed position opening bracket hopening hopens hnone hlater hclosed =>
    cases hother with
    | @unbalanced position' closing' bracket' hclosing' hcloses' hnone' _ =>
      obtain ⟨first, hopen⟩ := hclosed position' closing' bracket'
        (List.getElem?_eq_some_iff.mp hclosing').1 hclosing' hcloses'
      exact absurd hopen (hnone' first)
    | @unclosed position' opening' bracket' hopening' hopens' hnone' hlater' _ =>
      rcases Nat.lt_trichotomy position position' with hlt | rfl | hgt
      · obtain ⟨last, hmatches⟩ := hlater position' opening' bracket' hlt hopening' hopens'
        exact absurd hmatches (hnone' last)
      · obtain rfl := Option.some.inj (hopening.symm.trans hopening')
        rw [hopens.unique hopens']
      · obtain ⟨last, hmatches⟩ := hlater' position opening bracket hgt hopening hopens
        exact absurd hmatches (hnone last)

theorem Faulty.not_wellNested {fault : ParseFault} (h : Faulty tokens fault) :
    ¬ WellNested tokens := by
  intro hnested
  cases h with
  | unbalanced hclosing hcloses hnone _ =>
    obtain ⟨first, hopen⟩ := hnested.closesLatest _ _ _
      (List.getElem?_eq_some_iff.mp hclosing).1 hclosing hcloses
    exact hnone first hopen
  | unclosed hopening hopens hnone _ _ =>
    obtain ⟨last, hmatches⟩ := hnested.exists_matches hopening hopens
    exact hnone last hmatches

end Reading

/-- A table has for each bracket that opens the position of the one that closes it, and nothing
else: what stands between the two is well nested, each bracket that closes is found, and two pairs
are apart or one of them stands inside the other. -/
structure Pairs (tokens : List Token) (closing? : Nat → Option Nat) : Prop where
  matches_iff : ∀ first last, closing? first = some last ↔ Matches tokens first last
  opens_iff : ∀ first, (closing? first).isSome = true ↔
    ∃ token bracket, tokens[first]? = some token ∧ token.Opens bracket
  exists_of_closes : ∀ last token bracket, tokens[last]? = some token → token.Closes bracket →
    ∃ first, closing? first = some last
  nested : ∀ first last, closing? first = some last →
    first < last ∧ WellNested (Extent.slice ⟨first + 1, last⟩ tokens)
  apart : ∀ first last other close, closing? first = some last → closing? other = some close →
    first < other → last < other ∨ close < last

end Token

namespace Outline

section Splitting

variable {tokens : List Token} {first last : Nat}

theorem isSome_closing?_iff :
    (closing? (tokens.map Token.symbol) first).isSome = true ↔
      ∃ token bracket, tokens[first]? = some token ∧ token.Opens bracket := by
  unfold closing?
  rw [List.getElem?_map]
  cases htoken : tokens[first]? with
  | none => simp
  | some token =>
    simp only [Option.map_some, Option.some.injEq, ← Token.symbol_eq_opening_iff]
    cases hsymbol : token.symbol <;> simp [hsymbol]

/-- In well nested tokens the split of a group ends at the bracket that closes it. -/
theorem matches_of_closing? (h : Token.WellNested tokens)
    (hclosing : closing? (tokens.map Token.symbol) first = some last) :
    Token.Matches tokens first last ∧
      splitGroup 0 ((tokens.map Token.symbol).drop (first + 1)) =
        (Extent.slice ⟨first + 1, last⟩ (tokens.map Token.symbol),
          (tokens.map Token.symbol).drop (last + 1)) := by
  obtain ⟨opening, bracket, hopening, hopens⟩ :=
    isSome_closing?_iff.mp (Option.isSome_of_eq_some hclosing)
  obtain ⟨before, rest, rfl, rfl⟩ := Token.exists_append_of_getElem? hopening
  obtain ⟨inside, closing, after, rfl, hinside, hcloses, hsplit⟩ := h.exists_group hopens
  have hdrop : ((before ++ opening :: (inside ++ closing :: after)).map Token.symbol).drop
      (before.length + 1) = (inside ++ closing :: after).map Token.symbol := by
    rw [← List.map_drop, List.drop_append]
    simp
  have hlast : (before ++ opening :: inside).length = last := by
    unfold closing? at hclosing
    rw [hdrop, hsplit, List.getElem?_map, hopening, Option.map_some,
      Token.symbol_eq_opening_iff.mpr hopens] at hclosing
    simp only [Option.some.injEq, List.length_map] at hclosing
    simp only [List.length_append, List.length_cons]
    omega
  subst hlast
  refine ⟨Token.matches_of_group hopens hinside hcloses, ?_⟩
  have hlength : (before ++ opening :: inside).length - (before.length + 1) = inside.length := by
    simp only [List.length_append, List.length_cons]
    omega
  have hafter : (before ++ opening :: inside).length + 1 =
      before.length + 1 + (inside.length + 1) := by
    simp only [List.length_append, List.length_cons]
    omega
  rw [Extent.slice, hlength, hdrop, hsplit, hafter, ← List.drop_drop, hdrop, List.map_append,
    List.take_left' (List.length_map _), List.drop_append]
  simp

/-- In well nested tokens the splits of groups give the pairs of brackets. -/
theorem pairs_closing? (h : Token.WellNested tokens) :
    Token.Pairs tokens (closing? (tokens.map Token.symbol)) := by
  have hmatches : ∀ first last, closing? (tokens.map Token.symbol) first = some last ↔
      Token.Matches tokens first last := by
    intro first last
    refine ⟨fun hclosing => (matches_of_closing? h hclosing).1, fun hmatches => ?_⟩
    obtain ⟨found, hfound⟩ :=
      Option.isSome_iff_exists.mp (isSome_closing?_iff.mpr hmatches.exists_opens)
    rw [hfound, (matches_of_closing? h hfound).1.unique hmatches]
  refine ⟨hmatches, fun first => isSome_closing?_iff, fun last token bracket htoken hcloses => ?_,
    fun first last hclosing => ?_, fun first last other close hfirst hother => ?_⟩
  · obtain ⟨first, hopen⟩ := h.closesLatest last token bracket
      (List.getElem?_eq_some_iff.mp htoken).1 htoken hcloses
    exact ⟨first, (hmatches first last).mpr ⟨bracket, token, hopen, htoken, hcloses⟩⟩
  · have hfound := (hmatches first last).mp hclosing
    exact ⟨hfound.lt, hfound.wellNested⟩
  · exact ((hmatches first last).mp hfirst).apart ((hmatches other close).mp hother)

end Splitting

/-- The brackets of any tokens. The check of the bracket structure passes exactly if the tokens are
well nested. Then the splits of groups give the pairs of brackets, and each split gives what stands
between the two and what comes behind them. Otherwise the check finds the fault of the tokens: the
first bracket that closes without one of its shape being the latest that is open, or else the last
bracket that is not closed. -/
theorem brackets_of_tokens (tokens : List Token) :
    (bracketFault? (tokens.map Token.symbol) = none ↔ Token.WellNested tokens) ∧
    (Token.WellNested tokens → Token.Pairs tokens (closing? (tokens.map Token.symbol)) ∧
      ∀ first last, closing? (tokens.map Token.symbol) first = some last →
        splitGroup 0 ((tokens.map Token.symbol).drop (first + 1)) =
          (Extent.slice ⟨first + 1, last⟩ (tokens.map Token.symbol),
            (tokens.map Token.symbol).drop (last + 1))) ∧
    ∀ fault, bracketFault? (tokens.map Token.symbol) = some fault ↔ Token.Faulty tokens fault := by
  have hread := Token.read_tokens tokens
  have hnested : bracketFault? (tokens.map Token.symbol) = none ↔ Token.WellNested tokens := by
    rw [Token.wellNested_iff]
    exact ⟨nests_of_bracketFault, bracketFault_of_nests⟩
  refine ⟨hnested, fun h => ⟨pairs_closing? h, fun first last hclosing =>
    (matches_of_closing? h hclosing).2⟩, fun fault => ⟨hread.1 fault, fun hfaulty => ?_⟩⟩
  cases hfound : bracketFault? (tokens.map Token.symbol) with
  | none => exact absurd (hnested.mp hfound) hfaulty.not_wellNested
  | some found => rw [(hread.1 found hfound).unique hfaulty]

/-- A group that is closed, and one that the bracket of another shape does not close. -/
theorem brackets_of_tokens_pair :
    Token.Pairs [⟨.operator, "(", 0, 0⟩, ⟨.operator, ")", 1, 0⟩]
      (closing? ([⟨.operator, "(", 0, 0⟩, ⟨.operator, ")", 1, 0⟩].map Token.symbol)) ∧
    Token.Faulty [⟨.operator, "(", 0, 0⟩, ⟨.operator, "]", 1, 0⟩]
      ⟨.unbalancedBracket .square, 1⟩ := by
  have hpair := brackets_of_tokens [⟨.operator, "(", 0, 0⟩, ⟨.operator, ")", 1, 0⟩]
  exact ⟨(hpair.2.1 (hpair.1.mp (by decide))).1,
    ((brackets_of_tokens _).2.2 _).mp (by decide)⟩

end Outline

end UnusedImports
