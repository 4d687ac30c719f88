import UnusedImports.Proofs.Excision.Shelter
import UnusedImports.Proofs.Source

/-!
Where a source shows something. A visible character of a token that has to stay is found in
every word and sign, at the end of every comment of several lines, and in a piece of a literal
or right beside it: a literal that ends with spacing goes on after the sign of an interpolated
expression, and an interpolated name ends behind its last word.
-/
namespace UnusedImports

open UnusedImports.Text

namespace Token

theorem isFixed_of_isTrivia {token : Token} (h : token.isTrivia = false) :
    token.isFixed = true := by
  unfold isTrivia at h
  unfold isFixed
  cases hkind : token.kind <;> simp_all

end Token

namespace Excision

/-- A visible character starts at an offset, in a token that has to stay unless it is removed. -/
structure Shows (text : List Char) (tokens : List Token) (position offset : Nat) : Prop where
  visible : ∃ c, charAt? offset text = some c ∧ isSpacing c = false
  fixed : ∃ token, tokens[position]? = some token ∧ token.start ≤ offset ∧ offset < token.stop ∧
    token.isFixed = true

section Showing

variable {text : List Char} {tokens : List Token} {position : Nat} {token : Token}

theorem shows_of_head (hlex : Token.lex text = .ok tokens)
    (htoken : tokens[position]? = some token) (hfixed : token.isFixed = true) {c : Char}
    (hc : token.text.toList.head? = some c) (hvisible : isSpacing c = false) :
    Shows text tokens position token.start := by
  have hstands := Token.stands_token hlex (List.mem_of_getElem? htoken)
  refine ⟨⟨c, hstands.head hc, hvisible⟩, token, htoken, Nat.le_refl _, ?_, hfixed⟩
  have hpositive := byteLength_pos (List.ne_nil_of_mem (List.mem_of_mem_head? hc))
  unfold Token.stop
  omega

theorem shows_of_spelled (hlex : Token.lex text = .ok tokens)
    (htoken : tokens[position]? = some token) (hfixed : token.isFixed = true)
    (hspelled : token.Spelled) : Shows text tokens position token.start := by
  apply shows_of_head hlex htoken hfixed (List.head?_eq_some_head hspelled.1)
  exact hspelled.2 _ (List.head_mem hspelled.1)

/-- The last character of a token, seen from any other. -/
theorem exists_shows_of_getLast (hlex : Token.lex text = .ok tokens)
    (htoken : tokens[position]? = some token) (hfixed : token.isFixed = true) {last : Char}
    (hlast : token.text.toList.getLast? = some last) (hvisible : isSpacing last = false)
    {offset : Nat} {c : Char} (hc : charAt? offset text = some c) (hstop : offset < token.stop) :
    ∃ later, offset ≤ later ∧ Shows text tokens position later := by
  have hstands := Token.stands_token hlex (List.mem_of_getElem? htoken)
  obtain ⟨later, hstart, hend, hat⟩ := hstands.getLast hlast
  have hpositive := last.utf8Size_pos
  refine ⟨later, ?_, ⟨last, hat, hvisible⟩, token, htoken, hstart, ?_, hfixed⟩
  · by_cases hle : offset ≤ later
    · exact hle
    · have heq := eq_of_charAt? hat hc (by omega) (by unfold Token.stop at hstop; omega)
      omega
  · unfold Token.stop
    omega

theorem isOpen_of_getLast {last : Char} (hkind : token.kind = .literal)
    (hlast : token.text.toList.getLast? = some last) (hspacing : isSpacing last = true) :
    token.isOpen = true := by
  simp [Token.isOpen, hkind, hlast, hspacing]

/-- From a character of a token that has to stay, the token itself shows something, or the
sign of the expression that is interpolated after it does. -/
theorem exists_shows_from (hlex : Token.lex text = .ok tokens)
    (htoken : tokens[position]? = some token) (hfixed : token.isFixed = true) {offset : Nat}
    {c : Char} (hc : charAt? offset text = some c) (hstart : token.start ≤ offset)
    (hstop : offset < token.stop) :
    ∃ shown later, offset ≤ later ∧ Shows text tokens shown later ∧
      (shown = position ∨
        shown = position + 1 ∧ (tokens.map Token.symbol)[shown]? = some .other) := by
  by_cases hvisible : isSpacing c = false
  · exact ⟨position, offset, Nat.le_refl _, ⟨⟨c, hc, hvisible⟩, token, htoken, hstart, hstop,
      hfixed⟩, Or.inl rfl⟩
  have hstands := Token.stands_token hlex (List.mem_of_getElem? htoken)
  have hmem := hstands.mem hc hstart hstop
  have hspelled : ¬ token.Spelled := fun hspelled => hvisible (hspelled.2 c hmem)
  have hfits := Token.fits_token hlex htoken
  unfold Token.Fits at hfits
  unfold Token.isFixed at hfixed
  have hne : token.text.toList ≠ [] := List.ne_nil_of_mem hmem
  have hlast := List.getLast?_eq_some_getLast hne
  cases hkind : token.kind with
  | identifier | keyword | number | operator | interpolationStart =>
    simp only [hkind] at hfits
    exact absurd hfits hspelled
  | interpolationEnd =>
    simp only [hkind] at hfits
    rcases hfits with hbrace | ⟨hnil, -⟩
    · rw [hbrace, List.mem_singleton] at hmem
      exact absurd (hmem ▸ rfl) hvisible
    · exact absurd hnil hne
  | blank | newline => simp [hkind] at hfixed
  | comment =>
    simp only [hkind, List.contains_iff_mem] at hfits hfixed
    have hend := hfits.2 hfixed
    rw [hlast, Option.any_some, Bool.not_eq_true'] at hend
    obtain ⟨later, hle, hshows⟩ := exists_shows_of_getLast hlex htoken
      (by simp [Token.isFixed, hkind, hfixed]) hlast hend hc hstop
    exact ⟨position, later, hle, hshows, Or.inl rfl⟩
  | literal =>
    have hfixed : token.isFixed = true := by simp [Token.isFixed, hkind]
    by_cases hend : isSpacing (token.text.toList.getLast hne) = false
    · obtain ⟨later, hle, hshows⟩ :=
        exists_shows_of_getLast hlex htoken hfixed hlast hend hc hstop
      exact ⟨position, later, hle, hshows, Or.inl rfl⟩
    · -- The literal goes on after an interpolated expression, whose sign is visible.
      obtain ⟨next, hnext, hstartkind⟩ := Token.exists_interpolationStart hlex htoken
        (isOpen_of_getLast hkind hlast (by simpa using hend))
      have hnextfits := Token.fits_token hlex hnext
      unfold Token.Fits at hnextfits
      simp only [hstartkind] at hnextfits
      refine ⟨position + 1, next.start, ?_, shows_of_spelled hlex hnext
        (by simp [Token.isFixed, hstartkind]) hnextfits, Or.inr ⟨rfl, ?_⟩⟩
      · have hafter := Token.stop_le_start hlex htoken hnext (Nat.lt_succ_self position)
        omega
      · simp [hnext, Token.symbol, hstartkind]

/-- A token that need not stay and holds a line feed is a line end. -/
theorem kind_eq_newline (hlex : Token.lex text = .ok tokens)
    (htoken : tokens[position]? = some token) (hfixed : ¬ token.isFixed = true)
    (hmem : '\n' ∈ token.text.toList) : token.kind = .newline := by
  have hfits := Token.fits_token hlex htoken
  unfold Token.Fits at hfits
  unfold Token.isFixed at hfixed
  cases hkind : token.kind with
  | newline => rfl
  | blank =>
    simp only [hkind] at hfits
    exact absurd hmem hfits.2
  | comment => simp [hkind, hmem] at hfixed
  | _ => simp [hkind] at hfixed

theorem exists_word_of_path
    (h : Token.Path (tokens.take position).reverse) (hposition : position ≤ tokens.length) :
    ∃ before word, position = before + 1 ∧ tokens[before]? = some word ∧
      (word.kind = .identifier ∨ word.kind = .keyword) := by
  generalize hearlier : (tokens.take position).reverse = earlier at h
  cases h with
  | first hword _ | next hword _ _ =>
    obtain ⟨before, rfl, hat, -⟩ := Source.exists_of_reverse_take hearlier hposition
    exact ⟨before, _, rfl, hat, hword⟩

/-- A token without text ends an interpolated name. -/
theorem path_of_nil (hlex : Token.lex text = .ok tokens)
    (htoken : tokens[position]? = some token) (hnil : token.text.toList = []) :
    token.kind = .interpolationEnd ∧ Token.Path (tokens.take position).reverse := by
  have hfits := Token.fits_token hlex htoken
  unfold Token.Fits at hfits
  cases hkind : token.kind with
  | interpolationEnd => simpa [hkind, hnil] using hfits
  | _ => simp [hkind, hnil, Token.Spelled] at hfits

/-- It stands behind the last word of the name. -/
theorem exists_word_of_nil (hlex : Token.lex text = .ok tokens)
    (htoken : tokens[position]? = some token) (hnil : token.text.toList = []) :
    ∃ before word, position = before + 1 ∧ tokens[before]? = some word ∧ word.Spelled ∧
      word.isTrivia = false := by
  obtain ⟨-, hpath⟩ := path_of_nil hlex htoken hnil
  have hlength := (List.getElem?_eq_some_iff.mp htoken).1
  obtain ⟨before, word, rfl, hword, hkind⟩ := exists_word_of_path hpath (by omega)
  refine ⟨before, word, rfl, hword, ?_, ?_⟩
  · have hfits := Token.fits_token hlex hword
    unfold Token.Fits at hfits
    rcases hkind with hkind | hkind <;> simpa only [hkind] using hfits
  · rcases hkind with hkind | hkind <;> simp [Token.isTrivia, hkind]

/-- Where a token is not trivia, it shows something, or a token right beside it does. -/
theorem exists_shows_of_significant (hlex : Token.lex text = .ok tokens)
    (htoken : tokens[position]? = some token) (hsignificant : token.isTrivia = false) :
    ∃ shown offset, Shows text tokens shown offset ∧
      (shown = position ∨
        shown = position + 1 ∧ (tokens.map Token.symbol)[shown]? = some .other ∨
        shown + 1 = position ∧
          ∀ symbol, (tokens.map Token.symbol)[shown]? = some symbol → symbol.isTrivia = false) := by
  have hfixed := Token.isFixed_of_isTrivia hsignificant
  by_cases hnil : token.text.toList = []
  · obtain ⟨before, word, rfl, hword, hspelled, htrivia⟩ := exists_word_of_nil hlex htoken hnil
    refine ⟨before, word.start, ?_, Or.inr (Or.inr ⟨rfl, ?_⟩)⟩
    · exact shows_of_spelled hlex hword (Token.isFixed_of_isTrivia htrivia) hspelled
    · intro symbol hsymbol
      rw [List.getElem?_map, hword] at hsymbol
      rw [← Option.some.inj hsymbol, Token.isTrivia_symbol]
      exact htrivia
  · have hstands := Token.stands_token hlex (List.mem_of_getElem? htoken)
    have hpositive := byteLength_pos hnil
    obtain ⟨shown, offset, -, hshows, hshown⟩ := exists_shows_from hlex htoken hfixed
      (hstands.head (List.head?_eq_some_head hnil)) (Nat.le_refl _)
      (by unfold Token.stop; omega)
    refine ⟨shown, offset, hshows, ?_⟩
    rcases hshown with hsame | hnext
    · exact Or.inl hsame
    · exact Or.inr (Or.inl hnext)

/-- A word or a sign shows itself from every character up to it. -/
theorem exists_shows_of_solid (hlex : Token.lex text = .ok tokens)
    (htoken : tokens[position]? = some token) {shown : Nat} {word : Token}
    (hword : tokens[shown]? = some word) (hother : word.symbol ≠ .other)
    (htrivia : word.symbol.isTrivia = false) (hle : position ≤ shown) {offset : Nat} {c : Char}
    (hc : charAt? offset text = some c) (hstart : token.start ≤ offset)
    (hstop : offset < token.stop) : ∃ later, offset ≤ later ∧ Shows text tokens shown later := by
  have hspelled := Source.spelled_of_symbol hlex hword hother htrivia
  rw [Token.isTrivia_symbol] at htrivia
  have hfixed := Token.isFixed_of_isTrivia htrivia
  by_cases heq : position = shown
  · subst heq
    obtain rfl := Option.some.inj (hword.symm.trans htoken)
    have hmem := (Token.stands_token hlex (List.mem_of_getElem? hword)).mem hc hstart hstop
    exact ⟨offset, Nat.le_refl _, ⟨c, hc, hspelled.2 c hmem⟩, word, hword, hstart, hstop, hfixed⟩
  · refine ⟨word.start, ?_, shows_of_spelled hlex hword hfixed hspelled⟩
    have hafter := Token.stop_le_start hlex htoken hword (by omega)
    omega

end Showing

end Excision

end UnusedImports
