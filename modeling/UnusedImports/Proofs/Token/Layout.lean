import UnusedImports.Proofs.Token.Lexer

/-!
The tokens of a text by position. They tile its bytes, each stands where it says and has the
shape of its kind after the tokens before it, and a piece of a literal that goes on is followed
by an interpolated expression.
-/
namespace UnusedImports.Token

open UnusedImports.Text

/-- What holds of a token between earlier and later ones. -/
theorem Sound.of_append {later earlier : List Token} {token : Token}
    (h : Sound (later ++ token :: earlier)) :
    Fits earlier token ∧
      (earlier.head?.any isOpen = true → token.kind = .interpolationStart) := by
  induction later with
  | nil =>
    cases h with
    | cons hfits hopen _ => exact ⟨hfits, hopen⟩
  | cons last later ih =>
    cases h with
    | cons _ _ hearlier => exact ih hearlier

section Positions

variable {text : List Char} {tokens : List Token}

theorem tiles_tokens (h : lex text = .ok tokens) :
    Extent.Tiles 0 (byteLength text) (tokens.map Token.extent) := by
  have htiles := (covers_lex h).1.tiles
  rw [Nat.zero_add, List.map_map] at htiles
  exact htiles

theorem stands_token (h : lex text = .ok tokens) {token : Token} (hmem : token ∈ tokens) :
    Stands text token.text.toList token.start :=
  (covers_lex h).1.stands (show token.part ∈ _ from List.mem_map_of_mem hmem)

theorem stop_le_start (h : lex text = .ok tokens) {first second : Nat} {token other : Token}
    (htoken : tokens[first]? = some token) (hother : tokens[second]? = some other)
    (hlt : first < second) : token.stop ≤ other.start := by
  have hpairs := (tiles_tokens h).pairwise
  rw [List.pairwise_map] at hpairs
  obtain ⟨hfirst, rfl⟩ := List.getElem?_eq_some_iff.mp htoken
  obtain ⟨hsecond, rfl⟩ := List.getElem?_eq_some_iff.mp hother
  exact List.pairwise_iff_getElem.mp hpairs first second hfirst hsecond hlt

theorem start_le_stop (token : Token) : token.start ≤ token.stop := Nat.le_add_right _ _

theorem start_le_start (h : lex text = .ok tokens) {first second : Nat} {token other : Token}
    (htoken : tokens[first]? = some token) (hother : tokens[second]? = some other)
    (hle : first ≤ second) : token.start ≤ other.start := by
  by_cases heq : first = second
  · subst heq
    exact Nat.le_of_eq (congrArg Token.start (Option.some.inj (htoken.symm.trans hother)))
  · exact Nat.le_trans (start_le_stop token) (stop_le_start h htoken hother (by omega))

theorem stop_le_stop (h : lex text = .ok tokens) {first second : Nat} {token other : Token}
    (htoken : tokens[first]? = some token) (hother : tokens[second]? = some other)
    (hle : first ≤ second) : token.stop ≤ other.stop := by
  by_cases heq : first = second
  · subst heq
    exact Nat.le_of_eq (congrArg Token.stop (Option.some.inj (htoken.symm.trans hother)))
  · exact Nat.le_trans (stop_le_start h htoken hother (by omega)) (start_le_stop other)

/-- A token does not come after one that reaches behind its start. -/
theorem le_of_start_lt_stop (h : lex text = .ok tokens) {first second : Nat} {token other : Token}
    (htoken : tokens[first]? = some token) (hother : tokens[second]? = some other)
    (hlt : token.start < other.stop) : first ≤ second := by
  by_cases hle : first ≤ second
  · exact hle
  · have hstop := stop_le_start h hother htoken (by omega)
    omega

/-- Every offset lies in a token. -/
theorem exists_token (h : lex text = .ok tokens) {offset : Nat}
    (hoffset : offset < byteLength text) :
    ∃ (position : Nat) (token : Token), tokens[position]? = some token ∧ token.start ≤ offset ∧
      offset < token.stop := by
  obtain ⟨extent, hextent, hcontains⟩ :=
    (tiles_tokens h).exists_contains (Nat.zero_le offset) hoffset
  obtain ⟨token, hmem, rfl⟩ := List.mem_map.mp hextent
  obtain ⟨hstart, hstop⟩ := Extent.contains_iff.mp hcontains
  obtain ⟨position, htoken⟩ := List.mem_iff_getElem?.mp hmem
  exact ⟨position, token, htoken, hstart, hstop⟩

/-- The latest of the tokens before a position is the one right before it. -/
theorem head?_reverse_take {position : Nat} {token : Token}
    (htoken : tokens[position]? = some token) :
    (tokens.take (position + 1)).reverse.head? = some token := by
  rw [List.head?_reverse, List.getLast?_take, if_neg (Nat.succ_ne_zero position),
    Nat.add_sub_cancel, htoken, Option.some_or]

theorem fits_token (h : lex text = .ok tokens) {position : Nat} {token : Token}
    (htoken : tokens[position]? = some token) : Fits (tokens.take position).reverse token := by
  obtain ⟨hposition, rfl⟩ := List.getElem?_eq_some_iff.mp htoken
  have hsound := (covers_lex h).2.1
  rw [← List.take_append_drop position tokens, List.drop_eq_getElem_cons hposition,
    List.reverse_append, List.reverse_cons, List.append_assoc, List.singleton_append] at hsound
  exact hsound.of_append.1

/-- A piece of a literal that goes on is followed by an interpolated expression. -/
theorem exists_interpolationStart (h : lex text = .ok tokens) {position : Nat} {token : Token}
    (htoken : tokens[position]? = some token) (hopen : token.isOpen = true) :
    ∃ next, tokens[position + 1]? = some next ∧ next.kind = .interpolationStart := by
  obtain ⟨-, hsound, hlast⟩ := covers_lex h
  have hposition := (List.getElem?_eq_some_iff.mp htoken).1
  cases hnext : tokens[position + 1]? with
  | none =>
    have hend := List.getElem?_eq_none_iff.mp hnext
    rw [List.getLast?_eq_getElem?, show tokens.length - 1 = position by omega, htoken] at hlast
    simp [hopen] at hlast
  | some next =>
    obtain ⟨hafter, rfl⟩ := List.getElem?_eq_some_iff.mp hnext
    refine ⟨_, rfl, ?_⟩
    rw [← List.take_append_drop (position + 1) tokens, List.drop_eq_getElem_cons hafter,
      List.reverse_append, List.reverse_cons, List.append_assoc, List.singleton_append] at hsound
    apply hsound.of_append.2
    rw [head?_reverse_take htoken]
    exact hopen

/-- Only the end of an interpolated expression takes no bytes. -/
theorem kind_of_start_eq_stop (h : lex text = .ok tokens) {token : Token} (hmem : token ∈ tokens)
    (hempty : token.start = token.stop) : token.kind = .interpolationEnd := by
  have hnil : token.text.toList = [] := by
    cases htext : token.text.toList with
    | nil => rfl
    | cons c rest =>
      have hpositive := byteLength_pos (show token.text.toList ≠ [] by simp [htext])
      unfold stop at hempty
      omega
  obtain ⟨position, htoken⟩ := List.mem_iff_getElem?.mp hmem
  have hfits := fits_token h htoken
  unfold Fits at hfits
  cases hkind : token.kind with
  | interpolationEnd => rfl
  | identifier | keyword | number | operator | interpolationStart =>
    simp only [hkind] at hfits
    exact absurd hnil hfits.1
  | literal | blank =>
    simp only [hkind] at hfits
    exact absurd hnil hfits.1
  | comment | newline => simp [hkind, hnil] at hfits

end Positions

/-- The tokens of a text tile it. The first starts at its start and the last stops at its end,
unless there are none because there is nothing to cut; each starts where the one before it stops
and stands in the text with its own characters, so all of them one after the other are the text;
and only the end of an interpolated expression takes no bytes. -/
theorem tile_of_lex {text : List Char} {tokens : List Token} (h : lex text = .ok tokens) :
    (tokens = [] ∧ text = [] ∨
      ∃ first last, tokens.head? = some first ∧ first.start = 0 ∧
        tokens.getLast? = some last ∧ last.stop = byteLength text) ∧
    (∀ position token next, tokens[position]? = some token →
      tokens[position + 1]? = some next → next.start = token.stop) ∧
    (∀ token ∈ tokens, Stands text token.text.toList token.start) ∧
    (tokens.flatMap fun token => token.text.toList) = text ∧
    ∀ token ∈ tokens, token.start = token.stop → token.kind = .interpolationEnd := by
  have htiles := tiles_tokens h
  have htext : (tokens.flatMap fun token => token.text.toList) = text := by
    have hparts := (covers_lex h).1.flatMap_eq
    rwa [List.flatMap_map] at hparts
  refine ⟨?_, ?_, fun token => stands_token h, htext, fun token => kind_of_start_eq_stop h⟩
  · cases hfirst : tokens.head? with
    | none =>
      have hnil := List.head?_eq_none_iff.mp hfirst
      refine Or.inl ⟨hnil, ?_⟩
      rw [← htext, hnil, List.flatMap_nil]
    | some first =>
      right
      have hne : tokens ≠ [] := by
        intro hnil
        simp [hnil] at hfirst
      have hlast := List.getLast?_eq_some_getLast hne
      refine ⟨first, tokens.getLast hne, rfl, ?_, hlast, ?_⟩
      · refine htiles.start_eq (show _ = some first.extent from ?_)
        rw [← List.head?_eq_getElem?, List.head?_map, hfirst]
        rfl
      · refine htiles.stop_eq (show _ = some (tokens.getLast hne).extent from ?_)
        rw [List.getLast?_map, hlast]
        rfl
  · intro position token next htoken hnext
    refine (htiles.adjacent
      (show (tokens.map Token.extent)[position]? = some token.extent from ?_)
      (show (tokens.map Token.extent)[position + 1]? = some next.extent from ?_)).symm
    · rw [List.getElem?_map, htoken]
      rfl
    · rw [List.getElem?_map, hnext]
      rfl

/-- A mark, a first line for an interpreter, a line end of two characters and an interpolated
name, after which an empty token stands. -/
theorem tile_of_lex_interpolated :
    ∃ tokens, lex "\ufeff#!x\r\n\"é$b\"".toList = .ok tokens ∧
      (tokens.flatMap fun token => token.text.toList) = "\ufeff#!x\r\n\"é$b\"".toList ∧
      (∃ token ∈ tokens, token.start = token.stop) ∧
      ∀ token ∈ tokens, token.start = token.stop → token.kind = .interpolationEnd := by
  have hrun : ((lex "\ufeff#!x\r\n\"é$b\"".toList).toOption.any fun tokens =>
      tokens.any fun token => token.start == token.stop) = true := by decide +kernel
  generalize "\ufeff#!x\r\n\"é$b\"".toList = text at hrun ⊢
  cases hlex : lex text with
  | error fault => simp [hlex, Except.toOption] at hrun
  | ok tokens =>
    simp only [hlex, Except.toOption, Option.any_some, List.any_eq_true, beq_iff_eq] at hrun
    have htile := tile_of_lex hlex
    exact ⟨tokens, rfl, htile.2.2.2.1, hrun, htile.2.2.2.2⟩

end UnusedImports.Token
