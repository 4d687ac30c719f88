import Mathlib.Data.List.Pairwise
import UnusedImports.Proofs.ImportReading
import UnusedImports.Proofs.Outline.Division

/-!
How an import ends. Reading an import stops where no further part of it can be read, and nothing
asks what else stands on its line. An import that neither ends in a semicolon nor is last on its
line is therefore followed there by another part of the outline, be it the package clause, a
further import or an item of the body, and only such an import is left unterminated.
-/
namespace UnusedImports

instance : Std.Symm Extent.Disjoint where
  symm extent other hdisjoint position hother := by
    rw [Bool.eq_false_iff]
    intro hcontains
    simp [hdisjoint position hcontains] at hother

namespace Token

/-- What stops at a position ends in a semicolon, or only white space and comments follow it up to
the next line end. -/
def Terminated (tokens : List Token) (stop : Nat) : Prop :=
  (tokens[stop - 1]?).any (·.isSign ";") = true ∨
    ∀ token ∈ (tokens.drop stop).takeWhile (·.kind != .newline), token.isGap = true

instance (tokens : List Token) (stop : Nat) : Decidable (Terminated tokens stop) :=
  inferInstanceAs (Decidable (_ ∨ _))

/-- At a position, a token is left over on the line of what stops at another one without a
semicolon. -/
structure Leftover (tokens : List Token) (stop position : Nat) : Prop where
  unended : (tokens[stop - 1]?).any (·.isSign ";") = false
  behind : stop ≤ position
  beside : ∀ between token, stop ≤ between → between < position →
    tokens[between]? = some token → token.isGap = true
  solid : ∃ token, tokens[position]? = some token ∧ token.isTrivia = false

theorem isTrivia_eq (token : Token) :
    token.isTrivia = (token.isGap || token.kind == .newline) := by
  unfold isTrivia isGap
  cases token.kind <;> rfl

section Ends

variable {tokens : List Token} {stop position : Nat}

/-- A line holds white space and comments only, up to its end, exactly if no other token comes
first. -/
theorem forall_takeWhile_iff (line : List Token) :
    (∀ token ∈ line.takeWhile (·.kind != .newline), token.isGap = true) ↔
      ∀ token ∈ line.find? (!·.isGap), token.kind = .newline := by
  induction line with
  | nil => simp
  | cons first line ih =>
    by_cases hend : first.kind = .newline
    · simp [hend, isGap]
    · by_cases hgap : first.isGap = true
      · simpa [hend, hgap] using ih
      · simp [hend, hgap]

theorem solidFrom?_eq_some_iff {token : Token} : solidFrom? tokens stop = some token ↔
    token.isGap = false ∧ ∃ position, stop ≤ position ∧ tokens[position]? = some token ∧
      ∀ between other, stop ≤ between → between < position → tokens[between]? = some other →
        other.isGap = true := by
  rw [solidFrom?, List.find?_eq_some_iff_getElem]
  simp only [Bool.not_eq_true', List.length_drop, List.getElem_drop, Bool.not_not]
  refine and_congr_right fun _ => ⟨?_, ?_⟩
  · rintro ⟨offset, hlt, htoken, hbefore⟩
    refine ⟨stop + offset, by omega, List.getElem?_eq_some_iff.mpr ⟨by omega, htoken⟩, ?_⟩
    intro between other hstart hstop hother
    obtain ⟨-, rfl⟩ := List.getElem?_eq_some_iff.mp hother
    have hgap := hbefore (between - stop) (by omega)
    simpa [Nat.add_sub_cancel' hstart] using hgap
  · rintro ⟨position, hle, htoken, hbefore⟩
    obtain ⟨hlt, rfl⟩ := List.getElem?_eq_some_iff.mp htoken
    refine ⟨position - stop, by omega, by simp [Nat.add_sub_cancel' hle], ?_⟩
    intro offset hoffset
    exact hbefore (stop + offset) _ (by omega) (by omega) (List.getElem?_eq_getElem (by omega))

theorem Leftover.solidFrom? {token : Token} (h : Leftover tokens stop position)
    (htoken : tokens[position]? = some token) : solidFrom? tokens stop = some token := by
  obtain ⟨solid, hsolid, htrivia⟩ := h.solid
  obtain rfl := Option.some.inj (hsolid.symm.trans htoken)
  rw [isTrivia_eq, Bool.or_eq_false_iff] at htrivia
  exact solidFrom?_eq_some_iff.mpr ⟨htrivia.1, position, h.behind, htoken, h.beside⟩

/-- What is not terminated leaves a token over on its line. -/
theorem not_terminated_iff :
    ¬ Terminated tokens stop ↔ ∃ position, Leftover tokens stop position := by
  unfold Terminated
  rw [forall_takeWhile_iff]
  constructor
  · intro h
    obtain ⟨hunended, hline⟩ := not_or.mp h
    simp only [not_forall] at hline
    obtain ⟨token, hnext, hbreak⟩ := hline
    obtain ⟨hgap, position, hbehind, htoken, hbeside⟩ := solidFrom?_eq_some_iff.mp hnext
    refine ⟨position, ⟨Bool.eq_false_iff.mpr hunended, hbehind, hbeside, token, htoken, ?_⟩⟩
    simp [isTrivia_eq, hgap, hbreak]
  · rintro ⟨position, h⟩ hended
    obtain ⟨token, htoken, htrivia⟩ := h.solid
    rcases hended with hsign | hline
    · simp [h.unended] at hsign
    · have hbreak := hline token (h.solidFrom? htoken)
      simp [isTrivia_eq, hbreak] at htrivia

theorem ReadsImport.any_isSign {keyword : Nat} {clause : Outline.ImportClause}
    (h : ReadsImport tokens keyword stop clause true) :
    (tokens[stop - 1]?).any (·.isSign ";") = true := by
  obtain ⟨last, hlast, htrivia⟩ := h.last
  rw [hlast, Option.any_some]
  have hslice : (Extent.slice ⟨keyword, stop⟩ tokens).getLast? = some last := by
    rw [getLast?_slice h.forward h.stop_le, hlast]
  obtain ⟨front, hfront⟩ := List.getLast?_eq_some_iff.mp hslice
  have hparts := h.parts
  rw [hfront, List.filter_append, List.filter_cons_of_pos (by simp [htrivia]), List.filter_nil,
    Outline.ImportClause.parts, if_pos rfl, ← List.cons_append] at hparts
  have hreverse := List.forall₂_reverse_iff.mpr hparts
  rw [List.reverse_append, List.reverse_append] at hreverse
  exact (List.forall₂_cons.mp hreverse).1

end Ends

end Token

namespace Outline

/-- A piece other than a separator starts with a symbol that does not separate. -/
theorem Piece.Valid.exists_first {all : List Symbol} {piece : Piece} (h : piece.Valid all)
    (hpiece : ∀ position, piece ≠ .separator position) :
    ∃ symbol, all[piece.extent.start]? = some symbol ∧ isSeparator symbol = false := by
  cases piece with
  | separator position => exact absurd rfl (hpiece position)
  | importStatement statement =>
    have hat : ImportAt all statement := h
    rcases Nat.lt_or_eq_of_le hat.start_le_keyword with hlt | heq
    · exact ⟨_, hat.first hlt, rfl⟩
    · refine ⟨.keyword "import", ?_, rfl⟩
      show all[statement.tokens.start]? = some (.keyword "import")
      rw [heq]
      exact hat.clause.keyword_eq
  | heading tokens => exact ⟨_, h.2.2.1, rfl⟩
  | package tokens => exact ⟨_, ClauseAt.keyword_eq h, rfl⟩
  | bodyItem item =>
    obtain ⟨-, hplaced⟩ := h
    cases hplaced with
    | statement hstatement => exact hstatement.first
    | declaration hfirst hsolid => exact ⟨_, hfirst, hsolid⟩

end Outline

namespace Source

/-- Each stretch that the outline of a source names starts with a token that is no trivia. -/
theorem exists_first_of_mem_extents {text : List Char} {source : Source}
    (h : read text = .ok source) {extent : Extent} (hmem : extent ∈ source.outline.extents) :
    ∃ token, source.tokens[extent.start]? = some token ∧ token.isTrivia = false := by
  obtain ⟨pieces, hcuts⟩ := Outline.exists_cuts (ofSymbols_of_read h)
  obtain ⟨piece, hpiece, hsolid, rfl⟩ := hcuts.mem_extents.mp hmem
  obtain ⟨symbol, hsymbol, hfirst⟩ := (hcuts.valid piece hpiece).exists_first hsolid
  obtain ⟨token, htoken, rfl⟩ := exists_token_of_symbol hsymbol
  refine ⟨token, htoken, ?_⟩
  rw [Outline.isSeparator, Bool.or_eq_false_iff, Token.isTrivia_symbol] at hfirst
  exact hfirst.1

/-- What is left over on the line of an import starts another part of the outline. -/
theorem exists_extent_of_leftover {text : List Char} {source : Source}
    (h : read text = .ok source) {statement : ImportStatement}
    (hmem : statement ∈ source.outline.imports) {position : Nat} {token : Token}
    (hleft : Token.Leftover source.tokens statement.tokens.stop position)
    (htoken : source.tokens[position]? = some token) (hsign : token.isSign ";" = false) :
    ∃ extent ∈ source.outline.extents, extent.start = position := by
  have hdivides := (divided_of_read h).divides
  have hown : statement.tokens ∈ source.outline.extents :=
    List.mem_append_left _ (List.mem_append_right _ (List.mem_map_of_mem hmem))
  have hforward := hdivides.nonempty _ hown
  have hbehind := hleft.behind
  obtain ⟨hlt, -⟩ := List.getElem?_eq_some_iff.mp htoken
  obtain ⟨extent, hextent, hcontains⟩ : ∃ extent ∈ source.outline.extents,
      extent.contains position = true := by
    refine Classical.not_not.mp fun hnone => ?_
    have hothers := hdivides.others position token (Nat.zero_le _) hlt htoken fun extent hextent =>
      Bool.eq_false_iff.mpr fun hcontains => hnone ⟨extent, hextent, hcontains⟩
    obtain ⟨solid, hsolid, htrivia⟩ := hleft.solid
    obtain rfl := Option.some.inj (hsolid.symm.trans htoken)
    simp [htrivia, hsign] at hothers
  obtain ⟨hstart, hstop⟩ := Extent.contains_iff.mp hcontains
  have hafter : statement.tokens.stop ≤ extent.start := by
    have hne : statement.tokens ≠ extent := by
      rintro rfl
      omega
    have hdisjoint := hdivides.disjoint.forall hown hextent hne
    refine Nat.le_of_not_lt fun hinside => ?_
    have hlast : extent.contains (statement.tokens.stop - 1) = false :=
      hdisjoint _ (Extent.contains_iff.mpr (by omega))
    rw [Bool.eq_false_iff, ne_eq, Extent.contains_iff] at hlast
    omega
  refine ⟨extent, hextent, ?_⟩
  rcases Nat.lt_or_eq_of_le hstart with hbefore | heq
  · obtain ⟨first, hfirst, htrivia⟩ := exists_first_of_mem_extents h hextent
    have hgap := hleft.beside extent.start first hafter hbefore hfirst
    simp [Token.isTrivia_eq, hgap] at htrivia
  · exact heq

/-- The imports of a source that was read and are not terminated are exactly those on whose line
another part of the outline starts behind them. What is left over there is no semicolon, no `as`
unless there is an alias, and no dot unless there is an alias or a star. -/
theorem not_terminated_iff_of_read {text : List Char} {source : Source}
    (h : read text = .ok source) {statement : ImportStatement}
    (hmem : statement ∈ source.outline.imports) :
    (¬ Token.Terminated source.tokens statement.tokens.stop ↔
      ∃ extent ∈ source.outline.extents,
        Token.Leftover source.tokens statement.tokens.stop extent.start) ∧
    ∀ position token, Token.Leftover source.tokens statement.tokens.stop position →
      source.tokens[position]? = some token →
        token.isSign ";" = false ∧
        (statement.clause.aliasName = none → token.isWord "as" = false) ∧
        (statement.clause.aliasName = none → statement.clause.wildcard = false →
          token.isSign "." = false) := by
  obtain ⟨ended, hreads⟩ := readsImport_of_read h hmem
  have hmaximal : ∀ position token,
      Token.Leftover source.tokens statement.tokens.stop position →
      source.tokens[position]? = some token →
        token.isSign ";" = false ∧
        (statement.clause.aliasName = none → token.isWord "as" = false) ∧
        (statement.clause.aliasName = none → statement.clause.wildcard = false →
          token.isSign "." = false) := by
    intro position token hleft htoken
    have hunended : ended = false := by
      rw [Bool.eq_false_iff]
      rintro rfl
      simpa [hleft.unended] using hreads.any_isSign
    exact hreads.complete hunended token (hleft.solidFrom? htoken)
  refine ⟨Token.not_terminated_iff.trans ⟨?_, ?_⟩, hmaximal⟩
  · rintro ⟨position, hleft⟩
    obtain ⟨token, htoken, -⟩ := hleft.solid
    obtain ⟨extent, hextent, rfl⟩ :=
      exists_extent_of_leftover h hmem hleft htoken (hmaximal position token hleft htoken).1
    exact ⟨extent, hextent, hleft⟩
  · rintro ⟨extent, -, hleft⟩
    exact ⟨extent.start, hleft⟩

/-- An import with a word left over on its line, and one that ends with its line. -/
theorem not_terminated_iff_of_read_leftover :
    ∃ source, read "import a.B C\nimport d.E // F\n".toList = .ok source ∧
      ∃ first second, source.outline.imports = [first, second] ∧
        ¬ Token.Terminated source.tokens first.tokens.stop ∧
        (∃ extent ∈ source.outline.extents,
          Token.Leftover source.tokens first.tokens.stop extent.start) ∧
        Token.Terminated source.tokens second.tokens.stop ∧
        ¬ ∃ extent ∈ source.outline.extents,
          Token.Leftover source.tokens second.tokens.stop extent.start := by
  have hrun : ((read "import a.B C\nimport d.E // F\n".toList).toOption.any fun source =>
      source.outline.imports.map (fun statement =>
        decide (Token.Terminated source.tokens statement.tokens.stop)) = [false, true]) = true := by
    decide +kernel
  generalize "import a.B C\nimport d.E // F\n".toList = text at hrun ⊢
  cases hread : read text with
  | error failure => simp [hread, Except.toOption] at hrun
  | ok source =>
    simp only [hread, Except.toOption, Option.any_some, decide_eq_true_eq] at hrun
    obtain ⟨first, rest, himports, hfirst, hrest⟩ := List.map_eq_cons_iff.mp hrun
    obtain ⟨second, none, rfl, hsecond, hnone⟩ := List.map_eq_cons_iff.mp hrest
    obtain rfl := List.map_eq_nil_iff.mp hnone
    have hleft := of_decide_eq_false hfirst
    have hended := of_decide_eq_true hsecond
    refine ⟨source, rfl, first, second, himports, hleft, ?_, hended, fun hmore => ?_⟩
    · exact (not_terminated_iff_of_read hread (by simp [himports])).1.mp hleft
    · exact (not_terminated_iff_of_read hread (by simp [himports])).1.mpr hmore hended

/-- A source is read although a word is left over on the line of an import. -/
theorem exists_unterminated :
    ∃ source, read "import a.B C\n".toList = .ok source ∧
      ∃ statement ∈ source.outline.imports,
        ¬ Token.Terminated source.tokens statement.tokens.stop := by
  have hrun : ((read "import a.B C\n".toList).toOption.any fun source =>
      source.outline.imports.any fun statement =>
        ! decide (Token.Terminated source.tokens statement.tokens.stop)) = true := by
    decide +kernel
  generalize "import a.B C\n".toList = text at hrun ⊢
  cases hread : read text with
  | error failure => simp [hread, Except.toOption] at hrun
  | ok source =>
    simp only [hread, Except.toOption, Option.any_some, List.any_eq_true] at hrun
    obtain ⟨statement, hmem, hleft⟩ := hrun
    exact ⟨source, rfl, statement, hmem, by simpa using hleft⟩

end Source

end UnusedImports
