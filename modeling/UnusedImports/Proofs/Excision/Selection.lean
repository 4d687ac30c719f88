import UnusedImports.Proofs.Excision.Shelter
import UnusedImports.Proofs.Source

/-!
Imports selected for removal. Their bytes are those of a run of tokens that starts with the
sign of an annotation or the keyword. What is no chosen import holds no token of one, and
nothing that a chosen import could start with follows it.
-/
namespace UnusedImports

namespace Source

structure Selects (source : Source) (text : List Char) (chosen : List ImportStatement) : Prop where
  lexed : Token.lex text = .ok source.tokens
  outlined : Outline.ofSymbols (source.tokens.map Token.symbol) = .ok source.outline
  chosen_mem : ∀ statement ∈ chosen, statement ∈ source.outline.imports

def bytesOfImports (source : Source) (chosen : List ImportStatement) : List Extent :=
  chosen.map fun statement => Token.bytesOf source.tokens statement.tokens

def Spares (chosen : List ImportStatement) (position : Nat) : Prop :=
  ∀ statement ∈ chosen, statement.tokens.contains position = false

variable {source : Source} {text : List Char} {chosen : List ImportStatement}

theorem Selects.importAt (h : source.Selects text chosen) {statement : ImportStatement}
    (hmem : statement ∈ source.outline.imports) :
    Outline.ImportAt (source.tokens.map Token.symbol) statement :=
  Outline.importAt_ofSymbols h.outlined hmem

/-- The bytes of a chosen import start with a character and stop after one, and each token is
among them or apart from them. -/
theorem Selects.aligned (h : source.Selects text chosen) {statement : ImportStatement}
    (hmem : statement ∈ chosen) :
    Excision.Aligned text source.tokens (Token.bytesOf source.tokens statement.tokens) := by
  have hat := h.importAt (h.chosen_mem statement hmem)
  have hkeyword := hat.start_le_keyword
  have hforward := hat.clause.keyword_lt_stop
  have hstop := hat.clause.stop_le
  rw [List.length_map] at hstop
  obtain ⟨first, last, hfirst, hlast, hbytes⟩ :=
    exists_bytesOf statement.tokens (by omega) hstop
  obtain ⟨opening, hopening, hsymbol⟩ := exists_first_of_importAt hat
  obtain rfl := Option.some.inj (hfirst.symm.trans hopening)
  have hspelled := spelled_of_first h.lexed hfirst hsymbol
  rw [hbytes]
  refine ⟨?_, ?_, ?_, ?_⟩
  · exact Nat.lt_of_lt_of_le (start_lt_stop_of_spelled hspelled)
      (Token.stop_le_stop h.lexed hfirst hlast (by omega))
  · exact ⟨_, (Token.stands_token h.lexed (List.mem_of_getElem? hfirst)).head
      (List.head?_eq_some_head hspelled.1)⟩
  · obtain ⟨before, after, htext, hbefore⟩ :=
      Token.stands_token h.lexed (List.mem_of_getElem? hlast)
    refine ⟨before ++ last.text.toList, after, by rw [htext, List.append_assoc], ?_⟩
    rw [Text.byteLength_append, hbefore]
    rfl
  · intro token htoken hnonempty
    obtain ⟨position, hposition⟩ := List.mem_iff_getElem?.mp htoken
    by_cases hbefore : position < statement.tokens.start
    · exact Or.inr (Or.inl (Token.stop_le_start h.lexed hposition hfirst hbefore))
    · by_cases hafter : statement.tokens.stop ≤ position
      · exact Or.inr (Or.inr (Token.stop_le_start h.lexed hlast hposition (by omega)))
      · exact Or.inl ⟨Token.start_le_start h.lexed hfirst hposition (by omega),
          Token.stop_le_stop h.lexed hposition hlast (by omega)⟩

theorem Selects.aligned_bytes (h : source.Selects text chosen) :
    ∀ removal ∈ source.bytesOfImports chosen, Excision.Aligned text source.tokens removal := by
  intro removal hremoval
  obtain ⟨statement, hmem, rfl⟩ := List.mem_map.mp hremoval
  exact h.aligned hmem

/-- An import starts with a sign or a word and stops with one. -/
theorem Selects.framed (h : source.Selects text chosen) :
    ∀ removal ∈ source.bytesOfImports chosen, Excision.Framed text removal := by
  intro removal hremoval
  obtain ⟨statement, hmem, rfl⟩ := List.mem_map.mp hremoval
  have hat := h.importAt (h.chosen_mem statement hmem)
  have hkeyword := hat.start_le_keyword
  have hforward := hat.clause.keyword_lt_stop
  have hlength := hat.clause.stop_le
  rw [List.length_map] at hlength
  obtain ⟨first, last, hfirst, hlast, hbytes⟩ := exists_bytesOf statement.tokens (by omega) hlength
  obtain ⟨opening, hopening, hsymbol⟩ := exists_first_of_importAt hat
  obtain rfl := Option.some.inj (hfirst.symm.trans hopening)
  have hstarts := spelled_of_first h.lexed hfirst hsymbol
  have hstops : last.Spelled := by
    obtain ⟨symbol, hclosing, hends⟩ := hat.clause.last
    obtain ⟨closing, htoken, rfl⟩ := exists_token_of_symbol hclosing
    obtain rfl := Option.some.inj (hlast.symm.trans htoken)
    obtain ⟨hother, htrivia⟩ := Symbol.solid_of_endsClause hends
    exact spelled_of_symbol h.lexed hlast hother htrivia
  rw [hbytes]
  refine ⟨⟨first.text.toList.head hstarts.1, ?_, hstarts.2 _ (List.head_mem _)⟩, ?_⟩
  · exact (Token.stands_token h.lexed (List.mem_of_getElem? hfirst)).head
      (List.head?_eq_some_head hstarts.1)
  · obtain ⟨offset, hstart, hend, hc⟩ :=
      (Token.stands_token h.lexed (List.mem_of_getElem? hlast)).getLast
        (List.getLast?_eq_some_getLast hstops.1)
    refine ⟨offset, _, hc, hstops.2 _ (List.getLast_mem _), ?_, hend⟩
    exact Nat.le_trans (Token.start_le_start h.lexed hfirst hlast (by omega)) hstart

theorem Selects.not_mark (h : source.Selects text chosen) :
    ∀ removal ∈ source.bytesOfImports chosen,
      Text.charAt? removal.start text ≠ some Text.byteOrderMark := by
  intro removal hremoval hmark
  obtain ⟨statement, hmem, rfl⟩ := List.mem_map.mp hremoval
  obtain ⟨first, hfirst, hsymbol⟩ :=
    exists_first_of_importAt (h.importAt (h.chosen_mem statement hmem))
  have hstart : (Token.bytesOf source.tokens statement.tokens).start = first.start := by
    simp [Token.bytesOf, hfirst]
  have hstands := Token.stands_token h.lexed (List.mem_of_getElem? hfirst)
  have hhead : ∃ c, first.text.toList.head? = some c ∧ c ≠ Text.byteOrderMark := by
    rcases hsymbol with hsign | hword
    · have htext := Token.isSign_of_symbol (show first.symbol.sign? = some "@" by rw [hsign]; rfl)
      simp only [Token.isSign, Bool.and_eq_true, beq_iff_eq] at htext
      rw [htext.2]
      exact ⟨'@', rfl, by decide⟩
    · rw [(Token.kind_of_symbol_keyword hword).2]
      exact ⟨'i', rfl, by decide⟩
  obtain ⟨c, hc, hne⟩ := hhead
  rw [hstart, hstands.head hc] at hmark
  exact hne (Option.some.inj hmark)

section Pieces

variable {pieces : List Outline.Piece} {piece : Outline.Piece}

/-- A piece that is no chosen import holds no token of one. -/
theorem Selects.spares (h : source.Selects text chosen)
    (hcuts : Outline.Cuts [] (source.tokens.map Token.symbol) true source.outline pieces)
    (hpiece : piece ∈ pieces) (hkept : ∀ statement ∈ chosen, piece ≠ .importStatement statement)
    {position : Nat} (hcontains : piece.extent.contains position = true) :
    Spares chosen position := by
  intro statement hmem
  cases hother : statement.tokens.contains position with
  | false => rfl
  | true =>
    have himport := h.chosen_mem statement hmem
    rw [hcuts.assembled] at himport
    exact absurd (hcuts.tiles.eq_of_contains hpiece (Outline.mem_imports_assemble.mp himport)
      hcontains hother) (hkept statement hmem)

/-- Nor does a chosen import reach what follows such a piece, unless it starts there. -/
theorem Selects.spares_stop (h : source.Selects text chosen)
    (hcuts : Outline.Cuts [] (source.tokens.map Token.symbol) true source.outline pieces)
    (hpiece : piece ∈ pieces) (hkept : ∀ statement ∈ chosen, piece ≠ .importStatement statement)
    (hforward : piece.extent.start < piece.extent.stop) {token : Token}
    (htoken : source.tokens[piece.extent.stop]? = some token)
    (hsign : token.symbol ≠ .atSign) (hword : token.symbol ≠ .keyword "import") :
    Spares chosen piece.extent.stop := by
  intro statement hmem
  cases hother : statement.tokens.contains piece.extent.stop with
  | false => rfl
  | true =>
    exfalso
    obtain ⟨hstart, hstop⟩ := Extent.contains_iff.mp hother
    by_cases heq : statement.tokens.start = piece.extent.stop
    · obtain ⟨first, hfirst, hsymbol⟩ :=
        exists_first_of_importAt (h.importAt (h.chosen_mem statement hmem))
      rw [heq] at hfirst
      obtain rfl := Option.some.inj (htoken.symm.trans hfirst)
      rcases hsymbol with hsymbol | hsymbol
      · exact hsign hsymbol
      · exact hword hsymbol
    · have hspares := h.spares hcuts hpiece hkept
        (Extent.contains_iff.mpr ⟨by omega, by omega⟩ :
          piece.extent.contains (piece.extent.stop - 1) = true) statement hmem
      rw [Extent.contains_iff.mpr ⟨by omega, by omega⟩] at hspares
      simp at hspares

end Pieces

end Source

end UnusedImports
