import UnusedImports.Proofs.Excision.Kept
import UnusedImports.Proofs.Excision.Reach

/-!
Removing imports preserves everything else. What is left is the text without some of its
characters: those of the chosen imports, white space, and comments of one line beside a chosen
import. The package clause, all other imports and all items of the body stay as they are, each
in one stretch and in their order, and so does a byte order mark.
-/
namespace UnusedImports

open UnusedImports.Text

namespace Text

def textOf (text : List Char) (extent : Extent) : List Char :=
  takeBytes (extent.stop - extent.start) (dropBytes extent.start text)

/-- The parts occur in a text one after the other, each in one stretch. -/
def InOrder : List (List Char) → List Char → Prop
  | [], _ => True
  | part :: parts, text => ∃ before after, text = before ++ (part ++ after) ∧ InOrder parts after

/-- Of two ways to split a text, the one with fewer bytes before comes first. -/
theorem exists_between {before after first second : List Char}
    (h : before ++ after = first ++ second) (hle : byteLength before ≤ byteLength first) :
    ∃ between, first = before ++ between ∧ after = between ++ second := by
  rcases List.append_eq_append_iff.mp h with ⟨between, hfirst, hafter⟩ | ⟨between, hbefore, hsecond⟩
  · exact ⟨between, hfirst, hafter⟩
  · have hnil : between = [] := by
      by_cases hne : between = []
      · exact hne
      · have hpositive := byteLength_pos hne
        rw [hbefore, byteLength_append] at hle
        omega
    subst hnil
    exact ⟨[], by simpa using hbefore.symm, by simpa using hsecond.symm⟩

/-- Bytes from the start of one part to the end of a later one are a part themselves. -/
theorem stands_textOf {text first last : List Char} {start stop : Nat}
    (hfirst : Stands text first start) (hlast : Stands text last stop)
    (hle : start ≤ stop + byteLength last) :
    Stands text (textOf text ⟨start, stop + byteLength last⟩) start ∧
      byteLength (textOf text ⟨start, stop + byteLength last⟩) =
        stop + byteLength last - start := by
  obtain ⟨before, after, htext, hbefore⟩ := hfirst
  obtain ⟨before', after', htext', hbefore'⟩ := hlast
  obtain ⟨between, hsplit, hrest⟩ := exists_between
    (show before ++ (first ++ after) = (before' ++ last) ++ after' by
      rw [← htext, htext', List.append_assoc])
    (by rw [byteLength_append]; omega)
  have hlength := congrArg byteLength hsplit
  rw [byteLength_append, byteLength_append] at hlength
  have hstands : Stands text between start := ⟨before, after', by rw [htext, hrest], hbefore⟩
  have hbetween : byteLength between = stop + byteLength last - start := by omega
  have hpart : textOf text ⟨start, stop + byteLength last⟩ = between := by
    unfold textOf
    simp only
    rw [← hbetween]
    exact hstands.takeBytes_dropBytes
  rw [hpart]
  exact ⟨hstands, hbetween⟩

end Text

namespace Excision

variable {cuts : List Extent}

theorem erase_of_not_hits {start : Nat} {part : List Char}
    (h : ∀ offset c, charAt? offset part = some c → ¬ Hits cuts (start + offset)) :
    erase cuts start part = part := by
  rw [@erase_eq_erase cuts [] start part, erase_nil]
  intro offset c hc
  exact iff_of_false (h offset c hc) (by simp [Hits])

/-- Parts that no cut hits are left in their order. -/
theorem inOrder_erase {text : List Char} (parts : List Extent)
    (hpairs : parts.Pairwise fun first second => first.stop ≤ second.start)
    (hstands : ∀ part ∈ parts, Stands text (textOf text part) part.start ∧
      byteLength (textOf text part) = part.stop - part.start ∧ part.start ≤ part.stop)
    (hhits : ∀ part ∈ parts, ∀ offset c, charAt? offset text = some c →
      part.contains offset = true → ¬ Hits cuts offset)
    {before rest : List Char} (htext : text = before ++ rest)
    (hbefore : ∀ part ∈ parts, byteLength before ≤ part.start) :
    InOrder (parts.map (textOf text)) (erase cuts (byteLength before) rest) := by
  induction parts generalizing before rest with
  | nil => trivial
  | cons part parts ih =>
    obtain ⟨hfirst, hpairs⟩ := List.pairwise_cons.mp hpairs
    obtain ⟨hstand, hlength, hforward⟩ := hstands part List.mem_cons_self
    have hstand' := hstand
    obtain ⟨before', after, hsplit, hstart⟩ := hstand
    obtain ⟨between, rfl, hrest⟩ := exists_between (htext.symm.trans hsplit)
      (hstart ▸ hbefore part List.mem_cons_self)
    have hkept : erase cuts part.start (textOf text part) = textOf text part := by
      apply erase_of_not_hits
      intro offset c hc
      have hlt := lt_of_charAt? hc
      apply hhits part List.mem_cons_self _ c
      · rw [hstand'.charAt? hlt, hc]
      · exact Extent.contains_iff.mpr ⟨Nat.le_add_right _ _, by omega⟩
    have hafter := ih hpairs (fun other hother => hstands other (List.mem_cons_of_mem _ hother))
      (fun other hother => hhits other (List.mem_cons_of_mem _ hother))
      (show text = (before ++ between ++ textOf text part) ++ after by
        rw [List.append_assoc]; exact hsplit)
      (by
        intro other hother
        have hle := hfirst other hother
        rw [byteLength_append, hstart]
        omega)
    refine ⟨erase cuts (byteLength before) between, _, ?_, hafter⟩
    rw [byteLength_append] at hstart
    rw [hrest, erase_append, erase_append, hstart, hkept, byteLength_append, byteLength_append,
      hstart]

/-- A token may go although no removed statement holds it: white space, a line end, or a comment
of one line on a line that holds part of a removed statement. -/
def Expendable (text : List Char) (removals : List Extent) (token : Token) : Prop :=
  token.kind = .blank ∨ token.kind = .newline ∨
    token.kind = .comment ∧ '\n' ∉ token.text.toList ∧
      ∃ line ∈ (LineIndex.ofText text).lines, line.start ≤ token.start ∧ token.stop ≤ line.stop ∧
        ∃ removal ∈ removals, ∃ between, removal.contains between = true ∧
          line.extent.contains between = true

end Excision

namespace Outline

/-- The tokens of the package clause, of an import that is not chosen, or of a body item. -/
def Keeps (outline : Outline) (chosen : List ImportStatement) (extent : Extent) : Prop :=
  outline.package = some extent ∨
    (∃ statement ∈ outline.imports, statement ∉ chosen ∧ statement.tokens = extent) ∨
    ∃ item ∈ outline.body, item.tokens = extent

def Piece.Stays (chosen : List ImportStatement) (piece : Piece) : Prop :=
  (∀ statement ∈ chosen, piece ≠ .importStatement statement) ∧
    ∀ position, piece ≠ .separator position

theorem keeps_iff {symbols : List Symbol} {outline : Outline} {pieces : List Piece}
    (hcuts : Cuts [] symbols true outline pieces) {chosen : List ImportStatement}
    {extent : Extent} :
    outline.Keeps chosen extent ↔
      ∃ piece ∈ pieces, piece.Stays chosen ∧ piece.extent = extent := by
  constructor
  · intro h
    rw [hcuts.assembled] at h
    rcases h with hpackage | ⟨statement, hmem, hnot, rfl⟩ | ⟨item, hmem, rfl⟩
    · exact ⟨.package extent, mem_of_package_assemble hpackage, ⟨by simp, by simp⟩, rfl⟩
    · refine ⟨.importStatement statement, mem_imports_assemble.mp hmem, ⟨?_, by simp⟩, rfl⟩
      intro other hother heq
      rw [Piece.importStatement.inj heq] at hnot
      exact hnot hother
    · rcases mem_body_assemble.mp hmem with hpiece | ⟨tokens, rfl, hpiece⟩
      · exact ⟨.bodyItem item, hpiece, ⟨by simp, by simp⟩, rfl⟩
      · exact ⟨.heading tokens, hpiece, ⟨by simp, by simp⟩, rfl⟩
  · intro h
    obtain ⟨piece, hpiece, ⟨hchosen, hseparator⟩, rfl⟩ := h
    cases piece with
    | separator position => exact absurd rfl (hseparator position)
    | package tokens => exact Or.inl (hcuts.package tokens hpiece).2
    | importStatement statement =>
      refine Or.inr (Or.inl ⟨statement, ?_, ?_, rfl⟩)
      · rw [hcuts.assembled]
        exact mem_imports_assemble.mpr hpiece
      · intro hmem
        exact hchosen statement hmem rfl
    | heading tokens =>
      refine Or.inr (Or.inr ⟨.statement tokens, ?_, rfl⟩)
      rw [hcuts.assembled]
      exact mem_body_assemble.mpr (Or.inr ⟨tokens, rfl, hpiece⟩)
    | bodyItem item =>
      refine Or.inr (Or.inr ⟨item, ?_, rfl⟩)
      rw [hcuts.assembled]
      exact mem_body_assemble.mpr (Or.inl hpiece)

end Outline

namespace Source

open Excision

structure Preserves (source : Source) (text : List Char) (chosen : List ImportStatement)
    (cuts : List Extent) : Prop where
  /-- Every byte of a chosen import is cut. -/
  removed : ∀ statement ∈ chosen, ∀ offset,
    (Token.bytesOf source.tokens statement.tokens).contains offset = true → Hits cuts offset
  /-- Any other character that is cut belongs to a token that may go. -/
  expendable : ∀ offset c, charAt? offset text = some c → Hits cuts offset →
    (∀ removal ∈ source.bytesOfImports chosen, removal.contains offset = false) →
      ∃ token ∈ source.tokens, token.extent.contains offset = true ∧
        Expendable text (source.bytesOfImports chosen) token
  /-- What is kept is not cut at all, and it is left in its order. -/
  kept : ∃ parts : List Extent,
    (∀ extent, extent ∈ parts ↔ source.outline.Keeps chosen extent) ∧
    parts.Pairwise (fun first second => first.stop ≤ second.start) ∧
    (∀ part ∈ parts, ∀ offset c, charAt? offset text = some c →
      (Token.bytesOf source.tokens part).contains offset = true → ¬ Hits cuts offset) ∧
    InOrder (parts.map fun part => textOf text (Token.bytesOf source.tokens part))
      (erase cuts 0 text)
  /-- A byte order mark is left. -/
  mark : text.head? = some byteOrderMark → (erase cuts 0 text).head? = some byteOrderMark

variable {source : Source} {text : List Char} {chosen : List ImportStatement}
  {pieces : List Outline.Piece}

theorem Selects.not_hits_of_stays (h : source.Selects text chosen)
    (hcuts : Outline.Cuts [] (source.tokens.map Token.symbol) true source.outline pieces)
    {piece : Outline.Piece} (hpiece : piece ∈ pieces) (hstays : piece.Stays chosen)
    {position offset : Nat} {token : Token} (htoken : source.tokens[position]? = some token)
    (hcontains : piece.extent.contains position = true) {c : Char}
    (hc : charAt? offset text = some c) (hstart : token.start ≤ offset)
    (hstop : offset < token.stop) :
    ¬ Hits (plan text source.tokens (source.bytesOfImports chosen)).cuts offset := by
  have hsheltered := h.sheltered_of_piece hcuts hpiece hstays.1 hstays.2 htoken hcontains hc hstart
    hstop
  exact hsheltered.not_hits h.lexed h.aligned_bytes

/-- A character of a token that has to stay is sheltered, if no chosen import holds it. -/
theorem Selects.sheltered_of_fixed (h : source.Selects text chosen) {position offset : Nat}
    {token : Token} (htoken : source.tokens[position]? = some token)
    (hfixed : token.isFixed = true) {c : Char} (hc : charAt? offset text = some c)
    (hstart : token.start ≤ offset) (hstop : offset < token.stop)
    (hstays : ∀ removal ∈ source.bytesOfImports chosen, removal.contains offset = false) :
    Sheltered text source.tokens (source.bytesOfImports chosen) offset := by
  obtain ⟨pieces, hcuts⟩ := Outline.exists_cuts h.outlined
  have hlength := (List.getElem?_eq_some_iff.mp htoken).1
  have htiles := hcuts.tiles
  simp only [List.length_nil, Nat.zero_add, List.length_map] at htiles
  obtain ⟨extent, hextent, hcontains⟩ := htiles.exists_contains (Nat.zero_le position) hlength
  obtain ⟨piece, hpiece, rfl⟩ := List.mem_map.mp hextent
  have hkept : ∀ statement ∈ chosen, piece ≠ .importStatement statement := by
    intro statement hchosen heq
    have hnot := hstays _ (List.mem_map_of_mem hchosen)
    rw [h.contains_of_bytes hchosen htoken hstart hstop] at hnot
    rw [heq] at hcontains
    exact absurd hcontains (by simp [Outline.Piece.extent, hnot])
  by_cases hseparator : ∃ position, piece = .separator position
  · obtain ⟨between, rfl⟩ := hseparator
    have hvalid : Outline.Piece.Valid (source.tokens.map Token.symbol) (.separator between) :=
      hcuts.valid _ hpiece
    obtain ⟨symbol, hsymbol, hseparates⟩ := hvalid
    have hbounds := Extent.contains_iff.mp hcontains
    simp only [Outline.Piece.extent] at hbounds
    obtain rfl : between = position := by omega
    obtain ⟨other, hother, rfl⟩ := exists_token_of_symbol hsymbol
    obtain rfl := Option.some.inj (htoken.symm.trans hother)
    exact h.sheltered_of_separator htoken hseparates (h.spares hcuts hpiece hkept hcontains) hfixed
      hc hstart hstop
  · exact h.sheltered_of_piece hcuts hpiece hkept
      (fun between heq => hseparator ⟨between, heq⟩) htoken hcontains hc hstart hstop

/-- A character outside the chosen imports that is cut belongs to a token that may go. -/
theorem Selects.expendable (h : source.Selects text chosen) {offset : Nat} {c : Char}
    (hc : charAt? offset text = some c)
    (hhits : Hits (plan text source.tokens (source.bytesOfImports chosen)).cuts offset)
    (hstays : ∀ removal ∈ source.bytesOfImports chosen, removal.contains offset = false) :
    ∃ token ∈ source.tokens, token.extent.contains offset = true ∧
      Expendable text (source.bytesOfImports chosen) token := by
  obtain ⟨position, token, htoken, hstart, hstop⟩ :=
    Token.exists_token h.lexed (lt_of_charAt? hc)
  have hmem := List.mem_of_getElem? htoken
  refine ⟨token, hmem, Extent.contains_iff.mpr ⟨hstart, hstop⟩, ?_⟩
  by_cases hfixed : token.isFixed = true
  · have hsheltered := h.sheltered_of_fixed htoken hfixed hc hstart hstop hstays
    exact absurd hhits (hsheltered.not_hits h.lexed h.aligned_bytes)
  · unfold Token.isFixed at hfixed
    cases hkind : token.kind with
    | blank => exact Or.inl hkind
    | newline => exact Or.inr (Or.inl hkind)
    | comment =>
      have hfeed : '\n' ∉ token.text.toList := by simpa [hkind] using hfixed
      exact Or.inr (Or.inr ⟨hkind, hfeed, exists_touched_line h.lexed h.aligned_bytes hmem hkind
        hfeed hstart hstop hstays hhits⟩)
    | _ => simp [hkind] at hfixed

/-- The bytes of a run of tokens are a part of the text. -/
theorem stands_bytesOf (hlex : Token.lex text = .ok source.tokens) {extent : Extent}
    (hforward : extent.start < extent.stop) (hstop : extent.stop ≤ source.tokens.length) :
    Stands text (textOf text (Token.bytesOf source.tokens extent))
        (Token.bytesOf source.tokens extent).start ∧
      byteLength (textOf text (Token.bytesOf source.tokens extent)) =
        (Token.bytesOf source.tokens extent).stop - (Token.bytesOf source.tokens extent).start ∧
      (Token.bytesOf source.tokens extent).start ≤ (Token.bytesOf source.tokens extent).stop := by
  obtain ⟨first, last, hfirst, hlast, hbytes⟩ := exists_bytesOf extent hforward hstop
  have hle : first.start ≤ last.stop := Nat.le_trans (Token.start_le_stop first)
    (Token.stop_le_stop hlex hfirst hlast (by omega))
  obtain ⟨hstands, hlength⟩ := stands_textOf
    (Token.stands_token hlex (List.mem_of_getElem? hfirst))
    (Token.stands_token hlex (List.mem_of_getElem? hlast)) hle
  rw [hbytes]
  exact ⟨hstands, hlength, hle⟩

/-- Runs of tokens that follow one another do so in their bytes. -/
theorem stop_le_start_bytesOf (hlex : Token.lex text = .ok source.tokens) {extent other : Extent}
    (hforward : extent.start < extent.stop) (hother : other.start < other.stop)
    (hstop : other.stop ≤ source.tokens.length) (hle : extent.stop ≤ other.start) :
    (Token.bytesOf source.tokens extent).stop ≤ (Token.bytesOf source.tokens other).start := by
  obtain ⟨_, last, _, hlast, hbytes⟩ := exists_bytesOf extent hforward
    (show extent.stop ≤ source.tokens.length by omega)
  obtain ⟨first, _, hfirst, _, hbytes'⟩ := exists_bytesOf other hother hstop
  rw [hbytes, hbytes']
  exact Token.stop_le_start hlex hlast hfirst (by omega)

/-- Runs of tokens that no cut hits are left in their order. -/
theorem inOrder_of_not_hits (hlex : Token.lex text = .ok source.tokens) {cuts parts : List Extent}
    (hpairs : parts.Pairwise fun first second => first.stop ≤ second.start)
    (hbounds : ∀ part ∈ parts, part.start < part.stop ∧ part.stop ≤ source.tokens.length)
    (hhits : ∀ part ∈ parts, ∀ offset c, charAt? offset text = some c →
      (Token.bytesOf source.tokens part).contains offset = true → ¬ Hits cuts offset) :
    InOrder (parts.map fun part => textOf text (Token.bytesOf source.tokens part))
      (erase cuts 0 text) := by
  have hbytes : ((parts.map (Token.bytesOf source.tokens)).Pairwise
      fun first second => first.stop ≤ second.start) := by
    rw [List.pairwise_map]
    apply hpairs.imp_of_mem
    intro first second hfirst hsecond hle
    obtain ⟨hforward, -⟩ := hbounds first hfirst
    obtain ⟨hforward', hstop⟩ := hbounds second hsecond
    exact stop_le_start_bytesOf hlex hforward hforward' hstop hle
  rw [← Function.comp_def (textOf text), ← List.map_map]
  refine inOrder_erase _ hbytes ?_ ?_ (List.nil_append text).symm fun _ _ => Nat.zero_le _
  · intro extent hextent
    obtain ⟨part, hpart, rfl⟩ := List.mem_map.mp hextent
    obtain ⟨hforward, hstop⟩ := hbounds part hpart
    exact stands_bytesOf hlex hforward hstop
  · intro extent hextent
    obtain ⟨part, hpart, rfl⟩ := List.mem_map.mp hextent
    exact hhits part hpart

/-- What is kept is not cut, and it is left in its order. -/
theorem Selects.exists_kept (h : source.Selects text chosen) :
    ∃ parts : List Extent,
      (∀ extent, extent ∈ parts ↔ source.outline.Keeps chosen extent) ∧
      parts.Pairwise (fun first second => first.stop ≤ second.start) ∧
      (∀ part ∈ parts, ∀ offset c, charAt? offset text = some c →
        (Token.bytesOf source.tokens part).contains offset = true →
          ¬ Hits (plan text source.tokens (source.bytesOfImports chosen)).cuts offset) ∧
      InOrder (parts.map fun part => textOf text (Token.bytesOf source.tokens part))
        (erase (plan text source.tokens (source.bytesOfImports chosen)).cuts 0 text) := by
  classical
  obtain ⟨pieces, hcuts⟩ := Outline.exists_cuts h.outlined
  have htiles := hcuts.tiles
  simp only [List.length_nil, Nat.zero_add, List.length_map] at htiles
  obtain ⟨kept, hsublist, hkept⟩ : ∃ kept : List Outline.Piece, kept.Sublist pieces ∧
      ∀ piece, piece ∈ kept ↔ piece ∈ pieces ∧ piece.Stays chosen :=
    ⟨pieces.filter fun piece => piece.Stays chosen, List.filter_sublist, by simp⟩
  have hpairs : (kept.map Outline.Piece.extent).Pairwise
      fun first second => first.stop ≤ second.start :=
    htiles.pairwise.sublist (hsublist.map Outline.Piece.extent)
  have hbounds : ∀ part ∈ kept.map Outline.Piece.extent,
      part.start < part.stop ∧ part.stop ≤ source.tokens.length := by
    intro part hpart
    obtain ⟨piece, hpiece, rfl⟩ := List.mem_map.mp hpart
    have hmem := ((hkept piece).mp hpiece).1
    have hvalid : piece.Valid (source.tokens.map Token.symbol) := hcuts.valid piece hmem
    exact ⟨hvalid.start_lt_stop, (htiles.bounds.2 _ (List.mem_map_of_mem hmem)).2.2⟩
  have hhits : ∀ part ∈ kept.map Outline.Piece.extent, ∀ offset c,
      charAt? offset text = some c →
        (Token.bytesOf source.tokens part).contains offset = true →
          ¬ Hits (plan text source.tokens (source.bytesOfImports chosen)).cuts offset := by
    intro part hpart offset c hc hcontains
    obtain ⟨hforward, hstop⟩ := hbounds part hpart
    obtain ⟨piece, hpiece, rfl⟩ := List.mem_map.mp hpart
    obtain ⟨hmem, hstays⟩ := (hkept piece).mp hpiece
    obtain ⟨position, token, htoken, htokenstart, htokenstop⟩ :=
      Token.exists_token h.lexed (lt_of_charAt? hc)
    rw [contains_bytesOf h.lexed hforward hstop htoken htokenstart htokenstop] at hcontains
    exact h.not_hits_of_stays hcuts hmem hstays htoken hcontains hc htokenstart htokenstop
  refine ⟨kept.map Outline.Piece.extent, ?_, hpairs, hhits, ?_⟩
  · intro extent
    rw [Outline.keeps_iff hcuts, List.mem_map]
    constructor
    · intro hcase
      obtain ⟨piece, hpiece, hextent⟩ := hcase
      obtain ⟨hmem, hstays⟩ := (hkept piece).mp hpiece
      exact ⟨piece, hmem, hstays, hextent⟩
    · intro hcase
      obtain ⟨piece, hmem, hstays, hextent⟩ := hcase
      exact ⟨piece, (hkept piece).mpr ⟨hmem, hstays⟩, hextent⟩
  · exact inOrder_of_not_hits h.lexed hpairs hbounds hhits

/-- Removing some of the imports of a source takes characters away and nothing else: all of the
chosen imports, and beyond them only what may go. Everything that is kept stays as it is. -/
theorem exists_preserves_remove {text : List Char} {source : Source}
    (hread : Source.read text = .ok source) {chosen : List ImportStatement}
    (hchosen : ∀ statement ∈ chosen, statement ∈ source.outline.imports) :
    ∃ cuts, remove text source.tokens (source.bytesOfImports chosen) = erase cuts 0 text ∧
      source.Preserves text chosen cuts := by
  obtain ⟨-, -, hlex, houtline⟩ := of_read hread
  have h : source.Selects text chosen := ⟨hlex, houtline, hchosen⟩
  refine ⟨(plan text source.tokens (source.bytesOfImports chosen)).cuts, ?_, ?_, ?_, ?_, ?_⟩
  · apply remove_eq_erase
    intro cut hcut
    exact start_le_stop_of_mem_plan h.aligned_bytes hcut
  · intro statement hmem offset hcontains
    exact hits_of_removed h.aligned_bytes h.not_mark (List.mem_map_of_mem hmem) hcontains
  · intro offset c hc hhits hstays
    exact h.expendable hc hhits hstays
  · exact h.exists_kept
  · intro hhead
    have hnot := not_hits_of_mark h.aligned_bytes h.not_mark hhead
    obtain ⟨rest, rfl⟩ := List.head?_eq_some_iff.mp hhead
    rw [erase, if_neg]
    · rfl
    · intro hany
      exact hnot (List.any_eq_true.mp hany)

theorem exists_preserves_remove_shared_line :
    ∃ text source statement,
      text = "\uFEFFpackage p\nimport a.B\nimport d.E; x = \"\"\"\n\n$y\n\"\"\"\n".toList ∧
      Source.read text = .ok source ∧ source.outline.imports[1]? = some statement ∧
      ∃ cuts, remove text source.tokens (source.bytesOfImports [statement]) = erase cuts 0 text ∧
        source.Preserves text [statement] cuts := by
  have hrun : ((Source.read
      "\uFEFFpackage p\nimport a.B\nimport d.E; x = \"\"\"\n\n$y\n\"\"\"\n".toList).toOption.any
        fun source => source.outline.imports[1]?.isSome) = true := by decide +kernel
  generalize
    "\uFEFFpackage p\nimport a.B\nimport d.E; x = \"\"\"\n\n$y\n\"\"\"\n".toList = text at hrun ⊢
  cases hread : Source.read text with
  | error failure => simp [hread, Except.toOption] at hrun
  | ok source =>
    simp only [hread, Except.toOption, Option.any_some] at hrun
    obtain ⟨statement, hstatement⟩ := Option.isSome_iff_exists.mp hrun
    refine ⟨text, source, statement, rfl, hread, hstatement,
      exists_preserves_remove hread ?_⟩
    intro other hother
    rw [List.mem_singleton.mp hother]
    exact List.mem_of_getElem? hstatement

end Source

end UnusedImports
