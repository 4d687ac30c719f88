import UnusedImports.Proofs.Outline.Collection
import UnusedImports.Proofs.Outline.Division

/-!
Imports apart from everything else. The pieces of an outline have no position in common, so the
keyword of an import that is collected lies in no header and in no annotations. What the grammar
does not know, such as the sign of an interpolated expression, lies in no clause, so before such a
keyword it stands in an item or in annotations that have ended there.
-/
namespace UnusedImports

namespace Outline

def stretches (outline : Outline) : List Extent :=
  outline.body.map Item.tokens ++ outline.imports.filterMap ImportStatement.annotations

section Cutting

variable {symbols : List Symbol} {outline : Outline} {pieces : List Piece} {position : Nat}

theorem ImportAt.contains_keyword {statement : ImportStatement} (h : ImportAt symbols statement) :
    statement.tokens.contains statement.keyword = true :=
  Extent.contains_iff.mpr ⟨h.start_le_keyword, h.clause.keyword_lt_stop⟩

/-- The annotations of an import reach from its start to its keyword. -/
theorem ImportAt.eq_of_annotations {statement : ImportStatement} (h : ImportAt symbols statement)
    {extent : Extent} (hextent : statement.annotations = some extent) :
    extent = ⟨statement.tokens.start, statement.keyword⟩ := by
  have heq := h.annotations_eq
  rw [hextent] at heq
  split at heq
  · exact Option.some.inj heq
  · simp at heq

/-- The annotations of an import lie in it and before its keyword. -/
theorem ImportAt.contains_of_annotations {statement : ImportStatement}
    (h : ImportAt symbols statement) {extent : Extent}
    (hextent : statement.annotations = some extent) (hcontains : extent.contains position = true) :
    statement.tokens.contains position = true ∧ position < statement.keyword := by
  obtain rfl := h.eq_of_annotations hextent
  obtain ⟨hstart, hstop⟩ := Extent.contains_iff.mp hcontains
  have hlong := h.clause.keyword_lt_stop
  simp only at hstart hstop
  exact ⟨Extent.contains_iff.mpr ⟨hstart, by omega⟩, hstop⟩

theorem Placed.contains_of_header {tokens header : Extent} {members : List Item}
    (h : Placed symbols (.declaration tokens header members))
    (hcontains : header.contains position = true) : tokens.contains position = true := by
  cases h with
  | declaration _ _ hheader _ hmembers _ _ =>
    obtain ⟨hstart, hstop⟩ := Extent.contains_iff.mp hcontains
    have hle := hmembers.start_le_stop
    simp only at hstop hle
    exact Extent.contains_iff.mpr ⟨hstart, by simp only; omega⟩

section Keyword

variable {statement : ImportStatement} {piece : Piece}

/-- The keyword of an import lies in no other piece. -/
theorem Cuts.eq_of_contains_keyword (hcuts : Cuts [] symbols true outline pieces)
    (hmem : .importStatement statement ∈ pieces) (hpiece : piece ∈ pieces)
    (hcontains : piece.extent.contains statement.keyword = true) :
    piece = .importStatement statement :=
  hcuts.tiles.eq_of_contains hpiece hmem hcontains
    (ImportAt.contains_keyword (hcuts.valid _ hmem))

/-- Every other piece that starts before the keyword of an import stops before it. -/
theorem Cuts.stop_le_keyword (hcuts : Cuts [] symbols true outline pieces)
    (hmem : .importStatement statement ∈ pieces) (hpiece : piece ∈ pieces)
    (hne : piece ≠ .importStatement statement)
    (hstart : piece.extent.start ≤ statement.keyword) :
    piece.extent.stop ≤ statement.keyword :=
  Nat.le_of_not_lt fun hlong =>
    hne (hcuts.eq_of_contains_keyword hmem hpiece (Extent.contains_iff.mpr ⟨hstart, hlong⟩))

end Keyword

/-- What is collected is not absorbed: the pieces of an outline have no position in common. -/
theorem Cuts.not_absorbs (hcuts : Cuts [] symbols true outline pieces)
    (hcollects : outline.Collects position) : ¬ outline.Absorbs position := by
  obtain ⟨statement, hstatement, rfl⟩ := hcollects
  rw [hcuts.assembled] at hstatement
  have hmem := mem_imports_assemble.mp hstatement
  intro habsorbs
  cases habsorbs with
  | @header tokens header members hitem hcontains =>
    rw [hcuts.assembled] at hitem
    rcases mem_body_assemble.mp hitem with hitem | ⟨_, hheading, -⟩
    · obtain ⟨-, hplaced⟩ := hcuts.valid _ hitem
      simpa using hcuts.eq_of_contains_keyword hmem hitem (hplaced.contains_of_header hcontains)
    · simp at hheading
  | @annotations other extent hother hannotations hcontains =>
    rw [hcuts.assembled] at hother
    have hpiece := mem_imports_assemble.mp hother
    have hat : ImportAt symbols other := hcuts.valid _ hpiece
    obtain ⟨hinside, hbefore⟩ := hat.contains_of_annotations hannotations hcontains
    obtain rfl := Piece.importStatement.inj (hcuts.eq_of_contains_keyword hmem hpiece hinside)
    omega
  | @heading package tokens _ hitem _ hcontains =>
    rw [hcuts.assembled] at hitem
    rcases mem_body_assemble.mp hitem with hitem | ⟨_, hheading, hpiece⟩
    · simpa using hcuts.eq_of_contains_keyword hmem hitem hcontains
    · obtain rfl := Item.statement.inj hheading
      simpa using hcuts.eq_of_contains_keyword hmem hpiece hcontains

/-- A clause holds nothing that the grammar does not know. -/
theorem ClauseAt.ne_other {word : String} {keyword stop : Nat}
    (h : ClauseAt symbols word keyword stop) (hstart : keyword ≤ position)
    (hstop : position < stop) : symbols[position]? ≠ some .other := by
  intro hother
  rcases Nat.eq_or_lt_of_le hstart with rfl | hlt
  · simp [h.keyword_eq] at hother
  · obtain ⟨symbol, hsymbol, hpart⟩ := h.parts position hlt hstop
    obtain rfl := Option.some.inj (hsymbol.symm.trans hother)
    simp [Symbol.isClausePart] at hpart

/-- What the grammar does not know stands in a body item or in the annotations of an import. -/
theorem Cuts.exists_of_other (hcuts : Cuts [] symbols true outline pieces)
    (hsymbol : symbols[position]? = some .other) :
    (∃ item ∈ outline.body, ∃ piece ∈ pieces, piece.extent = item.tokens ∧
      (∀ statement, piece ≠ .importStatement statement) ∧
      item.tokens.contains position = true) ∨
    ∃ statement ∈ outline.imports, ∃ extent, statement.annotations = some extent ∧
      extent.contains position = true := by
  obtain ⟨extent, hextent, hcontains⟩ : ∃ extent ∈ outline.extents,
      extent.contains position = true := by
    refine Classical.byContradiction fun hnone => ?_
    have hseparator := hcuts.isSeparator hsymbol fun extent hextent => by
      rw [Bool.eq_false_iff]
      exact fun hcontains => hnone ⟨extent, hextent, hcontains⟩
    simp [Outline.isSeparator, Symbol.isTrivia] at hseparator
  obtain ⟨piece, hpiece, hsolid, rfl⟩ := hcuts.mem_extents.mp hextent
  obtain ⟨hstart, hstop⟩ := Extent.contains_iff.mp hcontains
  rw [hcuts.assembled]
  cases piece with
  | separator first => exact absurd rfl (hsolid first)
  | importStatement statement =>
    have hat : ImportAt symbols statement := hcuts.valid _ hpiece
    have hbefore : position < statement.keyword := Nat.lt_of_not_le fun hle =>
      hat.clause.ne_other hle hstop hsymbol
    have hnonempty : statement.tokens.start < statement.keyword :=
      Nat.lt_of_le_of_lt hstart hbefore
    exact Or.inr ⟨statement, mem_imports_assemble.mpr hpiece, _,
      hat.annotations_eq.trans (if_pos hnonempty), Extent.contains_iff.mpr ⟨hstart, hbefore⟩⟩
  | heading tokens =>
    exact Or.inl ⟨.statement tokens, mem_body_assemble.mpr (Or.inr ⟨tokens, rfl, hpiece⟩),
      _, hpiece, rfl, by simp, hcontains⟩
  | package tokens =>
    exact absurd hsymbol (ClauseAt.ne_other (hcuts.valid _ hpiece) hstart hstop)
  | bodyItem item =>
    exact Or.inl ⟨item, mem_body_assemble.mpr (Or.inl hpiece), _, hpiece, rfl, by simp, hcontains⟩

/-- What the grammar does not know stands before the keyword of a collected import only in a body
item or in annotations, which end before the keyword as well. -/
theorem Cuts.exists_stretch (hcuts : Cuts [] symbols true outline pieces)
    (hcollects : outline.Collects position) {earlier : Nat} (hlt : earlier < position)
    (hsymbol : symbols[earlier]? = some .other) :
    ∃ extent ∈ outline.stretches, extent.contains earlier = true ∧ extent.stop ≤ position := by
  obtain ⟨statement, hstatement, rfl⟩ := hcollects
  have hmem : .importStatement statement ∈ pieces :=
    mem_imports_assemble.mp (hcuts.assembled ▸ hstatement)
  rcases hcuts.exists_of_other hsymbol with
    ⟨item, hitem, piece, hpiece, hextent, hne, hcontains⟩ |
    ⟨other, hother, extent, hannotations, hcontains⟩
  · obtain ⟨hstart, -⟩ := Extent.contains_iff.mp hcontains
    have hstop := hcuts.stop_le_keyword hmem hpiece (hne statement) (by rw [hextent]; omega)
    exact ⟨item.tokens, List.mem_append_left _ (List.mem_map_of_mem hitem), hcontains,
      hextent ▸ hstop⟩
  · have hpiece : .importStatement other ∈ pieces :=
      mem_imports_assemble.mp (hcuts.assembled ▸ hother)
    have hat : ImportAt symbols other := hcuts.valid _ hpiece
    have hkeyword : other.keyword ≤ statement.keyword := by
      by_cases hsame : other = statement
      · exact hsame ▸ Nat.le_refl _
      · obtain ⟨hinside, -⟩ := hat.contains_of_annotations hannotations hcontains
        obtain ⟨hstart, -⟩ := Extent.contains_iff.mp hinside
        have hstop := hcuts.stop_le_keyword hmem hpiece (by simpa using hsame)
          (Nat.le_trans hstart (Nat.le_of_lt hlt))
        exact Nat.le_trans (Nat.le_of_lt hat.clause.keyword_lt_stop) hstop
    obtain rfl := hat.eq_of_annotations hannotations
    exact ⟨_, List.mem_append_right _ (List.mem_filterMap.mpr ⟨other, hother, hannotations⟩),
      hcontains, hkeyword⟩

end Cutting

end Outline

end UnusedImports
