import UnusedImports.Proofs.Outline.Pieces
import UnusedImports.Proofs.Outline.Symbol
import UnusedImports.Source

/-!
Which names of a source become references. The parts of the body that are searched leave out
nothing but the package clause, the imports, separators and the braces of type declarations, so
every identifier elsewhere is looked at. It becomes a reference unless a member access operator
stands before it, and what surrounds it in the token list decides its context.
-/
namespace UnusedImports

namespace Outline

/-- The parts of the items that tile a stretch hold every identifier in it. -/
theorem Tiled.exists_part {all : List Symbol} {start stop : Nat} {items : List Item}
    (h : Tiled all start stop items) {position : Nat} {name : String}
    (hstart : start ≤ position) (hstop : position < stop)
    (hname : all[position]? = some (.identifier name)) :
    ∃ part ∈ partsOf items, part.contains position = true := by
  induction h with
  | nil stop => omega
  | separator hsymbol hseparator hrest ih =>
    rename_i first stop items symbol
    -- The separator itself is no identifier.
    have hne : position ≠ first := by
      rintro rfl
      obtain rfl := Option.some.inj (hsymbol.symm.trans hname)
      simp [isSeparator, Symbol.isTrivia] at hseparator
    exact ih (by omega) hstop
  | statement hstatement hrest ih =>
    rename_i first next stop items
    rw [partsOf, Item.parts]
    by_cases hnext : position < next
    · exact ⟨⟨first, next⟩, by simp, Extent.contains_iff.mpr ⟨hstart, hnext⟩⟩
    · obtain ⟨part, hmem, hcontains⟩ := ih (by omega) hstop
      exact ⟨part, List.mem_append_right _ hmem, hcontains⟩
  | declaration hfirst hsolid hheader hbrace hmembers hclose hinside hrest ihmembers ihrest =>
    rename_i first brace close stop members items symbol
    have hnebrace : position ≠ brace := by
      rintro rfl
      exact absurd (hbrace.symm.trans hname) (by simp)
    have hneclose : position ≠ close := by
      rintro rfl
      exact absurd (hclose.symm.trans hname) (by simp)
    rw [partsOf, Item.parts]
    by_cases hinheader : position < brace
    · exact ⟨⟨first, brace⟩, by simp, Extent.contains_iff.mpr ⟨hstart, hinheader⟩⟩
    by_cases hinmembers : position < close
    · obtain ⟨part, hmem, hcontains⟩ := ihmembers (by omega) hinmembers
      exact ⟨part, List.mem_append_left _ (List.mem_cons_of_mem _ hmem), hcontains⟩
    · obtain ⟨part, hmem, hcontains⟩ := ihrest (by omega) hstop
      exact ⟨part, List.mem_append_right _ hmem, hcontains⟩

theorem Placed.exists_part {all : List Symbol} {item : Item} (h : Placed all item) {position : Nat}
    {name : String} (hcontains : item.tokens.contains position = true)
    (hname : all[position]? = some (.identifier name)) :
    ∃ part ∈ item.parts, part.contains position = true := by
  obtain ⟨hstart, hstop⟩ := Extent.contains_iff.mp hcontains
  obtain ⟨part, hmem, hpart⟩ := (h.cons (Tiled.nil _)).exists_part hstart hstop hname
  rw [partsOf, partsOf, List.append_nil] at hmem
  exact ⟨part, hmem, hpart⟩

theorem mem_partsOf {items : List Item} {part : Extent} :
    part ∈ partsOf items ↔ ∃ item ∈ items, part ∈ item.parts := by
  induction items with
  | nil => simp [partsOf]
  | cons item items ih => simp [partsOf, ih]

/-- Every identifier stands in the package clause, in an import or in a part of the body that is
searched. -/
theorem exists_part {symbols : List Symbol} {outline : Outline}
    (h : ofSymbols symbols = .ok outline) {position : Nat} {name : String}
    (hname : symbols[position]? = some (.identifier name)) :
    (∃ tokens, outline.package = some tokens ∧ tokens.contains position = true) ∨
      (∃ statement ∈ outline.imports, statement.tokens.contains position = true ∧
        ImportAt symbols statement) ∨
      ∃ part ∈ partsOf outline.body, part.contains position = true := by
  obtain ⟨pieces, hcuts⟩ := exists_cuts h
  obtain ⟨hlt, -⟩ := List.getElem?_eq_some_iff.mp hname
  obtain ⟨extent, hextent, hcontains⟩ :=
    hcuts.tiles.exists_contains (Nat.zero_le position) (by simpa using hlt)
  obtain ⟨piece, hmem, rfl⟩ := List.mem_map.mp hextent
  have hvalid : piece.Valid symbols := hcuts.valid piece hmem
  rw [hcuts.assembled]
  cases piece with
  | separator first =>
    obtain ⟨hfirst, hstop⟩ := Extent.contains_iff.mp hcontains
    obtain rfl : position = first := Nat.le_antisymm (Nat.le_of_lt_succ hstop) hfirst
    obtain ⟨symbol, hsymbol, hseparator⟩ := hvalid
    obtain rfl := Option.some.inj (hsymbol.symm.trans hname)
    simp [isSeparator, Symbol.isTrivia] at hseparator
  | importStatement statement =>
    exact Or.inr (Or.inl ⟨statement, mem_imports_assemble.mpr hmem, hcontains, hvalid⟩)
  | heading tokens =>
    refine Or.inr (Or.inr ⟨tokens, mem_partsOf.mpr ⟨.statement tokens, ?_, ?_⟩, hcontains⟩)
    · exact mem_body_assemble.mpr (Or.inr ⟨tokens, rfl, hmem⟩)
    · simp [Item.parts]
  | package tokens =>
    refine Or.inl ⟨tokens, ?_, hcontains⟩
    rw [← hcuts.assembled]
    exact (hcuts.package tokens hmem).2
  | bodyItem item =>
    obtain ⟨part, hpart, hinside⟩ := hvalid.2.exists_part hcontains hname
    refine Or.inr (Or.inr ⟨part, mem_partsOf.mpr ⟨item, ?_, hpart⟩, hinside⟩)
    exact mem_body_assemble.mpr (Or.inl hmem)

end Outline

namespace Reference

/-- Each site makes the use that its neighbours give it. -/
theorem getElem?_usesFrom (before : Option Symbol) (sites : List Site) (position : Nat) :
    (usesFrom before sites)[position]? = sites[position]?.map fun site =>
      useAt (Outline.lastSignificant before ((sites.take position).map Prod.fst)) site
        (sites.drop (position + 1)) := by
  induction sites generalizing before position with
  | nil => simp [usesFrom]
  | cons site rest ih =>
    cases position with
    | zero => simp [usesFrom, Outline.lastSignificant]
    | succ position =>
      simp only [usesFrom, List.getElem?_cons_succ, List.take_succ_cons, List.drop_succ_cons,
        List.map_cons, ih]
      rfl

theorem mem_within {references : List (Option Reference)} {extent : Extent}
    {reference : Reference} {position : Nat} (hcontains : extent.contains position = true)
    (hreference : references[position]? = some (some reference)) :
    reference ∈ within references extent := by
  exact List.mem_filterMap.mpr ⟨some reference, Extent.mem_slice hcontains hreference, rfl⟩

end Reference

end UnusedImports
