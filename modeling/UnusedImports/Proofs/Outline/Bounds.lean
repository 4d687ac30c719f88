import UnusedImports.Proofs.Outline.Division
import UnusedImports.Proofs.Reference

/-!
Positions in range. A fault in the structure of a source is found at one of its tokens, and the
stretches of tokens that an outline names are not empty and lie among the tokens: the clauses, the
annotations before them, the body items and the parts of these that are searched.
-/
namespace UnusedImports.Outline

def Among (length : Nat) (extent : Extent) : Prop :=
  extent.start < extent.stop ∧ extent.stop ≤ length

section Faults

variable {symbols rest : List Symbol} {fault : ParseFault}

theorem position_lt_of_bracketFaultFrom {pending : List (Bracket × Nat)} {position length : Nat}
    (h : bracketFaultFrom pending position symbols = some fault)
    (hpending : ∀ last ∈ pending, last.2 < length) (hlength : position + symbols.length ≤ length) :
    fault.position < length := by
  fun_induction bracketFaultFrom pending position symbols with
  | case1 pending position =>
    obtain ⟨last, hlast, rfl⟩ := Option.map_eq_some_iff.mp h
    exact hpending last (List.mem_of_head? hlast)
  | case2 pending position rest bracket ih =>
    rw [List.length_cons] at hlength
    exact ih h (List.forall_mem_cons.mpr ⟨by simp only; omega, hpending⟩) (by omega)
  | case3 position rest bracket =>
    obtain rfl := Option.some.inj h
    rw [List.length_cons] at hlength
    simp only
    omega
  | case4 position rest last pending ih =>
    rw [List.length_cons] at hlength
    exact ih h (List.forall_mem_cons.mp hpending).2 (by omega)
  | case5 position rest bracket last pending hne =>
    obtain rfl := Option.some.inj h
    rw [List.length_cons] at hlength
    simp only
    omega
  | case6 pending position symbol rest hopening hclosing ih =>
    rw [List.length_cons] at hlength
    exact ih h hpending (by omega)

/-- An import that cannot be read is wrong at some symbol. -/
theorem ne_nil_of_importClause {keyword : Symbol} {wrong : List Symbol}
    (h : importClause keyword rest = .error wrong) : wrong ≠ [] := by
  have hstar : ∀ {symbols wrong : List Symbol}, wildcardMark symbols = .error wrong →
      wrong ≠ [] := by
    intro symbols wrong h
    unfold wildcardMark at h
    split at h
    · split at h
      · simp at h
      · obtain rfl := Except.error.inj h
        exact List.cons_ne_nil _ _
    · simp at h
  have halias : ∀ {wildcard : Bool} {symbols wrong : List Symbol},
      aliasMark wildcard symbols = .error wrong → wrong ≠ [] := by
    intro wildcard symbols wrong h
    unfold aliasMark at h
    split at h
    · split at h
      · split at h
        · split at h
          · obtain rfl := Except.error.inj h
            exact List.cons_ne_nil _ _
          · simp at h
        · obtain rfl := Except.error.inj h
          exact List.cons_ne_nil _ _
      · simp at h
    · simp at h
  unfold importClause at h
  simp only at h
  split at h
  · obtain rfl := Except.error.inj h
    exact List.cons_ne_nil _ _
  split at h
  · rename_i hwrong
    exact Except.error.inj h ▸ hstar hwrong
  split at h
  · rename_i hwrong
    exact Except.error.inj h ▸ halias hwrong
  · simp at h

theorem eq_error_of_map {ε α β : Type} {f : α → β} {result : Except ε α} {failure : ε}
    (h : result.map f = .error failure) : result = .error failure := by
  cases result with
  | error found => exact congrArg Except.error (Except.error.inj h)
  | ok a => simp [Except.map] at h

theorem position_lt_of_topLevel {stop : Nat} {packageAllowed : Bool} {before : Option Symbol}
    (h : topLevel stop packageAllowed before symbols = .error fault) (hstop : 0 < stop) :
    fault.position < stop := by
  fun_induction topLevel stop packageAllowed before symbols with
  | case1 => simp at h
  | case2 =>
    rename_i hseparator ih
    exact ih h
  | case3 =>
    rename_i wrong hclause
    obtain rfl := Except.error.inj h
    have hpositive := List.length_pos_iff.mpr (ne_nil_of_importClause hclause)
    simp only
    omega
  | case4 =>
    rename_i ih
    exact ih (eq_error_of_map h)
  | case5 =>
    obtain rfl := Except.error.inj h
    simp only
    omega
  | case6 =>
    rename_i ih
    exact ih (eq_error_of_map h)
  | case7 =>
    rename_i ih
    exact ih (eq_error_of_map h)

/-- A fault is found at one of the symbols. -/
theorem position_lt_of_ofSymbols (h : ofSymbols symbols = .error fault) :
    fault.position < symbols.length := by
  unfold ofSymbols at h
  split at h
  · rename_i found hfound
    obtain rfl := Except.error.inj h
    exact position_lt_of_bracketFaultFrom hfound (by simp) (by omega)
  · cases symbols with
    | nil => simp [topLevel] at h
    | cons symbol rest => exact position_lt_of_topLevel h (Nat.succ_pos _)

end Faults

section Parts

theorem Tiled.bounds_parts {all : List Symbol} {start stop : Nat} {items : List Item}
    (h : Tiled all start stop items) :
    ∀ part ∈ partsOf items, part.start < part.stop ∧ part.stop ≤ stop := by
  induction h with
  | nil stop => simp [partsOf]
  | separator _ _ _ ih => exact ih
  | statement hstatement hrest ih =>
    have hforward := hstatement.start_lt_stop
    have hle := hrest.start_le_stop
    rw [partsOf, Item.parts]
    exact List.forall_mem_cons.mpr ⟨⟨hforward, hle⟩, ih⟩
  | declaration _ _ hheader _ hmembers _ _ hrest ihmembers ih =>
    have hbody := hmembers.start_le_stop
    have hle := hrest.start_le_stop
    rw [partsOf, Item.parts, List.cons_append]
    refine List.forall_mem_cons.mpr ⟨⟨hheader, by simp only; omega⟩, fun part hmem => ?_⟩
    rcases List.mem_append.mp hmem with hmem | hmem
    · have hbounds := ihmembers part hmem
      omega
    · exact ih part hmem

variable {symbols : List Symbol} {outline : Outline} {pieces : List Piece}

theorem Cuts.among_parts (hcuts : Cuts [] symbols true outline pieces) {part : Extent}
    (hpart : part ∈ partsOf outline.body) : Among symbols.length part := by
  have hbounds := hcuts.tiles.bounds.2
  simp only [List.length_nil, Nat.zero_add] at hbounds
  obtain ⟨item, hitem, hinside⟩ := mem_partsOf.mp hpart
  rw [hcuts.assembled] at hitem
  rcases mem_body_assemble.mp hitem with hmem | ⟨tokens, rfl, hmem⟩
  · have hparts := ((hcuts.valid _ hmem).2.cons (.nil _)).bounds_parts
    rw [partsOf, partsOf, List.append_nil] at hparts
    have hitem := (hbounds _ (List.mem_map_of_mem hmem)).2.2
    exact ⟨(hparts part hinside).1, Nat.le_trans (hparts part hinside).2 hitem⟩
  · obtain rfl : part = tokens := by simpa [Item.parts] using hinside
    exact ⟨(hcuts.valid _ hmem).1, (hbounds _ (List.mem_map_of_mem hmem)).2.2⟩

theorem Cuts.among_extents (hcuts : Cuts [] symbols true outline pieces) {extent : Extent}
    (hextent : extent ∈ outline.extents) : Among symbols.length extent := by
  obtain ⟨piece, hmem, -, rfl⟩ := hcuts.mem_extents.mp hextent
  have hbounds := (hcuts.tiles.bounds.2 _ (List.mem_map_of_mem hmem)).2.2
  rw [List.length_nil, Nat.zero_add] at hbounds
  exact ⟨(hcuts.valid piece hmem).start_lt_stop, hbounds⟩

theorem ImportAt.among_annotations {statement : ImportStatement} (h : ImportAt symbols statement)
    {extent : Extent} (hextent : statement.annotations = some extent) :
    Among symbols.length extent := by
  have hkeyword := h.clause.keyword_lt_stop
  have hstop := h.clause.stop_le
  have hannotations := h.annotations_eq
  rw [hextent] at hannotations
  split at hannotations
  · rename_i hforward
    obtain rfl := Option.some.inj hannotations
    exact ⟨hforward, by simp only; omega⟩
  · simp at hannotations

end Parts

end UnusedImports.Outline
