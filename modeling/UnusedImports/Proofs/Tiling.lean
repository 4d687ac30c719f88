import UnusedImports.Text.Extent

/-!
Extents that tile a stretch: each starts where the one before it stops. Tokens tile the bytes of
a text, lines do so too, and the pieces of an outline tile its tokens, so what follows from
tiling alone is said here once.
-/
namespace UnusedImports.Extent

def Tiles : Nat → Nat → List Extent → Prop
  | start, stop, [] => start = stop
  | start, stop, extent :: rest =>
    extent.start = start ∧ extent.start ≤ extent.stop ∧ Tiles extent.stop stop rest

theorem contains_iff {extent : Extent} {position : Nat} :
    extent.contains position = true ↔ extent.start ≤ position ∧ position < extent.stop := by
  simp [contains]

theorem contains_eq_false_iff {extent : Extent} {position : Nat} :
    extent.contains position = false ↔ position < extent.start ∨ extent.stop ≤ position := by
  rw [← Bool.not_eq_true, contains_iff]
  omega

theorem mem_slice {α : Type} {extent : Extent} {list : List α} {position : Nat} {a : α}
    (hcontains : extent.contains position = true) (ha : list[position]? = some a) :
    a ∈ extent.slice list := by
  obtain ⟨hstart, hstop⟩ := contains_iff.mp hcontains
  obtain ⟨offset, rfl⟩ := Nat.exists_eq_add_of_le hstart
  refine List.mem_iff_getElem?.mpr ⟨offset, ?_⟩
  rw [slice, List.getElem?_take_of_lt (by omega), List.getElem?_drop]
  exact ha

theorem exists_of_mem_slice {α : Type} {extent : Extent} {list : List α} {a : α}
    (h : a ∈ extent.slice list) :
    ∃ position, extent.contains position = true ∧ list[position]? = some a := by
  obtain ⟨offset, hoffset⟩ := List.mem_iff_getElem?.mp h
  rw [slice, List.getElem?_take, List.getElem?_drop] at hoffset
  split at hoffset
  · exact ⟨extent.start + offset, contains_iff.mpr (by omega), hoffset⟩
  · simp at hoffset

theorem Tiles.bounds {start stop : Nat} {extents : List Extent} (h : Tiles start stop extents) :
    start ≤ stop ∧ ∀ extent ∈ extents,
      start ≤ extent.start ∧ extent.start ≤ extent.stop ∧ extent.stop ≤ stop := by
  induction extents generalizing start with
  | nil =>
    have hsame : start = stop := h
    exact ⟨by omega, by simp⟩
  | cons first rest ih =>
    obtain ⟨hstart, hforward, hrest⟩ := h
    obtain ⟨hle, hbounds⟩ := ih hrest
    refine ⟨by omega, ?_⟩
    intro extent hmem
    rcases List.mem_cons.mp hmem with rfl | hmem
    · omega
    · have := hbounds extent hmem
      omega

/-- Every position of the stretch lies in one of the extents. -/
theorem Tiles.exists_contains {start stop : Nat} {extents : List Extent}
    (h : Tiles start stop extents) {position : Nat} (hstart : start ≤ position)
    (hstop : position < stop) : ∃ extent ∈ extents, extent.contains position = true := by
  induction extents generalizing start with
  | nil =>
    have hsame : start = stop := h
    omega
  | cons first rest ih =>
    obtain ⟨hfirst, -, hrest⟩ := h
    by_cases hposition : position < first.stop
    · exact ⟨first, List.mem_cons_self, contains_iff.mpr ⟨by omega, hposition⟩⟩
    · obtain ⟨extent, hmem, hcontains⟩ := ih hrest (by omega)
      exact ⟨extent, List.mem_cons_of_mem first hmem, hcontains⟩

theorem Tiles.pairwise {start stop : Nat} {extents : List Extent} (h : Tiles start stop extents) :
    extents.Pairwise fun first second => first.stop ≤ second.start := by
  induction extents generalizing start with
  | nil => exact List.Pairwise.nil
  | cons first rest ih =>
    obtain ⟨-, -, hrest⟩ := h
    refine List.Pairwise.cons ?_ (ih hrest)
    intro second hmem
    exact (hrest.bounds.2 second hmem).1

/-- A position lies in one of the extents only. -/
theorem Tiles.eq_of_contains {α : Type} {extentOf : α → Extent} {start stop : Nat} {list : List α}
    (h : Tiles start stop (list.map extentOf)) {a b : α} (ha : a ∈ list) (hb : b ∈ list)
    {position : Nat} (hcontains : (extentOf a).contains position = true)
    (hother : (extentOf b).contains position = true) : a = b := by
  have hpairs := h.pairwise
  rw [List.pairwise_map] at hpairs
  obtain ⟨hstart, hstop⟩ := contains_iff.mp hcontains
  obtain ⟨hstart', hstop'⟩ := contains_iff.mp hother
  obtain ⟨first, hfirst, rfl⟩ := List.mem_iff_getElem.mp ha
  obtain ⟨second, hsecond, rfl⟩ := List.mem_iff_getElem.mp hb
  rcases Nat.lt_trichotomy first second with hlt | heq | hgt
  · have hapart := List.pairwise_iff_getElem.mp hpairs first second hfirst hsecond hlt
    omega
  · subst heq
    rfl
  · have hapart := List.pairwise_iff_getElem.mp hpairs second first hsecond hfirst hgt
    omega

/-- Before an extent that does not open the stretch stands one that stops where it starts. -/
theorem Tiles.exists_before {α : Type} {extentOf : α → Extent} {start stop : Nat} {list : List α}
    (h : Tiles start stop (list.map extentOf)) {b : α} (hb : b ∈ list)
    (hforward : (extentOf b).start < (extentOf b).stop) (hstart : start < (extentOf b).start) :
    ∃ a ∈ list, (extentOf a).start < (extentOf a).stop ∧
      (extentOf a).stop = (extentOf b).start := by
  have hbounds := h.bounds.2 _ (List.mem_map_of_mem hb)
  obtain ⟨extent, hextent, hcontains⟩ := h.exists_contains
    (show start ≤ (extentOf b).start - 1 by omega) (by omega)
  obtain ⟨a, ha, rfl⟩ := List.mem_map.mp hextent
  obtain ⟨hlow, hhigh⟩ := contains_iff.mp hcontains
  refine ⟨a, ha, by omega, ?_⟩
  by_cases hle : (extentOf a).stop ≤ (extentOf b).start
  · omega
  · -- An extent that reaches past the start would be the extent that starts there.
    have hsame := h.eq_of_contains ha hb (contains_iff.mpr ⟨by omega, by omega⟩)
      (contains_iff.mpr ⟨Nat.le_refl _, hforward⟩)
    subst hsame
    omega

theorem Tiles.start_eq {start stop : Nat} {extents : List Extent} (h : Tiles start stop extents)
    {extent : Extent} (hfirst : extents[0]? = some extent) : extent.start = start := by
  cases extents with
  | nil => simp at hfirst
  | cons first rest =>
    obtain rfl := Option.some.inj hfirst
    exact h.1

theorem Tiles.stop_eq {start stop : Nat} {extents : List Extent} (h : Tiles start stop extents)
    {extent : Extent} (hlast : extents.getLast? = some extent) : extent.stop = stop := by
  induction extents generalizing start with
  | nil => simp at hlast
  | cons first rest ih =>
    cases rest with
    | nil =>
      obtain rfl := Option.some.inj hlast
      exact h.2.2
    | cons second rest => exact ih h.2.2 (by simpa using hlast)

theorem Tiles.adjacent {start stop number : Nat} {extents : List Extent}
    (h : Tiles start stop extents) {first second : Extent} (hfirst : extents[number]? = some first)
    (hsecond : extents[number + 1]? = some second) : first.stop = second.start := by
  induction number generalizing start extents with
  | zero =>
    cases extents with
    | nil => simp at hfirst
    | cons extent rest =>
      obtain rfl := Option.some.inj hfirst
      exact (h.2.2.start_eq (by simpa using hsecond)).symm
  | succ number ih =>
    cases extents with
    | nil => simp at hfirst
    | cons extent rest => exact ih h.2.2 (by simpa using hfirst) (by simpa using hsecond)

end UnusedImports.Extent
