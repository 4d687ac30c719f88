import Mathlib.Data.List.Basic
import UnusedImports.Files.Path

/-!
The order of paths and the components of joined paths. Components are compared by form and then by
name, and paths component by component, which is a linear order on lists of components. So a list
that is strictly increasing in it is told by its members. A path that leads on from a directory has
the components of the directory and then the names on the way.
-/
namespace UnusedImports

theorem FileName.ofBytes?_bytes (name : FileName) : ofBytes? name.bytes = some name := by
  rw [ofBytes?, dif_pos name.isFileName]

namespace Component

instance : Std.TransCmp compare :=
  inferInstanceAs (Std.TransCmp (compareLex (compareOn rank) (compareOn bytes)))

theorem compare_eq_iff {a b : Component} : a.compare b = .eq ↔ a = b := by
  constructor
  · intro h
    obtain ⟨hrank, hbytes⟩ := Ordering.then_eq_eq.mp h
    rw [Std.LawfulEqOrd.compare_eq_iff_eq] at hrank hbytes
    cases a <;> cases b <;> simp_all [rank, bytes, FileName.ext_iff]
  · rintro rfl
    exact Std.ReflCmp.compare_self

instance : Std.LawfulEqCmp compare where
  eq_of_compare := compare_eq_iff.mp

end Component

namespace Path

theorem compareComponents_eq (first second : List Component) :
    compareComponents first second = List.compareLex Component.compare first second := by
  induction first generalizing second with
  | nil => cases second <;> rfl
  | cons a as ih =>
    cases second with
    | nil => rfl
    | cons b bs => rw [compareComponents, List.compareLex_cons_cons, ih]

theorem compareComponents_eq_iff {first second : List Component} :
    compareComponents first second = .eq ↔ first = second := by
  rw [compareComponents_eq]
  exact Std.LawfulEqCmp.compare_eq_iff_eq

theorem compareComponents_swap (first second : List Component) :
    compareComponents first second = (compareComponents second first).swap := by
  rw [compareComponents_eq, compareComponents_eq]
  exact Std.OrientedCmp.eq_swap

/-- Lists of components in strictly increasing order are told by their members. -/
theorem eq_of_increasing {first second : List (List Component)}
    (hfirst : first.Pairwise fun a b => compareComponents a b = .lt)
    (hsecond : second.Pairwise fun a b => compareComponents a b = .lt)
    (hmem : ∀ components, components ∈ first ↔ components ∈ second) : first = second := by
  have hne : ∀ {a b : List Component}, compareComponents a b = .lt → a ≠ b := by
    intro a b hlt heq
    rw [compareComponents_eq_iff.mpr heq] at hlt
    simp at hlt
  refine List.Perm.eq_of_pairwise ?_ hfirst hsecond
    ((List.perm_ext_iff_of_nodup (hfirst.imp hne) (hsecond.imp hne)).mpr hmem)
  intro a b _ _ hab hba
  rw [compareComponents_swap, hba] at hab
  simp at hab

theorem le_iff {a b : Path} :
    le a b = true ↔ (compareComponents a.components b.components).isLE = true := by
  unfold le
  cases compareComponents a.components b.components <;> decide

theorem le_trans (a b c : Path) (hab : le a b = true) (hbc : le b c = true) : le a c = true := by
  rw [le_iff, compareComponents_eq] at *
  exact Std.TransCmp.isLE_trans hab hbc

theorem le_total (a b : Path) : (le a b || le b a) = true := by
  unfold le
  rw [compareComponents_swap a.components]
  cases compareComponents b.components a.components <;> decide

section Spellings

theorem mem_of_mem_distinct {paths : List Path} {path : Path} (h : path ∈ distinct paths) :
    path ∈ paths := by
  induction paths with
  | nil => exact h
  | cons first rest ih =>
    rcases List.mem_cons.mp h with rfl | hrest
    · exact List.mem_cons_self
    · exact List.mem_cons_of_mem _ (ih (List.mem_filter.mp hrest).1)

/-- Of each path one spelling is left. -/
theorem exists_spelling {paths : List Path} {path : Path} (h : path ∈ paths) :
    ∃ other ∈ distinct paths, other.components = path.components := by
  induction paths with
  | nil => simp at h
  | cons first rest ih =>
    by_cases hsame : first.components = path.components
    · exact ⟨first, List.mem_cons_self, hsame⟩
    · have hrest : path ∈ rest := by
        rcases List.mem_cons.mp h with rfl | hrest
        · exact absurd rfl hsame
        · exact hrest
      obtain ⟨other, hother, heq⟩ := ih hrest
      refine ⟨other, List.mem_cons_of_mem _ (List.mem_filter.mpr ⟨hother, ?_⟩), heq⟩
      simpa [heq] using Ne.symm hsame

theorem pairwise_distinct (paths : List Path) :
    (distinct paths).Pairwise fun a b => a.components ≠ b.components := by
  induction paths with
  | nil => exact List.Pairwise.nil
  | cons first rest ih =>
    refine List.Pairwise.cons ?_ (ih.filter _)
    intro other hother
    have hne := (List.mem_filter.mp hother).2
    simpa using Ne.symm (bne_iff_ne.mp hne)

theorem nodup_distinct (paths : List Path) : (distinct paths).Nodup :=
  (pairwise_distinct paths).imp fun hne heq => hne (congrArg components heq)

/-- Sorted and without repetitions, paths are strictly increasing. -/
theorem increasing_mergeSort (paths : List Path) :
    ((distinct paths).mergeSort le).Pairwise fun a b =>
      compareComponents a.components b.components = .lt := by
  have hsorted := List.pairwise_mergeSort le_trans le_total (distinct paths)
  have hdistinct : ((distinct paths).mergeSort le).Pairwise fun a b =>
      a.components ≠ b.components :=
    (List.mergeSort_perm _ _).pairwise_iff (fun h => Ne.symm h) |>.mpr (pairwise_distinct paths)
  refine hsorted.imp₂ (fun a b hle hne => ?_) hdistinct
  have hnoteq := mt compareComponents_eq_iff.mp hne
  rw [le_iff] at hle
  cases hcase : compareComponents a.components b.components <;> simp_all

end Spellings

section Joining

theorem pieces_ne_nil (text : List UInt8) : pieces text ≠ [] := by
  cases text with
  | nil => simp [pieces]
  | cons byte rest =>
    unfold pieces
    split
    · simp
    · split <;> simp

theorem pieces_append (first second : List UInt8) :
    pieces (first ++ slash :: second) = pieces first ++ pieces second := by
  induction first with
  | nil => simp [pieces]
  | cons byte rest ih =>
    rw [List.cons_append, pieces, pieces]
    split
    · rw [ih, List.cons_append]
    · cases hrest : pieces rest with
      | nil => exact absurd hrest (pieces_ne_nil rest)
      | cons piece more => rw [ih, hrest, List.cons_append, List.cons_append]

theorem pieces_of_not_mem {name : List UInt8} (h : slash ∉ name) : pieces name = [name] := by
  induction name with
  | nil => rfl
  | cons byte rest ih =>
    rw [List.mem_cons, not_or] at h
    rw [pieces, if_neg (Ne.symm h.1), ih h.2]

theorem component?_bytes (name : FileName) : component? name.bytes = some (.normal name) := by
  obtain ⟨-, -, -, hparent⟩ := name.isFileName
  rw [component?, if_neg hparent, FileName.ofBytes?_bytes, Option.map_some]

theorem filterMap_pieces (name : FileName) :
    (pieces name.bytes).filterMap component? = [.normal name] := by
  rw [pieces_of_not_mem name.isFileName.2.1, List.filterMap_cons_some (component?_bytes name),
    List.filterMap_nil]

theorem leading_append {first : List (List UInt8)} (hne : first ≠ [])
    (second : List (List UInt8)) :
    leading (first ++ second) = leading first ++ second.filterMap component? := by
  obtain ⟨piece, more, rfl⟩ := List.exists_cons_of_ne_nil hne
  unfold leading
  rw [List.cons_append, List.head?_cons, List.head?_cons, List.tail_cons, List.tail_cons]
  split
  · rw [List.filterMap_append, List.cons_append]
  · rw [← List.cons_append, List.filterMap_append]

theorem components_append {first : List UInt8} (hne : first ≠ []) (second : List UInt8) :
    components ⟨first ++ slash :: second⟩ =
      components ⟨first⟩ ++ (pieces second).filterMap component? := by
  obtain ⟨byte, rest, rfl⟩ := List.exists_cons_of_ne_nil hne
  simp only [components, List.cons_append]
  split
  · rw [pieces_append, List.filterMap_append, List.cons_append]
  · rw [← List.cons_append, pieces_append, leading_append (pieces_ne_nil _)]

theorem components_bytes (name : FileName) : components ⟨name.bytes⟩ = [.normal name] := by
  obtain ⟨hne, hslash, hdot, -⟩ := name.isFileName
  obtain ⟨byte, rest, hbytes⟩ := List.exists_cons_of_ne_nil hne
  have hbyte : byte ≠ slash := fun heq => hslash (by simp [hbytes, heq])
  have hpieces := filterMap_pieces name
  rw [pieces_of_not_mem hslash] at hpieces
  simp only [components, hbytes]
  rw [if_neg hbyte, ← hbytes, pieces_of_not_mem hslash, leading, if_neg (by simpa using hdot),
    hpieces]

theorem components_join (path : Path) (name : FileName) :
    (path.join name).components = path.components ++ [.normal name] := by
  unfold join
  by_cases hempty : path.bytes = []
  · rw [if_pos (Or.inl (by simp [hempty])), hempty, List.nil_append, components_bytes, components,
      hempty]
    rfl
  by_cases hends : path.bytes.getLast? = some slash
  · obtain ⟨before, hbefore⟩ := List.getLast?_eq_some_iff.mp hends
    obtain rfl : path = ⟨before ++ [slash]⟩ := congrArg Path.mk hbefore
    rw [if_pos (Or.inr hends), List.append_assoc, List.singleton_append]
    cases before with
    | nil => simp [components, pieces, filterMap_pieces, component?, FileName.ofBytes?, IsFileName]
    | cons byte rest =>
      rw [components_append (List.cons_ne_nil byte rest), filterMap_pieces,
        components_append (List.cons_ne_nil byte rest)]
      simp [pieces, component?, FileName.ofBytes?, IsFileName]
  · rw [if_neg (by simp [hempty, hends]), components_append hempty, filterMap_pieces]

theorem fileName?_join (path : Path) (name : FileName) :
    (path.join name).fileName? = some name := by
  rw [fileName?, components_join, List.getLast?_concat]

def below (path : Path) (names : List FileName) : Path := names.foldl join path

theorem components_below (path : Path) (names : List FileName) :
    (path.below names).components = path.components ++ names.map .normal := by
  induction names generalizing path with
  | nil => exact (List.append_nil _).symm
  | cons name names ih =>
    calc (path.below (name :: names)).components
      _ = (path.join name).components ++ names.map .normal := ih _
      _ = path.components ++ (name :: names).map .normal := by
          rw [components_join, List.append_assoc, List.singleton_append, List.map_cons]

/-- The extension of a path below a directory is that of the last name. -/
theorem extension?_below (path : Path) {names : List FileName} (hnames : names ≠ []) :
    (path.below names).extension? = extensionOf? (names.getLast hnames).bytes := by
  have hlast : (path.below names).components.getLast? =
      some (.normal (names.getLast hnames)) := by
    rw [components_below, List.getLast?_append_of_ne_nil _ (by simpa using hnames),
      List.getLast?_map, List.getLast?_eq_some_getLast hnames, Option.map_some]
  rw [extension?, fileName?, hlast]
  rfl

end Joining

end Path

end UnusedImports
