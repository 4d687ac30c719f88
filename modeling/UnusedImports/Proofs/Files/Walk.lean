import UnusedImports.Files.Discovery
import UnusedImports.Files.Workspace
import UnusedImports.Proofs.Files.PathOrder

/-!
Walks through directories. A walk that leaves out hidden entries comes to what can be reached below
the directory by names none of which is hidden. A picture of files has an end in every direction, so
the walk down to its depth comes to everything that a walk has to come to.
-/
namespace UnusedImports

inductive Disk.LeadsTo (disk : Disk) : Location → List FileName → EntryKind → Prop
  | entry {place : Location} {name : FileName} {kind : EntryKind}
      (hentry : (name, kind) ∈ disk.entries place) : LeadsTo disk place [name] kind
  | inside {place : Location} {name : FileName} {names : List FileName} {kind : EntryKind}
      (hentry : (name, .directory) ∈ disk.entries place)
      (hlater : LeadsTo disk (place ++ [name]) names kind) :
      LeadsTo disk place (name :: names) kind

theorem Disk.LeadsTo.exists_entry {disk : Disk} {place : Location} {names : List FileName}
    {kind : EntryKind} (h : disk.LeadsTo place names kind) :
    ∀ name ∈ names, ∃ place kind, (name, kind) ∈ disk.entries place := by
  induction h with
  | entry hentry => simpa using ⟨_, _, hentry⟩
  | inside hentry _ ih =>
    intro name hname
    rcases List.mem_cons.mp hname with rfl | hname
    · exact ⟨_, _, hentry⟩
    · exact ih name hname

section Entering

open Discovery

variable {disk : Disk} {entry found : WalkEntry} {place : Location} {names : List FileName}
  {kind : EntryKind}

theorem WalkEntry.name_inside (entry : WalkEntry) (name : FileName) (kind : EntryKind) :
    (entry.inside name kind).name = name.bytes := by
  rw [WalkEntry.name, inside, Path.fileName?_join]
  rfl

theorem isEntered_inside (entry : WalkEntry) (name : FileName) (kind : EntryKind) :
    isEntered (entry.inside name kind) = !isHidden name.bytes := by
  rw [isEntered, WalkEntry.name_inside]
  rfl

/-- What a walk comes to is the entry itself, or names lead on there that are not hidden. -/
theorem exists_of_visits (h : Visits disk isEntered entry place found) :
    found = entry ∨ entry.kind = .directory ∧ ∃ names kind, disk.LeadsTo place names kind ∧
      (∀ name ∈ names, isHidden name.bytes = false) ∧
      found = ⟨entry.path.below names, entry.depth + names.length, kind⟩ := by
  induction h with
  | here => exact Or.inl rfl
  | @inside entry found place name kind hkeep hdirectory hentry hlater ih =>
    have hname : isHidden name.bytes = false := by
      have hentered : isEntered (entry.inside name kind) = true := by
        cases hlater <;> assumption
      simpa [isEntered_inside] using hentered
    refine Or.inr ⟨hdirectory, ?_⟩
    rcases ih with rfl | ⟨hkind, names, last, hleads, hshown, rfl⟩
    · exact ⟨[name], kind, .entry hentry, by simpa using hname, rfl⟩
    · obtain rfl : kind = .directory := hkind
      refine ⟨name :: names, last, .inside hentry hleads, by simpa using ⟨hname, hshown⟩, ?_⟩
      rw [List.length_cons, Nat.add_comm names.length, ← Nat.add_assoc]
      rfl

theorem visits_of_leadsTo (hleads : disk.LeadsTo place names kind)
    (hentered : isEntered entry = true) (hdirectory : entry.kind = .directory)
    (hshown : ∀ name ∈ names, isHidden name.bytes = false) :
    Visits disk isEntered entry place
      ⟨entry.path.below names, entry.depth + names.length, kind⟩ := by
  induction hleads generalizing entry with
  | @entry place name kind hentry =>
    have hname := hshown name List.mem_cons_self
    exact .inside hentered hdirectory hentry (.here (by simp [isEntered_inside, hname]))
  | @inside place name names kind hentry _ ih =>
    have hname := hshown name List.mem_cons_self
    have hlater := @ih (entry.inside name .directory) (by simp [isEntered_inside, hname]) rfl
      fun other hother => hshown other (List.mem_cons_of_mem name hother)
    rw [List.length_cons, Nat.add_comm names.length, ← Nat.add_assoc]
    exact .inside hentered hdirectory hentry hlater

/-- The files that a walk through a directory finds are those to which names lead that are not
hidden. -/
theorem Walks.exists_file_iff {walk : Walk} (h : Walks walk disk) {path : Path}
    (hfind : disk.find path = .ok ⟨place, .directory⟩) (file : Path) :
    (∃ entry ∈ walk disk path isEntered, entry.kind = .file ∧ entry.path = file) ↔
      ∃ names, disk.LeadsTo place names .file ∧ (∀ name ∈ names, isHidden name.bytes = false) ∧
        file = path.below names := by
  constructor
  · rintro ⟨entry, hentry, hkind, rfl⟩
    rcases exists_of_visits ((h path place isEntered entry hfind).mp hentry) with
      rfl | ⟨-, names, kind, hleads, hshown, rfl⟩
    · simp at hkind
    · obtain rfl : kind = .file := hkind
      exact ⟨names, hleads, hshown, rfl⟩
  · rintro ⟨names, hleads, hshown, rfl⟩
    exact ⟨_, (h path place isEntered _ hfind).mpr (visits_of_leadsTo hleads rfl rfl hshown), rfl,
      rfl⟩

end Entering

section Depth

variable {disk : Disk} {keep : WalkEntry → Bool} {depth : Nat}

/-- Nothing is below more names than the depth, so no level is missing. -/
theorem Disk.mem_walkFrom_iff
    (hdepth : ∀ place : Location, depth ≤ place.length → disk.entries place = [])
    {levels : Nat} {entry found : WalkEntry} {place : Location} (hlevels : 0 < levels)
    (hplace : depth < levels + place.length) :
    found ∈ disk.walkFrom keep levels entry place ↔ Visits disk keep entry place found := by
  induction levels generalizing entry place with
  | zero => simp at hlevels
  | succ levels ih =>
    have hbelow : ∀ {name kind}, (name, kind) ∈ disk.entries place →
        (found ∈ disk.walkFrom keep levels (entry.inside name kind) (place ++ [name]) ↔
          Visits disk keep (entry.inside name kind) (place ++ [name]) found) := by
      intro name kind hentry
      have hshallow : place.length < depth := by
        by_contra hle
        simp [hdepth place (Nat.le_of_not_lt hle)] at hentry
      refine ih (by omega) ?_
      rw [List.length_append, List.length_singleton]
      omega
    rw [walkFrom]
    constructor
    · intro hmem
      split at hmem
      · rename_i hkeep
        rcases List.mem_cons.mp hmem with rfl | hmem
        · exact .here hkeep
        · split at hmem
          · rename_i hdirectory
            obtain ⟨⟨name, kind⟩, hentry, hfound⟩ := List.mem_flatMap.mp hmem
            exact .inside hkeep hdirectory hentry ((hbelow hentry).mp hfound)
          · simp at hmem
      · simp at hmem
    · intro hvisits
      cases hvisits with
      | here hkeep => simp [hkeep]
      | @inside _ _ _ name kind hkeep hdirectory hentry hlater =>
        rw [if_pos hkeep, if_pos hdirectory]
        refine List.mem_cons_of_mem _ (List.mem_flatMap.mpr ⟨(name, kind), hentry, ?_⟩)
        exact (hbelow hentry).mpr hlater

theorem Disk.walks_walkTo
    (hdepth : ∀ place : Location, depth ≤ place.length → disk.entries place = []) :
    Walks (walkTo depth) disk := by
  intro path place keep found hfind
  rw [walkTo, hfind]
  exact mem_walkFrom_iff hdepth (Nat.succ_pos depth) (by simp only; omega)

end Depth

namespace Workspace

theorem length_le_depth {workspace : Workspace} {place : Location}
    (h : place ∈ workspace.locations) : place.length ≤ workspace.depth := by
  unfold depth
  generalize workspace.locations = locations at h ⊢
  induction locations with
  | nil => simp at h
  | cons first rest ih =>
    rw [List.foldr_cons]
    rcases List.mem_cons.mp h with rfl | hrest
    · exact Nat.le_max_left _ _
    · exact Nat.le_trans (ih hrest) (Nat.le_max_right _ _)

theorem entries_eq_nil {workspace : Workspace} {place : Location}
    (h : workspace.depth ≤ place.length) : workspace.entries place = [] := by
  have hnone : (workspace.locations.filterMap fun other =>
      if place.isPrefixOf other then (other.drop place.length).head? else none) = [] := by
    rw [List.filterMap_eq_nil_iff]
    intro other hother
    have hlength := Nat.le_trans (length_le_depth hother) h
    split
    · rw [List.drop_of_length_le hlength, List.head?_nil]
    · rfl
  rw [entries, hnone]
  rfl

/-- The walk down to the depth of a picture comes to all of it. -/
theorem walks_walkTo (workspace : Workspace) :
    Walks (Disk.walkTo workspace.depth) workspace.disk :=
  Disk.walks_walkTo fun _ => entries_eq_nil

end Workspace

end UnusedImports
