import Mathlib.Data.List.Find
import UnusedImports.Proofs.Files.Walk
import UnusedImports.Proofs.Text.Utf8

/-!
The files found for a run. Every given path has to lead to a file or a directory, and the first one
that does not is reported. The result is strictly increasing in the order of paths, and up to
spelling its members are what the paths stand for: the given files, and below a given directory the
files with a known extension that are reached without entering anything hidden. So the order and
the number of times in which paths are given do not matter. What is hidden starts with a dot, but a
name that starts with a dot and is not text is not hidden; and a path that leads to something else
than a file or a directory is reported as if it led nowhere.
-/
namespace UnusedImports

def Disk.isFileOrDirectory (disk : Disk) (path : Path) : Bool :=
  disk.kind? path == some .file || disk.kind? path == some .directory

theorem Disk.kind?_eq_some_iff {disk : Disk} {path : Path} {kind : EntryKind} :
    disk.kind? path = some kind ↔ ∃ place, disk.find path = .ok ⟨place, kind⟩ := by
  unfold kind?
  cases disk.find path with
  | error fault => simp [Except.toOption]
  | ok entry =>
    obtain ⟨place, found⟩ := entry
    simp [Except.toOption]

namespace Discovery

def IsText (name : FileName) : Prop := ∃ text, Text.decode name.bytes = .ok text

def StartsWithDot (name : FileName) : Prop := name.bytes.head? = some Path.dot

def IsHidden (name : FileName) : Prop := isHidden name.bytes = true

/-- No name on the disk starts with a dot without being text. -/
def DotsAreText (disk : Disk) : Prop :=
  ∀ place name kind, (name, kind) ∈ disk.entries place → StartsWithDot name → IsText name

/-- The files that some paths stand for: a path to a file for itself, and a path to a directory for
the files below it that have a known extension and no hidden name on the way. -/
inductive StandsFor (disk : Disk) (settings : Settings) (hidden : FileName → Prop)
    (paths : List Path) : Path → Prop
  | file {path : Path} (hpath : path ∈ paths) (hfile : disk.isFile path = true) :
      StandsFor disk settings hidden paths path
  | below {path : Path} {place : Location} {names : List FileName} (hpath : path ∈ paths)
      (hdirectory : disk.find path = .ok ⟨place, .directory⟩)
      (hleads : disk.LeadsTo place names .file) (hshown : ∀ name ∈ names, ¬ hidden name)
      (hextension : settings.matchesExtension (path.below names) = true) :
      StandsFor disk settings hidden paths (path.below names)

/-- Files in strictly increasing order, up to spelling exactly those that some paths stand for. -/
structure Found (disk : Disk) (settings : Settings) (hidden : FileName → Prop)
    (paths files : List Path) : Prop where
  increasing : files.Pairwise fun a b =>
    Path.compareComponents a.components b.components = .lt
  sound : ∀ file ∈ files, ∃ other, StandsFor disk settings hidden paths other ∧
    other.components = file.components
  complete : ∀ file, StandsFor disk settings hidden paths file →
    ∃ other ∈ files, other.components = file.components

/-- A name is hidden if it starts with a dot and is text. -/
theorem isHidden_iff {name : FileName} : IsHidden name ↔ IsText name ∧ StartsWithDot name := by
  unfold IsHidden IsText StartsWithDot isHidden
  cases hdecode : Text.decode name.bytes with
  | error fault => simp [Except.toOption]
  | ok text =>
    simp only [Except.toOption, Option.any_some, beq_iff_eq, Except.ok.injEq, exists_eq',
      true_and]
    constructor
    · intro hdot
      obtain ⟨rest, hrest⟩ := List.head?_eq_some_iff.mp hdot
      rw [Text.decode_eq_ok_iff.mp hdecode, ← String.ofList_toList (s := text), hrest,
        Text.encode_ofList]
      rfl
    · intro hdot
      obtain ⟨rest, hrest⟩ := List.head?_eq_some_iff.mp hdot
      rw [hrest, Text.decode,
        Text.decodeFrom_one 0 rest (by decide : Path.dot.toNat < 0x80)] at hdecode
      cases hlater : Text.decodeFrom (0 + 1) rest with
      | error fault => simp [hlater, Except.map] at hdecode
      | ok later =>
        simp only [hlater, Except.map, Except.ok.injEq] at hdecode
        rw [← hdecode, String.toList_ofList]
        rfl

section Expanding

variable {walk : Walk} {disk : Disk} {settings : Settings}

theorem isSome_expand? (walk : Walk) (disk : Disk) (settings : Settings) (path : Path) :
    (expand? walk disk settings path).isSome = disk.isFileOrDirectory path := by
  unfold expand? Disk.isFileOrDirectory
  rcases disk.kind? path with _ | _ | _ | _ <;> rfl

theorem mem_filesBelow_iff (hwalk : Walks walk disk) {path file : Path} {place : Location}
    (hfind : disk.find path = .ok ⟨place, .directory⟩) :
    file ∈ filesBelow walk disk settings path ↔
      ∃ names, disk.LeadsTo place names .file ∧ (∀ name ∈ names, ¬ IsHidden name) ∧
        settings.matchesExtension (path.below names) = true ∧ file = path.below names := by
  have hfile := hwalk.exists_file_iff hfind file
  unfold filesBelow
  rw [List.mem_map]
  constructor
  · rintro ⟨entry, hentry, rfl⟩
    obtain ⟨hmem, htest⟩ := List.mem_filter.mp hentry
    simp only [Bool.and_eq_true, beq_iff_eq] at htest
    obtain ⟨names, hleads, hshown, hpath⟩ := hfile.mp ⟨entry, hmem, htest.1, rfl⟩
    exact ⟨names, hleads, by simpa [IsHidden] using hshown, hpath ▸ htest.2, hpath⟩
  · rintro ⟨names, hleads, hshown, hextension, rfl⟩
    obtain ⟨entry, hentry, hkind, hpath⟩ :=
      hfile.mpr ⟨names, hleads, by simpa [IsHidden] using hshown, rfl⟩
    refine ⟨entry, List.mem_filter.mpr ⟨hentry, ?_⟩, hpath⟩
    simp [hkind, hpath, hextension]

theorem standsFor_iff (hwalk : Walks walk disk) {paths : List Path} {file : Path} :
    StandsFor disk settings IsHidden paths file ↔
      ∃ path ∈ paths, ∃ found, expand? walk disk settings path = some found ∧ file ∈ found := by
  constructor
  · intro h
    cases h with
    | file hpath hfile =>
      refine ⟨file, hpath, [file], ?_, List.mem_singleton_self file⟩
      rw [expand?, beq_iff_eq.mp hfile]
    | @below path place names hpath hdirectory hleads hshown hextension =>
      refine ⟨path, hpath, filesBelow walk disk settings path, ?_, ?_⟩
      · rw [expand?, Disk.kind?_eq_some_iff.mpr ⟨place, hdirectory⟩]
      · exact (mem_filesBelow_iff hwalk hdirectory).mpr ⟨names, hleads, hshown, hextension, rfl⟩
  · rintro ⟨path, hpath, found, hfound, hmem⟩
    unfold expand? at hfound
    split at hfound
    · rename_i hkind
      obtain rfl := Option.some.inj hfound
      obtain rfl := List.mem_singleton.mp hmem
      exact .file hpath (beq_iff_eq.mpr hkind)
    · rename_i hkind
      obtain rfl := Option.some.inj hfound
      obtain ⟨place, hfind⟩ := Disk.kind?_eq_some_iff.mp hkind
      obtain ⟨names, hleads, hshown, hextension, rfl⟩ := (mem_filesBelow_iff hwalk hfind).mp hmem
      exact .below hpath hfind hleads hshown hextension
    · simp at hfound

/-- The first path that leads neither to a file nor to a directory is reported. -/
theorem expandAll_eq_error_iff (walk : Walk) (settings : Settings) {paths : List Path}
    {path : Path} :
    expandAll walk disk settings paths = .error path ↔
      paths.find? (!disk.isFileOrDirectory ·) = some path := by
  induction paths with
  | nil => simp [expandAll]
  | cons first rest ih =>
    rw [expandAll, List.find?_cons, ← isSome_expand? walk disk settings]
    cases expand? walk disk settings first with
    | none => simp
    | some found =>
      simp only [Option.isSome_some, Bool.not_true]
      rw [← ih]
      cases expandAll walk disk settings rest <;> simp [Except.map]

/-- If there is no such path, the files that the paths stand for are gathered. -/
theorem exists_expandAll (hwalk : Walks walk disk) (settings : Settings) {paths : List Path}
    (h : ∀ path ∈ paths, disk.isFileOrDirectory path = true) :
    ∃ files, expandAll walk disk settings paths = .ok files ∧
      ∀ file, file ∈ files ↔ StandsFor disk settings IsHidden paths file := by
  simp only [standsFor_iff hwalk]
  induction paths with
  | nil => exact ⟨[], rfl, by simp⟩
  | cons path rest ih =>
    obtain ⟨files, hfiles, hmem⟩ := ih fun other hother => h other (List.mem_cons_of_mem _ hother)
    have hsome := h path List.mem_cons_self
    rw [← isSome_expand? walk disk settings] at hsome
    obtain ⟨found, hfound⟩ := Option.isSome_iff_exists.mp hsome
    refine ⟨found ++ files, by rw [expandAll, hfound, hfiles]; rfl, fun file => ?_⟩
    rw [List.mem_append, hmem]
    simp [hfound]

theorem exists_found (hwalk : Walks walk disk) (settings : Settings) {paths : List Path}
    (h : ∀ path ∈ paths, disk.isFileOrDirectory path = true) :
    ∃ files, discover walk disk settings paths = .ok files ∧
      Found disk settings IsHidden paths files := by
  obtain ⟨files, hfiles, hmem⟩ := exists_expandAll hwalk settings h
  refine ⟨(Path.distinct files).mergeSort Path.le, by rw [discover, hfiles]; rfl, ?_, ?_, ?_⟩
  · exact Path.increasing_mergeSort files
  · intro file hfile
    exact ⟨file, (hmem file).mp (Path.mem_of_mem_distinct (List.mem_mergeSort.mp hfile)), rfl⟩
  · intro file hfile
    obtain ⟨other, hother, heq⟩ := Path.exists_spelling ((hmem file).mpr hfile)
    exact ⟨other, List.mem_mergeSort.mpr hother, heq⟩

end Expanding

section Spellings

variable {disk : Disk} {settings : Settings} {paths files found : List Path}

theorem StandsFor.of_subset {hidden : FileName → Prop} {others : List Path} {file : Path}
    (hpaths : ∀ path, path ∈ paths → path ∈ others)
    (h : StandsFor disk settings hidden paths file) :
    StandsFor disk settings hidden others file := by
  cases h with
  | file hpath hfile => exact .file (hpaths _ hpath) hfile
  | below hpath hdirectory hleads hshown hextension =>
    exact .below (hpaths _ hpath) hdirectory hleads hshown hextension

/-- What is found is told by which paths are given, up to spelling. -/
theorem Found.components_eq {hidden : FileName → Prop} {others : List Path}
    (h : Found disk settings hidden paths files) (hother : Found disk settings hidden others found)
    (hsame : ∀ path, path ∈ others ↔ path ∈ paths) :
    found.map Path.components = files.map Path.components := by
  have hstands : ∀ file, StandsFor disk settings hidden others file ↔
      StandsFor disk settings hidden paths file := fun file =>
    ⟨.of_subset fun path => (hsame path).mp, .of_subset fun path => (hsame path).mpr⟩
  have hmem : ∀ {paths files}, Found disk settings hidden paths files → ∀ components,
      components ∈ files.map Path.components ↔
        ∃ file, StandsFor disk settings hidden paths file ∧ file.components = components := by
    intro paths files hfound components
    rw [List.mem_map]
    constructor
    · rintro ⟨file, hfile, rfl⟩
      exact hfound.sound file hfile
    · rintro ⟨file, hfile, rfl⟩
      exact hfound.complete file hfile
  refine Path.eq_of_increasing (List.pairwise_map.mpr hother.increasing)
    (List.pairwise_map.mpr h.increasing) fun components => ?_
  rw [hmem h, hmem hother]
  simp only [hstands]

theorem StandsFor.of_startsWithDot {file : Path}
    (h : StandsFor disk settings StartsWithDot paths file) :
    StandsFor disk settings IsHidden paths file := by
  cases h with
  | file hpath hfile => exact .file hpath hfile
  | below hpath hdirectory hleads hshown hextension =>
    exact .below hpath hdirectory hleads
      (fun name hname hhidden => hshown name hname (isHidden_iff.mp hhidden).2) hextension

theorem StandsFor.startsWithDot (h : DotsAreText disk) {file : Path}
    (hfile : StandsFor disk settings IsHidden paths file) :
    StandsFor disk settings StartsWithDot paths file := by
  cases hfile with
  | file hpath hfile => exact .file hpath hfile
  | below hpath hdirectory hleads hshown hextension =>
    refine .below hpath hdirectory hleads (fun name hname hdot => ?_) hextension
    obtain ⟨place, kind, hentry⟩ := hleads.exists_entry name hname
    exact hshown name hname (isHidden_iff.mpr ⟨h place name kind hentry hdot, hdot⟩)

/-- To leave out the names that start with a dot would be the same exactly if every file that is
found could be reached without them. -/
theorem Found.startsWithDot_iff (h : Found disk settings IsHidden paths files) :
    Found disk settings StartsWithDot paths files ↔
      ∀ file, StandsFor disk settings IsHidden paths file →
        ∃ other, StandsFor disk settings StartsWithDot paths other ∧
          other.components = file.components := by
  constructor
  · intro hdots file hfile
    obtain ⟨other, hother, heq⟩ := h.complete file hfile
    obtain ⟨shown, hshown, heq'⟩ := hdots.sound other hother
    exact ⟨shown, hshown, heq'.trans heq⟩
  · intro hreached
    refine ⟨h.increasing, fun file hfile => ?_, fun file hfile => ?_⟩
    · obtain ⟨other, hother, heq⟩ := h.sound file hfile
      obtain ⟨shown, hshown, heq'⟩ := hreached other hother
      exact ⟨shown, hshown, heq'.trans heq⟩
    · exact h.complete file hfile.of_startsWithDot

end Spellings

/-- Where all that is there is a file or a directory, the first path that is none of them leads
nowhere. -/
theorem find?_isFileOrDirectory {disk : Disk} {paths : List Path}
    (h : ∀ path ∈ paths, disk.kind? path ≠ some .other) :
    paths.find? (!disk.isFileOrDirectory ·) = paths.find? (!disk.doesExist ·) := by
  refine List.find?_congr fun path hpath => ?_
  have hother := h path hpath
  unfold Disk.isFileOrDirectory Disk.doesExist
  rcases hkind : disk.kind? path with _ | _ | _ | _ <;> simp_all

theorem discover_eq_error_iff (walk : Walk) (disk : Disk) (settings : Settings) (paths : List Path)
    (path : Path) :
    discover walk disk settings paths = .error path ↔
      paths.find? (!disk.isFileOrDirectory ·) = some path := by
  rw [← expandAll_eq_error_iff walk settings, discover]
  cases expandAll walk disk settings paths <;> simp [Except.map]

/-- Discovery fails exactly if some path leads neither to a file nor to a directory, with the first
such path, which is the first that leads nowhere if none leads to something else. Otherwise it gives
the files that the paths stand for, in strictly increasing order, and which these are does not
depend on the order of the paths or on how often they are given. On the way to a file no name is
hidden, that is, none both is text and starts with a dot; so none starts with a dot if all that do
are text. -/
theorem discover_found {walk : Walk} {disk : Disk} (hwalk : Walks walk disk) (settings : Settings)
    (paths : List Path) :
    ((∀ path, discover walk disk settings paths = .error path ↔
        paths.find? (!disk.isFileOrDirectory ·) = some path) ∧
      ((∀ path ∈ paths, disk.kind? path ≠ some .other) →
        ∀ path, discover walk disk settings paths = .error path ↔
          paths.find? (!disk.doesExist ·) = some path)) ∧
    ((∀ path ∈ paths, disk.isFileOrDirectory path = true) →
      ∃ files, discover walk disk settings paths = .ok files ∧
        Found disk settings IsHidden paths files ∧
        (Found disk settings StartsWithDot paths files ↔
          ∀ file, StandsFor disk settings IsHidden paths file →
            ∃ other, StandsFor disk settings StartsWithDot paths other ∧
              other.components = file.components) ∧
        (DotsAreText disk → Found disk settings StartsWithDot paths files) ∧
        ∀ others, (∀ path, path ∈ others ↔ path ∈ paths) →
          ∃ found, discover walk disk settings others = .ok found ∧
            found.map Path.components = files.map Path.components) ∧
    (∀ name, IsHidden name ↔ IsText name ∧ StartsWithDot name) ∧
    ∀ path names (hnames : names ≠ []),
      (Path.below path names).components = path.components ++ names.map Component.normal ∧
        (Path.below path names).extension? =
          Path.extensionOf? (names.getLast hnames).bytes := by
  have hfails := discover_eq_error_iff walk disk settings paths
  refine ⟨⟨hfails, ?_⟩, ?_, fun name => isHidden_iff, ?_⟩
  · intro hkinds path
    rw [hfails, find?_isFileOrDirectory hkinds]
  · intro hexist
    obtain ⟨files, hfiles, hfound⟩ := exists_found hwalk settings hexist
    refine ⟨files, hfiles, hfound, hfound.startsWithDot_iff, ?_, ?_⟩
    · intro hdots
      exact hfound.startsWithDot_iff.mpr fun file hfile => ⟨file, hfile.startsWithDot hdots, rfl⟩
    · intro others hsame
      obtain ⟨found, hothers, hfound'⟩ := exists_found hwalk settings
        fun path hpath => hexist path ((hsame path).mp hpath)
      exact ⟨found, hothers, hfound.components_eq hfound' hsame⟩
  · exact fun path names hnames =>
      ⟨Path.components_below path names, Path.extension?_below path hnames⟩

/-- A directory, a file in it that is spelt in another way, and one with an unknown extension. -/
theorem discover_found_overlapping :
    ∃ (workspace : Workspace) (files : List Path),
      workspace.locations.map (·.map FileName.bytes) =
        [["src", "a.groovy"], ["src", ".git", "b.groovy"], ["src", "notes.txt"]].map
          (·.map Text.encode) ∧
      Walks (Disk.walkTo workspace.depth) workspace.disk ∧
      (∀ path ∈ ["src", "src//a.groovy", "src/notes.txt"].map Path.ofText,
        workspace.disk.isFileOrDirectory path = true) ∧
      discover (Disk.walkTo workspace.depth) workspace.disk (.ofOptions .unset)
        (["src", "src//a.groovy", "src/notes.txt"].map Path.ofText) = .ok files ∧
      Found workspace.disk (.ofOptions .unset) IsHidden
        (["src", "src//a.groovy", "src/notes.txt"].map Path.ofText) files := by
  obtain ⟨workspace, hworkspace⟩ : ∃ workspace : Workspace, workspace =
      ⟨[([⟨Text.encode "src", by decide +kernel⟩, ⟨Text.encode "a.groovy", by decide +kernel⟩], []),
        ([⟨Text.encode "src", by decide +kernel⟩, ⟨Text.encode ".git", by decide +kernel⟩,
          ⟨Text.encode "b.groovy", by decide +kernel⟩], []),
        ([⟨Text.encode "src", by decide +kernel⟩, ⟨Text.encode "notes.txt", by decide +kernel⟩],
          [])], [], [], []⟩ := ⟨_, rfl⟩
  have hexist : ∀ path ∈ ["src", "src//a.groovy", "src/notes.txt"].map Path.ofText,
      workspace.disk.isFileOrDirectory path = true := by
    rw [hworkspace]
    decide +kernel
  obtain ⟨files, hfiles, hfound, -⟩ :=
    (discover_found workspace.walks_walkTo (.ofOptions .unset) _).2.1 hexist
  exact ⟨workspace, files, by rw [hworkspace]; rfl, workspace.walks_walkTo, hexist, hfiles, hfound⟩

/-- A file whose name starts with a dot is found because the name is not text, and a device is
reported although the path to it leads somewhere. -/
theorem exists_found_startsWithDot :
    (∃ (workspace : Workspace) (file : Path),
      workspace.locations.map (·.map FileName.bytes) =
        [[Text.encode "d", 0x2e :: 0xff :: Text.encode ".groovy"]] ∧
      file.bytes = Text.encode "d/" ++ 0x2e :: 0xff :: Text.encode ".groovy" ∧
      Walks (Disk.walkTo workspace.depth) workspace.disk ∧
      workspace.disk.isFileOrDirectory (.ofText "d") = true ∧
      discover (Disk.walkTo workspace.depth) workspace.disk (.ofOptions .unset) [.ofText "d"] =
        .ok [file] ∧
      ¬ Found workspace.disk (.ofOptions .unset) StartsWithDot [.ofText "d"] [file]) ∧
    ∃ workspace : Workspace,
      Walks (Disk.walkTo workspace.depth) workspace.disk ∧
      workspace.disk.doesExist (.ofText "/dev/null") = true ∧
      [.ofText "/dev/null", .ofText "missing"].find? (!workspace.disk.doesExist ·) =
        some (.ofText "missing") ∧
      discover (Disk.walkTo workspace.depth) workspace.disk (.ofOptions .unset)
        [.ofText "/dev/null", .ofText "missing"] = .error (.ofText "/dev/null") := by
  constructor
  · obtain ⟨directory, hdirectory⟩ : ∃ name : FileName,
      name = ⟨Text.encode "d", by decide +kernel⟩ := ⟨_, rfl⟩
    obtain ⟨stray, hstray⟩ : ∃ name : FileName,
      name = ⟨0x2e :: 0xff :: Text.encode ".groovy", by decide +kernel⟩ := ⟨_, rfl⟩
    obtain ⟨workspace, hworkspace⟩ : ∃ workspace : Workspace,
      workspace = ⟨[([directory, stray], [])], [], [], []⟩ := ⟨_, rfl⟩
    obtain ⟨hlocations, hfind, hentries, hfiles⟩ :
        workspace.locations.map (·.map FileName.bytes) =
          [[Text.encode "d", 0x2e :: 0xff :: Text.encode ".groovy"]] ∧
        (workspace.disk.find (.ofText "d")).toOption = some ⟨[directory], .directory⟩ ∧
        workspace.disk.entries [directory] = [(stray, .file)] ∧
        (expandAll (Disk.walkTo workspace.depth) workspace.disk (.ofOptions .unset)
          [.ofText "d"]).toOption =
            some [⟨Text.encode "d/" ++ 0x2e :: 0xff :: Text.encode ".groovy"⟩] := by
      rw [hworkspace, hdirectory, hstray]
      decide +kernel
    have hfind := Text.toOption_eq_some_iff.mp hfind
    have hfiles := Text.toOption_eq_some_iff.mp hfiles
    have hnone : ∀ file, ¬ StandsFor workspace.disk (.ofOptions .unset) StartsWithDot
        [.ofText "d"] file := by
      rintro file (⟨hpath, hfile⟩ | ⟨hpath, hdirectory', hleads, hshown, -⟩)
      · rw [List.mem_singleton.mp hpath, Disk.isFile,
          Disk.kind?_eq_some_iff.mpr ⟨_, hfind⟩] at hfile
        simp at hfile
      · rw [List.mem_singleton.mp hpath, hfind] at hdirectory'
        obtain rfl := (Entry.mk.inj (Except.ok.inj hdirectory')).1
        cases hleads with
        | entry hentry =>
          rw [hentries] at hentry
          obtain ⟨rfl, -⟩ := Prod.mk.inj (List.mem_singleton.mp hentry)
          exact hshown _ List.mem_cons_self (by rw [StartsWithDot, hstray]; rfl)
        | inside hentry =>
          rw [hentries] at hentry
          simp at hentry
    refine ⟨workspace, _, hlocations, rfl, workspace.walks_walkTo, ?_, ?_, fun hfound => ?_⟩
    · rw [Disk.isFileOrDirectory, Disk.kind?_eq_some_iff.mpr ⟨_, hfind⟩]
      rfl
    · rw [discover, hfiles]
      simp [Except.map, Path.distinct]
    · obtain ⟨other, hother, -⟩ := hfound.sound _ (List.mem_singleton_self _)
      exact hnone other hother
  · refine ⟨⟨[], [], [[⟨Text.encode "dev", by decide +kernel⟩,
      ⟨Text.encode "null", by decide +kernel⟩]], []⟩, Workspace.walks_walkTo _, by decide +kernel,
      by decide +kernel, (discover_eq_error_iff _ _ _ _ _).mpr ?_⟩
    decide +kernel

end Discovery

end UnusedImports
