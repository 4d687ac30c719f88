import UnusedImports.Files.Disk
import UnusedImports.Log
import UnusedImports.Settings.Options

/-!
Finding the files to work on. A path to a file stands for that file, whatever its name; a
path to a directory stands for the files below it that have a known extension and are reached
without entering anything hidden. The result has no repetitions and is in the order of paths.
-/
namespace UnusedImports

def Settings.matchesExtension (settings : Settings) (path : Path) : Bool :=
  path.extension?.any fun extension =>
    (Text.decode extension).toOption.any settings.extensions.contains

namespace Discovery

/-- Whether a name is hidden. A name that is not text never is. -/
def isHidden (name : List UInt8) : Bool :=
  (Text.decode name).toOption.any fun text => text.toList.head? == some '.'

/-- Whether a walk goes on from an entry. The directory that was asked for may be hidden. -/
def isEntered (entry : WalkEntry) : Bool := entry.depth == 0 || !isHidden entry.name

def filesBelow (walk : Walk) (disk : Disk) (settings : Settings) (path : Path) : List Path :=
  ((walk disk path isEntered).filter fun entry =>
    entry.kind == .file && settings.matchesExtension entry.path).map WalkEntry.path

/-- The files that a path stands for; none if it leads neither to a file nor to a directory. -/
def expand? (walk : Walk) (disk : Disk) (settings : Settings) (path : Path) :
    Option (List Path) :=
  match disk.kind? path with
  | some .file => some [path]
  | some .directory => some (filesBelow walk disk settings path)
  | _ => none

def expandAll (walk : Walk) (disk : Disk) (settings : Settings) :
    List Path → Except Path (List Path)
  | [] => .ok []
  | path :: rest =>
    match expand? walk disk settings path with
    | none => .error path
    | some files => (expandAll walk disk settings rest).map (files ++ ·)

def discover (walk : Walk) (disk : Disk) (settings : Settings) (paths : List Path) :
    Except Path (List Path) :=
  (expandAll walk disk settings paths).map fun files =>
    (Path.distinct files).mergeSort Path.le

def missingMessage (path : Path) : String := "No such file or directory: " ++ path.display

def journal (disk : Disk) : List Path → List Log.Record
  | [] => []
  | path :: rest =>
    match disk.kind? path with
    | some .file => journal disk rest
    | some .directory =>
      ⟨.debug, "groovy_imports::files", "Scanning directory: " ++ path.display⟩ ::
        journal disk rest
    | _ => []

end Discovery

end UnusedImports
