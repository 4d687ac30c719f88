import UnusedImports.Files.Path

/-!
What the operating system offers of its files. A path leads to an entry, through whatever links
there are; a place stands for the entry itself, so several paths may lead to one place. The bytes
at a place are all that a run can change. Everything is the same however often it is asked for, so
what other programs do to the files meanwhile is left out, and so is a write that fails halfway.
-/
namespace UnusedImports

/-- The names from the root down to an entry. Of an entry with several names, it is one of them. -/
abbrev Location := List FileName

/-- What an entry is; devices, pipes and links that are not followed are neither file nor
directory. -/
inductive EntryKind where
  | file
  | directory
  | other
deriving DecidableEq

structure Entry where
  location : Location
  kind : EntryKind
deriving DecidableEq

inductive DiskFault where
  | missing
  | blocked
  | tooLong
  | illFormed
  | isDirectory
  | notText
  /-- What else the operating system may object. -/
  | refused (message : String)
deriving DecidableEq

def DiskFault.message : DiskFault → String
  | .missing => "No such file or directory (os error 2)"
  | .blocked => "Not a directory (os error 20)"
  | .tooLong => "File name too long (os error 36)"
  | .illFormed => "file name contained an unexpected NUL byte"
  | .isDirectory => "Is a directory (os error 21)"
  | .notText => "stream did not contain valid UTF-8"
  | .refused message => message

structure Disk where
  find : Path → Except DiskFault Entry
  /-- The entries of a directory, without following links. -/
  entries : Location → List (FileName × EntryKind)
  bytes : Location → List UInt8
  readFault? : Location → Option DiskFault
  writeFault? : Location → Option DiskFault

namespace Disk

def kind? (disk : Disk) (path : Path) : Option EntryKind := (disk.find path).toOption.map Entry.kind

def isFile (disk : Disk) (path : Path) : Bool := disk.kind? path == some .file

def doesExist (disk : Disk) (path : Path) : Bool := (disk.kind? path).isSome

def read (disk : Disk) (path : Path) : Except DiskFault (List UInt8) :=
  match disk.find path with
  | .error fault => .error fault
  | .ok entry =>
    if entry.kind = .directory then .error .isDirectory
    else
      match disk.readFault? entry.location with
      | some fault => .error fault
      | none => .ok (disk.bytes entry.location)

def writeAt (disk : Disk) (location : Location) (bytes : List UInt8) : Disk :=
  { disk with bytes := fun place => if place = location then bytes else disk.bytes place }

def write (disk : Disk) (path : Path) (bytes : List UInt8) : Except DiskFault Disk :=
  match disk.find path with
  | .error fault => .error fault
  | .ok entry =>
    if entry.kind = .directory then .error .isDirectory
    else
      match disk.writeFault? entry.location with
      | some fault => .error fault
      | none => .ok (disk.writeAt entry.location bytes)

end Disk

structure WalkEntry where
  path : Path
  depth : Nat
  kind : EntryKind
deriving DecidableEq

/-- The name of the entry, or the path itself if it ends in no name. -/
def WalkEntry.name (entry : WalkEntry) : List UInt8 :=
  (entry.path.fileName?.map FileName.bytes).getD entry.path.bytes

abbrev Walk := Disk → Path → (WalkEntry → Bool) → List WalkEntry

def WalkEntry.inside (entry : WalkEntry) (name : FileName) (kind : EntryKind) : WalkEntry :=
  ⟨entry.path.join name, entry.depth + 1, kind⟩

/-- A walk from the entry at a place comes to another: no entry on the way is left out, nor is the
other one itself. -/
inductive Visits (disk : Disk) (keep : WalkEntry → Bool) :
    WalkEntry → Location → WalkEntry → Prop
  | here {entry : WalkEntry} {place : Location} (hkeep : keep entry = true) :
      Visits disk keep entry place entry
  | inside {entry found : WalkEntry} {place : Location} {name : FileName} {kind : EntryKind}
      (hkeep : keep entry = true) (hdirectory : entry.kind = .directory)
      (hentry : (name, kind) ∈ disk.entries place)
      (hlater : Visits disk keep (entry.inside name kind) (place ++ [name]) found) :
      Visits disk keep entry place found

/-- A walk through a directory of the disk gives the entries that it has to come to. -/
def Walks (walk : Walk) (disk : Disk) : Prop :=
  ∀ path place keep found, disk.find path = .ok ⟨place, .directory⟩ →
    (found ∈ walk disk path keep ↔ Visits disk keep ⟨path, 0, .directory⟩ place found)

end UnusedImports
