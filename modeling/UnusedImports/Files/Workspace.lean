import UnusedImports.Files.Disk

/-!
A picture of some files that can stand in for a disk. Files are given with their bytes, and
directories and other entries by their places; whatever has something below it is a directory too.
Paths are followed name by name from the working directory, so everything before the last name has
to be a directory. Names and paths have a greatest length, and no path holds the null character.
Links are left out, and everything in the picture can be read and written.
-/
namespace UnusedImports

structure Workspace where
  files : List (Location × List UInt8)
  directories : List Location
  others : List Location
  workingDirectory : Location

namespace Workspace

def file? (workspace : Workspace) (location : Location) : Option (List UInt8) :=
  workspace.files.lookup location

def locations (workspace : Workspace) : List Location :=
  workspace.files.map Prod.fst ++ workspace.directories ++ workspace.others

def kindAt? (workspace : Workspace) (location : Location) : Option EntryKind :=
  if (workspace.file? location).isSome then some .file
  else if workspace.others.contains location then some .other
  else if location.isEmpty ∨ workspace.locations.any (location.isPrefixOf ·) then some .directory
  else none

def nameLimit : Nat := 255

def pathLimit : Nat := 4095

def follow (workspace : Workspace) (location : Location) :
    List (List UInt8) → Except DiskFault Entry
  | [] =>
    match workspace.kindAt? location with
    | some kind => .ok ⟨location, kind⟩
    | none => .error .missing
  | piece :: rest =>
    match workspace.kindAt? location with
    | none => .error .missing
    | some .directory =>
      if piece = [Path.dot, Path.dot] then workspace.follow location.dropLast rest
      else
        match FileName.ofBytes? piece with
        | none => workspace.follow location rest
        | some name =>
          if nameLimit < piece.length then .error .tooLong
          else workspace.follow (location ++ [name]) rest
    | some _ => .error .blocked

def find (workspace : Workspace) (path : Path) : Except DiskFault Entry :=
  if path.bytes.contains 0 then .error .illFormed
  else if pathLimit < path.bytes.length then .error .tooLong
  else if path.bytes.isEmpty then .error .missing
  else
    workspace.follow (if path.isAbsolute then [] else workspace.workingDirectory)
      (Path.pieces path.bytes)

def entries (workspace : Workspace) (location : Location) : List (FileName × EntryKind) :=
  let names := workspace.locations.filterMap fun place =>
    if location.isPrefixOf place then (place.drop location.length).head? else none
  names.eraseDups.filterMap fun name =>
    (workspace.kindAt? (location ++ [name])).map (name, ·)

def disk (workspace : Workspace) : Disk where
  find := workspace.find
  entries := workspace.entries
  bytes location := (workspace.file? location).getD []
  readFault? _ := none
  writeFault? _ := none

def depth (workspace : Workspace) : Nat :=
  workspace.locations.foldr (fun location depth => max location.length depth) 0

end Workspace

namespace Disk

def walkFrom (disk : Disk) (keep : WalkEntry → Bool) :
    Nat → WalkEntry → Location → List WalkEntry
  | 0, _, _ => []
  | levels + 1, entry, place =>
    if keep entry then
      entry :: if entry.kind = .directory then
        (disk.entries place).flatMap fun below =>
          disk.walkFrom keep levels (entry.inside below.1 below.2) (place ++ [below.1])
      else []
    else []

/-- The walk through a disk that has nothing below some number of names. -/
def walkTo (depth : Nat) : Walk := fun disk path keep =>
  match disk.find path with
  | .ok entry => disk.walkFrom keep (depth + 1) ⟨path, 0, entry.kind⟩ entry.location
  | .error _ => []

end Disk

end UnusedImports
