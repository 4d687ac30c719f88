import UnusedImports.CommandLine.Run
import UnusedImports.CommandLine.Standard

/-!
The program itself. It takes a picture of the files and variables that the run may look at,
lets the run work on the picture, and then writes what the run left behind. All decisions are
made by the run. Links below a directory are not part of the picture, and neither are names,
variables and arguments that are not text.
-/
namespace UnusedImports.Main

/-- Everything that can be read from a stream. -/
partial def readAll (stream : IO.FS.Stream) (sofar : ByteArray) : IO ByteArray := do
  let chunk ← stream.read 65536
  if chunk.isEmpty then return sofar else readAll stream (sofar ++ chunk)

def pathOf (location : Location) : String :=
  "/" ++ String.intercalate "/" (location.map fun name => Text.lossy name.bytes)

/-- What is at a place on disk, which may be asked about a link itself or about where it leads. -/
def kindOnDisk? (follow : Bool) (location : Location) : IO (Option EntryKind) := do
  let place := (← IO.currentDir) / pathOf location
  try
    match (← if follow then place.metadata else place.symlinkMetadata).type with
    | .file => return some .file
    | .dir => return some .directory
    | _ => return some .other
  catch _ => return none

/-- The directories on the way along a path, and the place at which the way ends. -/
def followOnDisk (location : Location) : List (List UInt8) → IO (List Location × Location)
  | [] => return ([], location)
  | piece :: rest => do
    if (← kindOnDisk? true location) == some .directory then
      let next := if piece = [Path.dot, Path.dot] then location.dropLast
        else location ++ (FileName.ofBytes? piece).toList
      let (passed, place) ← followOnDisk next rest
      return (location :: passed, place)
    else return ([], location)

/-- The picture with everything at a place and below it that is not hidden. -/
partial def loadPlace (follow : Bool) (workspace : Workspace) (location : Location) :
    IO Workspace := do
  match ← kindOnDisk? follow location with
  | none => return workspace
  | some .other => return { workspace with others := location :: workspace.others }
  | some .file =>
    if (workspace.file? location).isSome then return workspace
    try
      let bytes ← IO.FS.readBinFile (pathOf location)
      return { workspace with files := (location, bytes.toList) :: workspace.files }
    catch _ => return workspace
  | some .directory =>
    let mut picture := { workspace with directories := location :: workspace.directories }
    for entry in ← ((← IO.currentDir) / pathOf location).readDir do
      if let some name := FileName.ofBytes? (Text.encode entry.fileName) then
        if !Discovery.isHidden name.bytes then
          picture ← loadPlace false picture (location ++ [name])
    return picture

def loadPath (workspace : Workspace) (path : Path) : IO Workspace := do
  let (passed, place) ← followOnDisk
    (if path.isAbsolute then [] else workspace.workingDirectory) (Path.pieces path.bytes)
  loadPlace true { workspace with directories := passed ++ workspace.directories } place

def loadWorkspace (environment : Environment) (request : Request) : IO Workspace := do
  let here ← IO.currentDir
  let place := (Path.pieces (Text.encode here.toString)).filterMap FileName.ofBytes?
  let mut workspace : Workspace := ⟨[], [place], [], place⟩
  let candidates := Settings.candidates (Libraries.standard 0) environment request.config
  for path in candidates ++ request.paths do
    workspace ← loadPath workspace path
  return workspace

def consultedVariables : List String :=
  [Options.preserveVariable, Options.staticWildcardsVariable, Options.annotatedVariable,
   Options.extensionsVariable, "XDG_CONFIG_DIRS", "XDG_CONFIG_HOME", "HOME", "RUST_LOG"]

def loadEnvironment : IO Environment := do
  let mut bindings := []
  for name in consultedVariables do
    if let some value ← IO.getEnv name then
      bindings := (name, Text.encode value) :: bindings
  return ⟨bindings⟩

def writeChanges (before : Workspace) (after : Disk) : IO Unit := do
  for (location, bytes) in before.files do
    if after.bytes location != bytes then
      IO.FS.writeBinFile (pathOf location) ⟨(after.bytes location).toArray⟩

end UnusedImports.Main

open UnusedImports UnusedImports.Main in
def main (arguments : List String) : IO UInt32 := do
  let environment ← loadEnvironment
  let given := arguments.map Text.encode
  let (workspace, input) ← match (Libraries.standard 0).command given with
    | .run request => do
      let workspace ← loadWorkspace environment request
      let input ← if request.paths.isEmpty then readAll (← IO.getStdin) .empty
        else pure .empty
      pure (workspace, input.toList)
    | .exit _ _ _ => pure (⟨[], [], [], []⟩, [])
  let outcome := CommandLine.run (.standard workspace.depth) given environment workspace.disk input
  writeChanges workspace outcome.disk
  (← IO.getStdout).putStr outcome.stdout
  (← IO.getStderr).putStr outcome.stderr
  return UInt32.ofNat outcome.exitStatus
