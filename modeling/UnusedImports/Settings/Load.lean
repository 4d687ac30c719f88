import UnusedImports.Libraries

/-!
Gathering the settings of a run. From the lowest to the highest, the layers are the file of
the system, the file of the user, the file of the project in the working directory, the
environment, and the file named on the command line. The first file that cannot be read or
understood stops the run.
-/
namespace UnusedImports

inductive Layer where
  | system
  | user
  | project
  | commandLine
deriving DecidableEq

def Layer.name : Layer → String
  | .system => "system"
  | .user => "user"
  | .project => "project"
  | .commandLine => "CLI"

inductive FileCause where
  | unreadable (fault : DiskFault)
  | refused (message : String)
deriving DecidableEq

structure FileFault where
  path : Path
  cause : FileCause
deriving DecidableEq

def FileFault.messages (fault : FileFault) : List String :=
  match fault.cause with
  | .unreadable cause =>
    ["Failed to read config file: " ++ fault.path.display, cause.message]
  | .refused message => ["Failed to parse config file: " ++ fault.path.display, message]

structure SettingsFault where
  layer : Layer
  fault : FileFault
deriving DecidableEq

def SettingsFault.messages (fault : SettingsFault) : List String :=
  ("Failed to load " ++ fault.layer.name ++ " config") :: fault.fault.messages

namespace Settings

def fileName : FileName := ⟨Text.encode "groovy-imports.toml", by decide +kernel⟩

def directoryName : FileName := ⟨Text.encode "groovy-imports", by decide +kernel⟩

def fileIn (directory : Path) : Path := (directory.join directoryName).join fileName

def loadFile (libraries : Libraries) (disk : Disk) (path : Path) : Except FileFault Options :=
  match disk.read path with
  | .error fault => .error ⟨path, .unreadable fault⟩
  | .ok bytes =>
    match Text.decode bytes with
    | .error _ => .error ⟨path, .unreadable .notText⟩
    | .ok document =>
      match libraries.options document with
      | .error message => .error ⟨path, .refused message⟩
      | .ok options => .ok options

/-- The directories in which the file of the system is looked for: those listed in the
environment up to the first empty one, or else the usual one. -/
def systemDirectories (environment : Environment) : List Path :=
  let listed := (environment.get? "XDG_CONFIG_DIRS").getD ""
  let directories := if listed.isEmpty then "/etc/xdg" else listed
  ((Options.splitOn ':' directories.toList).takeWhile fun directory =>
    !directory.isEmpty).map fun directory => Path.ofText (String.ofList directory)

def lastSystemFile : Path := fileIn (Path.ofText "/etc")

def systemFile? (disk : Disk) (environment : Environment) : Option Path :=
  match ((systemDirectories environment).map fileIn).find? disk.isFile with
  | some path => some path
  | none => if disk.doesExist lastSystemFile then some lastSystemFile else none

def userFile? (libraries : Libraries) (disk : Disk) (environment : Environment) : Option Path :=
  ((libraries.configDirectory? environment).map fileIn).filter disk.isFile

def projectFile : Path := ⟨fileName.bytes⟩

def projectFile? (disk : Disk) : Option Path :=
  if disk.doesExist projectFile then some projectFile else none

def lowerFiles (libraries : Libraries) (disk : Disk) (environment : Environment) :
    List (Layer × Path) :=
  ((systemFile? disk environment).map (Layer.system, ·)).toList ++
    ((userFile? libraries disk environment).map (Layer.user, ·)).toList ++
    ((projectFile? disk).map (Layer.project, ·)).toList

def candidates (libraries : Libraries) (environment : Environment) (file? : Option Path) :
    List Path :=
  (systemDirectories environment).map fileIn ++ [lastSystemFile] ++
    ((libraries.configDirectory? environment).map fileIn).toList ++ [projectFile] ++ file?.toList

def layFiles (libraries : Libraries) (disk : Disk) (options : Options) :
    List (Layer × Path) → Except SettingsFault Options
  | [] => .ok options
  | file :: rest =>
    match loadFile libraries disk file.2 with
    | .error fault => .error ⟨file.1, fault⟩
    | .ok higher => layFiles libraries disk (higher.combine options) rest

def load (libraries : Libraries) (disk : Disk) (environment : Environment)
    (file? : Option Path) : Except SettingsFault Settings := do
  let lower ← layFiles libraries disk Options.unset (lowerFiles libraries disk environment)
  let options ← layFiles libraries disk ((Options.ofEnvironment environment).combine lower)
    (file?.map (Layer.commandLine, ·)).toList
  return ofOptions options

def systemWarning? (disk : Disk) (environment : Environment) : Option Log.Record :=
  if ((systemDirectories environment).map fileIn).any disk.isFile then none
  else
    match disk.find lastSystemFile with
    | .ok _ | .error .missing => none
    | .error fault =>
      some ⟨.warn, "groovy_imports::dirs",
        "Failed to query system configuration file: " ++ fault.message⟩

def announce (file : Layer × Path) : Log.Record :=
  ⟨.debug, "groovy_imports::config",
    "Loading " ++ file.1.name ++ " config from: " ++ file.2.display⟩

/-- What is told while files are read, up to the first that gives no options. -/
def journalFiles (libraries : Libraries) (disk : Disk) :
    List (Layer × Path) → List Log.Record × Bool
  | [] => ([], true)
  | file :: rest =>
    match loadFile libraries disk file.2 with
    | .error _ => ([announce file], false)
    | .ok _ => (journalFiles libraries disk rest).map (announce file :: ·) id

def journal (libraries : Libraries) (disk : Disk) (environment : Environment)
    (file? : Option Path) : List Log.Record :=
  let lower := journalFiles libraries disk (lowerFiles libraries disk environment)
  (systemWarning? disk environment).toList ++
    if lower.2 then
      lower.1 ++ Options.environmentWarnings environment ++
        (journalFiles libraries disk (file?.map (Layer.commandLine, ·)).toList).1
    else lower.1

end Settings

end UnusedImports
