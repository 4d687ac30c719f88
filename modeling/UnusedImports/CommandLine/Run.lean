import UnusedImports.Files.Discovery
import UnusedImports.Journal
import UnusedImports.Settings.Load

/-!
A run of the program, from its arguments to its exit status. With paths, every file found is
trimmed in place, or under `--check` only named if it would change; without paths, standard
input is trimmed to standard output. A file that is not text counts as failed and does not
keep the others from being worked on. Standard input is read whole, and what is written to standard
output arrives.
-/
namespace UnusedImports.CommandLine

structure Outcome where
  exitStatus : Nat
  stdout : String
  stderr : String
  disk : Disk

def levelOf (verbosity : Nat) : Log.Level :=
  match verbosity with
  | 0 => .warn
  | 1 => .info
  | 2 => .debug
  | _ => .trace

def record (level : Log.Level) (message : String) : Log.Record :=
  ⟨level, "groovy_imports", message⟩

def encodingMessages (fault : Text.Utf8Fault) : List String :=
  [Failure.message (.encoding fault), fault.message]

def report (name : String) (trimmed : Trimmed) : List Log.Record :=
  (trimmed.diagnostics.map fun diagnostic =>
    record .warn (name ++ ": left unchanged: " ++ diagnostic.message)) ++
  (trimmed.removed.map fun declaration =>
    record .info (name ++ ":" ++ declaration.span.position ++ ": unused " ++
      declaration.display))

structure Progress where
  disk : Disk
  /-- The paths named on standard output. -/
  listed : List Path
  changed : Nat
  failed : Nat
  records : List Log.Record

namespace Progress

def tell (progress : Progress) (records : List Log.Record) : Progress :=
  { progress with records := progress.records ++ records }

def fail (progress : Progress) (path : Path) (messages : List String) : Progress :=
  { progress.tell [record .error (path.display ++ ": " ++ String.intercalate ": " messages)] with
    failed := progress.failed + 1 }

/-- The work after a file whose text trimming changes to `code`. -/
def settle (check : Bool) (progress : Progress) (path : Path) (code : String) : Progress :=
  if check then
    { progress with changed := progress.changed + 1, listed := progress.listed ++ [path] }
  else
    match progress.disk.write path (Text.encode code) with
    | .error fault => progress.fail path ["Failed to write file", fault.message]
    | .ok disk => { progress with changed := progress.changed + 1, disk := disk }

def processFile (policy : Policy) (check : Bool) (progress : Progress) (path : Path) :
    Progress :=
  match progress.disk.read path with
  | .error fault => progress.fail path ["Failed to read file", fault.message]
  | .ok bytes =>
    match Text.decode bytes with
    | .error fault => progress.fail path ("Skipping file" :: encodingMessages fault)
    | .ok source =>
      let outcome := analyze policy source
      let trimmed := Trimmed.ofAnalysis source outcome
      let told := progress.tell (Journal.ofOutcome outcome ++ report path.display trimmed)
      if trimmed.hasChanges then told.settle check path trimmed.code else told

end Progress

def summary (check : Bool) (changed total : Nat) : String :=
  if check then s!"{changed} of {total} file(s) would change"
  else s!"Rewrote {changed} of {total} file(s)"

def processFiles (policy : Policy) (check : Bool) (disk : Disk) (files : List Path) : Progress :=
  files.foldl (Progress.processFile policy check) ⟨disk, [], 0, 0, []⟩

def failureMessage (failed : Nat) : String := s!"{failed} file(s) could not be processed"

def finishFiles (check : Bool) (progress : Progress) : Except (List String) Nat :=
  if 0 < progress.failed then .error [failureMessage progress.failed]
  else if check ∧ 0 < progress.changed then .ok 1
  else .ok 0

structure Closing where
  /-- The exit status, or the error that ends the run and its causes. -/
  result : Except (List String) Nat
  stdout : String
  records : List Log.Record
  disk : Disk

def listing (paths : List Path) : String :=
  String.join (paths.map fun path => path.display ++ "\n")

def runFiles (libraries : Libraries) (settings : Settings) (check : Bool) (disk : Disk)
    (paths : List Path) : Closing :=
  let told := Discovery.journal disk paths
  match Discovery.discover libraries.walk disk settings paths with
  | .error path => ⟨.error [Discovery.missingMessage path], "", told, disk⟩
  | .ok files =>
    let progress := processFiles settings.policy check disk files
    ⟨finishFiles check progress, listing progress.listed,
      told ++ [record .info s!"Processing {files.length} file(s)"] ++ progress.records ++
        [record .info (summary check progress.changed files.length)],
      progress.disk⟩

def runInput (settings : Settings) (check : Bool) (disk : Disk) (input : List UInt8) : Closing :=
  match Text.decode input with
  | .error fault =>
    ⟨.error ("Failed to process stdin" :: encodingMessages fault), "", [], disk⟩
  | .ok source =>
    let outcome := analyze settings.policy source
    let trimmed := Trimmed.ofAnalysis source outcome
    let told := Journal.ofOutcome outcome ++ report "<stdin>" trimmed
    if check then ⟨.ok (if trimmed.hasChanges then 1 else 0), "", told, disk⟩
    else ⟨.ok 0, trimmed.code, told, disk⟩

def runRequest (libraries : Libraries) (request : Request) (environment : Environment)
    (disk : Disk) (input : List UInt8) : Closing :=
  let opened := [record .debug (s!"Verbosity level: {request.verbosity} (log level: " ++
    (levelOf request.verbosity).name ++ ")")] ++
    Settings.journal libraries disk environment request.config
  match Settings.load libraries disk environment request.config with
  | .error fault => ⟨.error fault.messages, "", opened, disk⟩
  | .ok loaded =>
    let settings := loaded.preserving request.preserve
    let told := opened ++ [record .debug ("Configuration: " ++ settings.describe)]
    let closing :=
      if request.paths.isEmpty then runInput settings request.check disk input
      else runFiles libraries settings request.check disk request.paths
    { closing with records := told ++ closing.records }

def Closing.outcome (libraries : Libraries) (closing : Closing) (log : String) : Outcome :=
  match closing.result with
  | .error messages => ⟨1, closing.stdout, log ++ libraries.error messages, closing.disk⟩
  | .ok status => ⟨status, closing.stdout, log, closing.disk⟩

def run (libraries : Libraries) (arguments : List (List UInt8)) (environment : Environment)
    (disk : Disk) (input : List UInt8) : Outcome :=
  match libraries.command arguments with
  | .exit status stdout stderr => ⟨status, stdout, stderr, disk⟩
  | .run request =>
    let closing := runRequest libraries request environment disk input
    closing.outcome libraries
      (libraries.log environment (levelOf request.verbosity) closing.records)

end UnusedImports.CommandLine
