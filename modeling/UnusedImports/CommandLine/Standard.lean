import UnusedImports.CommandLine.Arguments
import UnusedImports.Files.Workspace
import UnusedImports.Settings.Document
import UnusedImports.Text.ControlSequence
import UnusedImports.Text.Indent

/-!
What stands in for the libraries when the program runs. The log is plain text, so control sequences
in a message, as in the name of a file, do not reach it. Where a library's own wording is not
known, as for a document that is refused, a short one takes its place.
-/
namespace UnusedImports

namespace Log

namespace Level

def rank : Level → Nat
  | error => 1
  | warn => 2
  | info => 3
  | debug => 4
  | trace => 5

def label : Level → String
  | error => "ERROR"
  | warn => "WARN "
  | info => "INFO "
  | debug => "DEBUG"
  | trace => "TRACE"

def ofName? (name : String) : Option Level :=
  [error, warn, info, debug, trace].find? fun level => level.name == name

end Level

abbrev Threshold := Option Level

/-- The threshold that a level name in the environment sets. An empty one leaves errors, and
what names no level shows nothing. -/
def thresholdNamed (value : String) : Threshold :=
  let name := String.ofList ((Options.trimSpace value.toList).map Options.lowerAscii)
  if name.isEmpty then some .error else Level.ofName? name

def thresholdOf (environment : Environment) (level : Level) : Threshold :=
  match environment.get? "RUST_LOG" with
  | some value => thresholdNamed value
  | none => some level

namespace Record

def isShown (threshold : Threshold) (record : Record) : Bool :=
  threshold.any fun level => record.level.rank ≤ level.rank

def line (record : Record) : String :=
  "[" ++ record.level.label ++ " " ++ record.target ++ "] " ++
    Text.hangingIndent 4 record.message ++ "\n"

/-- The record as it is shown. Control sequences are looked for in the whole line, so that
one left open in the message takes the line end with it. -/
def render (record : Record) : String := Text.withoutControls record.line

end Record

def render (environment : Environment) (level : Level) (records : List Record) : String :=
  String.join ((records.filter (Record.isShown (thresholdOf environment level))).map
    Record.render)

end Log

def renderCauses : List String → String
  | [] => ""
  | [cause] => "\nCaused by:\n    " ++ Text.hangingIndent 4 cause ++ "\n"
  | causes =>
    "\nCaused by:\n" ++ String.join (causes.mapIdx fun number cause =>
      s!"    {number}: " ++ Text.hangingIndent 7 cause ++ "\n")

def renderError (messages : List String) : String :=
  match messages with
  | [] => ""
  | message :: causes => "Error: " ++ message ++ "\n" ++ renderCauses causes

namespace Environment

def homeDirectory? (environment : Environment) : Option Path :=
  ((environment.bytes? "HOME").filter fun home => !home.isEmpty).map fun home =>
    (Path.mk home).join ⟨Text.encode ".config", by decide +kernel⟩

/-- The directory of the user's configuration: the one set in the environment if it is an
absolute path, and otherwise the usual one. -/
def userDirectory? (environment : Environment) : Option Path :=
  match (environment.bytes? "XDG_CONFIG_HOME").map Path.mk with
  | some path => if path.isAbsolute then some path else environment.homeDirectory?
  | none => environment.homeDirectory?

end Environment

/-- The stand-ins, for a disk that has nothing below some number of names. -/
def Libraries.standard (depth : Nat) : Libraries where
  command := Arguments.read
  options document :=
    match Settings.optionsOf? document with
    | some options => .ok options
    | none => .error "TOML parse error"
  configDirectory? := Environment.userDirectory?
  walk := Disk.walkTo depth
  log := Log.render
  error := renderError

end UnusedImports
