import UnusedImports.Libraries

/-!
A reading of the arguments of the command line. They are read from left to right: options may stand
anywhere before a lone `--`, and everything else is a path. Help and version are answered as
soon as they are met; what cannot be read is a usage error.
-/
namespace UnusedImports

namespace Command

def version : Command := .exit 0 "groovy-imports 0.1.0\n" ""

def help : Command :=
  .exit 0
    ("Removes unused import declarations from Groovy sources as a formatter step\n\n" ++
      "Usage: groovy-imports [OPTIONS] [PATHS]...\n\n" ++
      "Arguments:\n" ++
      "  [PATHS]...  Groovy files or directories to process (reads stdin when omitted)\n\n" ++
      "Options:\n" ++
      "      --check            Report files that would change instead of rewriting them\n" ++
      "      --preserve <PATH>  Import path, or `prefix.*` pattern, to keep even when unused\n" ++
      "  -v, --verbose...       Increase verbosity (can be repeated: -v, -vv, -vvv)\n" ++
      "  -c, --config <CONFIG>  Configuration file path\n" ++
      "  -h, --help             Print help\n" ++
      "  -V, --version          Print version\n")
    ""

def usageError : Command :=
  .exit 2 "" ("error: invalid arguments\n\nUsage: groovy-imports [OPTIONS] [PATHS]...\n\n" ++
    "For more information, try '--help'.\n")

end Command

namespace Arguments

def hyphen : UInt8 := '-'.toUInt8

def equals : UInt8 := '='.toUInt8

inductive Valued where
  | preserve
  | config
deriving DecidableEq

def moreVerbose (request : Request) : Request :=
  { request with verbosity := min (request.verbosity + 1) 255 }

/-- Gives an option its value. What to preserve has to be text. A configuration file is named once,
and not by an empty path. -/
def setValue (request : Request) (option : Valued) (value : List UInt8) : Option Request :=
  match option with
  | .preserve =>
    match Text.decode value with
    | .ok text => some { request with preserve := request.preserve ++ [text] }
    | .error _ => none
  | .config =>
    if request.config.isSome ∨ value.isEmpty then none
    else some { request with config := some ⟨value⟩ }

def addPath (request : Request) (argument : List UInt8) : Option Request :=
  if argument.isEmpty then none
  else some { request with paths := request.paths ++ [⟨argument⟩] }

def isOption (argument : List UInt8) : Bool :=
  argument.head? == some hyphen && !argument.tail.isEmpty

inductive Reading where
  | done (request : Request)
  /-- The option takes the next argument as its value. -/
  | waiting (request : Request) (option : Valued)
  | settled (command : Command)

/-- Reads the letters of a short option. The letter of an option with a value takes the rest
as its value, with or without an equals sign between. -/
def readLetters (request : Request) : List UInt8 → Reading
  | [] => .done request
  | letter :: rest =>
    if letter = 'v'.toUInt8 then readLetters (moreVerbose request) rest
    else if letter = 'V'.toUInt8 then .settled .version
    else if letter = 'h'.toUInt8 then .settled .help
    else if letter = 'c'.toUInt8 then
      match rest with
      | [] => .waiting request .config
      | next :: more =>
        let value := if next = equals then more else next :: more
        match setValue request .config value with
        | some request => .done request
        | none => .settled .usageError
    else .settled .usageError

def splitLong (text : List UInt8) : List UInt8 × Option (List UInt8) :=
  let name := text.takeWhile (· != equals)
  match text.drop name.length with
  | [] => (name, none)
  | _ :: value => (name, some value)

def readLong (request : Request) (name : List UInt8) (value? : Option (List UInt8)) : Reading :=
  let valued (option : Valued) : Reading :=
    match value? with
    | none => .waiting request option
    | some value =>
      match setValue request option value with
      | some request => .done request
      | none => .settled .usageError
  if name = Text.encode "preserve" then valued .preserve
  else if name = Text.encode "config" then valued .config
  else if value?.isSome then .settled .usageError
  else if name = Text.encode "check" then
    if request.check then .settled .usageError else .done { request with check := true }
  else if name = Text.encode "verbose" then .done (moreVerbose request)
  else if name = Text.encode "version" then .settled .version
  else if name = Text.encode "help" then .settled .help
  else .settled .usageError

def readOption (request : Request) (argument : List UInt8) : Reading :=
  let text := argument.tail
  if text.head? = some hyphen then
    let long := splitLong text.tail
    readLong request long.1 long.2
  else readLetters request text

def readPaths (request : Request) : List (List UInt8) → Command
  | [] => .run request
  | argument :: rest =>
    match addPath request argument with
    | some request => readPaths request rest
    | none => .usageError

def readFrom (request : Request) : List (List UInt8) → Command
  | [] => .run request
  | argument :: rest =>
    if argument = [hyphen, hyphen] then readPaths request rest
    else if isOption argument then
      match readOption request argument with
      | .done request => readFrom request rest
      | .settled command => command
      | .waiting request option =>
        match rest with
        | [] => .usageError
        | value :: rest =>
          if isOption value then .usageError
          else
            match setValue request option value with
            | some request => readFrom request rest
            | none => .usageError
    else
      match addPath request argument with
      | some request => readFrom request rest
      | none => .usageError

def read (arguments : List (List UInt8)) : Command :=
  readFrom ⟨[], false, [], 0, none⟩ arguments

end Arguments

end UnusedImports
