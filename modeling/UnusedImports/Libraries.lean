import UnusedImports.Files.Disk
import UnusedImports.Log
import UnusedImports.Settings.Environment

/-!
What the program leaves to other libraries. How arguments are read, what a configuration file says,
where such files are kept, how directories are walked through, and how log and errors look is
decided there, so all of it is a parameter of a run.
-/
namespace UnusedImports

structure Request where
  /-- The files and directories to work on; standard input if there are none. -/
  paths : List Path
  /-- Only report what would change. -/
  check : Bool
  /-- Further import paths to preserve. -/
  preserve : List String
  /-- How often more words were asked for. -/
  verbosity : Nat
  config : Option Path
deriving DecidableEq

/-- What arguments ask for. Help, version and usage errors end the program at once. -/
inductive Command where
  | run (request : Request)
  | exit (status : Nat) (stdout stderr : String)
deriving DecidableEq

structure Libraries where
  command : List (List UInt8) → Command
  /-- The options in a document, or why it is refused. -/
  options : String → Except String Options
  /-- The directory of the user's configuration. -/
  configDirectory? : Environment → Option Path
  walk : Walk
  /-- The log as it is written, from the level that is shown unless the environment sets another. -/
  log : Environment → Log.Level → List Log.Record → String
  /-- The error that ends a run, with its causes from the outermost on. -/
  error : List String → String

end UnusedImports
