/-!
Log records: what the program tells about its work while it does it. A record has a level
and the name of the part that speaks.
-/
namespace UnusedImports.Log

inductive Level where
  | error
  | warn
  | info
  | debug
  | trace
deriving DecidableEq

def Level.name : Level → String
  | error => "error"
  | warn => "warn"
  | info => "info"
  | debug => "debug"
  | trace => "trace"

structure Record where
  level : Level
  /-- The part of the program that speaks. -/
  target : String
  message : String
deriving DecidableEq

end UnusedImports.Log
