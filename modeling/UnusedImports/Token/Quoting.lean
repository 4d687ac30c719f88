/-!
The six ways to write a string literal. Each fixes the delimiters, whether expressions are
interpolated, whether the literal may span lines, and what takes the special meaning of the
next character away.
-/
namespace UnusedImports.Token

inductive Quoting where
  | single
  | tripleSingle
  | double
  | tripleDouble
  | slashy
  | dollarSlashy
deriving DecidableEq

namespace Quoting

def opening : Quoting → List Char
  | single => ['\'']
  | tripleSingle => ['\'', '\'', '\'']
  | double => ['"']
  | tripleDouble => ['"', '"', '"']
  | slashy => ['/']
  | dollarSlashy => ['$', '/']

def closing : Quoting → List Char
  | single => ['\'']
  | tripleSingle => ['\'', '\'', '\'']
  | double => ['"']
  | tripleDouble => ['"', '"', '"']
  | slashy => ['/']
  | dollarSlashy => ['/', '$']

def interpolates : Quoting → Bool
  | single | tripleSingle => false
  | double | tripleDouble | slashy | dollarSlashy => true

def spansLines : Quoting → Bool
  | single | double => false
  | tripleSingle | tripleDouble | slashy | dollarSlashy => true

/-- Whether two characters belong together because the first takes the special meaning of
the second away: a backslash before anything, or, in a dollar slashy literal, a `$` before
a `$` or a slash. -/
def escapes (quoting : Quoting) (first second : Char) : Bool :=
  match quoting with
  | dollarSlashy => first == '$' && (second == '$' || second == '/')
  | _ => first == '\\'

end Quoting

end UnusedImports.Token
