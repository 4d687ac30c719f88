import UnusedImports.Lexicon
import UnusedImports.Token.Basic

/-!
What the grammar sees of a token. Names, reserved words and the few signs that carry
structure keep their identity; the text of everything else is forgotten, so nothing built
on symbols can depend on comments, white space, numbers or the text of literals.
-/
namespace UnusedImports

inductive Bracket where
  | round
  | square
  | curly
deriving DecidableEq

namespace Bracket

def opening : Bracket → String
  | round => "("
  | square => "["
  | curly => "\x7b"

def closing : Bracket → String
  | round => ")"
  | square => "]"
  | curly => "\x7d"

end Bracket

/-- A token without the text that does not matter for the structure of a source. -/
inductive Symbol where
  | identifier (name : String)
  | keyword (word : String)
  | opening (bracket : Bracket)
  | closing (bracket : Bracket)
  | atSign
  | dot
  /-- A member access operator other than the dot. -/
  | access
  | star
  | minus
  | ellipsis
  | semicolon
  /-- Any other token that is not trivia. -/
  | other
  | newline
  /-- White space or a comment. -/
  | gap
deriving DecidableEq

namespace Symbol

def ofOperator (text : String) : Symbol :=
  if text = "(" then .opening .round
  else if text = "[" then .opening .square
  else if text = "\x7b" then .opening .curly
  else if text = ")" then .closing .round
  else if text = "]" then .closing .square
  else if text = "\x7d" then .closing .curly
  else if text = "@" then .atSign
  else if text = "." then .dot
  else if Lexicon.isMemberAccess text then .access
  else if text = "*" then .star
  else if text = "-" then .minus
  else if text = "..." then .ellipsis
  else if text = ";" then .semicolon
  else .other

def isTrivia : Symbol → Bool
  | .newline | .gap => true
  | _ => false

def isMemberAccess : Symbol → Bool
  | .dot | .access => true
  | _ => false

def word? : Symbol → Option String
  | .identifier name => some name
  | .keyword word => some word
  | _ => none

end Symbol

def Token.symbol (token : Token) : Symbol :=
  match token.kind with
  | .identifier => .identifier token.text
  | .keyword => .keyword token.text
  | .operator => .ofOperator token.text
  | .number | .literal | .interpolationStart | .interpolationEnd => .other
  | .newline => .newline
  | .comment | .blank => .gap

end UnusedImports
