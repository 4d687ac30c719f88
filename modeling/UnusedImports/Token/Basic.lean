import UnusedImports.Text.LineIndex
import UnusedImports.Text.Quoted

/-!
Tokens of a source text. White space, line ends and comments are tokens as well, so a
source is cut into tokens without gaps, and a token's text together with its start fixes
where it stops. Text that cannot be cut holds a lexical fault.
-/
namespace UnusedImports

inductive Token.Kind where
  | identifier
  | keyword
  | number
  /-- A piece of a string literal, with the delimiters that touch it. -/
  | literal
  /-- The sign that opens an interpolated expression inside a literal. -/
  | interpolationStart
  /-- The brace that closes an interpolated expression, or the empty text after a name. -/
  | interpolationEnd
  | operator
  | comment
  | blank
  | newline
deriving DecidableEq

structure Token where
  kind : Token.Kind
  text : String
  /-- The offset of the first byte. -/
  start : Nat
  /-- How many interpolated expressions the token stands in. A bound on the count, such as the one
  of sixteen bits, is left out. -/
  depth : Nat
deriving DecidableEq

namespace Token

def stop (token : Token) : Nat := token.start + Text.byteLength token.text.toList

def extent (token : Token) : Extent := ⟨token.start, token.stop⟩

def isTrivia (token : Token) : Bool :=
  match token.kind with
  | .blank | .newline | .comment => true
  | _ => false

/-- The bytes from the first token of an extent of token positions to the last. -/
def bytesOf (tokens : List Token) (extent : Extent) : Extent :=
  ⟨(tokens[extent.start]?.map Token.start).getD 0,
   (tokens[extent.stop - 1]?.map Token.stop).getD 0⟩

end Token

inductive LexCause where
  | unterminatedString
  | unterminatedComment
  | unterminatedInterpolation
  | unexpectedCharacter (c : Char)
deriving DecidableEq

def LexCause.message : LexCause → String
  | .unterminatedString => "unterminated string literal"
  | .unterminatedComment => "unterminated block comment"
  | .unterminatedInterpolation => "unterminated interpolation expression"
  | .unexpectedCharacter c => "unexpected character " ++ Text.quotedChar c

structure LexFault where
  cause : LexCause
  extent : Extent
deriving DecidableEq

end UnusedImports
