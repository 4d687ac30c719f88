import UnusedImports.Lexicon
import UnusedImports.Token.Basic
import UnusedImports.Token.Quoting

/-!
What stands at the head of code. The text is given as its first character and the rest;
the answer is a whole token, the opening of a string literal, or a fault. Lengths count the
characters after the first, so every token found takes at least one character.
-/
namespace UnusedImports.Token

open UnusedImports.Text

inductive Head where
  /-- A token of the first character and `more` characters after it. -/
  | token (kind : Kind) (more : Nat)
  /-- The opening delimiter of a string literal. -/
  | literal (quoting : Quoting)
  /-- A fault that takes the first character and `more` characters after it. -/
  | fault (cause : LexCause) (more : Nat)
deriving DecidableEq

/-- The characters up to the next line end; a carriage return before it does not count, nor
does one at the very end of the text. -/
def lineLength (rest : List Char) : Nat :=
  let line := rest.takeWhile (· != '\n')
  if line.getLast? = some '\r' then line.length - 1 else line.length

/-- How far white space goes on without a line end. A carriage return directly before a
line feed belongs to the line end. -/
def blankLength (rest : List Char) : Nat :=
  let blank := rest.takeWhile fun c => isWhiteSpace c && c != '\n'
  if rest[blank.length]? = some '\n' ∧ blank.getLast? = some '\r' then blank.length - 1
  else blank.length

def commentLength? : List Char → Option Nat
  | '*' :: '/' :: _ => some 2
  | _ :: rest => (commentLength? rest).map (· + 1)
  | [] => none

/-- Whether a number is written with a radix: such a number has no fraction or exponent. -/
def hasRadix (first : Char) (rest : List Char) : Bool :=
  first == '0' && rest.head?.any fun c => c == 'x' || c == 'X' || c == 'b' || c == 'B'

/-- How far a number goes on after the character `previous`. Besides letters, digits and
underscores it takes one point before a digit, and a sign between an exponent mark and a
digit. -/
def numberLength (radix point : Bool) (previous : Char) : List Char → Nat
  | [] => 0
  | c :: rest =>
    if isAsciiLetter c || isAsciiDigit c || c == '_' then
      numberLength radix point c rest + 1
    else if c == '.' && !point && !radix && rest.head?.any isAsciiDigit then
      numberLength radix true c rest + 1
    else if (c == '+' || c == '-') && !radix && (previous == 'e' || previous == 'E') &&
        rest.head?.any isAsciiDigit then
      numberLength radix point c rest + 1
    else 0

def nameLength (rest : List Char) : Nat := (rest.takeWhile isNameChar).length

def wordKind (word : List Char) : Kind :=
  if Lexicon.isKeyword (String.ofList word) then .keyword else .identifier

def operator? (text : List Char) : Option String :=
  Lexicon.operators.find? fun operator => operator.toList.isPrefixOf text

/-- What code starts with; `operand` tells whether a slash here opens a literal, since no
operand precedes it. -/
def head (operand : Bool) (c : Char) (rest : List Char) : Head :=
  if c = '\n' then .token .newline 0
  else if c = '\r' ∧ rest.head? = some '\n' then .token .newline 1
  else if isWhiteSpace c then .token .blank (blankLength rest)
  else if c = '/' ∧ rest.head? = some '/' then .token .comment (lineLength rest)
  else if c = '/' ∧ rest.head? = some '*' then
    match commentLength? (rest.drop 1) with
    | some length => .token .comment (length + 1)
    | none => .fault .unterminatedComment rest.length
  else if c = '\'' then
    .literal (if ['\'', '\''].isPrefixOf rest then .tripleSingle else .single)
  else if c = '"' then
    .literal (if ['"', '"'].isPrefixOf rest then .tripleDouble else .double)
  else if c = '$' ∧ rest.head? = some '/' then .literal .dollarSlashy
  else if c = '/' ∧ operand then .literal .slashy
  else if isNameStart c then
    .token (wordKind (c :: rest.takeWhile isNameChar)) (nameLength rest)
  else if isAsciiDigit c then .token .number (numberLength (hasRadix c rest) false c rest)
  else
    match operator? (c :: rest) with
    | some operator => .token .operator (operator.toList.length - 1)
    | none => .fault (.unexpectedCharacter c) 0

end UnusedImports.Token
