import UnusedImports.Text.CharClass
import UnusedImports.Text.GraphemeExtend
import UnusedImports.Text.Printable

/-!
Quoted characters and texts, as messages show them. What is printable is shown as it is;
the usual control characters, the backslash and the quote in use have a short escape, and
everything else is written by its code point in lower-case hexadecimal.
-/
namespace UnusedImports.Text

/-- The four letters that stand for an absent part of a Hangul syllable. They count as
letters and yet show nothing. -/
def isHangulFiller (c : Char) : Bool :=
  c == '\u115f' || c == '\u1160' || c == '\u3164' || c == '\uffa0'

/-- The half-width voicing marks. They extend the character before them in the sense of
Unicode, and yet have a width and a glyph of their own. -/
def isHalfwidthVoicingMark (c : Char) : Bool := c == '\uff9e' || c == '\uff9f'

def attaches (c : Char) : Bool :=
  inRanges graphemeExtendRanges c.toNat && !isHalfwidthVoicingMark c

/-- Whether a character is shown as itself between quotes: it has a glyph that can be seen
and does not blend into the character before it. -/
def isShown (c : Char) : Bool :=
  if c.toNat < 128 then 0x20 ≤ c.toNat && c.toNat < 0x7f
  else inRanges printableRanges c.toNat && !isHangulFiller c && !attaches c

def hexadecimal (code : Nat) : List Char := Nat.toDigits 16 code

def escaped (quote : Char) (c : Char) : List Char :=
  if c = '\x00' then ['\\', '0']
  else if c = '\t' then ['\\', 't']
  else if c = '\r' then ['\\', 'r']
  else if c = '\n' then ['\\', 'n']
  else if c = '\\' then ['\\', '\\']
  else if c = quote then ['\\', quote]
  else if isShown c then [c]
  else ['\\', 'u', '\x7b'] ++ hexadecimal c.toNat ++ ['\x7d']

def quotedChar (c : Char) : String := String.ofList (['\''] ++ escaped '\'' c ++ ['\''])

def quoted (text : String) : String :=
  String.ofList (['"'] ++ text.toList.flatMap (escaped '"') ++ ['"'])

end UnusedImports.Text
