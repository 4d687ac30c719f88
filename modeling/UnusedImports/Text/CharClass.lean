import UnusedImports.Text.Alphabetic
import UnusedImports.Text.Numeric

/-!
Character classes of the source language. White space, letters and digits follow the
Unicode properties White_Space and Alphabetic and the number categories; ASCII is decided
directly and everything beyond it is looked up in a table of ranges. On top of these stand
the two classes that names are made of.
-/
namespace UnusedImports.Text

def inRanges (ranges : List (Nat × Nat)) (code : Nat) : Bool :=
  ranges.any fun range => range.1 ≤ code && code ≤ range.2

def isWhiteSpace (c : Char) : Bool :=
  let code := c.toNat
  code == 0x20 || (0x09 ≤ code && code ≤ 0x0d) || code == 0x85 || code == 0xa0 ||
    code == 0x1680 || (0x2000 ≤ code && code ≤ 0x200a) || code == 0x2028 || code == 0x2029 ||
    code == 0x202f || code == 0x205f || code == 0x3000

def isSpaceOrTab (c : Char) : Bool := c == ' ' || c == '\t'

def isAsciiDigit (c : Char) : Bool := '0' ≤ c && c ≤ '9'

def isAsciiLetter (c : Char) : Bool := ('a' ≤ c && c ≤ 'z') || ('A' ≤ c && c ≤ 'Z')

def isAlphabetic (c : Char) : Bool :=
  if c.toNat < 128 then isAsciiLetter c else inRanges alphabeticRanges c.toNat

/-- The Unicode general categories Nd, Nl and No. -/
def isNumeric (c : Char) : Bool :=
  if c.toNat < 128 then isAsciiDigit c else inRanges numericRanges c.toNat

def isNameStart (c : Char) : Bool := isAlphabetic c || c == '_' || c == '$'

def isNameChar (c : Char) : Bool := isAlphabetic c || isNumeric c || c == '_' || c == '$'

/-- A character that a name written directly after a `$` in literal text may start with:
there a `$` never belongs to the name. -/
def isShortNameStart (c : Char) : Bool := isAlphabetic c || c == '_'

def byteOrderMark : Char := '\ufeff'

end UnusedImports.Text
