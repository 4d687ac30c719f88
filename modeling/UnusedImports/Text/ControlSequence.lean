/-!
Plain text out of text that may hold terminal control sequences. Printable characters and
white space are kept; other control characters and the sequences that an escape character
opens are left out, and a sequence that does not end takes the rest of the text with it.
-/
namespace UnusedImports.Text

namespace ControlSequence

inductive Stage where
  /-- Outside of any sequence. -/
  | outside
  /-- After the escape character. -/
  | escape
  /-- After the escape character and some intermediate characters. -/
  | escapeIntermediate
  /-- Inside a sequence with parameters, before its final character. -/
  | parameters
  /-- At the start of a string for the device. -/
  | deviceStart
  /-- Among the parameters of a string for the device. -/
  | deviceParameters
  /-- Among the intermediate characters of a string for the device. -/
  | deviceIntermediate
  /-- In the body of a string for the device or an application. -/
  | body
  /-- Inside a command for the operating system. -/
  | systemCommand
deriving DecidableEq

def isBetween (first last c : Char) : Bool := first ≤ c && c ≤ last

def isBlankControl (c : Char) : Bool := c == '\t' || c == '\n' || c == '\x0c' || c == '\r'

def isKept (c : Char) : Bool := isBlankControl c || (0x20 ≤ c.toNat && c.toNat != 0x7f)

/-- Whether a character is kept at a stage. Strings lose everything; a short sequence loses
everything but white space, unless it is suspended. -/
def isKeptAt (suspended : Bool) (stage : Stage) (c : Char) : Bool :=
  match stage with
  | .outside => isKept c
  | .escape | .escapeIntermediate | .parameters =>
    if suspended then isKept c else isBlankControl c
  | _ => false

def openedBy (c : Char) : Stage :=
  if c = '[' then .parameters
  else if c = ']' then .systemCommand
  else if c = 'P' then .deviceStart
  else if c = 'X' ∨ c = '^' ∨ c = '_' then .body
  else .outside

def holdsTerminator (c : Char) : Bool := (String.utf8EncodeChar c).contains 0x9c

/-- The stage after a character. The escape character opens a sequence and two others cancel
it, whatever has been read. -/
def next (stage : Stage) (c : Char) : Stage :=
  if c = '\x1b' then .escape
  else if c = '\x18' ∨ c = '\x1a' then .outside
  else
    match stage with
    | .outside => .outside
    | .escape =>
      if isBetween ' ' '/' c then .escapeIntermediate
      else if isBetween '0' '~' c then openedBy c
      else .escape
    | .escapeIntermediate => if isBetween '0' '~' c then .outside else .escapeIntermediate
    | .parameters => if isBetween '@' '~' c then .outside else .parameters
    | .deviceStart =>
      if isBetween ' ' '/' c then .deviceIntermediate
      else if isBetween '0' '?' c then .deviceParameters
      else if isBetween '@' '~' c then .body
      else .deviceStart
    | .deviceParameters =>
      if isBetween ' ' '/' c then .deviceIntermediate
      else if isBetween '<' '~' c then .body
      else .deviceParameters
    | .deviceIntermediate => if isBetween '0' '~' c then .body else .deviceIntermediate
    | .body => if holdsTerminator c then .outside else .body
    | .systemCommand => if c = '\x07' then .outside else .systemCommand

/-- What is kept of a text from a stage on. White space suspends the short sequence that it
stands in: what follows is kept as if outside, up to the next character that is not kept.
There the sequence goes on, unless a character beyond ASCII was kept in between. -/
def strip (suspended : Bool) (stage : Stage) : List Char → List Char
  | [] => []
  | c :: rest =>
    if isKeptAt suspended stage c then
      c :: strip true (if c.toNat < 128 then stage else .outside) rest
    else strip false (next stage c) rest

end ControlSequence

def withoutControls (text : String) : String :=
  String.ofList (ControlSequence.strip false .outside text.toList)

end UnusedImports.Text
