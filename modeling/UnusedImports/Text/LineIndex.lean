import UnusedImports.Text.Extent

/-!
Positions in a text. Offsets count bytes of the UTF-8 form, lines and columns count from
one, and a column counts characters. A line ends with its line feed, so a text has one line
more than it has line feeds, and a text that ends with a line feed has an empty last line.
-/
namespace UnusedImports

namespace Text

def byteLength : List Char → Nat
  | [] => 0
  | c :: rest => c.utf8Size + byteLength rest

theorem byteLength_append (first second : List Char) :
    byteLength (first ++ second) = byteLength first + byteLength second := by
  induction first with
  | nil => simp [byteLength]
  | cons c rest ih => simp only [List.cons_append, byteLength, ih, Nat.add_assoc]

/-- The characters that start before a number of bytes. -/
def takeBytes (count : Nat) : List Char → List Char
  | [] => []
  | c :: rest => if count = 0 then [] else c :: takeBytes (count - c.utf8Size) rest

def dropBytes (count : Nat) : List Char → List Char
  | [] => []
  | c :: rest => if count = 0 then c :: rest else dropBytes (count - c.utf8Size) rest

def isBoundary (count : Nat) : List Char → Bool
  | [] => count == 0
  | c :: rest => count == 0 || (c.utf8Size ≤ count && isBoundary (count - c.utf8Size) rest)

end Text

structure Line where
  /-- The offset of its first byte. -/
  start : Nat
  /-- Its characters, with the line feed. -/
  text : List Char
deriving DecidableEq

namespace Line

/-- The lines of a text, each with its line feed; the last one has none. -/
def split : List Char → List (List Char)
  | [] => [[]]
  | c :: rest =>
    if c = '\n' then [c] :: split rest
    else
      match split rest with
      | line :: lines => (c :: line) :: lines
      | [] => [[c]]

def place (start : Nat) : List (List Char) → List Line
  | [] => []
  | text :: rest => ⟨start, text⟩ :: place (start + Text.byteLength text) rest

/-- Nothing is lost when a text is split into lines. -/
theorem flatten_split (text : List Char) : (split text).flatten = text := by
  induction text with
  | nil => rfl
  | cons c rest ih =>
    unfold split
    split
    · simp [ih]
    · split
      · rename_i line lines h
        rw [h] at ih
        simpa using congrArg (c :: ·) ih
      · rename_i h
        rw [h] at ih
        simpa using congrArg (c :: ·) ih

def stop (line : Line) : Nat := line.start + Text.byteLength line.text

def extent (line : Line) : Extent := ⟨line.start, line.stop⟩

end Line

structure Span where
  start : Nat
  stop : Nat
  line : Nat
  column : Nat
deriving DecidableEq

namespace Span

def extent (span : Span) : Extent := ⟨span.start, span.stop⟩

def position (span : Span) : String := s!"{span.line}:{span.column}"

end Span

structure LineIndex where
  lines : List Line

namespace LineIndex

def ofText (text : List Char) : LineIndex := ⟨Line.place 0 (Line.split text)⟩

def lineCount (index : LineIndex) : Nat := index.lines.length

/-- The line, counted from zero, that holds an offset. Offsets past the end are on the last
line. -/
def lineOf (index : LineIndex) (offset : Nat) : Nat :=
  (index.lines.takeWhile fun line => line.start ≤ offset).length - 1

/-- Looks for a number in a part of an ascending table by halving it: where the number stands, or
else where it would have to stand. -/
def search (table : List Nat) (value low high : Nat) : Except Nat Nat :=
  if low < high then
    let middle := (low + high) / 2
    let found := table[middle]?.getD 0
    if found = value then .ok middle
    else if found < value then search table value (middle + 1) high
    else search table value low middle
  else .error low
termination_by high - low

/-- As `lineOf`, by a search in the table of the offsets at which the lines start. -/
def searchLine (index : LineIndex) (offset : Nat) : Nat :=
  let starts := index.lines.map Line.start
  match search starts offset 0 starts.length with
  | .ok line => line
  | .error next => next - 1

def lineRange? (index : LineIndex) (line : Nat) : Option Extent :=
  index.lines[line]?.map Line.extent

def lineAt (index : LineIndex) (offset : Nat) : Line :=
  index.lines[index.lineOf offset]?.getD ⟨0, []⟩

def span (index : LineIndex) (extent : Extent) : Span :=
  let line := index.lineAt extent.start
  { start := extent.start
    stop := extent.stop
    line := index.lineOf extent.start + 1
    column := (Text.takeBytes (extent.start - line.start) line.text).length + 1 }

/-- As `span`, but only for a stretch that starts between two characters of the text, before
the first or after the last. -/
def span? (index : LineIndex) (extent : Extent) : Option Span :=
  let line := index.lineAt extent.start
  if Text.isBoundary (extent.start - line.start) line.text then some (index.span extent)
  else none

end LineIndex

end UnusedImports
