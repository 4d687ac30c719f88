import UnusedImports.Text.CharClass
import UnusedImports.Token.Basic

/-!
Cutting statements out of a text. Nothing is written anew: the result is the text without
some stretches of bytes. A statement whose lines hold nothing but removed statements, white
space and comments of one line takes its lines with it; any other is cut out of its line
together with the spaces beside it. Where whole lines went, blank lines that only separated
what is gone go as well.
-/
namespace UnusedImports

namespace Line

def content (line : Line) : List Char :=
  if ['\r', '\n'].isSuffixOf line.text then line.text.take (line.text.length - 2)
  else if ['\n'].isSuffixOf line.text then line.text.take (line.text.length - 1)
  else line.text

def contentStop (line : Line) : Nat := line.start + Text.byteLength line.content

/-- Whether the line is there and shows nothing: spaces, tabs and carriage returns only. -/
def isBlank (line : Line) : Bool :=
  !line.text.isEmpty && line.content.all fun c => Text.isSpaceOrTab c || c == '\r'

end Line

namespace Excision

def linesOf (index : LineIndex) (removal : Extent) : Extent :=
  ⟨index.lineOf removal.start, index.lineOf (max (removal.stop - 1) removal.start) + 1⟩

def isRemoved (removals : List Extent) (token : Token) : Bool :=
  removals.any fun removal => removal.start ≤ token.start && token.stop ≤ removal.stop

/-- Whether a token may go with the line: it is white space, a comment that starts on the
line and ends there, or part of a removed statement. -/
def isDisposable (removals : List Extent) (line : Line) (token : Token) : Bool :=
  match token.kind with
  | .blank | .newline => true
  | .comment => line.start ≤ token.start && !token.text.toList.contains '\n'
  | _ => isRemoved removals token

def isClean (tokens : List Token) (removals : List Extent) (line : Line) : Bool :=
  ((tokens.dropWhile fun token => token.stop ≤ line.start).takeWhile fun token =>
    token.start < line.contentStop).all (isDisposable removals line)

def takesLines (index : LineIndex) (tokens : List Token) (removals : List Extent)
    (removal : Extent) : Bool :=
  ((linesOf index removal).slice index.lines).all (isClean tokens removals)

/-- The stretch to cut for a statement that leaves part of its lines: the spaces after it go
too, and when it ends its line, the spaces before it. -/
def partialCut (text : List Char) (first last : Line) (removal : Extent) : Extent :=
  let after := Text.takeBytes (last.contentStop - removal.stop) (Text.dropBytes removal.stop text)
  let stop := removal.stop + (after.takeWhile Text.isSpaceOrTab).length
  if stop = last.contentStop then
    let before := Text.takeBytes (removal.start - first.start) first.text
    let left := before.reverse.takeWhile Text.isSpaceOrTab
    ⟨removal.start - left.length, stop⟩
  else ⟨removal.start, stop⟩

inductive Mark where
  | deleted
  | blank
  | solid
deriving DecidableEq

/-- How many blank lines a run of deleted and blank lines keeps. At the start of the text it
is what stood before the first deleted line, at the end what stood after the last one, and in
between the larger of the two. -/
def kept (atStart atEnd : Bool) (run : List (Line × Mark)) : Nat :=
  let leading := (run.takeWhile fun entry => entry.2 != .deleted).length
  let trailing := (run.reverse.takeWhile fun entry => entry.2 != .deleted).length
  if atStart then leading else if atEnd then trailing else max leading trailing

/-- The blank lines that a run gives up. A run without a deleted line keeps all. -/
def surplusOfRun (atStart atEnd : Bool) (run : List (Line × Mark)) : List Line :=
  if run.any fun entry => entry.2 == .deleted then
    ((run.filter fun entry => entry.2 != .deleted).drop (kept atStart atEnd run)).map Prod.fst
  else []

def surplus (atStart : Bool) (marked : List (Line × Mark)) : List Line :=
  match marked with
  | [] => []
  | entry :: rest =>
    if entry.2 = .solid then surplus false rest
    else
      let after := rest.dropWhile fun entry => entry.2 != .solid
      surplusOfRun atStart (after.all fun entry => entry.1.text.isEmpty)
          (entry :: rest.takeWhile fun entry => entry.2 != .solid) ++
        surplus false after
termination_by marked.length
decreasing_by
  · exact Nat.lt_succ_self _
  · exact Nat.lt_succ_of_le (List.dropWhile_sublist _).length_le

structure Plan where
  deletedLines : List Line
  cuts : List Extent

def markOf (whole : List Extent) (number : Nat) (line : Line) : Mark :=
  if whole.any fun lines => lines.contains number then .deleted
  else if line.isBlank then .blank
  else .solid

def markLines (index : LineIndex) (whole : List Extent) : List (Line × Mark) :=
  index.lines.mapIdx fun number line => (line, markOf whole number line)

/-- The stretch to cut for a deleted line. A byte order mark before it stays. -/
def lineCut (text : List Char) (line : Line) : Extent :=
  if line.start = 0 ∧ text.head? = some Text.byteOrderMark then
    ⟨Text.byteOrderMark.utf8Size, line.stop⟩
  else line.extent

def partialCutOf (text : List Char) (index : LineIndex) (removal : Extent) : Extent :=
  partialCut text (index.lineAt removal.start)
    (index.lineAt (max (removal.stop - 1) removal.start)) removal

def plan (text : List Char) (tokens : List Token) (removals : List Extent) : Plan :=
  let index := LineIndex.ofText text
  let (whole, partly) := removals.partition (takesLines index tokens removals)
  let marked := markLines index (whole.map (linesOf index))
  let deleted := (marked.filter fun entry => entry.2 == .deleted).map Prod.fst
  ⟨deleted,
    partly.map (partialCutOf text index) ++ deleted.map (lineCut text) ++
      (surplus true marked).map Line.extent⟩

def comesBefore (first second : Extent) : Bool :=
  first.start < second.start || (first.start == second.start && first.stop ≤ second.stop)

/-- Copies a text that itself starts at `offset` around some cuts. What lies before the start
of a cut is copied, and the copy goes on from where the cut stops. A cut that stops before it
starts thus takes nothing away, and what lies between is copied twice. -/
def splice (offset : Nat) (text : List Char) : List Extent → List Char
  | [] => text
  | cut :: cuts =>
    Text.takeBytes (cut.start - offset) text ++
      splice (offset + Text.byteLength (Text.takeBytes (cut.stop - offset) text))
        (Text.dropBytes (cut.stop - offset) text) cuts

def remove (text : List Char) (tokens : List Token) (removals : List Extent) : List Char :=
  splice 0 text ((plan text tokens removals).cuts.mergeSort comesBefore)

end Excision

end UnusedImports
