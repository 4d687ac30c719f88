import UnusedImports.Text.Utf8

/-!
Paths as the bytes in which they are written, which need not be text: where a path is shown, what
is no text in it is replaced. A path is read as a list of components: repeated slashes and a `.`
inside do not count, while a `.` at the very start does. Paths are compared by their components, so
one file may be written in several ways that count as the same path.
-/
namespace UnusedImports

namespace Path

def slash : UInt8 := '/'.toUInt8

def dot : UInt8 := '.'.toUInt8

end Path

def IsFileName (bytes : List UInt8) : Prop :=
  bytes ≠ [] ∧ Path.slash ∉ bytes ∧ bytes ≠ [Path.dot] ∧ bytes ≠ [Path.dot, Path.dot]

instance : DecidablePred IsFileName :=
  fun bytes => inferInstanceAs (Decidable (bytes ≠ [] ∧ _))

@[ext]
structure FileName where
  bytes : List UInt8
  isFileName : IsFileName bytes
deriving DecidableEq

def FileName.ofBytes? (bytes : List UInt8) : Option FileName :=
  if h : IsFileName bytes then some ⟨bytes, h⟩ else none

inductive Component where
  | root
  | current
  | parent
  | normal (name : FileName)
deriving DecidableEq

namespace Component

def rank : Component → Nat
  | root => 0
  | current => 1
  | parent => 2
  | normal _ => 3

def bytes : Component → List UInt8
  | normal name => name.bytes
  | _ => []

def compare (a b : Component) : Ordering :=
  (Ord.compare a.rank b.rank).then (Ord.compare a.bytes b.bytes)

end Component

structure Path where
  bytes : List UInt8
deriving DecidableEq

namespace Path

def ofText (text : String) : Path := ⟨Text.encode text⟩

/-- The path as it is shown, where two paths that are not text may look the same. -/
def display (path : Path) : String := Text.lossy path.bytes

def pieces : List UInt8 → List (List UInt8)
  | [] => [[]]
  | byte :: rest =>
    if byte = slash then [] :: pieces rest
    else
      match pieces rest with
      | piece :: more => (byte :: piece) :: more
      | [] => [[byte]]

/-- The component that a piece stands for, other than at the start of a path. -/
def component? (piece : List UInt8) : Option Component :=
  if piece = [dot, dot] then some .parent else (FileName.ofBytes? piece).map .normal

def leading (pieces : List (List UInt8)) : List Component :=
  if pieces.head? = some [dot] then .current :: pieces.tail.filterMap component?
  else pieces.filterMap component?

def components (path : Path) : List Component :=
  match path.bytes with
  | [] => []
  | byte :: rest =>
    if byte = slash then .root :: (pieces rest).filterMap component?
    else leading (pieces (byte :: rest))

def isAbsolute (path : Path) : Bool := path.bytes.head? == some slash

def join (path : Path) (name : FileName) : Path :=
  if path.bytes.isEmpty ∨ path.bytes.getLast? = some slash then ⟨path.bytes ++ name.bytes⟩
  else ⟨path.bytes ++ slash :: name.bytes⟩

def fileName? (path : Path) : Option FileName :=
  match path.components.getLast? with
  | some (.normal name) => some name
  | _ => none

/-- What follows the last dot of a file name, unless the dot is its first character. -/
def extensionOf? (name : List UInt8) : Option (List UInt8) :=
  let extension := (name.reverse.takeWhile (· != dot)).reverse
  let stem := name.take (name.length - (extension.length + 1))
  if stem.isEmpty then none else some extension

def extension? (path : Path) : Option (List UInt8) :=
  path.fileName?.bind fun name => extensionOf? name.bytes

def compareComponents : List Component → List Component → Ordering
  | [], [] => .eq
  | [], _ :: _ => .lt
  | _ :: _, [] => .gt
  | a :: as, b :: bs => (a.compare b).then (compareComponents as bs)

def le (a b : Path) : Bool := compareComponents a.components b.components != .gt

/-- Paths without repetitions: of two spellings of a path the first one stays. -/
def distinct : List Path → List Path
  | [] => []
  | path :: rest =>
    path :: (distinct rest).filter fun other => other.components != path.components

end Path

end UnusedImports
