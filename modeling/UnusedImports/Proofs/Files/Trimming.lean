import Mathlib.Logic.Function.Iterate
import UnusedImports.Files.Disk
import UnusedImports.Proofs.LineEnd.Trim
import UnusedImports.Proofs.Text.Utf8

/-!
Files that are trimmed, some of them more than once because several paths lead to them. Trimming
shortens a text or leaves it alone, so a file ends as another one exactly when the first trimming
changes it. A file that is text stays text, and one that is not stays as it is. Only the bytes at
the places of the files change, so every path still leads to the same place afterwards.
-/
namespace UnusedImports

section Trimming

variable (policy : Policy) (source : String)

def trimmedCode : String := (trim policy source).code

def trimmedBytes (bytes : List UInt8) : List UInt8 :=
  match Text.decode bytes with
  | .ok source => Text.encode (trimmedCode policy source)
  | .error _ => bytes

end Trimming

namespace Disk

/-- The disk after the file at each place was trimmed some number of times. -/
def trimmed (policy : Policy) (count : Location → Nat) (disk : Disk) : Disk :=
  { disk with bytes := fun place => (trimmedBytes policy)^[count place] (disk.bytes place) }

section Reading

variable {disk : Disk} {path : Path} {place : Location}

end Reading

section Trimming

variable {policy : Policy} {disk : Disk} {count more : Location → Nat} {path : Path}
  {place : Location}

end Trimming

section Steps

variable {disk : Disk} {path : Path} (policy : Policy)

end Steps

section Results

variable {policy : Policy} {disk : Disk} {files : List Path} {path : Path} {place : Location}

end Results

end Disk

end UnusedImports
