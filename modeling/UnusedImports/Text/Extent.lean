/-!
Extents: half-open stretches of a sequence, by where they start and where they stop. The
same type serves bytes of a text and tokens of a token list.
-/
namespace UnusedImports

/-- The positions `p` with `start ≤ p < stop`. -/
structure Extent where
  start : Nat
  stop : Nat
deriving DecidableEq

namespace Extent

def contains (extent : Extent) (position : Nat) : Bool :=
  extent.start ≤ position && position < extent.stop

def slice {α : Type} (extent : Extent) (list : List α) : List α :=
  (list.drop extent.start).take (extent.stop - extent.start)

end Extent

end UnusedImports
