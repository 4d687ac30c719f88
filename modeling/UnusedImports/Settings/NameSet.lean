/-!
Sets of names that keep the order in which their members were added. A name that is added
again stays where it is.
-/
namespace UnusedImports

/-- The members of a list without repetitions, each where it first stood. -/
def distinct : List String → List String
  | [] => []
  | name :: rest => name :: (distinct rest).filter fun other => other != name

theorem nodup_distinct (names : List String) : (distinct names).Nodup := by
  induction names with
  | nil => exact List.nodup_nil
  | cons name rest ih =>
    refine List.nodup_cons.mpr ⟨?_, ih.filter _⟩
    intro hmem
    simp at hmem

structure NameSet where
  members : List String
  nodup : members.Nodup
deriving DecidableEq

namespace NameSet

def ofList (names : List String) : NameSet := ⟨distinct names, nodup_distinct names⟩

def empty : NameSet := ⟨[], List.nodup_nil⟩

def union (first second : NameSet) : NameSet := ofList (first.members ++ second.members)

def contains (set : NameSet) (name : String) : Bool := set.members.contains name

end NameSet

end UnusedImports
