import Std.Data.ExtTreeMap
import Std.Data.ExtTreeSet
/-!
# Places in the mesh

A chip is named by its column and row.  Places are ordered by column first; pairs are ordered
lexicographically throughout the library.
-/

namespace MulticastMesh

attribute [instance] lexOrd

namespace Mesh

structure Coord where
  x : Nat
  y : Nat
  deriving DecidableEq, Repr, Inhabited

namespace Coord

def toPair (c : Coord) : Nat × Nat := (c.x, c.y)

instance : Ord Coord where
  compare := compareOn toPair

instance : Std.TransOrd Coord :=
  inferInstanceAs (Std.TransCmp (compareOn toPair))

instance : Std.LawfulEqOrd Coord where
  eq_of_compare {a b} h := by
    have h : compare a.toPair b.toPair = .eq := h
    have h := Std.LawfulEqOrd.eq_of_compare h
    cases a
    cases b
    simp only [toPair, Prod.mk.injEq] at h
    simp [h.1, h.2]

def text (c : Coord) : String := s!"({c.x}, {c.y})"

end Coord

end Mesh

end MulticastMesh
