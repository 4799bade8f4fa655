import MulticastMesh.Mesh.Coord
/-!
# Names of vertices

Application vertices and the machine vertices cut from them are numbered from zero, each kind in
its own graph.
-/

namespace MulticastMesh.Graph

structure AppVertexId where
  index : Nat
  deriving DecidableEq, Repr, Inhabited

structure MachineVertexId where
  index : Nat
  deriving DecidableEq, Repr, Inhabited

namespace AppVertexId

instance : Ord AppVertexId where
  compare := compareOn index

instance : Std.TransOrd AppVertexId :=
  inferInstanceAs (Std.TransCmp (compareOn index))

instance : Std.LawfulEqOrd AppVertexId where
  eq_of_compare {a b} h := by
    have h := Std.LawfulEqOrd.eq_of_compare (show compare a.index b.index = .eq from h)
    cases a
    cases b
    simp_all

def text (v : AppVertexId) : String := s!"ApplicationVertexId({v.index})"

end AppVertexId

namespace MachineVertexId

instance : Ord MachineVertexId where
  compare := compareOn index

instance : Std.TransOrd MachineVertexId :=
  inferInstanceAs (Std.TransCmp (compareOn index))

instance : Std.LawfulEqOrd MachineVertexId where
  eq_of_compare {a b} h := by
    have h := Std.LawfulEqOrd.eq_of_compare (show compare a.index b.index = .eq from h)
    cases a
    cases b
    simp_all

def text (v : MachineVertexId) : String := s!"mv{v.index}"

end MachineVertexId

structure FixedLocation where
  chip : Mesh.Coord
  core? : Option Nat
  deriving DecidableEq, Repr

def FixedLocation.text (location : FixedLocation) : String :=
  let core := match location.core? with
    | none => "None"
    | some p => s!"Some({p})"
  s!"FixedLocation \x7b chip: ChipCoord \x7b x: {location.chip.x}, y: {location.chip.y} \x7d, " ++
    s!"core: {core} \x7d"

/-- Multicast edges carry packets; the others share memory and need no keys or routes. -/
inductive Traffic where
  | multicast
  | sdram
  deriving DecidableEq, Repr

namespace Traffic

def name : Traffic → String
  | multicast => "multicast"
  | sdram => "sdram"

def text : Traffic → String
  | multicast => "Multicast"
  | sdram => "Sdram"

end Traffic

end MulticastMesh.Graph
