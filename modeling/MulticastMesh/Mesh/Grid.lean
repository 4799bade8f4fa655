import MulticastMesh.Mesh.Link
/-!
# Geometry of the mesh

A rectangle of places, open at its edges or closed into a torus.
-/

namespace MulticastMesh.Mesh

structure Grid where
  width : Nat
  height : Nat
  wraps : Bool
  deriving DecidableEq, Repr

namespace Grid

def Contains (g : Grid) (c : Coord) : Prop := c.x < g.width ∧ c.y < g.height

instance (g : Grid) (c : Coord) : Decidable (g.Contains c) :=
  inferInstanceAs (Decidable (_ ∧ _))

/-- Places are numbered row by row. -/
def indexOf (g : Grid) (c : Coord) : Nat := c.x + c.y * g.width

def coordOf (g : Grid) (index : Nat) : Coord := ⟨index % g.width, index / g.width⟩

def coords (g : Grid) : List Coord :=
  (List.range (g.width * g.height)).map g.coordOf

/-- Where a link leads: around the torus, or nowhere across an open edge. -/
def neighbour? (g : Grid) (c : Coord) (link : Link) : Option Coord :=
  let x := (c.x : Int) + link.delta.1
  let y := (c.y : Int) + link.delta.2
  if g.wraps then
    some ⟨(x % g.width).toNat, (y % g.height).toNat⟩
  else if 0 ≤ x ∧ x < g.width ∧ 0 ≤ y ∧ y < g.height then
    some ⟨x.toNat, y.toNat⟩
  else
    none

end Grid

end MulticastMesh.Mesh
