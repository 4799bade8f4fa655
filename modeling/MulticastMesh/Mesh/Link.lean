import MulticastMesh.Mesh.Coord
/-!
# Links of the hexagonal mesh

Every chip has six links, numbered counterclockwise from the east.  A link and its opposite are
the two ends of one wire.
-/

namespace MulticastMesh.Mesh

inductive Link where
  | east
  | northEast
  | north
  | west
  | southWest
  | south
  deriving DecidableEq, Repr, Inhabited

namespace Link

def all : List Link := [east, northEast, north, west, southWest, south]

def id : Link → Nat
  | east => 0
  | northEast => 1
  | north => 2
  | west => 3
  | southWest => 4
  | south => 5

def ofId? (n : Nat) : Option Link := all[n]?

/-- The same wire seen from its other end. -/
def opposite : Link → Link
  | east => west
  | northEast => southWest
  | north => south
  | west => east
  | southWest => northEast
  | south => north

/-- Columns and rows crossed by following the link. -/
def delta : Link → Int × Int
  | east => (1, 0)
  | northEast => (1, 1)
  | north => (0, 1)
  | west => (-1, 0)
  | southWest => (-1, -1)
  | south => (0, -1)

def name : Link → String
  | east => "East"
  | northEast => "NorthEast"
  | north => "North"
  | west => "West"
  | southWest => "SouthWest"
  | south => "South"

def ofName? (text : String) : Option Link :=
  all.find? fun link => link.name == text

theorem id_injective {a b : Link} (h : a.id = b.id) : a = b := by
  cases a <;> cases b <;> simp [id] at h <;> rfl

instance : Ord Link where
  compare := compareOn id

instance : Std.TransOrd Link :=
  inferInstanceAs (Std.TransCmp (compareOn id))

instance : Std.LawfulEqOrd Link where
  eq_of_compare {a b} h :=
    id_injective (Std.LawfulEqOrd.eq_of_compare (show compare a.id b.id = .eq from h))

@[simp] theorem opposite_opposite (l : Link) : l.opposite.opposite = l := by
  cases l <;> rfl

@[simp] theorem mem_all (l : Link) : l ∈ all := by
  cases l <;> simp [all]

end Link

end MulticastMesh.Mesh
