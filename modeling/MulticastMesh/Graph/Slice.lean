import MulticastMesh.Graph.Error
/-!
# Slices

A slice is a non-empty interval of a vertex's atoms.  It may also record that its atoms form a
box in a space of several dimensions, which must then hold as many atoms.

Atoms are numbered with 32 bits, and they are counted with 32 bits too, where there is no room for
the count of the slice of all `2 ^ 32` atoms.  Sizes of boxes are multiplied with 64 bits.
-/

namespace MulticastMesh.Graph

/-- A box of atoms: its size along each dimension and its first corner. -/
structure Box where
  shape : List Nat
  start : List Nat
  deriving DecidableEq, Repr

def Box.volume (box : Box) : Nat := box.shape.foldr (· * ·) 1 % UInt64.size

/-- The atoms from `lo` to `hi`, both included. -/
structure Slice where
  lo : Nat
  hi : Nat
  lo_le_hi : lo ≤ hi
  box? : Option Box
  box_fits : ∀ box ∈ box?,
    box.shape.length = box.start.length ∧ box.volume = (hi - lo + 1) % UInt32.size
  deriving DecidableEq

namespace Slice

/-- How many atoms there are, which need not be the number that is counted. -/
def atoms (s : Slice) : Nat := s.hi - s.lo + 1

/-- The atoms as they are counted with 32 bits. -/
def count (s : Slice) : Nat := s.atoms % UInt32.size

theorem count_eq {s : Slice} (h : s.atoms < UInt32.size) : s.count = s.atoms := Nat.mod_eq_of_lt h

def toList (s : Slice) : List Nat := List.range' s.lo s.atoms

def ofInterval (lo hi : Nat) : Except GraphError Slice :=
  if h : lo ≤ hi then .ok ⟨lo, hi, h, none, by simp⟩ else .error (.sliceReversed lo hi)

def ofLength (lo length : Nat) : Slice :=
  ⟨lo, lo + (length - 1), Nat.le_add_right _ _, none, by simp⟩

def ofBox (lo hi : Nat) (box : Box) : Except GraphError Slice :=
  if h : lo ≤ hi then
    if dimensions : box.shape.length = box.start.length then
      if volume : box.volume = (hi - lo + 1) % UInt32.size then
        .ok ⟨lo, hi, h, some box, by simp_all⟩
      else
        .error (.sliceVolume box.shape box.volume ((hi - lo + 1) % UInt32.size))
    else
      .error (.sliceDimensions box.shape box.start)
  else
    .error (.sliceReversed lo hi)

/-- The slice of an interval, with shape and start given together or not at all. -/
def ofFields (lo hi : Nat) : Option (List Nat) → Option (List Nat) → Except GraphError Slice
  | none, none => ofInterval lo hi
  | some shape, some start => ofBox lo hi ⟨shape, start⟩
  | _, _ => .error .sliceShapeAlone

def overlaps (a b : Slice) : Bool := decide (a.lo ≤ b.hi ∧ b.lo ≤ a.hi)

def text (s : Slice) : String := s!"{s.lo}:{s.hi}"

end Slice

end MulticastMesh.Graph
