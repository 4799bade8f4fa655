import MulticastMesh.Slicing.SameSize
/-!
# Cutting vertices into slices

The vertices of a team share their slices.  The first member's rule picks them; every limit of
every member holds for them.
-/

namespace MulticastMesh.Slicing

open MulticastMesh.Graph (AppVertexId ApplicationVertex CoreBudget Resources Slice Splitter
  unboundedAtoms)

/-- A vertex with the number of atoms that send packets to it. -/
structure Member where
  id : AppVertexId
  vertex : ApplicationVertex
  incomingAtoms : Nat
  deriving DecidableEq

def Member.resources (m : Member) (atoms : Nat) : Resources :=
  m.vertex.cost.resources atoms m.incomingAtoms

/-- Vertices that are sliced together; the first one's rule picks the slices. -/
structure Team where
  first : Member
  others : List Member
  budget : CoreBudget

namespace Team

def members (t : Team) : List Member := t.first :: t.others

def maxAtoms (t : Team) : Nat :=
  (t.members.map fun m => m.vertex.maxAtomsPerCore).min?.getD unboundedAtoms

/-- The first member that can not run some number of atoms on one core. -/
def misfit? (t : Team) (atoms : Nat) : Option Member :=
  t.members.find? fun m => !(m.resources atoms).fitsCore t.budget

def fits (t : Team) (atoms : Nat) : Bool := (t.misfit? atoms).isNone

end Team

/-- Cuts the atoms from `lo` on; the rule picks each length from the number of atoms left, of
which it gets at least one and at most all. -/
def tile (length : Nat → Nat) : (fuel lo left : Nat) → List Slice
  | 0, _, _ => []
  | _, _, 0 => []
  | fuel + 1, lo, left + 1 =>
    let n := max 1 (min (length (left + 1)) (left + 1))
    Graph.Slice.ofLength lo n :: tile length fuel (lo + n) (left + 1 - n)

/-- Halves the gap between a length that fits and a longer one that does not, until nothing is
left between them. -/
def bisect (fits : Nat → Bool) : (fuel good bad : Nat) → Nat
  | 0, good, _ => good
  | fuel + 1, good, bad =>
    if bad - good > 1 then
      let mid := good + (bad - good) / 2
      if fits mid then bisect fits fuel mid bad else bisect fits fuel good mid
    else
      good

/-- The greatest length up to a limit that fits, given that one atom does. -/
def greatestFit (fits : Nat → Bool) (limit : Nat) : Nat :=
  if fits limit then limit else bisect fits limit 1 limit

/-- The largest slices that fit every member. -/
def legacySlices (t : Team) : Except SlicingError (List Slice) :=
  match t.misfit? 1 with
  | some m => .error (.tooBig m.vertex.label (m.resources 1) t.budget)
  | none =>
    let atoms := t.first.vertex.atoms
    .ok (tile (fun left => greatestFit t.fits (min t.maxAtoms left)) atoms 0 atoms)

def evenSlices (atoms size : Nat) : List Slice := tile (fun _ => size) atoms 0 atoms

/-- Reads listed intervals as slices, which must follow each other without a gap.  The atom after
the last one of all is atom 0 again. -/
def listedSlices (label : String) (maxAtoms : Nat) :
    (expected : Nat) → List (Nat × Nat) → Outcome (Nat × List Slice)
  | expected, [] => .ok (expected, [])
  | expected, (lo, hi) :: rest => do
    if lo ≠ expected then
      throw ⟨[], .slicing (.badSlices label (.gap lo hi expected))⟩
    let slice ← Graph.Slice.ofInterval lo hi
    if maxAtoms < slice.count then
      throw ⟨[], .slicing (.badSlices label (.tooLong slice maxAtoms))⟩
    let (covered, slices) ← listedSlices label maxAtoms ((hi + 1) % UInt32.size) rest
    return (covered, slice :: slices)

def Team.slices (t : Team) : Outcome (List Slice) := do
  let label := t.first.vertex.label
  let atoms := t.first.vertex.atoms
  if t.maxAtoms = 0 then
    throw ⟨[], .slicing (.badSlices label .noAtomsPerCore)⟩
  match t.first.vertex.splitter with
  | .legacy => legacySlices t
  | .fixedSlice size =>
    if size = 0 then
      throw ⟨[], .slicing (.badSlices label .fixedSlicesOfNothing)⟩
    return evenSlices atoms (min size t.maxAtoms)
  | .applicationDefined intervals _ =>
    let (covered, slices) ← listedSlices label t.maxAtoms 0 intervals
    if covered ≠ atoms then
      throw ⟨[], .slicing (.badSlices label (.uncovered covered atoms))⟩
    return slices

end MulticastMesh.Slicing
