import MulticastMesh.Graph.Cost
import MulticastMesh.Graph.Slice
/-!
# What can go wrong while slicing
-/

namespace MulticastMesh.Slicing

open MulticastMesh.Graph (CoreBudget Resources Slice)

inductive BadSlices where
  | noAtomsPerCore
  | fixedSlicesOfNothing
  | gap (lo hi expected : Nat)
  | tooLong (slice : Slice) (maxAtoms : Nat)
  | uncovered (covered atoms : Nat)
  deriving DecidableEq

def BadSlices.message : BadSlices → String
  | .noAtomsPerCore => "max atoms per core is zero"
  | .fixedSlicesOfNothing => "fixed slices of zero atoms"
  | .gap lo hi expected => s!"slice {lo}:{hi} should start at {expected}"
  | .tooLong slice maxAtoms => s!"slice {slice.text} has more than {maxAtoms} atoms"
  | .uncovered covered atoms => s!"slices cover {covered} of {atoms} atoms"

inductive SlicingError where
  /-- Vertices that must share their slices have different numbers of atoms. -/
  | sizeMismatch (label : String) (atoms : Nat) (otherLabel : String) (otherAtoms : Nat)
  /-- Even one atom does not fit on a core. -/
  | tooBig (label : String) (required : Resources) (budget : CoreBudget)
  | sliceDoesNotFit (label : String) (slice : Slice) (required : Resources)
      (budget : CoreBudget)
  | badSlices (label : String) (reason : BadSlices)
  deriving DecidableEq

private def shortage (required : Resources) (budget : CoreBudget) : String :=
  s!"needs {required.sdram} bytes and {required.cycles} cycles, " ++
    s!"but a core only has {budget.sdram} bytes and {budget.cycles} cycles"

def SlicingError.message : SlicingError → String
  | .sizeMismatch label atoms otherLabel otherAtoms =>
    s!"{label} ({atoms} atoms) must be sliced like {otherLabel} ({otherAtoms} atoms), " ++
      "but the atom counts differ"
  | .tooBig label required budget => s!"one atom of {label} {shortage required budget}"
  | .sliceDoesNotFit label slice required budget =>
    s!"slice {slice.text} of {label} {shortage required budget}"
  | .badSlices label reason => s!"bad slices for {label}: {reason.message}"

end MulticastMesh.Slicing
