import MulticastMesh.Mesh.Coord
import MulticastMesh.Text.Quoted
/-!
# What can go wrong while placing
-/

namespace MulticastMesh.Placing

open Mesh (Coord)

/-- Why a vertex can not go where its constraints want it. -/
inductive Obstacle where
  | noChip
  | memory (needed free : Nat)
  | coreTaken (core : Nat)
  | noCore
  deriving DecidableEq, Repr

def Obstacle.message : Obstacle → String
  | .noChip => "there is no such chip"
  | .memory needed free => s!"needs {needed} bytes, {free} free"
  | .coreTaken core => s!"core {core} is not available"
  | .noCore => "no more cores available"

structure FailureReport where
  path : String
  text : String
  deriving DecidableEq, Repr

inductive PlaceError where
  /-- A group needs more than any chip has, so no search can help. -/
  | tooBig (label : String) (cores sdram maxCores maxSdram : Nat)
  /-- The constraints of a vertex can not be met beside the chip's other occupants. -/
  | configuration (label : String) (chip : Coord) (occupants : List String)
      (obstacle : Obstacle)
  | noMoreChips (used total : Nat) (report : FailureReport)
  | noEthernetChip
  | startOutside (start : Coord) (width height : Nat)
  | noCurrentChip
  | chipOutOfCores
  | searchStuck
  deriving DecidableEq, Repr

def PlaceError.message : PlaceError → String
  | .tooBig label cores sdram maxCores maxSdram =>
    s!"{label} will not fit on any chip: a group of {cores} cores needs {sdram} bytes, " ++
      s!"but a chip has at most {maxCores} user cores and {maxSdram} bytes"
  | .configuration label chip occupants obstacle =>
    let others :=
      if occupants.isEmpty then ""
      else "; the chip already holds " ++ ", ".intercalate occupants
    s!"can not place {label} on {chip.text}: {obstacle.message}{others}"
  | .noMoreChips used total report =>
    s!"no more chips to place on; {used} of {total} used. " ++
      s!"Report written to {Text.quoted report.path}"
  | .noEthernetChip => "The machine has no ethernet connected chip to start placing from"
  | .startOutside start width height =>
    s!"Start chip {start.text} is outside the {width}x{height} machine"
  | .noCurrentChip => "No chip selected after a successful space check"
  | .chipOutOfCores => "Chip ran out of cores after a successful space check"
  | .searchStuck => "The search for a chip did not end"

end MulticastMesh.Placing
