import MulticastMesh.Graph.MachineGraph
import MulticastMesh.Mesh.Machine
import MulticastMesh.Layout.Placements
import MulticastMesh.Placing.Config
/-!
# Room on a chip

The cores and the memory of a chip that are still free.
-/

namespace MulticastMesh.Placing

open MulticastMesh.Graph (GraphError MachineGraph)
open Mesh (Chip Coord)
open Layout (Placements)

structure ChipRoom where
  chip : Coord
  /-- The free cores, in order. -/
  cores : List Nat
  sdram : Nat
  deriving DecidableEq, Repr

namespace ChipRoom

/-- User processors of a chip that are not reserved. -/
def unreserved (chip : Chip) (reserved : List ReservedCore) : List Nat :=
  chip.userProcessors.filter fun p => !reserved.contains ⟨chip.coord, p⟩

/-- What earlier placements leave of a chip. -/
def ofChip (chip : Chip) (placements : Placements) (g : MachineGraph)
    (reserved : List ReservedCore) : Except GraphError ChipRoom := do
  let residents := placements.onChip chip.coord
  let memory ← residents.mapM fun p => do
    return (← g.vertex p.vertex).resources.sdram
  let taken := residents.map fun p => p.processor
  return {
    chip := chip.coord
    cores := (unreserved chip reserved).filter fun p => !taken.contains p
    sdram := chip.sdram - memory.foldr (· + ·) 0 }

def hasSpace (r : ChipRoom) (cores sdram : Nat) : Bool :=
  decide (cores ≤ r.cores.length ∧ sdram ≤ r.sdram)

def useSdram (r : ChipRoom) (sdram : Nat) : ChipRoom := { r with sdram := r.sdram - sdram }

/-- Takes a core away, free or not. -/
def useCore (r : ChipRoom) (core : Nat) : ChipRoom := { r with cores := r.cores.erase core }

def useCores (r : ChipRoom) (cores : List Nat) : ChipRoom := cores.foldl useCore r

/-- Takes the lowest free core. -/
def nextCore? (r : ChipRoom) : Option (Nat × ChipRoom) :=
  match r.cores with
  | [] => none
  | core :: rest => some (core, { r with cores := rest })

end ChipRoom

end MulticastMesh.Placing
