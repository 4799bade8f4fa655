/-!
# What a slice of a vertex costs

Memory and cycles grow linearly with the number of atoms, and memory also with the number of
incoming synapses.  Both are computed with 64 bits, and a result that needs more loses its upper
bits.
-/

namespace MulticastMesh.Graph

/-- What a group of cores needs. -/
structure Resources where
  cores : Nat
  sdram : Nat
  cycles : Nat
  deriving DecidableEq, Repr

structure CoreBudget where
  sdram : Nat
  cycles : Nat
  deriving DecidableEq, Repr

namespace Resources

def fitsCore (r : Resources) (budget : CoreBudget) : Bool :=
  decide (r.cores ≤ 1 ∧ r.sdram ≤ budget.sdram ∧ r.cycles ≤ budget.cycles)

instance : Add Resources where
  add a b := ⟨(a.cores + b.cores) % UInt32.size, (a.sdram + b.sdram) % UInt64.size,
    (a.cycles + b.cycles) % UInt64.size⟩

end Resources

structure CostModel where
  fixedSdram : Nat := 0
  sdramPerAtom : Nat := 0
  sdramPerSynapse : Nat := 0
  fixedCycles : Nat := 0
  cyclesPerAtom : Nat := 0
  deriving DecidableEq, Repr

namespace CostModel

/-- Memory for some atoms, each of which hears all incoming atoms. -/
def sdram (cost : CostModel) (atoms incomingAtoms : Nat) : Nat :=
  cost.fixedSdram + cost.sdramPerAtom * atoms + cost.sdramPerSynapse * incomingAtoms * atoms

def cycles (cost : CostModel) (atoms : Nat) : Nat := cost.fixedCycles + cost.cyclesPerAtom * atoms

def resources (cost : CostModel) (atoms incomingAtoms : Nat) : Resources where
  cores := 1
  sdram := cost.sdram atoms incomingAtoms % UInt64.size
  cycles := cost.cycles atoms % UInt64.size

end CostModel

end MulticastMesh.Graph
