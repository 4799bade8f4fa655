import MulticastMesh.Flow.Problem
import MulticastMesh.Placing.Search
/-!
# From a problem to a placed design
-/

namespace MulticastMesh.Flow

open MulticastMesh.Graph (MachineGraph)
open Placing (PlacerConfig)

def placedGraphCode : Nat := 1

/-- Cuts a problem's vertices into slices, places the slices and adds the edges between them. -/
def placeDesign (p : Problem) (config : PlacerConfig) : Outcome PlacedDesign := do
  let machine ← buildMachine p.machine
  let app ← p.applicationGraph
  let config := { config with reserved := config.reserved ++ p.reserved }
  let graph ← Outcome.during .partitioning (Slicing.sliceGraph placedGraphCode app machine)
  let placements ← Outcome.during .placing (Placing.placeGraph app graph machine config)
  let expansion := placements.toList.forM fun placement =>
    Slicing.expandEdges app placement.vertex
  let (result, graph) := expansion.run.run graph
  result
  return { machine := p.machine, app, graph, placements }

end MulticastMesh.Flow
