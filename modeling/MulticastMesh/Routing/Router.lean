import MulticastMesh.Graph.MachineGraph
import MulticastMesh.Routing.Cheapest
import MulticastMesh.Routing.Steiner
/-!
# Routing all partitions

Every multicast partition gets a tree from its source to the chips of its destinations, one after
another in the order of the graph.
-/

namespace MulticastMesh.Routing

open MulticastMesh.Graph (EdgePartition MachineGraph)
open Mesh (Coord Machine)
open Layout (Placements)

inductive RouterKind where
  | cheapest
  | steiner
  deriving DecidableEq, Repr

def RouterKind.ofName (name : String) : Except Cause RouterKind :=
  match name with
  | "dijkstra" => .ok .cheapest
  | "steiner" => .ok .steiner
  | _ => .error (.unknownRouter name)

/-- A way to build trees, with what it remembers of earlier ones. -/
inductive Router where
  | cheapest (router : Cheapest.Router)
  | steiner

namespace Router

def fresh (kind : RouterKind) (pricing : Cheapest.Pricing) : Router :=
  match kind with
  | .cheapest => cheapest (.fresh pricing)
  | .steiner => steiner

def tree (r : Router) (m : Machine) (source : Coord) (destinations : List Coord)
    (paths : PathTable) : Outcome Tree :=
  match r with
  | cheapest r => r.tree m source destinations paths
  | steiner => Steiner.tree m source destinations

/-- Notes the links of a committed tree; what was noted before a failure stays. -/
def claimLinks (r : Router) (links : List LinkFrom) : Except RoutingError Unit × Router :=
  match r with
  | cheapest r =>
    let (result, r) := (links.forM Cheapest.claim).run.run r
    (result, cheapest r)
  | steiner => (.ok (), steiner)

end Router

def destinationsOf (placements : Placements) (p : EdgePartition) :
    Except Layout.PlacementError Destinations :=
  p.destinations.foldlM (fun d v => do
      let placement ← placements.placementOf v
      return d.add placement.chip placement.processor)
    .empty

def routePartition (m : Machine) (g : MachineGraph) (placements : Placements)
    (state : Router × PathTable) (p : EdgePartition) : Outcome (Router × PathTable) := do
  let (router, paths) := state
  let vertex ← g.vertex p.pre
  let source ← placements.placementOf p.pre
  let destinations ← destinationsOf placements p
  let tree ← router.tree m source.chip destinations.chips paths
  let (claimed, paths) :=
    (tree.commit destinations source.processor ⟨vertex.app?, p.identifier, p.pre⟩).run.run paths
  let claimed ← claimed
  let (result, router) := router.claimLinks claimed
  result
  return (router, paths)

def routeAll (router : Router) (m : Machine) (g : MachineGraph) (placements : Placements) :
    Outcome PathTable := do
  let (_, paths) ← g.multicastPartitions.foldlM (fun state p => do
      let vertex ← g.vertex p.pre
      Outcome.during (.routingPartition p.identifier vertex.label)
        (routePartition m g placements state p))
    (router, PathTable.empty)
  return paths

end MulticastMesh.Routing
