import MulticastMesh.Failure
import MulticastMesh.Graph.Application
import MulticastMesh.Graph.MachineGraph
import MulticastMesh.Mesh.Machine
import MulticastMesh.Placing.Config
/-!
# Problems and placed designs

A problem is what the user writes: a machine, vertices and edges between labels.  A placed design
is what placement makes of it.
-/

namespace MulticastMesh.Flow

open MulticastMesh.Graph (ApplicationGraph ApplicationVertex MachineGraph Traffic)
open Mesh (Machine MachineSpec)
open Layout (Placements)
open Placing (ReservedCore)

def defaultPartition : String := "spikes"

structure LabelledEdge where
  pre : String
  post : String
  partition : String := defaultPartition
  traffic : Traffic := .multicast
  deriving DecidableEq, Repr

structure Problem where
  machine : MachineSpec
  vertices : List ApplicationVertex
  edges : List LabelledEdge := []
  reserved : List ReservedCore := []
  deriving DecidableEq, Repr

structure PlacedDesign where
  machine : MachineSpec
  app : ApplicationGraph
  graph : MachineGraph
  placements : Placements
  deriving DecidableEq

def buildMachine (spec : MachineSpec) : Outcome Machine :=
  Outcome.during .buildingMachine (monadLift (Machine.ofSpec spec))

namespace Problem

def addEdge (g : ApplicationGraph) (e : LabelledEdge) : Outcome ApplicationGraph := do
  let some pre := g.idOfLabel? e.pre | throw ⟨[], .unknownEndpoint e.pre⟩
  let some post := g.idOfLabel? e.post | throw ⟨[], .unknownEndpoint e.post⟩
  g.addEdge ⟨pre, post, e.partition, e.traffic⟩

def applicationGraph (p : Problem) : Outcome ApplicationGraph := do
  let g ← p.vertices.foldlM (fun (g : ApplicationGraph) v => do
      let (_, g) ← g.addVertex v
      return g)
    ({} : ApplicationGraph)
  p.edges.foldlM addEdge g

end Problem

end MulticastMesh.Flow
