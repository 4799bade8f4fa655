import MulticastMesh.Flow.Problem
import MulticastMesh.Format.MachineGraph
/-!
# Formats of problems and placed designs
-/

namespace MulticastMesh

open Json (list? nat8? nat32? string?)

namespace Layout

open MulticastMesh.Graph (MachineVertexId)

def Placement.toJson (p : Placement) : Json := .object [
  ("vertex", p.vertex.toJson),
  ("x", .nat p.chip.x),
  ("y", .nat p.chip.y),
  ("p", .nat p.processor)]

def Placement.ofJson? (j : Json) : Option Placement := do
  let f ← j.fields? ["vertex", "x", "y", "p"]
  let vertex ← f.required "vertex" MachineVertexId.ofJson?
  let x ← f.required "x" nat32?
  let y ← f.required "y" nat32?
  return { vertex, chip := ⟨x, y⟩, processor := ← f.required "p" nat8? }

def Placements.toJson (s : Placements) : Json := .list Placement.toJson s.toList

/-- Reads placements in any order; they must not clash. -/
def Placements.ofJson? (j : Json) : Option Placements := do
  let placements ← list? Placement.ofJson? j
  (Placements.ofList placements).toOption

end Layout

namespace Placing

def ReservedCore.toJson (r : ReservedCore) : Json :=
  .object [("x", .nat r.chip.x), ("y", .nat r.chip.y), ("p", .nat r.processor)]

def ReservedCore.ofJson? (j : Json) : Option ReservedCore := do
  let f ← j.fields? ["x", "y", "p"]
  let x ← f.required "x" nat32?
  let y ← f.required "y" nat32?
  return { chip := ⟨x, y⟩, processor := ← f.required "p" nat8? }

end Placing

namespace Flow

open MulticastMesh.Graph (ApplicationGraph ApplicationVertex MachineGraph Traffic)
open Mesh (MachineSpec)
open Layout (Placements)
open Placing (ReservedCore)

def LabelledEdge.toJson (e : LabelledEdge) : Json := .object [
  ("pre", .string e.pre),
  ("post", .string e.post),
  ("partition", .string e.partition),
  ("traffic", e.traffic.toJson)]

def LabelledEdge.ofJson? (j : Json) : Option LabelledEdge := do
  let f ← j.fields? ["pre", "post", "partition", "traffic"]
  return {
    pre := ← f.required "pre" string?
    post := ← f.required "post" string?
    partition := ← f.defaulted "partition" string? defaultPartition
    traffic := ← f.defaulted "traffic" Traffic.ofJson? .multicast }

def Problem.toJson (p : Problem) : Json := .object [
  ("machine", p.machine.toJson),
  ("vertices", .list ApplicationVertex.toJson p.vertices),
  ("edges", .list LabelledEdge.toJson p.edges),
  ("reserved_cores", .list ReservedCore.toJson p.reserved)]

def Problem.ofJson? (j : Json) : Option Problem := do
  let f ← j.fields? ["machine", "vertices", "edges", "reserved_cores"]
  return {
    machine := ← f.required "machine" MachineSpec.ofJson?
    vertices := ← f.required "vertices" (list? ApplicationVertex.ofJson?)
    edges := ← f.defaulted "edges" (list? LabelledEdge.ofJson?) []
    reserved := ← f.defaulted "reserved_cores" (list? ReservedCore.ofJson?) [] }

def PlacedDesign.toJson (d : PlacedDesign) : Json := .object [
  ("machine", d.machine.toJson),
  ("application_graph", d.app.toJson),
  ("machine_graph", d.graph.toJson),
  ("placements", d.placements.toJson)]

def PlacedDesign.ofJson? (j : Json) : Option PlacedDesign := do
  let f ← j.fields? ["machine", "application_graph", "machine_graph", "placements"]
  return {
    machine := ← f.required "machine" MachineSpec.ofJson?
    app := ← f.required "application_graph" ApplicationGraph.ofJson?
    graph := ← f.required "machine_graph" MachineGraph.ofJson?
    placements := ← f.required "placements" Placements.ofJson? }

end Flow

end MulticastMesh
