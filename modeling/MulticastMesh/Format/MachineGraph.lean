import MulticastMesh.Format.Application
import MulticastMesh.Graph.MachineGraph
/-!
# Format of machine graphs
-/

namespace MulticastMesh.Graph

open Json (list? nat32? nat64? string?)

def MachineVertexId.toJson (v : MachineVertexId) : Json := .nat v.index

def MachineVertexId.ofJson? (j : Json) : Option MachineVertexId :=
  (nat32? j).map MachineVertexId.mk

/-- Shape and start are only written if the atoms form a box. -/
def Slice.toJson (s : Slice) : Json :=
  let box := match s.box? with
    | none => []
    | some box => [("shape", .list .nat box.shape), ("start", .list .nat box.start)]
  .object ([("lo", .nat s.lo), ("hi", .nat s.hi)] ++ box)

/-- The fields of a slice as they are read, before they are checked. -/
structure SliceFields where
  lo : Nat
  hi : Nat
  shape? : Option (List Nat)
  start? : Option (List Nat)

def SliceFields.ofJson? (j : Json) : Option SliceFields := do
  let f ← j.fields? ["lo", "hi", "shape", "start"]
  return {
    lo := ← f.required "lo" nat32?
    hi := ← f.required "hi" nat32?
    shape? := ← f.maybe "shape" (list? nat32?)
    start? := ← f.maybe "start" (list? nat32?) }

def Slice.ofJson? (j : Json) : Option Slice := do
  let f ← SliceFields.ofJson? j
  (Slice.ofFields f.lo f.hi f.shape? f.start?).toOption

def Resources.toJson (r : Resources) : Json := .object [
  ("cores", .nat r.cores),
  ("sdram", .nat r.sdram),
  ("cpu_cycles", .nat r.cycles)]

def Resources.ofJson? (j : Json) : Option Resources := do
  let f ← j.fields? ["cores", "sdram", "cpu_cycles"]
  return {
    cores := ← f.required "cores" nat32?
    sdram := ← f.required "sdram" nat64?
    cycles := ← f.required "cpu_cycles" nat64? }

def MachineVertex.toJson (v : MachineVertex) : Json := .object [
  ("label", .string v.label),
  ("app_vertex", .option AppVertexId.toJson v.app?),
  ("index", .nat v.index),
  ("slice", v.slice.toJson),
  ("resources", v.resources.toJson),
  ("fixed_location", .option FixedLocation.toJson v.location?)]

def MachineVertex.ofJson? (j : Json) : Option MachineVertex := do
  let f ← j.fields?
    ["label", "app_vertex", "index", "slice", "resources", "fixed_location"]
  return {
    label := ← f.required "label" string?
    app? := ← f.optional "app_vertex" AppVertexId.ofJson?
    index := ← f.required "index" nat32?
    slice := ← f.required "slice" Slice.ofJson?
    resources := ← f.required "resources" Resources.ofJson?
    location? := ← f.maybe "fixed_location" FixedLocation.ofJson? }

def MachineEdge.toJson (e : MachineEdge) : Json :=
  .object [("pre", e.pre.toJson), ("post", e.post.toJson)]

def MachineEdge.ofJson? (j : Json) : Option MachineEdge := do
  let f ← j.fields? ["pre", "post"]
  return {
    pre := ← f.required "pre" MachineVertexId.ofJson?
    post := ← f.required "post" MachineVertexId.ofJson? }

def EdgePartition.toJson (p : EdgePartition) : Json := .object [
  ("pre", p.pre.toJson),
  ("identifier", .string p.identifier),
  ("traffic", p.traffic.toJson),
  ("edges", .list MachineEdge.toJson p.edges),
  ("graph_code", .option .nat p.owner?)]

def EdgePartition.ofJson? (j : Json) : Option EdgePartition := do
  let f ← j.fields? ["pre", "identifier", "traffic", "edges", "graph_code"]
  return {
    pre := ← f.required "pre" MachineVertexId.ofJson?
    identifier := ← f.required "identifier" string?
    traffic := ← f.required "traffic" Traffic.ofJson?
    edges := ← f.required "edges" (list? MachineEdge.ofJson?)
    owner? := ← f.optional "graph_code" nat64? }

def MachineGraph.toJson (g : MachineGraph) : Json := .object [
  ("code", .nat g.code),
  ("vertices", .list MachineVertex.toJson g.vertices.toList),
  ("by_app_vertex", .list (Json.list MachineVertexId.toJson) g.byApp.toList),
  ("partitions", .list EdgePartition.toJson g.partitions.toList),
  ("outgoing", .list (Json.list .nat) g.outgoing.toList)]

/-- Reads a graph as it is written; nothing is checked beyond the form of its parts. -/
def MachineGraph.ofJson? (j : Json) : Option MachineGraph := do
  let f ← j.fields? ["code", "vertices", "by_app_vertex", "partitions", "outgoing"]
  let code ← f.required "code" nat64?
  let vertices ← f.required "vertices" (list? MachineVertex.ofJson?)
  let byApp ← f.required "by_app_vertex" (list? (list? MachineVertexId.ofJson?))
  let partitions ← f.required "partitions" (list? EdgePartition.ofJson?)
  let outgoing ← f.required "outgoing" (list? (list? nat64?))
  return {
    code
    vertices := vertices.toArray
    byApp := byApp.toArray
    partitions := partitions.toArray
    outgoing := outgoing.toArray }

end MulticastMesh.Graph
