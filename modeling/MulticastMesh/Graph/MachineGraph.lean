import MulticastMesh.Graph.Cost
import MulticastMesh.Graph.EdgePartition
import MulticastMesh.Graph.Slice
/-!
# Machine graphs

Machine vertices, each of which runs on one core, and the partitions of the edges between them.
A failing operation leaves the graph as it was.
-/

namespace MulticastMesh.Graph

structure MachineVertex where
  label : String
  /-- The vertex it was cut from; none for vertices that stand for themselves. -/
  app? : Option AppVertexId
  /-- Position among the machine vertices of the same application vertex. -/
  index : Nat
  slice : Slice
  resources : Resources
  location? : Option FixedLocation
  deriving DecidableEq

structure MachineGraph where
  /-- Tells the graph from others; its partitions carry it. -/
  code : Nat
  vertices : Array MachineVertex
  /-- Machine vertices of each application vertex, in slice order. -/
  byApp : Array (List MachineVertexId)
  partitions : Array EdgePartition
  /-- Positions in `partitions` of the partitions that leave each vertex. -/
  outgoing : Array (List Nat)
  deriving DecidableEq

namespace MachineGraph

def empty (code appVertices : Nat) : MachineGraph where
  code := code
  vertices := #[]
  byApp := Array.replicate appVertices []
  partitions := #[]
  outgoing := #[]

def size (g : MachineGraph) : Nat := g.vertices.size

def partitionCount (g : MachineGraph) : Nat := g.partitions.size

def toList (g : MachineGraph) : List (MachineVertexId × MachineVertex) :=
  g.vertices.toList.zipIdx.map fun (v, i) => (⟨i⟩, v)

def vertex (g : MachineGraph) (id : MachineVertexId) : Except GraphError MachineVertex :=
  match g.vertices[id.index]? with
  | some v => .ok v
  | none => .error (.noMachineVertex id)

/-- Machine vertices of an application vertex, in slice order. -/
def verticesOf (g : MachineGraph) (app : AppVertexId) : List MachineVertexId :=
  g.byApp[app.index]?.getD []

def addVertex (g : MachineGraph) (v : MachineVertex) :
    Except GraphError (MachineVertexId × MachineGraph) :=
  let id : MachineVertexId := ⟨g.size⟩
  let extended : MachineGraph :=
    { g with vertices := g.vertices.push v, outgoing := g.outgoing.push [] }
  match v.app? with
  | none => .ok (id, extended)
  | some app =>
    if app.index < g.byApp.size then
      .ok (id, { extended with byApp := g.byApp.modify app.index (· ++ [id]) })
    else
      .error (.noAppVertex app)

def outgoingIndices (g : MachineGraph) (pre : MachineVertexId) : List Nat :=
  g.outgoing[pre.index]?.getD []

def outgoingPartitions (g : MachineGraph) (pre : MachineVertexId) : List EdgePartition :=
  (g.outgoingIndices pre).filterMap fun i => g.partitions[i]?

def outgoingPartition? (g : MachineGraph) (pre : MachineVertexId) (identifier : String) :
    Option EdgePartition :=
  (g.outgoingPartitions pre).find? fun p => p.identifier == identifier

def partitionIndex? (g : MachineGraph) (pre : MachineVertexId) (identifier : String) :
    Option Nat :=
  (g.outgoingIndices pre).find? fun i =>
    (g.partitions[i]?).any fun p => p.identifier == identifier

def addPartition (g : MachineGraph) (p : EdgePartition) : Except GraphError MachineGraph := do
  let _ ← g.vertex p.pre
  if (g.outgoingPartition? p.pre p.identifier).isSome then
    throw (.partitionTaken p.identifier p.pre)
  let p ← p.register g.code
  for edge in p.edges do
    let _ ← g.vertex edge.post
  return { g with
    partitions := g.partitions.push p
    outgoing := g.outgoing.modify p.pre.index (· ++ [g.partitions.size]) }

/-- Adds an edge to the partition that is there for it. -/
def extendPartition (g : MachineGraph) (edge : MachineEdge) (identifier : String)
    (traffic : Traffic) : Except GraphError MachineGraph := do
  let some index := g.partitionIndex? edge.pre identifier | throw (.noPartition identifier)
  let some p := g.partitions[index]? | throw (.noPartition identifier)
  if p.traffic ≠ traffic then
    throw (.trafficMismatch identifier edge.pre p.traffic traffic)
  let p ← p.addEdge edge g.code
  return { g with partitions := g.partitions.setIfInBounds index p }

/-- Adds an edge, and the partition that it belongs to if there is none yet. -/
def addEdge (g : MachineGraph) (edge : MachineEdge) (identifier : String) (traffic : Traffic) :
    Except GraphError MachineGraph := do
  let _ ← g.vertex edge.post
  let g ←
    if (g.outgoingPartition? edge.pre identifier).isSome then pure g
    else g.addPartition { pre := edge.pre, identifier, traffic }
  g.extendPartition edge identifier traffic

def multicastPartitions (g : MachineGraph) : List EdgePartition :=
  g.partitions.toList.filter EdgePartition.isMulticast

end MachineGraph

end MulticastMesh.Graph
