import MulticastMesh.Graph.MachineGraph
/-!
# Machine graphs changed in place

The operations on machine graphs write by write, for a graph that stays where it is.  What an
operation wrote before it failed stays written.
-/

namespace MulticastMesh.Graph

abbrev Edit := ExceptT GraphError (StateM MachineGraph)

namespace Edit

def result {α : Type} (x : Except GraphError α) : Edit α := ExceptT.mk (pure x)

/-- Adds a vertex at the end, after it is listed with its application vertex. -/
def addVertex (v : MachineVertex) : Edit MachineVertexId := do
  let id : MachineVertexId := ⟨(← get).size⟩
  match v.app? with
  | none => pure ()
  | some app =>
    if app.index < (← get).byApp.size then
      modify fun g => { g with byApp := g.byApp.modify app.index (· ++ [id]) }
    else
      throw (.noAppVertex app)
  modify fun g => { g with vertices := g.vertices.push v }
  modify fun g => { g with outgoing := g.outgoing.push [] }
  return id

def addPartition (p : EdgePartition) : Edit Unit := do
  let g ← get
  let _ ← result (g.vertex p.pre)
  if (g.outgoingPartition? p.pre p.identifier).isSome then
    throw (.partitionTaken p.identifier p.pre)
  let p ← result (p.register g.code)
  p.edges.forM fun edge => do
    let _ ← result (g.vertex edge.post)
  modify fun g =>
    { g with outgoing := g.outgoing.modify p.pre.index (· ++ [g.partitions.size]) }
  modify fun g => { g with partitions := g.partitions.push p }

def extendPartition (edge : MachineEdge) (identifier : String) (traffic : Traffic) :
    Edit Unit := do
  let g ← get
  let some index := g.partitionIndex? edge.pre identifier | throw (.noPartition identifier)
  let some p := g.partitions[index]? | throw (.noPartition identifier)
  if p.traffic ≠ traffic then
    throw (.trafficMismatch identifier edge.pre p.traffic traffic)
  let p ← result (p.addEdge edge g.code)
  modify fun g => { g with partitions := g.partitions.setIfInBounds index p }

def addEdge (edge : MachineEdge) (identifier : String) (traffic : Traffic) : Edit Unit := do
  let g ← get
  let _ ← result (g.vertex edge.post)
  if (g.outgoingPartition? edge.pre identifier).isNone then
    addPartition { pre := edge.pre, identifier, traffic }
  extendPartition edge identifier traffic

end Edit

end MulticastMesh.Graph
