import MulticastMesh.Graph.Edit
import MulticastMesh.Slicing.Vertices
/-!
# Machine vertices of a vertex, and the edges between them

An application edge stands for an edge from every slice of its source to every slice of its
target.
-/

namespace MulticastMesh.Slicing

open MulticastMesh.Graph (AppVertexId ApplicationEdge ApplicationGraph GraphError MachineEdge
  MachineGraph MachineVertexId Slice Splitter)

/-- Machine vertices that must share a chip, with the memory they need together. -/
structure ChipGroup where
  vertices : List MachineVertexId
  sdram : Nat
  deriving DecidableEq, Repr

/-- Machine vertices of a vertex with their slices; all of them send and receive its traffic. -/
def slicesOf (g : MachineGraph) (id : AppVertexId) :
    Except GraphError (List (MachineVertexId × Slice)) :=
  (g.verticesOf id).mapM fun v => do
    return (v, (← g.vertex v).slice)

private def sdramOf (g : MachineGraph) (v : MachineVertexId) : Except GraphError Nat := do
  return (← g.vertex v).resources.sdram

def chipGroups (splitter : Splitter) (g : MachineGraph) (id : AppVertexId) :
    Except GraphError (List ChipGroup) := do
  let vertices := g.verticesOf id
  let memory ← vertices.mapM (sdramOf g)
  match splitter with
  | .applicationDefined _ true =>
    return if vertices.isEmpty then [] else [⟨vertices, memory.foldr (· + ·) 0⟩]
  | _ => return List.zipWith (fun v sdram => ⟨[v], sdram⟩) vertices memory

/-- The machine edges that leave a vertex, each with the application edge it stands for and the
label of its target. -/
def edgesFrom (app : ApplicationGraph) (g : MachineGraph) (source : MachineVertexId)
    (pre : AppVertexId) : Except GraphError (List (MachineEdge × ApplicationEdge × String)) := do
  let perEdge ← (app.outgoing pre).mapM fun edge => do
    let post ← app.vertex edge.post
    let targets ← slicesOf g edge.post
    return targets.map fun (target, _) => (⟨source, target⟩, edge, post.label)
  return perEdge.flatten

abbrev GraphChange := ExceptT Failure (StateM MachineGraph)

def addExpanded (preLabel : String) (edge : MachineEdge) (standsFor : ApplicationEdge)
    (postLabel : String) : GraphChange Unit :=
  ExceptT.adapt (fun e => ⟨[.expandingEdge preLabel postLabel], .graph e⟩)
    (Graph.Edit.addEdge edge standsFor.partition standsFor.traffic)

/-- Adds the machine edges that leave a vertex.  Edges added before one that fails stay. -/
def expandEdges (app : ApplicationGraph) (source : MachineVertexId) : GraphChange Unit := do
  let g ← get
  let vertex ← ExceptT.mk (pure (Outcome.lift .graph (g.vertex source)))
  let some pre := vertex.app? | return ()
  let preVertex ← ExceptT.mk (pure (Outcome.lift .graph (app.vertex pre)))
  let edges ← ExceptT.mk (pure (Outcome.lift .graph (edgesFrom app g source pre)))
  edges.forM fun (edge, standsFor, postLabel) =>
    addExpanded preVertex.label edge standsFor postLabel

end MulticastMesh.Slicing
