import MulticastMesh.Graph.MachineGraph
import MulticastMesh.Slicing.Cut
/-!
# From application vertices to machine vertices

Every slice of a vertex becomes one machine vertex, which must fit on a core.
-/

namespace MulticastMesh.Slicing

open MulticastMesh.Graph (AppVertexId ApplicationGraph CoreBudget MachineGraph MachineVertex Slice)
open Mesh (Machine)

/-- Atoms of the vertices with multicast edges into a vertex, once for every edge. -/
def incomingAtoms (g : ApplicationGraph) (id : AppVertexId) : Except Graph.GraphError Nat := do
  let sources := (g.incoming id).filter fun edge => edge.traffic == .multicast
  let atoms ← sources.mapM fun edge => do
    let source ← g.vertex edge.pre
    return source.atoms
  return atoms.foldr (· + ·) 0

def members (g : ApplicationGraph) : Except Graph.GraphError (List Member) :=
  g.toList.mapM fun (id, vertex) => do
    return { id, vertex, incomingAtoms := ← incomingAtoms g id }

/-- Slices of a group of vertices; vertices without atoms have none. -/
def groupSlices (all : List Member) (budget : CoreBudget) (group : List AppVertexId) :
    Outcome (List Slice) :=
  match group.filterMap fun id => all[id.index]? with
  | [] => .ok []
  | first :: others =>
    if first.vertex.atoms = 0 then .ok []
    else Outcome.during (.slicing first.vertex.label) (Team.slices ⟨first, others, budget⟩)

def createVertices (m : Member) (slices : List Slice) (budget : CoreBudget) :
    Outcome (List MachineVertex) := do
  let location? ← m.vertex.fixedLocation?
  slices.zipIdx.mapM fun (slice, index) => do
    let resources := m.resources slice.count
    if !resources.fitsCore budget then
      throw ⟨[], .slicing (.sliceDoesNotFit m.vertex.label slice resources budget)⟩
    return {
      label := s!"{m.vertex.label}:{slice.text}"
      app? := some m.id
      index, slice, resources, location? }

/-- Cuts every vertex into machine vertices.  The new graph has no edges yet. -/
def sliceGraph (code : Nat) (g : ApplicationGraph) (machine : Machine) :
    Outcome MachineGraph := do
  let budget := machine.coreBudget
  let all ← members g
  let groups ← sameSizeGroups g
  let cuts ← groups.mapM fun group => do
    return (group, ← groupSlices all budget group)
  let slicesOf := fun (id : AppVertexId) =>
    ((cuts.find? fun cut => cut.1.contains id).map Prod.snd).getD []
  all.foldlM (fun graph m => do
      let vertices ← Outcome.during (.creatingVertices m.vertex.label)
        (createVertices m (slicesOf m.id) budget)
      vertices.foldlM (fun graph v => do
        let (_, graph) ← graph.addVertex v
        return graph) graph)
    (MachineGraph.empty code g.size)

end MulticastMesh.Slicing
