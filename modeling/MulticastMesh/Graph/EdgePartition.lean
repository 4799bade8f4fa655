import MulticastMesh.Graph.Error
/-!
# Edge partitions

The edges that leave one machine vertex under one identifier.  A multicast partition gets exactly
one range of keys.  A partition belongs to at most one graph, which it knows by the graph's code.
-/

namespace MulticastMesh.Graph

structure MachineEdge where
  pre : MachineVertexId
  post : MachineVertexId
  deriving DecidableEq, Repr

structure EdgePartition where
  pre : MachineVertexId
  identifier : String
  traffic : Traffic
  edges : List MachineEdge := []
  owner? : Option Nat := none
  deriving DecidableEq, Repr

namespace EdgePartition

/-- Vertices that the edges lead to, each once, in the order of the edges. -/
def destinations (p : EdgePartition) : List MachineVertexId :=
  (p.edges.map MachineEdge.post).eraseDups

/-- Binds a partition to the graph with a code, unless another graph owns it. -/
def register (p : EdgePartition) (code : Nat) : Except GraphError EdgePartition :=
  if p.owner?.all (· == code) then .ok { p with owner? := some code }
  else .error (.ownedByOtherGraph p.identifier)

/-- Adds an edge on behalf of the graph with a code; an edge that is there already stays once. -/
def addEdge (p : EdgePartition) (edge : MachineEdge) (code : Nat) :
    Except GraphError EdgePartition :=
  if p.owner? ≠ some code then
    .error (.ownedByOtherGraph p.identifier)
  else if edge.pre ≠ p.pre then
    .error (.foreignEdge edge.pre p.pre p.identifier)
  else if p.edges.contains edge then
    .ok p
  else
    .ok { p with edges := p.edges ++ [edge] }

/-- Whether the partition needs keys and routes. -/
def isMulticast (p : EdgePartition) : Bool :=
  p.traffic == .multicast && !p.edges.isEmpty

end EdgePartition

end MulticastMesh.Graph
