import MulticastMesh.Graph.Basic
import MulticastMesh.Text.Quoted
/-!
# What can be wrong with a graph

Each cause belongs to one of four kinds: a value out of range, a name taken twice, a name that
stands for nothing, and a partition offered to a graph that does not own it.
-/

namespace MulticastMesh.Graph

open Text

inductive GraphError where
  | sliceReversed (lo hi : Nat)
  | sliceDimensions (shape start : List Nat)
  | sliceVolume (shape : List Nat) (volume atoms : Nat)
  | sliceShapeAlone
  | conflictingLocations (label : String) (first second : FixedLocation)
  | foreignEdge (source owner : MachineVertexId) (identifier : String)
  | trafficMismatch (identifier : String) (source : MachineVertexId) (carried wanted : Traffic)
  | labelTaken (label : String)
  | partitionTaken (identifier : String) (source : MachineVertexId)
  | noAppVertex (vertex : AppVertexId)
  | noMachineVertex (vertex : MachineVertexId)
  | noPartition (identifier : String)
  | noTiedVertex (label tiedTo : String)
  | ownedByOtherGraph (identifier : String)
  deriving DecidableEq, Repr

namespace GraphError

def message : GraphError → String
  | sliceReversed lo hi => s!"invalid parameter: slice hi atom {hi} is below lo atom {lo}"
  | sliceDimensions shape start =>
    s!"invalid parameter: slice shape {bracketed shape} and start {bracketed start} " ++
      "differ in dimensions"
  | sliceVolume shape volume atoms =>
    s!"invalid parameter: slice shape {bracketed shape} holds {volume} atoms, not {atoms}"
  | sliceShapeAlone => "invalid parameter: slice shape and start must be given together"
  | conflictingLocations label first second =>
    s!"invalid parameter: {label} has conflicting chip constraints {first.text} and " ++
      second.text
  | foreignEdge source owner identifier =>
    s!"invalid parameter: edge from {source.text} added to partition {quoted identifier} " ++
      s!"of {owner.text}"
  | trafficMismatch identifier source carried wanted =>
    s!"invalid parameter: partition {quoted identifier} of {source.text} carries " ++
      s!"{carried.text} traffic, not {wanted.text}"
  | labelTaken label => s!"vertex {quoted label} already exists"
  | partitionTaken identifier source =>
    s!"partition {quoted identifier} of {source.text} already exists"
  | noAppVertex vertex => s!"application vertex {vertex.text} does not exist"
  | noMachineVertex vertex => s!"machine vertex {vertex.text} does not exist"
  | noPartition identifier => s!"partition {quoted identifier} does not exist"
  | noTiedVertex label tiedTo =>
    s!"vertex {quoted tiedTo} named in a same-size constraint of {label} does not exist"
  | ownedByOtherGraph identifier =>
    s!"illegal attempt to add partition {quoted identifier} to a second graph"

end GraphError

end MulticastMesh.Graph
