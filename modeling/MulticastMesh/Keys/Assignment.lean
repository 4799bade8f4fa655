import MulticastMesh.Failure
import MulticastMesh.Graph.MachineGraph
import MulticastMesh.Keys.KeyRange
/-!
# Assigned keys

Every multicast partition has a range of keys.  The ranges of the slices of one vertex share a
block: its top bits pick the slice, its bottom bits the atom.
-/

namespace MulticastMesh.Keys

open MulticastMesh.Graph (AppVertexId MachineGraph MachineVertexId)

structure PartitionKeys where
  vertex : MachineVertexId
  identifier : String
  range : KeyRange
  /-- Position of the vertex among the slices of its application vertex. -/
  index : Nat
  deriving DecidableEq

/-- The block that the slices of one application vertex share for one partition. -/
structure VertexBlock where
  vertex : AppVertexId
  identifier : String
  range : KeyRange
  /-- Mask that matches the keys of one slice. -/
  sliceMask : Key
  atomBits : Nat
  /-- Index of the last slice. -/
  lastIndex : Nat
  deriving DecidableEq

structure Assignment where
  keys : Std.ExtTreeMap (MachineVertexId × String) PartitionKeys compare
  blocks : Std.ExtTreeMap (AppVertexId × String) VertexBlock compare

/-- Keys of one partition by the label of its source. -/
structure KeyRecord where
  label : String
  identifier : String
  range : KeyRange
  deriving DecidableEq

namespace Assignment

def empty : Assignment := ⟨∅, ∅⟩

def addKeys (a : Assignment) (k : PartitionKeys) : Assignment :=
  { a with keys := a.keys.insert (k.vertex, k.identifier) k }

def addBlock (a : Assignment) (b : VertexBlock) : Assignment :=
  { a with blocks := a.blocks.insert (b.vertex, b.identifier) b }

def keys? (a : Assignment) (vertex : MachineVertexId) (identifier : String) :
    Option PartitionKeys :=
  a.keys[(vertex, identifier)]?

def keysOf (a : Assignment) (vertex : MachineVertexId) (identifier : String) :
    Outcome PartitionKeys :=
  match a.keys? vertex identifier with
  | some k => .ok k
  | none => .error ⟨[], .noKeys identifier vertex⟩

def block? (a : Assignment) (vertex : AppVertexId) (identifier : String) :
    Option VertexBlock :=
  a.blocks[(vertex, identifier)]?

def toList (a : Assignment) : List PartitionKeys := a.keys.toList.map Prod.snd

def blockList (a : Assignment) : List VertexBlock := a.blocks.toList.map Prod.snd

def size (a : Assignment) : Nat := a.keys.size

def records (a : Assignment) (g : MachineGraph) : Outcome (List KeyRecord) :=
  a.toList.mapM fun k => do
    let vertex ← g.vertex k.vertex
    return ⟨vertex.label, k.identifier, k.range⟩

end Assignment

end MulticastMesh.Keys
