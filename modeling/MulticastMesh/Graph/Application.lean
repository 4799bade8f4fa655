import MulticastMesh.Graph.Cost
import MulticastMesh.Graph.Error
/-!
# Application graphs

What the user describes: vertices made of atoms, with a rule for cutting them into slices, costs
and constraints, and edges that leave a vertex under an identifier.
-/

namespace MulticastMesh.Graph

inductive Splitter where
  /-- The largest slices that fit a core. -/
  | legacy
  /-- Slices of a given size. -/
  | fixedSlice (atomsPerCore : Nat)
  /-- The listed intervals, possibly all on one chip. -/
  | applicationDefined (slices : List (Nat × Nat)) (sameChip : Bool)
  deriving DecidableEq, Repr

inductive Constraint where
  | maxAtomsPerCore (max : Nat)
  | sameAtomsAs (label : String)
  | chipAndCore (x y : Nat) (core? : Option Nat)
  /-- Keys of a partition, or of every partition if none is named. -/
  | fixedKeyAndMask (key mask : BitVec 32) (partition? : Option String)
  deriving DecidableEq, Repr

structure ApplicationVertex where
  label : String
  atoms : Nat
  maxAtoms? : Option Nat := none
  cost : CostModel := {}
  splitter : Splitter := .legacy
  constraints : List Constraint := []
  deriving DecidableEq, Repr

/-- The greatest 32-bit number, which stands for a limit that was not set. -/
def unboundedAtoms : Nat := UInt32.size - 1

namespace ApplicationVertex

/-- The smallest limit set on the atoms of one core. -/
def maxAtomsPerCore (v : ApplicationVertex) : Nat :=
  let limits := v.constraints.filterMap fun
    | .maxAtomsPerCore max => some max
    | _ => none
  (limits ++ v.maxAtoms?.toList).min?.getD unboundedAtoms

/-- Labels of the vertices that must be sliced like this one. -/
def tiedTo (v : ApplicationVertex) : List String :=
  v.constraints.filterMap fun
    | .sameAtomsAs label => some label
    | _ => none

private def agreedLocation (label : String) :
    Option FixedLocation → List Constraint → Except GraphError (Option FixedLocation)
  | found, [] => .ok found
  | found, .chipAndCore x y core? :: rest =>
    let location : FixedLocation := ⟨⟨x, y⟩, core?⟩
    match found with
    | none => agreedLocation label (some location) rest
    | some first =>
      if first = location then agreedLocation label (some location) rest
      else .error (.conflictingLocations label first location)
  | found, _ :: rest => agreedLocation label found rest

/-- The one place that the constraints fix, if any does. -/
def fixedLocation? (v : ApplicationVertex) : Except GraphError (Option FixedLocation) :=
  agreedLocation v.label none v.constraints

/-- Key and mask that the first matching constraint fixes for a partition. -/
def fixedKeyAndMask? (v : ApplicationVertex) (partition : String) :
    Option (BitVec 32 × BitVec 32) :=
  v.constraints.findSome? fun
    | .fixedKeyAndMask key mask partition? =>
      if partition?.all (· == partition) then some (key, mask) else none
    | _ => none

end ApplicationVertex

structure ApplicationEdge where
  pre : AppVertexId
  post : AppVertexId
  partition : String
  traffic : Traffic
  deriving DecidableEq, Repr

structure ApplicationGraph where
  vertices : Array ApplicationVertex := #[]
  edges : Array ApplicationEdge := #[]
  deriving DecidableEq, Repr

namespace ApplicationGraph

def size (g : ApplicationGraph) : Nat := g.vertices.size

def toList (g : ApplicationGraph) : List (AppVertexId × ApplicationVertex) :=
  g.vertices.toList.zipIdx.map fun (v, i) => (⟨i⟩, v)

def vertex (g : ApplicationGraph) (id : AppVertexId) : Except GraphError ApplicationVertex :=
  match g.vertices[id.index]? with
  | some v => .ok v
  | none => .error (.noAppVertex id)

def idOfLabel? (g : ApplicationGraph) (label : String) : Option AppVertexId :=
  (g.vertices.toList.findIdx? fun v => v.label == label).map fun i => ⟨i⟩

/-- Adds a vertex at the end; its label must be new. -/
def addVertex (g : ApplicationGraph) (v : ApplicationVertex) :
    Except GraphError (AppVertexId × ApplicationGraph) :=
  if (g.idOfLabel? v.label).isSome then .error (.labelTaken v.label)
  else .ok (⟨g.size⟩, { g with vertices := g.vertices.push v })

/-- Adds an edge at the end; both of its vertices must exist. -/
def addEdge (g : ApplicationGraph) (edge : ApplicationEdge) :
    Except GraphError ApplicationGraph := do
  let _ ← g.vertex edge.pre
  let _ ← g.vertex edge.post
  return { g with edges := g.edges.push edge }

def outgoing (g : ApplicationGraph) (pre : AppVertexId) : List ApplicationEdge :=
  g.edges.toList.filter fun edge => edge.pre == pre

def incoming (g : ApplicationGraph) (post : AppVertexId) : List ApplicationEdge :=
  g.edges.toList.filter fun edge => edge.post == post

end ApplicationGraph

end MulticastMesh.Graph
