import MulticastMesh.Failure
import MulticastMesh.Graph.Application
/-!
# Vertices that share their slices

A same-size constraint ties two vertices; vertices joined by a chain of ties are sliced together
and must have equally many atoms.
-/

namespace MulticastMesh.Slicing

open MulticastMesh.Graph (AppVertexId ApplicationGraph ApplicationVertex GraphError)

def ties (g : ApplicationGraph) : Except GraphError (List (AppVertexId × AppVertexId)) := do
  let perVertex ← g.toList.mapM fun (id, v) =>
    v.tiedTo.mapM fun label =>
      match g.idOfLabel? label with
      | some other => .ok (id, other)
      | none => .error (.noTiedVertex v.label label)
  return perVertex.flatten

/-- Gives every member of two classes the smaller of their two names. -/
def mergeClasses (names : List Nat) (a b : Nat) : List Nat :=
  let a := names[a]?.getD a
  let b := names[b]?.getD b
  names.map fun name => if name = max a b then min a b else name

/-- For each vertex the smallest vertex that it is tied to, directly or over others. -/
def classNames (size : Nat) (pairs : List (AppVertexId × AppVertexId)) : List Nat :=
  pairs.foldl (fun names (a, b) => mergeClasses names a.index b.index) (List.range size)

def classes (names : List Nat) : List (List AppVertexId) :=
  let members := fun name =>
    (List.range names.length).filter fun i => names[i]? == some name
  ((List.range names.length).map members).filterMap fun
    | [] => none
    | group => some (group.map AppVertexId.mk)

/-- Checks that the members of a class have as many atoms as the first one. -/
def checkSizes (g : ApplicationGraph) : List AppVertexId → Outcome Unit
  | [] => .ok ()
  | first :: others => do
    let reference ← g.vertex first
    for id in others do
      let other ← g.vertex id
      if other.atoms ≠ reference.atoms then
        throw ⟨[], .slicing
          (.sizeMismatch other.label other.atoms reference.label reference.atoms)⟩

/-- The groups of vertices that share their slices. -/
def sameSizeGroups (g : ApplicationGraph) : Outcome (List (List AppVertexId)) := do
  let pairs ← ties g
  let groups := classes (classNames g.size pairs)
  groups.forM (checkSizes g)
  return groups

end MulticastMesh.Slicing
