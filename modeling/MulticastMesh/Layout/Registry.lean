import MulticastMesh.Layout.Placements
/-!
# Placements indexed twice

The placements by vertex and the vertices by core, in two maps that are written one after the
other.  A batch is checked as a whole before any of it is written.
-/

namespace MulticastMesh.Layout

open MulticastMesh.Graph (MachineVertexId)
open Mesh (Coord)

structure Registry where
  byVertex : Std.ExtTreeMap MachineVertexId Placement compare := ∅
  byCore : Std.ExtTreeMap (Coord × Nat) MachineVertexId compare := ∅

namespace Registry

abbrev Change := ExceptT PlacementError (StateM Registry)

def checkFree (p : Placement) : Change Unit := do
  let r ← get
  if r.byVertex.contains p.vertex then
    throw (.vertexPlaced p.vertex)
  if let some occupant := r.byCore[p.core]? then
    throw (.coreOccupied p.chip p.processor occupant)

/-- Writes a placement into both maps. -/
def write (p : Placement) : Change Unit := do
  modify fun r => { r with byCore := r.byCore.insert p.core p.vertex }
  modify fun r => { r with byVertex := r.byVertex.insert p.vertex p }

def add (p : Placement) : Change Unit := do
  checkFree p
  write p

/-- Vertices and cores of the members of a batch that were checked already. -/
structure Checked where
  vertices : Std.ExtTreeSet MachineVertexId compare := ∅
  cores : Std.ExtTreeMap (Coord × Nat) MachineVertexId compare := ∅

def check (seen : Checked) (p : Placement) : Change Checked := do
  checkFree p
  if seen.vertices.contains p.vertex then
    throw (.vertexPlaced p.vertex)
  if let some occupant := seen.cores[p.core]? then
    throw (.coreOccupied p.chip p.processor occupant)
  return { vertices := seen.vertices.insert p.vertex, cores := seen.cores.insert p.core p.vertex }

def addAll (batch : List Placement) : Change Unit := do
  let _ ← batch.foldlM check {}
  batch.forM write

def toList (r : Registry) : List Placement :=
  (r.byVertex.toList.map Prod.snd).mergeSort fun p q => p.vertex.index ≤ q.vertex.index

def ofList (l : List Placement) : Except PlacementError Registry :=
  match (addAll l).run.run {} with
  | (.ok (), r) => .ok r
  | (.error e, _) => .error e

end Registry

end MulticastMesh.Layout
