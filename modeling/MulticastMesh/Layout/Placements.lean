import MulticastMesh.Graph.Basic
/-!
# Placements

Which core each machine vertex runs on.  No vertex is placed twice and no core holds two vertices;
both are part of the type, and the list is kept in the order of the vertices.
-/

namespace MulticastMesh.Layout

open MulticastMesh.Graph (MachineVertexId)
open Mesh (Coord)

structure Placement where
  vertex : MachineVertexId
  chip : Coord
  processor : Nat
  deriving DecidableEq, Repr

def Placement.core (p : Placement) : Coord × Nat := (p.chip, p.processor)

inductive PlacementError where
  | vertexPlaced (vertex : MachineVertexId)
  | coreOccupied (chip : Coord) (processor : Nat) (occupant : MachineVertexId)
  | notPlaced (vertex : MachineVertexId)
  deriving DecidableEq, Repr

def PlacementError.message : PlacementError → String
  | .vertexPlaced v => s!"vertex {v.text} is already placed"
  | .coreOccupied chip p v =>
    s!"core ({chip.x}, {chip.y}, {p}) is already occupied by {v.text}"
  | .notPlaced v => s!"vertex {v.text} has no placement"

structure Placements where
  toList : List Placement
  sorted : toList.Pairwise fun a b => a.vertex.index < b.vertex.index
  injective : toList.Pairwise fun a b => a.core ≠ b.core
  deriving DecidableEq

/-- Puts a placement in front of the first one with a greater vertex. -/
def insertByVertex (p : Placement) : List Placement → List Placement
  | [] => [p]
  | q :: rest =>
    if p.vertex.index < q.vertex.index then p :: q :: rest else q :: insertByVertex p rest

@[simp] theorem mem_insertByVertex {p q : Placement} {l : List Placement} :
    q ∈ insertByVertex p l ↔ q = p ∨ q ∈ l := by
  induction l with
  | nil => simp [insertByVertex]
  | cons r rest ih =>
    unfold insertByVertex
    split
    · simp
    · simp only [List.mem_cons, ih]
      constructor <;> rintro (h | h | h) <;> simp [h]

private theorem sorted_insertByVertex {p : Placement} {l : List Placement}
    (sorted : l.Pairwise fun a b => a.vertex.index < b.vertex.index)
    (fresh : ∀ q ∈ l, q.vertex ≠ p.vertex) :
    (insertByVertex p l).Pairwise fun a b => a.vertex.index < b.vertex.index := by
  induction l with
  | nil => simp [insertByVertex]
  | cons q rest ih =>
    obtain ⟨least, sorted⟩ := List.pairwise_cons.1 sorted
    unfold insertByVertex
    split
    · next h =>
      refine List.pairwise_cons.2 ⟨?_, List.pairwise_cons.2 ⟨least, sorted⟩⟩
      intro r hr
      rcases List.mem_cons.1 hr with rfl | hr
      · exact h
      · exact Nat.lt_trans h (least r hr)
    · next h =>
      have different : q.vertex.index ≠ p.vertex.index := by
        intro same
        apply fresh q (by simp)
        cases hq : q.vertex
        cases hp : p.vertex
        simp_all
      refine List.pairwise_cons.2 ⟨?_, ih sorted fun r hr => fresh r (by simp [hr])⟩
      intro r hr
      rcases mem_insertByVertex.1 hr with rfl | hr
      · omega
      · exact least r hr

private theorem injective_insertByVertex {p : Placement} {l : List Placement}
    (injective : l.Pairwise fun a b => a.core ≠ b.core) (free : ∀ q ∈ l, q.core ≠ p.core) :
    (insertByVertex p l).Pairwise fun a b => a.core ≠ b.core := by
  induction l with
  | nil => simp [insertByVertex]
  | cons q rest ih =>
    unfold insertByVertex
    split
    · exact List.pairwise_cons.2 ⟨fun r hr => (free r hr).symm, injective⟩
    · obtain ⟨different, injective⟩ := List.pairwise_cons.1 injective
      refine List.pairwise_cons.2 ⟨?_, ih injective fun r hr => free r (by simp [hr])⟩
      intro r hr
      rcases mem_insertByVertex.1 hr with rfl | hr
      · exact free q (by simp)
      · exact different r hr

namespace Placements

def empty : Placements := ⟨[], .nil, .nil⟩

def size (s : Placements) : Nat := s.toList.length

def isEmpty (s : Placements) : Bool := s.toList.isEmpty

def find? (s : Placements) (v : MachineVertexId) : Option Placement :=
  s.toList.find? fun p => p.vertex == v

def isPlaced (s : Placements) (v : MachineVertexId) : Bool := (s.find? v).isSome

def placementOf (s : Placements) (v : MachineVertexId) : Except PlacementError Placement :=
  match s.find? v with
  | some p => .ok p
  | none => .error (.notPlaced v)

def onCore? (s : Placements) (chip : Coord) (processor : Nat) : Option Placement :=
  s.toList.find? fun p => p.core == (chip, processor)

def vertexOn? (s : Placements) (chip : Coord) (processor : Nat) : Option MachineVertexId :=
  (s.onCore? chip processor).map Placement.vertex

/-- What stands in the way of a placement: the vertex is looked at before the core. -/
def clash? (s : Placements) (p : Placement) : Option PlacementError :=
  match s.find? p.vertex with
  | some _ => some (.vertexPlaced p.vertex)
  | none =>
    match s.onCore? p.chip p.processor with
    | some q => some (.coreOccupied p.chip p.processor q.vertex)
    | none => none

theorem vertex_ne_of_clash?_eq_none {s : Placements} {p : Placement} (h : s.clash? p = none) :
    ∀ q ∈ s.toList, q.vertex ≠ p.vertex := by
  intro q hq same
  unfold clash? find? at h
  split at h
  · cases h
  · next none_found =>
    have := List.find?_eq_none.1 none_found q hq
    simp [same] at this

theorem core_ne_of_clash?_eq_none {s : Placements} {p : Placement} (h : s.clash? p = none) :
    ∀ q ∈ s.toList, q.core ≠ p.core := by
  intro q hq same
  unfold clash? onCore? at h
  split at h
  · cases h
  · split at h
    · cases h
    · next none_found =>
      have := List.find?_eq_none.1 none_found q hq
      simp only [Placement.core, Prod.mk.injEq] at same
      simp [Placement.core, same.1, same.2] at this

def add (s : Placements) (p : Placement) : Except PlacementError Placements :=
  match h : s.clash? p with
  | some e => .error e
  | none => .ok {
      toList := insertByVertex p s.toList
      sorted := sorted_insertByVertex s.sorted (vertex_ne_of_clash?_eq_none h)
      injective := injective_insertByVertex s.injective (core_ne_of_clash?_eq_none h) }

/-- Checks the members of a batch in order, each against what was there before and then against
the members in front of it. -/
def checkBatch (s : Placements) :
    (earlier : Placements) → List Placement → Except PlacementError Unit
  | _, [] => .ok ()
  | earlier, p :: rest =>
    match s.clash? p with
    | some e => .error e
    | none => do
      let earlier ← earlier.add p
      s.checkBatch earlier rest

/-- Adds a whole batch, or nothing if any of it clashes. -/
def addAll (s : Placements) (batch : List Placement) : Except PlacementError Placements := do
  s.checkBatch empty batch
  batch.foldlM add s

def ofList (l : List Placement) : Except PlacementError Placements := empty.addAll l

def onChip (s : Placements) (chip : Coord) : List Placement :=
  (s.toList.filter fun p => p.chip == chip).mergeSort fun a b => a.processor ≤ b.processor

def chips (s : Placements) : List Coord :=
  (Std.ExtTreeSet.ofList (s.toList.map Placement.chip) compare).toList

end Placements

end MulticastMesh.Layout
