import Mathlib.Data.List.Perm.Basic
import MulticastMesh.Proofs.Graph.Partitions
/-!
# Graphs built by operations, and graphs built in another order

Every graph that its operations build is wired, in particular no two of its partitions leave one
vertex under one identifier.  Two graphs are reorderings of each other if they only differ in
when their multicast partitions and edges were added.
-/

namespace MulticastMesh.Graph.MachineGraph

variable {g g' : MachineGraph} {v : MachineVertex} {id : MachineVertexId} {p q : EdgePartition}

/-- The graphs that vertices, partitions and edges are added to, starting from an empty one. -/
inductive Built : MachineGraph → Prop where
  | empty (code appVertices : Nat) : Built (.empty code appVertices)
  | vertex {g g' : MachineGraph} {v : MachineVertex} {id : MachineVertexId} (h : Built g)
      (hadd : g.addVertex v = .ok (id, g')) : Built g'
  | partition {g g' : MachineGraph} {p : EdgePartition} (h : Built g)
      (hadd : g.addPartition p = .ok g') : Built g'
  | edge {g g' : MachineGraph} {edge : MachineEdge} {identifier : String} {traffic : Traffic}
      (h : Built g) (hadd : g.addEdge edge identifier traffic = .ok g') : Built g'

def addEdges (g : MachineGraph) (edges : List (MachineEdge × String)) :
    Except GraphError MachineGraph :=
  edges.foldlM (fun g (edge, identifier) => g.addEdge edge identifier .multicast) g

theorem Built.addVertices {vertices : List MachineVertex} (h : Built g)
    (hrun : g.addVertices vertices = .ok g') : Built g' := by
  refine Outcome.foldlM_invariant hrun h ?_
  intro v _ g g' hg hstep
  obtain ⟨⟨id, g₁⟩, hadd, hreturn⟩ := Outcome.bind_eq_ok.1 hstep
  cases Outcome.pure_eq_ok.1 hreturn
  exact hg.vertex hadd

theorem Built.addEdges {edges : List (MachineEdge × String)} (h : Built g)
    (hrun : g.addEdges edges = .ok g') : Built g' :=
  Outcome.foldlM_invariant hrun h fun _ _ _ _ hg hadd => hg.edge hadd

theorem built_of_edges (code appVertices : Nat) (vertices : List MachineVertex)
    (edges : List (MachineEdge × String))
    (hrun : ((empty code appVertices).addVertices vertices >>= fun g => g.addEdges edges) =
      .ok g) : Built g := by
  obtain ⟨_, hvertices, hedges⟩ := Outcome.bind_eq_ok.1 hrun
  exact ((Built.empty code appVertices).addVertices hvertices).addEdges hedges

theorem wired_empty (code appVertices : Nat) : (empty code appVertices).Wired where
  outgoing_size := rfl
  listed := by simp [empty]
  source := by simp [empty]
  target := by simp [empty]
  distinct := by simp [empty]

/-- A new vertex has no partitions yet, and those of the others stay. -/
theorem Wired.extend (h : g.Wired) (hext : g.Extends v g') : g'.Wired where
  outgoing_size := by
    rw [hext.outgoing, Array.size_push, hext.size, h.outgoing_size]
  listed := by
    intro i p hp
    rw [hext.partitions] at hp
    have hlisted := h.listed i p hp
    unfold outgoingIndices at hlisted ⊢
    obtain ⟨w, hw⟩ := h.source p (Array.mem_of_getElem? hp)
    have hlt : p.pre.index < g.outgoing.size := h.outgoing_size ▸ hw.lt
    rw [hext.outgoing, Array.getElem?_push, if_neg (by omega)]
    exact hlisted
  source := by
    intro p hp
    rw [hext.partitions] at hp
    obtain ⟨w, hw⟩ := h.source p hp
    exact ⟨w, hext.hasVertex_iff.2 (Or.inl hw)⟩
  target := by
    intro p hp edge hedge
    rw [hext.partitions] at hp
    obtain ⟨w, hw⟩ := h.target p hp edge hedge
    exact ⟨w, hext.hasVertex_iff.2 (Or.inl hw)⟩
  distinct := by
    rw [hext.partitions]
    exact h.distinct

theorem Built.wired (h : Built g) : g.Wired := by
  induction h with
  | empty code appVertices => exact wired_empty code appVertices
  | vertex _ hadd ih => exact ih.extend (addVertex_spec hadd).2
  | partition _ hadd ih => exact (addPartition_spec ih hadd).1
  | edge _ hadd ih => exact (addEdge_spec ih hadd).1

instance : Std.Symm Distinct := ⟨fun _ _ => Ne.symm⟩

theorem Wired.distinct_multicast (h : g.Wired) : g.multicastPartitions.Pairwise Distinct :=
  h.distinct.filter _

/-! ## Another order -/

/-- Two partitions that differ in their owner and in the order of their edges at most. -/
structure SamePartition (p q : EdgePartition) : Prop where
  pre : p.pre = q.pre
  identifier : p.identifier = q.identifier
  edges : p.edges.Perm q.edges

/-- Two graphs with the same vertices and the same multicast partitions, in any order. -/
structure Reordered (g g' : MachineGraph) : Prop where
  same : SameVertices g g'
  partitions : ∃ l, g.multicastPartitions.Perm l ∧
    List.Forall₂ SamePartition l g'.multicastPartitions

theorem SameVertices.symm (h : SameVertices g g') : SameVertices g' g :=
  ⟨h.vertices.symm, h.byApp.symm⟩

theorem SamePartition.symm (h : SamePartition p q) : SamePartition q p :=
  ⟨h.pre.symm, h.identifier.symm, h.edges.symm⟩

theorem Reordered.symm (h : Reordered g g') : Reordered g' g := by
  obtain ⟨l, hperm, hall⟩ := h.partitions
  have hflip : List.Forall₂ SamePartition g'.multicastPartitions l :=
    hall.flip.imp fun _ _ hpq => hpq.symm
  have hcomp : (Relation.Comp List.Perm (List.Forall₂ SamePartition))
      g'.multicastPartitions g.multicastPartitions := by
    rw [← List.forall₂_comp_perm_eq_perm_comp_forall₂]
    exact ⟨l, hflip, hperm.symm⟩
  exact ⟨h.same.symm, hcomp⟩

theorem SameVertices.vertex_eq (h : SameVertices g g') (id : MachineVertexId) :
    g'.vertex id = g.vertex id := by
  unfold vertex
  rw [h.vertices]

theorem SameVertices.verticesOf_eq (h : SameVertices g g') (a : AppVertexId) :
    g'.verticesOf a = g.verticesOf a := by
  unfold verticesOf
  rw [h.byApp]

end MulticastMesh.Graph.MachineGraph
