import MulticastMesh.Proofs.Graph.Vertices
import MulticastMesh.Slicing.Vertices
/-!
# The graph that slicing makes

Every machine vertex is listed by the application vertex that it was cut from, has the location
that the constraints of that vertex fix, and no edges.
-/

namespace MulticastMesh.Slicing

open MulticastMesh.Graph (AppVertexId ApplicationGraph CoreBudget MachineGraph MachineVertex
  MachineVertexId Slice)
open Mesh (Machine)
open Outcome

variable {app : ApplicationGraph} {g g' : MachineGraph} {v : MachineVertex}
  {id : MachineVertexId} {a : AppVertexId}

/-- A graph whose vertices are cut from application vertices or stand for themselves. -/
structure CutFrom (app : ApplicationGraph) (g : MachineGraph) : Prop where
  wellIndexed : g.WellIndexed
  byApp_size : g.byApp.size = app.size
  located : ∀ id v a, g.HasVertex id v → v.app? = some a →
    ∃ w, app.vertices[a.index]? = some w ∧ w.fixedLocation? = .ok v.location?

structure Edgeless (g : MachineGraph) : Prop where
  partitions : g.partitions = #[]
  outgoing_size : g.outgoing.size = g.size
  outgoing : ∀ l ∈ g.outgoing, l = []

theorem CutFrom.same_location (h : CutFrom app g) {id' : MachineVertexId} {v' : MachineVertex}
    (hv : g.HasVertex id v) (ha : v.app? = some a) (hv' : g.HasVertex id' v')
    (ha' : v'.app? = some a) : v.location? = v'.location? := by
  obtain ⟨w, hw, hloc⟩ := h.located id v a hv ha
  obtain ⟨w', hw', hloc'⟩ := h.located id' v' a hv' ha'
  cases hw.symm.trans hw'
  exact Except.ok.inj (hloc.symm.trans hloc')

theorem CutFrom.extend (h : CutFrom app g) (hext : g.Extends v g')
    (hindex : ∀ a, v.app? = some a → v.index = (g.verticesOf a).length ∧
      ∃ w, app.vertices[a.index]? = some w ∧ w.fixedLocation? = .ok v.location?) :
    CutFrom app g' where
  wellIndexed := h.wellIndexed.extend hext fun a ha => (hindex a ha).1
  byApp_size := hext.byApp_size.trans h.byApp_size
  located := by
    intro id w a hw ha
    rcases hext.hasVertex_iff.1 hw with hw | ⟨_, rfl⟩
    · exact h.located id w a hw ha
    · exact (hindex a ha).2

theorem Edgeless.extend (h : Edgeless g) (hext : g.Extends v g') : Edgeless g' where
  partitions := hext.partitions.trans h.partitions
  outgoing_size := by
    rw [hext.outgoing, Array.size_push, hext.size, h.outgoing_size]
  outgoing := by
    intro l hl
    rw [hext.outgoing, Array.mem_push] at hl
    rcases hl with hl | rfl
    · exact h.outgoing l hl
    · rfl

/-! ## Members -/

theorem mem_app_toList {w : Graph.ApplicationVertex} :
    (a, w) ∈ app.toList ↔ app.vertices[a.index]? = some w := by
  unfold ApplicationGraph.toList
  rw [List.mem_map]
  constructor
  · rintro ⟨⟨x, i⟩, hmem, heq⟩
    obtain ⟨rfl, rfl⟩ := Prod.mk.inj heq
    simpa using List.mem_zipIdx_iff_getElem?.1 hmem
  · intro hw
    exact ⟨(w, a.index), List.mem_zipIdx_iff_getElem?.2 (by simpa using hw), rfl⟩

theorem members_spec {all : List Member} (h : members app = .ok all) :
    all.length = app.size ∧ ∀ (i : Nat) (m : Member), all[i]? = some m →
      m.id = ⟨i⟩ ∧ app.vertices[i]? = some m.vertex := by
  have hall := mapM_eq_ok.1 h
  have hlength : app.toList.length = app.size := by
    simp [ApplicationGraph.toList, ApplicationGraph.size]
  refine ⟨hall.length_eq.symm.trans hlength, ?_⟩
  intro i m hm
  obtain ⟨him, rfl⟩ := List.getElem?_eq_some_iff.1 hm
  have hi : i < app.toList.length := hall.length_eq ▸ him
  have hstep := hall.get hi him
  obtain ⟨n, _, hmember⟩ := bind_eq_ok.1 hstep
  have hsize : i < app.vertices.size := by
    rw [hlength] at hi
    exact hi
  have hitem : app.toList[i] = (⟨i⟩, app.vertices[i]) := by
    simp only [ApplicationGraph.toList, List.getElem_map, List.getElem_zipIdx,
      Array.getElem_toList, Nat.zero_add]
  have heq := pure_eq_ok.1 hmember
  simp only [List.get_eq_getElem] at heq
  rw [← heq, hitem]
  exact ⟨rfl, Array.getElem?_eq_getElem _⟩

theorem createVertices_spec {m : Member} {slices : List Slice} {budget : CoreBudget}
    {vertices : List MachineVertex} (h : createVertices m slices budget = .ok vertices) :
    ∀ (i : Nat) (v : MachineVertex), vertices[i]? = some v → v.app? = some m.id ∧ v.index = i ∧
      m.vertex.fixedLocation? = .ok v.location? := by
  obtain ⟨location?, hlocation, h⟩ := bind_eq_ok.1 h
  have hall := mapM_eq_ok.1 h
  intro i v hv
  obtain ⟨hiv, rfl⟩ := List.getElem?_eq_some_iff.1 hv
  have hi : i < slices.zipIdx.length := hall.length_eq ▸ hiv
  have hstep := hall.get hi hiv
  simp only [List.get_eq_getElem, List.getElem_zipIdx] at hstep
  split at hstep
  · cases hstep
  · have heq := pure_eq_ok.1 hstep
    rw [← heq]
    exact ⟨rfl, by simp, lift_eq_ok.1 hlocation⟩

/-! ## The whole graph -/

/-- The graph while the first `n` application vertices have their machine vertices. -/
structure CutUpTo (app : ApplicationGraph) (n : Nat) (g : MachineGraph) : Prop
    extends CutFrom app g, Edgeless g where
  from_app : ∀ id v, g.HasVertex id v → ∃ a, v.app? = some a ∧ a.index < n

theorem cutUpTo_empty (code : Nat) : CutUpTo app 0 (MachineGraph.empty code app.size) where
  wellIndexed := MachineGraph.wellIndexed_empty code app.size
  byApp_size := by simp [MachineGraph.empty]
  located := by
    intro id v a hv _
    simp [MachineGraph.HasVertex, MachineGraph.empty] at hv
  partitions := rfl
  outgoing_size := rfl
  outgoing := by simp [MachineGraph.empty]
  from_app := by
    intro id v hv
    simp [MachineGraph.HasVertex, MachineGraph.empty] at hv

theorem CutUpTo.addVertices {n : Nat} (h : CutUpTo app n g) {m : Member} (hid : m.id = ⟨n⟩)
    (hm : app.vertices[n]? = some m.vertex) {slices : List Slice} {budget : CoreBudget}
    {vertices : List MachineVertex} (hvs : createVertices m slices budget = .ok vertices)
    (hadd : vertices.foldlM (fun graph v => do
      let (_, graph) ← graph.addVertex v
      return graph) g = (.ok g' : Outcome MachineGraph)) : CutUpTo app (n + 1) g' := by
  have hnone : g.verticesOf ⟨n⟩ = [] := by
    rw [List.eq_nil_iff_forall_not_mem]
    intro id hmem
    obtain ⟨v, hv, ha⟩ := h.wellIndexed.mem_verticesOf.1 hmem
    obtain ⟨b, hb, hlt⟩ := h.from_app id v hv
    rw [ha] at hb
    cases hb
    exact absurd hlt (by simp)
  have hstart : CutUpTo app (n + 1) g :=
    ⟨h.toCutFrom, h.toEdgeless, fun id v hv =>
      (h.from_app id v hv).imp fun _ ha => ⟨ha.1, Nat.lt_succ_of_lt ha.2⟩⟩
  have hfold := foldlM_induction
    (motive := fun before graph => CutUpTo app (n + 1) graph ∧
      (graph.verticesOf ⟨n⟩).length = before.length) hadd ⟨hstart, by simp [hnone]⟩ ?_
  · exact hfold.1
  intro before v after hvertices graph graph' ⟨hgraph, hlength⟩ hstep
  obtain ⟨⟨id, graph''⟩, hadded, hreturn⟩ := bind_eq_ok.1 hstep
  cases pure_eq_ok.1 hreturn
  obtain ⟨_, hext⟩ := MachineGraph.addVertex_spec (lift_eq_ok.1 hadded)
  obtain ⟨happ, hindex, hlocation⟩ := createVertices_spec hvs before.length v (by simp [hvertices])
  rw [hid] at happ
  have hv : ∀ a, v.app? = some a → v.index = (graph.verticesOf a).length ∧
      ∃ w, app.vertices[a.index]? = some w ∧ w.fixedLocation? = .ok v.location? := by
    intro a ha
    rw [happ] at ha
    cases ha
    exact ⟨by omega, m.vertex, hm, hlocation⟩
  refine ⟨⟨hgraph.toCutFrom.extend hext hv, hgraph.toEdgeless.extend hext, ?_⟩, ?_⟩
  · intro id w hw
    rcases hext.hasVertex_iff.1 hw with hw | ⟨_, rfl⟩
    · exact hgraph.from_app id w hw
    · exact ⟨⟨n⟩, happ, by simp⟩
  · rw [hext.verticesOf, if_pos happ]
    simp [hlength]

theorem sliceGraph_spec {code : Nat} {machine : Machine}
    (h : sliceGraph code app machine = .ok g) : CutFrom app g ∧ Edgeless g ∧
      ∀ id v, g.HasVertex id v → v.app?.isSome := by
  obtain ⟨all, hall, h⟩ := bind_eq_ok.1 h
  obtain ⟨groups, _, h⟩ := bind_eq_ok.1 h
  obtain ⟨cuts, _, h⟩ := bind_eq_ok.1 h
  obtain ⟨_, hmember⟩ := members_spec (lift_eq_ok.1 hall)
  have hcut := foldlM_induction
    (motive := fun before graph => CutUpTo app before.length graph) h (cutUpTo_empty code) ?_
  · refine ⟨hcut.toCutFrom, hcut.toEdgeless, ?_⟩
    intro id v hv
    obtain ⟨a, ha, _⟩ := hcut.from_app id v hv
    simp [ha]
  intro before m after hsplit graph graph' hgraph hstep
  obtain ⟨vertices, hvs, hadd⟩ := bind_eq_ok.1 hstep
  obtain ⟨hid, hvertex⟩ := hmember before.length m (by simp [hsplit])
  rw [List.length_append, List.length_singleton]
  exact hgraph.addVertices hid hvertex (during_eq_ok.1 hvs) hadd

end MulticastMesh.Slicing
