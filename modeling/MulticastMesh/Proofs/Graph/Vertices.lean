import MulticastMesh.Proofs.Outcomes
import MulticastMesh.Graph.MachineGraph
/-!
# Vertices of a machine graph

The lists of machine vertices by application vertex mirror what the vertices say of themselves:
an application vertex lists a machine vertex at the position that the machine vertex has as its
index.
-/

namespace MulticastMesh.Graph.MachineGraph

variable {g g' : MachineGraph} {v w : MachineVertex} {id : MachineVertexId} {a : AppVertexId}

def HasVertex (g : MachineGraph) (id : MachineVertexId) (v : MachineVertex) : Prop :=
  g.vertices[id.index]? = some v

theorem vertex_eq_ok : g.vertex id = .ok v ↔ g.HasVertex id v := by
  unfold vertex HasVertex
  cases g.vertices[id.index]? <;> simp

theorem HasVertex.eq (hv : g.HasVertex id v) (hw : g.HasVertex id w) : v = w :=
  Option.some.inj (hv.symm.trans hw)

theorem HasVertex.lt (hv : g.HasVertex id v) : id.index < g.size :=
  (Array.getElem?_eq_some_iff.1 hv).1

theorem exists_hasVertex (hid : id.index < g.size) : ∃ v, g.HasVertex id v :=
  ⟨_, Array.getElem?_eq_getElem hid⟩

theorem mem_toList : (id, v) ∈ g.toList ↔ g.HasVertex id v := by
  unfold toList HasVertex
  rw [List.mem_map]
  constructor
  · rintro ⟨⟨w, i⟩, hmem, heq⟩
    obtain ⟨rfl, rfl⟩ := Prod.mk.inj heq
    simpa using List.mem_zipIdx_iff_getElem?.1 hmem
  · intro hv
    exact ⟨(v, id.index), List.mem_zipIdx_iff_getElem?.2 (by simpa using hv), rfl⟩

/-- What an added vertex changes. -/
structure Extends (g : MachineGraph) (v : MachineVertex) (g' : MachineGraph) : Prop where
  code : g'.code = g.code
  vertices : g'.vertices = g.vertices.push v
  byApp_size : g'.byApp.size = g.byApp.size
  partitions : g'.partitions = g.partitions
  outgoing : g'.outgoing = g.outgoing.push []
  app_lt : ∀ a, v.app? = some a → a.index < g.byApp.size
  verticesOf : ∀ a, g'.verticesOf a =
    if v.app? = some a then g.verticesOf a ++ [⟨g.size⟩] else g.verticesOf a

theorem addVertex_spec (h : g.addVertex v = .ok (id, g')) : id = ⟨g.size⟩ ∧ g.Extends v g' := by
  unfold addVertex at h
  cases happ : v.app? with
  | none =>
      rw [happ] at h
      simp only [Except.ok.injEq, Prod.mk.injEq] at h
      obtain ⟨rfl, rfl⟩ := h
      exact ⟨rfl, rfl, rfl, rfl, rfl, rfl, by simp [happ], by simp [happ, MachineGraph.verticesOf]⟩
  | some b =>
      rw [happ] at h
      simp only at h
      split at h
      next hb =>
        simp only [Except.ok.injEq, Prod.mk.injEq] at h
        obtain ⟨rfl, rfl⟩ := h
        refine ⟨rfl, rfl, rfl, by simp, rfl, rfl, ?_, ?_⟩
        · intro a ha
          rw [happ] at ha
          cases ha
          exact hb
        · intro a
          unfold MachineGraph.verticesOf
          rw [happ, Array.getElem?_modify]
          simp only [Option.some.injEq]
          by_cases hab : b = a
          · subst hab
            simp [Array.getElem?_eq_getElem hb]
          · have hne : b.index ≠ a.index := by
              intro heq
              apply hab
              cases a
              cases b
              simp_all
            simp [hab, hne]
      next hb => cases h

theorem Extends.size (h : g.Extends v g') : g'.size = g.size + 1 := by
  unfold MachineGraph.size
  rw [h.vertices, Array.size_push]

theorem Extends.hasVertex_iff (h : g.Extends v g') : g'.HasVertex id w ↔
    g.HasVertex id w ∨ (id = ⟨g.size⟩ ∧ w = v) := by
  unfold HasVertex
  rw [h.vertices, Array.getElem?_push]
  by_cases hid : id.index = g.vertices.size
  · have hnone : g.vertices[id.index]? = none := by simp [hid]
    rw [if_pos hid, hnone]
    have hlast : id = ⟨g.size⟩ := by
      cases id
      simpa [MachineGraph.size] using hid
    simp [hlast, eq_comm]
  · rw [if_neg hid]
    have hother : id ≠ ⟨g.size⟩ := by
      intro heq
      exact hid (by rw [heq]; rfl)
    simp [hother]

/-- An application vertex lists a machine vertex at its index. -/
def WellIndexed (g : MachineGraph) : Prop :=
  ∀ a i id, (g.verticesOf a)[i]? = some id ↔
    ∃ v, g.HasVertex id v ∧ v.app? = some a ∧ v.index = i

theorem WellIndexed.mem_verticesOf (h : g.WellIndexed) :
    id ∈ g.verticesOf a ↔ ∃ v, g.HasVertex id v ∧ v.app? = some a := by
  rw [List.mem_iff_getElem?]
  constructor
  · rintro ⟨i, hi⟩
    obtain ⟨v, hv, happ, _⟩ := (h a i id).1 hi
    exact ⟨v, hv, happ⟩
  · rintro ⟨v, hv, happ⟩
    exact ⟨v.index, (h a v.index id).2 ⟨v, hv, happ, rfl⟩⟩

/-- The slices that send packets have fewer than `2 ^ 32` atoms, so that they can be counted. -/
def SourcesCounted (g : MachineGraph) : Prop :=
  ∀ p ∈ g.multicastPartitions, ∀ v, g.HasVertex p.pre v → v.slice.atoms < UInt32.size

theorem sourcesCounted_of_forall (h : ∀ item ∈ g.toList, item.2.slice.atoms < UInt32.size) :
    g.SourcesCounted :=
  fun p _ v hv => h (p.pre, v) (mem_toList.2 hv)

theorem wellIndexed_empty (code n : Nat) : (empty code n).WellIndexed := by
  intro a i id
  have hnone : (empty code n).verticesOf a = [] := by
    unfold MachineGraph.verticesOf empty
    by_cases ha : a.index < n <;> simp [ha]
  rw [hnone]
  simp [HasVertex, empty]

theorem WellIndexed.extend (h : g.WellIndexed) (hext : g.Extends v g')
    (hindex : ∀ a, v.app? = some a → v.index = (g.verticesOf a).length) : g'.WellIndexed := by
  intro a i id
  rw [hext.verticesOf a]
  simp only [hext.hasVertex_iff]
  have hfresh : ∀ w, ¬ g.HasVertex ⟨g.size⟩ w := fun w hw => absurd hw.lt (by simp)
  by_cases ha : v.app? = some a
  · rw [if_pos ha, List.getElem?_append]
    by_cases hi : i < (g.verticesOf a).length
    · rw [if_pos hi, h a i id]
      constructor
      · rintro ⟨w, hw, hwa, hwi⟩
        exact ⟨w, Or.inl hw, hwa, hwi⟩
      · rintro ⟨w, hw | ⟨_, rfl⟩, hwa, hwi⟩
        · exact ⟨w, hw, hwa, hwi⟩
        · have := hindex a ha
          omega
    · rw [if_neg hi]
      constructor
      · intro hlast
        have hpos : i - (g.verticesOf a).length = 0 := by
          by_contra hne
          rw [List.getElem?_eq_none (by simpa using Nat.one_le_iff_ne_zero.2 hne)] at hlast
          cases hlast
        rw [hpos] at hlast
        cases hlast
        have := hindex a ha
        exact ⟨v, Or.inr ⟨rfl, rfl⟩, ha, by omega⟩
      · rintro ⟨w, hw | ⟨rfl, rfl⟩, hwa, hwi⟩
        · have hlisted := (h a i id).2 ⟨w, hw, hwa, hwi⟩
          rw [List.getElem?_eq_none (by omega)] at hlisted
          cases hlisted
        · have := hindex a ha
          have hzero : i - (g.verticesOf a).length = 0 := by omega
          simp [hzero]
  · rw [if_neg ha, h a i id]
    constructor
    · rintro ⟨w, hw, hwa, hwi⟩
      exact ⟨w, Or.inl hw, hwa, hwi⟩
    · rintro ⟨w, hw | ⟨_, rfl⟩, hwa, hwi⟩
      · exact ⟨w, hw, hwa, hwi⟩
      · exact absurd hwa ha

def addVertices (g : MachineGraph) (vertices : List MachineVertex) :
    Except GraphError MachineGraph :=
  vertices.foldlM (fun g v => do
    let (_, g) ← g.addVertex v
    return g) g

end MulticastMesh.Graph.MachineGraph
