import MulticastMesh.Proofs.Graph.Vertices
import MulticastMesh.Slicing.Edges
/-!
# Partitions of a machine graph

Adding edges leaves the vertices as they are.  Every partition starts and ends at vertices of the
graph, and no two partitions leave one vertex under one identifier.
-/

namespace MulticastMesh.Graph.MachineGraph

variable {g g' g₀ : MachineGraph} {id : MachineVertexId} {p q : EdgePartition} {i : Nat}
  {identifier : String} {edge : MachineEdge} {traffic : Traffic}

/-- Two partitions that are told apart by where they start and what they are called. -/
def Distinct (p q : EdgePartition) : Prop := (p.pre, p.identifier) ≠ (q.pre, q.identifier)

structure Wired (g : MachineGraph) : Prop where
  outgoing_size : g.outgoing.size = g.size
  listed : ∀ (i : Nat) (p : EdgePartition), g.partitions[i]? = some p → i ∈ g.outgoingIndices p.pre
  source : ∀ p ∈ g.partitions, ∃ v, g.HasVertex p.pre v
  target : ∀ p ∈ g.partitions, ∀ edge ∈ p.edges, ∃ v, g.HasVertex edge.post v
  distinct : g.partitions.toList.Pairwise Distinct

structure SameVertices (g₀ g : MachineGraph) : Prop where
  vertices : g.vertices = g₀.vertices
  byApp : g.byApp = g₀.byApp

theorem SameVertices.refl : SameVertices g g := ⟨rfl, rfl⟩

theorem SameVertices.trans (h : SameVertices g₀ g) (h' : SameVertices g g') :
    SameVertices g₀ g' :=
  ⟨h'.vertices.trans h.vertices, h'.byApp.trans h.byApp⟩

theorem SameVertices.hasVertex_iff (h : SameVertices g₀ g) {v : MachineVertex} :
    g.HasVertex id v ↔ g₀.HasVertex id v := by
  unfold HasVertex
  rw [h.vertices]

theorem SameVertices.wellIndexed (h : SameVertices g₀ g) (h₀ : g₀.WellIndexed) :
    g.WellIndexed := by
  intro a index id
  have hlists : g.verticesOf a = g₀.verticesOf a := by
    unfold verticesOf
    rw [h.byApp]
  rw [hlists, h₀ a index id]
  simp only [h.hasVertex_iff]

/-! ## New partitions -/

theorem Wired.not_mem_of_outgoingPartition? (h : Wired g)
    (hnone : (g.outgoingPartition? id identifier).isSome = false) :
    ∀ q ∈ g.partitions.toList, (q.pre, q.identifier) ≠ (id, identifier) := by
  rintro q hq heq
  obtain ⟨rfl, rfl⟩ := Prod.mk.inj heq
  obtain ⟨i, hi⟩ := List.getElem?_of_mem hq
  rw [Array.getElem?_toList] at hi
  have hmem : q ∈ g.outgoingPartitions q.pre :=
    List.mem_filterMap.2 ⟨i, h.listed i q hi, hi⟩
  rw [Option.isSome_eq_false_iff, Option.isNone_iff_eq_none] at hnone
  have hmiss := List.find?_eq_none.1 hnone q hmem
  simp at hmiss

/-- A new partition goes to the end of the list of its source. -/
theorem mem_outgoing_modify {id : MachineVertexId} (hlt : p.pre.index < g.outgoing.size)
    (hi : i ∈ g.outgoingIndices id ∨ i = g.partitions.size ∧ id = p.pre) :
    i ∈ (g.outgoing.modify p.pre.index (· ++ [g.partitions.size]))[id.index]?.getD [] := by
  rw [Array.getElem?_modify]
  rcases hi with hi | ⟨rfl, rfl⟩
  · unfold outgoingIndices at hi
    split
    · cases hfound : g.outgoing[id.index]? with
      | none => simp [hfound] at hi
      | some l =>
          rw [hfound] at hi
          exact List.mem_append_left _ hi
    · exact hi
  · rw [if_pos rfl, Array.getElem?_eq_getElem hlt]
    simp

def withPartition (g : MachineGraph) (p : EdgePartition) : MachineGraph :=
  { g with
    partitions := g.partitions.push p
    outgoing := g.outgoing.modify p.pre.index (· ++ [g.partitions.size]) }

theorem forall_mem_withPartition {P : EdgePartition → Prop} (hold : ∀ q ∈ g.partitions, P q)
    (hnew : P p) : ∀ q ∈ (g.withPartition p).partitions, P q := by
  intro q hq
  rcases Array.mem_push.1 hq with hq | rfl
  · exact hold q hq
  · exact hnew

theorem Wired.withPartition (h : Wired g) (hsource : ∃ v, g.HasVertex p.pre v)
    (htarget : ∀ edge ∈ p.edges, ∃ v, g.HasVertex edge.post v)
    (hfree : (g.outgoingPartition? p.pre p.identifier).isSome = false) :
    Wired (g.withPartition p) where
  outgoing_size := by
    simp only [MachineGraph.withPartition, Array.size_modify]
    exact h.outgoing_size
  listed := by
    intro i r hr
    obtain ⟨v, hv⟩ := hsource
    have hlt : p.pre.index < g.outgoing.size := h.outgoing_size ▸ hv.lt
    simp only [MachineGraph.withPartition, Array.getElem?_push] at hr
    split at hr
    · next heq =>
        cases hr
        exact mem_outgoing_modify hlt (Or.inr ⟨heq, rfl⟩)
    · exact mem_outgoing_modify hlt (Or.inl (h.listed i r hr))
  source := forall_mem_withPartition h.source hsource
  target := forall_mem_withPartition h.target htarget
  distinct := by
    simp only [MachineGraph.withPartition, Array.toList_push]
    rw [List.pairwise_append]
    refine ⟨h.distinct, List.pairwise_singleton _ _, ?_⟩
    intro r hr s hs
    cases List.mem_singleton.1 hs
    exact h.not_mem_of_outgoingPartition? hfree r hr

structure Accepts (g : MachineGraph) (p : EdgePartition) : Prop where
  source : ∃ v, g.HasVertex p.pre v
  free : (g.outgoingPartition? p.pre p.identifier).isSome = false
  owner : p.owner?.all (· == g.code) = true
  target : ∀ edge ∈ p.edges, ∃ v, g.HasVertex edge.post v

theorem register_eq_ok {code : Nat} : p.register code = .ok q ↔
    p.owner?.all (· == code) = true ∧ q = { p with owner? := some code } := by
  unfold EdgePartition.register
  split
  · next howner => simp [howner, eq_comm]
  · next howner => simp [howner]

theorem addPartition_eq_ok : g.addPartition p = .ok g' ↔
    g.Accepts p ∧ g' = g.withPartition { p with owner? := some g.code } := by
  have hloop : ∀ edges : List MachineEdge,
      (edges.forM fun edge => do let _ ← g.vertex edge.post) = .ok () ↔
        ∀ edge ∈ edges, ∃ v, g.HasVertex edge.post v := by
    intro edges
    rw [Outcome.forM_eq_ok]
    simp only [Outcome.bind_eq_ok, Outcome.pure_eq_ok, and_true, vertex_eq_ok]
  unfold addPartition
  simp only [Outcome.forIn_eq_forM]
  constructor
  · intro hrun
    obtain ⟨v, hv, hrun⟩ := Outcome.bind_eq_ok.1 hrun
    split at hrun
    · cases hrun
    · next hfree =>
        obtain ⟨q, hq, hrun⟩ := Outcome.bind_eq_ok.1 hrun
        obtain ⟨howner, rfl⟩ := register_eq_ok.1 hq
        obtain ⟨_, htargets, hrun⟩ := Outcome.bind_eq_ok.1 hrun
        cases Outcome.pure_eq_ok.1 hrun
        exact ⟨⟨⟨v, vertex_eq_ok.1 hv⟩, Bool.eq_false_iff.2 hfree, howner,
          (hloop _).1 htargets⟩, rfl⟩
  · rintro ⟨⟨⟨v, hv⟩, hfree, howner, htarget⟩, rfl⟩
    refine Outcome.bind_eq_ok.2 ⟨v, vertex_eq_ok.2 hv, ?_⟩
    simp only [hfree, Bool.false_eq_true, if_false]
    refine Outcome.bind_eq_ok.2 ⟨_, register_eq_ok.2 ⟨howner, rfl⟩, ?_⟩
    exact Outcome.bind_eq_ok.2 ⟨(), (hloop _).2 htarget, rfl⟩

theorem addPartition_spec (h : Wired g)
    (hrun : g.addPartition p = .ok g') : Wired g' ∧ SameVertices g g' := by
  obtain ⟨hacc, rfl⟩ := addPartition_eq_ok.1 hrun
  exact ⟨h.withPartition hacc.source hacc.target hacc.free, rfl, rfl⟩

/-! ## New edges -/

/-- The partition with an edge, which it holds only once. -/
def withEdge (p : EdgePartition) (edge : MachineEdge) : EdgePartition :=
  if edge ∈ p.edges then p else { p with edges := p.edges ++ [edge] }

theorem withEdge_spec (p : EdgePartition) (edge : MachineEdge) :
    (withEdge p edge).pre = p.pre ∧ (withEdge p edge).identifier = p.identifier ∧
      (withEdge p edge).traffic = p.traffic ∧ (withEdge p edge).owner? = p.owner? := by
  unfold withEdge
  split
  · exact ⟨rfl, rfl, rfl, rfl⟩
  · exact ⟨rfl, rfl, rfl, rfl⟩

theorem mem_withEdge {e : MachineEdge} : e ∈ (withEdge p edge).edges ↔ e ∈ p.edges ∨ e = edge := by
  unfold withEdge
  split
  · next hmem =>
      constructor
      · exact Or.inl
      · rintro (he | rfl)
        · exact he
        · exact hmem
  · simp

theorem addEdge_partition_eq_ok {code : Nat} : p.addEdge edge code = .ok q ↔
    p.owner? = some code ∧ edge.pre = p.pre ∧ q = withEdge p edge := by
  unfold EdgePartition.addEdge withEdge
  split
  · next howner => simp [howner]
  · next howner =>
      split
      · next hpre => simp [hpre]
      · next hpre =>
          simp only [ne_eq, Decidable.not_not] at howner hpre
          simp only [List.contains_iff_mem, howner, hpre, true_and]
          split
          · simp [eq_comm]
          · simp [eq_comm]

def replacePartition (g : MachineGraph) (i : Nat) (q : EdgePartition) : MachineGraph :=
  { g with partitions := g.partitions.setIfInBounds i q }

theorem getElem?_replacePartition {j : Nat} (hp : g.partitions[i]? = some p) :
    (g.replacePartition i q).partitions[j]? = if i = j then some q else g.partitions[j]? := by
  have hlt := (Array.getElem?_eq_some_iff.1 hp).1
  unfold replacePartition
  rw [Array.getElem?_setIfInBounds]
  by_cases hij : i = j
  · subst hij
    simp [hlt]
  · simp [hij]

theorem mem_replacePartition {r : EdgePartition} (hp : g.partitions[i]? = some p) :
    r ∈ (g.replacePartition i q).partitions ↔
      r = q ∨ ∃ j, j ≠ i ∧ g.partitions[j]? = some r := by
  rw [Array.mem_iff_getElem?]
  simp only [getElem?_replacePartition hp]
  constructor
  · rintro ⟨j, hj⟩
    split at hj
    · exact Or.inl (Option.some.inj hj).symm
    · next hij => exact Or.inr ⟨j, Ne.symm hij, hj⟩
  · rintro (rfl | ⟨j, hij, hj⟩)
    · exact ⟨i, if_pos rfl⟩
    · exact ⟨j, by rw [if_neg hij.symm, hj]⟩

theorem forall_mem_replacePartition {P : EdgePartition → Prop} (hp : g.partitions[i]? = some p)
    (hold : ∀ r ∈ g.partitions, P r) (hnew : P q) :
    ∀ r ∈ (g.replacePartition i q).partitions, P r := by
  intro r hr
  rcases (mem_replacePartition hp).1 hr with rfl | ⟨j, _, hj⟩
  · exact hnew
  · exact hold r (Array.mem_of_getElem? hj)

theorem Wired.replace (h : Wired g) (hp : g.partitions[i]? = some p)
    (hpre : q.pre = p.pre) (hidentifier : q.identifier = p.identifier)
    (htarget : ∀ edge ∈ q.edges, ∃ v, g.HasVertex edge.post v) :
    Wired (g.replacePartition i q) where
  outgoing_size := h.outgoing_size
  listed := by
    intro j r hr
    rw [getElem?_replacePartition hp] at hr
    split at hr
    · next hij =>
        subst hij
        cases hr
        rw [hpre]
        exact h.listed i p hp
    · exact h.listed j r hr
  source := by
    refine forall_mem_replacePartition hp h.source ?_
    rw [hpre]
    exact h.source p (Array.mem_of_getElem? hp)
  target := forall_mem_replacePartition hp h.target htarget
  distinct := by
    have hkeys : (g.replacePartition i q).partitions.toList.map (fun r => (r.pre, r.identifier)) =
        g.partitions.toList.map fun r => (r.pre, r.identifier) := by
      apply List.ext_getElem?
      intro j
      rw [List.getElem?_map, List.getElem?_map, Array.getElem?_toList, Array.getElem?_toList,
        getElem?_replacePartition hp]
      split
      · next hij =>
          subst hij
          rw [hp, Option.map_some, Option.map_some, hpre, hidentifier]
      · rfl
    have hdistinct : (g.partitions.toList.map fun r => (r.pre, r.identifier)).Pairwise (· ≠ ·) :=
      List.pairwise_map.2 h.distinct
    rw [← hkeys, List.pairwise_map] at hdistinct
    exact hdistinct

theorem extendPartition_eq_ok : g.extendPartition edge identifier traffic = .ok g' ↔
    ∃ i p, g.partitionIndex? edge.pre identifier = some i ∧ g.partitions[i]? = some p ∧
      p.traffic = traffic ∧ p.owner? = some g.code ∧ edge.pre = p.pre ∧
      g' = g.replacePartition i (withEdge p edge) := by
  unfold extendPartition
  constructor
  · intro hrun
    split at hrun
    · next i hindex =>
        split at hrun
        · next p hp =>
            split at hrun
            · cases hrun
            · next htraffic =>
                obtain ⟨q, hq, hreturn⟩ := Outcome.bind_eq_ok.1 hrun
                obtain ⟨howner, hpre, rfl⟩ := addEdge_partition_eq_ok.1 hq
                cases Outcome.pure_eq_ok.1 hreturn
                exact ⟨i, p, hindex, hp, not_not.1 htraffic, howner, hpre, rfl⟩
        · cases hrun
    · cases hrun
  · rintro ⟨i, p, hindex, hp, htraffic, howner, hpre, rfl⟩
    simp only [hindex, hp, htraffic, ne_eq, not_true_eq_false, if_false]
    exact Outcome.bind_eq_ok.2 ⟨_, addEdge_partition_eq_ok.2 ⟨howner, hpre, rfl⟩, rfl⟩

theorem extendPartition_spec (h : Wired g) {v : MachineVertex} (hv : g.HasVertex edge.post v)
    (hrun : g.extendPartition edge identifier traffic = .ok g') :
    Wired g' ∧ SameVertices g g' := by
  obtain ⟨i, p, _, hp, _, _, _, rfl⟩ := extendPartition_eq_ok.1 hrun
  obtain ⟨hpre, hidentifier, _⟩ := withEdge_spec p edge
  refine ⟨h.replace hp hpre hidentifier ?_, rfl, rfl⟩
  intro e he
  rcases mem_withEdge.1 he with he | rfl
  · exact h.target p (Array.mem_of_getElem? hp) e he
  · exact ⟨v, hv⟩

/-- An edge is added to the partition that is there for it, or else to a new one. -/
theorem addEdge_eq_ok : g.addEdge edge identifier traffic = .ok g' ↔
    (∃ v, g.HasVertex edge.post v) ∧
      if (g.outgoingPartition? edge.pre identifier).isSome then
        g.extendPartition edge identifier traffic = .ok g'
      else ∃ g₁, g.addPartition { pre := edge.pre, identifier, traffic } = .ok g₁ ∧
        g₁.extendPartition edge identifier traffic = .ok g' := by
  unfold addEdge
  rw [Outcome.bind_eq_ok]
  simp only [vertex_eq_ok, exists_and_right]
  split
  · exact Iff.rfl
  · rw [Outcome.bind_eq_ok]

theorem addEdge_spec (h : Wired g) (hrun : g.addEdge edge identifier traffic = .ok g') :
    Wired g' ∧ SameVertices g g' := by
  obtain ⟨⟨v, hv⟩, hrun⟩ := addEdge_eq_ok.1 hrun
  split at hrun
  · exact extendPartition_spec h hv hrun
  · obtain ⟨g₁, hadd, hrest⟩ := hrun
    obtain ⟨hwired, hsame⟩ := addPartition_spec h hadd
    obtain ⟨hwired', hsame'⟩ := extendPartition_spec hwired (hsame.hasVertex_iff.2 hv) hrest
    exact ⟨hwired', hsame.trans hsame'⟩

end MulticastMesh.Graph.MachineGraph
