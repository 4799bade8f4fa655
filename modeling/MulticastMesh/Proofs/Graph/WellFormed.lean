import Mathlib.Data.List.Nodup
import Mathlib.Data.String.Basic
import MulticastMesh.Proofs.Graph.Built
/-!
# Well-formed machine graphs

The vectors of a machine graph say the same of its vertices and partitions.  A graph stays
well-formed when it gains a vertex, a partition that was put together elsewhere, or an edge; an
edge that is added to a well-formed graph is the only one that the graph gains.
-/

namespace MulticastMesh.Graph.MachineGraph

variable {g g' : MachineGraph} {v : MachineVertex} {id : MachineVertexId} {p q r : EdgePartition}
  {i j : Nat} {identifier : String} {edge : MachineEdge} {traffic : Traffic}

/-- A graph whose vectors are in step: beside the connections between vertices and partitions, the
list of a vertex holds the partitions that leave it and no others, the edges of a partition are
its own and each there once, the partitions carry the graph's code, and every application vertex
lists its machine vertices. -/
structure WellFormed (g : MachineGraph) : Prop extends Wired g where
  leaving : ∀ id i, i ∈ g.outgoingIndices id → ∃ p, g.partitions[i]? = some p ∧ p.pre = id
  increasing : ∀ id, (g.outgoingIndices id).Pairwise (· < ·)
  starts : ∀ p ∈ g.partitions, ∀ edge ∈ p.edges, edge.pre = p.pre
  once : ∀ p ∈ g.partitions, p.edges.Nodup
  owned : ∀ p ∈ g.partitions, p.owner? = some g.code
  members : ∀ a id, id ∈ g.verticesOf a ↔ ∃ v, g.HasVertex id v ∧ v.app? = some a
  ordered : ∀ a, (g.verticesOf a).Pairwise fun x y => x.index < y.index

theorem wellFormed_empty (code appVertices : Nat) : (empty code appVertices).WellFormed where
  toWired := wired_empty code appVertices
  leaving := by simp [outgoingIndices, empty]
  increasing := by simp [outgoingIndices, empty]
  starts := by simp [empty]
  once := by simp [empty]
  owned := by simp [empty]
  members := by
    intro a id
    exact (wellIndexed_empty code appVertices).mem_verticesOf
  ordered := by
    intro a
    unfold verticesOf empty
    by_cases ha : a.index < appVertices
    · simp [ha]
    · simp [ha]

/-! ## Vertices -/

theorem Extends.outgoingIndices (h : g.Extends v g') :
    g'.outgoingIndices id = g.outgoingIndices id := by
  unfold MachineGraph.outgoingIndices
  rw [h.outgoing, Array.getElem?_push]
  split
  · next hid => simp [hid]
  · rfl

theorem WellFormed.extend (h : g.WellFormed) (hext : g.Extends v g') : g'.WellFormed where
  toWired := h.toWired.extend hext
  leaving := by
    intro id i
    rw [hext.outgoingIndices, hext.partitions]
    exact h.leaving id i
  increasing := by
    intro id
    rw [hext.outgoingIndices]
    exact h.increasing id
  starts := by
    rw [hext.partitions]
    exact h.starts
  once := by
    rw [hext.partitions]
    exact h.once
  owned := by
    rw [hext.partitions, hext.code]
    exact h.owned
  members := by
    intro a id
    rw [hext.verticesOf a]
    simp only [hext.hasVertex_iff, or_and_right, exists_or, ← h.members a id]
    split
    · next ha => simp [ha]
    · next ha => simp [ha]
  ordered := by
    intro a
    rw [hext.verticesOf a]
    split
    · next ha =>
        rw [List.pairwise_append]
        refine ⟨h.ordered a, List.pairwise_singleton _ _, fun x hx y hy => ?_⟩
        obtain ⟨w, hw, _⟩ := (h.members a x).1 hx
        rw [List.mem_singleton.1 hy]
        exact hw.lt
    · exact h.ordered a

/-! ## Look-ups -/

theorem Wired.eq_of_same (h : g.Wired) (hi : g.partitions[i]? = some p)
    (hj : g.partitions[j]? = some q) (hpre : p.pre = q.pre)
    (hidentifier : p.identifier = q.identifier) : i = j := by
  rw [← Array.getElem?_toList] at hi hj
  obtain ⟨hilt, rfl⟩ := List.getElem?_eq_some_iff.1 hi
  obtain ⟨hjlt, rfl⟩ := List.getElem?_eq_some_iff.1 hj
  have hdistinct := List.pairwise_iff_getElem.1 h.distinct
  rcases Nat.lt_trichotomy i j with hlt | heq | hlt
  · exact absurd (Prod.ext hpre hidentifier) (hdistinct i j hilt hjlt hlt)
  · exact heq
  · exact absurd (Prod.ext hpre hidentifier).symm (hdistinct j i hjlt hilt hlt)

theorem WellFormed.partitionIndex?_eq_some (h : g.WellFormed) :
    g.partitionIndex? id identifier = some i ↔
      ∃ p, g.partitions[i]? = some p ∧ p.pre = id ∧ p.identifier = identifier := by
  have hfound : ∀ j, g.partitionIndex? id identifier = some j →
      ∃ p, g.partitions[j]? = some p ∧ p.pre = id ∧ p.identifier = identifier := by
    intro j hj
    obtain ⟨p, hp, hpre⟩ := h.leaving id j (List.mem_of_find?_eq_some hj)
    have hname := List.find?_some hj
    rw [hp, Option.any_some, beq_iff_eq] at hname
    exact ⟨p, hp, hpre, hname⟩
  refine ⟨hfound i, ?_⟩
  rintro ⟨p, hp, rfl, rfl⟩
  cases hlook : g.partitionIndex? p.pre p.identifier with
  | none =>
      have hmiss := List.find?_eq_none.1 hlook i (h.listed i p hp)
      simp [hp] at hmiss
  | some j =>
      obtain ⟨q, hq, hpre, hidentifier⟩ := hfound j hlook
      rw [h.eq_of_same hq hp hpre hidentifier]

theorem WellFormed.outgoingPartition?_eq_some (h : g.WellFormed) :
    g.outgoingPartition? id identifier = some p ↔
      p ∈ g.partitions ∧ p.pre = id ∧ p.identifier = identifier := by
  have hfound : ∀ q, g.outgoingPartition? id identifier = some q →
      q ∈ g.partitions ∧ q.pre = id ∧ q.identifier = identifier := by
    intro q hq
    obtain ⟨j, hj, hget⟩ := List.mem_filterMap.1 (List.mem_of_find?_eq_some hq)
    obtain ⟨q', hq', hpre⟩ := h.leaving id j hj
    cases hget.symm.trans hq'
    exact ⟨Array.mem_of_getElem? hget, hpre, by simpa using List.find?_some hq⟩
  refine ⟨hfound p, ?_⟩
  rintro ⟨hp, rfl, rfl⟩
  cases hlook : g.outgoingPartition? p.pre p.identifier with
  | none =>
      have hnone : (g.outgoingPartition? p.pre p.identifier).isSome = false := by
        rw [hlook]
        rfl
      have hmiss := h.not_mem_of_outgoingPartition? hnone p (Array.mem_toList_iff.2 hp)
      exact absurd rfl hmiss
  | some q =>
      obtain ⟨hq, hpre, hidentifier⟩ := hfound q hlook
      obtain ⟨i, hi⟩ := Array.getElem?_of_mem hp
      obtain ⟨j, hj⟩ := Array.getElem?_of_mem hq
      cases h.eq_of_same hj hi hpre hidentifier
      rw [← hj, hi]

/-! ## Partitions -/

theorem outgoingIndices_withPartition (hlt : p.pre.index < g.outgoing.size) :
    (g.withPartition p).outgoingIndices id =
      if id = p.pre then g.outgoingIndices id ++ [g.partitions.size] else g.outgoingIndices id := by
  unfold outgoingIndices withPartition
  rw [Array.getElem?_modify]
  by_cases hid : id = p.pre
  · subst hid
    simp [Array.getElem?_eq_getElem hlt]
  · have hindex : p.pre.index ≠ id.index := by
      intro heq
      apply hid
      cases id
      cases hp : p.pre
      simp_all
    simp [hid, hindex]

/-- The edges of a partition are its own, each there once. -/
structure Tidy (p : EdgePartition) : Prop where
  starts : ∀ edge ∈ p.edges, edge.pre = p.pre
  once : p.edges.Nodup

theorem tidy_of_nil (h : p.edges = []) : Tidy p := ⟨by simp [h], by simp [h]⟩

theorem WellFormed.tidy (h : g.WellFormed) (hp : p ∈ g.partitions) : Tidy p :=
  ⟨h.starts p hp, h.once p hp⟩

theorem WellFormed.withPartition (h : g.WellFormed) (hsource : ∃ v, g.HasVertex p.pre v)
    (htarget : ∀ edge ∈ p.edges, ∃ v, g.HasVertex edge.post v)
    (hfree : (g.outgoingPartition? p.pre p.identifier).isSome = false)
    (howned : p.owner? = some g.code) (htidy : Tidy p) : (g.withPartition p).WellFormed := by
  have hlt : p.pre.index < g.outgoing.size := by
    obtain ⟨v, hv⟩ := hsource
    exact h.outgoing_size ▸ hv.lt
  refine ⟨h.toWired.withPartition hsource htarget hfree, ?_, ?_,
    forall_mem_withPartition h.starts htidy.starts, forall_mem_withPartition h.once htidy.once,
    forall_mem_withPartition h.owned howned, h.members, h.ordered⟩
  · intro id i hi
    rw [outgoingIndices_withPartition hlt] at hi
    have hold : i ∈ g.outgoingIndices id →
        ∃ q, (g.withPartition p).partitions[i]? = some q ∧ q.pre = id := by
      intro hi
      obtain ⟨q, hq, hpre⟩ := h.leaving id i hi
      refine ⟨q, ?_, hpre⟩
      have hbound := (Array.getElem?_eq_some_iff.1 hq).1
      simp only [MachineGraph.withPartition, Array.getElem?_push, if_neg hbound.ne, hq]
    split at hi
    · next hid =>
        rcases List.mem_append.1 hi with hi | hi
        · exact hold hi
        · cases List.mem_singleton.1 hi
          exact ⟨p, by simp [MachineGraph.withPartition], hid.symm⟩
    · exact hold hi
  · intro id
    rw [outgoingIndices_withPartition hlt]
    split
    · rw [List.pairwise_append]
      refine ⟨h.increasing id, List.pairwise_singleton _ _, fun i hi j hj => ?_⟩
      obtain ⟨q, hq, _⟩ := h.leaving id i hi
      rw [List.mem_singleton.1 hj]
      exact (Array.getElem?_eq_some_iff.1 hq).1
    · exact h.increasing id

/-! ## Edges -/

theorem WellFormed.replacePartition (h : g.WellFormed) (hp : g.partitions[i]? = some p)
    (hpre : q.pre = p.pre) (hidentifier : q.identifier = p.identifier)
    (howned : q.owner? = p.owner?) (htidy : Tidy q)
    (htarget : ∀ edge ∈ q.edges, ∃ v, g.HasVertex edge.post v) :
    (g.replacePartition i q).WellFormed := by
  have howned := howned.trans (h.owned p (Array.mem_of_getElem? hp))
  refine ⟨h.toWired.replace hp hpre hidentifier htarget, ?_, h.increasing,
    forall_mem_replacePartition hp h.starts htidy.starts,
    forall_mem_replacePartition hp h.once htidy.once,
    forall_mem_replacePartition hp h.owned howned, h.members, h.ordered⟩
  intro id j hj
  obtain ⟨r, hr, hid⟩ := h.leaving id j hj
  rw [getElem?_replacePartition hp]
  by_cases hij : i = j
  · subst hij
    cases hp.symm.trans hr
    exact ⟨q, if_pos rfl, hpre.trans hid⟩
  · exact ⟨r, by rw [if_neg hij, hr], hid⟩

theorem Tidy.withEdge (h : Tidy p) (hpre : edge.pre = p.pre) : Tidy (withEdge p edge) where
  starts := by
    intro e he
    rw [(withEdge_spec p edge).1]
    rcases mem_withEdge.1 he with he | rfl
    · exact h.starts e he
    · exact hpre
  once := by
    unfold MachineGraph.withEdge
    split
    · exact h.once
    · next hnew => exact h.once.append (List.nodup_singleton edge) (by simpa using hnew)

theorem WellFormed.replace_withEdge (h : g.WellFormed) (hp : g.partitions[i]? = some p)
    (hpre : p.pre = edge.pre) (htarget : ∃ v, g.HasVertex edge.post v) :
    (g.replacePartition i (withEdge p edge)).WellFormed := by
  have hpm := Array.mem_of_getElem? hp
  obtain ⟨hpre', hidentifier, _, howner⟩ := withEdge_spec p edge
  refine h.replacePartition hp hpre' hidentifier howner ((h.tidy hpm).withEdge hpre.symm) ?_
  intro e he
  rcases mem_withEdge.1 he with he | rfl
  · exact h.target p hpm e he
  · exact htarget

/-- The graph has an edge in the partition that leaves its source under an identifier. -/
def HasEdge (g : MachineGraph) (edge : MachineEdge) (identifier : String) (traffic : Traffic) :
    Prop :=
  ∃ p, g.outgoingPartition? edge.pre identifier = some p ∧ p.traffic = traffic ∧ edge ∈ p.edges

theorem WellFormed.hasEdge_iff (h : g.WellFormed) : g.HasEdge edge identifier traffic ↔
    ∃ p ∈ g.partitions, p.identifier = identifier ∧ p.traffic = traffic ∧ edge ∈ p.edges := by
  unfold HasEdge
  simp only [h.outgoingPartition?_eq_some]
  constructor
  · rintro ⟨p, ⟨hp, _, hidentifier⟩, htraffic, hedge⟩
    exact ⟨p, hp, hidentifier, htraffic, hedge⟩
  · rintro ⟨p, hp, hidentifier, htraffic, hedge⟩
    exact ⟨p, ⟨hp, (h.starts p hp edge hedge).symm, hidentifier⟩, htraffic, hedge⟩

theorem WellFormed.hasEdge_replace_withEdge (h : g.WellFormed)
    (hwell : (g.replacePartition i (withEdge p edge)).WellFormed)
    (hp : g.partitions[i]? = some p) {e : MachineEdge} :
    (g.replacePartition i (withEdge p edge)).HasEdge e identifier traffic ↔
      g.HasEdge e identifier traffic ∨
        (e = edge ∧ identifier = p.identifier ∧ traffic = p.traffic) := by
  have hpm := Array.mem_of_getElem? hp
  obtain ⟨_, hidentifier, htraffic, _⟩ := withEdge_spec p edge
  rw [hwell.hasEdge_iff, h.hasEdge_iff]
  simp only [mem_replacePartition hp]
  constructor
  · rintro ⟨r, rfl | ⟨j, _, hj⟩, hname, hkind, he⟩
    · rw [hidentifier] at hname
      rw [htraffic] at hkind
      rcases mem_withEdge.1 he with he | rfl
      · exact Or.inl ⟨p, hpm, hname, hkind, he⟩
      · exact Or.inr ⟨rfl, hname.symm, hkind.symm⟩
    · exact Or.inl ⟨r, Array.mem_of_getElem? hj, hname, hkind, he⟩
  · rintro (⟨r, hr, hname, hkind, he⟩ | ⟨rfl, rfl, rfl⟩)
    · obtain ⟨j, hj⟩ := Array.getElem?_of_mem hr
      by_cases hij : j = i
      · subst hij
        cases hp.symm.trans hj
        exact ⟨_, Or.inl rfl, hidentifier.trans hname, htraffic.trans hkind,
          mem_withEdge.2 (Or.inl he)⟩
      · exact ⟨r, Or.inr ⟨j, hij, hj⟩, hname, hkind, he⟩
    · exact ⟨_, Or.inl rfl, hidentifier, htraffic, mem_withEdge.2 (Or.inr rfl)⟩

theorem WellFormed.extendPartition_eq (h : g.WellFormed) (hp : g.partitions[i]? = some p)
    (hpre : p.pre = edge.pre) : g.extendPartition edge p.identifier p.traffic =
      .ok (g.replacePartition i (withEdge p edge)) :=
  extendPartition_eq_ok.2 ⟨i, p, h.partitionIndex?_eq_some.2 ⟨p, hp, hpre, rfl⟩, hp, rfl,
    h.owned p (Array.mem_of_getElem? hp), hpre.symm, rfl⟩

structure Gains (g : MachineGraph) (edge : MachineEdge) (identifier : String) (traffic : Traffic)
    (g' : MachineGraph) : Prop where
  wellFormed : g'.WellFormed
  same : SameVertices g g'
  code : g'.code = g.code
  hasEdge_iff : ∀ e name kind, g'.HasEdge e name kind ↔
    g.HasEdge e name kind ∨ (e = edge ∧ name = identifier ∧ kind = traffic)
  nonempty : (∀ p ∈ g.partitions, p.edges = [] → p.pre = edge.pre ∧ p.identifier = identifier) →
    ∀ p ∈ g'.partitions, p.edges ≠ []

theorem WellFormed.gains_of_replacePartition (h : g.WellFormed) (hp : g.partitions[i]? = some p)
    (hpre : p.pre = edge.pre) (htarget : ∃ v, g.HasVertex edge.post v) :
    g.Gains edge p.identifier p.traffic (g.replacePartition i (withEdge p edge)) := by
  have hwell := h.replace_withEdge hp hpre htarget
  refine ⟨hwell, ⟨rfl, rfl⟩, rfl, fun e name kind => h.hasEdge_replace_withEdge hwell hp, ?_⟩
  intro hothers r hr
  rcases (mem_replacePartition hp).1 hr with rfl | ⟨j, hij, hj⟩
  · exact List.ne_nil_of_mem (mem_withEdge.2 (Or.inr rfl))
  · intro hempty
    obtain ⟨hsource, hname⟩ := hothers r (Array.mem_of_getElem? hj) hempty
    exact hij (h.eq_of_same hj hp (hsource.trans hpre.symm) hname)

theorem WellFormed.gains_of_extendPartition (h : g.WellFormed)
    (htarget : ∃ v, g.HasVertex edge.post v)
    (hrun : g.extendPartition edge identifier traffic = .ok g') :
    g.Gains edge identifier traffic g' := by
  obtain ⟨i, p, hindex, hp, rfl, _, hpre, rfl⟩ := extendPartition_eq_ok.1 hrun
  obtain ⟨q, hq, _, rfl⟩ := h.partitionIndex?_eq_some.1 hindex
  cases hp.symm.trans hq
  exact h.gains_of_replacePartition hp hpre.symm htarget

/-- The partition that an edge needs, before the edge is in it. -/
def newPartition (g : MachineGraph) (edge : MachineEdge) (identifier : String)
    (traffic : Traffic) : EdgePartition :=
  { pre := edge.pre, identifier, traffic, owner? := some g.code }

theorem WellFormed.withNewPartition (h : g.WellFormed) (traffic : Traffic)
    (hsource : ∃ v, g.HasVertex edge.pre v)
    (hfree : (g.outgoingPartition? edge.pre identifier).isSome = false) :
    (g.withPartition (g.newPartition edge identifier traffic)).WellFormed :=
  h.withPartition hsource (by simp [newPartition]) hfree rfl (tidy_of_nil rfl)

theorem WellFormed.hasEdge_withPartition (h : g.WellFormed) (hwell : (g.withPartition p).WellFormed)
    (hempty : p.edges = []) :
    (g.withPartition p).HasEdge edge identifier traffic ↔ g.HasEdge edge identifier traffic := by
  rw [hwell.hasEdge_iff, h.hasEdge_iff]
  constructor
  · rintro ⟨q, hq, hname, hkind, hedge⟩
    rcases Array.mem_push.1 hq with hq | rfl
    · exact ⟨q, hq, hname, hkind, hedge⟩
    · rw [hempty] at hedge
      cases hedge
  · rintro ⟨q, hq, hname, hkind, hedge⟩
    exact ⟨q, Array.mem_push.2 (Or.inl hq), hname, hkind, hedge⟩

theorem WellFormed.gains_of_addEdge (h : g.WellFormed)
    (hrun : g.addEdge edge identifier traffic = .ok g') : g.Gains edge identifier traffic g' := by
  obtain ⟨htarget, hrun⟩ := addEdge_eq_ok.1 hrun
  split at hrun
  · exact h.gains_of_extendPartition htarget hrun
  · next hfree =>
      obtain ⟨g₁, hadd, hrest⟩ := hrun
      obtain ⟨hacc, rfl⟩ := addPartition_eq_ok.1 hadd
      have hwell := h.withNewPartition traffic hacc.source hacc.free
      have hgains := hwell.gains_of_extendPartition htarget hrest
      refine ⟨hgains.wellFormed, ⟨hgains.same.vertices, hgains.same.byApp⟩, hgains.code, ?_, ?_⟩
      · intro e name kind
        rw [hgains.hasEdge_iff, h.hasEdge_withPartition hwell rfl]
      · intro hothers
        apply hgains.nonempty
        intro q hq hempty
        rcases Array.mem_push.1 hq with hq | rfl
        · exact hothers q hq hempty
        · exact ⟨rfl, rfl⟩

theorem WellFormed.addEdge_of_hasEdge (h : g.WellFormed)
    (hedge : g.HasEdge edge identifier traffic) : g.addEdge edge identifier traffic = .ok g := by
  obtain ⟨p, hp, rfl, hmem⟩ := hedge
  obtain ⟨hpm, hpre, rfl⟩ := h.outgoingPartition?_eq_some.1 hp
  obtain ⟨i, hi⟩ := Array.getElem?_of_mem hpm
  have hsame : g.replacePartition i (withEdge p edge) = g := by
    have hpartitions : g.partitions.setIfInBounds i p = g.partitions := by
      apply Array.ext_getElem?
      intro j
      rw [Array.getElem?_setIfInBounds]
      split
      · next hij =>
          subst hij
          rw [if_pos (Array.getElem?_eq_some_iff.1 hi).1, hi]
      · rfl
    unfold MachineGraph.replacePartition withEdge
    rw [if_pos hmem, hpartitions]
  refine addEdge_eq_ok.2 ⟨h.target p hpm edge hmem, ?_⟩
  rw [hp, Option.isSome_some, if_pos rfl, h.extendPartition_eq hi hpre, hsame]

end MulticastMesh.Graph.MachineGraph
