import MulticastMesh.Proofs.Graph.Built
import MulticastMesh.Proofs.Keys.Apart
import MulticastMesh.Proofs.Reordering
/-!
# Keys do not depend on the order of partitions

Partitions in another order lead to the same requests, only with the senders in another order.
Blocks are handed out by owner and size, and the keys of a block do not depend on the order of its
senders.
-/

namespace MulticastMesh.Keys

open MulticastMesh.Graph (AppVertexId ApplicationGraph EdgePartition MachineGraph MachineVertex
  MachineVertexId)
open MulticastMesh.Graph.MachineGraph (Reordered SamePartition SameVertices)
open Outcome

variable {app : ApplicationGraph} {g g' : MachineGraph} {p q : EdgePartition}
  {s t : Requests} {requests requests' : List BlockRequest} {r r' : BlockRequest}
  {k : BlockOwner × String} {x : Nat × MachineVertexId}

/-! ## Requests up to the order of their senders -/

/-- A request and, apart from it, its senders in no order. -/
def content (r : BlockRequest) : BlockRequest × Multiset (Nat × MachineVertexId) :=
  ({ r with senders := [] }, r.senders)

def SameRequest (r r' : BlockRequest) : Prop := content r = content r'

def contents (t : Requests) :
    Std.ExtTreeMap (BlockOwner × String) (BlockRequest × Multiset (Nat × MachineVertexId))
      compare :=
  t.map fun _ r => content r

theorem content_withSender : content (withSender r x) = ((content r).1, (content r).2 + {x}) :=
  rfl

theorem contents_getElem? : (contents t)[k]? = (t[k]?).map content :=
  Std.ExtTreeMap.getElem?_map

theorem contents_insert : contents (t.insert k r) = (contents t).insert k (content r) := by
  apply Std.ExtTreeMap.ext_getElem?
  intro k'
  rw [contents_getElem?, Maps.getElem?_insert_eq_ite, Maps.getElem?_insert_eq_ite,
    contents_getElem?]
  split
  · rfl
  · rfl

theorem Asked.congr (hst : contents s = contents t) (h : Asked app g s k r) :
    ∃ r', Asked app g t k r' ∧ content r = content r' := by
  have hk : (s[k]?).map content = (t[k]?).map content := by
    rw [← contents_getElem?, ← contents_getElem?, hst]
  rcases h with hfound | ⟨hnone, hnew⟩
  · rw [hfound, Option.map_some] at hk
    obtain ⟨r', hr', hcontent⟩ := Option.map_eq_some_iff.1 hk.symm
    exact ⟨r', Or.inl hr', hcontent.symm⟩
  · rw [hnone, Option.map_none] at hk
    exact ⟨r, Or.inr ⟨Option.map_eq_none_iff.1 hk.symm, hnew⟩, rfl⟩

theorem asked_insert_of_ne {k' : BlockOwner × String} (hne : k ≠ k') :
    Asked app g (s.insert k r) k' r' ↔ Asked app g s k' r' := by
  unfold Asked
  rw [Maps.getElem?_insert_of_ne hne]

theorem asked_insert_self : Asked app g (s.insert k r) k r' ↔ r' = r := by
  unfold Asked
  rw [Maps.getElem?_insert_eq_ite, if_pos rfl]
  simp [eq_comm]

def SameContents (s t : Requests) : Prop := contents s = contents t

theorem respects_addSender (p : EdgePartition) :
    Respects SameContents fun s => addSender app g s p := by
  intro s t s' hst h
  obtain ⟨v, r, hv, hasked, rfl⟩ := addSender_eq_ok.1 h
  obtain ⟨r', hasked', hcontent⟩ := hasked.congr hst
  refine ⟨_, addSender_eq_ok.2 ⟨v, r', hv, hasked', rfl⟩, ?_⟩
  unfold SameContents at hst ⊢
  rw [contents_insert, contents_insert, hst, content_withSender, content_withSender, hcontent]

theorem swaps_addSender (p q : EdgePartition) :
    Swaps SameContents (fun s => addSender app g s p) fun s => addSender app g s q := by
  intro s s' _ h
  obtain ⟨u, hu, h⟩ := bind_eq_ok.1 h
  obtain ⟨v, r, hv, hasked, rfl⟩ := addSender_eq_ok.1 hu
  obtain ⟨w, r', hw, hasked', rfl⟩ := addSender_eq_ok.1 h
  by_cases hkey : (ownerOf p.pre v, p.identifier) = (ownerOf q.pre w, q.identifier)
  · -- both senders join one request
    rw [← hkey] at hasked' ⊢
    cases asked_insert_self.1 hasked'
    have hfirst : Asked app g s (ownerOf q.pre w, q.identifier) r := hkey ▸ hasked
    have hsecond : Asked app g (s.insert (ownerOf q.pre w, q.identifier)
        (withSender r (w.index, q.pre))) (ownerOf p.pre v, p.identifier)
        (withSender r (w.index, q.pre)) := by
      rw [hkey]
      exact asked_insert_self.2 rfl
    refine ⟨_, bind_eq_ok.2 ⟨_, addSender_eq_ok.2 ⟨w, r, hw, hfirst, rfl⟩,
      addSender_eq_ok.2 ⟨v, _, hv, hsecond, rfl⟩⟩, ?_⟩
    unfold SameContents
    rw [hkey, Maps.insert_insert_self, Maps.insert_insert_self, contents_insert, contents_insert]
    simp only [content_withSender, add_right_comm]
  · refine ⟨_, bind_eq_ok.2 ⟨_, addSender_eq_ok.2
      ⟨w, r', hw, (asked_insert_of_ne hkey).1 hasked', rfl⟩,
      addSender_eq_ok.2 ⟨v, r, hv, (asked_insert_of_ne (Ne.symm hkey)).2 hasked, rfl⟩⟩, ?_⟩
    exact congrArg contents (Maps.insert_comm hkey)

theorem commuting_addSender (partitions : List EdgePartition) :
    Commuting SameContents (addSender app g) partitions where
  respects := fun p _ => respects_addSender p
  swaps := fun p _ q _ => swaps_addSender p q

/-! ## The requests of a graph -/

theorem requestOfApp_same (h : SameVertices g g') (id : AppVertexId) (identifier : String) :
    requestOfApp app g' id identifier = requestOfApp app g id identifier := by
  unfold requestOfApp
  simp only [h.verticesOf_eq, h.vertex_eq]

theorem addSender_same (h : SameVertices g g') (hpq : SamePartition p q) :
    addSender app g' s q = addSender app g s p := by
  unfold addSender
  simp only [h.vertex_eq, requestOfApp_same h, hpq.pre, hpq.identifier]

theorem forall₂_sameRequest_iff : List.Forall₂ SameRequest requests requests' ↔
    requests.map content = requests'.map content := by
  rw [← List.forall₂_eq_eq_eq, List.forall₂_map_left_iff, List.forall₂_map_right_iff]
  rfl

theorem blockRequests_reordered (h : Reordered g g')
    (hrun : blockRequests app g = .ok requests) :
    ∃ requests', blockRequests app g' = .ok requests' ∧
      List.Forall₂ SameRequest requests requests' := by
  obtain ⟨l, hperm, hall⟩ := h.partitions
  obtain ⟨s, hs, hreturn⟩ := bind_eq_ok.1 hrun
  cases pure_eq_ok.1 hreturn
  have hcommuting : Commuting SameContents (addSender app g) g.multicastPartitions :=
    commuting_addSender g.multicastPartitions
  obtain ⟨t, ht, hst⟩ := hcommuting.foldlM_perm (fun _ _ => Eq.symm) (fun _ _ _ => Eq.trans)
    hperm rfl hs
  have ht : g'.multicastPartitions.foldlM (addSender app g') ∅ = .ok t := by
    rw [← foldlM_congr_ok (hall.imp fun p q hpq s s' => by rw [addSender_same h.same hpq])]
    exact ht
  refine ⟨_, bind_eq_ok.2 ⟨t, ht, rfl⟩, ?_⟩
  have hlist : ∀ u : Requests, (u.toList.map Prod.snd).map content =
      (contents u).toList.map Prod.snd := by
    intro u
    rw [contents, Std.ExtTreeMap.toList_map, List.map_map, List.map_map]
    rfl
  rw [forall₂_sameRequest_iff, hlist, hlist, hst]

/-- The senders of a request come with their own indices. -/
def OwnIndices (g : MachineGraph) (r : BlockRequest) : Prop :=
  ∀ x ∈ r.senders, ∃ v, g.HasVertex x.2 v ∧ v.index = x.1

theorem OwnIndices.withSender {v : MachineVertex} {id : MachineVertexId} (h : OwnIndices g r)
    (hv : g.HasVertex id v) : OwnIndices g (withSender r (v.index, id)) := by
  intro x hx
  rcases List.mem_append.1 hx with hx | hx
  · exact h x hx
  · cases List.mem_singleton.1 hx
    exact ⟨v, hv, rfl⟩

theorem blockRequests_ownIndices (h : blockRequests app g = .ok requests) :
    ∀ r ∈ requests, OwnIndices g r := by
  refine blockRequests_forall h ?_ fun _ _ _ hr hv => hr.withSender hv
  intro owner identifier r hr
  simp [OwnIndices, (requestFor_names hr).2.2]

/-! ## Handing out blocks -/

variable {a b : Assignment} {base : Key}

theorem sameRequest_iff : SameRequest r r' ↔
    ∃ l, r.senders.Perm l ∧ r' = { r with senders := l } := by
  constructor
  · intro h
    obtain ⟨hsame, hsenders⟩ := Prod.ext_iff.1 h
    refine ⟨r'.senders, Multiset.coe_eq_coe.1 hsenders, ?_⟩
    cases r
    cases r'
    simp_all [content]
  · rintro ⟨l, hperm, rfl⟩
    exact Prod.ext rfl (Multiset.coe_eq_coe.2 hperm)

theorem addKeys_comm {k l : PartitionKeys}
    (h : (k.vertex, k.identifier) ≠ (l.vertex, l.identifier)) :
    (a.addKeys k).addKeys l = (a.addKeys l).addKeys k := by
  unfold Assignment.addKeys
  rw [Maps.insert_comm h]

theorem assignBlock_reordered (hown : OwnIndices g r) (hsame : SameRequest r r') :
    assignBlock a r base = .ok b ↔ assignBlock a r' base = .ok b := by
  obtain ⟨l, hperm, rfl⟩ := sameRequest_iff.1 hsame
  unfold assignBlock
  simp only [bind_eq_ok]
  refine exists_congr fun c => and_congr_left fun _ =>
    foldlM_perm_eq_ok hperm (P := fun _ => True) trivial (fun _ _ _ _ _ _ => trivial) ?_
  rintro ⟨i, id⟩ hi ⟨j, id'⟩ hj hne s s' _ hrun
  have hid : id ≠ id' := by
    -- one vertex has one index
    rintro rfl
    obtain ⟨v, hv, hvi⟩ := hown _ hi
    obtain ⟨w, hw, hwj⟩ := hown _ hj
    cases hv.eq hw
    exact hne (Prod.ext (hvi.symm.trans hwj) rfl)
  obtain ⟨u, hu, hrun⟩ := bind_eq_ok.1 hrun
  obtain ⟨range, hrange, hreturn⟩ := bind_eq_ok.1 hu
  cases pure_eq_ok.1 hreturn
  obtain ⟨range', hrange', hreturn⟩ := bind_eq_ok.1 hrun
  cases pure_eq_ok.1 hreturn
  refine bind_eq_ok.2 ⟨_, bind_eq_ok.2 ⟨range', hrange', rfl⟩,
    bind_eq_ok.2 ⟨range, hrange, pure_eq_ok.2 ?_⟩⟩
  exact addKeys_comm fun heq => hid (Prod.ext_iff.1 heq).1.symm

theorem SameRequest.fixed?_eq (h : SameRequest r r') : r'.fixed? = r.fixed? := by
  obtain ⟨l, _, rfl⟩ := sameRequest_iff.1 h
  rfl

theorem SameRequest.bits_eq (h : SameRequest r r') : r'.bits = r.bits := by
  obtain ⟨l, _, rfl⟩ := sameRequest_iff.1 h
  rfl

/-- Whether a range is free of the reserved ones does not depend on who reserved them. -/
theorem find?_overlaps_eq_none {reserved reserved' : List (KeyRange × BlockRequest)}
    {range : KeyRange} (h : reserved.map Prod.fst = reserved'.map Prod.fst)
    (hnone : reserved.find? (fun earlier => earlier.1.overlaps range) = none) :
    reserved'.find? (fun earlier => earlier.1.overlaps range) = none := by
  have hfirst : ∀ l : List (KeyRange × BlockRequest),
      l.find? (fun earlier => earlier.1.overlaps range) = none ↔
        (l.map Prod.fst).find? (fun earlier => earlier.overlaps range) = none := by
    intro l
    rw [List.find?_map, Option.map_eq_none_iff]
    rfl
  rw [hfirst, ← h, ← hfirst]
  exact hnone

theorem reserveFixed_reordered {reserved reserved' kept : List (KeyRange × BlockRequest)}
    (hall : List.Forall₂ SameRequest requests requests')
    (hown : ∀ r ∈ requests, OwnIndices g r)
    (hreserved : reserved.map Prod.fst = reserved'.map Prod.fst)
    (h : reserveFixed a reserved requests = .ok (b, kept)) :
    ∃ kept', reserveFixed a reserved' requests' = .ok (b, kept') ∧
      kept.map Prod.fst = kept'.map Prod.fst := by
  induction hall generalizing a reserved reserved' with
  | nil =>
      cases h
      exact ⟨reserved', rfl, hreserved⟩
  | @cons r r' requests requests' hsame _ ih =>
      obtain ⟨hr, hrest⟩ := List.forall_mem_cons.1 hown
      unfold reserveFixed at h ⊢
      rw [hsame.fixed?_eq]
      cases hfixed : r.fixed? with
      | none =>
          rw [hfixed] at h
          exact ih hrest hreserved h
      | some range =>
          simp only [hfixed] at h
          simp only [hsame.bits_eq]
          split at h
          · cases h
          · next hholds =>
              rw [if_neg hholds]
              split at h
              · cases h
              · next hfree =>
                  obtain ⟨c, hc, hrun⟩ := bind_eq_ok.1 h
                  have hreserved' : (reserved ++ [(range, r)]).map Prod.fst =
                      (reserved' ++ [(range, r')]).map Prod.fst := by simp [hreserved]
                  obtain ⟨kept', hkept', hranges⟩ := ih hrest hreserved' hrun
                  simp only [find?_overlaps_eq_none hreserved hfree]
                  have hc' := (assignBlock_reordered hr hsame).1 hc
                  exact ⟨kept', bind_eq_ok.2 ⟨c, hc', hkept'⟩, hranges⟩

theorem assignFree_reordered {reserved : List KeyRange} {cursor : Nat}
    (hall : List.Forall₂ SameRequest requests requests')
    (hown : ∀ r ∈ requests, OwnIndices g r) (h : assignFree reserved a cursor requests = .ok b) :
    assignFree reserved a cursor requests' = .ok b := by
  induction hall generalizing a cursor with
  | nil => exact h
  | @cons r r' requests requests' hsame _ ih =>
      obtain ⟨hr, hrest⟩ := List.forall_mem_cons.1 hown
      unfold assignFree at h ⊢
      simp only [hsame.bits_eq]
      split at h
      · cases h
      · next hbits =>
          rw [if_neg hbits]
          simp only at h
          split at h
          · cases h
          · next base hbase =>
              obtain ⟨c, hc, hrun⟩ := bind_eq_ok.1 h
              have hc' := (assignBlock_reordered hr hsame).1 hc
              exact bind_eq_ok.2 ⟨c, hc', ih hrest hrun⟩

/-- Free requests stay in the same order: it depends on their sizes and on their places so far
only. -/
theorem sortFree_reordered
    (hall : List.Forall₂ SameRequest requests requests') :
    List.Forall₂ SameRequest
      ((requests.filter fun r => r.fixed?.isNone).mergeSort fun r s => s.bits ≤ r.bits)
      ((requests'.filter fun r => r.fixed?.isNone).mergeSort fun r s => s.bits ≤ r.bits) := by
  have hsort : ∀ l : List BlockRequest,
      ((l.filter fun r => r.fixed?.isNone).mergeSort fun r s => s.bits ≤ r.bits).map content =
        ((l.map content).filter fun c => c.1.fixed?.isNone).mergeSort
          fun c d => d.1.bits ≤ c.1.bits := by
    intro l
    rw [List.filter_map]
    exact List.map_mergeSort fun _ _ _ _ => rfl
  rw [forall₂_sameRequest_iff] at hall ⊢
  rw [hsort, hsort, hall]

theorem allocate_of_reordered (h : Reordered g g') (hrun : allocate app g = .ok a) :
    allocate app g' = .ok a := by
  obtain ⟨requests, hrequests, hrun⟩ := bind_eq_ok.1 hrun
  obtain ⟨⟨b, reserved⟩, hreserve, hassign⟩ := bind_eq_ok.1 hrun
  obtain ⟨requests', hrequests', hall⟩ := blockRequests_reordered h hrequests
  have hown := blockRequests_ownIndices hrequests
  obtain ⟨reserved', hreserve', hranges⟩ :=
    reserveFixed_reordered hall hown rfl (lift_eq_ok.1 hreserve)
  refine bind_eq_ok.2 ⟨requests', hrequests',
    bind_eq_ok.2 ⟨(b, reserved'), lift_eq_ok.2 hreserve', lift_eq_ok.2 ?_⟩⟩
  simp only [← hranges]
  refine assignFree_reordered (sortFree_reordered hall) (fun r hr => hown r ?_)
    (lift_eq_ok.1 hassign)
  exact List.mem_of_mem_filter (List.mem_mergeSort.1 hr)

/-- Keys are allocated alike for partitions in any order. -/
theorem allocate_reordered (h : Reordered g g') (a : Assignment) :
    allocate app g = .ok a ↔ allocate app g' = .ok a :=
  ⟨allocate_of_reordered h, allocate_of_reordered h.symm⟩

/-- The tapped graph with its partitions in another order: the block of the vertex in two slices
is asked for by its second slice first. -/
def tappedLater : MachineGraph :=
  { tappedGraph with
    partitions := #[
      ⟨⟨3⟩, "taps", .multicast, [⟨⟨3⟩, ⟨0⟩⟩], some 0⟩,
      ⟨⟨1⟩, "rates", .multicast, [⟨⟨1⟩, ⟨3⟩⟩], some 0⟩,
      ⟨⟨1⟩, "spikes", .multicast, [⟨⟨1⟩, ⟨2⟩⟩], some 0⟩,
      ⟨⟨0⟩, "spikes", .multicast, [⟨⟨0⟩, ⟨2⟩⟩], some 0⟩]
    outgoing := #[[3], [1, 2], [], [0]] }

theorem allocate_reordered_tapped : Reordered tappedGraph tappedLater ∧
    ∃ a, allocate tappedApp tappedGraph = .ok a ∧ allocate tappedApp tappedLater = .ok a := by
  have h : Reordered tappedGraph tappedLater :=
    ⟨⟨rfl, rfl⟩, _, by decide, List.forall₂_same.2 fun _ _ => ⟨rfl, rfl, List.Perm.refl _⟩⟩
  obtain ⟨a, ha⟩ := Outcome.exists_of_isOk
    (show (allocate tappedApp tappedGraph).isOk = true by decide +kernel)
  exact ⟨h, a, ha, (allocate_reordered h a).1 ha⟩

end MulticastMesh.Keys
