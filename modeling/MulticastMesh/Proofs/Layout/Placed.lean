import Mathlib.Data.List.Nodup
import MulticastMesh.Proofs.Outcomes
import MulticastMesh.Layout.Placements
/-!
# Sets of placements

Adding placements only adds them: apart from the order the list grows by the batch.
-/

namespace MulticastMesh.Layout

open MulticastMesh.Graph (MachineVertexId)
open Mesh (Coord)
open Outcome

theorem insertByVertex_perm (p : Placement) (l : List Placement) :
    (insertByVertex p l).Perm (p :: l) := by
  induction l with
  | nil => rfl
  | cons q rest ih =>
      unfold insertByVertex
      split
      · rfl
      · exact (ih.cons q).trans (List.Perm.swap p q rest)

namespace Placements

variable {s s' : Placements} {p q : Placement} {v : MachineVertexId}

theorem toList_add (h : s.add p = .ok s') : s'.toList = insertByVertex p s.toList := by
  unfold add at h
  split at h
  · cases h
  · cases h
    rfl

theorem addAll_perm {batch : List Placement} (h : s.addAll batch = .ok s') :
    s'.toList.Perm (s.toList ++ batch) := by
  obtain ⟨_, _, hfold⟩ := bind_eq_ok.1 h
  refine foldlM_induction (motive := fun before t => t.toList.Perm (s.toList ++ before))
    hfold (by simp) ?_
  intro before p after _ t t' ht hstep
  rw [toList_add hstep, ← List.append_assoc]
  calc (insertByVertex p t.toList).Perm (p :: t.toList) := insertByVertex_perm p t.toList
    _ |>.Perm (p :: (s.toList ++ before)) := ht.cons p
    _ |>.Perm (s.toList ++ before ++ [p]) := (List.perm_append_singleton p _).symm

/-- Placements of different vertices on different cores. -/
structure NoRepeats (l : List Placement) : Prop where
  vertices : (l.map Placement.vertex).Nodup
  cores : (l.map Placement.core).Nodup

theorem NoRepeats.of_perm {l l' : List Placement} (h : NoRepeats l) (hperm : l.Perm l') :
    NoRepeats l' :=
  ⟨(hperm.map _).nodup_iff.1 h.vertices, (hperm.map _).nodup_iff.1 h.cores⟩

theorem noRepeats_toList (s : Placements) : NoRepeats s.toList where
  vertices := by
    rw [List.nodup_iff_pairwise_ne, List.pairwise_map]
    exact s.sorted.imp fun hlt heq => by simp [heq] at hlt
  cores := by
    rw [List.nodup_iff_pairwise_ne, List.pairwise_map]
    exact s.injective

theorem eq_of_vertex_eq (hp : p ∈ s.toList) (hq : q ∈ s.toList) (h : p.vertex = q.vertex) :
    p = q :=
  List.inj_on_of_nodup_map s.noRepeats_toList.vertices hp hq h

theorem eq_of_core_eq (hp : p ∈ s.toList) (hq : q ∈ s.toList) (h : p.core = q.core) : p = q :=
  List.inj_on_of_nodup_map s.noRepeats_toList.cores hp hq h

theorem find?_eq_some_iff : s.find? v = some p ↔ p ∈ s.toList ∧ p.vertex = v := by
  unfold find?
  constructor
  · intro h
    exact ⟨List.mem_of_find?_eq_some h, by simpa using List.find?_some h⟩
  · rintro ⟨hp, rfl⟩
    cases h : s.toList.find? fun q => q.vertex == p.vertex with
    | none =>
        have hmiss := List.find?_eq_none.1 h p hp
        simp at hmiss
    | some q =>
        have hq : q.vertex = p.vertex := by simpa using List.find?_some h
        rw [eq_of_vertex_eq (List.mem_of_find?_eq_some h) hp hq]

theorem isPlaced_iff : s.isPlaced v = true ↔ ∃ p ∈ s.toList, p.vertex = v := by
  unfold isPlaced
  rw [Option.isSome_iff_exists]
  simp only [find?_eq_some_iff]

theorem placementOf_eq_ok : s.placementOf v = .ok p ↔ p ∈ s.toList ∧ p.vertex = v := by
  rw [← find?_eq_some_iff]
  unfold placementOf
  cases s.find? v <;> simp

theorem onCore?_eq_some_iff {chip : Coord} {processor : Nat} :
    s.onCore? chip processor = some p ↔ p ∈ s.toList ∧ p.core = (chip, processor) := by
  unfold onCore?
  constructor
  · intro h
    exact ⟨List.mem_of_find?_eq_some h, by simpa using List.find?_some h⟩
  · rintro ⟨hp, hcore⟩
    cases h : s.toList.find? fun q => q.core == (chip, processor) with
    | none =>
        have hmiss := List.find?_eq_none.1 h p hp
        simp [hcore] at hmiss
    | some q =>
        have hq : q.core = (chip, processor) := by simpa using List.find?_some h
        rw [eq_of_core_eq (List.mem_of_find?_eq_some h) hp (hq.trans hcore.symm)]

theorem vertexOn?_eq_some_iff {chip : Coord} {processor : Nat} :
    s.vertexOn? chip processor = some v ↔
      ∃ p ∈ s.toList, p.core = (chip, processor) ∧ p.vertex = v := by
  unfold vertexOn?
  simp only [Option.map_eq_some_iff, onCore?_eq_some_iff, and_assoc]

theorem onChip_perm (s : Placements) (chip : Coord) :
    (s.onChip chip).Perm (s.toList.filter fun p => p.chip == chip) :=
  List.mergeSort_perm _ _

/-! ## Batches -/

/-- The members of a set decide everything about it. -/
theorem ext_perm (h : s.toList.Perm s'.toList) : s = s' := by
  have hlists : s.toList = s'.toList :=
    h.eq_of_pairwise (fun p q _ _ hpq hqp => absurd hqp (Nat.lt_asymm hpq)) s.sorted s'.sorted
  cases s
  cases s'
  cases hlists
  rfl

theorem clash?_eq_none_iff :
    s.clash? p = none ↔ ∀ q ∈ s.toList, q.vertex ≠ p.vertex ∧ q.core ≠ p.core := by
  constructor
  · intro h q hq
    exact ⟨vertex_ne_of_clash?_eq_none h q hq, core_ne_of_clash?_eq_none h q hq⟩
  · intro h
    have hvertex : s.find? p.vertex = none :=
      Option.eq_none_iff_forall_ne_some.2 fun q hq => by
        obtain ⟨hmem, heq⟩ := find?_eq_some_iff.1 hq
        exact (h q hmem).1 heq
    have hcore : s.onCore? p.chip p.processor = none :=
      Option.eq_none_iff_forall_ne_some.2 fun q hq => by
        obtain ⟨hmem, heq⟩ := onCore?_eq_some_iff.1 hq
        exact (h q hmem).2 heq
    unfold clash?
    rw [hvertex, hcore]

theorem noRepeats_append_cons_iff {rest : List Placement} :
    NoRepeats (s.toList ++ p :: rest) ↔
      s.clash? p = none ∧ NoRepeats (insertByVertex p s.toList ++ rest) := by
  have hperm : (s.toList ++ p :: rest).Perm (insertByVertex p s.toList ++ rest) :=
    List.perm_middle.trans ((insertByVertex_perm p s.toList).symm.append_right rest)
  constructor
  · intro h
    refine ⟨clash?_eq_none_iff.2 fun q hq => ?_, h.of_perm hperm⟩
    obtain ⟨hvertices, hcores⟩ := h
    rw [List.map_append, List.nodup_append] at hvertices hcores
    exact ⟨hvertices.2.2 _ (List.mem_map_of_mem hq) _ (by simp),
      hcores.2.2 _ (List.mem_map_of_mem hq) _ (by simp)⟩
  · rintro ⟨_, h⟩
    exact h.of_perm hperm.symm

theorem add_eq_ok (h : s.clash? p = none) : ∃ s', s.add p = .ok s' := by
  unfold add
  split
  · next e he =>
      rw [h] at he
      cases he
  · exact ⟨_, rfl⟩

theorem add_eq_error {e : PlacementError} (h : s.clash? p = some e) : s.add p = .error e := by
  unfold add
  split
  · next e' he =>
      rw [h] at he
      cases he
      rfl
  · next hnone =>
      rw [h] at hnone
      cases hnone

theorem clash?_of_add (h : s.add p = .ok s') : s.clash? p = none := by
  unfold add at h
  split at h
  · cases h
  · next hnone => exact hnone

theorem mem_toList_add (h : s.add p = .ok s') : q ∈ s'.toList ↔ q = p ∨ q ∈ s.toList := by
  rw [toList_add h, mem_insertByVertex]

theorem find?_add (h : s.add p = .ok s') :
    s'.find? v = if p.vertex = v then some p else s.find? v := by
  have hfree := clash?_eq_none_iff.1 (clash?_of_add h)
  ext q
  rw [find?_eq_some_iff, mem_toList_add h]
  split
  · next heq =>
      subst heq
      constructor
      · rintro ⟨rfl | hq, hv⟩
        · rfl
        · exact absurd hv (hfree q hq).1
      · intro hq
        cases hq
        exact ⟨Or.inl rfl, rfl⟩
  · next hne =>
      rw [find?_eq_some_iff]
      constructor
      · rintro ⟨rfl | hq, hv⟩
        · exact absurd hv hne
        · exact ⟨hq, hv⟩
      · rintro ⟨hq, hv⟩
        exact ⟨Or.inr hq, hv⟩

theorem vertexOn?_add (h : s.add p = .ok s') (c : Coord × Nat) :
    s'.vertexOn? c.1 c.2 = if p.core = c then some p.vertex else s.vertexOn? c.1 c.2 := by
  have hfree := clash?_eq_none_iff.1 (clash?_of_add h)
  ext v
  rw [vertexOn?_eq_some_iff]
  simp only [mem_toList_add h, or_and_right, exists_or, exists_eq_left]
  split
  · next heq =>
      subst heq
      constructor
      · rintro (⟨_, rfl⟩ | ⟨q, hq, hc, _⟩)
        · rfl
        · exact absurd hc (hfree q hq).2
      · intro hv
        cases hv
        exact Or.inl ⟨rfl, rfl⟩
  · next hne =>
      rw [vertexOn?_eq_some_iff]
      constructor
      · rintro (⟨hc, _⟩ | hq)
        · exact absurd hc hne
        · exact hq
      · exact Or.inr

theorem exists_foldlM_add_iff {batch : List Placement} :
    (∃ s', batch.foldlM add s = .ok s') ↔ NoRepeats (s.toList ++ batch) := by
  induction batch generalizing s with
  | nil => simpa [pure, Except.pure] using noRepeats_toList s
  | cons p rest ih =>
      rw [noRepeats_append_cons_iff]
      simp only [List.foldlM_cons, bind_eq_ok]
      constructor
      · rintro ⟨s', t, hadd, hrest⟩
        have htail := ih.1 ⟨s', hrest⟩
        rw [toList_add hadd] at htail
        exact ⟨clash?_of_add hadd, htail⟩
      · rintro ⟨hnone, htail⟩
        obtain ⟨t, hadd⟩ := add_eq_ok hnone
        rw [← toList_add hadd] at htail
        obtain ⟨s', hrest⟩ := ih.2 htail
        exact ⟨s', t, hadd, hrest⟩

/-- What a batch has to avoid are the placements of the set and its own. -/
theorem noRepeats_append_iff {batch : List Placement} : NoRepeats (s.toList ++ batch) ↔
    (∀ p ∈ batch, s.clash? p = none) ∧ NoRepeats batch := by
  constructor
  · intro h
    refine ⟨fun p hp => ?_, ?_⟩
    · obtain ⟨front, back, rfl⟩ := List.append_of_mem hp
      have hmoved : NoRepeats (s.toList ++ p :: (front ++ back)) :=
        h.of_perm (List.perm_middle.append_left s.toList)
      exact (noRepeats_append_cons_iff.1 hmoved).1
    · obtain ⟨hvertices, hcores⟩ := h
      rw [List.map_append] at hvertices hcores
      exact ⟨hvertices.of_append_right, hcores.of_append_right⟩
  · rintro ⟨hfree, hbatch⟩
    have hapart : ∀ q ∈ s.toList, ∀ p ∈ batch, q.vertex ≠ p.vertex ∧ q.core ≠ p.core :=
      fun q hq p hp => clash?_eq_none_iff.1 (hfree p hp) q hq
    have hset := s.noRepeats_toList
    refine ⟨?_, ?_⟩
    · rw [List.map_append, List.nodup_append]
      refine ⟨hset.vertices, hbatch.vertices, ?_⟩
      simp only [List.forall_mem_map]
      exact fun q hq p hp => (hapart q hq p hp).1
    · rw [List.map_append, List.nodup_append]
      refine ⟨hset.cores, hbatch.cores, ?_⟩
      simp only [List.forall_mem_map]
      exact fun q hq p hp => (hapart q hq p hp).2

theorem checkBatch_eq_ok {earlier : Placements} {batch : List Placement} {u : Unit} :
    s.checkBatch earlier batch = .ok u ↔
      (∀ p ∈ batch, s.clash? p = none) ∧ ∃ t, batch.foldlM add earlier = .ok t := by
  induction batch generalizing earlier with
  | nil => simp [checkBatch, pure, Except.pure]
  | cons p rest ih =>
      unfold checkBatch
      rw [List.forall_mem_cons]
      cases hclash : s.clash? p with
      | some e => simp
      | none =>
          simp only [List.foldlM_cons, bind_eq_ok, ih, true_and]
          constructor
          · rintro ⟨t, hadd, hall, t', hrest⟩
            exact ⟨hall, t', t, hadd, hrest⟩
          · rintro ⟨hall, t', t, hadd, hrest⟩
            exact ⟨t, hadd, hall, t', hrest⟩

theorem checkBatch_empty_eq_ok {batch : List Placement} {u : Unit} :
    s.checkBatch empty batch = .ok u ↔ NoRepeats (s.toList ++ batch) := by
  rw [checkBatch_eq_ok, exists_foldlM_add_iff]
  exact noRepeats_append_iff.symm

theorem exists_addAll_iff {batch : List Placement} :
    (∃ s', s.addAll batch = .ok s') ↔ NoRepeats (s.toList ++ batch) := by
  unfold addAll
  simp only [bind_eq_ok, checkBatch_empty_eq_ok]
  constructor
  · rintro ⟨_, _, hnorepeats, _⟩
    exact hnorepeats
  · intro hnorepeats
    obtain ⟨s', hfold⟩ := exists_foldlM_add_iff.2 hnorepeats
    exact ⟨s', (), hnorepeats, hfold⟩

theorem addAll_of_perm {batch batch' : List Placement} (hperm : batch.Perm batch')
    (h : s.addAll batch = .ok s') : s.addAll batch' = .ok s' := by
  have hnorepeats := exists_addAll_iff.1 ⟨s', h⟩
  obtain ⟨t, ht⟩ := exists_addAll_iff.2 (hnorepeats.of_perm (hperm.append_left s.toList))
  have hsame : t = s' := ext_perm <|
    calc t.toList.Perm (s.toList ++ batch') := addAll_perm ht
      _ |>.Perm (s.toList ++ batch) := (hperm.append_left s.toList).symm
      _ |>.Perm s'.toList := (addAll_perm h).symm
  rw [ht, hsame]

theorem ofList_toList (s : Placements) : ofList s.toList = .ok s := by
  obtain ⟨t, ht⟩ := exists_addAll_iff.2
    (show NoRepeats (empty.toList ++ s.toList) from noRepeats_toList s)
  have hsame : t = s := ext_perm (addAll_perm ht)
  unfold ofList
  rw [ht, hsame]

end Placements

end MulticastMesh.Layout
