import Mathlib.Data.List.Find
import MulticastMesh.Layout.Registry
import MulticastMesh.Proofs.Layout.Placed
import MulticastMesh.Proofs.Maps
/-!
# Two maps that move together

The maps of a registry say what a set of placements says.  Every call on the registry has the
result that it has on the set, and one that fails writes nothing.
-/

namespace MulticastMesh.Layout

open MulticastMesh.Graph (MachineVertexId)
open Mesh (Coord)
open Outcome
open Placements (NoRepeats)

variable {r r' : Registry} {s s' t t' : Placements} {p : Placement} {batch : List Placement}

/-- The two maps of a registry look up what a set of placements does. -/
structure Mirrors (r : Registry) (s : Placements) : Prop where
  byVertex : ∀ v : MachineVertexId, r.byVertex[v]? = s.find? v
  byCore : ∀ c : Coord × Nat, r.byCore[c]? = s.vertexOn? c.1 c.2

theorem mirrors_empty : Mirrors {} .empty := by
  constructor
  · intro v
    simp [Placements.find?, Placements.empty]
  · intro c
    simp [Placements.vertexOn?, Placements.onCore?, Placements.empty]

theorem Mirrors.eq (h : Mirrors r s) (h' : Mirrors r' s) : r = r' := by
  cases r
  cases r'
  congr
  · exact Std.ExtTreeMap.ext_getElem? fun v => (h.byVertex v).trans (h'.byVertex v).symm
  · exact Std.ExtTreeMap.ext_getElem? fun c => (h.byCore c).trans (h'.byCore c).symm

structure Inverse (r : Registry) : Prop where
  coreOf : ∀ (v : MachineVertexId) (p : Placement), r.byVertex[v]? = some p →
    p.vertex = v ∧ r.byCore[p.core]? = some v
  vertexOn : ∀ (c : Coord × Nat) (v : MachineVertexId), r.byCore[c]? = some v →
    ∃ p, r.byVertex[v]? = some p ∧ p.core = c

theorem Mirrors.inverse (h : Mirrors r s) : Inverse r where
  coreOf := by
    intro v p hp
    rw [h.byVertex, Placements.find?_eq_some_iff] at hp
    obtain ⟨hmem, rfl⟩ := hp
    refine ⟨rfl, ?_⟩
    rw [h.byCore, Placements.vertexOn?_eq_some_iff]
    exact ⟨p, hmem, rfl, rfl⟩
  vertexOn := by
    intro c v hv
    rw [h.byCore, Placements.vertexOn?_eq_some_iff] at hv
    obtain ⟨p, hmem, hcore, rfl⟩ := hv
    refine ⟨p, ?_, hcore⟩
    rw [h.byVertex, Placements.find?_eq_some_iff]
    exact ⟨hmem, rfl⟩

theorem Mirrors.toList (h : Mirrors r s) : r.toList = s.toList := by
  have hmem : ∀ v p, (v, p) ∈ r.byVertex.toList ↔ p ∈ s.toList ∧ p.vertex = v := by
    intro v p
    rw [Std.ExtTreeMap.mem_toList_iff_getElem?_eq_some, h.byVertex, Placements.find?_eq_some_iff]
  have hnodup : (r.byVertex.toList.map Prod.snd).Nodup := by
    refine List.Nodup.map_on ?_ (Std.ExtTreeMap.distinct_keys_toList.imp fun hne heq => ?_)
    · rintro ⟨v, p⟩ hp ⟨w, q⟩ hq rfl
      rw [← ((hmem v _).1 hp).2, ← ((hmem w _).1 hq).2]
    · rw [heq] at hne
      exact hne Std.ReflCmp.compare_self
  have hperm : (r.byVertex.toList.map Prod.snd).Perm s.toList := by
    rw [List.perm_ext_iff_of_nodup hnodup s.noRepeats_toList.vertices.of_map]
    intro p
    rw [List.mem_map]
    constructor
    · rintro ⟨⟨v, _⟩, hp, rfl⟩
      exact ((hmem v _).1 hp).1
    · intro hp
      exact ⟨(p.vertex, p), (hmem _ _).2 ⟨hp, rfl⟩, rfl⟩
  have hsorted : (r.byVertex.toList.map Prod.snd).mergeSort
      (fun p q => p.vertex.index ≤ q.vertex.index) |>.Pairwise
        fun p q => p.vertex.index ≤ q.vertex.index := by
    refine (List.pairwise_mergeSort ?_ ?_ _).imp fun hle => by simpa using hle
    · intro a b c hab hbc
      simp only [decide_eq_true_eq] at hab hbc ⊢
      omega
    · intro a b
      simp only [Bool.or_eq_true, decide_eq_true_eq]
      omega
  refine ((List.mergeSort_perm _ _).trans hperm).eq_of_pairwise ?_ hsorted
    (s.sorted.imp fun hlt => hlt.le)
  intro p q hp hq hpq hqp
  have hp := ((List.mergeSort_perm _ _).trans hperm).subset hp
  refine Placements.eq_of_vertex_eq hp hq ?_
  cases hv : p.vertex
  cases hw : q.vertex
  rw [hv, hw] at hpq hqp
  simp only at hpq hqp
  rw [Nat.le_antisymm hpq hqp]

/-! ## Calls -/

/-- What a call on a registry has to do if it does on the set what it says. -/
inductive Answers (r : Registry) :
    Except PlacementError Placements → Except PlacementError Unit × Registry → Prop where
  | done {r' : Registry} {s' : Placements} (h : Mirrors r' s') : Answers r (.ok s') (.ok (), r')
  | failed (e : PlacementError) : Answers r (.error e) (.error e, r)

def written (r : Registry) (p : Placement) : Registry where
  byVertex := r.byVertex.insert p.vertex p
  byCore := r.byCore.insert p.core p.vertex

theorem write_run : (Registry.write p).run.run r = (.ok (), written r p) := rfl

theorem Mirrors.written (h : Mirrors r s) (hadd : s.add p = .ok s') :
    Mirrors (written r p) s' where
  byVertex := by
    intro v
    change (r.byVertex.insert p.vertex p)[v]? = _
    rw [Maps.getElem?_insert_eq_ite, h.byVertex, Placements.find?_add hadd]
  byCore := by
    intro c
    change (r.byCore.insert p.core p.vertex)[c]? = _
    rw [Maps.getElem?_insert_eq_ite, h.byCore, Placements.vertexOn?_add hadd]

theorem clash?_eq (s : Placements) (p : Placement) : s.clash? p =
    if (s.find? p.vertex).isSome then some (.vertexPlaced p.vertex)
    else (s.vertexOn? p.core.1 p.core.2).map fun occupant =>
      .coreOccupied p.chip p.processor occupant := by
  unfold Placements.clash? Placements.vertexOn? Placement.core
  cases s.find? p.vertex with
  | some q => rfl
  | none =>
      simp only [Option.isSome_none, Bool.false_eq_true, if_false, Option.map_map]
      cases s.onCore? p.chip p.processor with
      | some q => rfl
      | none => rfl

theorem Mirrors.checkFree_run (h : Mirrors r s) : (Registry.checkFree p).run.run r =
    (match s.clash? p with
      | some e => .error e
      | none => .ok (), r) := by
  unfold Registry.checkFree
  rw [change_bind_run, change_get_run, clash?_eq]
  simp only [Std.ExtTreeMap.contains_eq_isSome_getElem?, h.byVertex, h.byCore]
  split
  · rfl
  · cases s.vertexOn? p.core.1 p.core.2 with
    | some occupant => rfl
    | none => rfl

theorem Mirrors.add (h : Mirrors r s) (p : Placement) :
    Answers r (s.add p) ((Registry.add p).run.run r) := by
  unfold Registry.add
  rw [change_bind_run, h.checkFree_run]
  cases hclash : s.clash? p with
  | some e =>
      rw [Placements.add_eq_error hclash]
      exact .failed e
  | none =>
      obtain ⟨s', hadd⟩ := Placements.add_eq_ok hclash
      rw [hadd]
      exact .done (h.written hadd)

/-! ## Batches -/

/-- What was noted of the members of a batch that make up a set. -/
structure Noted (seen : Registry.Checked) (t : Placements) : Prop where
  vertices : ∀ v, seen.vertices.contains v = (t.find? v).isSome
  cores : ∀ c : Coord × Nat, seen.cores[c]? = t.vertexOn? c.1 c.2

theorem noted_empty : Noted {} .empty := by
  constructor
  · intro v
    simp [Placements.find?, Placements.empty]
  · intro c
    simp [Placements.vertexOn?, Placements.onCore?, Placements.empty]

def noted (seen : Registry.Checked) (p : Placement) : Registry.Checked where
  vertices := seen.vertices.insert p.vertex
  cores := seen.cores.insert p.core p.vertex

theorem Noted.noted {seen : Registry.Checked} (h : Noted seen t) (hadd : t.add p = .ok t') :
    Noted (noted seen p) t' where
  vertices := by
    intro v
    change (seen.vertices.insert p.vertex).contains v = _
    rw [Std.ExtTreeSet.contains_insert, h.vertices, Placements.find?_add hadd]
    split
    · next heq => simp [heq]
    · next hne => simp [hne]
  cores := by
    intro c
    change (seen.cores.insert p.core p.vertex)[c]? = _
    rw [Maps.getElem?_insert_eq_ite, h.cores, Placements.vertexOn?_add hadd]

theorem Mirrors.check_run (h : Mirrors r s) {seen : Registry.Checked} (hseen : Noted seen t) :
    (Registry.check seen p).run.run r =
      (match (s.clash? p).or (t.clash? p) with
        | some e => .error e
        | none => .ok (noted seen p), r) := by
  unfold Registry.check
  rw [change_bind_run, h.checkFree_run]
  cases s.clash? p with
  | some e => rfl
  | none =>
      rw [Option.none_or, clash?_eq]
      simp only [hseen.vertices, hseen.cores]
      split
      · rfl
      · cases t.vertexOn? p.core.1 p.core.2 with
        | some occupant => rfl
        | none => rfl

theorem Mirrors.checkBatch_run (h : Mirrors r s) {seen : Registry.Checked} (hseen : Noted seen t)
    (batch : List Placement) :
    ∃ result, (batch.foldlM Registry.check seen).run.run r = (result, r) ∧
      result.map (fun _ => ()) = s.checkBatch t batch := by
  induction batch generalizing seen t with
  | nil => exact ⟨.ok seen, rfl, rfl⟩
  | cons p rest ih =>
      rw [List.foldlM_cons, change_bind_run, h.check_run hseen]
      unfold Placements.checkBatch
      cases s.clash? p with
      | some e => exact ⟨.error e, rfl, rfl⟩
      | none =>
          rw [Option.none_or]
          cases hclash : t.clash? p with
          | some e =>
              rw [Placements.add_eq_error hclash]
              exact ⟨.error e, rfl, rfl⟩
          | none =>
              obtain ⟨t', hadd⟩ := Placements.add_eq_ok hclash
              rw [hadd]
              exact ih (hseen.noted hadd)

theorem forM_write_run :
    (batch.forM Registry.write).run.run r = (.ok (), batch.foldl written r) := by
  induction batch generalizing r with
  | nil => rfl
  | cons p rest ih =>
      change (Registry.write p >>= fun _ => rest.forM Registry.write).run.run r = _
      rw [change_bind_run, write_run]
      exact ih

theorem Mirrors.foldl_written (h : Mirrors r s) (hfold : batch.foldlM Placements.add s = .ok s') :
    Mirrors (batch.foldl Layout.written r) s' := by
  induction batch generalizing r s with
  | nil =>
      cases hfold
      exact h
  | cons p rest ih =>
      rw [List.foldlM_cons] at hfold
      obtain ⟨t, hadd, hrest⟩ := bind_eq_ok.1 hfold
      exact ih (h.written hadd) hrest

theorem Mirrors.addAll (h : Mirrors r s) (batch : List Placement) :
    Answers r (s.addAll batch) ((Registry.addAll batch).run.run r) := by
  obtain ⟨result, hcheck, hresult⟩ := h.checkBatch_run noted_empty batch
  unfold Registry.addAll
  rw [change_bind_run, hcheck]
  cases result with
  | error e =>
      have hfails : s.addAll batch = .error e := by
        unfold Placements.addAll
        rw [← hresult]
        rfl
      rw [hfails]
      exact .failed e
  | ok seen =>
      have hnorepeats := Placements.checkBatch_empty_eq_ok.1 hresult.symm
      obtain ⟨s', hadd⟩ := Placements.exists_addAll_iff.2 hnorepeats
      obtain ⟨_, _, hfold⟩ := bind_eq_ok.1 hadd
      simp only [forM_write_run]
      rw [hadd]
      exact .done (h.foldl_written hfold)

/-! ## Sequences of calls -/

inductive Call where
  | add (p : Placement)
  | addAll (batch : List Placement)

def Call.change : Call → Registry.Change Unit
  | .add p => Registry.add p
  | .addAll batch => Registry.addAll batch

def Call.result (s : Placements) : Call → Except PlacementError Placements
  | .add p => s.add p
  | .addAll batch => s.addAll batch

/-- The registry after some calls, also after those that fail. -/
def registryAfter (calls : List Call) : Registry :=
  calls.foldl (fun r call => (call.change.run.run r).2) {}

def placementsAfter (calls : List Call) : Placements :=
  calls.foldl (fun s call => (call.result s).toOption.getD s) .empty

theorem Mirrors.call (h : Mirrors r s) (call : Call) :
    Answers r (call.result s) (call.change.run.run r) := by
  cases call with
  | add p => exact h.add p
  | addAll batch => exact h.addAll batch

theorem mirrors_after (calls : List Call) :
    Mirrors (registryAfter calls) (placementsAfter calls) := by
  suffices hgen : ∀ r s, Mirrors r s →
      Mirrors (calls.foldl (fun r call => (call.change.run.run r).2) r)
        (calls.foldl (fun s call => (call.result s).toOption.getD s) s) from
    hgen {} .empty mirrors_empty
  induction calls with
  | nil => exact fun _ _ h => h
  | cons call calls ih =>
      intro r s h
      rw [List.foldl_cons, List.foldl_cons]
      apply ih
      have hanswers := h.call call
      generalize call.result s = x at hanswers
      generalize call.change.run.run r = y at hanswers
      cases hanswers with
      | done h' => exact h'
      | failed e => exact h

section

variable {x : Except PlacementError Placements} {y : Except PlacementError Unit × Registry}

theorem Answers.of_ok (h : Answers r x y) (hy : y = (.ok (), r')) :
    ∃ s', x = .ok s' ∧ Mirrors r' s' := by
  cases h with
  | done hmirrors =>
      cases hy
      exact ⟨_, rfl, hmirrors⟩
  | failed e => cases hy

theorem Answers.exists_ok (h : Answers r x y) (hx : x = .ok s') :
    ∃ r', y = (.ok (), r') ∧ Mirrors r' s' := by
  cases h with
  | done hmirrors =>
      cases hx
      exact ⟨_, rfl, hmirrors⟩
  | failed e => cases hx

theorem Answers.of_error {e : PlacementError} (h : Answers r x y) (hy : y = (.error e, r')) :
    r' = r := by
  cases h with
  | done hmirrors => cases hy
  | failed e =>
      cases hy
      rfl

theorem Answers.fst_eq (h : Answers r x y) : y.1 = x.map fun _ => () := by
  cases h with
  | done _ => rfl
  | failed e => rfl

end

/-- What a registry keeps, and that it is as good as a set of placements. -/
structure Faithful (r : Registry) (s : Placements) : Prop where
  inverse : Inverse r
  /-- A batch is added unless it repeats a vertex or a core. -/
  accepts : ∀ batch, (∃ r', (Registry.addAll batch).run.run r = (.ok (), r')) ↔
    NoRepeats (r.toList ++ batch)
  /-- All of a batch is added, and in any order with the same result. -/
  anyOrder : ∀ batch r', (Registry.addAll batch).run.run r = (.ok (), r') →
    r'.toList.Perm (r.toList ++ batch) ∧ ∀ batch', batch.Perm batch' →
      (Registry.addAll batch').run.run r = (.ok (), r')
  /-- A call that fails changes nothing. -/
  atomic : ∀ (call : Call) e r', call.change.run.run r = (.error e, r') → r' = r
  sorted : r.toList.Pairwise fun p q => p.vertex.index < q.vertex.index
  ofList : Registry.ofList r.toList = .ok r
  mirrors : Mirrors r s
  toList : r.toList = s.toList
  answers : ∀ call : Call, (call.change.run.run r).1 = (call.result s).map fun _ => ()

theorem Mirrors.faithful (h : Mirrors r s) : Faithful r s where
  inverse := h.inverse
  accepts := by
    intro batch
    rw [h.toList, ← Placements.exists_addAll_iff]
    constructor
    · rintro ⟨r', hrun⟩
      obtain ⟨s', hadd, _⟩ := (h.addAll batch).of_ok hrun
      exact ⟨s', hadd⟩
    · rintro ⟨s', hadd⟩
      obtain ⟨r', hrun, _⟩ := (h.addAll batch).exists_ok hadd
      exact ⟨r', hrun⟩
  anyOrder := by
    intro batch r' hrun
    obtain ⟨s', hadd, hmirrors⟩ := (h.addAll batch).of_ok hrun
    rw [hmirrors.toList, h.toList]
    refine ⟨Placements.addAll_perm hadd, fun batch' hperm => ?_⟩
    obtain ⟨r'', hrun', hmirrors'⟩ :=
      (h.addAll batch').exists_ok (Placements.addAll_of_perm hperm hadd)
    rw [hrun', hmirrors'.eq hmirrors]
  atomic := fun call e r' hrun => (h.call call).of_error hrun
  sorted := by
    rw [h.toList]
    exact s.sorted
  ofList := by
    obtain ⟨r', hrun, hmirrors⟩ :=
      (mirrors_empty.addAll s.toList).exists_ok (Placements.ofList_toList s)
    unfold Registry.ofList
    rw [h.toList, hrun, hmirrors.eq h]
  mirrors := h
  toList := h.toList
  answers := fun call => (h.call call).fst_eq

/-- Whatever is called, failing calls included, a registry keeps its two maps inverse to each
other, takes batches as a whole or not at all, and agrees with a set of placements. -/
theorem calls_keep_inverse (calls : List Call) :
    Faithful (registryAfter calls) (placementsAfter calls) :=
  (mirrors_after calls).faithful

end MulticastMesh.Layout
