import MulticastMesh.Proofs.Outcomes
import MulticastMesh.Routing.Route
/-!
# Routes as sets

A route is a set of links and a set of processors; building routes adds to the sets.
-/

namespace MulticastMesh.Routing.Route

open Mesh (Link maxProcessors)
open Outcome

variable {r s : Route} {l l' : Link} {p q : Nat}

theorem id_lt (l : Link) : l.id < 6 := by
  cases l <;> decide

@[simp] theorem hasLink_empty : empty.hasLink l = false := by
  simp [hasLink, empty]

@[simp] theorem hasProcessor_empty : empty.hasProcessor p = false := by
  simp [hasProcessor, empty]

@[simp] theorem hasLink_union : (r.union s).hasLink l = (r.hasLink l || s.hasLink l) := by
  simp [hasLink, union]

@[simp] theorem hasProcessor_union :
    (r.union s).hasProcessor p = (r.hasProcessor p || s.hasProcessor p) := by
  simp [hasProcessor, union]

theorem getLsbD_one_shiftLeft {w n i : Nat} (hn : n < w) :
    ((1 <<< n : Nat) : BitVec w).getLsbD i = decide (i = n) := by
  rw [BitVec.natCast_eq_ofNat, BitVec.getLsbD_ofNat, Nat.one_shiftLeft, Nat.testBit_two_pow]
  by_cases hi : i = n
  · simp [hi, hn]
  · simp [hi, Ne.symm hi]

@[simp] theorem hasLink_withLink :
    (r.withLink l).hasLink l' = (r.hasLink l' || decide (l' = l)) := by
  unfold hasLink withLink
  rw [BitVec.getLsbD_or, getLsbD_one_shiftLeft (id_lt l)]
  congr 1
  rw [decide_eq_decide]
  exact ⟨Link.id_injective, fun h => by rw [h]⟩

@[simp] theorem hasProcessor_withLink : (r.withLink l).hasProcessor p = r.hasProcessor p := rfl

theorem hasLink_overLink : (overLinks [l]).hasLink l' = decide (l' = l) := by
  simp [overLinks]

theorem hasProcessor_overLink : (overLinks [l]).hasProcessor p = false := by
  simp [overLinks]

theorem mem_links : l ∈ r.links ↔ r.hasLink l = true := by
  simp [links]

theorem mem_processors : p ∈ r.processors ↔ r.hasProcessor p = true := by
  unfold processors
  rw [List.mem_filter, List.mem_range, and_iff_right_iff_imp]
  intro h
  exact BitVec.lt_of_getLsbD h

theorem withProcessor_spec (hp : p < maxProcessors) : ∃ s, r.withProcessor p = .ok s ∧
    (∀ l, s.hasLink l = r.hasLink l) ∧
      ∀ q, s.hasProcessor q = (r.hasProcessor q || decide (q = p)) := by
  refine ⟨_, if_pos hp, fun l => rfl, fun q => ?_⟩
  have hlt : p < 18 := hp
  unfold hasProcessor
  rw [BitVec.getLsbD_or, getLsbD_one_shiftLeft hlt]

theorem ofParts_spec {processors : List Nat} (h : ∀ p ∈ processors, p < maxProcessors) :
    ∃ r, ofParts [] processors = .ok r ∧ (∀ l, r.hasLink l = false) ∧
      ∀ p, r.hasProcessor p = true ↔ p ∈ processors := by
  have hgen : ∀ (processors : List Nat) (r : Route), (∀ p ∈ processors, p < maxProcessors) →
      ∃ s, processors.foldlM withProcessor r = .ok s ∧ (∀ l, s.hasLink l = r.hasLink l) ∧
        ∀ p, s.hasProcessor p = true ↔ r.hasProcessor p = true ∨ p ∈ processors := by
    intro processors
    induction processors with
    | nil => exact fun r _ => ⟨r, rfl, fun _ => rfl, by simp⟩
    | cons q rest ih =>
        intro r hall
        obtain ⟨hq, hrest⟩ := List.forall_mem_cons.1 hall
        obtain ⟨s, hs, hlinks, hprocessors⟩ := withProcessor_spec (r := r) hq
        obtain ⟨t, ht, hlinks', hprocessors'⟩ := ih s hrest
        refine ⟨t, ?_, fun l => (hlinks' l).trans (hlinks l), fun p => ?_⟩
        · rw [List.foldlM_cons]
          exact bind_eq_ok.2 ⟨s, hs, ht⟩
        · rw [hprocessors', hprocessors, Bool.or_eq_true, decide_eq_true_eq, List.mem_cons]
          tauto
  obtain ⟨r, hr, hlinks, hprocessors⟩ := hgen processors empty h
  refine ⟨r, hr, fun l => ?_, fun p => ?_⟩
  · rw [hlinks, hasLink_empty]
  · rw [hprocessors, hasProcessor_empty]
    simp

end MulticastMesh.Routing.Route
