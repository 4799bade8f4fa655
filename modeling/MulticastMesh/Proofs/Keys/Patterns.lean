import MulticastMesh.Keys.KeyRange
/-!
# The keys of a pattern

A pattern is read bit by bit: a key belongs to it when the two agree on every bit that the mask
fixes.  The tests and operations on patterns are stated against the set of their keys.
-/

namespace MulticastMesh.Keys

theorem getLsbD_bit {i : Nat} (hi : i < 32) (j : Nat) :
    (bit i).getLsbD j = decide (j = i) := by
  unfold bit shiftUp
  rw [if_pos hi, BitVec.getLsbD_shiftLeft, show (1 : Key) = 1#32 from rfl, BitVec.getLsbD_one]
  by_cases hj : j = i
  · simp [hj, hi]
  · have hsub : j < i ∨ j - i ≠ 0 := by omega
    rcases hsub with h | h <;> simp [hj, h]

namespace Pattern

def Apart (p q : Pattern) : Prop := ∀ k, p.Matches k → ¬ q.Matches k

def Within (p q : Pattern) : Prop := ∀ k, p.Matches k → q.Matches k

variable {p q r : Pattern} {k : Key}

theorem matches_iff : p.Matches k ↔
    ∀ i < 32, (k.getLsbD i && p.mask.getLsbD i) = p.key.getLsbD i := by
  unfold Matches
  constructor
  · intro h i _
    rw [← h, BitVec.getLsbD_and]
  · intro h
    apply BitVec.eq_of_getLsbD_eq
    intro i hi
    rw [BitVec.getLsbD_and, h i hi]

theorem proper_iff : p.Proper ↔
    ∀ i < 32, p.key.getLsbD i = true → p.mask.getLsbD i = true := by
  unfold Proper
  constructor
  · intro h i hi hkey
    have hbit := congrArg (fun w : Key => w.getLsbD i) h
    simpa [hi, hkey] using hbit
  · intro h
    apply BitVec.eq_of_getLsbD_eq
    intro i hi
    have hbit := h i hi
    cases hkey : p.key.getLsbD i <;> simp_all

theorem Matches.proper (h : p.Matches k) : p.Proper := by
  rw [proper_iff]
  intro i hi hkey
  have hbit := matches_iff.1 h i hi
  rw [hkey] at hbit
  simp_all

theorem Proper.matches_key (h : p.Proper) : p.Matches p.key := by
  rw [matches_iff]
  intro i hi
  have hbit := proper_iff.1 h i hi
  cases hkey : p.key.getLsbD i <;> simp_all

/-! ## Overlap -/

theorem intersects_of_matches (hp : p.Matches k) (hq : q.Matches k) :
    p.intersects q = true := by
  unfold intersects
  rw [beq_iff_eq, ← hp, ← hq]
  apply BitVec.eq_of_getLsbD_eq
  intro i _
  simp only [BitVec.getLsbD_and]
  grind

theorem exists_matches_of_intersects (hp : p.Proper) (hq : q.Proper)
    (h : p.intersects q = true) : ∃ k, p.Matches k ∧ q.Matches k := by
  unfold intersects at h
  rw [beq_iff_eq] at h
  have hbits : ∀ i, (p.key.getLsbD i && q.mask.getLsbD i) =
      (q.key.getLsbD i && p.mask.getLsbD i) := by
    intro i
    have hbit := congrArg (fun w : Key => w.getLsbD i) h
    simpa using hbit
  refine ⟨p.key ||| q.key, ?_, ?_⟩ <;> rw [matches_iff] <;> intro i hi
  · have h1 := proper_iff.1 hp i hi
    have h2 := proper_iff.1 hq i hi
    have h3 := hbits i
    rw [BitVec.getLsbD_or]
    grind
  · have h1 := proper_iff.1 hp i hi
    have h2 := proper_iff.1 hq i hi
    have h3 := hbits i
    rw [BitVec.getLsbD_or]
    grind

theorem intersects_iff (hp : p.Proper) (hq : q.Proper) :
    p.intersects q = true ↔ ∃ k, p.Matches k ∧ q.Matches k :=
  ⟨exists_matches_of_intersects hp hq, fun ⟨_, h1, h2⟩ => intersects_of_matches h1 h2⟩

theorem agrees_eq_true : p.agrees q = true ↔
    ∀ i < 32, p.mask.getLsbD i = true → q.mask.getLsbD i = true →
      p.key.getLsbD i = q.key.getLsbD i := by
  unfold agrees
  rw [beq_iff_eq]
  constructor
  · intro h i hi hpm hqm
    have hbit := congrArg (fun w : Key => w.getLsbD i) h
    simpa [hpm, hqm] using hbit
  · intro h
    apply BitVec.eq_of_getLsbD_eq
    intro i hi
    have hbit := h i hi
    simp only [BitVec.getLsbD_and, BitVec.getLsbD_xor]
    grind

theorem agrees_of_matches (hp : p.Matches k) (hq : q.Matches k) : p.agrees q = true := by
  rw [agrees_eq_true]
  intro i hi hpm hqm
  have h1 := matches_iff.1 hp i hi
  have h2 := matches_iff.1 hq i hi
  simp_all

theorem agrees_iff (hp : p.Proper) (hq : q.Proper) :
    p.agrees q = true ↔ ∃ k, p.Matches k ∧ q.Matches k := by
  constructor
  · intro h
    apply exists_matches_of_intersects hp hq
    unfold intersects
    rw [beq_iff_eq]
    apply BitVec.eq_of_getLsbD_eq
    intro i hi
    have h1 := agrees_eq_true.1 h i hi
    have h2 := proper_iff.1 hp i hi
    have h3 := proper_iff.1 hq i hi
    simp only [BitVec.getLsbD_and]
    grind
  · rintro ⟨k, h1, h2⟩
    exact agrees_of_matches h1 h2

/-! ## Cover -/

theorem coveredBy_eq_true : p.coveredBy q = true ↔
    (∀ i < 32, q.mask.getLsbD i = true → p.mask.getLsbD i = true) ∧
      ∀ i < 32, (p.key.getLsbD i && q.mask.getLsbD i) = q.key.getLsbD i := by
  unfold coveredBy
  rw [Bool.and_eq_true, beq_iff_eq, beq_iff_eq]
  refine and_congr ⟨fun h i hi hq => ?_, fun h => ?_⟩ ⟨fun h i _ => ?_, fun h => ?_⟩
  · have hbit := congrArg (fun w : Key => w.getLsbD i) h
    simpa [hi, hq] using hbit
  · apply BitVec.eq_of_getLsbD_eq
    intro i hi
    have hbit := h i hi
    cases hq : q.mask.getLsbD i <;> simp_all
  · rw [← h, BitVec.getLsbD_and]
  · apply BitVec.eq_of_getLsbD_eq
    intro i hi
    rw [BitVec.getLsbD_and, h i hi]

theorem Matches.of_coveredBy (h : p.coveredBy q = true) (hk : p.Matches k) : q.Matches k := by
  obtain ⟨hmask, hkey⟩ := coveredBy_eq_true.1 h
  rw [matches_iff] at hk ⊢
  intro i hi
  have h1 := hk i hi
  have h2 := hmask i hi
  have h3 := hkey i hi
  grind

/-! ## Generality -/

theorem mem_freeBits {mask : Key} {i : Nat} :
    i ∈ freeBits mask ↔ i < 32 ∧ mask.getLsbD i = false := by
  simp [freeBits]

private theorem freeBits_sublist {a b : Key}
    (h : ∀ i < 32, b.getLsbD i = true → a.getLsbD i = true) :
    (freeBits a).Sublist (freeBits b) := by
  have hfilter : freeBits a =
      (freeBits b).filter fun i => !a.getLsbD i := by
    unfold freeBits
    rw [List.filter_filter]
    apply List.filter_congr
    intro i hi
    have hbit := h i (List.mem_range.1 hi)
    grind
  rw [hfilter]
  exact List.filter_sublist

theorem generality_le (h : ∀ i < 32, q.mask.getLsbD i = true → p.mask.getLsbD i = true) :
    p.generality ≤ q.generality :=
  (freeBits_sublist h).length_le

theorem mask_eq_of_generality_le
    (h : ∀ i < 32, q.mask.getLsbD i = true → p.mask.getLsbD i = true)
    (hle : q.generality ≤ p.generality) : p.mask = q.mask := by
  have hfree := (freeBits_sublist h).eq_of_length_le hle
  apply BitVec.eq_of_getLsbD_eq
  intro i hi
  have hmem : i ∈ freeBits p.mask ↔ i ∈ freeBits q.mask := by rw [hfree]
  simp only [mem_freeBits, hi, true_and] at hmem
  grind

theorem generality_le_of_coveredBy (h : p.coveredBy q = true) :
    p.generality ≤ q.generality :=
  generality_le (coveredBy_eq_true.1 h).1

/-- A proper pattern that lies in one no more general is that pattern. -/
theorem eq_of_coveredBy (hp : p.Proper) (h : p.coveredBy q = true)
    (hle : q.generality ≤ p.generality) : p = q := by
  obtain ⟨hmask, hkey⟩ := coveredBy_eq_true.1 h
  have hmasks : p.mask = q.mask := mask_eq_of_generality_le hmask hle
  have hkeys : p.key = q.key := by
    apply BitVec.eq_of_getLsbD_eq
    intro i hi
    have h1 := hkey i hi
    have h2 := proper_iff.1 hp i hi
    rw [← hmasks] at h1
    grind
  cases p
  cases q
  simp_all

theorem intersects_of_coveredBy (h : p.coveredBy q = true) : p.intersects q = true := by
  obtain ⟨hmask, hkey⟩ := coveredBy_eq_true.1 h
  unfold intersects
  rw [beq_iff_eq]
  apply BitVec.eq_of_getLsbD_eq
  intro i hi
  have h1 := hmask i hi
  have h2 := hkey i hi
  simp only [BitVec.getLsbD_and]
  grind

/-! ## Joins -/

theorem getLsbD_mask_join {i : Nat} (hi : i < 32) : (p.join q).mask.getLsbD i =
    (p.mask.getLsbD i && q.mask.getLsbD i && (p.key.getLsbD i == q.key.getLsbD i)) := by
  simp only [join, BitVec.getLsbD_and, BitVec.getLsbD_or, BitVec.getLsbD_xor,
    BitVec.getLsbD_not, hi, decide_true, Bool.true_and]
  cases p.key.getLsbD i <;> cases q.key.getLsbD i <;> simp

theorem getLsbD_key_join {i : Nat} (hi : i < 32) : (p.join q).key.getLsbD i =
    (p.key.getLsbD i && q.key.getLsbD i && p.mask.getLsbD i && q.mask.getLsbD i) := by
  have hmask := getLsbD_mask_join (p := p) (q := q) hi
  have hkey : (p.join q).key = p.key &&& q.key &&& (p.join q).mask := rfl
  rw [hkey, BitVec.getLsbD_and, hmask, BitVec.getLsbD_and]
  cases p.key.getLsbD i <;> cases q.key.getLsbD i <;> simp

theorem proper_join : (p.join q).Proper := by
  rw [proper_iff]
  intro i hi
  rw [getLsbD_mask_join hi, getLsbD_key_join hi]
  grind

theorem coveredBy_join_left : p.coveredBy (p.join q) = true := by
  rw [coveredBy_eq_true]
  refine ⟨fun i hi => ?_, fun i hi => ?_⟩
  · rw [getLsbD_mask_join hi]
    grind
  · rw [getLsbD_mask_join hi, getLsbD_key_join hi]
    grind

theorem join_comm : p.join q = q.join p := by
  unfold join
  rw [BitVec.and_comm p.key, BitVec.or_comm p.key, BitVec.and_comm p.mask]

theorem coveredBy_join_right : q.coveredBy (p.join q) = true := by
  rw [join_comm]
  exact coveredBy_join_left

theorem coveredBy_refl (hp : p.Proper) : p.coveredBy p = true := by
  rw [coveredBy_eq_true]
  refine ⟨fun _ _ h => h, fun i hi => ?_⟩
  have hbit := proper_iff.1 hp i hi
  grind

theorem coveredBy_trans (hpq : p.coveredBy q = true) (hqr : q.coveredBy r = true) :
    p.coveredBy r = true := by
  rw [coveredBy_eq_true] at hpq hqr ⊢
  refine ⟨fun i hi h => hpq.1 i hi (hqr.1 i hi h), fun i hi => ?_⟩
  have h1 := hpq.2 i hi
  have h2 := hqr.2 i hi
  have h3 := hqr.1 i hi
  grind

private theorem coveredBy_foldl_join {l : List Pattern} {s : Pattern}
    (h : p.coveredBy s = true) : p.coveredBy (l.foldl join s) = true := by
  induction l generalizing s with
  | nil => exact h
  | cons q l ih => exact ih (coveredBy_trans h coveredBy_join_left)

private theorem coveredBy_foldl_join_of_mem {l : List Pattern} {s : Pattern} (h : p ∈ l) :
    p.coveredBy (l.foldl join s) = true := by
  induction l generalizing s with
  | nil => cases h
  | cons q l ih =>
      rw [List.foldl_cons]
      rcases List.mem_cons.1 h with rfl | h
      · exact coveredBy_foldl_join coveredBy_join_right
      · exact ih h

private theorem proper_foldl_join {l : List Pattern} {s : Pattern} (hs : s.Proper) :
    (l.foldl join s).Proper := by
  induction l generalizing s with
  | nil => exact hs
  | cons q l ih => exact ih proper_join

theorem join_coveredBy (hp : p.coveredBy r = true) (hq : q.coveredBy r = true) :
    (p.join q).coveredBy r = true := by
  rw [coveredBy_eq_true] at hp hq ⊢
  refine ⟨fun i hi h => ?_, fun i hi => ?_⟩
  · have h1 := hp.1 i hi h
    have h2 := hq.1 i hi h
    have h3 := hp.2 i hi
    have h4 := hq.2 i hi
    rw [getLsbD_mask_join hi]
    grind
  · have h1 := hp.1 i hi
    have h2 := hq.1 i hi
    have h3 := hp.2 i hi
    have h4 := hq.2 i hi
    rw [getLsbD_key_join hi]
    grind

private theorem foldl_join_coveredBy {l : List Pattern} {s : Pattern}
    (hs : s.coveredBy r = true) (hl : ∀ q ∈ l, q.coveredBy r = true) :
    (l.foldl join s).coveredBy r = true := by
  induction l generalizing s with
  | nil => exact hs
  | cons q l ih =>
      exact ih (join_coveredBy hs (hl q (by simp))) fun q hq => hl q (by simp [hq])

theorem joinAll_coveredBy {l : List Pattern} (hne : l ≠ [])
    (hl : ∀ q ∈ l, q.coveredBy r = true) : (joinAll l).coveredBy r = true := by
  cases l with
  | nil => exact absurd rfl hne
  | cons q l =>
      exact foldl_join_coveredBy (hl q (by simp)) fun q hq => hl q (by simp [hq])

theorem coveredBy_joinAll {l : List Pattern} (hl : ∀ q ∈ l, q.Proper) (h : p ∈ l) :
    p.coveredBy (joinAll l) = true := by
  cases l with
  | nil => cases h
  | cons q l =>
      rcases List.mem_cons.1 h with rfl | h
      · exact coveredBy_foldl_join (coveredBy_refl (hl p (by simp)))
      · exact coveredBy_foldl_join_of_mem h

theorem proper_joinAll {l : List Pattern} (hl : ∀ q ∈ l, q.Proper) :
    (joinAll l).Proper := by
  cases l with
  | nil => decide
  | cons q l => exact proper_foldl_join (hl q (by simp))

private theorem getLsbD_key_foldl_join {l : List Pattern} {s : Pattern} {i : Nat} {b : Bool}
    (hi : i < 32) (hl : ∀ q ∈ l, q.Proper) (hs : s.Proper) (hsb : s.key.getLsbD i = b)
    (h : ∀ q ∈ l, q.key.getLsbD i = b) : (l.foldl join s).key.getLsbD i = b := by
  induction l generalizing s with
  | nil => exact hsb
  | cons q l ih =>
      apply ih (fun q hq => hl q (by simp [hq])) proper_join
      · have h1 := proper_iff.1 hs i hi
        have h2 := proper_iff.1 (hl q (by simp)) i hi
        have h3 := h q (by simp)
        rw [getLsbD_key_join hi, hsb, h3]
        cases b <;> simp_all
      · exact fun q hq => h q (by simp [hq])

theorem getLsbD_key_joinAll {l : List Pattern} {i : Nat} {b : Bool} (hi : i < 32)
    (hl : ∀ q ∈ l, q.Proper) (hne : l ≠ []) (h : ∀ q ∈ l, q.key.getLsbD i = b) :
    (joinAll l).key.getLsbD i = b := by
  cases l with
  | nil => exact absurd rfl hne
  | cons q l =>
      exact getLsbD_key_foldl_join hi (fun r hr => hl r (by simp [hr])) (hl q (by simp))
        (h q (by simp)) (fun r hr => h r (by simp [hr]))

end Pattern

end MulticastMesh.Keys
