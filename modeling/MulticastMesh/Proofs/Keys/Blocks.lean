import Mathlib.Tactic.Positivity
import MulticastMesh.Proofs.Keys.Patterns
import MulticastMesh.Keys.Allocation
/-!
# Aligned blocks of keys

The pattern of an aligned block stands for an interval of numbers.
-/

namespace MulticastMesh.Keys

variable {start n : Nat} {k : Key}

theorem blockSize_eq (n : Nat) : blockSize n = 2 ^ n := rfl

theorem getLsbD_lowBitsClear (n i : Nat) :
    (lowBitsClear n).getLsbD i = decide (n ≤ i ∧ i < 32) := by
  unfold lowBitsClear shiftUp
  by_cases hn : n < 32
  · rw [if_pos hn, BitVec.getLsbD_shiftLeft, BitVec.getLsbD_allOnes]
    by_cases hi : i < 32 <;> by_cases hni : n ≤ i <;> simp [hi, hni]
    omega
  · have hempty : ¬ (n ≤ i ∧ i < 32) := by omega
    simp [hn, hempty]

/-- Masking with the bottom bits clear rounds down. -/
theorem toNat_and_lowBitsClear (n : Nat) (k : Key) :
    (k &&& lowBitsClear n).toNat = k.toNat / 2 ^ n * 2 ^ n := by
  have hshift : k &&& lowBitsClear n = (k >>> n) <<< n := by
    apply BitVec.eq_of_getLsbD_eq
    intro i hi
    rw [BitVec.getLsbD_and, getLsbD_lowBitsClear, BitVec.getLsbD_shiftLeft,
      BitVec.getLsbD_ushiftRight]
    by_cases hni : n ≤ i
    · have hsub : n + (i - n) = i := by omega
      simp [hi, hni, hsub]
    · have hin : i < n := by omega
      simp [hni, hin]
  rw [hshift, BitVec.toNat_shiftLeft, BitVec.toNat_ushiftRight, Nat.shiftRight_eq_div_pow,
    Nat.shiftLeft_eq, Nat.mod_eq_of_lt]
  exact (Nat.div_mul_le_self _ _).trans_lt k.isLt

/-- An aligned block that lies in the key space. -/
structure Aligned (start n : Nat) : Prop where
  dvd : 2 ^ n ∣ start
  le : start + 2 ^ n ≤ 2 ^ 32

theorem Aligned.bits_le (h : Aligned start n) : n ≤ 32 := by
  by_contra hlt
  have hpow : 2 ^ 32 < 2 ^ n := Nat.pow_lt_pow_right (by omega) (by omega)
  have := h.le
  omega

theorem Aligned.toNat_start (h : Aligned start n) : (BitVec.ofNat 32 start).toNat = start := by
  rw [BitVec.toNat_ofNat, Nat.mod_eq_of_lt]
  have := h.le
  have : 0 < 2 ^ n := by positivity
  omega

theorem Aligned.matches_iff (h : Aligned start n) :
    (blockAt start n).Matches k ↔ start ≤ k.toNat ∧ k.toNat < start + 2 ^ n := by
  have hpos : 0 < 2 ^ n := by positivity
  have hmatches : (blockAt start n).Matches k ↔ k.toNat / 2 ^ n * 2 ^ n = start := by
    change k &&& lowBitsClear n = BitVec.ofNat 32 start ↔ _
    rw [← BitVec.toNat_inj, toNat_and_lowBitsClear, h.toNat_start]
  rw [hmatches]
  obtain ⟨q, rfl⟩ := h.dvd
  constructor
  · intro heq
    have hdiv := Nat.div_add_mod' k.toNat (2 ^ n)
    have hmod := Nat.mod_lt k.toNat hpos
    omega
  · rintro ⟨hlo, hhi⟩
    have hq : k.toNat / 2 ^ n = q := by
      rw [Nat.div_eq_of_lt_le]
      · rw [Nat.mul_comm]
        exact hlo
      · rw [Nat.succ_mul, Nat.mul_comm q]
        exact hhi
    rw [hq, Nat.mul_comm]

theorem Aligned.matches_start (h : Aligned start n) :
    (blockAt start n).Matches (BitVec.ofNat 32 start) := by
  rw [h.matches_iff, h.toNat_start]
  have : 0 < 2 ^ n := by positivity
  omega

theorem Aligned.proper (h : Aligned start n) : (blockAt start n).Proper :=
  h.matches_start.proper

theorem Aligned.inner {bits i j : Nat} (h : Aligned start (bits + j)) (hbits : i < 2 ^ j) :
    Aligned (start + i * 2 ^ bits) bits where
  dvd := (Nat.dvd_add (dvd_trans (pow_dvd_pow 2 (Nat.le_add_right _ _)) h.dvd)
    (Nat.dvd_mul_left _ _))
  le := by
    have hle := h.le
    rw [Nat.pow_add] at hle
    have hrow : (i + 1) * 2 ^ bits ≤ 2 ^ j * 2 ^ bits := Nat.mul_le_mul_right _ hbits
    rw [Nat.add_mul, one_mul, Nat.mul_comm (2 ^ j)] at hrow
    omega

theorem Aligned.agrees_iff {start' n' : Nat} (h : Aligned start n) (h' : Aligned start' n') :
    (blockAt start n).agrees (blockAt start' n') = true ↔
      start < start' + 2 ^ n' ∧ start' < start + 2 ^ n := by
  rw [Pattern.agrees_iff h.proper h'.proper]
  simp only [h.matches_iff, h'.matches_iff]
  constructor
  · rintro ⟨k, hk, hk'⟩
    omega
  · intro hoverlap
    have hle := h.le
    have hle' := h'.le
    have hpos : 0 < 2 ^ n := by positivity
    have hpos' : 0 < 2 ^ n' := by positivity
    refine ⟨BitVec.ofNat 32 (max start start'), ?_⟩
    rw [BitVec.toNat_ofNat, Nat.mod_eq_of_lt (by omega)]
    omega

/-! ## Keys of a range -/

private theorem matches_scatter {p : Pattern} {positions : List Nat}
    (hfree : ∀ i ∈ positions, i < 32 ∧ p.mask.getLsbD i = false) {word : Key}
    (hword : p.Matches word) (m : Nat) : p.Matches (KeyRange.scatter word positions m) := by
  induction positions generalizing word m with
  | nil => exact hword
  | cons i rest ih =>
      obtain ⟨hi, hrest⟩ := List.forall_mem_cons.1 hfree
      unfold KeyRange.scatter
      apply ih hrest
      split
      · rw [Pattern.matches_iff] at hword ⊢
        intro j hj
        rw [← hword j hj, BitVec.getLsbD_or, getLsbD_bit hi.1]
        by_cases hji : j = i
        · subst hji
          simp [hi.2]
        · simp [hji]
      · exact hword

theorem scatter_zero {word : Key} {positions : List Nat} :
    KeyRange.scatter word positions 0 = word := by
  induction positions with
  | nil => rfl
  | cons i rest ih =>
      unfold KeyRange.scatter
      exact ih

theorem keyAt_zero (r : KeyRange) : r.keyAt 0 = r.key :=
  scatter_zero

theorem matches_keyAt (r : KeyRange) (m : Nat) : r.pattern.Matches (r.keyAt m) :=
  matches_scatter (fun _ hi => Pattern.mem_freeBits.1 hi) r.proper.matches_key m

end MulticastMesh.Keys
