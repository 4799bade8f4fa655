import MulticastMesh.Proofs.Keys.Blocks
/-!
# Counting through the keys of a range

A number is written into the free bits of a range, lowest first, and can be read back from them.
A bit of the number weighs more than all of its lower bits together, and so does the free bit that
it goes to.  Counting therefore meets every key of the range once, in increasing order.
-/

namespace MulticastMesh.Keys

variable {word k : Key} {positions : List Nat} {i j low : Nat}

namespace KeyRange

/-! ## Reading a number back -/

/-- The bits of a word at the given positions as a number, lowest first. -/
def gather (word : Key) : List Nat → Nat
  | [] => 0
  | p :: rest => (word.getLsbD p).toNat + 2 * gather word rest

theorem gather_lt (word : Key) (positions : List Nat) :
    gather word positions < 2 ^ positions.length := by
  induction positions with
  | nil => exact Nat.one_pos
  | cons p rest ih =>
      have hbit := Bool.toNat_lt (word.getLsbD p)
      unfold gather
      rw [List.length_cons, Nat.pow_succ]
      omega

/-- Writing what was read from a word copies its bits at the positions. -/
theorem getLsbD_scatter_gather (hpositions : ∀ p ∈ positions, p < 32) :
    (scatter word positions (gather k positions)).getLsbD i =
      (word.getLsbD i || (decide (i ∈ positions) && k.getLsbD i)) := by
  induction positions generalizing word with
  | nil => simp [scatter]
  | cons p rest ih =>
      obtain ⟨hp, hrest⟩ := List.forall_mem_cons.1 hpositions
      have hbit := Bool.toNat_lt (k.getLsbD p)
      have hgather : gather k (p :: rest) = (k.getLsbD p).toNat + 2 * gather k rest := rfl
      have hlow : gather k (p :: rest) % 2 = (k.getLsbD p).toNat := by omega
      have hhigh : gather k (p :: rest) / 2 = gather k rest := by omega
      unfold scatter
      rw [hlow, hhigh, ih hrest]
      by_cases hip : i = p
      · subst hip
        cases hset : k.getLsbD i <;> simp [getLsbD_bit hp]
      · cases hset : k.getLsbD p <;> simp [getLsbD_bit hp, hip]

/-- Only as many bits of a number are written as there are positions. -/
theorem scatter_mod (word : Key) (positions : List Nat) (n : Nat) :
    scatter word positions (n % 2 ^ positions.length) = scatter word positions n := by
  induction positions generalizing word n with
  | nil => rfl
  | cons p rest ih =>
      have hlow : n % 2 ^ (p :: rest).length % 2 = n % 2 := by
        rw [List.length_cons, Nat.pow_succ, Nat.mul_comm, Nat.mod_mul_right_mod]
      have hhigh : n % 2 ^ (p :: rest).length / 2 = n / 2 % 2 ^ rest.length := by
        rw [List.length_cons, Nat.pow_succ, Nat.mul_comm, Nat.mod_mul_right_div_self]
      unfold scatter
      rw [hlow, hhigh, ih]

/-! ## The order of the keys -/

/-- What a number weighs when its bits are moved to the given positions, lowest first. -/
def weight : List Nat → Nat → Nat
  | [], _ => 0
  | p :: rest, n => n % 2 * 2 ^ p + weight rest (n / 2)

theorem toNat_or_bit (hi : i < 32) (hclear : word.getLsbD i = false) :
    (word ||| bit i).toNat = word.toNat + 2 ^ i := by
  have hapart : word &&& bit i = 0#32 := by
    apply BitVec.eq_of_getLsbD_eq
    intro j hj
    rw [BitVec.getLsbD_and, getLsbD_bit hi, BitVec.getLsbD_zero]
    by_cases hji : j = i
    · rw [hji, hclear, Bool.false_and]
    · rw [decide_eq_false hji, Bool.and_false]
  have hbit : (bit i).toNat = 2 ^ i := by
    have hlt : 2 ^ i < 2 ^ 32 := Nat.pow_lt_pow_right (by omega) hi
    unfold bit shiftUp
    rw [if_pos hi, BitVec.toNat_shiftLeft, show (1 : Key).toNat = 1 from rfl, Nat.one_shiftLeft,
      Nat.mod_eq_of_lt hlt]
  rw [← BitVec.add_eq_or_of_and_eq_zero _ _ hapart, BitVec.toNat_add_of_and_eq_zero hapart, hbit]

theorem toNat_scatter (hclear : ∀ p ∈ positions, p < 32 ∧ word.getLsbD p = false)
    (hsorted : positions.Pairwise (· < ·)) (n : Nat) :
    (scatter word positions n).toNat = word.toNat + weight positions n := by
  induction positions generalizing word n with
  | nil => rfl
  | cons p rest ih =>
      obtain ⟨⟨hp, hfree⟩, hrest⟩ := List.forall_mem_cons.1 hclear
      obtain ⟨hfirst, hsorted⟩ := List.pairwise_cons.1 hsorted
      unfold scatter weight
      split
      · next hodd =>
          -- The positions behind `p` are larger, so the bit that was set is none of them.
          have hclear' : ∀ q ∈ rest, q < 32 ∧ (word ||| bit p).getLsbD q = false := by
            intro q hq
            have hne : q ≠ p := (hfirst q hq).ne'
            refine ⟨(hrest q hq).1, ?_⟩
            rw [BitVec.getLsbD_or, getLsbD_bit hp, (hrest q hq).2, decide_eq_false hne,
              Bool.false_or]
          rw [ih hclear' hsorted, toNat_or_bit hp hfree, hodd]
          omega
      · next heven =>
          have hzero : n % 2 = 0 := by omega
          rw [ih hrest hsorted, hzero]
          omega

theorem weight_add_le (hlow : ∀ p ∈ positions, low ≤ p) (hsorted : positions.Pairwise (· < ·))
    (hij : i < j) (hj : j < 2 ^ positions.length) :
    weight positions i + 2 ^ low ≤ weight positions j := by
  -- The gap carries the induction: it has to make room for the bits at the lower positions.
  induction positions generalizing low i j with
  | nil =>
      rw [List.length_nil, Nat.pow_zero] at hj
      omega
  | cons p rest ih =>
      obtain ⟨hfirst, hsorted⟩ := List.pairwise_cons.1 hsorted
      have hpow : 2 ^ low ≤ 2 ^ p := Nat.pow_le_pow_right (by omega) (hlow p List.mem_cons_self)
      unfold weight
      by_cases hhigh : i / 2 = j / 2
      · have hi : i % 2 = 0 := by omega
        have hj : j % 2 = 1 := by omega
        rw [hhigh, hi, hj]
        omega
      · have hlt : i / 2 < j / 2 := by omega
        have hbound : j / 2 < 2 ^ rest.length := by
          rw [List.length_cons, Nat.pow_succ] at hj
          omega
        have hbehind : ∀ q ∈ rest, p + 1 ≤ q := hfirst
        have hrest := ih hbehind hsorted hlt hbound
        have hbit : i % 2 * 2 ^ p ≤ 1 * 2 ^ p := Nat.mul_le_mul_right _ (by omega)
        rw [Nat.pow_succ] at hrest
        omega

/-! ## The walk up the bits -/

/-- Writes the bits of a number into the positions that a mask leaves free, and stops when
nothing is left of the number. -/
def walk (mask : Key) : Key → List Nat → Nat → Key
  | word, [], _ => word
  | word, p :: rest, n =>
    if n = 0 then word
    else if mask.getLsbD p then walk mask word rest n
    else walk mask (if n % 2 = 1 then word ||| bit p else word) rest (n / 2)

/-- Nothing is missed by stopping early. -/
theorem walk_eq_scatter (mask word : Key) (positions : List Nat) (n : Nat) :
    walk mask word positions n =
      scatter word (positions.filter fun p => !mask.getLsbD p) n := by
  induction positions generalizing word n with
  | nil => rfl
  | cons p rest ih =>
      unfold walk
      split
      · next hzero => rw [hzero, scatter_zero]
      · split
        · next hfixed => rw [ih, List.filter_cons_of_neg (by simp [hfixed])]
        · next hfree =>
            rw [ih, List.filter_cons_of_pos (by simp [hfree])]
            rfl

end KeyRange

/-! ## Every key once -/

theorem sorted_freeBits (mask : Key) : (freeBits mask).Pairwise (· < ·) :=
  List.pairwise_lt_range.filter _

theorem clear_freeBits (r : KeyRange) :
    ∀ p ∈ freeBits r.mask, p < 32 ∧ r.key.getLsbD p = false := by
  intro p hp
  obtain ⟨hlt, hfree⟩ := Pattern.mem_freeBits.1 hp
  refine ⟨hlt, ?_⟩
  have hproper : r.key.getLsbD p = true → r.mask.getLsbD p = true :=
    Pattern.proper_iff.1 r.proper p hlt
  rw [hfree] at hproper
  simpa using hproper

theorem keyAt_mod (r : KeyRange) (i : Nat) : r.keyAt (i % r.size) = r.keyAt i :=
  KeyRange.scatter_mod r.key (freeBits r.mask) i

theorem keyAt_lt_keyAt (r : KeyRange) (hij : i < j) (hj : j < r.size) : r.keyAt i < r.keyAt j := by
  have hzero : ∀ p ∈ freeBits r.mask, 0 ≤ p := fun p _ => Nat.zero_le p
  have hweight := KeyRange.weight_add_le hzero (sorted_freeBits r.mask) hij hj
  have hvalue := KeyRange.toNat_scatter (clear_freeBits r) (sorted_freeBits r.mask)
  unfold KeyRange.keyAt
  rw [BitVec.lt_def, hvalue, hvalue]
  omega

theorem keyAt_gather (r : KeyRange) (hk : r.pattern.Matches k) :
    r.keyAt (KeyRange.gather k (freeBits r.mask)) = k := by
  apply BitVec.eq_of_getLsbD_eq
  intro p hp
  have hbit : (k.getLsbD p && r.mask.getLsbD p) = r.key.getLsbD p :=
    Pattern.matches_iff.1 hk p hp
  have hmem : p ∈ freeBits r.mask ↔ r.mask.getLsbD p = false := by
    rw [Pattern.mem_freeBits, and_iff_right hp]
  unfold KeyRange.keyAt
  rw [KeyRange.getLsbD_scatter_gather fun q hq => (Pattern.mem_freeBits.1 hq).1, ← hbit]
  cases hfixed : r.mask.getLsbD p
  · rw [decide_eq_true (hmem.2 hfixed), Bool.and_false, Bool.false_or, Bool.true_and]
  · have hnot : p ∉ freeBits r.mask := by simp [hmem, hfixed]
    rw [decide_eq_false hnot, Bool.and_true, Bool.false_and, Bool.or_false]

/-- A function of numbers that runs through all keys of a pattern in increasing order and then
starts over. -/
structure Pattern.CountedBy (p : Pattern) (size : Nat) (keyAt : Nat → Key) : Prop where
  matched : ∀ i, p.Matches (keyAt i)
  increasing : ∀ i j, i < j → j < size → keyAt i < keyAt j
  every : ∀ k, p.Matches k → ∃ i < size, keyAt i = k
  startsOver : ∀ i, keyAt i = keyAt (i % size)

/-- Counting through a range meets each of its keys once, in increasing order, and then starts
over.  The walk up the bits that ends with the number finds the same keys. -/
theorem keyAt_enumerates (r : KeyRange) : r.pattern.CountedBy r.size r.keyAt ∧
    ∀ i, KeyRange.walk r.mask r.key (List.range 32) i = r.keyAt i := by
  refine ⟨⟨matches_keyAt r, fun i j => keyAt_lt_keyAt r, ?_, fun i => (keyAt_mod r i).symm⟩,
    KeyRange.walk_eq_scatter r.mask r.key (List.range 32)⟩
  intro k hk
  exact ⟨_, KeyRange.gather_lt k (freeBits r.mask), keyAt_gather r hk⟩

/-- Free bits above and below fixed ones. -/
example :
    let r : KeyRange := ⟨⟨0x1000, 0xFFFFF0F0⟩, by decide⟩
    r.size = 256 ∧ r.keyAt 0x1F = 0x110F ∧ r.keyAt 0xFF = 0x1F0F ∧ r.keyAt 0x11F = 0x110F := by
  decide

end MulticastMesh.Keys
