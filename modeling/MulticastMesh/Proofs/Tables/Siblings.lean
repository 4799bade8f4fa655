import Mathlib.Data.List.SplitBy
import MulticastMesh.Proofs.Keys.Shares
import MulticastMesh.Tables.Siblings
/-!
# Entries for sibling slices

The entries for a run of slices match all keys of the slices, only keys in their shares, and no
key twice.
-/

namespace MulticastMesh.Tables

open Keys (Aligned Grant Key PartitionKeys VertexBlock bitsNeeded blockAt lowBitsClear shiftUp)
open Routing (PathEntry)

/-! ## Powers of two -/

theorem bitsNeeded_le {n b : Nat} (h : n ≤ 2 ^ b) : bitsNeeded n ≤ b := by
  unfold bitsNeeded
  split
  · exact Nat.zero_le b
  · next hn =>
      have hlt : (n - 1).log2 < b := by
        rw [Nat.log2_lt (by omega)]
        omega
      omega

theorem lowestPower_eq (fuel n : Nat) : ∃ j, lowestPower fuel n = 2 ^ j ∧ 2 ^ j ∣ n := by
  induction fuel generalizing n with
  | zero => exact ⟨0, rfl, one_dvd n⟩
  | succ fuel ih =>
      unfold lowestPower
      split
      · next heven =>
          obtain ⟨j, hj, hdvd⟩ := ih (n / 2)
          refine ⟨j + 1, by rw [hj, Nat.pow_succ, Nat.mul_comm], ?_⟩
          have hn : n = n / 2 * 2 := by omega
          rw [hn, Nat.pow_succ]
          exact Nat.mul_dvd_mul_right hdvd 2
      · exact ⟨0, rfl, one_dvd n⟩

theorem add_two_pow_le {i j n : Nat} (hdvd : 2 ^ j ∣ i) (hpos : 0 < i) (hlt : i < 2 ^ n) :
    i + 2 ^ j ≤ 2 ^ n := by
  have hle : 2 ^ j ≤ 2 ^ n := (Nat.le_of_dvd hpos hdvd).trans hlt.le
  have hjn : j ≤ n := (Nat.pow_le_pow_iff_right (by omega)).1 hle
  obtain ⟨q, rfl⟩ := hdvd
  obtain ⟨p, hp⟩ : 2 ^ j ∣ 2 ^ n := pow_dvd_pow 2 hjn
  rw [hp] at hlt ⊢
  have hqp : q + 1 ≤ p := lt_of_mul_lt_mul_left hlt (Nat.zero_le _)
  rw [← Nat.mul_succ]
  exact Nat.mul_le_mul_left _ hqp

/-- A shared pattern never reaches beyond the bits for indices. -/
theorem alignedRun_eq {index length bits : Nat} (hlength : length ≤ 2 ^ bits)
    (hindex : index < 2 ^ bits) :
    ∃ j, alignedRun index length = 2 ^ j ∧ 2 ^ j ∣ index ∧ index + 2 ^ j ≤ 2 ^ bits := by
  unfold alignedRun
  split
  · next hzero =>
      subst hzero
      refine ⟨bitsNeeded length, rfl, Nat.dvd_zero _, ?_⟩
      rw [Nat.zero_add]
      exact Nat.pow_le_pow_right (by omega) (bitsNeeded_le hlength)
  · next hpos =>
      obtain ⟨j, hj, hdvd⟩ := lowestPower_eq 32 index
      exact ⟨j, hj, hdvd, add_two_pow_le hdvd (by omega) hindex⟩

/-! ## Masks -/

theorem toNat_lowBitsClear {n : Nat} (hn : n ≤ 32) :
    (lowBitsClear n).toNat = 2 ^ 32 - 2 ^ n := by
  have hmask := Keys.toNat_and_lowBitsClear n (BitVec.allOnes 32)
  rw [BitVec.allOnes_and, BitVec.toNat_allOnes] at hmask
  rw [hmask]
  have hpos : 0 < 2 ^ n := by positivity
  have hpow : 2 ^ 32 = 2 ^ (32 - n) * 2 ^ n := by
    rw [← Nat.pow_add]
    congr 1
    omega
  have hpos' : 0 < 2 ^ (32 - n) := by positivity
  have hrow : (2 ^ (32 - n) - 1) * 2 ^ n = 2 ^ 32 - 2 ^ n := by
    rw [Nat.sub_mul, one_mul, ← hpow]
  have hdiv : (2 ^ 32 - 1) / 2 ^ n = 2 ^ (32 - n) - 1 := by
    rw [Nat.div_eq_of_lt_le]
    · rw [hrow]
      omega
    · rw [Nat.sub_add_cancel hpos', ← hpow]
      omega
  rw [hdiv, hrow]

theorem toNat_shiftUp_ones {a j : Nat} (h : a + j ≤ 32) :
    (shiftUp (BitVec.ofNat 32 (2 ^ j - 1)) a).toNat = 2 ^ (a + j) - 2 ^ a := by
  have hpow : 2 ^ (a + j) = 2 ^ j * 2 ^ a := by rw [Nat.pow_add, Nat.mul_comm]
  have hle : 2 ^ (a + j) ≤ 2 ^ 32 := Nat.pow_le_pow_right (by omega) h
  have hposa : 0 < 2 ^ a := by positivity
  have hposj : 0 < 2 ^ j := by positivity
  have hrow : (2 ^ j - 1) * 2 ^ a = 2 ^ (a + j) - 2 ^ a := by
    rw [Nat.sub_mul, one_mul, hpow]
  have hge : 2 ^ a ≤ 2 ^ (a + j) := Nat.pow_le_pow_right (by omega) (by omega)
  unfold shiftUp
  split
  · have hj : 2 ^ j ≤ 2 ^ 32 := Nat.pow_le_pow_right (by omega) (by omega)
    have hcount : 2 ^ j - 1 < 2 ^ 32 := by omega
    have hlt : 2 ^ (a + j) - 2 ^ a < 2 ^ 32 := by omega
    rw [BitVec.toNat_shiftLeft, BitVec.toNat_ofNat, Nat.mod_eq_of_lt hcount,
      Nat.shiftLeft_eq, hrow, Nat.mod_eq_of_lt hlt]
  · have hzero : j = 0 := by omega
    subst hzero
    simp

theorem lowBitsClear_sub {a j : Nat} (h : a + j ≤ 32) :
    lowBitsClear a - shiftUp (BitVec.ofNat 32 (2 ^ j - 1)) a = lowBitsClear (a + j) := by
  have hle : 2 ^ (a + j) ≤ 2 ^ 32 := Nat.pow_le_pow_right (by omega) h
  have hposa : 0 < 2 ^ a := by positivity
  have hge : 2 ^ a ≤ 2 ^ (a + j) := Nat.pow_le_pow_right (by omega) (by omega)
  apply BitVec.eq_of_toNat_eq
  rw [BitVec.toNat_sub, toNat_shiftUp_ones h, toNat_lowBitsClear (by omega),
    toNat_lowBitsClear h]
  omega

/-! ## Rows of slices -/

variable {x : Grant} {path : PathEntry} {block : VertexBlock} {s : Sender} {l l' rest : List Sender}
  {entries entries' : List Entry} {i j m : Nat}

structure Follows (e : Entry) (path : PathEntry) : Prop where
  route_eq : e.route = path.route
  defaultable_eq : e.defaultable = path.defaultable

/-- A slice of the block of a grant that sends as a path entry says. -/
structure Seated (x : Grant) (path : PathEntry) (s : Sender) : Prop where
  key_eq : s.keys.range.key = BitVec.ofNat 32 (x.sliceStart s.keys.index)
  index_lt : s.keys.index < x.request.slices
  follows : Follows s.entry path

def sliceKeys (x : Grant) (s : Sender) : Keys.Pattern :=
  blockAt (x.sliceStart s.keys.index) x.request.atomBits

def Consecutive (i : Nat) (l : List Sender) : Prop :=
  ∀ (n : Nat) (s : Sender), l[n]? = some s → s.keys.index = i + n

def Distinct (s t : Sender) : Prop := s.keys.index ≠ t.keys.index

/-- Entries that match the keys of some slices and otherwise only keys in their shares, each
once. -/
structure Represents (x : Grant) (path : PathEntry) (l : List Sender) (entries : List Entry) :
    Prop where
  proper : ∀ e ∈ entries, e.pattern.Proper
  follows : ∀ e ∈ entries, Follows e path
  sound : ∀ e ∈ entries, ∀ k, e.Matches k →
    x.Covers k ∧ ∃ s ∈ l, s.keys.index = x.slotOf k
  complete : ∀ s ∈ l, ∀ k, (sliceKeys x s).Matches k → ∃ e ∈ entries, e.Matches k
  apart : entries.Pairwise fun e f => e.pattern.Apart f.pattern

/-- An entry for a power of two of slices, for which the mask of a slice has enough bits. -/
def Grouped (block : VertexBlock) (l : List Sender) (e : Entry) : Prop :=
  ∃ s ∈ l, ∃ j, e = groupEntry block s (2 ^ j) ∧ block.atomBits + j ≤ 32

/-- Entries that represent some slices and are shared by powers of two of them. -/
structure Merges (x : Grant) (path : PathEntry) (block : VertexBlock) (l : List Sender)
    (entries : List Entry) : Prop extends Represents x path l entries where
  grouped : ∀ e ∈ entries, Grouped block l e

theorem Grouped.mono {e : Entry} (h : Grouped block l e) (hl : ∀ s ∈ l, s ∈ l') :
    Grouped block l' e := by
  obtain ⟨s, hs, hgroup⟩ := h
  exact ⟨s, hl s hs, hgroup⟩

theorem Represents.append (h : Represents x path l entries)
    (h' : Represents x path l' entries') (hdistinct : ∀ s ∈ l, ∀ t ∈ l', Distinct s t) :
    Represents x path (l ++ l') (entries ++ entries') where
  proper := List.forall_mem_append.2 ⟨h.proper, h'.proper⟩
  follows := List.forall_mem_append.2 ⟨h.follows, h'.follows⟩
  sound := by
    intro e he k hk
    rcases List.mem_append.1 he with he | he
    · obtain ⟨hcovers, s, hs, hslot⟩ := h.sound e he k hk
      exact ⟨hcovers, s, List.mem_append_left _ hs, hslot⟩
    · obtain ⟨hcovers, s, hs, hslot⟩ := h'.sound e he k hk
      exact ⟨hcovers, s, List.mem_append_right _ hs, hslot⟩
  complete := by
    intro s hs k hk
    rcases List.mem_append.1 hs with hs | hs
    · obtain ⟨e, he, hmatch⟩ := h.complete s hs k hk
      exact ⟨e, List.mem_append_left _ he, hmatch⟩
    · obtain ⟨e, he, hmatch⟩ := h'.complete s hs k hk
      exact ⟨e, List.mem_append_right _ he, hmatch⟩
  apart := by
    refine List.pairwise_append.2 ⟨h.apart, h'.apart, fun e he f hf k hk hk' => ?_⟩
    obtain ⟨_, s, hs, hslot⟩ := h.sound e he k hk
    obtain ⟨_, t, ht, hslot'⟩ := h'.sound f hf k hk'
    exact hdistinct s hs t ht (hslot.trans hslot'.symm)

theorem merges_nil : Merges x path block [] [] :=
  ⟨⟨by simp, by simp, by simp, by simp, .nil⟩, by simp⟩

theorem Merges.append (h : Merges x path block l entries) (h' : Merges x path block l' entries')
    (hdistinct : ∀ s ∈ l, ∀ t ∈ l', Distinct s t) :
    Merges x path block (l ++ l') (entries ++ entries') where
  toRepresents := h.toRepresents.append h'.toRepresents hdistinct
  grouped := List.forall_mem_append.2
    ⟨fun e he => (h.grouped e he).mono fun _ => List.mem_append_left _,
      fun e he => (h'.grouped e he).mono fun _ => List.mem_append_right _⟩

theorem merges_flatMap {rows : List (List Sender)} {f : List Sender → List Entry}
    (h : ∀ row ∈ rows, Merges x path block row (f row))
    (hdistinct : rows.flatten.Pairwise Distinct) :
    Merges x path block rows.flatten (rows.flatMap f) := by
  induction rows with
  | nil => exact merges_nil
  | cons row rows ih =>
      obtain ⟨hrow, hrows⟩ := List.forall_mem_cons.1 h
      rw [List.flatten_cons, List.pairwise_append] at hdistinct
      rw [List.flatten_cons, List.flatMap_cons]
      exact hrow.append (ih hrows hdistinct.2.1) hdistinct.2.2

theorem Consecutive.distinct (h : Consecutive i l) : l.Pairwise Distinct := by
  rw [List.pairwise_iff_getElem]
  intro n n' hn hn' hlt heq
  rw [h n _ (List.getElem?_eq_getElem hn), h n' _ (List.getElem?_eq_getElem hn')] at heq
  omega

theorem Consecutive.distinct_drop (h : Consecutive i l) (n : Nat) :
    ∀ s ∈ l.take n, ∀ t ∈ l.drop n, Distinct s t := by
  have hall := h.distinct
  rw [← List.take_append_drop n l, List.pairwise_append] at hall
  exact hall.2.2

theorem Consecutive.drop (h : Consecutive i l) (n : Nat) : Consecutive (i + n) (l.drop n) := by
  intro m s hs
  rw [List.getElem?_drop] at hs
  rw [h (n + m) s hs]
  omega

theorem Consecutive.length_le (h : Consecutive i l) (hl : ∀ s ∈ l, Seated x path s)
    (hne : l ≠ []) : i + l.length ≤ x.request.slices := by
  have hpos := List.length_pos_of_ne_nil hne
  have hlast : l[l.length - 1]? = some l[l.length - 1] := List.getElem?_eq_getElem (by omega)
  have hindex := h _ _ hlast
  have hlt := (hl _ (List.mem_of_getElem? hlast)).index_lt
  rw [hindex] at hlt
  omega

/-- What the entries of a row need to know about the block. -/
structure Fits (x : Grant) (block : VertexBlock) : Prop where
  sufficient : x.Sufficient
  slices_le : x.request.slices ≤ 2 ^ x.request.sliceBits
  sliceMask_eq : block.sliceMask = lowBitsClear x.request.atomBits
  atomBits_eq : block.atomBits = x.request.atomBits

theorem aligned_row (hx : x.Sufficient) (hdvd : 2 ^ j ∣ i)
    (hle : i + 2 ^ j ≤ 2 ^ x.request.sliceBits) :
    Aligned (x.sliceStart i) (x.request.atomBits + j) := by
  have hj : j ≤ x.request.sliceBits :=
    (Nat.pow_le_pow_iff_right (by omega : 1 < 2)).1 ((Nat.le_add_left _ i).trans hle)
  obtain ⟨n, hn⟩ := Nat.exists_eq_add_of_le hj
  have hbits := hx.aligned_bits
  rw [hn, ← Nat.add_assoc] at hbits
  obtain ⟨q, rfl⟩ := hdvd
  have hq : q < 2 ^ n := by
    rw [hn, Nat.pow_add, ← Nat.mul_succ] at hle
    exact Nat.le_of_mul_le_mul_left hle (by positivity)
  have hinner := hbits.inner hq
  unfold Grant.sliceStart
  rwa [Nat.pow_add, Nat.mul_comm (2 ^ x.request.atomBits), ← Nat.mul_assoc,
    Nat.mul_comm q] at hinner

theorem pattern_groupEntry (hb : Fits x block) (hs : Seated x path s)
    (hbits : x.request.atomBits + j ≤ 32) : (groupEntry block s (2 ^ j)).pattern =
      blockAt (x.sliceStart s.keys.index) (x.request.atomBits + j) := by
  unfold groupEntry blockAt
  rw [hb.sliceMask_eq, hb.atomBits_eq, lowBitsClear_sub hbits, hs.key_eq]

theorem groupEntry_matches_iff (hb : Fits x block) (hs : Seated x path s)
    (haligned : Aligned (x.sliceStart s.keys.index) (x.request.atomBits + j)) {k : Key} :
    (groupEntry block s (2 ^ j)).Matches k ↔
      x.sliceStart s.keys.index ≤ k.toNat ∧ k.toNat < x.sliceStart (s.keys.index + 2 ^ j) := by
  unfold Entry.Matches
  rw [pattern_groupEntry hb hs haligned.bits_le, haligned.matches_iff, x.sliceStart_add,
    Nat.pow_add, Nat.mul_comm (2 ^ j)]

theorem sliceKeys_matches_iff (hx : x.Sufficient)
    (htop : s.keys.index < 2 ^ x.request.sliceBits) {k : Key} : (sliceKeys x s).Matches k ↔
      x.sliceStart s.keys.index ≤ k.toNat ∧ k.toNat < x.sliceStart (s.keys.index + 1) := by
  unfold sliceKeys
  rw [(hx.aligned_slice htop).matches_iff, x.sliceStart_add, one_mul]

theorem Consecutive.index_of_mem_take (h : Consecutive i l) {n : Nat} (hs : s ∈ l.take n) :
    i ≤ s.keys.index ∧ s.keys.index < i + n := by
  obtain ⟨m, hm⟩ := List.getElem?_of_mem hs
  rw [List.getElem?_take] at hm
  split at hm
  · next hlt =>
      rw [h m s hm]
      omega
  · cases hm

theorem Consecutive.exists_mem_take (h : Consecutive i l) {n index : Nat} (hle : i ≤ index)
    (hlength : index < i + l.length) (hlt : index < i + n) :
    ∃ s ∈ l.take n, s.keys.index = index := by
  have hpos : index - i < l.length := by omega
  have hget : l[index - i]? = some l[index - i] := List.getElem?_eq_getElem hpos
  refine ⟨l[index - i], List.mem_of_getElem? (i := index - i) ?_, ?_⟩
  · rw [List.getElem?_take_of_lt (by omega), hget]
  · rw [h _ _ hget]
    omega

/-- One entry for a power of two of slices, or for the last slices of the block. -/
theorem merges_group (hb : Fits x block) (hl : ∀ t ∈ s :: rest, Seated x path t)
    (hrow : Consecutive i (s :: rest)) (hdvd : 2 ^ j ∣ i)
    (hfits : i + 2 ^ j ≤ 2 ^ x.request.sliceBits)
    (hfull : 2 ^ j ≤ (s :: rest).length ∨ i + (s :: rest).length = x.request.slices) :
    Merges x path block ((s :: rest).take (2 ^ j)) [groupEntry block s (2 ^ j)] := by
  have hs := hl s (by simp)
  obtain rfl : s.keys.index = i := hrow 0 s rfl
  have haligned := aligned_row hb.sufficient hdvd hfits
  have hfirst : s ∈ (s :: rest).take (2 ^ j) := by
    obtain ⟨n, hn⟩ := Nat.exists_eq_succ_of_ne_zero (Nat.two_pow_pos j).ne'
    rw [hn, List.take_succ_cons]
    exact List.mem_cons_self
  refine ⟨⟨?_, ?_, ?_, ?_, List.pairwise_singleton _ _⟩, ?_⟩ <;>
    simp only [List.forall_mem_singleton, List.exists_mem_cons_iff, List.not_mem_nil, false_and,
      exists_false, or_false]
  · rw [pattern_groupEntry hb hs haligned.bits_le]
    exact haligned.proper
  · exact ⟨hs.follows.route_eq, hs.follows.defaultable_eq⟩
  · intro k hk
    obtain ⟨hlo, hhi⟩ := (groupEntry_matches_iff hb hs haligned).1 hk
    obtain ⟨hcovers, hge, hlt⟩ := hb.sufficient.row_of_mem hfits hlo hhi
    have hbound := hrow.length_le hl (List.cons_ne_nil _ _)
    have hpos : 0 < (s :: rest).length := by simp
    -- keys beyond the last slice are in the share of the last slice
    have hslot : s.keys.index ≤ x.slotOf k ∧ x.slotOf k < s.keys.index + (s :: rest).length ∧
        x.slotOf k < s.keys.index + 2 ^ j := by
      unfold Grant.slotOf
      omega
    exact ⟨hcovers, hrow.exists_mem_take hslot.1 hslot.2.1 hslot.2.2⟩
  · intro t ht k hk
    have htop := (hl t (List.mem_of_mem_take ht)).index_lt.trans_le hb.slices_le
    obtain ⟨hle, hlt⟩ := hrow.index_of_mem_take ht
    obtain ⟨hlo, hhi⟩ := (sliceKeys_matches_iff hb.sufficient htop).1 hk
    exact (groupEntry_matches_iff hb hs haligned).2
      ⟨(x.sliceStart_le hle).trans hlo, hhi.trans_le (x.sliceStart_le hlt)⟩
  · exact ⟨s, hfirst, j, rfl, by rw [hb.atomBits_eq]; exact haligned.bits_le⟩

/-! ## Covering a run -/

/-- Ever smaller powers of two stay aligned behind an aligned start. -/
theorem merges_coverTail {fuel : Nat} (hb : Fits x block) (hl : ∀ s ∈ l, Seated x path s)
    (hrow : Consecutive i l) (hfuel : l.length ≤ fuel) (hdvd : 2 ^ m ∣ i)
    (hlength : l.length < 2 ^ m) : Merges x path block l (coverTail block fuel l) := by
  induction fuel generalizing l i m with
  | zero =>
      cases List.eq_nil_of_length_eq_zero (Nat.le_zero.1 hfuel)
      exact merges_nil
  | succ fuel ih =>
      cases l with
      | nil => exact merges_nil
      | cons s rest =>
          have hpow : powerBelow (rest.length + 1) = 2 ^ (rest.length + 1).log2 := rfl
          have hpos : 0 < 2 ^ (rest.length + 1).log2 := by positivity
          have hle : 2 ^ (rest.length + 1).log2 ≤ rest.length + 1 :=
            Nat.log2_self_le (Nat.succ_ne_zero _)
          have hlt : rest.length + 1 < 2 ^ ((rest.length + 1).log2 + 1) := Nat.lt_log2_self
          rw [Nat.pow_succ] at hlt
          rw [List.length_cons] at hlength hfuel
          have hdvd' : 2 ^ (rest.length + 1).log2 ∣ i := by
            refine dvd_trans (pow_dvd_pow 2 ?_) hdvd
            exact ((Nat.pow_lt_pow_iff_right (by omega : 1 < 2)).1 (hle.trans_lt hlength)).le
          have hbound := hrow.length_le hl (List.cons_ne_nil _ _)
          rw [List.length_cons] at hbound
          have hslices := hb.slices_le
          have hgroup := merges_group hb hl hrow hdvd' (by omega) (Or.inl hle)
          have hrest := ih (l := (s :: rest).drop (2 ^ (rest.length + 1).log2))
            (fun t ht => hl t (List.mem_of_mem_drop ht)) (hrow.drop _)
            (by rw [List.length_drop, List.length_cons]; omega)
            (Nat.dvd_add hdvd' (dvd_refl _))
            (by rw [List.length_drop, List.length_cons]; omega)
          unfold coverTail
          rw [hpow]
          have hall := hgroup.append hrest (hrow.distinct_drop _)
          rwa [List.take_append_drop] at hall

theorem merges_coverRun {fuel length : Nat} {isLast : Bool} (hb : Fits x block)
    (hl : ∀ s ∈ l, Seated x path s) (hrow : Consecutive i l) (hfuel : l.length ≤ fuel)
    (hlength : length ≤ 2 ^ x.request.sliceBits)
    (hlast : isLast = true → l ≠ [] → i + l.length = x.request.slices) :
    Merges x path block l (coverRun block length isLast fuel l) := by
  induction fuel generalizing l i with
  | zero =>
      cases List.eq_nil_of_length_eq_zero (Nat.le_zero.1 hfuel)
      exact merges_nil
  | succ fuel ih =>
      cases l with
      | nil => exact merges_nil
      | cons s rest =>
          have hindex : s.keys.index = i := hrow 0 s rfl
          have hs := hl s (by simp)
          have hslices := hb.slices_le
          have hlt : i < 2 ^ x.request.sliceBits :=
            hindex ▸ hs.index_lt.trans_le hslices
          obtain ⟨j, hj, hdvd, hfits⟩ := alignedRun_eq hlength hlt
          have hpos : 0 < 2 ^ j := by positivity
          unfold coverRun
          simp only [hindex, hj]
          split
          · next hcount =>
              have hfull : 2 ^ j ≤ (s :: rest).length ∨
                  i + (s :: rest).length = x.request.slices := by
                rcases hcount with hcount | hcount
                · exact Or.inl hcount
                · exact Or.inr (hlast hcount (List.cons_ne_nil _ _))
              have hgroup := merges_group hb hl hrow hdvd hfits hfull
              have hlast' : isLast = true → (s :: rest).drop (2 ^ j) ≠ [] →
                  i + 2 ^ j + ((s :: rest).drop (2 ^ j)).length = x.request.slices := by
                intro htrue hne
                have hlen := List.length_pos_of_ne_nil hne
                have hall := hlast htrue (List.cons_ne_nil _ _)
                rw [List.length_drop] at hlen ⊢
                omega
              have hrest := ih (l := (s :: rest).drop (2 ^ j))
                (fun t ht => hl t (List.mem_of_mem_drop ht)) (hrow.drop _)
                (by rw [List.length_drop]; omega) hlast'
              have hall := hgroup.append hrest (hrow.distinct_drop _)
              rwa [List.take_append_drop] at hall
          · next hcount =>
              rw [not_or] at hcount
              exact merges_coverTail hb hl hrow le_rfl hdvd (Nat.not_le.1 hcount.1)

theorem consecutive_of_isChain (h : (s :: rest).IsChain fun a b =>
    (b.keys.index == a.keys.index + 1) = true) : Consecutive s.keys.index (s :: rest) := by
  intro n t ht
  induction n generalizing s rest with
  | zero =>
      cases ht
      rfl
  | succ n ih =>
      cases rest with
      | nil => cases ht
      | cons u rest =>
          rw [List.isChain_cons_cons] at h
          have hindex := ih h.2 ht
          have hnext : u.keys.index = s.keys.index + 1 := by simpa using h.1
          omega

theorem Consecutive.any_getLast? (hrow : Consecutive i part) (hne : part ≠ []) (n : Nat) :
    (part.getLast?.any fun s => s.keys.index == n) = decide (i + part.length = n + 1) := by
  have hpos := List.length_pos_of_ne_nil hne
  have hlast : part[part.length - 1]? = some part[part.length - 1] :=
    List.getElem?_eq_getElem (by omega)
  have hindex := hrow _ _ hlast
  rw [List.getLast?_eq_getElem?, hlast, Option.any_some, hindex, Bool.beq_eq_decide_eq,
    decide_eq_decide]
  omega

theorem merges_coverSiblings (hb : Fits x block)
    (hlast : block.lastIndex = x.request.slices - 1) (hl : ∀ s ∈ l, Seated x path s)
    (hdistinct : l.Pairwise Distinct) : Merges x path block l (coverSiblings block l) := by
  have hflatten : (runs l).flatten = l := List.flatten_splitBy _ l
  have hall : Merges x path block (runs l).flatten (coverSiblings block l) := by
    refine merges_flatMap (fun run hrun => ?_) (by rwa [hflatten])
    have hchain := List.isChain_of_mem_splitBy hrun
    have hseated : ∀ s ∈ run, Seated x path s := by
      intro s hs
      apply hl s
      rw [← hflatten]
      exact List.mem_flatten_of_mem hrun hs
    obtain ⟨s, rest, rfl⟩ := List.exists_cons_of_ne_nil (List.ne_nil_of_mem_splitBy hrun)
    have hrow := consecutive_of_isChain hchain
    have hbound := hrow.length_le hseated (List.cons_ne_nil _ _)
    refine merges_coverRun hb hseated hrow le_rfl (by have := hb.slices_le; omega) ?_
    intro hisLast _
    rw [hrow.any_getLast? (List.cons_ne_nil _ _), decide_eq_true_eq, hlast] at hisLast
    have hpos := (hseated s List.mem_cons_self).index_lt
    omega
  rwa [hflatten] at hall

theorem represents_singles (hx : x.Sufficient)
    (hslices : x.request.slices ≤ 2 ^ x.request.sliceBits)
    (hl : ∀ s ∈ l, Seated x path s) (hpattern : ∀ s ∈ l, s.keys.range.pattern = sliceKeys x s)
    (hdistinct : l.Pairwise Distinct) : Represents x path l (l.map Sender.entry) := by
  have hmatches : ∀ s ∈ l, ∀ k, s.entry.Matches k → x.Covers k ∧ s.keys.index = x.slotOf k := by
    intro s hs k hk
    have hseat := hl s hs
    have htop := hseat.index_lt.trans_le hslices
    have hk : (sliceKeys x s).Matches k := hpattern s hs ▸ hk
    obtain ⟨hlo, hhi⟩ := (sliceKeys_matches_iff hx htop).1 hk
    obtain ⟨hcovers, hfrom, hto⟩ := hx.row_of_mem htop hlo hhi
    refine ⟨hcovers, ?_⟩
    have := hseat.index_lt
    unfold Grant.slotOf
    omega
  refine ⟨?_, ?_, ?_, ?_, ?_⟩
  · intro e he
    obtain ⟨s, _, rfl⟩ := List.mem_map.1 he
    exact s.keys.range.proper
  · intro e he
    obtain ⟨s, hs, rfl⟩ := List.mem_map.1 he
    exact (hl s hs).follows
  · intro e he k hk
    obtain ⟨s, hs, rfl⟩ := List.mem_map.1 he
    obtain ⟨hcovers, hslot⟩ := hmatches s hs k hk
    exact ⟨hcovers, s, hs, hslot⟩
  · intro s hs k hk
    exact ⟨s.entry, List.mem_map_of_mem hs, (hpattern s hs ▸ hk : s.keys.range.pattern.Matches k)⟩
  · rw [List.pairwise_map]
    refine hdistinct.imp_of_mem fun {s t} hs ht hne k hk hk' => hne ?_
    exact (hmatches s hs k hk).2.trans (hmatches t ht k hk').2.symm

end MulticastMesh.Tables
