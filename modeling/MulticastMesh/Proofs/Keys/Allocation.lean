import MulticastMesh.Proofs.Keys.Grants
/-!
# Allocated keys

Every request is granted a block of its own: a fixed range is the block that it names, and each of
the other blocks is the first one that is free of fixed ranges from a cursor on, which moves past
the blocks that were given.
-/

namespace MulticastMesh.Keys

open MulticastMesh.Graph (AppVertexId ApplicationGraph EdgePartition MachineGraph MachineVertexId)
open Outcome

variable {app : ApplicationGraph} {g : MachineGraph} {a a' : Assignment} {r : BlockRequest}
  {range : KeyRange} {reserved : List KeyRange} {grants before : List Grant}
  {requests : List BlockRequest} {x : Grant} {cursor bits base : Nat}

/-! ## Fixed ranges as blocks -/

theorem mask_eq_of_freeBits {mask : Key} {n : Nat} (h : freeBits mask = List.range n) :
    mask = lowBitsClear n := by
  apply BitVec.eq_of_getLsbD_eq
  intro i hi
  have hmem : i ∈ freeBits mask ↔ i ∈ List.range n := by rw [h]
  rw [Pattern.mem_freeBits, List.mem_range] at hmem
  rw [getLsbD_lowBitsClear]
  cases hbit : mask.getLsbD i with
  | false =>
      have hlt : i < n := hmem.1 ⟨hi, hbit⟩
      simp [hlt]
  | true =>
      have hge : n ≤ i := by
        by_contra hlt
        have := (hmem.2 (by omega)).2
        simp [hbit] at this
      simp [hge, hi]

theorem generality_le_bits (p : Pattern) : p.generality ≤ 32 := by
  have hlength := List.length_filter_le (fun i => !p.mask.getLsbD i) (List.range 32)
  rwa [List.length_range] at hlength

theorem aligned_of_proper {p : Pattern} {n : Nat} (hp : p.Proper)
    (hmask : p.mask = lowBitsClear n) (hn : n ≤ 32) : Aligned p.key.toNat n := by
  have hround : p.key.toNat / 2 ^ n * 2 ^ n = p.key.toNat := by
    have hkey : p.key &&& p.mask = p.key := hp.matches_key
    rw [hmask] at hkey
    rw [← toNat_and_lowBitsClear, hkey]
  refine ⟨⟨_, by rw [Nat.mul_comm]; exact hround.symm⟩, ?_⟩
  obtain ⟨q, hq⟩ : 2 ^ n ∣ 2 ^ 32 := pow_dvd_pow 2 hn
  have hlt := p.key.isLt
  rw [← hround, hq, Nat.mul_comm (2 ^ n)] at hlt
  have hdiv : p.key.toNat / 2 ^ n < q := lt_of_mul_lt_mul_right hlt (Nat.zero_le _)
  have hrow : (p.key.toNat / 2 ^ n + 1) * 2 ^ n ≤ q * 2 ^ n := Nat.mul_le_mul_right _ hdiv
  rw [Nat.add_mul, one_mul, hround] at hrow
  rw [hq, Nat.mul_comm (2 ^ n)]
  exact hrow

/-- A range whose keys are those of an aligned block. -/
structure IsBlock (range : KeyRange) : Prop where
  aligned : Aligned range.key.toNat range.pattern.generality
  pattern_eq : range.pattern = blockAt range.key.toNat range.pattern.generality

theorem isBlock_of_holdsBlock (h : holdsBlock range.mask bits = true) :
    IsBlock range ∧ bits ≤ range.pattern.generality := by
  unfold holdsBlock at h
  simp only [Bool.and_eq_true, beq_iff_eq, decide_eq_true_eq] at h
  obtain ⟨hfree, hbits⟩ := h
  have hmask : range.pattern.mask = lowBitsClear range.pattern.generality :=
    mask_eq_of_freeBits hfree
  refine ⟨⟨aligned_of_proper range.proper hmask (generality_le_bits _), ?_⟩, hbits⟩
  unfold blockAt
  simp only [KeyRange.key, BitVec.ofNat_toNat, BitVec.setWidth_eq]
  rw [← hmask]

def fixedGrant (item : KeyRange × BlockRequest) : Grant :=
  ⟨item.2, item.1.key.toNat, item.1.pattern.generality⟩

theorem sufficient_fixedGrant (hfixed : r.fixed? = some range)
    (h : holdsBlock range.mask r.bits = true) : (fixedGrant (range, r)).Sufficient := by
  obtain ⟨hblock, hbits⟩ := isBlock_of_holdsBlock h
  refine ⟨hblock.aligned, hbits, ?_, ?_⟩
  · intro range' hrange'
    cases hfixed.symm.trans hrange'
    exact hblock.pattern_eq
  · intro hnone
    cases hfixed.symm.trans hnone

theorem Aligned.apart_iff {start n start' n' : Nat} (h : Aligned start n)
    (h' : Aligned start' n') : (blockAt start n).Apart (blockAt start' n') ↔
      start + 2 ^ n ≤ start' ∨ start' + 2 ^ n' ≤ start := by
  have hagrees := (Pattern.agrees_iff h.proper h'.proper).symm.trans (h.agrees_iff h')
  have hapart : (blockAt start n).Apart (blockAt start' n') ↔
      ¬ ∃ k, (blockAt start n).Matches k ∧ (blockAt start' n').Matches k := by
    unfold Pattern.Apart
    simp only [not_exists, not_and]
  rw [hapart, hagrees]
  omega

/-! ## Giving blocks -/

def assignGrants (a : Assignment) (grants : List Grant) : Except KeyError Assignment :=
  grants.foldlM (fun a x => assignBlock a x.request (BitVec.ofNat 32 x.base)) a

theorem assignGrants_append {grants' : List Grant} : assignGrants a (grants ++ grants') = .ok a' ↔
    ∃ b, assignGrants a grants = .ok b ∧ assignGrants b grants' = .ok a' := by
  unfold assignGrants
  rw [List.foldlM_append, bind_eq_ok]

theorem assignGrants_cons : assignGrants a (x :: grants) = .ok a' ↔
    ∃ b, assignBlock a x.request (BitVec.ofNat 32 x.base) = .ok b ∧
      assignGrants b grants = .ok a' := by
  unfold assignGrants
  rw [List.foldlM_cons, bind_eq_ok]

theorem Realises.assignGrants (h : Realises a before) (hsuff : ∀ x ∈ grants, x.Sufficient)
    (hrun : assignGrants a grants = .ok a') : Realises a' (before ++ grants) := by
  induction grants generalizing a before with
  | nil =>
      cases hrun
      rwa [List.append_nil]
  | cons x grants ih =>
      obtain ⟨hx, hrest⟩ := List.forall_mem_cons.1 hsuff
      obtain ⟨b, hb, hrun⟩ := assignGrants_cons.1 hrun
      have hall := ih (h.assignBlock hx hb) hrest hrun
      rwa [List.append_assoc] at hall

/-! ## Reserved blocks -/

def fixedItems (requests : List BlockRequest) : List (KeyRange × BlockRequest) :=
  requests.filterMap fun r => r.fixed?.map fun range => (range, r)

theorem fixedItems_cons_of_none (hfixed : r.fixed? = none) :
    fixedItems (r :: requests) = fixedItems requests := by
  simp [fixedItems, hfixed]

theorem fixedItems_cons_of_some (hfixed : r.fixed? = some range) :
    fixedItems (r :: requests) = (range, r) :: fixedItems requests := by
  simp [fixedItems, hfixed]

/-- The fixed ranges are blocks that are large enough and do not overlap. -/
structure Reservable (items : List (KeyRange × BlockRequest)) : Prop where
  holds : ∀ item ∈ items, item.2.fixed? = some item.1 ∧
    holdsBlock item.1.mask item.2.bits = true
  free : items.Pairwise fun x y => x.1.overlaps y.1 = false

theorem reservable_nil : Reservable [] := ⟨by simp, List.Pairwise.nil⟩

theorem Reservable.snoc {items : List (KeyRange × BlockRequest)} (h : Reservable items)
    (hfixed : r.fixed? = some range) (hholds : holdsBlock range.mask r.bits = true)
    (hfree : items.find? (fun earlier => earlier.1.overlaps range) = none) :
    Reservable (items ++ [(range, r)]) where
  holds := by
    intro item hitem
    rcases List.mem_append.1 hitem with hitem | hitem
    · exact h.holds item hitem
    · cases List.mem_singleton.1 hitem
      exact ⟨hfixed, hholds⟩
  free := by
    rw [List.pairwise_append]
    refine ⟨h.free, List.pairwise_singleton _ _, ?_⟩
    intro x hx y hy
    cases List.mem_singleton.1 hy
    have hmiss := List.find?_eq_none.1 hfree x hx
    rwa [Bool.not_eq_true] at hmiss

theorem reserveFixed_eq_ok {items items' : List (KeyRange × BlockRequest)}
    (h : Reservable items) (hrun : reserveFixed a items requests = .ok (a', items')) :
    items' = items ++ fixedItems requests ∧ Reservable items' ∧
      assignGrants a ((fixedItems requests).map fixedGrant) = .ok a' := by
  induction requests generalizing a items with
  | nil =>
      cases hrun
      exact ⟨by simp [fixedItems], h, rfl⟩
  | cons r rest ih =>
      unfold reserveFixed at hrun
      cases hfixed : r.fixed? with
      | none =>
          simp only [hfixed] at hrun
          rw [fixedItems_cons_of_none hfixed]
          exact ih h hrun
      | some range =>
          simp only [hfixed] at hrun
          split at hrun
          · cases hrun
          · next hholds =>
              split at hrun
              · cases hrun
              · next hfree =>
                  obtain ⟨b, hb, hrun⟩ := bind_eq_ok.1 hrun
                  have hholds : holdsBlock range.mask r.bits = true := by simpa using hholds
                  obtain ⟨heq, hall, hassign⟩ := ih (h.snoc hfixed hholds hfree) hrun
                  have hbase : BitVec.ofNat 32 (fixedGrant (range, r)).base = range.key := by
                    simp [fixedGrant]
                  rw [fixedItems_cons_of_some hfixed, List.map_cons, assignGrants_cons, hbase]
                  exact ⟨by rw [heq, List.append_assoc]; rfl, hall, b, hb, hassign⟩

def fixedGrants (requests : List BlockRequest) : List Grant :=
  (fixedItems requests).map fixedGrant

theorem map_request_fixedGrants (requests : List BlockRequest) :
    (fixedGrants requests).map Grant.request = requests.filter fun r => r.fixed?.isSome := by
  unfold fixedGrants
  induction requests with
  | nil => rfl
  | cons r rest ih =>
      cases hfixed : r.fixed? with
      | none =>
          rw [fixedItems_cons_of_none hfixed, ih, List.filter_cons_of_neg (by simp [hfixed])]
      | some range =>
          rw [fixedItems_cons_of_some hfixed, List.map_cons, List.map_cons, ih,
            List.filter_cons_of_pos (by simp [hfixed])]
          rfl

def fixedRanges (requests : List BlockRequest) : List KeyRange :=
  (fixedItems requests).map Prod.fst

theorem Reservable.isBlock (h : Reservable (fixedItems requests)) :
    ∀ range ∈ fixedRanges requests, IsBlock range := by
  intro range hrange
  obtain ⟨item, hitem, rfl⟩ := List.mem_map.1 hrange
  exact (isBlock_of_holdsBlock (h.holds item hitem).2).1

/-! ## Free blocks -/

theorem blockSize_pos (bits : Nat) : 0 < blockSize bits := by
  rw [blockSize_eq]
  positivity

theorem dvd_alignUp (n size : Nat) : size ∣ alignUp n size := Nat.dvd_mul_left _ _

theorem le_alignUp (n : Nat) {size : Nat} (hsize : 0 < size) : n ≤ alignUp n size := by
  unfold alignUp
  have hdiv := Nat.div_add_mod' (n + size - 1) size
  have hmod := Nat.mod_lt (n + size - 1) hsize
  omega

theorem alignUp_le {n m size : Nat} (hsize : 0 < size) (hdvd : size ∣ m) (hle : n ≤ m) :
    alignUp n size ≤ m := by
  obtain ⟨q, rfl⟩ := hdvd
  have hlt : n + size - 1 < size * (q + 1) := by
    rw [Nat.mul_add, Nat.mul_one]
    omega
  have hdiv : (n + size - 1) / size ≤ q := Nat.lt_succ_iff.1 (Nat.div_lt_of_lt_mul hlt)
  calc alignUp n size = (n + size - 1) / size * size := rfl
    _ ≤ q * size := Nat.mul_le_mul_right _ hdiv
    _ = size * q := Nat.mul_comm _ _

/-- An aligned block that has no key of some patterns. -/
structure Usable (taken : List Pattern) (bits base : Nat) : Prop where
  aligned : Aligned base bits
  apart : ∀ p ∈ taken, p.Apart (blockAt base bits)

/-- The bases of usable blocks from a number on. -/
def usableFrom (taken : List Pattern) (bits cursor : Nat) : Set Nat :=
  {b | cursor ≤ b ∧ Usable taken bits b}

/-- The least number of a set, or nothing if it is empty. -/
def Finds (s : Set Nat) : Option Nat → Prop
  | some n => IsLeast s n
  | none => s = ∅

/-- Bases are usable from the next multiple of the block size on. -/
theorem usableFrom_alignUp (taken : List Pattern) (bits cursor : Nat) :
    usableFrom taken bits (alignUp cursor (blockSize bits)) = usableFrom taken bits cursor := by
  ext b
  constructor
  · rintro ⟨hle, hb⟩
    exact ⟨(le_alignUp cursor (blockSize_pos bits)).trans hle, hb⟩
  · rintro ⟨hle, hb⟩
    exact ⟨alignUp_le (blockSize_pos bits) hb.aligned.dvd hle, hb⟩

/-- No block is usable before the end of a range that is in the way. -/
theorem usableFrom_past (hmem : range ∈ reserved) (hblock : IsBlock range)
    (hbase : Aligned base bits) (hagrees : range.pattern.agrees (blockAt base bits) = true) :
    base < range.key.toNat + range.size ∧
      usableFrom (reserved.map KeyRange.pattern) bits (range.key.toNat + range.size) =
        usableFrom (reserved.map KeyRange.pattern) bits base := by
  rw [hblock.pattern_eq, hblock.aligned.agrees_iff hbase] at hagrees
  have hsize : range.size = 2 ^ range.pattern.generality := rfl
  have hpast : base < range.key.toNat + range.size := by omega
  refine ⟨hpast, ?_⟩
  ext b
  constructor
  · rintro ⟨hle, hb⟩
    exact ⟨hpast.le.trans hle, hb⟩
  · rintro ⟨hle, hb⟩
    refine ⟨?_, hb⟩
    have hapart := hb.apart range.pattern (List.mem_map_of_mem hmem)
    rw [hblock.pattern_eq, hblock.aligned.apart_iff hb.aligned] at hapart
    rcases hapart with hends | hstarts
    · rwa [hsize]
    · -- a multiple of the block size that is not below the base ends after the range starts
      omega

/-- The reserved ranges that end above a base. -/
def ahead (reserved : List KeyRange) (base : Nat) : List KeyRange :=
  reserved.filter fun range => base < range.key.toNat + range.size

theorem length_ahead_le (reserved : List KeyRange) (base : Nat) :
    (ahead reserved base).length ≤ reserved.length :=
  List.length_filter_le _ _

theorem length_ahead_lt {base' : Nat} (hmem : range ∈ reserved)
    (hlt : base < range.key.toNat + range.size) (hle : range.key.toNat + range.size ≤ base') :
    (ahead reserved base').length < (ahead reserved base).length := by
  have hfilter : ahead reserved base' =
      (ahead reserved base).filter fun range => base' < range.key.toNat + range.size := by
    unfold ahead
    rw [List.filter_filter]
    apply List.filter_congr
    intro s _
    simp only [← Bool.decide_and, decide_eq_decide]
    omega
  rw [hfilter, List.length_filter_lt_length_iff_exists]
  refine ⟨range, List.mem_filter.2 ⟨hmem, by simpa using hlt⟩, ?_⟩
  simpa using hle

/-- The search returns the lowest usable base.  Every range that it jumps over stays behind, so it
ends within as many steps as there are ranges ahead. -/
theorem lowestBase?_finds (hblocks : ∀ range ∈ reserved, IsBlock range) {fuel : Nat}
    (hdvd : 2 ^ bits ∣ base) (hfuel : (ahead reserved base).length < fuel) :
    Finds (usableFrom (reserved.map KeyRange.pattern) bits base)
      (lowestBase? reserved bits fuel base) := by
  induction fuel generalizing base with
  | zero => omega
  | succ fuel ih =>
      unfold lowestBase?
      split
      · next hroom =>
          refine Set.eq_empty_iff_forall_notMem.2 ?_
          rintro b ⟨hle, hb⟩
          have := hb.aligned.le
          simp only [blockSize_eq] at hroom
          omega
      · next hroom =>
          have hbase : Aligned base bits := ⟨hdvd, Nat.not_lt.1 hroom⟩
          split
          · next hfree =>
              refine ⟨⟨le_rfl, hbase, ?_⟩, fun b hb => hb.1⟩
              intro p hp
              obtain ⟨range, hrange, rfl⟩ := List.mem_map.1 hp
              have hmiss := List.find?_eq_none.1 hfree range hrange
              have hagrees := Pattern.agrees_iff range.proper hbase.proper
              intro k hk hk'
              exact hmiss (hagrees.2 ⟨k, hk, hk'⟩)
          · next range hfound =>
              have hmem := List.mem_of_find?_eq_some hfound
              have hagrees := List.find?_some hfound
              obtain ⟨hlt, hsame⟩ := usableFrom_past hmem (hblocks range hmem) hbase hagrees
              have hup := le_alignUp (range.key.toNat + range.size) (blockSize_pos bits)
              have hahead := length_ahead_lt hmem hlt hup
              have hnext := ih (dvd_alignUp (range.key.toNat + range.size) (blockSize bits))
                (by omega)
              rwa [usableFrom_alignUp, hsame] at hnext

/-- Blocks that are given one after another, each at the lowest base from a cursor on that is free
of fixed ranges; the cursor moves to the end of the block. -/
def FromCursor (fixed : List Pattern) : (cursor : Nat) → List Grant → Prop
  | _, [] => True
  | cursor, x :: rest => x.request.fixed? = none ∧ x.width = x.request.bits ∧
      IsLeast (usableFrom fixed x.width cursor) x.base ∧
      FromCursor fixed (x.base + 2 ^ x.width) rest

def cursorAfter (cursor : Nat) (grants : List Grant) : Nat :=
  grants.foldl (fun _ x => x.base + 2 ^ x.width) cursor

variable {fixed : List Pattern}

theorem fromCursor_append {grants' : List Grant} : FromCursor fixed cursor (grants ++ grants') ↔
    FromCursor fixed cursor grants ∧ FromCursor fixed (cursorAfter cursor grants) grants' := by
  induction grants generalizing cursor with
  | nil => simp [FromCursor, cursorAfter]
  | cons x grants ih =>
      have hafter : cursorAfter cursor (x :: grants) =
          cursorAfter (x.base + 2 ^ x.width) grants := rfl
      rw [List.cons_append, FromCursor, FromCursor, ih, hafter]
      tauto

theorem FromCursor.forall (h : FromCursor fixed cursor grants) : ∀ x ∈ grants,
    x.Sufficient ∧ x.width = x.request.bits ∧ cursor ≤ x.base ∧
      Usable fixed x.width x.base := by
  induction grants generalizing cursor with
  | nil => simp
  | cons x grants ih =>
      obtain ⟨hnone, hwidth, ⟨⟨hle, husable⟩, _⟩, hrest⟩ := h
      refine List.forall_mem_cons.2 ⟨⟨⟨husable.aligned, hwidth.ge, ?_, fun _ => hwidth⟩,
        hwidth, hle, husable⟩, ?_⟩
      · intro range hrange
        cases hnone.symm.trans hrange
      · intro y hy
        obtain ⟨hsuff, hwidth', hbase, husable'⟩ := ih hrest y hy
        exact ⟨hsuff, hwidth', hle.trans ((Nat.le_add_right _ _).trans hbase), husable'⟩

theorem FromCursor.pairwise_apart (h : FromCursor fixed cursor grants) :
    grants.Pairwise Grant.Apart := by
  induction grants generalizing cursor with
  | nil => exact List.Pairwise.nil
  | cons x grants ih =>
      obtain ⟨_, _, _, hrest⟩ := h
      rw [List.pairwise_cons]
      exact ⟨fun y hy => Or.inl (hrest.forall y hy).2.2.1, ih hrest⟩

def freeRequests (requests : List BlockRequest) : List BlockRequest :=
  (requests.filter fun r => r.fixed?.isNone).mergeSort fun r s => s.bits ≤ r.bits

/-- The search for a block has enough fuel and starts at a multiple of the block size. -/
theorem lowestBase?_cursor (hblocks : ∀ range ∈ reserved, IsBlock range) (bits cursor : Nat) :
    Finds (usableFrom (reserved.map KeyRange.pattern) bits cursor)
      (lowestBase? reserved bits (reserved.length + 1) (alignUp cursor (blockSize bits))) := by
  have hfuel := length_ahead_le reserved (alignUp cursor (blockSize bits))
  have hfinds := lowestBase?_finds hblocks (dvd_alignUp cursor (blockSize bits))
    (Nat.lt_succ_of_le hfuel)
  rwa [usableFrom_alignUp] at hfinds

/-- A free request is given the first usable block from the cursor on, or the keys run out. -/
theorem assignFree_cons (hblocks : ∀ range ∈ reserved, IsBlock range) (a : Assignment)
    (cursor : Nat) (r : BlockRequest) (rest : List BlockRequest) :
    (∃ base, IsLeast (usableFrom (reserved.map KeyRange.pattern) r.bits cursor) base ∧
      assignFree reserved a cursor (r :: rest) =
        (assignBlock a r (BitVec.ofNat 32 base) >>= fun a =>
          assignFree reserved a (base + 2 ^ r.bits) rest)) ∨
    (usableFrom (reserved.map KeyRange.pattern) r.bits cursor = ∅ ∧
      assignFree reserved a cursor (r :: rest) =
        .error (.spaceExhausted r.label r.identifier r.bits)) := by
  rw [assignFree]
  split
  · next hbits =>
      refine Or.inr ⟨Set.eq_empty_iff_forall_notMem.2 ?_, rfl⟩
      rintro b ⟨_, hb⟩
      have := hb.aligned.bits_le
      omega
  · have hfinds := lowestBase?_cursor hblocks r.bits cursor
    simp only
    split
    · next hnone =>
        rw [hnone] at hfinds
        exact Or.inr ⟨hfinds, rfl⟩
    · next base hbase =>
        rw [hbase] at hfinds
        exact Or.inl ⟨base, hfinds, rfl⟩

theorem assignFree_eq_ok (hblocks : ∀ range ∈ reserved, IsBlock range)
    (hnone : ∀ r ∈ requests, r.fixed? = none)
    (hrun : assignFree reserved a cursor requests = .ok a') :
    ∃ grants : List Grant, grants.map Grant.request = requests ∧
      FromCursor (reserved.map KeyRange.pattern) cursor grants ∧
      assignGrants a grants = .ok a' := by
  induction requests generalizing a cursor with
  | nil =>
      cases hrun
      exact ⟨[], rfl, trivial, rfl⟩
  | cons r rest ih =>
      obtain ⟨hr, hrest⟩ := List.forall_mem_cons.1 hnone
      rcases assignFree_cons hblocks a cursor r rest with ⟨base, hleast, hstep⟩ | ⟨_, hstep⟩
      · obtain ⟨b, hb, hrun⟩ := bind_eq_ok.1 (hstep.symm.trans hrun)
        obtain ⟨grants, hmap, hfrom, hassign⟩ := ih hrest hrun
        exact ⟨⟨r, base, r.bits⟩ :: grants, by rw [List.map_cons, hmap],
          ⟨hr, rfl, hleast, hfrom⟩, assignGrants_cons.2 ⟨b, hb, hassign⟩⟩
      · cases hstep.symm.trans hrun

/-! ## All blocks -/

theorem Attributed.perm {requests' : List BlockRequest} (h : Attributed g requests)
    (hperm : requests.Perm requests') : Attributed g requests' where
  sent := fun r hr => h.sent r (hperm.mem_iff.2 hr)
  sends := by
    intro p hp
    obtain ⟨r, hr, hrest⟩ := h.sends p hp
    exact ⟨r, hperm.mem_iff.1 hr, hrest⟩
  distinct := hperm.pairwise h.distinct fun hne => hne.symm

theorem Requested.perm {requests' : List BlockRequest} (h : Requested g requests)
    (hperm : requests.Perm requests') : Requested g requests' where
  toAttributed := h.toAttributed.perm hperm
  fitting := fun r hr => h.fitting r (hperm.mem_iff.2 hr)

/-- Fixed ranges are reserved, then the other blocks are given from the bottom of the key space
on. -/
structure Handed (requests : List BlockRequest) (grants : List Grant) : Prop where
  reservable : Reservable (fixedItems requests)
  requests_eq : grants.map Grant.request = freeRequests requests
  fromCursor : FromCursor ((fixedRanges requests).map KeyRange.pattern) 0 grants

theorem mem_freeRequests : r ∈ freeRequests requests ↔ r ∈ requests ∧ r.fixed? = none := by
  unfold freeRequests
  rw [List.mem_mergeSort, List.mem_filter, Option.isNone_iff_eq_none]

theorem allocate_handed (h : allocate app g = .ok a) :
    ∃ requests grants, blockRequests app g = .ok requests ∧ Handed requests grants ∧
      assignGrants .empty (fixedGrants requests ++ grants) = .ok a := by
  obtain ⟨requests, hrequests, h⟩ := bind_eq_ok.1 h
  obtain ⟨⟨b, items⟩, hreserve, h⟩ := bind_eq_ok.1 h
  obtain ⟨hitems, hreservable, hassign⟩ := reserveFixed_eq_ok reservable_nil (lift_eq_ok.1 hreserve)
  rw [List.nil_append] at hitems
  subst hitems
  obtain ⟨grants, hmap, hfrom, hgrants⟩ := assignFree_eq_ok hreservable.isBlock
    (fun r hr => (mem_freeRequests.1 hr).2) (lift_eq_ok.1 h)
  exact ⟨requests, grants, hrequests, ⟨hreservable, hmap, hfrom⟩,
    assignGrants_append.2 ⟨b, hassign, hgrants⟩⟩

theorem Handed.fixedGrants_granted (h : Handed requests grants) :
    (∀ x ∈ fixedGrants requests, x.Sufficient ∧
      blockAt x.base x.width ∈ (fixedRanges requests).map KeyRange.pattern) ∧
    (fixedGrants requests).Pairwise Grant.Apart := by
  have hitem : ∀ item ∈ fixedItems requests, IsBlock item.1 :=
    fun item hitem => (isBlock_of_holdsBlock (h.reservable.holds item hitem).2).1
  refine ⟨?_, ?_⟩
  · intro x hx
    obtain ⟨item, hmem, rfl⟩ := List.mem_map.1 hx
    obtain ⟨hfixed, hholds⟩ := h.reservable.holds item hmem
    refine ⟨sufficient_fixedGrant hfixed hholds, ?_⟩
    change blockAt item.1.key.toNat item.1.pattern.generality ∈ _
    rw [← (hitem item hmem).pattern_eq]
    exact List.mem_map_of_mem (List.mem_map_of_mem hmem)
  · unfold fixedGrants
    rw [List.pairwise_map]
    refine List.Pairwise.imp_of_mem ?_ h.reservable.free
    intro i j hi hj hfree
    have hagrees := Pattern.agrees_iff i.1.proper j.1.proper
    have hapart : i.1.pattern.Apart j.1.pattern := by
      intro k hk hk'
      have hoverlap : i.1.overlaps j.1 = true := hagrees.2 ⟨k, hk, hk'⟩
      rw [hfree] at hoverlap
      cases hoverlap
    rw [(hitem i hi).pattern_eq, (hitem j hj).pattern_eq,
      (hitem i hi).aligned.apart_iff (hitem j hj).aligned] at hapart
    exact hapart

structure Granted (a : Assignment) (grants : List Grant) : Prop where
  realises : Realises a grants
  sufficient : ∀ x ∈ grants, x.Sufficient
  apart : grants.Pairwise Grant.Apart

theorem Handed.granted (h : Handed requests grants)
    (hrun : assignGrants .empty (fixedGrants requests ++ grants) = .ok a) :
    Granted a (fixedGrants requests ++ grants) := by
  obtain ⟨hfixed, hfixedApart⟩ := h.fixedGrants_granted
  have hfree := h.fromCursor.forall
  have hsuff : ∀ x ∈ fixedGrants requests ++ grants, x.Sufficient := by
    intro x hx
    rcases List.mem_append.1 hx with hx | hx
    · exact (hfixed x hx).1
    · exact (hfree x hx).1
  refine ⟨realises_nil.assignGrants hsuff hrun, hsuff, ?_⟩
  rw [List.pairwise_append]
  refine ⟨hfixedApart, h.fromCursor.pairwise_apart, fun x hx y hy => ?_⟩
  obtain ⟨hx', hmem⟩ := hfixed x hx
  obtain ⟨hy', _, _, husable⟩ := hfree y hy
  exact (hx'.aligned.apart_iff hy'.aligned).1 (husable.apart _ hmem)

theorem Handed.perm (h : Handed requests grants) :
    requests.Perm ((fixedGrants requests ++ grants).map Grant.request) := by
  rw [List.map_append, map_request_fixedGrants, h.requests_eq]
  have hsorted := List.mergeSort_perm (requests.filter fun r => r.fixed?.isNone)
    fun r s => decide (s.bits ≤ r.bits)
  have hsplit := List.filter_append_perm (fun r : BlockRequest => r.fixed?.isSome) requests
  have hnone : (requests.filter fun r => !r.fixed?.isSome) =
      requests.filter fun r => r.fixed?.isNone := by simp
  rw [hnone] at hsplit
  exact hsplit.symm.trans (List.Perm.append_left _ hsorted.symm)

/-- Every request of a graph has a block, and no two blocks have a common key. -/
theorem allocate_grants (h : allocate app g = .ok a) :
    ∃ requests grants, blockRequests app g = .ok requests ∧ Granted a grants ∧
      requests.Perm (grants.map Grant.request) := by
  obtain ⟨requests, grants, hrequests, hhanded, hassign⟩ := allocate_handed h
  exact ⟨requests, _, hrequests, hhanded.granted hassign, hhanded.perm⟩

/-- Requests that come largest first are handed out as they come. -/
theorem allocate_of_descending (h : blockRequests app g = .ok requests)
    (hsorted : (requests.filter fun r => r.fixed?.isNone).Pairwise fun r s => s.bits ≤ r.bits) :
    allocate app g = Outcome.lift .keys (do
      let (a, reserved) ← reserveFixed .empty [] requests
      assignFree (reserved.map Prod.fst) a 0 (requests.filter fun r => r.fixed?.isNone)) := by
  have hfree : ((requests.filter fun r => r.fixed?.isNone).mergeSort fun r s => s.bits ≤ r.bits) =
      requests.filter fun r => r.fixed?.isNone :=
    List.mergeSort_of_pairwise (hsorted.imp fun hle => by simpa using hle)
  unfold allocate
  rw [h, ok_bind, hfree]
  cases reserveFixed .empty [] requests with
  | error e => rfl
  | ok b => rfl

theorem Attributed.eq_of_owner {y : Grant} (h : Attributed g (grants.map Grant.request))
    (hx : x ∈ grants) (hy : y ∈ grants) (howner : x.request.owner = y.request.owner)
    (hidentifier : x.request.identifier = y.request.identifier) : x = y := by
  have hdistinct := h.distinct
  rw [List.pairwise_map] at hdistinct
  have hsymm : Std.Symm fun x y : Grant => (x.request.owner, x.request.identifier) ≠
      (y.request.owner, y.request.identifier) := ⟨fun _ _ hne => hne.symm⟩
  by_contra hne
  have hpairs := hdistinct.forall hx hy hne
  rw [howner, hidentifier] at hpairs
  exact hpairs rfl

/-- Keys are those that go with the index of their vertex in the one block of its owner. -/
theorem Granted.keys_eq {id : MachineVertexId} {identifier : String} {k : PartitionKeys}
    (h : Granted a grants) (hsent : Attributed g (grants.map Grant.request))
    (hk : a.keys? id identifier = some k) :
    ∃ x ∈ grants, ∃ v, g.HasVertex id v ∧ x.request.owner = ownerOf id v ∧
      x.request.identifier = identifier ∧ (v.index, id) ∈ x.request.senders ∧
      k.index = v.index ∧ k.range.pattern = x.slicePattern v.index := by
  obtain ⟨x, hx, hsender, hidentifier, hpattern⟩ := h.realises.keys_sound id identifier k hk
  obtain ⟨_, _, _, _, v, hv, howner, hindex⟩ :=
    hsent.sent x.request (List.mem_map_of_mem hx) _ _ hsender
  rw [← hindex] at hsender hpattern
  exact ⟨x, hx, v, hv, howner.symm, hidentifier, hsender, hindex.symm, hpattern⟩

theorem Granted.exists_keys {p : EdgePartition} (h : Granted a grants)
    (hsent : Attributed g (grants.map Grant.request)) (hp : p ∈ g.multicastPartitions) :
    ∃ k, a.keys? p.pre p.identifier = some k := by
  obtain ⟨r, hr, _, _, _, hidentifier, hsender⟩ := hsent.sends p hp
  obtain ⟨x, hx, rfl⟩ := List.mem_map.1 hr
  rw [← hidentifier]
  exact h.realises.keys_complete x hx _ _ hsender

/-- An assignment that has the keys of a grant: those that go with the indices of its senders, and
the whole block if an application vertex owns it. -/
structure Carries (a : Assignment) (x : Grant) : Prop where
  keys : ∀ i id, (i, id) ∈ x.request.senders → ∃ k,
    a.keys? id x.request.identifier = some k ∧ k.index = i ∧ k.range.pattern = x.slicePattern i
  block : ∀ id, x.request.owner = .application id → ∃ b,
    a.block? id x.request.identifier = some b ∧ b.range.pattern = blockAt x.base x.width

theorem Granted.carries (h : Granted a grants) (hsent : Attributed g (grants.map Grant.request))
    (hx : x ∈ grants) : Carries a x where
  keys := by
    intro i id hsender
    obtain ⟨k, hk⟩ := h.realises.keys_complete x hx i id hsender
    obtain ⟨y, hy, v, hv, howner, hidentifier, _, hindex, hpattern⟩ := h.keys_eq hsent hk
    obtain ⟨_, _, _, _, w, hw, howner', rfl⟩ :=
      hsent.sent x.request (List.mem_map_of_mem hx) i id hsender
    cases hv.eq hw
    cases hsent.eq_of_owner hx hy (howner'.symm.trans howner.symm) hidentifier.symm
    exact ⟨k, hk, hindex, hpattern⟩
  block := by
    intro id howner
    obtain ⟨b, hb⟩ := h.realises.blocks_complete x hx id howner
    obtain ⟨y, hy, howner', hidentifier, _, _, _, hpattern⟩ :=
      h.realises.blocks_sound id _ b hb
    cases hsent.eq_of_owner hx hy (howner.trans howner'.symm) hidentifier.symm
    exact ⟨b, hb, hpattern⟩

/-! ## Failures -/

theorem allocate_fails (hg : Numbered g) (hroot : Rooted app g) :
    FailsOnly IsKeyError (allocate app g) := by
  refine (blockRequests_fails hg hroot).bind fun requests _ => ?_
  refine FailsOnly.bind (FailsOnly.lift fun e _ => ⟨e, rfl⟩) fun reserved _ => ?_
  exact FailsOnly.lift fun e _ => ⟨e, rfl⟩

end MulticastMesh.Keys
