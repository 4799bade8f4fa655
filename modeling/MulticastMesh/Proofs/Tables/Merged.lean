import MulticastMesh.Proofs.Tables.Siblings
/-!
# Sibling slices are covered exactly

For any block and any of its slices, the shared entries match the keys of these slices, each once,
and no key of another slice.  Where the last slice of the block is covered they may reach into the
unused end of the block, and nowhere else.
-/

namespace MulticastMesh.Tables

open Keys (Aligned BlockRequest Grant Key VertexBlock bitsNeeded lowBitsClear shiftUp)
open Routing (PathEntry)

/-- Bits of a key that the block leaves to its slices and their atoms. -/
def blockBits (block : VertexBlock) : Nat :=
  block.atomBits + bitsNeeded (block.lastIndex + 1)

/-- The block starts at an aligned base and has a mask for its slices. -/
structure LaidOut (block : VertexBlock) (base : Key) : Prop where
  dvd : 2 ^ blockBits block ∣ base.toNat
  bits_le : blockBits block ≤ 32
  sliceMask_eq : block.sliceMask = lowBitsClear block.atomBits

/-- Slices of a block in the order of their indices, which all send as a path entry says. -/
structure Listed (block : VertexBlock) (base : Key) (path : PathEntry) (l : List Sender) :
    Prop where
  key_eq : ∀ s ∈ l,
    s.keys.range.key = base ||| shiftUp (BitVec.ofNat 32 s.keys.index) block.atomBits
  increasing : l.Pairwise fun s t => s.keys.index < t.keys.index
  index_le : ∀ s ∈ l, s.keys.index ≤ block.lastIndex
  follows : ∀ s ∈ l, Follows s.entry path

def InBlock (block : VertexBlock) (base k : Key) : Prop :=
  base.toNat ≤ k.toNat ∧ k.toNat < base.toNat + 2 ^ blockBits block

def indexOfKey (block : VertexBlock) (base k : Key) : Nat :=
  (k.toNat - base.toNat) / 2 ^ block.atomBits

/-- The bits that an entry for a number of slices leaves free beyond those of one slice. -/
def spread (block : VertexBlock) (count : Nat) : Key :=
  shiftUp (BitVec.ofNat 32 (count - 1)) block.atomBits

/-- Entries for exactly the listed slices of a block. -/
structure CoversExactly (block : VertexBlock) (base : Key) (path : PathEntry) (l : List Sender)
    (entries : List Entry) : Prop where
  proper : ∀ e ∈ entries, e.pattern.Proper
  follows : ∀ e ∈ entries, Follows e path
  apart : entries.Pairwise fun e f => e.pattern.Apart f.pattern
  /-- No mask is made by a subtraction that borrows. -/
  noBorrow : ∀ e ∈ entries, ∃ s ∈ l, ∃ count, 0 < count ∧ e = groupEntry block s count ∧
    (spread block count).toNat ≤ block.sliceMask.toNat
  exact : ∀ k, InBlock block base k → indexOfKey block base k ≤ block.lastIndex →
    ((∃ e ∈ entries, e.Matches k) ↔ ∃ s ∈ l, s.keys.index = indexOfKey block base k)
  unused : ∀ k, InBlock block base k → block.lastIndex < indexOfKey block base k →
    ∀ e ∈ entries, e.Matches k → ∃ s ∈ l.getLast?, s.keys.index = block.lastIndex
  inside : ∀ e ∈ entries, ∀ k, e.Matches k → InBlock block base k

variable {block : VertexBlock} {base k : Key} {path : PathEntry} {l : List Sender}

def grantOf (block : VertexBlock) (base : Key) : Grant where
  request :=
    { owner := .application block.vertex, label := "", identifier := block.identifier
      senders := [], slices := block.lastIndex + 1, atomBits := block.atomBits
      sliceBits := bitsNeeded (block.lastIndex + 1), fixed? := none }
  base := base.toNat
  width := blockBits block

theorem LaidOut.aligned (h : LaidOut block base) : Aligned base.toNat (blockBits block) where
  dvd := h.dvd
  le := by
    rcases Nat.eq_zero_or_pos base.toNat with hzero | hpos
    · rw [hzero, Nat.zero_add]
      exact Nat.pow_le_pow_right (by omega) h.bits_le
    · exact add_two_pow_le h.dvd hpos base.isLt

theorem LaidOut.fits (h : LaidOut block base) : Fits (grantOf block base) block where
  sufficient :=
    { aligned := h.aligned
      bits_le := le_rfl
      fixed := by simp [grantOf]
      free := fun _ => rfl }
  slices_le := Keys.le_two_pow_bitsNeeded _
  sliceMask_eq := h.sliceMask_eq
  atomBits_eq := rfl

theorem Listed.seated (h : Listed block base path l) (hb : LaidOut block base) :
    ∀ s ∈ l, Seated (grantOf block base) path s := by
  intro s hs
  have hindex : s.keys.index < (grantOf block base).request.slices :=
    Nat.lt_succ_of_le (h.index_le s hs)
  refine ⟨?_, hindex, h.follows s hs⟩
  have hkey := hb.fits.sufficient.or_shiftUp (hindex.trans_le hb.fits.slices_le)
  rw [h.key_eq s hs, ← hkey]
  simp [grantOf]

theorem Listed.distinct (h : Listed block base path l) : l.Pairwise Distinct :=
  h.increasing.imp fun hlt => Nat.ne_of_lt hlt

theorem Listed.getLast?_of_mem (h : Listed block base path l) {s : Sender} (hs : s ∈ l)
    (hindex : s.keys.index = block.lastIndex) :
    ∃ t ∈ l.getLast?, t.keys.index = block.lastIndex := by
  obtain rfl | ⟨before, t, rfl⟩ := List.eq_nil_or_concat' l
  · cases hs
  · refine ⟨t, by simp, ?_⟩
    rcases List.mem_append.1 hs with hs | hs
    · have hlt := (List.pairwise_append.1 h.increasing).2.2 s hs t (List.mem_singleton_self t)
      have hle := h.index_le t (by simp)
      omega
    · rwa [← List.mem_singleton.1 hs]

/-- The slot of a key of the block is its index, or the last one. -/
theorem slotOf_grantOf (block : VertexBlock) (base k : Key) :
    (grantOf block base).slotOf k = min (indexOfKey block base k) block.lastIndex := rfl

theorem sliceKeys_matches {s : Sender} (hb : LaidOut block base)
    (hle : s.keys.index ≤ block.lastIndex) (hk : InBlock block base k)
    (hindex : s.keys.index = indexOfKey block base k) :
    (sliceKeys (grantOf block base) s).Matches k := by
  have htop : s.keys.index < 2 ^ (grantOf block base).request.sliceBits :=
    (Nat.lt_succ_of_le hle).trans_le hb.fits.slices_le
  have hpos : 0 < 2 ^ block.atomBits := by positivity
  have hdiv := Nat.div_add_mod' (k.toNat - base.toNat) (2 ^ block.atomBits)
  have hmod := Nat.mod_lt (k.toNat - base.toNat) hpos
  have hstart : (grantOf block base).sliceStart s.keys.index =
      base.toNat + (k.toNat - base.toNat) / 2 ^ block.atomBits * 2 ^ block.atomBits := by
    rw [hindex]
    rfl
  have hbase := hk.1
  rw [sliceKeys_matches_iff hb.fits.sufficient htop, Keys.Grant.sliceStart_add, hstart]
  change _ ∧ _ < _ + 1 * 2 ^ block.atomBits
  omega

/-- The entries for any slices of a block cover exactly these slices. -/
theorem coverSiblings_coversExactly (hb : LaidOut block base) (hl : Listed block base path l) :
    CoversExactly block base path l (coverSiblings block l) := by
  have hmerges := merges_coverSiblings hb.fits rfl (hl.seated hb) hl.distinct
  refine ⟨hmerges.proper, hmerges.follows, hmerges.apart, ?_, ?_, ?_, ?_⟩
  · intro e he
    obtain ⟨s, hs, j, hgroup, hbits⟩ := hmerges.grouped e he
    refine ⟨s, hs, 2 ^ j, by positivity, hgroup, ?_⟩
    have hge : 2 ^ (block.atomBits + j) ≤ 2 ^ 32 := Nat.pow_le_pow_right (by omega) hbits
    unfold spread
    rw [toNat_shiftUp_ones hbits, hb.sliceMask_eq, toNat_lowBitsClear (by omega)]
    omega
  · intro k hk hle
    constructor
    · rintro ⟨e, he, hmatch⟩
      obtain ⟨-, s, hs, hslot⟩ := hmerges.sound e he k hmatch
      rw [slotOf_grantOf, Nat.min_eq_left hle] at hslot
      exact ⟨s, hs, hslot⟩
    · rintro ⟨s, hs, hsame⟩
      exact hmerges.complete s hs k (sliceKeys_matches hb (hl.index_le s hs) hk hsame)
  · intro k hk hlt e he hmatch
    obtain ⟨-, s, hs, hslot⟩ := hmerges.sound e he k hmatch
    rw [slotOf_grantOf, Nat.min_eq_right hlt.le] at hslot
    exact hl.getLast?_of_mem hs hslot
  · exact fun e he k hmatch => (hmerges.sound e he k hmatch).1

/-- A block for seven slices with 128 atoms each. -/
def sevenSlices : VertexBlock where
  vertex := ⟨0⟩
  identifier := "spikes"
  range := ⟨⟨0x4000#32, 0xfffffc00#32⟩, by decide⟩
  sliceMask := 0xffffff80#32
  atomBits := 7
  lastIndex := 6

def eastward (index : Nat) : Sender where
  keys :=
    { vertex := ⟨index⟩
      identifier := "spikes"
      range := ⟨⟨0x4000#32 ||| shiftUp (BitVec.ofNat 32 index) 7, BitVec.allOnes 32⟩, by
        simp [Keys.Pattern.Proper]⟩
      index }
  path := ⟨.overLinks [.east], none⟩

def gapped : List Sender := [0, 1, 2, 3, 5, 6].map eastward

theorem coverSiblings_coversExactly_gapped :
    LaidOut sevenSlices 0x4000#32 ∧
      Listed sevenSlices 0x4000#32 ⟨.overLinks [.east], none⟩ gapped ∧
      CoversExactly sevenSlices 0x4000#32 ⟨.overLinks [.east], none⟩ gapped
        (coverSiblings sevenSlices gapped) ∧
      (coverSiblings sevenSlices gapped).map Entry.pattern =
        [⟨0x4000#32, 0xfffffe00#32⟩, ⟨0x4280#32, 0xffffff80#32⟩, ⟨0x4300#32, 0xffffff00#32⟩] := by
  have hb : LaidOut sevenSlices 0x4000#32 := ⟨by decide, by decide, by decide⟩
  have hl : Listed sevenSlices 0x4000#32 ⟨.overLinks [.east], none⟩ gapped := by
    refine ⟨by decide, by decide, by decide, ?_⟩
    intro s hs
    obtain ⟨index, -, rfl⟩ := List.mem_map.1 hs
    exact ⟨rfl, rfl⟩
  exact ⟨hb, hl, coverSiblings_coversExactly hb hl, by decide⟩

end MulticastMesh.Tables
