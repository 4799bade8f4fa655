import MulticastMesh.Proofs.Keys.Requests
/-!
# Granted blocks

A grant answers a request with an aligned block.  The senders of the request get the slices of the
block one after another, each as long as the number of atoms asks for.
-/

namespace MulticastMesh.Keys

open MulticastMesh.Graph (AppVertexId MachineGraph MachineVertexId)
open Outcome

/-- A block of `2 ^ width` keys for a request. -/
structure Grant where
  request : BlockRequest
  base : Nat
  width : Nat

namespace Grant

/-- The block is aligned and large enough: the one that the request fixes, or no larger than the
request needs. -/
structure Sufficient (x : Grant) : Prop where
  aligned : Aligned x.base x.width
  bits_le : x.request.bits ≤ x.width
  fixed : ∀ range, x.request.fixed? = some range → range.pattern = blockAt x.base x.width
  free : x.request.fixed? = none → x.width = x.request.bits

def sliceStart (x : Grant) (index : Nat) : Nat := x.base + index * 2 ^ x.request.atomBits

/-- The keys that go with an index: it is written into the base above the bits for the atoms,
whether or not the block has room for it there. -/
def slicePattern (x : Grant) (index : Nat) : Pattern :=
  ⟨BitVec.ofNat 32 x.base ||| shiftUp (BitVec.ofNat 32 index) x.request.atomBits,
    lowBitsClear x.request.atomBits⟩

def Apart (x y : Grant) : Prop := x.base + 2 ^ x.width ≤ y.base ∨ y.base + 2 ^ y.width ≤ x.base

theorem Apart.symm {x y : Grant} (h : x.Apart y) : y.Apart x := Or.symm h

variable {x : Grant} {index : Nat}

theorem Sufficient.aligned_bits (h : x.Sufficient) :
    Aligned x.base (x.request.atomBits + x.request.sliceBits) where
  dvd := dvd_trans (pow_dvd_pow 2 h.bits_le) h.aligned.dvd
  le := by
    have hpow : 2 ^ (x.request.atomBits + x.request.sliceBits) ≤ 2 ^ x.width :=
      Nat.pow_le_pow_right (by omega) h.bits_le
    have := h.aligned.le
    omega

theorem Sufficient.aligned_slice (h : x.Sufficient) (hindex : index < 2 ^ x.request.sliceBits) :
    Aligned (x.sliceStart index) x.request.atomBits :=
  h.aligned_bits.inner hindex

theorem Sufficient.or_shiftUp (h : x.Sufficient) (hindex : index < 2 ^ x.request.sliceBits) :
    BitVec.ofNat 32 x.base ||| shiftUp (BitVec.ofNat 32 index) x.request.atomBits =
      BitVec.ofNat 32 (x.sliceStart index) := by
  have haligned := h.aligned_bits
  have hslice := h.aligned_slice hindex
  have hbits := haligned.bits_le
  have hlow : index * 2 ^ x.request.atomBits < 2 ^ (x.request.atomBits + x.request.sliceBits) := by
    rw [Nat.pow_add, Nat.mul_comm (2 ^ x.request.atomBits)]
    exact Nat.mul_lt_mul_of_pos_right hindex (by positivity)
  have hfits : index * 2 ^ x.request.atomBits < 2 ^ 32 :=
    hlow.trans_le (Nat.pow_le_pow_right (by omega) hbits)
  have hindex32 : index < 2 ^ 32 :=
    hindex.trans_le (Nat.pow_le_pow_right (by omega) (by omega))
  have hshift : (shiftUp (BitVec.ofNat 32 index) x.request.atomBits).toNat =
      index * 2 ^ x.request.atomBits := by
    unfold shiftUp
    split
    · rw [BitVec.toNat_shiftLeft, BitVec.toNat_ofNat, Nat.mod_eq_of_lt hindex32,
        Nat.shiftLeft_eq, Nat.mod_eq_of_lt hfits]
    · have hzero : x.request.sliceBits = 0 := by omega
      rw [hzero, Nat.pow_zero] at hindex
      have : index = 0 := by omega
      simp [this]
  apply BitVec.eq_of_toNat_eq
  rw [BitVec.toNat_or, hshift, haligned.toNat_start, hslice.toNat_start]
  obtain ⟨q, hq⟩ := haligned.dvd
  unfold sliceStart
  rw [hq, Nat.two_pow_add_eq_or_of_lt hlow]

theorem Sufficient.slicePattern_eq (h : x.Sufficient) (hindex : index < 2 ^ x.request.sliceBits) :
    x.slicePattern index = blockAt (x.sliceStart index) x.request.atomBits := by
  unfold slicePattern
  rw [h.or_shiftUp hindex]
  rfl

end Grant

variable {g : MachineGraph} {a a' : Assignment} {x : Grant} {grants : List Grant}

def GivesKeys (x : Grant) (vertex : MachineVertexId) (identifier : String)
    (k : PartitionKeys) : Prop :=
  (k.index, vertex) ∈ x.request.senders ∧ x.request.identifier = identifier ∧
    k.range.pattern = x.slicePattern k.index

def GivesBlock (x : Grant) (vertex : AppVertexId) (identifier : String)
    (b : VertexBlock) : Prop :=
  x.request.owner = .application vertex ∧ x.request.identifier = identifier ∧
    b.sliceMask = lowBitsClear x.request.atomBits ∧ b.atomBits = x.request.atomBits ∧
    b.lastIndex = x.request.slices - 1 ∧ b.range.pattern = blockAt x.base x.width

/-- An assignment that holds what some grants give, and nothing else. -/
structure Realises (a : Assignment) (grants : List Grant) : Prop where
  keys_sound : ∀ vertex identifier k, a.keys? vertex identifier = some k →
    ∃ x ∈ grants, GivesKeys x vertex identifier k
  keys_complete : ∀ x ∈ grants, ∀ i vertex, (i, vertex) ∈ x.request.senders →
    ∃ k, a.keys? vertex x.request.identifier = some k
  blocks_sound : ∀ vertex identifier b, a.block? vertex identifier = some b →
    ∃ x ∈ grants, GivesBlock x vertex identifier b
  blocks_complete : ∀ x ∈ grants, ∀ vertex, x.request.owner = .application vertex →
    ∃ b, a.block? vertex x.request.identifier = some b

theorem realises_nil : Realises .empty [] where
  keys_sound := by simp [Assignment.keys?, Assignment.empty]
  keys_complete := by simp
  blocks_sound := by simp [Assignment.block?, Assignment.empty]
  blocks_complete := by simp

theorem keys?_addKeys {k : PartitionKeys} {vertex : MachineVertexId} {identifier : String} :
    (a.addKeys k).keys? vertex identifier =
      if (k.vertex, k.identifier) = (vertex, identifier) then some k
      else a.keys? vertex identifier :=
  Maps.getElem?_insert_eq_ite

theorem block?_addBlock {b : VertexBlock} {vertex : AppVertexId} {identifier : String} :
    (a.addBlock b).block? vertex identifier =
      if (b.vertex, b.identifier) = (vertex, identifier) then some b
      else a.block? vertex identifier :=
  Maps.getElem?_insert_eq_ite

structure GaveKeys (x : Grant) (senders : List (Nat × MachineVertexId)) (a a' : Assignment) :
    Prop where
  blocks : a'.blocks = a.blocks
  sound : ∀ vertex identifier k, a'.keys? vertex identifier = some k →
    a.keys? vertex identifier = some k ∨ GivesKeys x vertex identifier k
  kept : ∀ vertex identifier, (a.keys? vertex identifier).isSome →
    (a'.keys? vertex identifier).isSome
  given : ∀ i vertex, (i, vertex) ∈ senders → (a'.keys? vertex x.request.identifier).isSome

theorem gaveKeys_of_foldlM
    (h : x.request.senders.foldlM (fun (a : Assignment) (index, vertex) => do
      let offset := shiftUp (BitVec.ofNat 32 index) x.request.atomBits
      let range ← KeyRange.ofPattern
        ⟨BitVec.ofNat 32 x.base ||| offset, lowBitsClear x.request.atomBits⟩
      return a.addKeys { vertex, identifier := x.request.identifier, range, index }) a = .ok a') :
    GaveKeys x x.request.senders a a' := by
  refine foldlM_induction (motive := fun before b => GaveKeys x before a b) h
    ⟨rfl, fun _ _ _ hk => Or.inl hk, fun _ _ hk => hk, by simp⟩ ?_
  rintro before ⟨index, vertex⟩ after hsplit b b' hb hstep
  have hmem : (index, vertex) ∈ x.request.senders := by simp [hsplit]
  obtain ⟨range, hrange, hreturn⟩ := bind_eq_ok.1 hstep
  cases pure_eq_ok.1 hreturn
  have hpattern : range.pattern = x.slicePattern index := ofPattern_eq_ok hrange
  refine ⟨hb.blocks, ?_, ?_, ?_⟩
  · intro v identifier k hk
    rw [keys?_addKeys] at hk
    split at hk
    · next heq =>
        cases heq
        cases hk
        exact Or.inr ⟨hmem, rfl, hpattern⟩
    · exact hb.sound v identifier k hk
  · intro v identifier hk
    rw [keys?_addKeys]
    split
    · rfl
    · exact hb.kept v identifier hk
  · intro i v hiv
    rw [keys?_addKeys]
    split
    · rfl
    · next hne =>
        rcases List.mem_append.1 hiv with hiv | hiv
        · exact hb.given i v hiv
        · cases List.mem_singleton.1 hiv
          exact absurd rfl hne

theorem Realises.gaveKeys (h : Realises a grants) (hgave : GaveKeys x x.request.senders a a') :
    (∀ vertex identifier k, a'.keys? vertex identifier = some k →
      ∃ y ∈ grants ++ [x], GivesKeys y vertex identifier k) ∧
    ∀ y ∈ grants ++ [x], ∀ i vertex, (i, vertex) ∈ y.request.senders →
      ∃ k, a'.keys? vertex y.request.identifier = some k := by
  refine ⟨?_, ?_⟩
  · intro vertex identifier k hk
    rcases hgave.sound vertex identifier k hk with hk | hk
    · obtain ⟨y, hy, hgives⟩ := h.keys_sound vertex identifier k hk
      exact ⟨y, List.mem_append_left _ hy, hgives⟩
    · exact ⟨x, by simp, hk⟩
  · intro y hy i vertex hiv
    rw [← Option.isSome_iff_exists]
    rcases List.mem_append.1 hy with hy | hy
    · obtain ⟨k, hk⟩ := h.keys_complete y hy i vertex hiv
      exact hgave.kept _ _ (by simp [hk])
    · cases List.mem_singleton.1 hy
      exact hgave.given i vertex hiv

theorem GaveKeys.block?_eq {senders : List (Nat × MachineVertexId)}
    (hgave : GaveKeys x senders a a') (vertex : AppVertexId) (identifier : String) :
    a'.block? vertex identifier = a.block? vertex identifier := by
  unfold Assignment.block?
  rw [hgave.blocks]

theorem Realises.machine {id : MachineVertexId} (h : Realises a grants)
    (hgave : GaveKeys x x.request.senders a a') (howner : x.request.owner = .machine id) :
    Realises a' (grants ++ [x]) := by
  obtain ⟨hsound, hcomplete⟩ := h.gaveKeys hgave
  refine ⟨hsound, hcomplete, ?_, ?_⟩
  · intro vertex identifier c hc
    rw [hgave.block?_eq] at hc
    obtain ⟨y, hy, hgives⟩ := h.blocks_sound vertex identifier c hc
    exact ⟨y, List.mem_append_left _ hy, hgives⟩
  · intro y hy vertex hvertex
    rcases List.mem_append.1 hy with hy | hy
    · rw [hgave.block?_eq]
      exact h.blocks_complete y hy vertex hvertex
    · cases List.mem_singleton.1 hy
      rw [howner] at hvertex
      cases hvertex

theorem Realises.application {b : VertexBlock} (h : Realises a grants)
    (hgave : GaveKeys x x.request.senders a a')
    (hgives : GivesBlock x b.vertex b.identifier b) :
    Realises (a'.addBlock b) (grants ++ [x]) := by
  obtain ⟨hsound, hcomplete⟩ := h.gaveKeys hgave
  refine ⟨hsound, hcomplete, ?_, ?_⟩
  · intro vertex identifier c hc
    rw [block?_addBlock] at hc
    split at hc
    · next heq =>
        cases heq
        cases hc
        exact ⟨x, by simp, hgives⟩
    · rw [hgave.block?_eq] at hc
      obtain ⟨y, hy, hgivesOld⟩ := h.blocks_sound vertex identifier c hc
      exact ⟨y, List.mem_append_left _ hy, hgivesOld⟩
  · intro y hy vertex hvertex
    rw [block?_addBlock]
    split
    · exact ⟨_, rfl⟩
    · next hne =>
        rcases List.mem_append.1 hy with hy | hy
        · rw [hgave.block?_eq]
          exact h.blocks_complete y hy vertex hvertex
        · cases List.mem_singleton.1 hy
          obtain ⟨howner, hidentifier, _⟩ := hgives
          cases hvertex.symm.trans howner
          exact absurd (by rw [hidentifier]) hne

theorem Realises.assignBlock (h : Realises a grants) (hx : x.Sufficient)
    (hrun : assignBlock a x.request (BitVec.ofNat 32 x.base) = .ok a') :
    Realises a' (grants ++ [x]) := by
  obtain ⟨b, hfold, hrun⟩ := bind_eq_ok.1 hrun
  have hgave := gaveKeys_of_foldlM hfold
  cases howner : x.request.owner with
  | machine id =>
      rw [howner] at hrun
      cases pure_eq_ok.1 hrun
      exact h.machine hgave howner
  | application id =>
      have hadd : ∃ range, range.pattern = blockAt x.base x.width ∧ a' = b.addBlock {
          vertex := id, identifier := x.request.identifier, range
          sliceMask := lowBitsClear x.request.atomBits
          atomBits := x.request.atomBits
          lastIndex := x.request.slices - 1 } := by
        simp only [howner] at hrun
        split at hrun
        · next range hfixed => exact ⟨range, hx.fixed range hfixed, (pure_eq_ok.1 hrun).symm⟩
        · next hnone =>
            obtain ⟨range, hrange, hreturn⟩ := bind_eq_ok.1 hrun
            refine ⟨range, ?_, (pure_eq_ok.1 hreturn).symm⟩
            rw [hx.free hnone]
            exact ofPattern_eq_ok hrange
      obtain ⟨range, hpattern, rfl⟩ := hadd
      exact h.application hgave ⟨howner, rfl, rfl, rfl, rfl, hpattern⟩

end MulticastMesh.Keys
