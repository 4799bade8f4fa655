import MulticastMesh.Proofs.Keys.Shares
/-!
# Keys of one's own

Allocated keys are enough for the atoms of their slice and belong to nobody else: the ranges of two
partitions have no key in common, and neither have the blocks that the ranges are cut from.
-/

namespace MulticastMesh.Keys

open MulticastMesh.Graph (AppVertexId ApplicationGraph ApplicationVertex EdgePartition MachineEdge
  MachineGraph MachineVertex MachineVertexId Slice)
open Routing (PartitionSource)

/-- The keys that an owner has for a partition: the block that the slices of an application vertex
share, or the range of a machine vertex that stands for itself. -/
def HasBlock (g : MachineGraph) (a : Assignment) (identifier : String) (block : Pattern) :
    BlockOwner → Prop
  | .application app => ∃ b, a.block? app identifier = some b ∧ b.range.pattern = block
  | .machine id => ∃ v keys, g.HasVertex id v ∧ v.app? = none ∧
      a.keys? id identifier = some keys ∧ keys.range.pattern = block

/-- Number of low bits that tell the atoms of a slice apart: as many as its block sets aside for
every slice, or as its own atoms need as they are counted. -/
def HasAtomBits (a : Assignment) (v : MachineVertex) (identifier : String) (bits : Nat) : Prop :=
  match v.app? with
  | some app => ∃ b, a.block? app identifier = some b ∧ b.atomBits = bits
  | none => bits = bitsNeeded v.slice.count

/-- Every multicast partition has enough keys of its own. -/
structure Apportions (app : ApplicationGraph) (g : MachineGraph) (a : Assignment) : Prop where
  enough : ∀ p ∈ g.multicastPartitions, ∃ v keys bits, g.HasVertex p.pre v ∧
    a.keys? p.pre p.identifier = some keys ∧ HasAtomBits a v p.identifier bits ∧
    keys.range.mask = lowBitsClear bits ∧ v.slice.atoms ≤ blockSize bits ∧ bits ≤ 32
  apart : ∀ id id' identifier identifier' keys keys', a.keys? id identifier = some keys →
    a.keys? id' identifier' = some keys' → (id, identifier) ≠ (id', identifier') →
    keys.range.pattern.Apart keys'.range.pattern
  inside : ∀ id identifier keys, a.keys? id identifier = some keys → ∃ v block,
    g.HasVertex id v ∧ HasBlock g a identifier block (ownerOf id v) ∧
      keys.range.pattern.Within block
  blocks_apart : ∀ owner owner' identifier identifier' block block',
    HasBlock g a identifier block owner → HasBlock g a identifier' block' owner' →
    (owner, identifier) ≠ (owner', identifier') → block.Apart block'
  fixed : ∀ id vertex identifier key mask b, app.vertex id = .ok vertex →
    vertex.fixedKeyAndMask? identifier = some (key, mask) →
    a.block? id identifier = some b → b.range.pattern = ⟨key, mask⟩

variable {app : ApplicationGraph} {g : MachineGraph} {a : Assignment} {grants : List Grant}
  {s : PartitionSource} {x : Grant} {i : Nat} {k : Key} {identifier : String}
  {owner : BlockOwner} {block : Pattern} {id : MachineVertexId} {keys : PartitionKeys}

/-! ## What requests say about blocks -/

theorem AsAsked.of_machine {r : BlockRequest} (h : AsAsked app g r)
    (howner : r.owner = .machine id) :
    ∃ v, g.HasVertex id v ∧ r.atomBits = bitsNeeded v.slice.count ∧ r.sliceBits = 0 ∧
      r.fixed? = none := by
  unfold AsAsked at h
  rw [howner] at h
  obtain ⟨v, hv, heq⟩ := requestFor_machine_eq_ok.1 h
  have hatoms := congrArg BlockRequest.atomBits heq
  have hslices := congrArg BlockRequest.sliceBits heq
  have hfixed := congrArg BlockRequest.fixed? heq
  exact ⟨v, hv, hatoms.symm, hslices.symm, hfixed.symm⟩

theorem AsAsked.fixed {r : BlockRequest} (h : AsAsked app g r) {app' : AppVertexId}
    (howner : r.owner = .application app') {vertex : ApplicationVertex} {key mask : Key}
    (hvertex : app.vertex app' = .ok vertex)
    (hfixed : vertex.fixedKeyAndMask? r.identifier = some (key, mask)) :
    ∃ range, r.fixed? = some range ∧ range.pattern = ⟨key, mask⟩ := by
  unfold AsAsked at h
  rw [howner] at h
  obtain ⟨vertex', _, fixed?, hvertex', _, hrange, heq⟩ := requestOfApp_spec h
  cases hvertex.symm.trans hvertex'
  have hsame : r.fixed? = fixed? := congrArg BlockRequest.fixed? heq
  rw [hfixed, ← hsame, Option.map_some, Option.map_eq_some_iff] at hrange
  exact hrange

/-! ## Blocks and grants -/

/-- The block of a vertex that stands for itself has only bits for its atoms. -/
theorem AsAsked.width_eq (hasked : AsAsked app g x.request) (hx : x.Sufficient)
    (howner : x.request.owner = .machine id) : x.width = x.request.atomBits := by
  obtain ⟨v, _, _, hslices, hfixed⟩ := hasked.of_machine howner
  rw [hx.free hfixed, BlockRequest.bits, hslices, Nat.add_zero]

theorem blockAt_of_machine (h : Allotted g a grants) (hx : x ∈ grants)
    (hasked : AsAsked app g x.request) (howner : x.request.owner = .machine id) :
    blockAt (x.sliceStart 0) x.request.atomBits = blockAt x.base x.width := by
  have hwidth := hasked.width_eq (h.granted.sufficient x hx) howner
  have hstart : x.sliceStart 0 = x.base := by
    unfold Grant.sliceStart
    omega
  rw [hwidth, hstart]

theorem Allotted.share_of_keys (h : Allotted g a grants)
    (hkeys : a.keys? id identifier = some keys) :
    ∃ v x, g.HasVertex id v ∧ Share g grants ⟨v.app?, identifier, id⟩ x v.index ∧
      keys.range.pattern = blockAt (x.sliceStart v.index) x.request.atomBits := by
  obtain ⟨x, hx, v, hv, howner, hidentifier, _, _, hpattern⟩ :=
    h.granted.keys_eq h.requested.toAttributed hkeys
  have hfit := h.requested.fitting x.request (List.mem_map_of_mem hx)
  have hs : Share g grants ⟨v.app?, identifier, id⟩ x v.index :=
    ⟨hx, hidentifier, ⟨v, hv, rfl, howner, rfl⟩, (hfit.fits id v hv howner.symm).2⟩
  rw [(h.granted.sufficient x hx).slicePattern_eq (hs.index_lt_pow h)] at hpattern
  exact ⟨v, x, hv, hs, hpattern⟩

theorem HasBlock.exists_grant (h : Allotted g a grants)
    (hasked : ∀ x ∈ grants, AsAsked app g x.request) (hb : HasBlock g a identifier block owner) :
    ∃ x ∈ grants, x.request.owner = owner ∧ x.request.identifier = identifier ∧
      block = blockAt x.base x.width := by
  cases owner with
  | application app' =>
      obtain ⟨b, hfound, rfl⟩ := hb
      obtain ⟨x, hx, howner, hidentifier, _, _, _, hpattern⟩ :=
        h.granted.realises.blocks_sound app' identifier b hfound
      exact ⟨x, hx, howner, hidentifier, hpattern⟩
  | machine id =>
      obtain ⟨v, keys, hv, happ, hkeys, rfl⟩ := hb
      obtain ⟨w, x, hw, hs, hpattern⟩ := h.share_of_keys hkeys
      cases hw.eq hv
      have howner : x.request.owner = .machine id := by
        rw [hs.owner_eq, happ]
      refine ⟨x, hs.mem, howner, hs.identifier_eq, ?_⟩
      rw [hpattern, h.indexed.alone id v hv happ]
      exact blockAt_of_machine h hs.mem (hasked x hs.mem) howner

theorem Share.hasBlock (h : Allotted g a grants)
    (hasked : ∀ x ∈ grants, AsAsked app g x.request) (hs : Share g grants s x i)
    (hkeys : a.keys? s.vertex s.identifier = some keys) :
    HasBlock g a s.identifier (blockAt x.base x.width) x.request.owner := by
  have hblock : ∃ block, HasBlock g a s.identifier block x.request.owner := by
    obtain ⟨v, hv, happ, howner, _⟩ := hs.vertex
    cases happ' : v.app? with
    | some app' =>
        have howner' : x.request.owner = .application app' := by
          rw [howner, ownerOf, happ']
        obtain ⟨b, hb⟩ := h.granted.realises.blocks_complete x hs.mem app' howner'
        rw [howner', ← hs.identifier_eq]
        exact ⟨_, b, hb, rfl⟩
    | none =>
        rw [howner, ownerOf, happ']
        exact ⟨_, v, keys, hv, happ', hkeys, rfl⟩
  obtain ⟨block, hblock⟩ := hblock
  obtain ⟨y, hy, howner, hidentifier, hpattern⟩ := hblock.exists_grant h hasked
  cases h.eq_of_owner hs.mem hy howner.symm (hs.identifier_eq.trans hidentifier.symm)
  rw [← hpattern]
  exact hblock

theorem HasBlock.apart (h : Allotted g a grants)
    (hasked : ∀ x ∈ grants, AsAsked app g x.request) {owner' : BlockOwner} {identifier' : String}
    {block' : Pattern} (hb : HasBlock g a identifier block owner)
    (hb' : HasBlock g a identifier' block' owner')
    (hne : (owner, identifier) ≠ (owner', identifier')) : block.Apart block' := by
  obtain ⟨x, hx, rfl, rfl, rfl⟩ := hb.exists_grant h hasked
  obtain ⟨y, hy, rfl, rfl, rfl⟩ := hb'.exists_grant h hasked
  intro k hk hk'
  rw [(h.granted.sufficient x hx).aligned.matches_iff] at hk
  rw [(h.granted.sufficient y hy).aligned.matches_iff] at hk'
  apply hne
  rw [h.granted.eq_of_covers hx hy hk hk']

/-! ## Keys of partitions -/

theorem Allotted.keys_apart (h : Allotted g a grants) {id' : MachineVertexId}
    {identifier' : String} {keys' : PartitionKeys} (hkeys : a.keys? id identifier = some keys)
    (hkeys' : a.keys? id' identifier' = some keys')
    (hne : (id, identifier) ≠ (id', identifier')) :
    keys.range.pattern.Apart keys'.range.pattern := by
  obtain ⟨v, x, _, hs, hpattern⟩ := h.share_of_keys hkeys
  obtain ⟨v', x', _, hs', hpattern'⟩ := h.share_of_keys hkeys'
  intro k hk hk'
  rw [hpattern] at hk
  rw [hpattern'] at hk'
  have hsame := (hs.inShare h hk).source_eq h (hs'.inShare h hk')
  simp only [PartitionSource.mk.injEq] at hsame
  apply hne
  rw [hsame.2.1, hsame.2.2]

theorem Allotted.keys_inside (h : Allotted g a grants)
    (hasked : ∀ x ∈ grants, AsAsked app g x.request)
    (hkeys : a.keys? id identifier = some keys) :
    ∃ v block, g.HasVertex id v ∧ HasBlock g a identifier block (ownerOf id v) ∧
      keys.range.pattern.Within block := by
  obtain ⟨v, x, hv, hs, hpattern⟩ := h.share_of_keys hkeys
  have hblock := hs.hasBlock h hasked hkeys
  rw [show x.request.owner = ownerOf id v from hs.owner_eq] at hblock
  refine ⟨v, _, hv, hblock, fun k hk => ?_⟩
  rw [hpattern] at hk
  rw [(h.granted.sufficient x hs.mem).aligned.matches_iff]
  exact (hs.covers h hk).1

theorem Share.hasAtomBits (h : Allotted g a grants)
    (hasked : ∀ x ∈ grants, AsAsked app g x.request) {v : MachineVertex}
    (hv : g.HasVertex s.vertex v) (hs : Share g grants s x i) :
    HasAtomBits a v s.identifier x.request.atomBits := by
  obtain ⟨w, hw, _, howner, _⟩ := hs.vertex
  cases hw.eq hv
  unfold HasAtomBits
  cases happ : v.app? with
  | some app' =>
      have howner' : x.request.owner = .application app' := by
        rw [howner, ownerOf, happ]
      obtain ⟨b, hb⟩ := h.granted.realises.blocks_complete x hs.mem app' howner'
      rw [hs.identifier_eq] at hb
      obtain ⟨y, hy, hyowner, hyidentifier, _, hbits, _⟩ :=
        h.granted.realises.blocks_sound app' s.identifier b hb
      cases h.eq_of_owner hs.mem hy (howner'.trans hyowner.symm)
        (hs.identifier_eq.trans hyidentifier.symm)
      exact ⟨b, hb, hbits⟩
  | none =>
      have howner' : x.request.owner = .machine s.vertex := by
        rw [howner, ownerOf, happ]
      obtain ⟨w, hw, hatoms, _⟩ := (hasked x hs.mem).of_machine howner'
      cases hw.eq hv
      exact hatoms

theorem Allotted.enough (h : Allotted g a grants)
    (hasked : ∀ x ∈ grants, AsAsked app g x.request) (hcounted : g.SourcesCounted)
    {p : EdgePartition} (hp : p ∈ g.multicastPartitions) : ∃ v keys bits, g.HasVertex p.pre v ∧
      a.keys? p.pre p.identifier = some keys ∧ HasAtomBits a v p.identifier bits ∧
      keys.range.mask = lowBitsClear bits ∧ v.slice.atoms ≤ blockSize bits ∧ bits ≤ 32 := by
  obtain ⟨keys, hkeys⟩ := h.exists_keys hp
  obtain ⟨v, x, hv, hs, hpattern⟩ := h.share_of_keys hkeys
  have hfit := h.requested.fitting x.request (List.mem_map_of_mem hs.mem)
  obtain ⟨w, hw, _, howner, _⟩ := hs.vertex
  have haligned := (h.granted.sufficient x hs.mem).aligned_slice (hs.index_lt_pow h)
  refine ⟨v, keys, x.request.atomBits, hv, hkeys, hs.hasAtomBits h hasked hv, ?_, ?_,
    haligned.bits_le⟩
  · exact congrArg Pattern.mask hpattern
  · cases hw.eq hv
    rw [← Slice.count_eq (hcounted p hp v hv)]
    exact (hfit.fits p.pre v hv howner.symm).1

theorem Allotted.fixed (h : Allotted g a grants)
    (hasked : ∀ x ∈ grants, AsAsked app g x.request) {app' : AppVertexId}
    {vertex : ApplicationVertex} {key mask : Key} {b : VertexBlock}
    (hvertex : app.vertex app' = .ok vertex)
    (hfixed : vertex.fixedKeyAndMask? identifier = some (key, mask))
    (hb : a.block? app' identifier = some b) : b.range.pattern = ⟨key, mask⟩ := by
  obtain ⟨x, hx, howner, rfl, _, _, _, hpattern⟩ :=
    h.granted.realises.blocks_sound app' identifier b hb
  obtain ⟨range, hrange, heq⟩ := (hasked x hx).fixed howner hvertex hfixed
  rw [hpattern, ← (h.granted.sufficient x hx).fixed range hrange, heq]

/-- A vertex in two slices that sends on two fixed blocks, beside a vertex that stands for itself
and sends on a free one. -/
def tappedApp : ApplicationGraph where
  vertices := #[
    { label := "a", atoms := 5,
      constraints := [
        .fixedKeyAndMask 0x00000010 0xfffffff0 (some "spikes"),
        .fixedKeyAndMask 0x00000000 0xfffffff8 (some "rates")] },
    { label := "b", atoms := 1 }]

def tappedGraph : MachineGraph where
  code := 0
  vertices := #[
    ⟨"a0", some ⟨0⟩, 0, .ofLength 0 3, ⟨1, 0, 0⟩, none⟩,
    ⟨"a1", some ⟨0⟩, 1, .ofLength 3 2, ⟨1, 0, 0⟩, none⟩,
    ⟨"b0", some ⟨1⟩, 0, .ofLength 0 1, ⟨1, 0, 0⟩, none⟩,
    ⟨"tap", none, 0, .ofLength 0 6, ⟨1, 0, 0⟩, none⟩]
  byApp := #[[⟨0⟩, ⟨1⟩], [⟨2⟩]]
  partitions := #[
    ⟨⟨0⟩, "spikes", .multicast, [⟨⟨0⟩, ⟨2⟩⟩], some 0⟩,
    ⟨⟨1⟩, "spikes", .multicast, [⟨⟨1⟩, ⟨2⟩⟩], some 0⟩,
    ⟨⟨1⟩, "rates", .multicast, [⟨⟨1⟩, ⟨3⟩⟩], some 0⟩,
    ⟨⟨3⟩, "taps", .multicast, [⟨⟨3⟩, ⟨0⟩⟩], some 0⟩]
  outgoing := #[[0], [1, 2], [], [3]]

/-- A vertex that stands for itself and sends from all `2 ^ 32` atoms there can be. -/
def boundlessGraph : MachineGraph where
  code := 0
  vertices := #[
    ⟨"all", none, 0, .ofLength 0 UInt32.size, ⟨1, 0, 0⟩, none⟩,
    ⟨"sink", none, 0, .ofLength 0 1, ⟨1, 0, 0⟩, none⟩]
  byApp := #[]
  partitions := #[⟨⟨0⟩, "spikes", .multicast, [⟨⟨0⟩, ⟨1⟩⟩], some 0⟩]
  outgoing := #[[0], []]

end MulticastMesh.Keys
