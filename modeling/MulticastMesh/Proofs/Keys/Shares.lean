import MulticastMesh.Proofs.Keys.Allocation
import MulticastMesh.Routing.PathTable
/-!
# The shares of partitions

Every key of a block is in the share of exactly one slice: the one that its top bits pick, or the
last slice where there are fewer slices than the bits tell apart.  So no key is in the shares of
two partitions.
-/

namespace MulticastMesh.Keys

open MulticastMesh.Graph (AppVertexId ApplicationGraph EdgePartition MachineGraph MachineVertex
  MachineVertexId)
open Routing (PartitionSource)

namespace Grant

def Covers (x : Grant) (k : Key) : Prop := x.base ≤ k.toNat ∧ k.toNat < x.base + 2 ^ x.width

/-- The slice whose share a key of the block is in. -/
def slotOf (x : Grant) (k : Key) : Nat :=
  min ((k.toNat - x.base) / 2 ^ x.request.atomBits) (x.request.slices - 1)

variable {x y : Grant} {k : Key} {i j : Nat}

theorem Apart.not_covers (h : x.Apart y) (hx : x.Covers k) : ¬ y.Covers k := by
  unfold Apart Covers at *
  omega

theorem sliceStart_add (x : Grant) (i n : Nat) :
    x.sliceStart (i + n) = x.sliceStart i + n * 2 ^ x.request.atomBits := by
  unfold sliceStart
  rw [Nat.add_mul, Nat.add_assoc]

theorem sliceStart_le (x : Grant) (h : i ≤ j) : x.sliceStart i ≤ x.sliceStart j := by
  obtain ⟨n, rfl⟩ := Nat.exists_eq_add_of_le h
  rw [sliceStart_add]
  exact Nat.le_add_right _ _

theorem Sufficient.row_of_mem (hx : x.Sufficient) (hj : j ≤ 2 ^ x.request.sliceBits)
    (hlo : x.sliceStart i ≤ k.toNat) (hhi : k.toNat < x.sliceStart j) :
    x.Covers k ∧ i ≤ (k.toNat - x.base) / 2 ^ x.request.atomBits ∧
      (k.toNat - x.base) / 2 ^ x.request.atomBits < j := by
  have hpos : 0 < 2 ^ x.request.atomBits := by positivity
  have hbase : x.base ≤ x.sliceStart i := Nat.le_add_right _ _
  refine ⟨⟨hbase.trans hlo, ?_⟩, ?_, ?_⟩
  · have hpow : 2 ^ (x.request.atomBits + x.request.sliceBits) ≤ 2 ^ x.width :=
      Nat.pow_le_pow_right (by omega) hx.bits_le
    have hrow : j * 2 ^ x.request.atomBits ≤
        2 ^ x.request.sliceBits * 2 ^ x.request.atomBits := Nat.mul_le_mul_right _ hj
    rw [Nat.pow_add, Nat.mul_comm (2 ^ x.request.atomBits)] at hpow
    unfold sliceStart at hhi
    omega
  · rw [Nat.le_div_iff_mul_le hpos]
    unfold sliceStart at hlo
    omega
  · rw [Nat.div_lt_iff_lt_mul hpos]
    unfold sliceStart at hhi
    omega

/-- The keys of a slice are in the block, and its index is written above the bits for the atoms. -/
theorem Sufficient.row_of_slice (hx : x.Sufficient) (hi : i < 2 ^ x.request.sliceBits)
    (hk : (blockAt (x.sliceStart i) x.request.atomBits).Matches k) :
    x.Covers k ∧ (k.toNat - x.base) / 2 ^ x.request.atomBits = i := by
  rw [(hx.aligned_slice hi).matches_iff] at hk
  have hnext : k.toNat < x.sliceStart (i + 1) := by
    rw [x.sliceStart_add, one_mul]
    exact hk.2
  obtain ⟨hcovers, hlo, hhi⟩ := hx.row_of_mem hi hk.1 hnext
  exact ⟨hcovers, by omega⟩

end Grant

/-- The vertex of a partition has a place in the block of a grant. -/
structure Share (g : MachineGraph) (grants : List Grant) (s : PartitionSource) (x : Grant)
    (i : Nat) : Prop where
  mem : x ∈ grants
  identifier_eq : x.request.identifier = s.identifier
  vertex : ∃ v, g.HasVertex s.vertex v ∧ s.app? = v.app? ∧
    x.request.owner = ownerOf s.vertex v ∧ v.index = i
  index_lt : i < x.request.slices

def InShare (g : MachineGraph) (grants : List Grant) (s : PartitionSource) (k : Key) : Prop :=
  ∃ x, Share g grants s x (x.slotOf k) ∧ x.Covers k

/-- Assigned keys come from disjoint blocks that answer the requests of the graph. -/
structure Allotted (g : MachineGraph) (a : Assignment) (grants : List Grant) : Prop where
  indexed : Indexed g
  granted : Granted a grants
  requested : Requested g (grants.map Grant.request)

def sourceOf (v : MachineVertex) (p : EdgePartition) : PartitionSource :=
  ⟨v.app?, p.identifier, p.pre⟩

variable {app : ApplicationGraph} {g : MachineGraph} {a : Assignment} {grants : List Grant}
  {s t : PartitionSource} {x y : Grant} {i j : Nat} {k : Key} {p : EdgePartition}
  {v : MachineVertex}

theorem exists_allotted (hg : Indexed g) (h : allocate app g = .ok a) :
    ∃ grants, Allotted g a grants ∧ ∀ x ∈ grants, AsAsked app g x.request := by
  obtain ⟨requests, grants, hrequests, hgranted, hperm⟩ := allocate_grants h
  refine ⟨grants, ⟨hg, hgranted, (blockRequests_spec hg hrequests).perm hperm⟩, ?_⟩
  intro x hx
  exact blockRequests_asAsked hrequests _ (hperm.mem_iff.2 (List.mem_map_of_mem hx))

theorem Allotted.eq_of_owner (h : Allotted g a grants) (hx : x ∈ grants) (hy : y ∈ grants)
    (howner : x.request.owner = y.request.owner)
    (hidentifier : x.request.identifier = y.request.identifier) : x = y :=
  h.requested.toAttributed.eq_of_owner hx hy howner hidentifier

theorem Granted.eq_of_covers (h : Granted a grants) (hx : x ∈ grants) (hy : y ∈ grants)
    (hkx : x.Covers k) (hky : y.Covers k) : x = y := by
  have hsymm : Std.Symm Grant.Apart := ⟨fun _ _ hxy => hxy.symm⟩
  by_contra hne
  exact (h.apart.forall hx hy hne).not_covers hkx hky

theorem Share.index_lt_pow (hs : Share g grants s x i) (h : Allotted g a grants) :
    i < 2 ^ x.request.sliceBits :=
  hs.index_lt.trans_le (h.requested.fitting _ (List.mem_map_of_mem hs.mem)).slices_le

theorem Share.owner_eq (hs : Share g grants s x i) : x.request.owner =
    match s.app? with
    | some a => .application a
    | none => .machine s.vertex := by
  obtain ⟨v, _, happ, howner, _⟩ := hs.vertex
  rw [howner, happ]
  rfl

theorem Share.source_eq (h : Allotted g a grants) (hs : Share g grants s x i)
    (ht : Share g grants t x i) : s = t := by
  obtain ⟨v, hv, happ, howner, hi⟩ := hs.vertex
  obtain ⟨w, hw, happ', howner', hi'⟩ := ht.vertex
  have hvertex : s.vertex = t.vertex :=
    h.indexed.eq_of_index_eq hv hw (howner.symm.trans howner') (hi.trans hi'.symm)
  have hidentifier : s.identifier = t.identifier :=
    hs.identifier_eq.symm.trans ht.identifier_eq
  rw [← hvertex] at hw
  cases hv.eq hw
  cases s
  cases t
  simp_all

theorem InShare.source_eq (h : Allotted g a grants) (hs : InShare g grants s k)
    (ht : InShare g grants t k) : s = t := by
  obtain ⟨x, hx, hkx⟩ := hs
  obtain ⟨y, hy, hky⟩ := ht
  cases h.granted.eq_of_covers hx.mem hy.mem hkx hky
  exact hx.source_eq h hy

theorem Allotted.exists_share (h : Allotted g a grants) (hp : p ∈ g.multicastPartitions)
    (hv : g.HasVertex p.pre v) : ∃ x, Share g grants (sourceOf v p) x v.index := by
  obtain ⟨r, hr, w, hw, howner, hidentifier, _⟩ := h.requested.sends p hp
  cases hv.eq hw
  obtain ⟨x, hx, rfl⟩ := List.mem_map.1 hr
  have hfit := h.requested.fitting x.request hr
  exact ⟨x, hx, hidentifier, ⟨v, hv, rfl, howner, rfl⟩, (hfit.fits p.pre v hv howner.symm).2⟩

theorem Allotted.exists_keys (h : Allotted g a grants) (hp : p ∈ g.multicastPartitions) :
    ∃ keys, a.keys? p.pre p.identifier = some keys :=
  h.granted.exists_keys h.requested.toAttributed hp

theorem Share.keys_eq (h : Allotted g a grants) (hs : Share g grants s x i) {keys : PartitionKeys}
    (hkeys : a.keys? s.vertex s.identifier = some keys) :
    keys.index = i ∧ keys.range.pattern = blockAt (x.sliceStart i) x.request.atomBits := by
  obtain ⟨y, hy, w, hw, howner, hidentifier, _, hindex, hpattern⟩ :=
    h.granted.keys_eq h.requested.toAttributed hkeys
  obtain ⟨v, hv, _, howner', rfl⟩ := hs.vertex
  cases hv.eq hw
  cases h.eq_of_owner hs.mem hy (howner'.trans howner.symm)
    (hs.identifier_eq.trans hidentifier.symm)
  rw [(h.granted.sufficient x hy).slicePattern_eq (hs.index_lt_pow h)] at hpattern
  exact ⟨hindex, hpattern⟩

/-- The keys of a slice are in the block, and its index picks them. -/
theorem Share.covers (h : Allotted g a grants) (hs : Share g grants s x i)
    (hk : (blockAt (x.sliceStart i) x.request.atomBits).Matches k) :
    x.Covers k ∧ x.slotOf k = i := by
  obtain ⟨hcovers, hrow⟩ :=
    (h.granted.sufficient x hs.mem).row_of_slice (hs.index_lt_pow h) hk
  refine ⟨hcovers, ?_⟩
  have := hs.index_lt
  unfold Grant.slotOf
  omega

theorem Share.inShare (h : Allotted g a grants) (hs : Share g grants s x i)
    (hk : (blockAt (x.sliceStart i) x.request.atomBits).Matches k) : InShare g grants s k := by
  obtain ⟨hcovers, hslot⟩ := hs.covers h hk
  exact ⟨x, hslot ▸ hs, hcovers⟩

end MulticastMesh.Keys
