import MulticastMesh.Proofs.Keys.Apart
/-!
# Keys of vertices that stand for themselves

A vertex that stands for itself has a block of its own, but its index is written into its keys like
that of a slice.  Where no bit of such an index is left above the bits for the atoms, its keys are
those of its block; any other index may lead into another block.
-/

namespace MulticastMesh.Keys

open MulticastMesh.Graph (AppVertexId ApplicationGraph EdgePartition MachineGraph MachineVertex
  MachineVertexId)
open Outcome

variable {app : ApplicationGraph} {g : MachineGraph} {a : Assignment} {grants : List Grant}
  {r : BlockRequest} {x : Grant} {id : MachineVertexId} {identifier : String} {v : MachineVertex}
  {k : PartitionKeys}

/-- No bit of the index of a vertex is written into its keys. -/
def IndexVanishes (v : MachineVertex) : Prop :=
  shiftUp (BitVec.ofNat 32 v.index) (bitsNeeded v.slice.count) = 0

instance (v : MachineVertex) : Decidable (IndexVanishes v) :=
  inferInstanceAs (Decidable (_ = _))

/-- The indices of sources that stand for themselves do not show in their keys. -/
def AloneVanish (g : MachineGraph) : Prop :=
  ∀ p ∈ g.multicastPartitions, ∀ v, g.HasVertex p.pre v → v.app? = none → IndexVanishes v

theorem AsAsked.index_lt (hg : Listed g) (h : AsAsked app g r) (hv : g.HasVertex id v)
    (howner : r.owner = ownerOf id v) (happ : v.app? ≠ none) : v.index < 2 ^ r.sliceBits := by
  obtain ⟨app', happ'⟩ := Option.ne_none_iff_exists'.1 happ
  have howner' : r.owner = .application app' := by
    rw [howner, ownerOf, happ']
  unfold AsAsked at h
  rw [howner'] at h
  have hfit := fitting_requestOfApp hg h
  exact (hfit.fits id v hv (howner.symm.trans howner')).2.trans_le hfit.slices_le

theorem covers_of_slicePattern (hg : Listed g) (hx : x.Sufficient)
    (hasked : AsAsked app g x.request) (hv : g.HasVertex id v)
    (howner : x.request.owner = ownerOf id v) (hvanish : v.app? = none → IndexVanishes v)
    {key : Key} (hkey : (x.slicePattern v.index).Matches key) : x.Covers key := by
  cases happ : v.app? with
  | some app' =>
      have hindex := hasked.index_lt hg hv howner (by simp [happ])
      rw [hx.slicePattern_eq hindex] at hkey
      exact (hx.row_of_slice hindex hkey).1
  | none =>
      have howner' : x.request.owner = .machine id := by
        rw [howner, ownerOf, happ]
      obtain ⟨w, hw, hatoms, _⟩ := hasked.of_machine howner'
      cases hw.eq hv
      have hwidth := hasked.width_eq hx howner'
      have hblock : x.slicePattern v.index = blockAt x.base x.width := by
        have hshift := hvanish happ
        unfold IndexVanishes at hshift
        unfold Grant.slicePattern blockAt
        rw [hwidth, hatoms, hshift]
        simp
      rw [hblock, hx.aligned.matches_iff] at hkey
      exact hkey

theorem Granted.covers_of_keys (hg : Listed g) (hvanish : AloneVanish g) (h : Granted a grants)
    (hsent : Attributed g (grants.map Grant.request))
    (hasked : ∀ x ∈ grants, AsAsked app g x.request) (hk : a.keys? id identifier = some k) :
    ∃ x ∈ grants, ∃ v, g.HasVertex id v ∧ x.request.owner = ownerOf id v ∧
      x.request.identifier = identifier ∧ ∀ key, k.range.pattern.Matches key → x.Covers key := by
  obtain ⟨x, hx, v, hv, howner, hidentifier, hsender, _, hpattern⟩ := h.keys_eq hsent hk
  obtain ⟨p, hp, rfl, _, _⟩ := hsent.sent x.request (List.mem_map_of_mem hx) _ _ hsender
  refine ⟨x, hx, v, hv, howner, hidentifier, fun key hkey => ?_⟩
  rw [hpattern] at hkey
  exact covers_of_slicePattern hg (h.sufficient x hx) (hasked x hx) hv howner
    (hvanish p hp v hv) hkey

/-- Every partition of a vertex that stands for itself has keys, and shares none of them with
another partition. -/
def AloneApart (g : MachineGraph) (a : Assignment) : Prop :=
  ∀ p ∈ g.multicastPartitions, ∀ v, g.HasVertex p.pre v → v.app? = none →
    ∃ keys, a.keys? p.pre p.identifier = some keys ∧
      ∀ id identifier other, (id, identifier) ≠ (p.pre, p.identifier) →
        a.keys? id identifier = some other → keys.range.pattern.Apart other.range.pattern

theorem allocate_aloneApart (hg : Listed g) (hvanish : AloneVanish g)
    (h : allocate app g = .ok a) : AloneApart g a := by
  obtain ⟨requests, grants, hrequests, hgranted, hperm⟩ := allocate_grants h
  have hsent := (blockRequests_attributed hrequests).perm hperm
  have hasked : ∀ x ∈ grants, AsAsked app g x.request := fun x hx =>
    blockRequests_asAsked hrequests _ (hperm.mem_iff.2 (List.mem_map_of_mem hx))
  intro p hp v hv halone
  obtain ⟨keys, hkeys⟩ := hgranted.exists_keys hsent hp
  refine ⟨keys, hkeys, fun id identifier other hne hother => ?_⟩
  obtain ⟨x, hx, w, hw, howner, hname, hcovers⟩ :=
    hgranted.covers_of_keys hg hvanish hsent hasked hkeys
  obtain ⟨y, hy, w', _, howner', hname', hcovers'⟩ :=
    hgranted.covers_of_keys hg hvanish hsent hasked hother
  cases hw.eq hv
  have hxy : x ≠ y := by
    rintro rfl
    -- one owner, which is the vertex itself
    have hsame : ownerOf id w' = .machine p.pre := by
      rw [← howner', howner, ownerOf, halone]
    have hid : id = p.pre := by
      unfold ownerOf at hsame
      split at hsame
      · cases hsame
      · exact BlockOwner.machine.inj hsame
    exact hne (Prod.ext hid (hname'.symm.trans hname))
  intro key hkey hkey'
  exact hxy (hgranted.eq_of_covers hx hy (hcovers key hkey) (hcovers' key hkey'))

/-! ## Two vertices that stand for themselves -/

def aloneApp : ApplicationGraph where
  vertices := #[]

/-- The first vertex has some index and the second has none. -/
def aloneGraph (index atoms : Nat) : MachineGraph where
  code := 0
  vertices := #[
    ⟨"first", none, index, .ofLength 0 atoms, ⟨1, 0, 0⟩, none⟩,
    ⟨"second", none, 0, .ofLength 0 1, ⟨1, 0, 0⟩, none⟩]
  byApp := #[]
  partitions := #[
    ⟨⟨0⟩, "spikes", .multicast, [⟨⟨0⟩, ⟨1⟩⟩], some 0⟩,
    ⟨⟨1⟩, "spikes", .multicast, [⟨⟨1⟩, ⟨0⟩⟩], some 0⟩]
  outgoing := #[[0], [1]]

def aloneRequests (index atoms : Nat) : List BlockRequest := [
  ⟨.machine ⟨0⟩, "first", "spikes", [(index, ⟨0⟩)], 1, bitsNeeded atoms, 0, none⟩,
  ⟨.machine ⟨1⟩, "second", "spikes", [(0, ⟨1⟩)], 1, 0, 0, none⟩]

theorem allocate_alone {index atoms : Nat} (h : blockRequests aloneApp (aloneGraph index atoms) =
    .ok (aloneRequests index atoms)) :
    allocate aloneApp (aloneGraph index atoms) =
      Outcome.lift .keys (assignFree [] .empty 0 (aloneRequests index atoms)) :=
  allocate_of_descending h (by simp [aloneRequests, BlockRequest.bits])

theorem listed_of_alone (h : ∀ item ∈ g.toList, item.2.app? = none) : Listed g := by
  intro id v app' hv happ
  have hnone := h (id, v) (MachineGraph.mem_toList.2 hv)
  cases hnone.symm.trans happ

/-- An index that is shifted out of the key does no harm. -/
theorem allocate_aloneApart_shiftedOut :
    Listed (aloneGraph 0x10000 0x10000) ∧ AloneVanish (aloneGraph 0x10000 0x10000) ∧
    ∃ a, allocate aloneApp (aloneGraph 0x10000 0x10000) = .ok a ∧
      AloneApart (aloneGraph 0x10000 0x10000) a := by
  have hlisted : Listed (aloneGraph 0x10000 0x10000) := listed_of_alone (by decide)
  have hvanish : AloneVanish (aloneGraph 0x10000 0x10000) := by
    have hall : ∀ item ∈ (aloneGraph 0x10000 0x10000).toList, IndexVanishes item.2 := by
      decide +kernel
    exact fun p _ v hv _ => hall (p.pre, v) (MachineGraph.mem_toList.2 hv)
  have hrequests : blockRequests aloneApp (aloneGraph 0x10000 0x10000) =
      .ok (aloneRequests 0x10000 0x10000) := by decide +kernel
  obtain ⟨a, ha⟩ := exists_of_isOk (show
    (assignFree [] .empty 0 (aloneRequests 0x10000 0x10000)).isOk = true by decide +kernel)
  have hrun : allocate aloneApp (aloneGraph 0x10000 0x10000) = .ok a := by
    rw [allocate_alone hrequests]
    exact lift_eq_ok.2 ha
  exact ⟨hlisted, hvanish, a, hrun, allocate_aloneApart hlisted hvanish hrun⟩

/-- An index in a block of one key leads into the block of another vertex. -/
theorem allocate_alone_sharesKey : Listed (aloneGraph 1 1) ∧
    ∃ a, allocate aloneApp (aloneGraph 1 1) = .ok a ∧ ¬ AloneApart (aloneGraph 1 1) a := by
  have hrequests : blockRequests aloneApp (aloneGraph 1 1) = .ok (aloneRequests 1 1) := by
    decide +kernel
  obtain ⟨a, ha⟩ := exists_of_isOk
    (show (assignFree [] .empty 0 (aloneRequests 1 1)).isOk = true by decide +kernel)
  have hrun : allocate aloneApp (aloneGraph 1 1) = .ok a := by
    rw [allocate_alone hrequests]
    exact lift_eq_ok.2 ha
  have hkey : ∀ id ∈ [⟨0⟩, ⟨1⟩], ∃ k, a.keys? id "spikes" = some k ∧
      k.range.pattern = ⟨1, BitVec.allOnes 32⟩ := by
    intro id hid
    have hall : ∀ id ∈ [⟨0⟩, ⟨1⟩], (assignFree [] .empty 0 (aloneRequests 1 1)).toOption.bind
        (fun a => (a.keys? id "spikes").map fun k => k.range.pattern) =
          some ⟨1, BitVec.allOnes 32⟩ := by decide +kernel
    have hfound := hall id hid
    rw [ha] at hfound
    exact Option.map_eq_some_iff.1 hfound
  refine ⟨listed_of_alone (by decide), a, hrun, fun h => ?_⟩
  obtain ⟨first, hfirst, hpattern⟩ := hkey ⟨0⟩ (by simp)
  obtain ⟨second, hsecond, hpattern'⟩ := hkey ⟨1⟩ (by simp)
  obtain ⟨keys, hkeys, hapart⟩ := h ⟨⟨0⟩, "spikes", .multicast, [⟨⟨0⟩, ⟨1⟩⟩], some 0⟩ (by decide)
    ⟨"first", none, 1, .ofLength 0 1, ⟨1, 0, 0⟩, none⟩ rfl rfl
  cases hfirst.symm.trans hkeys
  have hshared := hapart ⟨1⟩ "spikes" second (by decide) hsecond
  rw [hpattern, hpattern'] at hshared
  exact hshared 1 (by decide) (by decide)

end MulticastMesh.Keys
