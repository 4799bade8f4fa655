import Mathlib.Data.List.Perm.Subperm
import MulticastMesh.Proofs.Mesh.Faults
/-!
# Machines built from a description

A machine has a chip exactly where its description says that one works, and its working links
lead to working chips.
-/

namespace MulticastMesh.Mesh

open Outcome

variable {d : MachineSpec} {m : Machine} {a b c : Coord} {link : Link}

/-- A wire between working chips that is not listed as dead. -/
structure MachineSpec.Joins (d : MachineSpec) (a : Coord) (link : Link) (b : Coord) : Prop where
  neighbour : d.grid.neighbour? a link = some b
  start_inside : d.grid.Contains a
  start_works : a ∉ d.deadChips
  end_inside : d.grid.Contains b
  end_works : b ∉ d.deadChips
  forth : (a, link) ∉ d.deadLinks
  back : (b, link.opposite) ∉ d.deadLinks

theorem MachineSpec.hasLink_iff (hn : d.grid.neighbour? a link = some b) :
    d.hasLink a link = true ↔
      d.hasChip b = true ∧ (a, link) ∉ d.deadLinks ∧ (b, link.opposite) ∉ d.deadLinks := by
  unfold hasLink
  rw [hn]
  simp [and_assoc]

namespace Machine

structure Fulfils (d : MachineSpec) (m : Machine) : Prop where
  grid : m.grid = d.grid
  chips : m.chips = (d.grid.coords.map d.chipAt?).toArray
  processors_le : d.chip.processors ≤ maxProcessors

theorem fulfils_of_lacks {m : Machine} (h : Lacks d d.deadChips d.deadLinks m)
    (hcut : ∀ wire ∈ d.deadLinks, d.grid.Contains wire.1)
    (hprocessors : d.chip.processors ≤ maxProcessors) : Fulfils d m.removeLooseEnds where
  grid := h.grid
  processors_le := hprocessors
  chips := by
    have hsize : m.removeLooseEnds.chips.size =
        m.removeLooseEnds.grid.width * m.removeLooseEnds.grid.height := by
      simp [removeLooseEnds, h.size, h.grid]
    apply Array.ext_getElem?
    intro i
    by_cases hi : i < d.grid.width * d.grid.height
    · have hgrid : m.removeLooseEnds.grid = d.grid := h.grid
      rw [getElem?_chips hsize (by rwa [hgrid]), h.chip?_removeLooseEnds hcut, hgrid]
      simp [Grid.coords, hi]
    · have hout : m.removeLooseEnds.chips.size ≤ i := by
        simp only [removeLooseEnds, Array.size_map, h.size]
        omega
      rw [Array.getElem?_eq_none hout]
      simp [Grid.coords, hi]

theorem ofSpec_spec (h : ofSpec d = .ok m) : Fulfils d m := by
  unfold ofSpec at h
  simp only at h
  split at h
  · cases h
  split at h
  · cases h
  split at h
  · cases h
  next hproc =>
    split at h
    · cases h
    obtain ⟨m₁, hchips, h⟩ := bind_eq_ok.1 h
    obtain ⟨m₂, hlinks, h⟩ := bind_eq_ok.1 h
    cases pure_eq_ok.1 h
    have hdead : Lacks d d.deadChips [] m₁ :=
      foldlM_induction (motive := fun dead m => Lacks d dead [] m) hchips (lacks_faultless d)
        fun _ _ _ _ _ _ hm hstep => hm.removeChip hstep
    have hcut : Lacks d d.deadChips d.deadLinks m₂ ∧
        ∀ wire ∈ d.deadLinks, d.grid.Contains wire.1 := by
      refine foldlM_induction (motive := fun cut m => Lacks d d.deadChips cut m ∧
        ∀ wire ∈ cut, d.grid.Contains wire.1) hlinks ⟨hdead, by simp⟩ ?_
      rintro before wire after _ m m' ⟨hm, hinside⟩ hstep
      obtain ⟨hm', hwire⟩ := hm.removeWire hstep
      refine ⟨hm', ?_⟩
      rw [List.forall_mem_append, List.forall_mem_singleton]
      exact ⟨hinside, hwire⟩
    exact fulfils_of_lacks hcut.1 hcut.2 (Nat.le_of_not_lt hproc)

variable (h : Fulfils d m)

include h

theorem Fulfils.chip?_eq (c : Coord) : m.chip? c = d.chipAt? c := by
  unfold chip? MachineSpec.chipAt? MachineSpec.hasChip
  rw [h.grid, h.chips]
  by_cases hc : d.grid.Contains c
  · rw [if_pos hc]
    have hi := Grid.indexOf_lt hc
    have hget : (d.grid.coords.map d.chipAt?).toArray[d.grid.indexOf c]? =
        some (d.chipAt? c) := by
      simp [Grid.coords, hi, Grid.coordOf_indexOf hc]
    rw [hget]
    simp [MachineSpec.chipAt?, MachineSpec.hasChip, hc]
  · simp [hc]

theorem Fulfils.chip?_eq_some {chip : Chip} (hc : m.chip? c = some chip) :
    d.hasChip c = true ∧ chip.coord = c ∧ chip.processors = d.chip.processors ∧
      chip.links = Link.all.filter (d.hasLink c) := by
  rw [h.chip?_eq] at hc
  unfold MachineSpec.chipAt? at hc
  split at hc
  · next hhas =>
      cases hc
      exact ⟨hhas, rfl, rfl, rfl⟩
  · cases hc

theorem Fulfils.chip_coord {chip : Chip} (hc : m.chip? c = some chip) : chip.coord = c :=
  (h.chip?_eq_some hc).2.1

theorem Fulfils.chip_processors {chip : Chip} (hc : m.chip? c = some chip) :
    chip.processors ≤ maxProcessors := by
  rw [(h.chip?_eq_some hc).2.2.1]
  exact h.processors_le

theorem Fulfils.isSome_chip?_of_hasChip (hc : d.hasChip c = true) : (m.chip? c).isSome := by
  rw [h.chip?_eq]
  simp [MachineSpec.chipAt?, hc]

theorem Fulfils.hasLink_iff :
    m.hasLink a link = true ↔ d.hasChip a = true ∧ d.hasLink a link = true := by
  unfold Machine.hasLink
  rw [h.chip?_eq]
  unfold MachineSpec.chipAt?
  split
  · next hchip => simp [hchip, Chip.hasLink, Chip.keeping, MachineSpec.faultlessChip]
  · next hchip => simp [hchip]

theorem Fulfils.linkTarget?_iff :
    m.linkTarget? a link = some b ↔ d.Joins a link b := by
  unfold linkTarget? neighbour?
  rw [h.grid, Option.ite_none_right_eq_some, h.hasLink_iff]
  constructor
  · rintro ⟨⟨hchip, hlink⟩, hn⟩
    obtain ⟨hinside, hworks⟩ := MachineSpec.hasChip_iff.1 hchip
    obtain ⟨hother, hforth, hback⟩ := (MachineSpec.hasLink_iff hn).1 hlink
    obtain ⟨hinside', hworks'⟩ := MachineSpec.hasChip_iff.1 hother
    exact ⟨hn, hinside, hworks, hinside', hworks', hforth, hback⟩
  · intro hjoins
    have hchip := MachineSpec.hasChip_iff.2 ⟨hjoins.start_inside, hjoins.start_works⟩
    have hother := MachineSpec.hasChip_iff.2 ⟨hjoins.end_inside, hjoins.end_works⟩
    have hlink := (MachineSpec.hasLink_iff hjoins.neighbour).2 ⟨hother, hjoins.forth, hjoins.back⟩
    exact ⟨⟨hchip, hlink⟩, hjoins.neighbour⟩

theorem Fulfils.linkTarget?_eq_some (hb : m.linkTarget? a link = some b) :
    (m.chip? a).isSome ∧ (m.chip? b).isSome := by
  have hjoins := h.linkTarget?_iff.1 hb
  exact ⟨h.isSome_chip?_of_hasChip
      (MachineSpec.hasChip_iff.2 ⟨hjoins.start_inside, hjoins.start_works⟩),
    h.isSome_chip?_of_hasChip (MachineSpec.hasChip_iff.2 ⟨hjoins.end_inside, hjoins.end_works⟩)⟩

theorem Fulfils.mem_workingChips (hc : (m.chip? c).isSome) : c ∈ m.workingChips.map Chip.coord := by
  obtain ⟨chip, hchip⟩ := Option.isSome_iff_exists.1 hc
  have hcoord := h.chip_coord hchip
  rw [h.chip?_eq] at hchip
  have hcontains : d.grid.Contains c := by
    have hhas := (h.chip?_eq_some (h.chip?_eq c ▸ hchip)).1
    unfold MachineSpec.hasChip at hhas
    simp only [Bool.and_eq_true, decide_eq_true_eq] at hhas
    exact hhas.1
  refine List.mem_map.2 ⟨chip, ?_, hcoord⟩
  unfold workingChips
  rw [h.chips]
  refine List.mem_filterMap.2 ⟨some chip, ?_, rfl⟩
  exact List.mem_map.2 ⟨c, Grid.mem_coords hcontains, hchip⟩

theorem Fulfils.length_le_chipCount {l : List Coord} (hl : l.Nodup)
    (hchips : ∀ c ∈ l, (m.chip? c).isSome) : l.length ≤ m.chipCount := by
  have hle := (hl.subperm fun c hc => h.mem_workingChips (hchips c hc)).length_le
  rwa [List.length_map] at hle

end Machine

end MulticastMesh.Mesh
