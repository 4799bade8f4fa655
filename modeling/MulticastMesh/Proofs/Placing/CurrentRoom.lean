import MulticastMesh.Proofs.Placing.Locations
/-!
# The room at hand

What the search keeps about the chip that it fills is never less than what the placements leave of
the chip, those counted that are only noted.  So a chip without enough room for a group when an
attempt at it is abandoned has not enough room for it at all.
-/

namespace MulticastMesh.Placing

open MulticastMesh.Graph (MachineGraph MachineVertexId)
open Mesh (Chip Coord Machine)
open Layout (Placement Placements)
open Slicing (ChipGroup)
open Outcome

/-- A room that offers at least what some placements leave of its chip. -/
structure Ample (s : Setting) (taken : List Placement) (room : ChipRoom) (chip : Chip) :
    Prop where
  working : s.machine.chip? room.chip = some chip
  coord : room.chip = chip.coord
  cores : ∀ core ∈ freeCores s chip taken, core ∈ room.cores
  memory : chip.sdram ≤ room.sdram + memoryOn s.graph chip.coord taken

/-- Placements leave enough of a chip for a group. -/
structure WouldFit (s : Setting) (chip : Chip) (taken : List Placement) (group : ChipGroup) :
    Prop where
  cores : group.vertices.length ≤ (freeCores s chip taken).length
  memory : group.sdram + memoryOn s.graph chip.coord taken ≤ chip.sdram

section

variable {d : Mesh.MachineSpec} {s : Setting} {start c : Coord} {chip : Chip}
  {taken taken' made : List Placement} {room rest : ChipRoom} {group : ChipGroup}
  {placements : Placements} {vertices : List MachineVertexId} {core : Nat}

/-- A room without enough space is not for want of looking. -/
theorem Ample.not_wouldFit (h : Ample s taken room chip) {cores : Nat}
    (hfull : room.hasSpace cores group.sdram = false) (hcores : cores ≤ group.vertices.length) :
    ¬WouldFit s chip taken group := by
  rintro ⟨hfree, hmemory⟩
  have hlength : (freeCores s chip taken).length ≤ room.cores.length :=
    (List.subperm_of_subset nodup_freeCores h.cores).length_le
  have hsdram := h.memory
  rw [ChipRoom.hasSpace, decide_eq_false_iff_not] at hfull
  omega

theorem Ample.mono (h : Ample s taken room chip) (hsub : taken.Subperm taken') :
    Ample s taken' room chip where
  working := h.working
  coord := h.coord
  cores := by
    intro core hcore
    rw [mem_freeCores] at hcore
    exact h.cores core (mem_freeCores.2 ⟨hcore.1, fun q hq => hcore.2 q (hsub.subset hq)⟩)
  memory := by
    obtain ⟨l, hperm, hsub⟩ := hsub
    have hle : memoryOn s.graph chip.coord l ≤ memoryOn s.graph chip.coord taken' :=
      ((hsub.filter _).map _).sum_le_sum (by simp)
    have hmemory := h.memory
    rw [← memoryOn_perm hperm] at hmemory
    omega

theorem ample_of_roomOn (hm : Machine.Fulfils d s.machine)
    (h : s.roomOn placements c = .ok room) :
    room.chip = c ∧ ∃ chip, Ample s placements.toList room chip := by
  obtain ⟨chip, hchip, rfl⟩ := roomOn_eq h
  have hcoord := hm.chip_coord hchip
  refine ⟨hcoord, chip, ?_, rfl, fun core hcore => hcore, ?_⟩
  · rw [← hchip, ← hcoord]
    rfl
  · simp only [roomLeft]
    omega

/-! ## Taking from a room -/

theorem mem_useCores {cores : List Nat} (h : core ∈ room.cores) (hnot : core ∉ cores) :
    core ∈ (room.useCores cores).cores := by
  unfold ChipRoom.useCores
  induction cores generalizing room with
  | nil => exact h
  | cons used cores ih =>
      rw [List.mem_cons, not_or] at hnot
      exact ih ((List.mem_erase_of_ne hnot.1).2 h) hnot.2

theorem mem_left_of_giveCores (h : Setting.giveCores room vertices = .ok (made, rest))
    (hcore : core ∈ room.cores) : core ∈ made.map Placement.processor ∨ core ∈ rest.cores := by
  induction vertices generalizing room made with
  | nil =>
      cases h
      exact Or.inr hcore
  | cons v vertices ih =>
      unfold Setting.giveCores ChipRoom.nextCore? at h
      cases hcores : room.cores with
      | nil =>
          rw [hcores] at hcore
          cases hcore
      | cons next cores =>
          simp only [hcores] at h
          obtain ⟨⟨made', rest'⟩, hgive, hreturn⟩ := bind_eq_ok.1 h
          cases pure_eq_ok.1 hreturn
          rw [hcores] at hcore
          rw [List.map_cons, List.mem_cons]
          rcases List.mem_cons.1 hcore with rfl | hcore
          · exact Or.inl (Or.inl rfl)
          · exact (ih hgive hcore).imp_left Or.inr

theorem Ample.take (h : Ample s taken room chip) (hchip : rest.chip = room.chip)
    (hmade : ∀ q ∈ made, q.chip = room.chip)
    (hcores : ∀ core ∈ room.cores, core ∈ made.map Placement.processor ∨ core ∈ rest.cores)
    (hsdram : room.sdram ≤ rest.sdram + memoryOn s.graph room.chip made) :
    Ample s (taken ++ made) rest chip where
  working := hchip ▸ h.working
  coord := hchip.trans h.coord
  cores := by
    intro core hcore
    obtain ⟨hfree, hnot⟩ := mem_freeCores.1 hcore
    have hroom := h.cores core
      (mem_freeCores.2 ⟨hfree, fun q hq => hnot q (List.mem_append_left _ hq)⟩)
    refine (hcores core hroom).resolve_left fun hmem => ?_
    obtain ⟨q, hq, rfl⟩ := List.mem_map.1 hmem
    exact hnot q (List.mem_append_right _ hq)
      (congrArg (·, q.processor) ((hmade q hq).trans h.coord))
  memory := by
    have hmemory := h.memory
    rw [h.coord] at hsdram
    rw [memoryOn_append]
    omega

theorem Setting.HasGroup.sdram_eq (h : s.HasGroup group) :
    group.sdram = (group.vertices.map (memoryOf s.graph)).sum := by
  obtain ⟨task, htask, groups, hgroups, hgroup⟩ := h
  rcases mem_tasks.1 htask with ⟨a, w, _, rfl⟩ | ⟨v, w, hw, _, rfl⟩
  · rcases chipGroups_eq_ok hgroups with ⟨_, _, rfl⟩ | ⟨_, rfl⟩
    · split at hgroup
      · cases hgroup
      · cases List.mem_singleton.1 hgroup
        rfl
    · obtain ⟨v, _, rfl⟩ := List.mem_map.1 hgroup
      simp
  · cases hgroups
    cases List.mem_singleton.1 hgroup
    simp [memoryOf_eq hw]

theorem memoryOn_made (hgroup : s.HasGroup group)
    (hvertices : made.map Placement.vertex = group.vertices) (hchip : ∀ q ∈ made, q.chip = c) :
    memoryOn s.graph c made = group.sdram := by
  rw [memoryOn_eq_sum hchip, hvertices, hgroup.sdram_eq]

end

/-! ## Along a run -/

def KnowsRoom (s : Setting) (stage : Stage) : Prop :=
  ∀ room, stage.progress.pool.current? = some room → ∃ chip, Ample s stage.taken room chip

section

variable {d : Mesh.MachineSpec} {s : Setting} {start c : Coord} {stage stage' : Stage}
  {taken made pending : List Placement} {placements : Placements} {pool : ChipPool}
  {room : ChipRoom} {chip : Chip} {group : ChipGroup}

theorem ample_takeFromCurrent
    (h : ∀ room, pool.current? = some room → ∃ chip, Ample s taken room chip)
    (hgroup : s.HasGroup group) (hvertices : made.map Placement.vertex = group.vertices)
    (hchip : ∀ q ∈ made, q.chip = c) :
    ∀ room, (Setting.takeFromCurrent pool c made group.sdram).current? = some room →
      ∃ chip, Ample s (taken ++ made) room chip := by
  intro room hroom
  obtain ⟨old, hold, rfl⟩ := Option.map_eq_some_iff.1 hroom
  obtain ⟨chip, hample⟩ := h old hold
  refine ⟨chip, ?_⟩
  by_cases hc : old.chip = c
  · subst hc
    rw [if_pos rfl]
    obtain ⟨husechip, husesdram, _⟩ := useCores_spec old (made.map fun q => q.processor)
    refine hample.take husechip hchip (fun core hcore => ?_) ?_
    · by_cases hmem : core ∈ made.map Placement.processor
      · exact Or.inl hmem
      · exact Or.inr (mem_useCores hcore hmem)
    · rw [memoryOn_made hgroup hvertices hchip, ChipRoom.useSdram, husesdram]
      simp only
      omega
  · rw [if_neg hc]
    exact hample.mono (List.sublist_append_left _ _).subperm

/-- A free group that was noted is taken from the chip at hand. -/
theorem ample_giveCores {rest : ChipRoom} (h : Ample s taken room chip)
    (hgroup : s.HasGroup group)
    (hgive : Setting.giveCores room group.vertices = .ok (made, rest)) :
    Ample s (taken ++ made) (rest.useSdram group.sdram) chip := by
  obtain ⟨hmade, hchip, hsdram, _⟩ := giveCores_spec hgive
  have hcores : ∀ core ∈ room.cores, core ∈ made.map Placement.processor ∨ core ∈ rest.cores :=
    fun core => mem_left_of_giveCores hgive
  refine h.take hchip hmade.chip hcores ?_
  rw [memoryOn_made hgroup hmade.vertices hmade.chip, ChipRoom.useSdram, hsdram]
  simp only
  omega

theorem KnowsRoom.step (hm : Machine.Fulfils d s.machine) (hintact : Intact s stage)
    (h : KnowsRoom s stage) (hstep : Step s stage stage') : KnowsRoom s stage' := by
  obtain ⟨control, todo, ⟨pool, placements⟩, failed, given⟩ := stage
  intro room hroom
  cases hstep with
  | takeUp hcontrol _ _ =>
      cases hcontrol
      rw [ChipPool.restore_eq] at hroom
      exact h room hroom
  | pass hcontrol =>
      cases hcontrol
      exact h room hroom
  | start hcontrol _ hstart _ =>
      cases hcontrol
      obtain ⟨_, room', rfl, hsame, hcurrent, _, hcases⟩ := startPatch_cases hstart
      cases hroom.symm.trans hcurrent
      simp only [Stage.taken, hsame]
      rcases hcases with ⟨hold, _⟩ | ⟨_, _, _, _, hroomOn, _⟩
      · exact h room hold
      · obtain ⟨_, chip, hample⟩ := ample_of_roomOn hm hroomOn
        exact ⟨chip, hample.mono (List.sublist_append_left _ _).subperm⟩
  | skip hcontrol _ =>
      cases hcontrol
      exact h room hroom
  | fix hcontrol hvertices hfixed =>
      cases hcontrol
      obtain ⟨hgroup, hwhole⟩ := hintact.unplaced_eq rfl (by simp [hvertices])
      obtain ⟨_, c, made, placements', _, hplace, hadd, rfl⟩ | ⟨hfalse, _⟩ :=
        placeFixed_cases hfixed
      · obtain ⟨room', rfl, hmade⟩ := placeOn_made hm hplace
        obtain ⟨chip, hample⟩ := ample_takeFromCurrent h hgroup
          (hmade.vertices.trans (hvertices.symm.trans hwhole)) hmade.chip room hroom
        refine ⟨chip, hample.mono (List.Perm.subperm ?_)⟩
        simp only [Stage.taken, Control.pending, List.append_assoc]
        refine (List.perm_append_comm.append_left _).trans ?_
        rw [← List.append_assoc]
        exact (Placements.addAll_perm hadd).symm.append_right _
      · cases hfalse
  | give hcontrol hloose hspace hgive =>
      cases hcontrol
      cases hroom
      obtain ⟨hgroup, hwhole⟩ := hintact.unplaced_eq rfl hloose.1
      rw [hwhole] at hgive
      obtain ⟨chip, hample⟩ := h _ hspace.1
      refine ⟨chip, ?_⟩
      rw [Stage.taken, Control.pending, ← List.append_assoc]
      exact ample_giveCores hample hgroup hgive
  | grow hcontrol _ _ hgrow _ =>
      cases hcontrol
      obtain ⟨hnone, _⟩ | ⟨_, _, _, _, _, hroomOn, rfl⟩ := grow_cases hgrow
      · cases hnone
      cases hroom
      obtain ⟨_, chip, hample⟩ := ample_of_roomOn hm hroomOn
      exact ⟨chip, hample.mono (List.sublist_append_left _ _).subperm⟩
  | abandon _ _ _ _ => cases hroom
  | again hcontrol _ =>
      cases hcontrol
      exact h room hroom
  | commit hcontrol hadd =>
      cases hcontrol
      obtain ⟨chip, hample⟩ := h room hroom
      refine ⟨chip, hample.mono (List.Perm.subperm ?_)⟩
      simp only [Stage.taken, Control.pending, List.append_nil]
      exact (Placements.addAll_perm hadd).symm

theorem KnowsRoom.of_reached (hm : Machine.Fulfils d s.machine) (hgraph : s.graph.WellFormed)
    (h : Reached s start stage) : KnowsRoom s stage := by
  induction h with
  | refl => exact nofun
  | tail hreached hstep ih => exact ih.step hm (.of_reached hm hgraph hreached) hstep

end

end MulticastMesh.Placing
