import Mathlib.Algebra.Order.BigOperators.Group.List
import Mathlib.Algebra.Order.Ring.Nat
import MulticastMesh.Proofs.Placing.Pools
/-!
# Attempts keep placements safe

What is kept by every step of the search, with the placements that are only noted (pending) counted
as made: all of them are on free cores where their constraints want them, the memory of no chip is
exceeded, the chip at hand knows what is left of it, and vertices that must share a chip are
placed all together or not at all.
-/

namespace MulticastMesh.Placing

open MulticastMesh.Graph (AppVertexId ApplicationGraph MachineGraph MachineVertexId)
open Mesh (Chip Coord Machine)
open Layout (Placement Placements)
open Slicing (ChipGroup)
open Outcome

def SharesChip (app : ApplicationGraph) (a : AppVertexId) : Prop :=
  ∃ w slices, app.vertices[a.index]? = some w ∧ w.splitter = .applicationDefined slices true

/-- Vertices that are placed on one chip or not at all. -/
def Whole (l : List Placement) (vertices : List MachineVertexId) : Prop :=
  (∀ p ∈ l, p.vertex ∉ vertices) ∨
    ∃ chip, ∀ v ∈ vertices, ∃ p ∈ l, p.vertex = v ∧ p.chip = chip

/-- A placement where the constraints of its vertex want it. -/
def Obeys (g : MachineGraph) (p : Placement) : Prop :=
  ∀ v, g.HasVertex p.vertex v → ∀ location, v.location? = some location →
    p.chip = location.chip ∧ ∀ core, location.core? = some core → p.processor = core

/-- Placements on unreserved user cores, within the memory of the chips and the constraints. -/
structure Sound (s : Setting) (taken : List Placement) : Prop where
  core : ∀ p ∈ taken, ∃ chip, s.machine.chip? p.chip = some chip ∧
    p.processor ∈ ChipRoom.unreserved chip s.config.reserved
  memory : ∀ c chip, s.machine.chip? c = some chip → memoryOn s.graph c taken ≤ chip.sdram
  obeys : ∀ p ∈ taken, Obeys s.graph p

/-- A group with enough memory for its vertices, all fixed alike, that takes the vertices that
must share a chip together. -/
structure GroupOk (s : Setting) (group : ChipGroup) : Prop where
  memory : (group.vertices.map (memoryOf s.graph)).sum ≤ group.sdram
  location : ∀ v ∈ group.vertices, ∀ w ∈ group.vertices, ∀ v' w', s.graph.HasVertex v v' →
    s.graph.HasVertex w w' → v'.location? = w'.location?
  together : ∀ a, SharesChip s.app a → group.vertices = s.graph.verticesOf a ∨
    ∀ v ∈ group.vertices, v ∉ s.graph.verticesOf a

structure Invariant (s : Setting) (p : Progress) (pending : List Placement) : Prop where
  sound : Sound s (p.placements.toList ++ pending)
  tracked : Tracked p.pool
  room : ∀ room, p.pool.current? = some room →
    ∃ chip, Offers s (p.placements.toList ++ pending) room chip
  inUse : ∀ q ∈ pending, q.chip ∈ p.pool.used
  whole : ∀ a, SharesChip s.app a → Whole p.placements.toList (s.graph.verticesOf a) ∧
    Whole pending (s.graph.verticesOf a)

variable {d : Mesh.MachineSpec} {s : Setting} {p p' : Progress} {pending made : List Placement}
  {group : ChipGroup} {frontier frontier' : Frontier} {room : ChipRoom} {chip : Chip}

/-! ## Sound placements -/

theorem Sound.perm {taken taken' : List Placement} (h : Sound s taken)
    (hperm : taken.Perm taken') : Sound s taken' where
  core := fun p hp => h.core p (hperm.mem_iff.2 hp)
  memory := fun c chip hchip => memoryOn_perm hperm ▸ h.memory c chip hchip
  obeys := fun p hp => h.obeys p (hperm.mem_iff.2 hp)

theorem Sound.left {taken more : List Placement} (h : Sound s (taken ++ more)) :
    Sound s taken where
  core := fun p hp => h.core p (List.mem_append_left _ hp)
  memory := by
    intro c chip hchip
    have := h.memory c chip hchip
    rw [memoryOn_append] at this
    omega
  obeys := fun p hp => h.obeys p (List.mem_append_left _ hp)

theorem Sound.append {taken : List Placement} {vertices : List MachineVertexId} {sdram : Nat}
    (h : Sound s taken) (hworking : s.machine.chip? room.chip = some chip)
    (hcores : ∀ q ∈ room.cores, q ∈ ChipRoom.unreserved chip s.config.reserved)
    (hmade : Made room vertices made) (hneed : (vertices.map (memoryOf s.graph)).sum ≤ sdram)
    (hfits : sdram + memoryOn s.graph room.chip taken ≤ chip.sdram)
    (hobeys : ∀ q ∈ made, Obeys s.graph q) : Sound s (taken ++ made) where
  core := by
    intro q hq
    rcases List.mem_append.1 hq with hq | hq
    · exact h.core q hq
    · exact ⟨chip, hmade.chip q hq ▸ hworking, hcores _ (hmade.core q hq)⟩
  memory := by
    intro c chip' hchip'
    rw [memoryOn_append]
    by_cases hc : room.chip = c
    · subst hc
      cases hworking.symm.trans hchip'
      rw [memoryOn_eq_sum hmade.chip, hmade.vertices]
      omega
    · rw [memoryOn_eq_zero fun q hq heq => hc ((hmade.chip q hq).symm.trans heq)]
      have := h.memory c chip' hchip'
      omega
  obeys := by
    intro q hq
    rcases List.mem_append.1 hq with hq | hq
    · exact h.obeys q hq
    · exact hobeys q hq

/-! ## Groups -/

def unplaced (placements : Placements) (group : ChipGroup) : List MachineVertexId :=
  group.vertices.filter fun v => !placements.isPlaced v

theorem GroupOk.memory_unplaced (h : GroupOk s group) (placements : Placements) :
    ((unplaced placements group).map (memoryOf s.graph)).sum ≤ group.sdram := by
  have hsub : (unplaced placements group).Sublist group.vertices := List.filter_sublist
  exact ((hsub.map _).sum_le_sum (by simp)).trans h.memory

/-- A group that has an unplaced member and is placed as a whole has no placed member. -/
theorem unplaced_eq_of_whole {placements : Placements}
    (hwhole : Whole placements.toList group.vertices) (hne : unplaced placements group ≠ []) :
    unplaced placements group = group.vertices := by
  unfold unplaced at hne ⊢
  rw [List.filter_eq_self]
  obtain ⟨v, hv⟩ := List.exists_mem_of_ne_nil _ hne
  obtain ⟨hvg, hfree⟩ := List.mem_filter.1 hv
  rw [Bool.not_eq_true', ← Bool.not_eq_true, Placements.isPlaced_iff] at hfree
  rcases hwhole with hnone | ⟨chip, hall⟩
  · intro w hw
    rw [Bool.not_eq_true', ← Bool.not_eq_true, Placements.isPlaced_iff]
    rintro ⟨q, hq, rfl⟩
    exact hnone q hq hw
  · obtain ⟨q, hq, hqv, _⟩ := hall v hvg
    exact absurd ⟨q, hq, hqv⟩ hfree

/-- Placing the unplaced members of a group on one chip leaves no vertex that must share a chip
with others alone. -/
theorem Whole.append {l : List Placement} {placements : Placements} {a : AppVertexId}
    (hgroup : GroupOk s group) (ha : SharesChip s.app a)
    (hplaced : Whole placements.toList (s.graph.verticesOf a))
    (hl : Whole l (s.graph.verticesOf a)) (hne : unplaced placements group ≠ [])
    (hmade : Made room (unplaced placements group) made) :
    Whole (l ++ made) (s.graph.verticesOf a) := by
  rcases hgroup.together a ha with hsame | hother
  · right
    rw [← hsame] at hplaced ⊢
    rw [unplaced_eq_of_whole hplaced hne] at hmade
    refine ⟨room.chip, fun v hv => ?_⟩
    rw [← hmade.vertices] at hv
    obtain ⟨q, hq, rfl⟩ := List.mem_map.1 hv
    exact ⟨q, List.mem_append_right _ hq, rfl, hmade.chip q hq⟩
  · rcases hl with hnone | ⟨chip, hall⟩
    · left
      intro q hq
      rcases List.mem_append.1 hq with hq | hq
      · exact hnone q hq
      · apply hother
        have hmem : q.vertex ∈ made.map Placement.vertex := List.mem_map_of_mem hq
        rw [hmade.vertices] at hmem
        exact List.mem_of_mem_filter hmem
    · right
      refine ⟨chip, fun v hv => ?_⟩
      obtain ⟨q, hq, hqv, hchip⟩ := hall v hv
      exact ⟨q, List.mem_append_left _ hq, hqv, hchip⟩

theorem Whole.perm {l l' : List Placement} {vertices : List MachineVertexId}
    (h : Whole l vertices) (hperm : l.Perm l') : Whole l' vertices := by
  rcases h with hnone | ⟨chip, hall⟩
  · exact Or.inl fun q hq => hnone q (hperm.mem_iff.2 hq)
  · refine Or.inr ⟨chip, fun v hv => ?_⟩
    obtain ⟨q, hq, hqv⟩ := hall v hv
    exact ⟨q, hperm.mem_iff.1 hq, hqv⟩

theorem Whole.union {l l' : List Placement} {vertices : List MachineVertexId}
    (h : Whole l vertices) (h' : Whole l' vertices) : Whole (l ++ l') vertices := by
  rcases h with hnone | ⟨chip, hall⟩
  · rcases h' with hnone' | ⟨chip, hall⟩
    · left
      intro q hq
      rcases List.mem_append.1 hq with hq | hq
      · exact hnone q hq
      · exact hnone' q hq
    · refine Or.inr ⟨chip, fun v hv => ?_⟩
      obtain ⟨q, hq, hqv⟩ := hall v hv
      exact ⟨q, List.mem_append_right _ hq, hqv⟩
  · refine Or.inr ⟨chip, fun v hv => ?_⟩
    obtain ⟨q, hq, hqv⟩ := hall v hv
    exact ⟨q, List.mem_append_left _ hq, hqv⟩

/-! ## Chips for a patch -/

theorem startPatch_spec (hm : Machine.Fulfils d s.machine) (h : Invariant s p [])
    (hrun : s.startPatch p = .ok (frontier, p')) :
    p'.placements = p.placements ∧ Invariant s p' [] := by
  unfold Setting.startPatch at hrun
  obtain ⟨p₀, p₁, hget, hrun⟩ := runState_bind_eq_ok.1 hrun
  cases runState_get_eq_ok.1 hget
  cases hroom : p.pool.current? with
  | some room =>
      rw [hroom] at hrun
      obtain ⟨_, _, hpure, hrun⟩ := runState_bind_eq_ok.1 hrun
      cases runState_pure_eq_ok.1 hpure
      obtain ⟨_, _, hchip, hrun⟩ := runState_bind_eq_ok.1 hrun
      obtain ⟨_, _, hstate⟩ := runState_lift_eq_ok.1 hchip
      cases hstate
      obtain ⟨_, _, hmodify, hreturn⟩ := runState_bind_eq_ok.1 hrun
      cases runState_modify_eq_ok.1 hmodify
      cases runState_pure_eq_ok.1 hreturn
      refine ⟨rfl, h.sound, h.tracked.continue_ hroom, ?_, by simp, h.whole⟩
      intro r hr
      cases hr
      exact h.room room hroom
  | none =>
    rw [hroom] at hrun
    cases hnext : p.pool.next?.1 with
    | some chip =>
        simp only [hnext] at hrun
        obtain ⟨_, _, hset, hrun⟩ := runState_bind_eq_ok.1 hrun
        cases runState_set_eq_ok.1 hset
        obtain ⟨room, _, hlift, hrun⟩ := runState_bind_eq_ok.1 hrun
        obtain ⟨_, hroom, hstate⟩ := runState_lift_eq_ok.1 hlift
        cases hstate
        obtain ⟨_, _, hchip, hrun⟩ := runState_bind_eq_ok.1 hrun
        obtain ⟨_, _, hstate⟩ := runState_lift_eq_ok.1 hchip
        cases hstate
        obtain ⟨_, _, hmodify, hreturn⟩ := runState_bind_eq_ok.1 hrun
        cases runState_modify_eq_ok.1 hmodify
        cases runState_pure_eq_ok.1 hreturn
        obtain ⟨hchip, hoffers⟩ :=
          offers_of_roomOn hm hroom (h.sound.left.memory chip)
        have hnext : p.pool.next? = (some chip, p.pool.next?.2) := by rw [← hnext]
        refine ⟨rfl, h.sound, h.tracked.take hnext hchip, ?_, by simp, h.whole⟩
        intro r hr
        cases hr
        simpa using hoffers
    | none =>
        simp only [hnext] at hrun
        cases hrun

/-- The frontier leads to a chip that holds nothing of the attempt under way. -/
theorem grow_spec (hm : Machine.Fulfils d s.machine) (h : Invariant s p pending)
    {from? : Option Coord} {result : Option Frontier}
    (hrun : s.grow frontier from? p = .ok (result, p')) :
    p'.placements = p.placements ∧ Invariant s p' pending := by
  unfold Setting.grow at hrun
  obtain ⟨_, _, hget, hrun⟩ := runState_bind_eq_ok.1 hrun
  cases runState_get_eq_ok.1 hget
  generalize hpop : Frontier.popUnused? s.machine p.pool.used _ _ = popped at hrun
  cases popped with
  | none =>
      cases runState_pure_eq_ok.1 hrun
      exact ⟨rfl, h⟩
  | some next =>
      obtain ⟨chip, frontier'⟩ := next
      obtain ⟨room, _, hlift, hrun⟩ := runState_bind_eq_ok.1 hrun
      obtain ⟨_, hroom, hstate⟩ := runState_lift_eq_ok.1 hlift
      cases hstate
      obtain ⟨_, _, hset, hreturn⟩ := runState_bind_eq_ok.1 hrun
      cases runState_set_eq_ok.1 hset
      cases runState_pure_eq_ok.1 hreturn
      have hfree := popUnused?_spec hpop
      obtain ⟨hchip, room', hoffers⟩ :=
        offers_of_roomOn hm hroom (h.sound.left.memory chip)
      refine ⟨rfl, h.sound, h.tracked.moveTo (hchip ▸ hfree), ?_, ?_, h.whole⟩
      · intro r hr
        cases hr
        refine ⟨room', hoffers.append ?_⟩
        intro q hq heq
        rw [hchip] at heq
        exact hfree (heq ▸ h.inUse q hq)
      · intro q hq
        exact List.mem_cons_of_mem _ (h.inUse q hq)

theorem findRoom_spec (hm : Machine.Fulfils d s.machine) (h : Invariant s p pending)
    {cores sdram fuel : Nat} {from? : Option Coord} {result : Option (ChipRoom × Frontier)}
    (hrun : s.findRoom cores sdram fuel frontier from? p = .ok (result, p')) :
    p'.placements = p.placements ∧ Invariant s p' pending ∧
      ∀ room f, result = some (room, f) →
        p'.pool.current? = some room ∧ room.hasSpace cores sdram = true := by
  induction fuel generalizing p frontier from? with
  | zero => cases hrun
  | succ fuel ih =>
      have hgrow : ∀ next : Option Frontier → Search (Option (ChipRoom × Frontier)),
          (s.grow frontier from? >>= next) p = .ok (result, p') → next none = pure none →
          (∀ widened, next (some widened) = s.findRoom cores sdram fuel widened none) →
          p'.placements = p.placements ∧ Invariant s p' pending ∧
            ∀ room f, result = some (room, f) →
              p'.pool.current? = some room ∧ room.hasSpace cores sdram = true := by
        intro next hrun hnone hsome
        obtain ⟨grown, p₁, hstep, hrun⟩ := runState_bind_eq_ok.1 hrun
        obtain ⟨hsame, hinv⟩ := grow_spec hm h hstep
        cases grown with
        | none =>
            rw [hnone] at hrun
            cases runState_pure_eq_ok.1 hrun
            exact ⟨hsame, hinv, by simp⟩
        | some widened =>
            rw [hsome] at hrun
            obtain ⟨hsame', hrest⟩ := ih hinv hrun
            exact ⟨hsame'.trans hsame, hrest⟩
      unfold Setting.findRoom at hrun
      obtain ⟨p₀, p₁, hget, hrun⟩ := runState_bind_eq_ok.1 hrun
      cases runState_get_eq_ok.1 hget
      cases hroom : p.pool.current? with
      | none =>
          rw [hroom] at hrun
          exact hgrow _ hrun rfl fun _ => rfl
      | some room =>
          simp only [hroom] at hrun
          by_cases hspace : room.hasSpace cores sdram = true
          · rw [if_pos hspace] at hrun
            cases runState_pure_eq_ok.1 hrun
            refine ⟨rfl, h, ?_⟩
            intro r f hr
            cases hr
            exact ⟨hroom, hspace⟩
          · rw [if_neg hspace] at hrun
            exact hgrow _ hrun rfl fun _ => rfl

/-! ## Groups with a fixed location -/

theorem fixedChip?_spec {vertices : List MachineVertexId} {fixed? : Option Coord}
    (h : s.fixedChip? vertices = .ok fixed?) :
    (∀ chip, fixed? = some chip → ∃ v ∈ vertices, ∃ w location, s.graph.HasVertex v w ∧
      w.location? = some location ∧ location.chip = chip) ∧
    (fixed? = none → ∀ v ∈ vertices, ∀ w, s.graph.HasVertex v w → w.location? = none) := by
  induction vertices with
  | nil =>
      cases h
      simp
  | cons v rest ih =>
      unfold Setting.fixedChip? at h
      obtain ⟨w, hw, h⟩ := bind_eq_ok.1 h
      have hw := MachineGraph.vertex_eq_ok.1 (lift_eq_ok.1 hw)
      cases hlocation : w.location? with
      | some location =>
          simp only [hlocation] at h
          cases pure_eq_ok.1 h
          refine ⟨?_, by simp⟩
          intro chip hchip
          cases hchip
          exact ⟨v, List.mem_cons_self, w, location, hw, hlocation, rfl⟩
      | none =>
          simp only [hlocation] at h
          obtain ⟨hsome, hnone⟩ := ih h
          refine ⟨?_, ?_⟩
          · intro chip hchip
            obtain ⟨u, hu, hrest⟩ := hsome chip hchip
            exact ⟨u, List.mem_cons_of_mem _ hu, hrest⟩
          · intro hfixed u hu w' hw'
            rcases List.mem_cons.1 hu with rfl | hu
            · rw [hw'.eq hw, hlocation]
            · exact hnone hfixed u hu w' hw'

/-- A fixed group goes to free cores of its chip, beside what the attempt under way notes there. -/
theorem placeOn_spec (hm : Machine.Fulfils d s.machine) {placements : Placements} {c : Coord}
    {first : MachineVertexId} {others : List MachineVertexId} {sdram : Nat}
    (h : Sound s (placements.toList ++ pending))
    (hrun : s.placeOn placements c first others sdram pending = .ok made) :
    ∃ room chip, room.chip = c ∧ s.machine.chip? c = some chip ∧
      (∀ q ∈ room.cores, q ∈ ChipRoom.unreserved chip s.config.reserved) ∧
      Made room (first :: others) made ∧ (∀ q ∈ made, ObeysCore s.graph q) ∧
      sdram + memoryOn s.graph c (placements.toList ++ pending) ≤ chip.sdram := by
  unfold Setting.placeOn at hrun
  simp only at hrun
  split at hrun
  · obtain ⟨_, _, hthrow⟩ := bind_eq_ok.1 hrun
    cases hthrow
  obtain ⟨room, hroom, hrun⟩ := bind_eq_ok.1 hrun
  obtain ⟨residents, _, hrun⟩ := bind_eq_ok.1 hrun
  obtain ⟨⟨left, labels⟩, htake, hrun⟩ := bind_eq_ok.1 hrun
  simp only at hrun
  split at hrun
  · obtain ⟨_, _, hthrow⟩ := bind_eq_ok.1 hrun
    cases hthrow
  next henough =>
    obtain ⟨hchip, chip, hoffers⟩ := offers_of_roomOn hm hroom (h.left.memory c)
    obtain ⟨hleft, hcores, hsdram⟩ := takePending_spec htake
    obtain ⟨hmade, hobeys⟩ := giveFixedCores_spec hrun
    refine ⟨left, chip, hleft.trans hchip, hchip ▸ hoffers.working,
      fun q hq => hoffers.cores q (hcores q hq), hmade, hobeys, ?_⟩
    have htaken := h.memory c chip (hchip ▸ hoffers.working)
    have hmemory := hoffers.memory
    rw [hchip] at hmemory hsdram
    rw [memoryOn_append] at htaken ⊢
    omega

/-- A group whose members are fixed to the chip of one of them obeys their locations there. -/
theorem obeys_of_made (hgroup : GroupOk s group) {vertices : List MachineVertexId}
    (hmember : ∀ v ∈ vertices, v ∈ group.vertices) (hmade : Made room vertices made)
    (hobeys : ∀ q ∈ made, ObeysCore s.graph q)
    (hfixed : ∃ v ∈ vertices, ∃ w location, s.graph.HasVertex v w ∧
      w.location? = some location ∧ location.chip = room.chip) :
    ∀ q ∈ made, Obeys s.graph q := by
  intro q hq w hw location hlocation
  have hqv : q.vertex ∈ vertices := by
    rw [← hmade.vertices]
    exact List.mem_map_of_mem hq
  obtain ⟨v, hv, w', location', hw', hlocation', hchip⟩ := hfixed
  have hsame := hgroup.location _ (hmember _ hqv) _ (hmember _ hv) w w' hw hw'
  rw [hlocation, hlocation'] at hsame
  cases hsame
  exact ⟨(hmade.chip q hq).trans hchip.symm,
    fun core hcore => hobeys q hq w hw location core hlocation hcore⟩

theorem Invariant.placeOn (h : Invariant s p pending) (hgroup : GroupOk s group)
    (hne : unplaced p.placements group ≠ [])
    (hworking : s.machine.chip? room.chip = some chip)
    (hcores : ∀ q ∈ room.cores, q ∈ ChipRoom.unreserved chip s.config.reserved)
    (hmade : Made room (unplaced p.placements group) made)
    (hobeys : ∀ q ∈ made, Obeys s.graph q)
    (hfits : group.sdram + memoryOn s.graph room.chip (p.placements.toList ++ pending) ≤
      chip.sdram) {placements : Placements}
    (hperm : placements.toList.Perm (p.placements.toList ++ made)) :
    Invariant s
      { pool := Setting.takeFromCurrent p.pool room.chip made group.sdram, placements }
      pending := by
  have hneed := hgroup.memory_unplaced p.placements
  have hall : ((p.placements.toList ++ pending) ++ made).Perm
      (placements.toList ++ pending) := by
    rw [List.append_assoc]
    refine (List.perm_append_comm.append_left _).trans ?_
    rw [← List.append_assoc]
    exact hperm.symm.append_right _
  have hsound := h.sound.append hworking hcores hmade hneed hfits hobeys
  refine ⟨hsound.perm hall, ?_, ?_, h.inUse, ?_⟩
  · apply h.tracked.refill
    intro r hr
    obtain ⟨r', hr', rfl⟩ := Option.map_eq_some_iff.1 hr
    refine ⟨r', hr', ?_⟩
    split
    · exact (useCores_spec r' _).1.symm
    · rfl
  · intro r hr
    obtain ⟨r', hr', rfl⟩ := Option.map_eq_some_iff.1 hr
    obtain ⟨chip', hoffers⟩ := h.room r' hr'
    by_cases hchip : r'.chip = room.chip
    · rw [if_pos hchip]
      refine ⟨chip', Offers.perm ?_ hall⟩
      obtain ⟨husechip, husesdram, husecores⟩ :=
        useCores_spec r' (made.map fun q => q.processor)
      refine hoffers.take group.sdram husechip husecores ?_ ?_ ?_
      · rw [← husesdram]
        rfl
      · rw [hchip, memoryOn_eq_sum hmade.chip, hmade.vertices]
        exact hneed
      · exact hsound.memory _ _ hoffers.working
    · rw [if_neg hchip]
      exact ⟨chip', (hoffers.append fun q hq heq =>
        hchip (heq.symm.trans (hmade.chip q hq))).perm hall⟩
  · intro a ha
    obtain ⟨hplaced, hpending⟩ := h.whole a ha
    exact ⟨(Whole.append hgroup ha hplaced hplaced hne hmade).perm hperm.symm, hpending⟩

theorem placeFixed_spec (hm : Machine.Fulfils d s.machine) (h : Invariant s p pending)
    (hgroup : GroupOk s group) {first : MachineVertexId} {others : List MachineVertexId}
    (hunplaced : unplaced p.placements group = first :: others) {fixed : Bool}
    (hrun : s.placeFixed first others group.sdram pending p = .ok (fixed, p')) :
    (fixed = true ∧ Invariant s p' pending ∧ ∃ made, made.map Placement.vertex = first :: others ∧
      p'.placements.toList.Perm (p.placements.toList ++ made)) ∨
    (fixed = false ∧ p' = p ∧
      ∀ v ∈ first :: others, ∀ w, s.graph.HasVertex v w → w.location? = none) := by
  unfold Setting.placeFixed at hrun
  obtain ⟨fixed?, _, hlift, hrun⟩ := runState_bind_eq_ok.1 hrun
  obtain ⟨_, hfixed, hstate⟩ := runState_lift_eq_ok.1 hlift
  cases hstate
  obtain ⟨hsome, hnone⟩ := fixedChip?_spec hfixed
  cases fixed? with
  | none =>
      cases runState_pure_eq_ok.1 hrun
      exact Or.inr ⟨rfl, rfl, hnone rfl⟩
  | some c =>
      left
      obtain ⟨_, _, hget, hrun⟩ := runState_bind_eq_ok.1 hrun
      cases runState_get_eq_ok.1 hget
      obtain ⟨made, _, hlift, hrun⟩ := runState_bind_eq_ok.1 hrun
      obtain ⟨_, hmade, hstate⟩ := runState_lift_eq_ok.1 hlift
      cases hstate
      obtain ⟨placements, _, hlift, hrun⟩ := runState_bind_eq_ok.1 hrun
      obtain ⟨_, hadd, hstate⟩ := runState_lift_eq_ok.1 hlift
      cases hstate
      obtain ⟨_, _, hset, hreturn⟩ := runState_bind_eq_ok.1 hrun
      cases runState_set_eq_ok.1 hset
      cases runState_pure_eq_ok.1 hreturn
      have hperm := Placements.addAll_perm (lift_eq_ok.1 hadd)
      obtain ⟨room, chip, rfl, hworking, hcores, hmade, hobeysCore, hfits⟩ :=
        placeOn_spec hm h.sound hmade
      have hmember : ∀ v ∈ first :: others, v ∈ group.vertices := by
        intro v hv
        rw [← hunplaced] at hv
        exact List.mem_of_mem_filter hv
      have hobeys := obeys_of_made hgroup hmember hmade hobeysCore (hsome _ rfl)
      have hinv := h.placeOn hgroup (by simp [hunplaced]) hworking hcores (hunplaced ▸ hmade)
        hobeys hfits hperm
      exact ⟨rfl, hinv, made, hmade.vertices, hperm⟩

/-! ## Whole attempts -/

/-- How a run over some groups ends: nothing that was placed is moved, nothing is pending any
more, and success means that everything is placed. -/
structure Ended (s : Setting) (p p' : Progress) (pending : List Placement)
    (groups : List ChipGroup) (result : Attempt) : Prop where
  kept : ∀ q ∈ p.placements.toList, q ∈ p'.placements.toList
  invariant : Invariant s p' []
  idle : p'.pool.handedOut = []
  pending : result = .placed → ∀ q ∈ pending, q ∈ p'.placements.toList
  placed : result = .placed → ∀ group ∈ groups, ∀ v ∈ group.vertices,
    p'.placements.isPlaced v = true

theorem isPlaced_of_mem {placements placements' : Placements} {v : MachineVertexId}
    (hkept : ∀ q ∈ placements.toList, q ∈ placements'.toList)
    (h : placements.isPlaced v = true) : placements'.isPlaced v = true := by
  rw [Placements.isPlaced_iff] at h ⊢
  obtain ⟨q, hq, hqv⟩ := h
  exact ⟨q, hkept q hq, hqv⟩

theorem isPlaced_of_made (made : List Placement) {placements placements' : Placements}
    (hmade : made.map Placement.vertex = unplaced placements group)
    (hkept : ∀ q ∈ placements.toList, q ∈ placements'.toList)
    (hin : ∀ q ∈ made, q ∈ placements'.toList) :
    ∀ v ∈ group.vertices, placements'.isPlaced v = true := by
  intro v hv
  by_cases hplaced : placements.isPlaced v = true
  · exact isPlaced_of_mem hkept hplaced
  · have hmem : v ∈ unplaced placements group :=
      List.mem_filter.2 ⟨hv, by simpa using hplaced⟩
    rw [← hmade] at hmem
    obtain ⟨q, hq, rfl⟩ := List.mem_map.1 hmem
    exact Placements.isPlaced_iff.2 ⟨q, hin q hq, rfl⟩

theorem Invariant.commit (h : Invariant s p pending) {placements : Placements}
    (hadd : p.placements.addAll pending = .ok placements) :
    Invariant s { pool := p.pool.finish, placements } [] := by
  have hperm := Placements.addAll_perm hadd
  have hall : (p.placements.toList ++ pending).Perm (placements.toList ++ []) := by
    rw [List.append_nil]
    exact hperm.symm
  refine ⟨h.sound.perm hall, h.tracked.finish, ?_, by simp, ?_⟩
  · intro room hroom
    obtain ⟨chip, hoffers⟩ := h.room room hroom
    exact ⟨chip, hoffers.perm hall⟩
  · intro a ha
    obtain ⟨hplaced, hpending⟩ := h.whole a ha
    exact ⟨(hplaced.union hpending).perm hperm.symm, Or.inl (by simp)⟩

theorem Invariant.abandon (h : Invariant s p pending) :
    Invariant s { p with pool := p.pool.abandon } [] where
  sound := by
    rw [List.append_nil]
    exact h.sound.left
  tracked := h.tracked.abandon
  room := by simp [ChipPool.abandon]
  inUse := by simp
  whole := fun a ha => ⟨(h.whole a ha).1, Or.inl (by simp)⟩

theorem Invariant.giveCores (h : Invariant s p pending) (hgroup : GroupOk s group)
    {vertices : List MachineVertexId} (hunplaced : unplaced p.placements group = vertices)
    (hne : vertices ≠ [])
    (hfree : ∀ v ∈ vertices, ∀ w, s.graph.HasVertex v w → w.location? = none)
    (hroom : p.pool.current? = some room) (hsdram : group.sdram ≤ room.sdram) {left : ChipRoom}
    (hmade : Made room vertices made) (hchip : left.chip = room.chip)
    (hleft : left.sdram = room.sdram) (hcores : ∀ q ∈ left.cores, q ∈ room.cores) :
    Invariant s { p with pool :=
      { p.pool with current? := some (left.useSdram group.sdram) } } (pending ++ made) := by
  obtain ⟨chip, hoffers⟩ := h.room room hroom
  have hneed := hgroup.memory_unplaced p.placements
  rw [hunplaced] at hneed
  have hobeys : ∀ q ∈ made, Obeys s.graph q := by
    intro q hq w hw location hlocation
    have hqv : q.vertex ∈ vertices := by
      rw [← hmade.vertices]
      exact List.mem_map_of_mem hq
    rw [hfree _ hqv w hw] at hlocation
    cases hlocation
  have hfits : group.sdram + memoryOn s.graph room.chip (p.placements.toList ++ pending) ≤
      chip.sdram := (Nat.add_le_add_right hsdram _).trans hoffers.memory
  have hsound := h.sound.append hoffers.working hoffers.cores hmade hneed hfits hobeys
  rw [List.append_assoc] at hsound
  refine ⟨hsound, ?_, ?_, ?_, ?_⟩
  · apply h.tracked.refill
    intro r hr
    cases hr
    exact ⟨room, hroom, hchip.symm⟩
  · intro r hr
    cases hr
    refine ⟨chip, ?_⟩
    rw [← List.append_assoc]
    refine hoffers.take group.sdram hchip hcores ?_ ?_ ?_
    · simp only [ChipRoom.useSdram, hleft]
    · rw [memoryOn_eq_sum hmade.chip, hmade.vertices]
      exact hneed
    · rw [List.append_assoc]
      exact hsound.memory _ _ hoffers.working
  · intro q hq
    rcases List.mem_append.1 hq with hq | hq
    · exact h.inUse q hq
    · rw [hmade.chip q hq]
      exact (h.tracked.current room hroom).1
  · intro a ha
    obtain ⟨hplaced, hpending⟩ := h.whole a ha
    refine ⟨hplaced, Whole.append hgroup ha hplaced hpending ?_ (hunplaced ▸ hmade)⟩
    rw [hunplaced]
    exact hne

theorem Ended.after_fixed {p₁ : Progress} {groups : List ChipGroup} {result : Attempt}
    (hend : Ended s p₁ p' pending groups result)
    (hmade : made.map Placement.vertex = unplaced p.placements group)
    (hperm : p₁.placements.toList.Perm (p.placements.toList ++ made)) :
    Ended s p p' pending (group :: groups) result := by
  have hkept : ∀ q ∈ p.placements.toList, q ∈ p₁.placements.toList :=
    fun q hq => hperm.mem_iff.2 (List.mem_append_left _ hq)
  have hin : ∀ q ∈ made, q ∈ p₁.placements.toList :=
    fun q hq => hperm.mem_iff.2 (List.mem_append_right _ hq)
  refine { hend with
    kept := fun q hq => hend.kept q (hkept q hq)
    placed := fun hdone g hg v hv => ?_ }
  rcases List.mem_cons.1 hg with rfl | hg
  · exact isPlaced_of_mem hend.kept (isPlaced_of_made made hmade hkept hin v hv)
  · exact hend.placed hdone g hg v hv

theorem Ended.after_free {p₁ : Progress} {groups : List ChipGroup} {result : Attempt}
    (hend : Ended s p₁ p' (pending ++ made) groups result)
    (hsame : p₁.placements = p.placements)
    (hmade : made.map Placement.vertex = unplaced p.placements group) :
    Ended s p p' pending (group :: groups) result := by
  have hkept := hend.kept
  rw [hsame] at hkept
  refine ⟨hkept, hend.invariant, hend.idle,
    fun hdone q hq => hend.pending hdone q (List.mem_append_left _ hq), ?_⟩
  intro hdone g hg v hv
  rcases List.mem_cons.1 hg with rfl | hg
  · exact isPlaced_of_made made hmade hkept
      (fun q hq => hend.pending hdone q (List.mem_append_right _ hq)) v hv
  · exact hend.placed hdone g hg v hv

/-- Induction over the groups; `Ended` of the rest of the run is carried back over each group. -/
theorem placeFrom_spec (hm : Machine.Fulfils d s.machine) {groups : List ChipGroup}
    (hgroups : ∀ group ∈ groups, GroupOk s group) (h : Invariant s p pending)
    {from? : Option Coord} {result : Attempt}
    (hrun : s.placeFrom frontier pending from? groups p = .ok (result, p')) :
    Ended s p p' pending groups result := by
  induction groups generalizing p frontier pending from? with
  | nil =>
      unfold Setting.placeFrom at hrun
      obtain ⟨_, _, hget, hrun⟩ := runState_bind_eq_ok.1 hrun
      cases runState_get_eq_ok.1 hget
      obtain ⟨placements, _, hlift, hrun⟩ := runState_bind_eq_ok.1 hrun
      obtain ⟨_, hadd, hstate⟩ := runState_lift_eq_ok.1 hlift
      cases hstate
      obtain ⟨_, _, hset, hreturn⟩ := runState_bind_eq_ok.1 hrun
      cases runState_set_eq_ok.1 hset
      cases runState_pure_eq_ok.1 hreturn
      have hadd := lift_eq_ok.1 hadd
      have hperm := Placements.addAll_perm hadd
      exact ⟨fun q hq => hperm.mem_iff.2 (List.mem_append_left _ hq), h.commit hadd, rfl,
        fun _ q hq => hperm.mem_iff.2 (List.mem_append_right _ hq), by simp⟩
  | cons group rest ih =>
      obtain ⟨hgroup, hrest⟩ := List.forall_mem_cons.1 hgroups
      unfold Setting.placeFrom at hrun
      obtain ⟨_, _, hget, hrun⟩ := runState_bind_eq_ok.1 hrun
      cases runState_get_eq_ok.1 hget
      cases hunplaced : unplaced p.placements group with
      | nil =>
          have hskip : s.placeFrom frontier pending from? rest p = .ok (result, p') := by
            unfold unplaced at hunplaced
            rw [hunplaced] at hrun
            exact hrun
          exact (ih hrest h hskip).after_fixed (List.map_nil.trans hunplaced.symm) (by simp)
      | cons first others =>
          have hunfold := hunplaced
          unfold unplaced at hunfold
          rw [hunfold] at hrun
          simp only at hrun
          obtain ⟨fixed, p₁, hfixed, hcont⟩ := runState_bind_eq_ok.1 hrun
          rcases placeFixed_spec hm h hgroup hunplaced hfixed with
            ⟨rfl, hinv, made, hmade, hperm⟩ | ⟨rfl, rfl, hfree⟩
          · exact (ih hrest hinv hcont).after_fixed (hmade.trans hunplaced.symm) hperm
          · obtain ⟨found, p₂, hfind, hrun⟩ := runState_bind_eq_ok.1 hcont
            obtain ⟨hsame, hinv, hfound⟩ := findRoom_spec hm h hfind
            cases found with
            | none =>
                obtain ⟨_, _, hmodify, hreturn⟩ := runState_bind_eq_ok.1 hrun
                cases runState_modify_eq_ok.1 hmodify
                cases runState_pure_eq_ok.1 hreturn
                refine ⟨?_, hinv.abandon, rfl, by simp, by simp⟩
                rw [hsame]
                exact fun q hq => hq
            | some found =>
                obtain ⟨room, frontier'⟩ := found
                obtain ⟨hroom, hspace⟩ := hfound room frontier' rfl
                obtain ⟨⟨made, left⟩, _, hlift, hrun⟩ := runState_bind_eq_ok.1 hrun
                obtain ⟨_, hgive, hstate⟩ := runState_lift_eq_ok.1 hlift
                cases hstate
                obtain ⟨_, _, hmodify, hrun⟩ := runState_bind_eq_ok.1 hrun
                cases runState_modify_eq_ok.1 hmodify
                obtain ⟨hmade, hchip, hleft, hcores⟩ := giveCores_spec hgive
                have hsdram : group.sdram ≤ room.sdram := by
                  unfold ChipRoom.hasSpace at hspace
                  exact (of_decide_eq_true hspace).2
                have hinv' := hinv.giveCores hgroup (hsame ▸ hunplaced) (by simp) hfree hroom
                  hsdram hmade hchip hleft hcores
                exact (ih hrest hinv' hrun).after_free hsame
                  (hmade.vertices.trans hunplaced.symm)

end MulticastMesh.Placing
