import Mathlib.Algebra.BigOperators.Group.List.Basic
import Mathlib.Algebra.GroupWithZero.Nat
import MulticastMesh.Proofs.Graph.Vertices
import MulticastMesh.Proofs.Layout.Placed
import MulticastMesh.Proofs.Mesh.Machines
import MulticastMesh.Placing.Search
/-!
# Room on chips

What is taken from the room of a chip and what is left.  A room offers unreserved user cores of
its chip, and no more memory than the placements made so far leave of the chip.
-/

namespace MulticastMesh.Placing

open MulticastMesh.Graph (MachineGraph MachineVertexId)
open Mesh (Chip Coord Machine)
open Layout (Placement Placements)
open Outcome

/-! ## Memory of placements -/

def memoryOf (g : MachineGraph) (v : MachineVertexId) : Nat :=
  (g.vertices[v.index]?.map fun v => v.resources.sdram).getD 0

def memoryOn (g : MachineGraph) (chip : Coord) (l : List Placement) : Nat :=
  ((l.filter fun p => p.chip == chip).map fun p => memoryOf g p.vertex).sum

section

variable {g : MachineGraph} {chip : Coord} {l l' : List Placement}

theorem memoryOf_eq {v : MachineVertexId} {w : Graph.MachineVertex} (h : g.HasVertex v w) :
    memoryOf g v = w.resources.sdram := by
  unfold memoryOf
  rw [h]
  rfl

theorem memoryOn_append : memoryOn g chip (l ++ l') = memoryOn g chip l + memoryOn g chip l' := by
  simp [memoryOn]

theorem memoryOn_perm (h : l.Perm l') : memoryOn g chip l = memoryOn g chip l' :=
  ((h.filter _).map _).sum_eq

theorem memoryOn_cons (p : Placement) : memoryOn g chip (p :: l) =
    (if p.chip = chip then memoryOf g p.vertex else 0) + memoryOn g chip l := by
  unfold memoryOn
  rw [List.filter_cons]
  by_cases h : p.chip = chip <;> simp [h]

theorem memoryOn_eq_zero (h : ∀ p ∈ l, p.chip ≠ chip) : memoryOn g chip l = 0 := by
  unfold memoryOn
  rw [List.filter_eq_nil_iff.2 (by simpa using h)]
  rfl

theorem memoryOn_eq_sum (h : ∀ p ∈ l, p.chip = chip) :
    memoryOn g chip l = ((l.map Placement.vertex).map (memoryOf g)).sum := by
  unfold memoryOn
  rw [List.filter_eq_self.2 (by simpa using h), List.map_map]
  rfl

end

/-! ## Rooms -/

/-- What a room offers beside the placements made so far. -/
structure Offers (s : Setting) (taken : List Placement) (room : ChipRoom) (chip : Chip) :
    Prop where
  working : s.machine.chip? room.chip = some chip
  cores : ∀ p ∈ room.cores, p ∈ ChipRoom.unreserved chip s.config.reserved
  memory : room.sdram + memoryOn s.graph room.chip taken ≤ chip.sdram

variable {s : Setting} {taken : List Placement} {room room' : ChipRoom} {chip : Chip}

theorem chip_eq_ok {m : Machine} {c : Coord} : m.chip c = .ok chip ↔ m.chip? c = some chip := by
  unfold Machine.chip
  cases m.chip? c <;> simp

theorem sum_of_residents {placements : Placements} {c : Coord} {memory : List Nat}
    (h : (placements.onChip c).mapM (fun p => do
      return (← s.graph.vertex p.vertex).resources.sdram) = .ok memory) :
    memory.foldr (· + ·) 0 = memoryOn s.graph c placements.toList := by
  have hall := mapM_eq_ok.1 h
  have hmemory : memory = (placements.onChip c).map fun p => memoryOf s.graph p.vertex := by
    symm
    rw [← List.forall₂_eq_eq_eq, List.forall₂_map_left_iff]
    refine hall.imp ?_
    intro p n hp
    obtain ⟨w, hw, hn⟩ := bind_eq_ok.1 hp
    rw [memoryOf_eq (MachineGraph.vertex_eq_ok.1 hw)]
    exact pure_eq_ok.1 hn
  rw [hmemory]
  exact ((placements.onChip_perm c).map _).sum_eq

theorem offers_of_roomOn {d : Mesh.MachineSpec} (hm : Machine.Fulfils d s.machine)
    {placements : Placements} {c : Coord} (h : s.roomOn placements c = .ok room)
    (hfits : ∀ chip, s.machine.chip? c = some chip →
      memoryOn s.graph c placements.toList ≤ chip.sdram) :
    room.chip = c ∧ ∃ chip, Offers s placements.toList room chip := by
  obtain ⟨chip, hchip, h⟩ := bind_eq_ok.1 h
  obtain ⟨memory, hmemory, h⟩ := bind_eq_ok.1 (lift_eq_ok.1 h)
  have hchip := chip_eq_ok.1 (lift_eq_ok.1 hchip)
  have hcoord := hm.chip_coord hchip
  have hsum := sum_of_residents hmemory
  rw [hcoord] at hsum
  have hroom := pure_eq_ok.1 h
  subst hroom
  refine ⟨hcoord, chip, by simpa [hcoord] using hchip, ?_, ?_⟩
  · intro p hp
    exact (List.mem_filter.1 hp).1
  · simp only [hcoord, hsum]
    have := hfits chip hchip
    omega

theorem Offers.append (h : Offers s taken room chip) {more : List Placement}
    (hmore : ∀ p ∈ more, p.chip ≠ room.chip) : Offers s (taken ++ more) room chip where
  working := h.working
  cores := h.cores
  memory := by
    rw [memoryOn_append, memoryOn_eq_zero hmore]
    exact h.memory

theorem Offers.perm (h : Offers s taken room chip) {taken' : List Placement}
    (hperm : taken.Perm taken') : Offers s taken' room chip where
  working := h.working
  cores := h.cores
  memory := by
    rw [← memoryOn_perm hperm]
    exact h.memory

theorem Offers.take (h : Offers s taken room chip) {more : List Placement} (sdram : Nat)
    (hchip : room'.chip = room.chip) (hcores : ∀ p ∈ room'.cores, p ∈ room.cores)
    (hsdram : room'.sdram = room.sdram - sdram)
    (hneed : memoryOn s.graph room.chip more ≤ sdram)
    (hfits : memoryOn s.graph room.chip (taken ++ more) ≤ chip.sdram) :
    Offers s (taken ++ more) room' chip where
  working := hchip ▸ h.working
  cores := fun p hp => h.cores p (hcores p hp)
  memory := by
    have := h.memory
    rw [memoryOn_append] at hfits
    rw [hchip, hsdram, memoryOn_append]
    omega

theorem useCores_spec (room : ChipRoom) (cores : List Nat) :
    (room.useCores cores).chip = room.chip ∧ (room.useCores cores).sdram = room.sdram ∧
      ∀ p ∈ (room.useCores cores).cores, p ∈ room.cores := by
  unfold ChipRoom.useCores
  induction cores generalizing room with
  | nil => exact ⟨rfl, rfl, fun _ hp => hp⟩
  | cons core cores ih =>
      obtain ⟨hchip, hsdram, hcores⟩ := ih (room.useCore core)
      exact ⟨hchip, hsdram, fun p hp => List.mem_of_mem_erase (hcores p hp)⟩

theorem nextCore?_spec {core : Nat} (h : room.nextCore? = some (core, room')) :
    core ∈ room.cores ∧ room'.chip = room.chip ∧ room'.sdram = room.sdram ∧
      ∀ p ∈ room'.cores, p ∈ room.cores := by
  unfold ChipRoom.nextCore? at h
  split at h
  · cases h
  · next core rest hcores =>
      cases h
      rw [hcores]
      exact ⟨by simp, rfl, rfl, fun p hp => List.mem_cons_of_mem _ hp⟩

/-! ## Handing out cores -/

/-- Placements of some vertices in a room. -/
structure Made (room : ChipRoom) (vertices : List MachineVertexId) (made : List Placement) :
    Prop where
  vertices : made.map Placement.vertex = vertices
  chip : ∀ p ∈ made, p.chip = room.chip
  core : ∀ p ∈ made, p.processor ∈ room.cores

theorem Made.nil : Made room [] [] := ⟨rfl, by simp, by simp⟩

theorem Made.cons {v : MachineVertexId} {vertices : List MachineVertexId} {core : Nat}
    {made : List Placement} (h : Made room' vertices made) (hcore : core ∈ room.cores)
    (hchip : room'.chip = room.chip) (hcores : ∀ p ∈ room'.cores, p ∈ room.cores) :
    Made room (v :: vertices) (⟨v, room.chip, core⟩ :: made) where
  vertices := by rw [List.map_cons, h.vertices]
  chip := by
    intro p hp
    rcases List.mem_cons.1 hp with rfl | hp
    · rfl
    · exact (h.chip p hp).trans hchip
  core := by
    intro p hp
    rcases List.mem_cons.1 hp with rfl | hp
    · exact hcore
    · exact hcores _ (h.core p hp)

theorem giveCores_spec {vertices : List MachineVertexId} {made : List Placement}
    {left : ChipRoom} (h : Setting.giveCores room vertices = .ok (made, left)) :
    Made room vertices made ∧ left.chip = room.chip ∧ left.sdram = room.sdram ∧
      ∀ p ∈ left.cores, p ∈ room.cores := by
  induction vertices generalizing room made with
  | nil =>
      cases h
      exact ⟨.nil, rfl, rfl, fun _ hp => hp⟩
  | cons v rest ih =>
      unfold Setting.giveCores at h
      split at h
      · cases h
      · next core room' hnext =>
          obtain ⟨⟨made', left'⟩, hrest, hreturn⟩ := bind_eq_ok.1 h
          cases pure_eq_ok.1 hreturn
          obtain ⟨hcore, hchip, hsdram, hcores⟩ := nextCore?_spec hnext
          obtain ⟨hmade, hlchip, hlsdram, hlcores⟩ := ih hrest
          exact ⟨hmade.cons hcore hchip hcores, hlchip.trans hchip, hlsdram.trans hsdram,
            fun p hp => hcores p (hlcores p hp)⟩

def ObeysCore (g : MachineGraph) (p : Placement) : Prop :=
  ∀ v, g.HasVertex p.vertex v → ∀ location core, v.location? = some location →
    location.core? = some core → p.processor = core

theorem giveFixedCores_spec {vertices : List MachineVertexId} {occupants : List String}
    {made : List Placement} (h : s.giveFixedCores room occupants vertices = .ok made) :
    Made room vertices made ∧ ∀ p ∈ made, ObeysCore s.graph p := by
  induction vertices generalizing room occupants made with
  | nil =>
      cases h
      exact ⟨.nil, by simp⟩
  | cons v rest ih =>
      unfold Setting.giveFixedCores at h
      obtain ⟨vertex, hvertex, h⟩ := bind_eq_ok.1 h
      have hvertex := MachineGraph.vertex_eq_ok.1 (lift_eq_ok.1 hvertex)
      have htaken : ∃ core room', core ∈ room.cores ∧ room'.chip = room.chip ∧
          (∀ p ∈ room'.cores, p ∈ room.cores) ∧
          (∀ location fixed, vertex.location? = some location →
            location.core? = some fixed → core = fixed) ∧
          ∃ made', s.giveFixedCores room' (occupants ++ [vertex.label]) rest = .ok made' ∧
            ⟨v, room.chip, core⟩ :: made' = made := by
        simp only at h
        split at h
        · next fixed hfixed =>
            split at h
            · next hfree =>
                obtain ⟨_, hpure, hrun⟩ := bind_eq_ok.1 h
                cases pure_eq_ok.1 hpure
                obtain ⟨made', hrest, hreturn⟩ := bind_eq_ok.1 hrun
                refine ⟨fixed, room.useCore fixed, by simpa using hfree, rfl,
                  fun p hp => List.mem_of_mem_erase hp, ?_, made', hrest, pure_eq_ok.1 hreturn⟩
                intro location fixed' hlocation hcore
                rw [hlocation, Option.bind_some, hcore] at hfixed
                exact (Option.some.inj hfixed).symm
            · cases h
        · next hfixed =>
            split at h
            · next taken hnext =>
                obtain ⟨⟨core, room'⟩, hpure, hrun⟩ := bind_eq_ok.1 h
                cases pure_eq_ok.1 hpure
                obtain ⟨made', hrest, hreturn⟩ := bind_eq_ok.1 hrun
                obtain ⟨hcore, hchip, _, hcores⟩ := nextCore?_spec hnext
                refine ⟨core, room', hcore, hchip, hcores, ?_, made', hrest,
                  pure_eq_ok.1 hreturn⟩
                intro location fixed' hlocation hcore
                rw [hlocation, Option.bind_some, hcore] at hfixed
                cases hfixed
            · cases h
      obtain ⟨core, room', hcore, hchip, hcores, hfixed, made', hrest, rfl⟩ := htaken
      obtain ⟨hmade, hobeys⟩ := ih hrest
      refine ⟨hmade.cons hcore hchip hcores, ?_⟩
      intro p hp
      rcases List.mem_cons.1 hp with rfl | hp
      · intro w hw location fixed hlocation hfix
        cases hvertex.eq hw
        exact hfixed location fixed hlocation hfix
      · exact hobeys p hp

theorem takePending_spec {pending : List Placement} {labels : List String}
    (h : s.takePending room pending = .ok (room', labels)) :
    room'.chip = room.chip ∧ (∀ p ∈ room'.cores, p ∈ room.cores) ∧
      room'.sdram = room.sdram - memoryOn s.graph room.chip pending := by
  induction pending generalizing room labels with
  | nil =>
      cases h
      exact ⟨rfl, fun _ hp => hp, by simp [memoryOn]⟩
  | cons p rest ih =>
      unfold Setting.takePending at h
      rw [memoryOn_cons]
      split at h
      · next hchip =>
          obtain ⟨vertex, hvertex, h⟩ := bind_eq_ok.1 h
          obtain ⟨⟨room'', labels'⟩, hrest, hreturn⟩ := bind_eq_ok.1 h
          cases pure_eq_ok.1 hreturn
          obtain ⟨hsame, hcores, hsdram⟩ := ih hrest
          have hvertex := MachineGraph.vertex_eq_ok.1 (lift_eq_ok.1 hvertex)
          refine ⟨hsame, fun q hq => List.mem_of_mem_erase (hcores q hq), ?_⟩
          rw [if_pos hchip, memoryOf_eq hvertex, hsdram, ← Nat.sub_sub]
          rfl
      · next hchip =>
          obtain ⟨hsame, hcores, hsdram⟩ := ih h
          exact ⟨hsame, hcores, by rw [if_neg hchip, Nat.zero_add, hsdram]⟩

end MulticastMesh.Placing
