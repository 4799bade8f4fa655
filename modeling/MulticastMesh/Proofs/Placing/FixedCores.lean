import MulticastMesh.Proofs.Graph.Edits
import MulticastMesh.Proofs.Placing.FreeCores
import MulticastMesh.Proofs.Placing.Runs
/-!
# Fixed cores among free ones

The members of a group with a fixed location get their cores in turn, so one that may have any core
takes the lowest free one, also where a later member is fixed to it.  A group that fits on its chip
is placed exactly if no fixed core goes that way: for every member with a fixed core, no more of the
members in front of it are fixed lower or not at all than there are free cores below.
-/

namespace MulticastMesh.Placing

open MulticastMesh.Graph (MachineGraph MachineVertexId)
open Mesh (Chip Coord Machine)
open Layout (Placement Placements)
open Layout.Placements (NoRepeats)
open Outcome

def fixedCore? (g : MachineGraph) (v : MachineVertexId) : Option Nat :=
  (g.vertices[v.index]?.bind fun w => w.location?).bind fun location => location.core?

def coreFor? (g : MachineGraph) (cores : List Nat) (v : MachineVertexId) : Option Nat :=
  match fixedCore? g v with
  | some core => if core ∈ cores then some core else none
  | none => cores.head?

/-- A vertex may take a core below another in front of a vertex that is fixed to that one. -/
def fixedBelow (g : MachineGraph) (core : Nat) (v : MachineVertexId) : Bool :=
  (fixedCore? g v).all fun fixed => fixed < core

/-- No core that a member is fixed to is the lowest one left when another member may have any:
there are enough free cores below it for the members in front. -/
def Spared (g : MachineGraph) (cores : List Nat) (members : List MachineVertexId) : Prop :=
  ∀ before v after core, members = before ++ v :: after → fixedCore? g v = some core →
    before.countP (fixedBelow g core) ≤ cores.countP (· < core)

section

variable {s : Setting} {g : MachineGraph} {room : ChipRoom} {cores : List Nat}
  {v : MachineVertexId} {members rest : List MachineVertexId} {core : Nat}
  {occupants : List String} {made : List Placement} {w : Graph.MachineVertex}

/-! ## One member -/

theorem fixedCore?_eq (hw : g.HasVertex v w) :
    fixedCore? g v = w.location?.bind fun location => location.core? := by
  unfold fixedCore?
  rw [hw]
  rfl

theorem mem_fixedCores :
    core ∈ members.filterMap (fixedCore? g) ↔ ∃ v ∈ members, fixedCore? g v = some core :=
  List.mem_filterMap

theorem coreFor?_mem (h : coreFor? g cores v = some core) : core ∈ cores := by
  unfold coreFor? at h
  split at h
  · split at h
    · next hmem =>
        cases h
        exact hmem
    · cases h
  · exact List.mem_of_head? h

theorem giveFixedCores_cons (hw : s.graph.HasVertex v w) :
    s.giveFixedCores room occupants (v :: rest) = .ok made ↔
      ∃ core, coreFor? s.graph room.cores v = some core ∧ ∃ made',
        s.giveFixedCores (room.useCore core) (occupants ++ [w.label]) rest = .ok made' ∧
        ⟨v, room.chip, core⟩ :: made' = made := by
  have hvertex : (liftM (s.graph.vertex v) : Outcome Graph.MachineVertex) = .ok w :=
    lift_eq_ok.2 (MachineGraph.vertex_eq_ok.2 hw)
  rw [Setting.giveFixedCores, hvertex, ok_bind]
  unfold coreFor?
  rw [fixedCore?_eq hw]
  simp only
  cases w.location?.bind fun location => location.core? with
  | some fixed =>
      by_cases hfree : fixed ∈ room.cores
      · simp only [List.contains_iff_mem, hfree, if_true, Option.some.injEq, exists_eq_left']
        rw [pure_bind, bind_eq_ok]
        simp only [pure_eq_ok]
      · simp only [List.contains_iff_mem, hfree, if_false]
        simp [throw, throwThe, MonadExceptOf.throw, bind, Except.bind]
  | none =>
      unfold ChipRoom.nextCore? ChipRoom.useCore
      cases room.cores with
      | nil => simp [throw, throwThe, MonadExceptOf.throw, bind, Except.bind]
      | cons core cores =>
          simp only [List.head?_cons, Option.some.injEq, exists_eq_left', List.erase_cons_head]
          rw [pure_bind, bind_eq_ok]
          simp only [pure_eq_ok]

/-- No core is given twice. -/
theorem giveFixedCores_nodup (hcores : room.cores.Nodup)
    (h : s.giveFixedCores room occupants members = .ok made) :
    (made.map Placement.processor).Nodup := by
  induction members generalizing room occupants made with
  | nil =>
      cases h
      exact List.nodup_nil
  | cons v rest ih =>
      have hvertex : ∃ w, s.graph.HasVertex v w := by
        unfold Setting.giveFixedCores at h
        obtain ⟨w, hw, _⟩ := bind_eq_ok.1 h
        exact ⟨w, MachineGraph.vertex_eq_ok.1 (lift_eq_ok.1 hw)⟩
      obtain ⟨w, hw⟩ := hvertex
      obtain ⟨core, _, made', hrest, rfl⟩ := (giveFixedCores_cons hw).1 h
      rw [List.map_cons, List.nodup_cons]
      refine ⟨fun hmem => ?_, ih (hcores.erase core) hrest⟩
      obtain ⟨q, hq, hcore⟩ := List.mem_map.1 hmem
      have hleft := (giveFixedCores_spec hrest).1.core q hq
      exact hcores.not_mem_erase (hcore ▸ hleft)

theorem processor_eq_of_obeysCore {q : Placement} (h : ObeysCore s.graph q)
    (hfixed : fixedCore? s.graph q.vertex = some core) : q.processor = core := by
  unfold fixedCore? at hfixed
  obtain ⟨location, hlocation, hown⟩ := Option.bind_eq_some_iff.1 hfixed
  obtain ⟨w, hw, hlocation⟩ := Option.bind_eq_some_iff.1 hlocation
  exact h w hw location core hlocation hown

theorem mem_cores_of_giveFixedCores
    (h : s.giveFixedCores room occupants members = .ok made)
    (hcore : core ∈ members.filterMap (fixedCore? s.graph)) : core ∈ room.cores := by
  obtain ⟨v, hv, hfixed⟩ := mem_fixedCores.1 hcore
  obtain ⟨hmade, hobeys⟩ := giveFixedCores_spec h
  rw [← hmade.vertices] at hv
  obtain ⟨q, hq, rfl⟩ := List.mem_map.1 hv
  rw [← processor_eq_of_obeysCore (hobeys q hq) hfixed]
  exact hmade.core q hq

/-! ## All members -/

/-- Whether the first member can go below a core that it does not get is decided by what it gets. -/
theorem fixedBelow_eq (hsorted : cores.Pairwise (· < ·)) (hcore : coreFor? g cores v = some core)
    {fixed : Nat} (hfixed : fixed ∈ cores) (hne : fixed ≠ core) :
    fixedBelow g fixed v = decide (core < fixed) := by
  unfold coreFor? at hcore
  unfold fixedBelow
  cases hown : fixedCore? g v with
  | some own =>
      rw [hown] at hcore
      simp only [Option.ite_none_right_eq_some, Option.some.injEq] at hcore
      rw [← hcore.2, Option.all_some]
  | none =>
      rw [hown] at hcore
      obtain ⟨rest, rfl⟩ := List.head?_eq_some_iff.1 hcore
      have hlt : core < fixed :=
        (List.pairwise_cons.1 hsorted).1 fixed ((List.mem_cons.1 hfixed).resolve_left hne)
      simp [hlt]

/-- A core that the first member gets is fixed for no other one. -/
theorem Spared.not_mem (h : Spared g cores (v :: rest)) (hsorted : cores.Pairwise (· < ·))
    (hcore : coreFor? g cores v = some core)
    (hdistinct : ((v :: rest).filterMap (fixedCore? g)).Nodup) :
    core ∉ rest.filterMap (fixedCore? g) := by
  intro hmem
  unfold coreFor? at hcore
  cases hown : fixedCore? g v with
  | some own =>
      rw [hown] at hcore
      simp only [Option.ite_none_right_eq_some, Option.some.injEq] at hcore
      rw [List.filterMap_cons_some hown, hcore.2] at hdistinct
      exact (List.nodup_cons.1 hdistinct).1 hmem
  | none =>
      -- The member would take the lowest core, so none is left below it.
      rw [hown] at hcore
      obtain ⟨cores', rfl⟩ := List.head?_eq_some_iff.1 hcore
      obtain ⟨u, hu, hfixed⟩ := mem_fixedCores.1 hmem
      obtain ⟨before, after, rfl⟩ := List.append_of_mem hu
      have hbelow := h (v :: before) u after core rfl hfixed
      have hnone : (core :: cores').countP (· < core) = 0 := by
        rw [List.countP_eq_zero]
        intro c hc
        rcases List.mem_cons.1 hc with rfl | hc
        · simp
        · simpa using ((List.pairwise_cons.1 hsorted).1 c hc).le
      have hfirst : fixedBelow g core v = true := by simp [fixedBelow, hown]
      rw [hnone, List.countP_cons_of_pos hfirst] at hbelow
      omega

theorem spared_cons (hsorted : cores.Pairwise (· < ·)) (hcore : coreFor? g cores v = some core)
    (hdistinct : ((v :: rest).filterMap (fixedCore? g)).Nodup)
    (hfree : ∀ fixed ∈ rest.filterMap (fixedCore? g), fixed ∈ cores) :
    Spared g cores (v :: rest) ↔
      core ∉ rest.filterMap (fixedCore? g) ∧ Spared g (cores.erase core) rest := by
  -- The first member and the core that it gets count alike for every later member.
  have hshift : core ∉ rest.filterMap (fixedCore? g) → ∀ before u after fixed,
      rest = before ++ u :: after → fixedCore? g u = some fixed →
      ((v :: before).countP (fixedBelow g fixed) ≤ cores.countP (· < fixed) ↔
        before.countP (fixedBelow g fixed) ≤ (cores.erase core).countP (· < fixed)) := by
    intro hnot before u after fixed hrest hu
    have hmem : fixed ∈ rest.filterMap (fixedCore? g) :=
      mem_fixedCores.2 ⟨u, by simp [hrest], hu⟩
    have hne : fixed ≠ core := fun heq => hnot (heq ▸ hmem)
    rw [(List.perm_cons_erase (coreFor?_mem hcore)).countP_eq, List.countP_cons, List.countP_cons,
      fixedBelow_eq hsorted hcore (hfree fixed hmem) hne]
    omega
  constructor
  · intro h
    have hnot := h.not_mem hsorted hcore hdistinct
    refine ⟨hnot, fun before u after fixed hrest hu => ?_⟩
    exact (hshift hnot before u after fixed hrest hu).1
      (h (v :: before) u after fixed (by rw [hrest]; rfl) hu)
  · rintro ⟨hnot, h⟩ before u after fixed hmembers hu
    cases before with
    | nil => simp
    | cons _ before =>
        obtain ⟨rfl, hrest⟩ := List.cons.inj hmembers
        exact (hshift hnot before u after fixed hrest hu).2 (h before u after fixed hrest hu)

/-- Induction over the members: cores for all of them are found exactly if the fixed ones are
spared. -/
theorem exists_giveFixedCores_iff (hsorted : room.cores.Pairwise (· < ·))
    (hknown : ∀ v ∈ members, ∃ w, s.graph.HasVertex v w)
    (hdistinct : (members.filterMap (fixedCore? s.graph)).Nodup)
    (hfree : ∀ fixed ∈ members.filterMap (fixedCore? s.graph), fixed ∈ room.cores)
    (hcores : members.length ≤ room.cores.length) :
    (∃ made, s.giveFixedCores room occupants members = .ok made) ↔
      Spared s.graph room.cores members := by
  induction members generalizing room occupants with
  | nil => exact ⟨fun _ => by simp [Spared], fun _ => ⟨[], rfl⟩⟩
  | cons v rest ih =>
      obtain ⟨⟨w, hw⟩, hknown⟩ := List.forall_mem_cons.1 hknown
      obtain ⟨core, hcore⟩ : ∃ core, coreFor? s.graph room.cores v = some core := by
        unfold coreFor?
        cases hown : fixedCore? s.graph v with
        | some own =>
            have hmem := hfree own (mem_fixedCores.2 ⟨v, List.mem_cons_self, hown⟩)
            exact ⟨own, by simp [hmem]⟩
        | none =>
            have hne : room.cores ≠ [] := List.ne_nil_of_length_pos (by
              rw [List.length_cons] at hcores
              omega)
            exact ⟨room.cores.head hne, List.head?_eq_some_head hne⟩
      have hsub : (rest.filterMap (fixedCore? s.graph)).Sublist
          ((v :: rest).filterMap (fixedCore? s.graph)) :=
        (List.sublist_cons_self v rest).filterMap _
      have hfreeRest : ∀ fixed ∈ rest.filterMap (fixedCore? s.graph), fixed ∈ room.cores :=
        fun fixed hfixed => hfree fixed (hsub.subset hfixed)
      have hnodup : room.cores.Nodup := hsorted.imp Nat.ne_of_lt
      have hlength : rest.length ≤ (room.cores.erase core).length := by
        rw [List.length_erase_of_mem (coreFor?_mem hcore)]
        rw [List.length_cons] at hcores
        omega
      have hstep : (∃ made, s.giveFixedCores room occupants (v :: rest) = .ok made) ↔
          ∃ made, s.giveFixedCores (room.useCore core) (occupants ++ [w.label]) rest =
            .ok made := by
        simp only [giveFixedCores_cons hw, hcore, Option.some.injEq, exists_eq_left']
        constructor
        · rintro ⟨_, made, hrest, _⟩
          exact ⟨made, hrest⟩
        · rintro ⟨made, hrest⟩
          exact ⟨_, made, hrest, rfl⟩
      rw [hstep, spared_cons hsorted hcore hdistinct hfreeRest]
      by_cases hnot : core ∈ rest.filterMap (fixedCore? s.graph)
      · -- A later member is fixed to the core that is gone.
        refine ⟨?_, fun h => absurd hnot h.1⟩
        rintro ⟨made, hrest⟩
        exact absurd (mem_cores_of_giveFixedCores hrest hnot) hnodup.not_mem_erase
      · have hfreeRest' : ∀ fixed ∈ rest.filterMap (fixedCore? s.graph),
            fixed ∈ (room.useCore core).cores := by
          intro fixed hfixed
          have hne : fixed ≠ core := by
            rintro rfl
            exact hnot hfixed
          exact (List.mem_erase_of_ne hne).2 (hfreeRest fixed hfixed)
        rw [ih (hsorted.sublist List.erase_sublist) hknown (hdistinct.sublist hsub)
          hfreeRest' hlength]
        exact ⟨fun h => ⟨hnot, h⟩, fun h => h.2⟩

end

/-! ## Whole groups -/

/-- A group that is fixed to a chip, with enough left for it there beside what is placed and what
is pending. -/
structure FitsOn (s : Setting) (chip : Chip) (p : Progress) (pending : List Placement)
    (members : List MachineVertexId) (sdram : Nat) : Prop where
  working : s.machine.chip? chip.coord = some chip
  residents : Known s.graph (p.placements.toList ++ pending)
  fresh : ∀ v ∈ members, (∃ w, s.graph.HasVertex v w) ∧ p.placements.isPlaced v = false
  once : members.Nodup
  located : ∃ v ∈ members, ∃ w, s.graph.HasVertex v w ∧ w.location?.isSome
  sameChip : ∀ v ∈ members, ∀ w location, s.graph.HasVertex v w → w.location? = some location →
    location.chip = chip.coord
  distinct : (members.filterMap (fixedCore? s.graph)).Nodup
  free : ∀ core ∈ members.filterMap (fixedCore? s.graph),
    core ∈ freeCores s chip (p.placements.toList ++ pending)
  cores : members.length ≤ (freeCores s chip (p.placements.toList ++ pending)).length
  memory : sdram + memoryOn s.graph chip.coord (p.placements.toList ++ pending) ≤ chip.sdram

/-- All members of a group on cores that were free on a chip, the fixed ones on their own. -/
structure PlacesOn (s : Setting) (chip : Chip) (pending : List Placement)
    (members : List MachineVertexId) (p p' : Progress) : Prop where
  kept : ∀ q ∈ p.placements.toList, q ∈ p'.placements.toList
  placed : ∀ v ∈ members, ∃ q ∈ p'.placements.toList, q.vertex = v ∧ q.chip = chip.coord ∧
    q.processor ∈ freeCores s chip (p.placements.toList ++ pending) ∧
    ∀ core, fixedCore? s.graph v = some core → q.processor = core

section

variable {s : Setting} {chip : Chip} {p p' : Progress} {pending made : List Placement}
  {placements : Placements} {first : MachineVertexId} {others members : List MachineVertexId}
  {sdram : Nat}

theorem exists_fixedChip?_eq_ok (h : ∀ v ∈ members, ∃ w, s.graph.HasVertex v w) :
    ∃ chip?, s.fixedChip? members = .ok chip? := by
  induction members with
  | nil => exact ⟨none, rfl⟩
  | cons v rest ih =>
      obtain ⟨⟨w, hw⟩, hrest⟩ := List.forall_mem_cons.1 h
      have hvertex : (liftM (s.graph.vertex v) : Outcome Graph.MachineVertex) = .ok w :=
        lift_eq_ok.2 (MachineGraph.vertex_eq_ok.2 hw)
      rw [Setting.fixedChip?, hvertex, ok_bind]
      cases w.location? with
      | some location => exact ⟨_, rfl⟩
      | none => exact ih hrest

theorem FitsOn.fixedChip?_eq (h : FitsOn s chip p pending members sdram) :
    s.fixedChip? members = .ok (some chip.coord) := by
  obtain ⟨chip?, hchip⟩ := exists_fixedChip?_eq_ok fun v hv => (h.fresh v hv).1
  obtain ⟨hsome, hnone⟩ := fixedChip?_spec hchip
  cases chip? with
  | none =>
      obtain ⟨v, hv, w, hw, hlocation⟩ := h.located
      rw [hnone rfl v hv w hw] at hlocation
      cases hlocation
  | some c =>
      obtain ⟨v, hv, w, location, hw, hlocation, hc⟩ := hsome c rfl
      rw [hchip, ← hc, h.sameChip v hv w location hw hlocation]

theorem placeOn_of_known (first : MachineVertexId) (others : List MachineVertexId)
    (hworking : s.machine.chip? chip.coord = some chip)
    (hknown : Known s.graph (placements.toList ++ pending))
    (hmemory : sdram + memoryOn s.graph chip.coord (placements.toList ++ pending) ≤ chip.sdram) :
    ∃ occupants, s.placeOn placements chip.coord first others sdram pending =
      s.giveFixedCores (roomLeft s chip (placements.toList ++ pending)) occupants
        (first :: others) := by
  obtain ⟨hplaced, hpending⟩ := List.forall_mem_append.1 hknown
  have hroom := roomOn_of_known hworking hplaced
  obtain ⟨residents, hresidents⟩ : ∃ residents,
      (placements.onChip chip.coord).mapM (fun q => s.label q.vertex) = .ok residents := by
    refine exists_mapM_eq_ok fun q hq => ?_
    obtain ⟨w, hw⟩ := Known.residents hplaced _ q hq
    exact ⟨_, bind_eq_ok.2 ⟨w, lift_eq_ok.2 (MachineGraph.vertex_eq_ok.2 hw), rfl⟩⟩
  obtain ⟨arriving, htake⟩ : ∃ labels, s.takePending (roomLeft s chip placements.toList) pending =
      .ok (roomLeft s chip (placements.toList ++ pending), labels) :=
    takePending_of_known _ hpending
  refine ⟨residents ++ arriving, ?_⟩
  have henough : ¬(roomLeft s chip (placements.toList ++ pending)).sdram < sdram := by
    simp only [roomLeft]
    omega
  unfold Setting.placeOn
  simp only [hworking, Option.isNone_some, Bool.false_eq_true, if_false]
  rw [hroom, ok_bind, hresidents, ok_bind, htake, ok_bind]
  simp only [henough, if_false]

theorem FitsOn.noRepeats (h : FitsOn s chip p pending (first :: others) sdram)
    {occupants : List String}
    (hgive : s.giveFixedCores (roomLeft s chip (p.placements.toList ++ pending)) occupants
      (first :: others) = .ok made) : NoRepeats (p.placements.toList ++ made) := by
  obtain ⟨hmade, _⟩ := giveFixedCores_spec hgive
  have hold := p.placements.noRepeats_toList
  refine ⟨?_, ?_⟩
  · rw [List.map_append, hmade.vertices, List.nodup_append]
    refine ⟨hold.vertices, h.once, ?_⟩
    simp only [List.forall_mem_map]
    rintro q hq _ hv rfl
    have hfresh := (h.fresh _ hv).2
    rw [← Bool.not_eq_true, Placements.isPlaced_iff] at hfresh
    exact hfresh ⟨q, hq, rfl⟩
  · rw [List.map_append, List.nodup_append]
    refine ⟨hold.cores, ?_, ?_⟩
    · have hcores := giveFixedCores_nodup nodup_freeCores hgive
      refine List.Nodup.of_map Prod.snd ?_
      rw [List.map_map]
      exact hcores
    · simp only [List.forall_mem_map]
      intro q hq r hr hsame
      have hfree := (mem_freeCores.1 (hmade.core r hr)).2 q (List.mem_append_left _ hq)
      rw [hsame] at hfree
      exact hfree (congrArg (·, r.processor) (hmade.chip r hr))

theorem placesOn_of_giveFixedCores {occupants : List String}
    (hgive : s.giveFixedCores (roomLeft s chip (p.placements.toList ++ pending)) occupants
      members = .ok made) (hperm : p'.placements.toList.Perm (p.placements.toList ++ made)) :
    PlacesOn s chip pending members p p' where
  kept := fun q hq => hperm.mem_iff.2 (List.mem_append_left _ hq)
  placed := by
    intro v hv
    obtain ⟨hmade, hobeys⟩ := giveFixedCores_spec hgive
    rw [← hmade.vertices] at hv
    obtain ⟨q, hq, rfl⟩ := List.mem_map.1 hv
    exact ⟨q, hperm.mem_iff.2 (List.mem_append_right _ hq), rfl, hmade.chip q hq, hmade.core q hq,
      fun core => processor_eq_of_obeysCore (hobeys q hq)⟩

/-- A group that is fixed to a chip with enough left for it is placed exactly if its fixed cores
are spared by the members in front of them. -/
theorem placeFixed_places_iff (h : FitsOn s chip p pending (first :: others) sdram) :
    (∃ p', s.placeFixed first others sdram pending p = .ok (true, p') ∧
      PlacesOn s chip pending (first :: others) p p') ↔
    Spared s.graph (freeCores s chip (p.placements.toList ++ pending)) (first :: others) := by
  obtain ⟨occupants, hplaceOn⟩ := placeOn_of_known first others h.working h.residents h.memory
  have hcores : (∃ made, s.giveFixedCores (roomLeft s chip (p.placements.toList ++ pending))
      occupants (first :: others) = .ok made) ↔
      Spared s.graph (freeCores s chip (p.placements.toList ++ pending)) (first :: others) :=
    exists_giveFixedCores_iff freeCores_sorted
      (fun v hv => (h.fresh v hv).1) h.distinct h.free h.cores
  rw [← hcores]
  constructor
  · rintro ⟨p', hrun, _⟩
    obtain ⟨_, c, made, _, hfixed, hmade, _⟩ | ⟨hfalse, _⟩ := placeFixed_cases hrun
    · cases h.fixedChip?_eq.symm.trans hfixed
      exact ⟨made, hplaceOn ▸ hmade⟩
    · cases hfalse
  · rintro ⟨made, hgive⟩
    obtain ⟨placements, hadd⟩ := Placements.exists_addAll_iff.2 (h.noRepeats hgive)
    refine ⟨⟨Setting.takeFromCurrent p.pool chip.coord made sdram, placements⟩, ?_,
      placesOn_of_giveFixedCores hgive (Placements.addAll_perm hadd)⟩
    unfold Setting.placeFixed
    rw [h.fixedChip?_eq]
    refine runState_bind_eq_ok.2 ⟨_, p, runState_lift_eq_ok.2 ⟨_, rfl, rfl⟩, ?_⟩
    simp only
    rw [runState_get_bind]
    refine runState_bind_eq_ok.2 ⟨made, p, runState_lift_eq_ok.2 ⟨_, hplaceOn ▸ hgive, rfl⟩, ?_⟩
    refine runState_bind_eq_ok.2
      ⟨placements, p, runState_lift_eq_ok.2 ⟨_, lift_eq_ok.2 hadd, rfl⟩, rfl⟩

end

def loneSpec : Mesh.MachineSpec := { width := 1, height := 1 }

def loneChip : Chip where
  coord := ⟨0, 0⟩
  processors := 18
  monitors := 1
  sdram := 128 * 1024 * 1024
  routerEntries := 1024
  ethernet := ⟨0, 0⟩
  links := []

def loneMachine : Machine := ⟨⟨1, 1, false⟩, 200000, #[some loneChip]⟩

def sharedPair : Graph.ApplicationGraph where
  vertices := #[
    { label := "pair", atoms := 2, splitter := .applicationDefined [(0, 0), (1, 1)] true }]

def pairMember (index : Nat) (location? : Option Graph.FixedLocation) : Graph.MachineVertex where
  label := "member"
  app? := some ⟨0⟩
  index
  slice := .ofLength index 1
  resources := ⟨1, 10, 0⟩
  location?

/-- A pair whose second member only is fixed to a core. -/
def halfTied (core : Nat) : Setting where
  app := sharedPair
  graph := Graph.graphOf 1 1 [.vertex (pairMember 0 (some ⟨⟨0, 0⟩, none⟩)),
    .vertex (pairMember 1 (some ⟨⟨0, 0⟩, some core⟩))]
  machine := loneMachine
  config := {}

def untouched : Progress := ⟨.ofMachine loneMachine ⟨0, 0⟩, .empty⟩

theorem fitsOn_halfTied {core : Nat} (hcore : core ∈ List.range' 1 17) :
    FitsOn (halfTied core) loneChip untouched [] [⟨0⟩, ⟨1⟩] 20 where
  working := rfl
  residents := nofun
  fresh := by
    simp only [List.forall_mem_cons]
    exact ⟨⟨⟨_, rfl⟩, rfl⟩, ⟨⟨_, rfl⟩, rfl⟩, nofun⟩
  once := by decide
  located := ⟨⟨0⟩, List.mem_cons_self, _, rfl, rfl⟩
  sameChip := by
    simp only [List.forall_mem_cons]
    refine ⟨?_, ?_, nofun⟩
    · rintro w location ⟨⟩ ⟨⟩
      rfl
    · rintro w location ⟨⟩ ⟨⟩
      rfl
  distinct := List.nodup_singleton core
  free := by
    intro fixed hfixed
    cases List.mem_singleton.1 hfixed
    exact mem_freeCores.2 ⟨List.mem_filter.2 ⟨hcore, rfl⟩, nofun⟩
  cores := show 2 ≤ (freeCores (halfTied 0) loneChip []).length by decide
  memory := show 20 + memoryOn (halfTied 0).graph ⟨0, 0⟩ [] ≤ loneChip.sdram by decide

/-- The first member takes core 1, so that a second one that is fixed to core 2 gets it. -/
theorem placeFixed_places_iff_halfTied :
    Spared (halfTied 2).graph (freeCores (halfTied 2) loneChip []) [⟨0⟩, ⟨1⟩] ∧
      ∃ p', (halfTied 2).placeFixed ⟨0⟩ [⟨1⟩] 20 [] untouched = .ok (true, p') ∧
        PlacesOn (halfTied 2) loneChip [] [⟨0⟩, ⟨1⟩] untouched p' := by
  have hspared : Spared (halfTied 2).graph (freeCores (halfTied 2) loneChip []) [⟨0⟩, ⟨1⟩] := by
    intro before v after core hmembers hfixed
    rcases before with _ | ⟨u, _ | ⟨u', before⟩⟩
    · simp
    · cases hmembers
      cases hfixed
      decide
    · simp at hmembers
  exact ⟨hspared, (placeFixed_places_iff (fitsOn_halfTied (by decide))).2 hspared⟩

/-- The first member takes the core that the second is fixed to. -/
theorem placeFixed_refuses_halfTied : Machine.ofSpec loneSpec = .ok loneMachine ∧
    FitsOn (halfTied 1) loneChip untouched [] [⟨0⟩, ⟨1⟩] 20 ∧
    ∀ p', (halfTied 1).placeFixed ⟨0⟩ [⟨1⟩] 20 [] untouched ≠ .ok (true, p') := by
  refine ⟨by with_unfolding_all rfl, fitsOn_halfTied (by decide), fun p' hplaced => ?_⟩
  have hfails : ((halfTied 1).placeFixed ⟨0⟩ [⟨1⟩] 20 [] untouched).isOk = false := by
    decide +kernel
  rw [hplaced] at hfails
  cases hfails

end MulticastMesh.Placing
