import MulticastMesh.Proofs.Placing.Accounts
import MulticastMesh.Proofs.Placing.Attempts
/-!
# Runs of the search, step by step

A run takes up one vertex after another, begins attempts, and within an attempt places one group
after another.  Each step is one operation of the search with the result that lets the run go on;
a run stops where an operation fails.  Beside the progress of the search a stage notes which chips
the vertex at hand was given.
-/

namespace MulticastMesh.Placing

open MulticastMesh.Graph (GraphError MachineVertexId)
open Mesh (Coord Machine)
open Layout (Placement Placements)
open Slicing (ChipGroup)
open Outcome

/-! ## Stages and steps -/

/-- A vertex to place, with its groups if the graph has them. -/
structure Task where
  label : String
  groups : Except GraphError (List ChipGroup)

namespace Setting

/-- The vertices in the order of the search: those cut from application vertices first. -/
def tasks (s : Setting) : List Task :=
  (s.app.toList.map fun (id, vertex) =>
    ⟨vertex.label, Slicing.chipGroups vertex.splitter s.graph id⟩) ++
  (s.graph.toList.filter fun (_, vertex) => vertex.app?.isNone).map fun (id, vertex) =>
    ⟨vertex.label, .ok [⟨[id], vertex.resources.sdram⟩]⟩

/-- A group with members to place, none of which has a fixed location. -/
def Loose (s : Setting) (p : Progress) (group : ChipGroup) : Prop :=
  unplaced p.placements group ≠ [] ∧ s.fixedChip? (unplaced p.placements group) = .ok none

end Setting

def HasRoomFor (p : Progress) (group : ChipGroup) (room : ChipRoom) : Prop :=
  p.pool.current? = some room ∧
    room.hasSpace (unplaced p.placements group).length group.sdram = true

structure Job where
  label : String
  groups : List ChipGroup

structure Patch where
  frontier : Frontier
  pending : List Placement := []
  from? : Option Coord := none

/-- What a run does next. -/
inductive Control where
  /-- Takes up the next vertex. -/
  | next
  /-- Begins an attempt at a vertex. -/
  | attempt (job : Job)
  /-- Places those groups of an attempt that are left. -/
  | place (job : Job) (patch : Patch) (left : List ChipGroup)
  /-- Checks whether a group that no room was found for could fit on any chip. -/
  | check (job : Job) (cores sdram : Nat)

structure Stage where
  control : Control
  /-- The vertices left to take up. -/
  todo : List Task
  progress : Progress
  /-- The chips that each abandoned attempt at the vertex at hand was given. -/
  failed : List (List Coord) := []
  /-- The chips that the last attempt was given. -/
  given : List Coord := []

def Stage.initial (s : Setting) (start : Coord) : Stage where
  control := .next
  todo := s.tasks
  progress := ⟨.ofMachine s.machine start, .empty⟩

inductive Step (s : Setting) : Stage → Stage → Prop where
  /-- A vertex gets to see the chips of abandoned attempts again. -/
  | takeUp {stage : Stage} {task : Task} {todo : List Task} {groups : List ChipGroup}
      (hcontrol : stage.control = .next) (htodo : stage.todo = task :: todo)
      (hgroups : task.groups = .ok groups) :
      Step s stage {
        control := .attempt ⟨task.label, groups⟩
        todo
        progress := { stage.progress with pool := stage.progress.pool.restore } }
  /-- A vertex without groups needs no attempt. -/
  | pass {stage : Stage} {label : String} (hcontrol : stage.control = .attempt ⟨label, []⟩) :
      Step s stage { stage with control := .next }
  /-- An attempt begins on the chip at hand, or else on a fresh one. -/
  | start {stage : Stage} {job : Job} {frontier : Frontier} {p : Progress} {room : ChipRoom}
      (hcontrol : stage.control = .attempt job) (hgroups : job.groups ≠ [])
      (hstart : s.startPatch stage.progress = .ok (frontier, p))
      (hroom : p.pool.current? = some room) :
      Step s stage { stage with
        control := .place job { frontier } job.groups
        progress := p
        given := [room.chip] }
  | skip {stage : Stage} {job : Job} {patch : Patch} {group : ChipGroup} {left : List ChipGroup}
      (hcontrol : stage.control = .place job patch (group :: left))
      (hplaced : unplaced stage.progress.placements group = []) :
      Step s stage { stage with control := .place job patch left }
  /-- A group with a fixed location is placed at once. -/
  | fix {stage : Stage} {job : Job} {patch : Patch} {group : ChipGroup} {left : List ChipGroup}
      {first : MachineVertexId} {others : List MachineVertexId} {p : Progress}
      (hcontrol : stage.control = .place job patch (group :: left))
      (hvertices : unplaced stage.progress.placements group = first :: others)
      (hfixed : s.placeFixed first others group.sdram patch.pending stage.progress =
        .ok (true, p)) :
      Step s stage { stage with
        control := .place job patch left
        progress := p }
  /-- A free group is noted on the chip at hand. -/
  | give {stage : Stage} {job : Job} {frontier : Frontier} {pending made : List Placement}
      {from? : Option Coord} {group : ChipGroup} {left : List ChipGroup} {room rest : ChipRoom}
      (hcontrol : stage.control = .place job ⟨frontier, pending, from?⟩ (group :: left))
      (hloose : s.Loose stage.progress group) (hroom : HasRoomFor stage.progress group room)
      (hgive : Setting.giveCores room (unplaced stage.progress.placements group) =
        .ok (made, rest)) :
      Step s stage { stage with
        control := .place job ⟨frontier, pending ++ made, some room.chip⟩ left
        progress := { stage.progress with pool := { stage.progress.pool with
          current? := some (rest.useSdram group.sdram) } } }
  /-- Without enough room at hand the patch grows by a chip. -/
  | grow {stage : Stage} {job : Job} {frontier widened : Frontier} {pending : List Placement}
      {from? : Option Coord} {group : ChipGroup} {left : List ChipGroup} {p : Progress}
      {room : ChipRoom}
      (hcontrol : stage.control = .place job ⟨frontier, pending, from?⟩ (group :: left))
      (hloose : s.Loose stage.progress group)
      (hfull : ∀ room, ¬HasRoomFor stage.progress group room)
      (hgrow : s.grow frontier from? stage.progress = .ok (some widened, p))
      (hroom : p.pool.current? = some room) :
      Step s stage { stage with
        control := .place job ⟨widened, pending, none⟩ (group :: left)
        progress := p
        given := stage.given ++ [room.chip] }
  /-- An attempt that can not grow is abandoned. -/
  | abandon {stage : Stage} {job : Job} {patch : Patch} {group : ChipGroup}
      {left : List ChipGroup} {p : Progress}
      (hcontrol : stage.control = .place job patch (group :: left))
      (hloose : s.Loose stage.progress group)
      (hfull : ∀ room, ¬HasRoomFor stage.progress group room)
      (hgrow : s.grow patch.frontier patch.from? stage.progress = .ok (none, p)) :
      Step s stage { stage with
        control := .check job (unplaced stage.progress.placements group).length group.sdram
        progress := { p with pool := p.pool.abandon }
        failed := stage.failed ++ [stage.given]
        given := [] }
  | again {stage : Stage} {job : Job} {cores sdram : Nat}
      (hcontrol : stage.control = .check job cores sdram)
      (hfits : s.checkCouldFit job.label cores sdram = .ok ()) :
      Step s stage { stage with control := .attempt job }
  /-- What was noted is placed together at the end of an attempt. -/
  | commit {stage : Stage} {job : Job} {patch : Patch} {placements : Placements}
      (hcontrol : stage.control = .place job patch [])
      (hadd : stage.progress.placements.addAll patch.pending = .ok placements) :
      Step s stage { stage with
        control := .next
        progress := ⟨stage.progress.pool.finish, placements⟩ }

/-- Where a run stops, and why. -/
inductive Stops (s : Setting) (stage : Stage) : Cause → Prop where
  | takeUp {task : Task} {todo : List Task} {e : GraphError} (hcontrol : stage.control = .next)
      (htodo : stage.todo = task :: todo) (hgroups : task.groups = .error e) :
      Stops s stage (.graph e)
  | start {job : Job} {f : Failure} (hcontrol : stage.control = .attempt job)
      (hgroups : job.groups ≠ []) (hstart : s.startPatch stage.progress = .error f) :
      Stops s stage f.cause
  | fix {job : Job} {patch : Patch} {group : ChipGroup} {left : List ChipGroup}
      {first : MachineVertexId} {others : List MachineVertexId} {f : Failure}
      (hcontrol : stage.control = .place job patch (group :: left))
      (hvertices : unplaced stage.progress.placements group = first :: others)
      (hfixed : s.placeFixed first others group.sdram patch.pending stage.progress = .error f) :
      Stops s stage f.cause
  | give {job : Job} {patch : Patch} {group : ChipGroup} {left : List ChipGroup}
      {room : ChipRoom} {f : Failure}
      (hcontrol : stage.control = .place job patch (group :: left))
      (hloose : s.Loose stage.progress group) (hroom : HasRoomFor stage.progress group room)
      (hgive : Setting.giveCores room (unplaced stage.progress.placements group) = .error f) :
      Stops s stage f.cause
  | grow {job : Job} {patch : Patch} {group : ChipGroup} {left : List ChipGroup} {f : Failure}
      (hcontrol : stage.control = .place job patch (group :: left))
      (hloose : s.Loose stage.progress group)
      (hfull : ∀ room, ¬HasRoomFor stage.progress group room)
      (hgrow : s.grow patch.frontier patch.from? stage.progress = .error f) :
      Stops s stage f.cause
  | check {job : Job} {cores sdram : Nat} {e : PlaceError}
      (hcontrol : stage.control = .check job cores sdram)
      (hfits : s.checkCouldFit job.label cores sdram = .error e) :
      Stops s stage (.placing e)
  | commit {job : Job} {patch : Patch} {e : Layout.PlacementError}
      (hcontrol : stage.control = .place job patch [])
      (hadd : stage.progress.placements.addAll patch.pending = .error e) :
      Stops s stage (.placement e)

def Reached (s : Setting) (start : Coord) (stage : Stage) : Prop :=
  Relation.ReflTransGen (Step s) (.initial s start) stage

/-! ## What the operations do to the pool -/

section

variable {d : Mesh.MachineSpec} {s : Setting} {p p' : Progress} {placements : Placements}
  {frontier : Frontier} {from? : Option Coord} {room : ChipRoom} {c : Coord}

theorem roomOn_chip (hm : Machine.Fulfils d s.machine) (h : s.roomOn placements c = .ok room) :
    room.chip = c ∧ (s.machine.chip? c).isSome := by
  obtain ⟨chip, hchip, h⟩ := bind_eq_ok.1 h
  obtain ⟨memory, _, hroom⟩ := bind_eq_ok.1 (lift_eq_ok.1 h)
  have hchip := chip_eq_ok.1 (lift_eq_ok.1 hchip)
  cases pure_eq_ok.1 hroom
  exact ⟨hm.chip_coord hchip, by simp [hchip]⟩

theorem startPatch_cases (h : s.startPatch p = .ok (frontier, p')) :
    ∃ board room, frontier = { board } ∧ p'.placements = p.placements ∧
      p'.pool.current? = some room ∧
      p'.pool.handedOut = [room.chip] ∧
      ((p.pool.current? = some room ∧ p'.pool = p.pool.beginWith room) ∨
        ∃ chip pool, p.pool.current? = none ∧ p.pool.next? = (some chip, pool) ∧
          s.roomOn p.placements chip = .ok room ∧
          p'.pool = ({ pool with used := chip :: pool.used } : ChipPool).beginWith room) := by
  unfold Setting.startPatch at h
  obtain ⟨_, _, hget, h⟩ := runState_bind_eq_ok.1 h
  cases runState_get_eq_ok.1 hget
  cases hcurrent : p.pool.current? with
  | some room =>
      rw [hcurrent] at h
      obtain ⟨_, _, hpure, h⟩ := runState_bind_eq_ok.1 h
      cases runState_pure_eq_ok.1 hpure
      obtain ⟨_, _, hchip, h⟩ := runState_bind_eq_ok.1 h
      obtain ⟨_, _, hstate⟩ := runState_lift_eq_ok.1 hchip
      cases hstate
      obtain ⟨_, _, hmodify, hreturn⟩ := runState_bind_eq_ok.1 h
      cases runState_modify_eq_ok.1 hmodify
      cases runState_pure_eq_ok.1 hreturn
      exact ⟨_, room, rfl, rfl, rfl, rfl, Or.inl ⟨rfl, rfl⟩⟩
  | none =>
      rw [hcurrent] at h
      cases hnext : p.pool.next?.1 with
      | none =>
          simp only [hnext] at h
          cases h
      | some chip =>
          simp only [hnext] at h
          obtain ⟨_, _, hset, h⟩ := runState_bind_eq_ok.1 h
          cases runState_set_eq_ok.1 hset
          obtain ⟨room, _, hlift, h⟩ := runState_bind_eq_ok.1 h
          obtain ⟨_, hroom, hstate⟩ := runState_lift_eq_ok.1 hlift
          cases hstate
          obtain ⟨_, _, hchip, h⟩ := runState_bind_eq_ok.1 h
          obtain ⟨_, _, hstate⟩ := runState_lift_eq_ok.1 hchip
          cases hstate
          obtain ⟨_, _, hmodify, hreturn⟩ := runState_bind_eq_ok.1 h
          cases runState_modify_eq_ok.1 hmodify
          cases runState_pure_eq_ok.1 hreturn
          exact ⟨_, room, rfl, rfl, rfl, rfl,
            Or.inr ⟨chip, _, rfl, by rw [← hnext], hroom, rfl⟩⟩

def Setting.widened (s : Setting) (p : Progress) (frontier : Frontier) : Option Coord → Frontier
  | none => frontier
  | some chip => frontier.pushAll (p.pool.usableFrom s.machine chip)

theorem grow_cases {result : Option Frontier}
    (h : s.grow frontier from? p = .ok (result, p')) :
    (result = none ∧ p' = p) ∨ ∃ chip rest room, result = some rest ∧
      (s.widened p frontier from?).popUnused? s.machine p.pool.used
        ((s.widened p frontier from?).size + 1) = some (chip, rest) ∧
      s.roomOn p.placements chip = .ok room ∧ p' = { p with pool := p.pool.moveTo room } := by
  unfold Setting.grow at h
  obtain ⟨_, _, hget, h⟩ := runState_bind_eq_ok.1 h
  cases runState_get_eq_ok.1 hget
  generalize hpop : Frontier.popUnused? s.machine p.pool.used _ _ = popped at h
  have hwide : (s.widened p frontier from?).popUnused? s.machine p.pool.used
      ((s.widened p frontier from?).size + 1) = popped := hpop
  cases popped with
  | none =>
      cases runState_pure_eq_ok.1 h
      exact Or.inl ⟨rfl, rfl⟩
  | some next =>
      obtain ⟨chip, rest⟩ := next
      obtain ⟨room, _, hlift, h⟩ := runState_bind_eq_ok.1 h
      obtain ⟨_, hroom, hstate⟩ := runState_lift_eq_ok.1 hlift
      cases hstate
      obtain ⟨_, _, hset, hreturn⟩ := runState_bind_eq_ok.1 h
      cases runState_set_eq_ok.1 hset
      cases runState_pure_eq_ok.1 hreturn
      exact Or.inr ⟨chip, rest, room, rfl, hwide, hroom, rfl⟩

theorem findRoom_succ (s : Setting) (cores sdram fuel : Nat) (frontier : Frontier)
    (from? : Option Coord) (p : Progress) :
    (∃ room, p.pool.current? = some room ∧ room.hasSpace cores sdram = true ∧
      s.findRoom cores sdram (fuel + 1) frontier from? p = .ok (some (room, frontier), p)) ∨
    ((∀ room, p.pool.current? = some room → room.hasSpace cores sdram = false) ∧
      s.findRoom cores sdram (fuel + 1) frontier from? p = (s.grow frontier from? >>= fun
        | none => pure none
        | some rest => s.findRoom cores sdram fuel rest none) p) := by
  rw [Setting.findRoom, runState_get_bind]
  cases p.pool.current? with
  | none => exact Or.inr ⟨by simp, rfl⟩
  | some room =>
      by_cases hspace : room.hasSpace cores sdram = true
      · simp only [hspace, if_true]
        exact Or.inl ⟨room, rfl, hspace, rfl⟩
      · simp only [hspace]
        exact Or.inr ⟨by simpa using hspace, rfl⟩

/-- A group with a fixed location is placed on the chip of that location and takes from the chip at
hand at most; a free one changes nothing. -/
theorem placeFixed_cases {first : MachineVertexId} {others : List MachineVertexId} {sdram : Nat}
    {pending : List Placement} {fixed : Bool}
    (h : s.placeFixed first others sdram pending p = .ok (fixed, p')) :
    (fixed = true ∧ ∃ chip made placements, s.fixedChip? (first :: others) = .ok (some chip) ∧
        s.placeOn p.placements chip first others sdram pending = .ok made ∧
        p.placements.addAll made = .ok placements ∧
        p' = ⟨Setting.takeFromCurrent p.pool chip made sdram, placements⟩) ∨
      (fixed = false ∧ s.fixedChip? (first :: others) = .ok none ∧ p' = p) := by
  unfold Setting.placeFixed at h
  obtain ⟨fixed?, _, hlift, h⟩ := runState_bind_eq_ok.1 h
  obtain ⟨_, hfixed, hstate⟩ := runState_lift_eq_ok.1 hlift
  cases hstate
  cases fixed? with
  | none =>
      cases runState_pure_eq_ok.1 h
      exact Or.inr ⟨rfl, hfixed, rfl⟩
  | some chip =>
      obtain ⟨_, _, hget, h⟩ := runState_bind_eq_ok.1 h
      cases runState_get_eq_ok.1 hget
      obtain ⟨made, _, hlift, h⟩ := runState_bind_eq_ok.1 h
      obtain ⟨_, hmade, hstate⟩ := runState_lift_eq_ok.1 hlift
      cases hstate
      obtain ⟨placements, _, hlift, h⟩ := runState_bind_eq_ok.1 h
      obtain ⟨_, hadd, hstate⟩ := runState_lift_eq_ok.1 hlift
      cases hstate
      obtain ⟨_, _, hset, hreturn⟩ := runState_bind_eq_ok.1 h
      cases runState_set_eq_ok.1 hset
      cases runState_pure_eq_ok.1 hreturn
      exact Or.inl ⟨rfl, chip, made, placements, hfixed, hmade, lift_eq_ok.1 hadd, rfl⟩

/-- A group placed on a chip leaves the chip at hand in its place. -/
theorem takeFromCurrent_chip (pool : ChipPool) (chip : Coord) (made : List Placement)
    (sdram : Nat) : ∀ r, (Setting.takeFromCurrent pool chip made sdram).current? = some r →
      ∃ r', pool.current? = some r' ∧ r'.chip = r.chip := by
  intro r hr
  obtain ⟨r', hr', rfl⟩ := Option.map_eq_some_iff.1 hr
  refine ⟨r', hr', ?_⟩
  split
  · exact (useCores_spec r' _).1.symm
  · rfl

theorem roomOn_error {f : Failure} (h : s.roomOn placements c = .error f) (e : PlaceError) :
    f.cause ≠ .placing e := by
  rcases bind_eq_error.1 h with hchip | ⟨chip, _, hroom⟩
  · obtain ⟨_, _, rfl⟩ := lift_eq_error.1 hchip
    simp
  · obtain ⟨_, _, rfl⟩ := lift_eq_error.1 hroom
    simp

/-- No chip is found for an attempt only when the pool has none to hand out. -/
theorem startPatch_noMoreChips {f : Failure} {e : PlaceError} (h : s.startPatch p = .error f)
    (hcause : f.cause = .placing e) :
    p.pool.current? = none ∧ p.pool.next?.1 = none ∧ f = s.noMoreChips p := by
  have hmachine : ∀ (room : ChipRoom) (q : Progress), ((do
      let chip ← s.machine.chip room.chip
      modify fun p => { p with pool := p.pool.beginWith room }
      return { board := chip.ethernet }) : Search Frontier) q ≠ .error f := by
    rintro room q hlater
    rcases runState_bind_eq_error.1 hlater with hchip | ⟨_, _, _, hlater⟩
    · obtain ⟨_, _, rfl⟩ := lift_eq_error.1 (runState_lift_eq_error.1 hchip)
      cases hcause
    · cases hlater
  unfold Setting.startPatch at h
  rcases runState_bind_eq_error.1 h with hget | ⟨_, _, hget, h⟩
  · cases hget
  cases runState_get_eq_ok.1 hget
  cases hcurrent : p.pool.current? with
  | some room =>
      rw [hcurrent] at h
      exact absurd h (hmachine room p)
  | none =>
      rw [hcurrent] at h
      cases hnext : p.pool.next?.1 with
      | none =>
          simp only [hnext] at h
          cases h
          exact ⟨rfl, rfl, rfl⟩
      | some chip =>
          simp only [hnext] at h
          rcases runState_bind_eq_error.1 h with hset | ⟨_, _, _, h⟩
          · cases hset
          rcases runState_bind_eq_error.1 h with hroom | ⟨room, _, _, h⟩
          · exact absurd hcause (roomOn_error (runState_lift_eq_error.1 hroom) e)
          · exact absurd h (hmachine room _)

end

end MulticastMesh.Placing
