import Mathlib.Data.Prod.Lex
import MulticastMesh.Proofs.Placing.Frontiers
import MulticastMesh.Proofs.Placing.Returns
/-!
# The search ends

No run of the search goes on for ever.  The loops of the search are stated here without the bounds
that it carries and with the number of their rounds instead: attempts at a vertex, moves to another
chip within an attempt, and pops of the frontier within a move.  A vertex takes at most one attempt
more than the machine has chips, an attempt moves at most as often as it has chips, and a move pops
no more than was queued, so the bounds are never met.
-/

namespace MulticastMesh.Placing

open MulticastMesh.Graph (MachineVertexId)
open Mesh (Coord Machine)
open Layout (Placement Placements)
open Slicing (ChipGroup)
open Outcome

/-! ## Loops without bounds -/

/-- Pops of a frontier until a chip comes out that is not in use. -/
inductive Pops (m : Machine) (used : List Coord) :
    Nat → Frontier → Option (Coord × Frontier) → Prop where
  | empty {f : Frontier} (hpop : f.pop? m = none) : Pops m used 1 f none
  | unused {f f' : Frontier} {chip : Coord} (hpop : f.pop? m = some (chip, f'))
      (hfree : chip ∉ used) : Pops m used 1 f (some (chip, f'))
  | again {f f' : Frontier} {chip : Coord} {n : Nat} {result : Option (Coord × Frontier)}
      (hpop : f.pop? m = some (chip, f')) (hused : chip ∈ used)
      (hrest : Pops m used n f' result) : Pops m used (n + 1) f result

/-- Moves to another chip until there is room for a group. -/
inductive Moves (s : Setting) (cores sdram : Nat) : Nat → Frontier → Option Coord → Progress →
    Outcome (Option (ChipRoom × Frontier) × Progress) → Prop where
  | found {f : Frontier} {from? : Option Coord} {p : Progress} {room : ChipRoom}
      (hroom : p.pool.current? = some room) (hspace : room.hasSpace cores sdram = true) :
      Moves s cores sdram 0 f from? p (.ok (some (room, f), p))
  | exceeded {f : Frontier} {from? : Option Coord} {p p' : Progress}
      (hfull : ∀ room, p.pool.current? = some room → room.hasSpace cores sdram = false)
      (hgrow : s.grow f from? p = .ok (none, p')) :
      Moves s cores sdram 0 f from? p (.ok (none, p'))
  | failed {f : Frontier} {from? : Option Coord} {p : Progress} {e : Failure}
      (hfull : ∀ room, p.pool.current? = some room → room.hasSpace cores sdram = false)
      (hgrow : s.grow f from? p = .error e) : Moves s cores sdram 0 f from? p (.error e)
  | moved {f widened : Frontier} {from? : Option Coord} {p p' : Progress} {n : Nat}
      {result : Outcome (Option (ChipRoom × Frontier) × Progress)}
      (hfull : ∀ room, p.pool.current? = some room → room.hasSpace cores sdram = false)
      (hgrow : s.grow f from? p = .ok (some widened, p'))
      (hrest : Moves s cores sdram n widened none p' result) :
      Moves s cores sdram (n + 1) f from? p result

/-- Attempts at a vertex until one settles how its placing ends. -/
inductive Tries (s : Setting) (label : String) (groups : List ChipGroup) :
    Nat → Progress → Outcome (Unit × Progress) → Prop where
  | placed {p p' : Progress} (hattempt : s.attempt groups p = .ok (.placed, p')) :
      Tries s label groups 1 p (.ok ((), p'))
  | failed {p : Progress} {e : Failure} (hattempt : s.attempt groups p = .error e) :
      Tries s label groups 1 p (.error e)
  | tooBig {p p' : Progress} {cores sdram : Nat} {e : PlaceError}
      (hattempt : s.attempt groups p = .ok (.abandoned cores sdram, p'))
      (hfits : s.checkCouldFit label cores sdram = .error e) :
      Tries s label groups 1 p (.error ⟨[], .placing e⟩)
  | again {p p' : Progress} {cores sdram n : Nat} {result : Outcome (Unit × Progress)}
      (hattempt : s.attempt groups p = .ok (.abandoned cores sdram, p'))
      (hfits : s.checkCouldFit label cores sdram = .ok ())
      (hrest : Tries s label groups n p' result) :
      Tries s label groups (n + 1) p result

/-! ## How many rounds they take -/

/-- A frontier is popped at most once more than it has chips. -/
theorem popUnused?_pops (m : Machine) (used : List Coord) {fuel : Nat} {f : Frontier}
    (hfuel : f.size < fuel) :
    ∃ n, n ≤ f.size + 1 ∧ Pops m used n f (f.popUnused? m used fuel) := by
  induction fuel generalizing f with
  | zero => exact absurd hfuel (Nat.not_lt_zero _)
  | succ fuel ih =>
      unfold Frontier.popUnused?
      cases hpop : f.pop? m with
      | none => exact ⟨1, by omega, .empty hpop⟩
      | some next =>
          obtain ⟨chip, f'⟩ := next
          by_cases hused : chip ∈ used
          · have hsize : f.size = f'.size + 1 := by
              rw [Frontier.size_eq, Frontier.size_eq, (Frontier.perm_of_pop? hpop).length_eq,
                List.length_cons]
            obtain ⟨n, hn, hpops⟩ := ih (f := f') (by omega)
            simp only [List.contains_iff_mem, hused, if_true]
            exact ⟨n + 1, by omega, .again hpop hused hpops⟩
          · simp only [List.contains_iff_mem, hused, if_false]
            exact ⟨1, by omega, .unused hpop hused⟩

section

variable {d : Mesh.MachineSpec} {s : Setting} {start : Coord} {p : Progress} {job : Job}
  {frontier : Frontier} {pending : List Placement} {from? : Option Coord} {group : ChipGroup}
  {left : List ChipGroup} {todo : List Task} {failed : List (List Coord)} {fuel : Nat}

theorem Passes.length_used_le {control : Control} (hm : Machine.Fulfils d s.machine)
    (h : Passes s start control todo p failed) :
    p.pool.used.length ≤ s.machine.chipCount := by
  obtain ⟨given, hreached⟩ := h
  exact (Orderly.of_reached hm hreached).length_used_le hm

theorem Passes.length_failed_le {control : Control} (hm : Machine.Fulfils d s.machine)
    (h : Passes s start control todo p failed) : failed.length ≤ s.machine.chipCount := by
  obtain ⟨given, hreached⟩ := h
  exact (Orderly.of_reached hm hreached).length_failed_le hm

/-- An attempt moves no more often than chips are left that are not in use: induction over the
bound, which exceeds that number. -/
theorem findRoom_moves (hm : Machine.Fulfils d s.machine)
    (h : Passes s start (.place job ⟨frontier, pending, from?⟩ (group :: left)) todo p failed)
    (hloose : s.Loose p group) (hfuel : s.machine.chipCount < p.pool.used.length + fuel) :
    ∃ n, n + p.pool.used.length ≤ s.machine.chipCount ∧
      Moves s (unplaced p.placements group).length group.sdram n frontier from? p
        (s.findRoom (unplaced p.placements group).length group.sdram fuel frontier from? p) := by
  have hused := h.length_used_le hm
  induction fuel generalizing p frontier from? with
  | zero => omega
  | succ fuel ih =>
      rcases findRoom_succ s (unplaced p.placements group).length group.sdram fuel frontier from? p
        with ⟨room, hcurrent, hspace, hrun⟩ | ⟨hfull, hrun⟩
      · rw [hrun]
        exact ⟨0, by omega, .found hcurrent hspace⟩
      · rw [hrun]
        change ∃ n, _ ∧ Moves s _ _ n frontier from? p (s.grow frontier from? p >>= fun r => _)
        cases hgrown : s.grow frontier from? p with
        | error e => exact ⟨0, by omega, .failed hfull hgrown⟩
        | ok grown =>
            obtain ⟨widened?, p'⟩ := grown
            obtain ⟨rfl, rfl⟩ | ⟨chip, widened, room, rfl, _, _, rfl⟩ := grow_cases hgrown
            · exact ⟨0, by omega, .exceeded hfull hgrown⟩
            · have hpasses : Passes s start
                  (.place job ⟨widened, pending, none⟩ (group :: left)) todo
                  { p with pool := p.pool.moveTo room } failed :=
                h.step fun given => ⟨_, .grow rfl hloose (not_hasRoomFor hfull) hgrown rfl⟩
              obtain ⟨n, hn, hmoves⟩ := ih hpasses hloose
                (by simp only [ChipPool.moveTo, List.length_cons]; omega)
                (hpasses.length_used_le hm)
              refine ⟨n + 1, ?_, .moved hfull hgrown hmoves⟩
              simp only [ChipPool.moveTo, List.length_cons] at hn
              omega

/-- Abandoned attempts were all given chips of their own, so there are not more of them than chips:
induction over the bound, which exceeds the number of attempts that can still be made. -/
theorem retry_tries (hm : Machine.Fulfils d s.machine)
    (h : Passes s start (.attempt job) todo p failed)
    (hfuel : s.machine.chipCount < failed.length + fuel) :
    ∃ n, n + failed.length ≤ s.machine.chipCount + 1 ∧
      Tries s job.label job.groups n p (s.retry job.label job.groups fuel p) := by
  have hfailed := h.length_failed_le hm
  induction fuel generalizing p failed with
  | zero => omega
  | succ fuel ih =>
      unfold Setting.retry
      change ∃ n, _ ∧ Tries s _ _ n p (s.attempt job.groups p >>= fun r => _)
      cases hattempt : s.attempt job.groups p with
      | error e => exact ⟨1, by omega, .failed hattempt⟩
      | ok ended =>
          obtain ⟨result, p'⟩ := ended
          rw [ok_bind]
          cases result with
          | placed => exact ⟨1, by omega, .placed hattempt⟩
          | abandoned cores sdram =>
              cases hfits : s.checkCouldFit job.label cores sdram with
              | error e =>
                  refine ⟨1, by omega, ?_⟩
                  simp only [hfits]
                  exact .tooBig hattempt hfits
              | ok _ =>
                  obtain ⟨given, hagain⟩ := h.again hm hattempt hfits
                  have hlength : (failed ++ [given]).length = failed.length + 1 := by simp
                  obtain ⟨n, hn, htries⟩ := ih hagain (by omega) (hagain.length_failed_le hm)
                  refine ⟨n + 1, by omega, ?_⟩
                  simp only [hfits]
                  exact .again hattempt hfits htries

end

/-! ## Where a run can end -/

theorem stops_or_steps_of_loose {s : Setting} {stage : Stage} {job : Job} {frontier : Frontier}
    {pending : List Placement} {from? : Option Coord} {group : ChipGroup} {left : List ChipGroup}
    (hcontrol : stage.control = .place job ⟨frontier, pending, from?⟩ (group :: left))
    (hloose : s.Loose stage.progress group) :
    (∃ cause, Stops s stage cause) ∨ ∃ stage', Step s stage stage' := by
  by_cases hspace : ∃ room, HasRoomFor stage.progress group room
  · obtain ⟨room, hroom⟩ := hspace
    cases hgive : Setting.giveCores room (unplaced stage.progress.placements group) with
    | error f => exact Or.inl ⟨_, .give hcontrol hloose hroom hgive⟩
    | ok given => exact Or.inr ⟨_, .give hcontrol hloose hroom hgive⟩
  · have hfull := not_exists.1 hspace
    cases hgrow : s.grow frontier from? stage.progress with
    | error f => exact Or.inl ⟨_, .grow hcontrol hloose hfull hgrow⟩
    | ok grown =>
        obtain ⟨widened?, p⟩ := grown
        obtain ⟨rfl, _⟩ | ⟨chip, widened, room, rfl, _, _, rfl⟩ := grow_cases hgrow
        · exact Or.inr ⟨_, .abandon hcontrol hloose hfull hgrow⟩
        · exact Or.inr ⟨_, .grow hcontrol hloose hfull hgrow rfl⟩

theorem over_or_stops_or_steps (s : Setting) (stage : Stage) :
    (stage.control = .next ∧ stage.todo = []) ∨ (∃ cause, Stops s stage cause) ∨
      ∃ stage', Step s stage stage' := by
  cases hcontrol : stage.control with
  | next =>
      cases htodo : stage.todo with
      | nil => exact Or.inl ⟨rfl, rfl⟩
      | cons task todo =>
          right
          cases hgroups : task.groups with
          | error e => exact Or.inl ⟨_, .takeUp hcontrol htodo hgroups⟩
          | ok groups => exact Or.inr ⟨_, .takeUp hcontrol htodo hgroups⟩
  | attempt job =>
      right
      obtain ⟨label, groups⟩ := job
      by_cases hgroups : groups = []
      · subst hgroups
        exact Or.inr ⟨_, .pass hcontrol⟩
      · cases hstart : s.startPatch stage.progress with
        | error f => exact Or.inl ⟨_, .start hcontrol hgroups hstart⟩
        | ok started =>
            obtain ⟨_, room, _, _, hroom, _⟩ := startPatch_cases hstart
            exact Or.inr ⟨_, .start hcontrol hgroups hstart hroom⟩
  | place job patch left =>
      right
      obtain ⟨frontier, pending, from?⟩ := patch
      cases left with
      | nil =>
          cases hadd : stage.progress.placements.addAll pending with
          | error e => exact Or.inl ⟨_, .commit hcontrol hadd⟩
          | ok placements => exact Or.inr ⟨_, .commit hcontrol hadd⟩
      | cons group left =>
          cases hvertices : unplaced stage.progress.placements group with
          | nil => exact Or.inr ⟨_, .skip hcontrol hvertices⟩
          | cons first others =>
              cases hfixed : s.placeFixed first others group.sdram pending stage.progress with
              | error f => exact Or.inl ⟨_, .fix hcontrol hvertices hfixed⟩
              | ok result =>
                  obtain ⟨fixed, p⟩ := result
                  obtain ⟨rfl, _⟩ | ⟨rfl, hnone, rfl⟩ := placeFixed_cases hfixed
                  · exact Or.inr ⟨_, .fix hcontrol hvertices hfixed⟩
                  · exact stops_or_steps_of_loose hcontrol
                      ⟨by simp [hvertices], hvertices ▸ hnone⟩
  | check job cores sdram =>
      right
      cases hfits : s.checkCouldFit job.label cores sdram with
      | error e => exact Or.inl ⟨_, .check hcontrol hfits⟩
      | ok _ => exact Or.inr ⟨_, .again hcontrol hfits⟩

/-- How far a control is from the end of its vertex, attempts that fail apart. -/
def Control.height : Control → ℕ
  | .next => 0
  | .attempt job => job.groups.length + 2
  | .place _ _ left => left.length + 1
  | .check job _ _ => job.groups.length + 3

/-- What a run has ahead of it: vertices to take up, attempts that can still fail, steps of the
attempt under way, and chips to grow to. -/
def Stage.ahead (s : Setting) (stage : Stage) : ℕ ×ₗ ℕ ×ₗ ℕ ×ₗ ℕ :=
  toLex (stage.todo.length, toLex (s.machine.chipCount - stage.failed.length,
    toLex (stage.control.height, s.machine.chipCount - stage.progress.pool.used.length)))

section

variable {d : Mesh.MachineSpec} {s : Setting} {start : Coord} {stage stage' : Stage}

/-- Each step has less ahead of it: one case for each kind of step. -/
theorem ahead_lt (hm : Machine.Fulfils d s.machine) (h : Reached s start stage)
    (hstep : Step s stage stage') : stage'.ahead s < stage.ahead s := by
  have hnext : Orderly s start stage' := Orderly.of_reached hm (h.tail hstep)
  have hused := hnext.length_used_le hm
  have hfailed := hnext.length_failed_le hm
  simp only [Stage.ahead, Prod.Lex.toLex_lt_toLex]
  cases hstep with
  | takeUp hcontrol htodo hgroups => simp [htodo]
  | pass hcontrol => simp [hcontrol, Control.height]
  | start hcontrol hgroups hstart hroom => simp [hcontrol, Control.height]
  | skip hcontrol hplaced => simp [hcontrol, Control.height]
  | fix hcontrol hvertices hfixed => simp [hcontrol, Control.height]
  | give hcontrol hloose hroom hgive => simp [hcontrol, Control.height]
  | grow hcontrol hloose hfull hgrow hroom =>
      obtain ⟨hnone, _⟩ | ⟨chip, rest, room, _, _, _, rfl⟩ := grow_cases hgrow
      · cases hnone
      simp only [ChipPool.moveTo, List.length_cons] at hused ⊢
      simp only [hcontrol, Control.height, true_and, lt_self_iff_false, false_or]
      omega
  | abandon hcontrol hloose hfull hgrow =>
      simp only [List.length_append, List.length_singleton] at hfailed ⊢
      simp only [true_and, lt_self_iff_false, false_or]
      left
      omega
  | again hcontrol hfits => simp [hcontrol, Control.height]
  | commit hcontrol hadd => simp [hcontrol, Control.height]

/-- No run goes on for ever: induction over what it has ahead of it. -/
theorem acc_of_reached (hm : Machine.Fulfils d s.machine) (h : Reached s start stage) :
    Acc (fun next stage => Step s stage next) stage := by
  induction hahead : stage.ahead s using WellFoundedLT.induction generalizing stage with
  | ind ahead ih =>
      refine Acc.intro stage fun next hstep => ?_
      exact ih _ (hahead ▸ ahead_lt hm h hstep) (h.tail hstep) rfl

end

/-! ## No bound is ever met -/

/-- A cause other than a bound that was met. -/
def NotStuck (cause : Cause) : Prop := cause ≠ .placing .searchStuck

def NotExhausted (cause : Cause) : Prop :=
  ∀ used total report, cause ≠ .placing (.noMoreChips used total report)

def Immediate (cause : Cause) : Prop := NotStuck cause ∧ NotExhausted cause

section

variable {s : Setting} {p : Progress} {room : ChipRoom} {c : Coord} {first : MachineVertexId}
  {others vertices : List MachineVertexId} {pending : List Placement} {occupants : List String}
  {sdram : Nat}

theorem vertex_immediate (v : MachineVertexId) :
    FailsOnly Immediate (liftM (s.graph.vertex v) : Outcome Graph.MachineVertex) :=
  FailsOnly.lift fun e _ => by simp [Immediate, NotStuck, NotExhausted]

theorem label_immediate (v : MachineVertexId) : FailsOnly Immediate (s.label v) :=
  (vertex_immediate v).bind fun _ _ => FailsOnly.pure _

theorem roomOn_immediate (placements : Placements) : FailsOnly Immediate (s.roomOn placements c) :=
  fun _ hf => ⟨roomOn_error hf _, fun _ _ _ => roomOn_error hf _⟩

theorem fixedChip?_immediate : FailsOnly Immediate (s.fixedChip? vertices) := by
  induction vertices with
  | nil => exact FailsOnly.ok none
  | cons v rest ih =>
      unfold Setting.fixedChip?
      refine (vertex_immediate v).bind fun w _ => ?_
      cases w.location? with
      | some location => exact FailsOnly.pure _
      | none => exact ih

theorem giveCores_immediate : FailsOnly Immediate (Setting.giveCores room vertices) := by
  induction vertices generalizing room with
  | nil => exact FailsOnly.ok _
  | cons v rest ih =>
      unfold Setting.giveCores
      cases room.nextCore? with
      | none => exact FailsOnly.error (by simp [Immediate, NotStuck, NotExhausted])
      | some taken => exact ih.bind fun _ _ => FailsOnly.pure _

theorem giveFixedCores_immediate :
    FailsOnly Immediate (s.giveFixedCores room occupants vertices) := by
  induction vertices generalizing room occupants with
  | nil => exact FailsOnly.ok _
  | cons v rest ih =>
      unfold Setting.giveFixedCores
      refine (vertex_immediate v).bind fun w _ => ?_
      simp only
      split
      · split
        · exact ih.bind fun _ _ => FailsOnly.pure _
        · exact FailsOnly.error (by simp [Immediate, NotStuck, NotExhausted])
      · split
        · exact ih.bind fun _ _ => FailsOnly.pure _
        · exact FailsOnly.error (by simp [Immediate, NotStuck, NotExhausted])

theorem takePending_immediate : FailsOnly Immediate (s.takePending room pending) := by
  induction pending generalizing room with
  | nil => exact FailsOnly.ok _
  | cons q rest ih =>
      unfold Setting.takePending
      split
      · exact (vertex_immediate _).bind fun _ _ => ih.bind fun _ _ => FailsOnly.pure _
      · exact ih

theorem placeOn_immediate (placements : Placements) :
    FailsOnly Immediate (s.placeOn placements c first others sdram pending) := by
  have hrefuse : ∀ obstacle labels, FailsOnly Immediate (do
      let label ← s.label first
      throw ⟨[], .placing (.configuration label c labels obstacle)⟩ :
        Outcome (List Placement)) :=
    fun _ _ => (label_immediate first).bind fun _ _ =>
      FailsOnly.error (by simp [Immediate, NotStuck, NotExhausted])
  unfold Setting.placeOn
  simp only
  split
  · exact hrefuse _ _
  refine (roomOn_immediate placements).bind fun room _ => ?_
  refine (FailsOnly.mapM fun q _ => label_immediate q.vertex).bind fun residents _ => ?_
  refine takePending_immediate.bind fun taken _ => ?_
  split
  · exact hrefuse _ _
  · exact giveFixedCores_immediate

theorem placeFixed_immediate :
    FailsOnly Immediate (s.placeFixed first others sdram pending p) := by
  intro f hf
  unfold Setting.placeFixed at hf
  rcases runState_bind_eq_error.1 hf with hfixed | ⟨fixed?, p', _, hf⟩
  · exact fixedChip?_immediate _ (runState_lift_eq_error.1 hfixed)
  cases fixed? with
  | none => cases hf
  | some c =>
      rcases runState_bind_eq_error.1 hf with hget | ⟨q, _, _, hf⟩
      · cases hget
      rcases runState_bind_eq_error.1 hf with hmade | ⟨made, _, _, hf⟩
      · exact placeOn_immediate _ _ (runState_lift_eq_error.1 hmade)
      rcases runState_bind_eq_error.1 hf with hadd | ⟨placements, _, _, hf⟩
      · obtain ⟨e, _, rfl⟩ := lift_eq_error.1 (runState_lift_eq_error.1 hadd)
        simp [Immediate, NotStuck, NotExhausted]
      · cases hf

theorem startPatch_notStuck : FailsOnly NotStuck (s.startPatch p) := by
  intro f hf hcause
  obtain ⟨_, _, rfl⟩ := startPatch_noMoreChips hf hcause
  cases hcause

theorem grow_immediate {frontier : Frontier} {from? : Option Coord} :
    FailsOnly Immediate (s.grow frontier from? p) := by
  intro f hf
  unfold Setting.grow at hf
  rcases runState_bind_eq_error.1 hf with hget | ⟨_, _, hget, hf⟩
  · cases hget
  cases runState_get_eq_ok.1 hget
  generalize Frontier.popUnused? s.machine p.pool.used _ _ = popped at hf
  cases popped with
  | none => cases hf
  | some next =>
      rcases runState_bind_eq_error.1 hf with hroom | ⟨_, _, _, hf⟩
      · exact roomOn_immediate _ _ (runState_lift_eq_error.1 hroom)
      · cases hf

theorem Stops.notStuck {stage : Stage} {cause : Cause} (h : Stops s stage cause) :
    NotStuck cause := by
  cases h with
  | takeUp hcontrol htodo hgroups => simp [NotStuck]
  | start hcontrol hgroups hstart => exact startPatch_notStuck _ hstart
  | fix hcontrol hvertices hfixed => exact (placeFixed_immediate _ hfixed).1
  | give hcontrol hloose hroom hgive => exact (giveCores_immediate _ hgive).1
  | grow hcontrol hloose hfull hgrow => exact (grow_immediate _ hgrow).1
  | check hcontrol hfits =>
      unfold Setting.checkCouldFit at hfits
      simp only at hfits
      split at hfits
      · cases hfits
      · cases hfits
        simp [NotStuck]
  | commit hcontrol hadd => simp [NotStuck]

end

/-! ## The whole search -/

/-- The runs of a search are finite, and the search returns what they come to: its loops take as
many rounds as they need, which are never more than their bounds allow. -/
structure SearchEnds (s : Setting) (start : Coord) : Prop where
  finite : Acc (fun next stage => Step s stage next) (.initial s start)
  goesOn : ∀ stage, Reached s start stage → (stage.control = .next ∧ stage.todo = []) ∨
    (∃ cause, Stops s stage cause) ∨ ∃ stage', Step s stage stage'
  /-- A vertex takes at most one attempt more than there are working chips. -/
  attempts : ∀ stage task todo groups, Reached s start stage → stage.control = .next →
    stage.todo = task :: todo → task.groups = .ok groups →
    ∃ n result, n ≤ s.machine.chipCount + 1 ∧
      Tries s task.label groups n
        { stage.progress with pool := stage.progress.pool.restore } result ∧
      s.placeGroups task.label groups stage.progress =
        during (.placingVertex task.label) result
  /-- Room for a group is found, or found to be missing, after as many moves as there are chips. -/
  moves : ∀ stage job patch group left, Reached s start stage →
    stage.control = .place job patch (group :: left) → s.Loose stage.progress group →
    ∃ n, n ≤ s.machine.chipCount ∧
      Moves s (unplaced stage.progress.placements group).length group.sdram n patch.frontier
        patch.from? stage.progress
        (s.findRoom (unplaced stage.progress.placements group).length group.sdram
          (s.machine.chipCount + 1) patch.frontier patch.from? stage.progress)
  /-- A move pops every queued chip at most once. -/
  pops : ∀ used (f : Frontier), ∃ n, n ≤ f.size + 1 ∧
    Pops s.machine used n f (f.popUnused? s.machine used (f.size + 1))
  /-- There are placements once all vertices are taken up, or the failure that a run stops for. -/
  returns : (∃ placements, placeGraph s.app s.graph s.machine s.config = .ok placements ∧
      ∃ stage, Reached s start stage ∧ stage.control = .next ∧ stage.todo = [] ∧
        stage.progress.placements = placements) ∨
    ∃ f, placeGraph s.app s.graph s.machine s.config = .error f ∧
      ∃ stage, Reached s start stage ∧ Stops s stage f.cause

section

variable {d : Mesh.MachineSpec} {s : Setting} {start : Coord}

theorem placeGroups_tries (hm : Machine.Fulfils d s.machine) {stage : Stage} {task : Task}
    {todo : List Task} {groups : List ChipGroup} (h : Reached s start stage)
    (hcontrol : stage.control = .next) (htodo : stage.todo = task :: todo)
    (hgroups : task.groups = .ok groups) :
    ∃ n result, n ≤ s.machine.chipCount + 1 ∧
      Tries s task.label groups n
        { stage.progress with pool := stage.progress.pool.restore } result ∧
      s.placeGroups task.label groups stage.progress =
        during (.placingVertex task.label) result := by
  have hattempt : Passes s start (.attempt ⟨task.label, groups⟩) todo
      { stage.progress with pool := stage.progress.pool.restore } [] :=
    ⟨[], h.tail (.takeUp hcontrol htodo hgroups)⟩
  obtain ⟨n, hn, htries⟩ := retry_tries hm hattempt
    (show _ < _ + (s.machine.chipCount + 2) by omega)
  exact ⟨n, _, hn, htries, rfl⟩

theorem findRoom_moves_of_reached (hm : Machine.Fulfils d s.machine) {stage : Stage} {job : Job}
    {patch : Patch} {group : ChipGroup} {left : List ChipGroup} (h : Reached s start stage)
    (hcontrol : stage.control = .place job patch (group :: left))
    (hloose : s.Loose stage.progress group) :
    ∃ n, n ≤ s.machine.chipCount ∧
      Moves s (unplaced stage.progress.placements group).length group.sdram n patch.frontier
        patch.from? stage.progress
        (s.findRoom (unplaced stage.progress.placements group).length group.sdram
          (s.machine.chipCount + 1) patch.frontier patch.from? stage.progress) := by
  obtain ⟨control, todo, p, failed, given⟩ := stage
  cases hcontrol
  obtain ⟨n, hn, hmoves⟩ := findRoom_moves hm ⟨given, h⟩ hloose
    (show _ < _ + (s.machine.chipCount + 1) by omega)
  exact ⟨n, by omega, hmoves⟩

theorem searchEnds (hm : Machine.Fulfils d s.machine) (hstart : s.start = .ok start) :
    SearchEnds s start where
  finite := acc_of_reached hm .refl
  goesOn := fun stage _ => over_or_stops_or_steps s stage
  attempts := fun _ _ _ _ => placeGroups_tries hm
  moves := fun _ _ _ _ _ => findRoom_moves_of_reached hm
  pops := fun used f => popUnused?_pops s.machine used (Nat.lt_succ_self f.size)
  returns := by
    obtain ⟨hsucceeds, hfails⟩ := placeGraph_follows hm hstart
    cases hplaced : placeGraph s.app s.graph s.machine s.config with
    | ok placements => exact Or.inl ⟨placements, rfl, hsucceeds placements hplaced⟩
    | error f => exact Or.inr ⟨f, rfl, hfails f hplaced⟩

theorem start_immediate {e : PlaceError} (h : s.start = .error e) : Immediate (.placing e) := by
  have hinside : ∀ start : Coord, (if start.x < s.machine.width ∧ start.y < s.machine.height then
      pure start else throw (.startOutside start s.machine.width s.machine.height) :
      Except PlaceError Coord) = .error e → Immediate (.placing e) := by
    intro start hthrow
    split at hthrow
    · cases hthrow
    · cases hthrow
      simp [Immediate, NotStuck, NotExhausted]
  unfold Setting.start at h
  cases hgiven : s.config.start? with
  | some start =>
      rw [hgiven] at h
      exact hinside start h
  | none =>
      rw [hgiven] at h
      cases hchips : s.machine.ethernetChips with
      | nil =>
          simp only [hchips] at h
          cases h
          simp [Immediate, NotStuck, NotExhausted]
      | cons chip chips =>
          simp only [hchips] at h
          exact hinside chip.coord h

theorem start_notStuck {e : PlaceError} (h : s.start = .error e) : NotStuck (.placing e) :=
  (start_immediate h).1

theorem placeGraph_of_start_error {e : PlaceError} (h : s.start = .error e) :
    placeGraph s.app s.graph s.machine s.config = .error ⟨[], .placing e⟩ := by
  unfold placeGraph
  simp only [h]
  rfl

end

/-- Two chips with two cores each for vertices and no link between them. -/
def islands : Mesh.MachineSpec where
  width := 2
  height := 1
  chip := { processors := 3 }
  deadLinks := [(⟨0, 0⟩, .east)]

/-- A vertex that fits on the second island only. -/
def pairBehindOne : Graph.ApplicationGraph where
  vertices := #[
    { label := "one", atoms := 1 },
    { label := "pair", atoms := 2, splitter := .fixedSlice 1 }]

def placedIslands : Outcome (Machine × Graph.MachineGraph × Coord × Placements) := do
  let m ← Machine.ofSpec islands
  let cut ← Slicing.sliceGraph 1 pairBehindOne m
  let start ← Setting.start ⟨pairBehindOne, cut, m, {}⟩
  let placements ← placeGraph pairBehindOne cut m {}
  return (m, cut, start, placements)

end MulticastMesh.Placing
