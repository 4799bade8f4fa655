import MulticastMesh.Proofs.Placing.Handouts
/-!
# What the search returns is what its run comes to

A search that succeeds has gone through its steps to the last stage, and one that fails has stopped
at a stage of its run.  The bounds that the search carries are never met: the chips in use limit
how far one attempt can grow, and the chips of abandoned attempts limit the attempts at a vertex.
-/

namespace MulticastMesh.Placing

open MulticastMesh.Graph (MachineVertexId)
open Mesh (Coord Machine)
open Layout (Placement Placements)
open Slicing (ChipGroup)
open Outcome

/-! ## Parts of the search as parts of a run -/

section

variable {α β : Type} (s : Setting) (start : Coord)

/-- A run comes to some control and progress, after failed attempts at the vertex at hand. -/
def Passes (control : Control) (todo : List Task) (p : Progress)
    (failed : List (List Coord)) : Prop :=
  ∃ given, Reached s start ⟨control, todo, p, failed, given⟩

def StopsFor (cause : Cause) : Prop := ∃ stage, Reached s start stage ∧ Stops s stage cause

/-- A part of the search ends where the run goes on, or fails where the run stops. -/
def Follows (x : Outcome (α × Progress)) (ends : α → Progress → Prop) : Prop :=
  match x with
  | .ok (a, p) => ends a p
  | .error f => StopsFor s start f.cause

variable {s start}

theorem Passes.step {control control' : Control} {todo todo' : List Task} {p p' : Progress}
    {failed failed' : List (List Coord)} (h : Passes s start control todo p failed)
    (hstep : ∀ given, ∃ given', Step s ⟨control, todo, p, failed, given⟩
      ⟨control', todo', p', failed', given'⟩) : Passes s start control' todo' p' failed' := by
  obtain ⟨given, h⟩ := h
  obtain ⟨given', hstep⟩ := hstep given
  exact ⟨given', h.tail hstep⟩

theorem Passes.stops {control : Control} {todo : List Task} {p : Progress}
    {failed : List (List Coord)} {cause : Cause} (h : Passes s start control todo p failed)
    (hstops : ∀ given, Stops s ⟨control, todo, p, failed, given⟩ cause) :
    StopsFor s start cause := by
  obtain ⟨given, h⟩ := h
  exact ⟨_, h, hstops given⟩

variable {p : Progress} {x : Search α} {f : α → Search β} {ends : α → Progress → Prop}
  {ends' : β → Progress → Prop}

theorem Follows.run (h : ∀ f, x p = .error f → StopsFor s start f.cause) :
    Follows s start (x p) fun a p' => x p = .ok (a, p') := by
  cases hx : x p with
  | ok r => exact rfl
  | error f => exact h f hx

theorem Follows.lift {y : Outcome α} (h : ∀ f, y = .error f → StopsFor s start f.cause) :
    Follows s start ((liftM y : Search α) p) fun a p' => y = .ok a ∧ p = p' := by
  cases y with
  | ok a => exact ⟨rfl, rfl⟩
  | error f => exact h f rfl

theorem Follows.bind (hx : Follows s start (x p) ends)
    (hf : ∀ a p', ends a p' → Follows s start (f a p') ends') :
    Follows s start ((x >>= f) p) ends' := by
  change Follows s start (x p >>= fun r => f r.1 r.2) ends'
  cases hrun : x p with
  | ok r =>
      rw [hrun] at hx
      exact hf r.1 r.2 hx
  | error f =>
      rw [hrun] at hx
      exact hx

theorem Follows.get_bind {f : Progress → Search β} (h : Follows s start (f p p) ends') :
    Follows s start ((get >>= f) p) ends' := h

theorem Follows.during {y : Outcome (α × Progress)} (activity : Activity)
    (h : Follows s start y ends) : Follows s start (during activity y) ends := by
  cases y with
  | ok r => exact h
  | error f => exact h

end

variable {d : Mesh.MachineSpec} {s : Setting} {start : Coord} {p : Progress} {job : Job}
  {frontier : Frontier} {pending : List Placement} {from? : Option Coord} {group : ChipGroup}
  {left : List ChipGroup} {todo : List Task} {failed : List (List Coord)} {fuel : Nat}

/-! ## One attempt -/

/-- Where the search for a room with enough space leaves the run. -/
def FindsRoom (s : Setting) (start : Coord) (job : Job) (pending : List Placement)
    (group : ChipGroup) (left : List ChipGroup) (todo : List Task) (p : Progress)
    (failed : List (List Coord)) :
    Option (ChipRoom × Frontier) → Progress → Prop
  | some (room, frontier), p' => p'.placements = p.placements ∧ HasRoomFor p' group room ∧
      ∃ from?, Passes s start (.place job ⟨frontier, pending, from?⟩ (group :: left)) todo p' failed
  | none, p' => ∃ given, Passes s start
      (.check job (unplaced p.placements group).length group.sdram) todo
      { p' with pool := p'.pool.abandon } (failed ++ [given])

theorem not_hasRoomFor (hfull : ∀ room, p.pool.current? = some room →
    room.hasSpace (unplaced p.placements group).length group.sdram = false) :
    ∀ room, ¬HasRoomFor p group room := by
  rintro room ⟨hcurrent, hspace⟩
  simp [hfull room hcurrent] at hspace

theorem grow_follows
    (h : Passes s start (.place job ⟨frontier, pending, from?⟩ (group :: left)) todo p failed)
    (hloose : s.Loose p group) (hfull : ∀ room, ¬HasRoomFor p group room)
    {next : Option Frontier → Search (Option (ChipRoom × Frontier))}
    (hnone : next none = pure none)
    (hsome : ∀ widened room, Passes s start
        (.place job ⟨widened, pending, none⟩ (group :: left)) todo
        { p with pool := p.pool.moveTo room } failed →
      Follows s start (next (some widened) { p with pool := p.pool.moveTo room })
        (FindsRoom s start job pending group left todo p failed)) :
    Follows s start ((s.grow frontier from? >>= next) p)
      (FindsRoom s start job pending group left todo p failed) := by
  refine Follows.bind (Follows.run fun f hf => h.stops fun _ => .grow rfl hloose hfull hf) ?_
  intro grown p' hgrow
  obtain ⟨rfl, rfl⟩ | ⟨chip, widened, room, rfl, _, _, rfl⟩ := grow_cases hgrow
  · obtain ⟨given, hreached⟩ := h
    rw [hnone]
    exact ⟨given, [], hreached.tail (.abandon rfl hloose hfull hgrow)⟩
  · exact hsome widened room (h.step fun given => ⟨_, .grow rfl hloose hfull hgrow rfl⟩)

/-- Induction over the bound, which exceeds the number of chips that are not in use. -/
theorem findRoom_follows (hm : Machine.Fulfils d s.machine)
    (h : Passes s start (.place job ⟨frontier, pending, from?⟩ (group :: left)) todo p failed)
    (hloose : s.Loose p group) (hfuel : s.machine.chipCount < p.pool.used.length + fuel) :
    Follows s start (s.findRoom (unplaced p.placements group).length group.sdram fuel frontier
      from? p) (FindsRoom s start job pending group left todo p failed) := by
  induction fuel generalizing p frontier from? with
  | zero =>
      obtain ⟨given, hreached⟩ := h
      have hused := (Orderly.of_reached hm hreached).length_used_le hm
      simp only at hused
      omega
  | succ fuel ih =>
      rcases findRoom_succ s (unplaced p.placements group).length group.sdram fuel frontier from? p
        with ⟨room, hcurrent, hspace, hrun⟩ | ⟨hfull, hrun⟩
      · rw [hrun]
        exact ⟨rfl, ⟨hcurrent, hspace⟩, from?, h⟩
      · rw [hrun]
        refine grow_follows h hloose (not_hasRoomFor hfull) rfl ?_
        intro widened room hpasses
        refine ih hpasses hloose ?_
        simp only [ChipPool.moveTo, List.length_cons]
        omega

def Attempted (s : Setting) (start : Coord) (job : Job) (todo : List Task)
    (failed : List (List Coord)) : Attempt → Progress → Prop
  | .placed, p => ∃ failed, Passes s start .next todo p failed
  | .abandoned cores sdram, p =>
      ∃ given, Passes s start (.check job cores sdram) todo p (failed ++ [given])

theorem give_follows
    (h : Passes s start (.place job ⟨frontier, pending, from?⟩ (group :: left)) todo p failed)
    (hloose : s.Loose p group) {room : ChipRoom} (hroom : HasRoomFor p group room)
    {next : List Placement → Search Attempt} {ends : Attempt → Progress → Prop}
    (hnext : ∀ made p', Passes s start
        (.place job ⟨frontier, pending ++ made, some room.chip⟩ left) todo p' failed →
      Follows s start (next made p') ends) :
    Follows s start ((do
      let (made, rest) ← Setting.giveCores room (unplaced p.placements group)
      modify fun p => { p with
        pool := { p.pool with current? := some (rest.useSdram group.sdram) } }
      next made : Search Attempt) p) ends := by
  refine Follows.bind (Follows.lift fun f hf => h.stops fun _ => .give rfl hloose hroom hf) ?_
  rintro ⟨made, rest⟩ _ ⟨hgive, rfl⟩
  have hgiven : Passes s start (.place job ⟨frontier, pending ++ made, some room.chip⟩ left) todo
      { p with pool := { p.pool with current? := some (rest.useSdram group.sdram) } } failed :=
    h.step fun given => ⟨given, .give rfl hloose hroom hgive⟩
  exact hnext made _ hgiven

/-- Induction over the groups that are left. -/
theorem placeFrom_follows (hm : Machine.Fulfils d s.machine)
    (h : Passes s start (.place job ⟨frontier, pending, from?⟩ left) todo p failed) :
    Follows s start (s.placeFrom frontier pending from? left p)
      (Attempted s start job todo failed) := by
  induction left generalizing p frontier pending from? with
  | nil =>
      unfold Setting.placeFrom
      refine Follows.get_bind ?_
      refine Follows.bind (Follows.lift ?_) ?_
      · intro f hf
        obtain ⟨e, hadd, rfl⟩ := lift_eq_error.1 hf
        exact h.stops fun _ => .commit rfl hadd
      · rintro placements _ ⟨hadd, rfl⟩
        exact ⟨failed, h.step fun given => ⟨given, .commit rfl (lift_eq_ok.1 hadd)⟩⟩
  | cons group left ih =>
      unfold Setting.placeFrom
      refine Follows.get_bind ?_
      have hfilter : (group.vertices.filter fun v => !p.placements.isPlaced v) =
          unplaced p.placements group := rfl
      rw [hfilter]
      cases hvertices : unplaced p.placements group with
      | nil => exact ih (h.step fun given => ⟨given, .skip rfl hvertices⟩)
      | cons first others =>
          refine Follows.bind (Follows.run fun f hf => h.stops fun _ => .fix rfl hvertices hf) ?_
          intro fixed p' hfixed
          obtain ⟨rfl, _⟩ | ⟨rfl, hnone, rfl⟩ := placeFixed_cases hfixed
          · exact ih (h.step fun given => ⟨given, .fix rfl hvertices hfixed⟩)
          · have hloose : s.Loose p' group := ⟨by simp [hvertices], hvertices ▸ hnone⟩
            -- Looking for a room moves no placement, so the same members are left afterwards.
            have hroom := findRoom_follows hm h hloose
              (show _ < _ + (s.machine.chipCount + 1) by omega)
            rw [hvertices] at hroom
            refine Follows.bind hroom ?_
            intro found p₂ hfound
            cases found with
            | none =>
                obtain ⟨given, hpasses⟩ := hfound
                rw [hvertices] at hpasses
                exact ⟨given, hpasses⟩
            | some found =>
                obtain ⟨hsame, hroom, from?', hpasses⟩ := hfound
                have hvertices : unplaced p₂.placements group = first :: others :=
                  hsame ▸ hvertices
                have hloose : s.Loose p₂ group := ⟨by simp [hvertices], hvertices ▸ hnone⟩
                rw [← hvertices]
                exact give_follows hpasses hloose hroom fun made p' => ih

theorem attempt_follows (hm : Machine.Fulfils d s.machine)
    (h : Passes s start (.attempt job) todo p failed) :
    Follows s start (s.attempt job.groups p) (Attempted s start job todo failed) := by
  obtain ⟨label, groups⟩ := job
  cases groups with
  | nil => exact ⟨failed, h.step fun given => ⟨given, .pass rfl⟩⟩
  | cons group groups =>
      refine Follows.bind (Follows.run fun f hf => h.stops fun _ => .start rfl (by simp) hf) ?_
      intro frontier p' hstart
      obtain ⟨_, room, _, _, hroom, _⟩ := startPatch_cases hstart
      exact placeFrom_follows hm (h.step fun given => ⟨_, .start rfl (by simp) hstart hroom⟩)

theorem Passes.attempted (hm : Machine.Fulfils d s.machine)
    (h : Passes s start (.attempt job) todo p failed) {result : Attempt} {p' : Progress}
    (hattempt : s.attempt job.groups p = .ok (result, p')) :
    Attempted s start job todo failed result p' := by
  have hfollows := attempt_follows hm h
  rwa [hattempt] at hfollows

/-- An abandoned attempt at a group that could fit is followed by another one. -/
theorem Passes.again (hm : Machine.Fulfils d s.machine)
    (h : Passes s start (.attempt job) todo p failed) {cores sdram : Nat} {p' : Progress}
    (hattempt : s.attempt job.groups p = .ok (.abandoned cores sdram, p'))
    (hfits : s.checkCouldFit job.label cores sdram = .ok ()) :
    ∃ given, Passes s start (.attempt job) todo p' (failed ++ [given]) := by
  obtain ⟨given, hchecks⟩ := h.attempted hm hattempt
  exact ⟨given, hchecks.step fun given => ⟨given, .again rfl hfits⟩⟩

/-! ## All attempts at all vertices -/

/-- Induction over the bound, which exceeds the number of attempts that can still be made. -/
theorem retry_follows (hm : Machine.Fulfils d s.machine)
    (h : Passes s start (.attempt job) todo p failed)
    (hfuel : s.machine.chipCount < failed.length + fuel) :
    Follows s start (s.retry job.label job.groups fuel p) fun _ p' =>
      ∃ failed, Passes s start .next todo p' failed := by
  induction fuel generalizing p failed with
  | zero =>
      obtain ⟨given, hreached⟩ := h
      have htried := (Orderly.of_reached hm hreached).length_failed_le hm
      simp only at htried
      omega
  | succ fuel ih =>
      refine Follows.bind (attempt_follows hm h) ?_
      intro result p' hresult
      cases result with
      | placed => exact hresult
      | abandoned cores sdram =>
          obtain ⟨given, hpasses⟩ := hresult
          refine Follows.bind (Follows.lift ?_) ?_
          · intro f hf
            obtain ⟨e, hfits, rfl⟩ := lift_eq_error.1 hf
            exact hpasses.stops fun _ => .check rfl hfits
          · rintro _ _ ⟨hfits, rfl⟩
            have hagain : Passes s start (.attempt job) todo p' (failed ++ [given]) :=
              hpasses.step fun given => ⟨given, .again rfl (lift_eq_ok.1 hfits)⟩
            refine ih hagain ?_
            rw [List.length_append, List.length_singleton]
            omega

def placeTask (s : Setting) (task : Task) : Search Unit := do
  let groups ← task.groups
  s.placeGroups task.label groups

theorem placeTask_follows (hm : Machine.Fulfils d s.machine) {task : Task}
    (h : Passes s start .next (task :: todo) p failed) :
    Follows s start (placeTask s task p) fun _ p' =>
      ∃ failed, Passes s start .next todo p' failed := by
  refine Follows.bind (Follows.lift ?_) ?_
  · intro f hf
    obtain ⟨e, hgroups, rfl⟩ := lift_eq_error.1 hf
    exact h.stops fun _ => .takeUp rfl rfl hgroups
  · rintro groups _ ⟨hgroups, rfl⟩
    have hattempt : Passes s start (.attempt ⟨task.label, groups⟩) todo
        { p with pool := p.pool.restore } [] :=
      h.step fun _ => ⟨[], .takeUp rfl rfl (lift_eq_ok.1 hgroups)⟩
    exact (retry_follows hm hattempt (show _ < _ + (s.machine.chipCount + 2) by omega)).during _

theorem tasks_follow_append (hm : Machine.Fulfils d s.machine) {front : List Task}
    (h : Passes s start .next (front ++ todo) p failed) :
    Follows s start (front.forM (placeTask s) p) fun _ p' =>
      ∃ failed, Passes s start .next todo p' failed := by
  induction front generalizing p failed with
  | nil => exact ⟨failed, h⟩
  | cons task front ih =>
      refine Follows.bind (placeTask_follows hm h) ?_
      rintro _ p' ⟨failed, hpasses⟩
      exact ih hpasses

theorem tasks_follow (hm : Machine.Fulfils d s.machine)
    (h : Passes s start .next todo p failed) :
    Follows s start (todo.forM (placeTask s) p) fun _ p' =>
      ∃ failed, Passes s start .next [] p' failed := by
  rw [← List.append_nil todo] at h
  exact tasks_follow_append hm h

theorem placeAll_eq (s : Setting) : s.placeAll = s.tasks.forM (placeTask s) := by
  unfold Setting.placeAll Setting.tasks
  simp only [List.forM_eq_forM, List.forM_append, List.forM_map]
  congr 1
  funext _
  induction s.graph.toList with
  | nil => rfl
  | cons vertex vertices ih =>
      rw [List.forM_cons, ih, List.filter_cons]
      by_cases hnone : vertex.2.app?.isNone = true
      · rw [if_pos hnone, if_pos hnone, List.forM_cons]
        rfl
      · rw [if_neg hnone, if_neg hnone, pure_bind]

theorem placeGraph_eq (hstart : s.start = .ok start) :
    placeGraph s.app s.graph s.machine s.config =
      s.tasks.forM (placeTask s) ⟨.ofMachine s.machine start, .empty⟩ >>=
        fun r => pure r.2.placements := by
  unfold placeGraph
  simp only [hstart, ← placeAll_eq]
  rfl

/-- A placement ends where its run does, or fails for the cause that its run stops for. -/
theorem placeGraph_follows (hm : Machine.Fulfils d s.machine) (hstart : s.start = .ok start) :
    (∀ placements, placeGraph s.app s.graph s.machine s.config = .ok placements →
      ∃ stage, Reached s start stage ∧ stage.control = .next ∧ stage.todo = [] ∧
        stage.progress.placements = placements) ∧
    ∀ f, placeGraph s.app s.graph s.machine s.config = .error f →
      ∃ stage, Reached s start stage ∧ Stops s stage f.cause := by
  have hrun := tasks_follow hm (⟨[], .refl⟩ : Passes s start .next s.tasks
    ⟨.ofMachine s.machine start, .empty⟩ [])
  rw [placeGraph_eq hstart]
  cases hplace : s.tasks.forM (placeTask s) ⟨.ofMachine s.machine start, .empty⟩ with
  | ok r =>
      rw [hplace] at hrun
      obtain ⟨failed, given, hreached⟩ := hrun
      refine ⟨?_, nofun⟩
      intro placements hplaced
      cases hplaced
      exact ⟨_, hreached, rfl, rfl, rfl⟩
  | error f =>
      rw [hplace] at hrun
      refine ⟨nofun, ?_⟩
      intro f' hfails
      cases hfails
      exact hrun

/-! ## Every chip is accounted for -/

/-- Every working chip is in use, restored or still to come, the chip being filled is only in use,
and the vertex at hand was given no chip twice. -/
structure Stage.KeepsChips (s : Setting) (start : Coord) (stage : Stage) : Prop where
  kept : ∀ c, (s.machine.chip? c).isSome → c ∈ stage.progress.pool.used ∨
    c ∈ stage.progress.pool.restored ∨ c ∈ stage.progress.pool.upcoming
  cursor : stage.progress.pool.upcoming <:+ ChipPool.cursorOrder s.machine start
  current : ∀ room, stage.progress.pool.current? = some room →
    room.chip ∈ stage.progress.pool.used ∧ room.chip ∉ stage.progress.pool.saved ∧
      room.chip ∉ stage.progress.pool.restored
  once : (stage.failed.flatten ++ stage.given).Nodup

/-- What the runs of a search do with the chips of its machine. -/
structure KeepsChips (s : Setting) (start : Coord) : Prop where
  orderedOnce : (ChipPool.cursorOrder s.machine start).Nodup
  ordered : ∀ c, c ∈ ChipPool.cursorOrder s.machine start ↔ (s.machine.chip? c).isSome
  stages : ∀ stage, Reached s start stage → stage.KeepsChips s start
  /-- Chips of abandoned attempts are free again when the next vertex is taken up. -/
  freed : ∀ stage stage', Reached s start stage → stage.control = .next → Step s stage stage' →
    ∀ c ∈ stage.failed.flatten,
      c ∉ stage'.progress.pool.used ∧ c ∈ stage'.progress.pool.restored
  /-- Restored chips are handed out before the cursor moves on. -/
  ahead : ∀ stage, Reached s start stage → ∀ chip rest,
    stage.progress.pool.restored = chip :: rest →
    stage.progress.pool.next? = (some chip, { stage.progress.pool with restored := rest })
  /-- An attempt finds no chip only when all of them are in use. -/
  exhausted : ∀ stage, Reached s start stage → ∀ f used total report,
    s.startPatch stage.progress = .error f → f.cause = .placing (.noMoreChips used total report) →
    ∀ c, (s.machine.chip? c).isSome → c ∈ stage.progress.pool.used
  /-- The placements that the search returns are those of the last stage of its run. -/
  succeeds : ∀ placements, placeGraph s.app s.graph s.machine s.config = .ok placements →
    ∃ stage, Reached s start stage ∧ stage.control = .next ∧ stage.todo = [] ∧
      stage.progress.placements = placements
  /-- The search fails for the cause that its run stops for. -/
  fails : ∀ f, placeGraph s.app s.graph s.machine s.config = .error f →
    ∃ stage, Reached s start stage ∧ Stops s stage f.cause

theorem Orderly.keepsChips {stage : Stage} (h : Orderly s start stage) :
    stage.KeepsChips s start where
  kept := h.accounted.kept
  cursor := h.accounted.order
  current := by
    intro room hroom
    obtain ⟨hused, hsaved⟩ := h.accounted.tracked.current room hroom
    exact ⟨hused, hsaved, fun hrestored => h.accounted.free _ hrestored hused⟩
  once := h.once

/-- No chip is lost and none is handed out twice while one vertex is placed. -/
theorem placeGraph_keepsChips (hm : Machine.ofSpec d = .ok s.machine)
    (hstart : s.start = .ok start) : KeepsChips s start := by
  have hm := Machine.ofSpec_spec hm
  have horderly : ∀ stage, Reached s start stage → Orderly s start stage :=
    fun _ => Orderly.of_reached hm
  obtain ⟨hsucceeds, hfails⟩ := placeGraph_follows hm hstart
  refine ⟨nodup_cursorOrder _ _, fun c => mem_cursorOrder, ?_, ?_, ?_, ?_, hsucceeds, hfails⟩
  · intro stage hreached
    exact (horderly stage hreached).keepsChips
  · intro stage stage' hreached hcontrol hstep c hc
    exact (horderly stage hreached).restored_of_failed hcontrol hstep hc
  · intro stage hreached chip rest hrestored
    exact (horderly stage hreached).accounted.next?_of_restored hrestored
  · intro stage hreached f used total report hstartPatch hcause c hc
    have hnone := (startPatch_noMoreChips hstartPatch hcause).2.1
    exact (horderly stage hreached).accounted.mem_used_of_next?_eq_none hnone hc

def smallChips : Mesh.MachineSpec := { width := 2, height := 1, chip := { processors := 3 } }

/-- A vertex in the middle that does not fit beside the first. -/
def crowdedApp : Graph.ApplicationGraph where
  vertices := #[
    { label := "first", atoms := 1 },
    { label := "big", atoms := 2, splitter := .applicationDefined [(0, 0), (1, 1)] true },
    { label := "last", atoms := 1 }]

def placedCrowded : Outcome (Machine × Graph.MachineGraph × Coord × Placements) := do
  let m ← Machine.ofSpec smallChips
  let cut ← Slicing.sliceGraph 1 crowdedApp m
  let start ← Setting.start ⟨crowdedApp, cut, m, {}⟩
  let placements ← placeGraph crowdedApp cut m {}
  return (m, cut, start, placements)

theorem placeGraph_keepsChips_crowded : ∃ m cut start placements,
    Machine.ofSpec smallChips = .ok m ∧ Slicing.sliceGraph 1 crowdedApp m = .ok cut ∧
    Setting.start ⟨crowdedApp, cut, m, {}⟩ = .ok start ∧
    placeGraph crowdedApp cut m {} = .ok placements ∧
    KeepsChips ⟨crowdedApp, cut, m, {}⟩ start := by
  obtain ⟨_, hrun⟩ := exists_of_isOk (show placedCrowded.isOk = true by decide +kernel)
  obtain ⟨m, hm, hrun⟩ := bind_eq_ok.1 hrun
  obtain ⟨cut, hcut, hrun⟩ := bind_eq_ok.1 hrun
  obtain ⟨start, hstart, hrun⟩ := bind_eq_ok.1 hrun
  obtain ⟨placements, hplaced, _⟩ := bind_eq_ok.1 hrun
  have hm := lift_eq_ok.1 hm
  have hstart := lift_eq_ok.1 hstart
  exact ⟨m, cut, start, placements, hm, hcut, hstart, hplaced, placeGraph_keepsChips hm hstart⟩

end MulticastMesh.Placing
