import MulticastMesh.Proofs.Placing.CurrentRoom
import MulticastMesh.Proofs.Placing.Endings
import MulticastMesh.Proofs.Slicing.Expansion
/-!
# When the chips run out

A chip that the search moves on from stays in use, whatever room is left on it, unless the attempt
is abandoned.  So when no chip is left for a vertex, the chips that still have room for it are among
those that attempts at earlier vertices were given and left behind; no other chip is overlooked.
-/

namespace MulticastMesh.Placing

open MulticastMesh.Graph (ApplicationGraph MachineGraph MachineVertexId)
open Mesh (Chip Coord Machine)
open Layout (Placement Placements)
open Slicing (ChipGroup)
open Outcome

/-! ## Only a new patch can lack a chip -/

section

variable {d : Mesh.MachineSpec} {s : Setting} {start : Coord} {p p' : Progress}
  {frontier : Frontier} {pending : List Placement} {from? : Option Coord} {group : ChipGroup}
  {groups : List ChipGroup} {cores sdram fuel : Nat}

theorem findRoom_notExhausted :
    FailsOnly NotExhausted (s.findRoom cores sdram fuel frontier from? p) := by
  induction fuel generalizing frontier from? p with
  | zero => exact FailsOnly.error (by simp [NotExhausted])
  | succ fuel ih =>
      rcases findRoom_succ s cores sdram fuel frontier from? p with ⟨_, _, _, hrun⟩ | ⟨_, hrun⟩
      · rw [hrun]
        exact FailsOnly.ok _
      · rw [hrun]
        intro f hf
        rcases runState_bind_eq_error.1 hf with hgrow | ⟨grown, p', _, hrest⟩
        · exact (grow_immediate f hgrow).2
        · cases grown with
          | none => cases hrest
          | some widened => exact ih f hrest

theorem placeFrom_notExhausted :
    FailsOnly NotExhausted (s.placeFrom frontier pending from? groups p) := by
  induction groups generalizing frontier pending from? p with
  | nil =>
      intro f hf
      unfold Setting.placeFrom at hf
      rw [runState_get_bind] at hf
      rcases runState_bind_eq_error.1 hf with hadd | ⟨_, _, _, hset⟩
      · obtain ⟨e, _, rfl⟩ := lift_eq_error.1 (runState_lift_eq_error.1 hadd)
        simp [NotExhausted]
      · cases hset
  | cons group groups ih =>
      intro f hf
      unfold Setting.placeFrom at hf
      rw [runState_get_bind] at hf
      cases hvertices : group.vertices.filter fun v => !p.placements.isPlaced v with
      | nil =>
        rw [hvertices] at hf
        exact ih f hf
      | cons first others =>
        rw [hvertices] at hf
        rcases runState_bind_eq_error.1 hf with hfixed | ⟨fixed, p₁, _, hf⟩
        · exact (placeFixed_immediate f hfixed).2
        cases fixed with
        | true => exact ih f hf
        | false =>
            rcases runState_bind_eq_error.1 hf with hfind | ⟨found, p₂, _, hf⟩
            · exact findRoom_notExhausted f hfind
            cases found with
            | none => cases hf
            | some found =>
                rcases runState_bind_eq_error.1 hf with hgive | ⟨_, _, _, hf⟩
                · exact (giveCores_immediate f (runState_lift_eq_error.1 hgive)).2
                rcases runState_bind_eq_error.1 hf with hmodify | ⟨_, _, _, hf⟩
                · cases hmodify
                · exact ih f hf

/-- A group that is too big is refused for its size. -/
theorem checkCouldFit_notExhausted {label : String} {e : PlaceError}
    (h : s.checkCouldFit label cores sdram = .error e) : NotExhausted (.placing e) := by
  unfold Setting.checkCouldFit at h
  simp only at h
  split at h
  · cases h
  · cases h
    simp [NotExhausted]

/-! ## Attempts at a single group -/

/-- With all groups placed an attempt is not abandoned. -/
theorem placeFrom_nil_ne (h : s.placeFrom frontier pending from? [] p =
    .ok (.abandoned cores sdram, p')) : False := by
  unfold Setting.placeFrom at h
  obtain ⟨_, _, _, h⟩ := runState_bind_eq_ok.1 h
  obtain ⟨_, _, _, h⟩ := runState_bind_eq_ok.1 h
  obtain ⟨_, _, _, hreturn⟩ := runState_bind_eq_ok.1 h
  cases runState_pure_eq_ok.1 hreturn

/-- A patch that begins with a single group is abandoned only if the chip at hand has not enough
room for it. -/
theorem placeFrom_single_abandoned {board : Coord} {room : ChipRoom}
    (h : s.placeFrom { board } [] none [group] p = .ok (.abandoned cores sdram, p'))
    (hcurrent : p.pool.current? = some room) :
    room.hasSpace (unplaced p.placements group).length group.sdram = false ∧
      p' = ⟨p.pool.abandon, p.placements⟩ := by
  unfold Setting.placeFrom at h
  rw [runState_get_bind] at h
  have hfilter : (group.vertices.filter fun v => !p.placements.isPlaced v) =
      unplaced p.placements group := rfl
  rw [hfilter] at h
  cases hvertices : unplaced p.placements group with
  | nil =>
      rw [hvertices] at h
      exact (placeFrom_nil_ne h).elim
  | cons first others =>
      rw [hvertices] at h
      obtain ⟨fixed, p₁, hfixed, hrest⟩ := runState_bind_eq_ok.1 h
      rcases placeFixed_cases hfixed with ⟨rfl, _⟩ | ⟨rfl, _, rfl⟩
      · have hplaced : s.placeFrom { board } [] none [] p₁ = .ok (.abandoned cores sdram, p') :=
          hrest
        exact (placeFrom_nil_ne hplaced).elim
      obtain ⟨found, p₂, hfind, hrest⟩ := runState_bind_eq_ok.1 hrest
      rcases findRoom_succ s (others.length + 1) group.sdram s.machine.chipCount { board } none p₁
        with ⟨_, _, _, hfound⟩ | ⟨hfull, hgrow⟩
      · cases hfound.symm.trans hfind
        obtain ⟨_, _, _, hrest⟩ := runState_bind_eq_ok.1 hrest
        obtain ⟨_, _, _, hrest⟩ := runState_bind_eq_ok.1 hrest
        exact (placeFrom_nil_ne hrest).elim
      · -- The frontier is still empty, so there is nothing to grow to.
        have hnone : s.findRoom (others.length + 1) group.sdram (s.machine.chipCount + 1)
            { board } none p₁ = .ok (none, p₁) := hgrow
        cases hnone.symm.trans hfind
        obtain ⟨_, _, hmodify, hreturn⟩ := runState_bind_eq_ok.1 hrest
        cases runState_modify_eq_ok.1 hmodify
        cases runState_pure_eq_ok.1 hreturn
        exact ⟨hfull room hcurrent, rfl⟩

theorem attempt_single_abandoned (h : s.attempt [group] p = .ok (.abandoned cores sdram, p')) :
    ∃ frontier p₁ room, s.startPatch p = .ok (frontier, p₁) ∧ p₁.pool.current? = some room ∧
      room.hasSpace (unplaced p.placements group).length group.sdram = false ∧
      p' = ⟨p₁.pool.abandon, p.placements⟩ := by
  obtain ⟨frontier, p₁, hstart, h⟩ := runState_bind_eq_ok.1 h
  obtain ⟨board, room, rfl, hsame, hcurrent, _⟩ := startPatch_cases hstart
  refine ⟨_, p₁, room, hstart, hcurrent, ?_⟩
  rw [← hsame]
  exact placeFrom_single_abandoned h hcurrent

end

/-! ## Who was given the chips in use -/

/-- An attempt that placed its vertex was given a chip, before some vertices were taken up. -/
def GivenBefore (s : Setting) (start : Coord) (todo : List Task) (c : Coord) : Prop :=
  ∃ stage stage', Reached s start stage ∧ Step s stage stage' ∧ stage.control.UnderWay ∧
    stage'.control = .next ∧ c ∈ stage.given ∧ todo <:+ stage.todo

/-- Every chip in use was given to an attempt at the vertex at hand, or to one that placed an
earlier vertex. -/
def Explained (s : Setting) (start : Coord) (stage : Stage) : Prop :=
  ∀ c ∈ stage.progress.pool.used, c ∈ stage.failed.flatten ∨
    (stage.control.UnderWay ∧ c ∈ stage.given) ∨ GivenBefore s start stage.todo c

section

variable {d : Mesh.MachineSpec} {s : Setting} {start c : Coord} {stage stage' : Stage}
  {todo todo' : List Task}

theorem GivenBefore.mono (h : GivenBefore s start todo c) (hsuffix : todo' <:+ todo) :
    GivenBefore s start todo' c := by
  obtain ⟨stage, stage', hreached, hstep, hunderWay, hnext, hgiven, htodo⟩ := h
  exact ⟨stage, stage', hreached, hstep, hunderWay, hnext, hgiven, hsuffix.trans htodo⟩

theorem Explained.step (hm : Machine.Fulfils d s.machine) (hreached : Reached s start stage)
    (h : Explained s start stage) (hstep : Step s stage stage') : Explained s start stage' := by
  have hidle : ¬stage.control.UnderWay → ∀ c ∈ stage.progress.pool.used,
      c ∈ stage.failed.flatten ∨ GivenBefore s start stage.todo c :=
    fun hnot c hc => (h c hc).imp_right (Or.resolve_left · fun hgiven => hnot hgiven.1)
  have hplacing : ∀ c ∈ stage.progress.pool.used, c ∈ stage.failed.flatten ∨
      (True ∧ c ∈ stage.given) ∨ GivenBefore s start stage.todo c :=
    fun c hc => (h c hc).imp_right (Or.imp_left (And.imp_left fun _ => trivial))
  intro c hc
  cases hstep with
  | takeUp hcontrol htodo _ =>
      simp only [ChipPool.restore_eq, List.mem_filter] at hc
      obtain ⟨hused, hsaved⟩ := hc
      rcases hidle (hcontrol ▸ id) c hused with hfailed | hbefore
      · have hmem := (Orderly.of_reached hm hreached).saved c hfailed
        simp [hmem] at hsaved
      · exact Or.inr (Or.inr (hbefore.mono (htodo ▸ List.suffix_cons _ _)))
  | pass hcontrol => exact (hidle (hcontrol ▸ id) c hc).imp_right Or.inr
  | start hcontrol _ hstart hroom =>
      obtain ⟨_, room, _, _, hcurrent, _, hcases⟩ := startPatch_cases hstart
      cases hroom.symm.trans hcurrent
      rcases hcases with ⟨_, hpool⟩ | ⟨chip, pool, _, hnext, hroomOn, hpool⟩
      · rw [hpool] at hc
        exact (hidle (hcontrol ▸ id) c hc).imp_right Or.inr
      · rw [hpool] at hc
        rcases List.mem_cons.1 hc with rfl | hc
        · rw [(roomOn_chip hm hroomOn).1]
          exact Or.inr (Or.inl ⟨trivial, List.mem_singleton_self _⟩)
        · rw [(Tracked.not_mem_of_next? hnext).2.1] at hc
          exact (hidle (hcontrol ▸ id) c hc).imp_right Or.inr
  | skip _ _ => exact hplacing c hc
  | fix _ _ hfixed =>
      obtain ⟨_, _, _, _, _, _, _, rfl⟩ | ⟨hfalse, _⟩ := placeFixed_cases hfixed
      · exact hplacing c hc
      · cases hfalse
  | give _ _ _ _ => exact hplacing c hc
  | grow _ _ _ hgrow hroom =>
      obtain ⟨hnone, _⟩ | ⟨_, _, room, _, _, _, rfl⟩ := grow_cases hgrow
      · cases hnone
      cases hroom
      rcases List.mem_cons.1 hc with rfl | hc
      · exact Or.inr (Or.inl ⟨trivial, by simp⟩)
      · exact (hplacing c hc).imp_right (Or.imp_left (And.imp_right (List.mem_append_left _)))
  | abandon _ _ _ hgrow =>
      obtain ⟨_, rfl⟩ | ⟨_, _, _, hsome, _⟩ := grow_cases hgrow
      · simp only [List.flatten_append, List.flatten_singleton, List.mem_append]
        rcases hplacing c hc with hfailed | ⟨_, hgiven⟩ | hbefore
        · exact Or.inl (Or.inl hfailed)
        · exact Or.inl (Or.inr hgiven)
        · exact Or.inr (Or.inr hbefore)
      · cases hsome
  | again hcontrol _ => exact (hidle (hcontrol ▸ id) c hc).imp_right Or.inr
  | commit hcontrol hadd =>
      rcases hplacing c hc with hfailed | ⟨_, hgiven⟩ | hbefore
      · exact Or.inl hfailed
      · exact Or.inr (Or.inr ⟨stage, _, hreached, .commit hcontrol hadd, hcontrol ▸ trivial, rfl,
          hgiven, List.suffix_rfl⟩)
      · exact Or.inr (Or.inr hbefore)

theorem Explained.of_reached (hm : Machine.Fulfils d s.machine) (h : Reached s start stage) :
    Explained s start stage := by
  induction h with
  | refl => exact fun _ hc => absurd hc List.not_mem_nil
  | tail hreached hstep ih => exact ih.step hm hreached hstep

end

/-! ## When no chip is left for a vertex -/

/-- Chips in use are the one at hand, chips of some kind, or too small for a group. -/
def Spent (s : Setting) (group : ChipGroup) (kind : Coord → Prop) (p : Progress) : Prop :=
  ∀ c ∈ p.pool.used, (∃ room, p.pool.current? = some room ∧ room.chip = c) ∨ kind c ∨
    ∀ chip, s.machine.chip? c = some chip → ¬WouldFit s chip p.placements.toList group

section

variable {d : Mesh.MachineSpec} {s : Setting} {start c : Coord} {p p' : Progress}
  {group : ChipGroup} {kind : Coord → Prop} {cores sdram : Nat} {label : String}
  {todo : List Task} {failed : List (List Coord)} {used total : Nat} {report : FailureReport}
  {f : Failure} {chip : Chip}

/-- The chip that an attempt begins on is too small for a group that it has not enough room for. -/
theorem not_wouldFit_of_startPatch (hm : Machine.Fulfils d s.machine)
    (hgraph : s.graph.WellFormed) {frontier : Frontier} {room : ChipRoom}
    (hpasses : Passes s start (.attempt ⟨label, [group]⟩) todo p failed)
    (hstart : s.startPatch p = .ok (frontier, p')) (hroom : p'.pool.current? = some room)
    (hfull : room.hasSpace (unplaced p.placements group).length group.sdram = false)
    (hchip : s.machine.chip? room.chip = some chip) :
    ¬WouldFit s chip p.placements.toList group := by
  obtain ⟨_, hreached⟩ := hpasses
  obtain ⟨chip', hample⟩ := KnowsRoom.of_reached hm hgraph
    (hreached.tail (.start rfl (by simp) hstart hroom)) room hroom
  cases hchip.symm.trans hample.working
  obtain ⟨_, _, _, hsame, _⟩ := startPatch_cases hstart
  simp only [Stage.taken, Control.pending, List.append_nil, hsame] at hample
  exact hample.not_wouldFit hfull (List.length_filter_le _ _)

/-- An abandoned attempt at a single group shows that the chip it began on is too small. -/
theorem Spent.abandon (hm : Machine.Fulfils d s.machine) (hgraph : s.graph.WellFormed)
    (hpasses : Passes s start (.attempt ⟨label, [group]⟩) todo p failed)
    (h : Spent s group kind p) (hrun : s.attempt [group] p = .ok (.abandoned cores sdram, p')) :
    p'.placements = p.placements ∧ Spent s group kind p' := by
  obtain ⟨frontier, p₁, room, hstart, hroom, hfull, rfl⟩ := attempt_single_abandoned hrun
  refine ⟨rfl, fun c hc => Or.inr ?_⟩
  obtain ⟨_, room', rfl, _, hcurrent, _, hcases⟩ := startPatch_cases hstart
  cases hcurrent.symm.trans hroom
  have hsmall : ∀ chip, s.machine.chip? room.chip = some chip →
      ¬WouldFit s chip p.placements.toList group :=
    fun _ => not_wouldFit_of_startPatch hm hgraph hpasses hstart hroom hfull
  rcases hcases with ⟨hold, hpool⟩ | ⟨next, pool, hnone, hnext, hroomOn, hpool⟩
  · rw [hpool] at hc
    rcases h c hc with ⟨_, hat, rfl⟩ | hother
    · cases hat.symm.trans hold
      exact Or.inr hsmall
    · exact hother
  · rw [hpool] at hc
    rcases List.mem_cons.1 hc with rfl | hc
    · rw [(roomOn_chip hm hroomOn).1] at hsmall
      exact Or.inr hsmall
    · rw [(Tracked.not_mem_of_next? hnext).2.1] at hc
      rcases h c hc with ⟨_, hat, _⟩ | hother
      · cases hat.symm.trans hnone
      · exact hother

theorem Spent.exhausted (hm : Machine.Fulfils d s.machine)
    (hpasses : Passes s start (.attempt ⟨label, [group]⟩) todo p failed)
    (h : Spent s group kind p) (hrun : s.attempt [group] p = .error f)
    (hcause : f.cause = .placing (.noMoreChips used total report))
    (hchip : s.machine.chip? c = some chip) (hfits : WouldFit s chip p.placements.toList group) :
    kind c := by
  rcases runState_bind_eq_error.1 hrun with hstart | ⟨_, _, _, hplace⟩
  · obtain ⟨hcurrent, hnext, _⟩ := startPatch_noMoreChips hstart hcause
    obtain ⟨_, hreached⟩ := hpasses
    have hused := (Orderly.of_reached hm hreached).accounted.mem_used_of_next?_eq_none hnext
      (hchip ▸ rfl : (s.machine.chip? c).isSome)
    rcases h c hused with ⟨_, hroom, _⟩ | hkind | hsmall
    · cases hcurrent.symm.trans hroom
    · exact hkind
    · exact absurd hfits (hsmall chip hchip)
  · exact absurd hcause (placeFrom_notExhausted f hplace _ _ _)

/-- When no chip is left for a single group, the chips that it would fit on were in use before:
induction over its attempts. -/
theorem Spent.of_tries (hm : Machine.Fulfils d s.machine) (hgraph : s.graph.WellFormed) {n : Nat}
    {result : Outcome (Unit × Progress)} (htries : Tries s label [group] n p result)
    (hpasses : Passes s start (.attempt ⟨label, [group]⟩) todo p failed)
    (h : Spent s group kind p) (hresult : result = .error f)
    (hcause : f.cause = .placing (.noMoreChips used total report))
    (hchip : s.machine.chip? c = some chip) (hfits : WouldFit s chip p.placements.toList group) :
    kind c := by
  induction htries generalizing failed with
  | placed hattempt => cases hresult
  | failed hattempt =>
      cases hresult
      exact h.exhausted hm hpasses hattempt hcause hchip hfits
  | tooBig hattempt hbig =>
      cases hresult
      exact absurd hcause (checkCouldFit_notExhausted hbig _ _ _)
  | again hattempt hcould _ ih =>
      obtain ⟨hsame, hspent⟩ := h.abandon hm hgraph hpasses hattempt
      obtain ⟨given, hagain⟩ := hpasses.again hm hattempt hcould
      exact ih hagain hspent hresult (hsame ▸ hfits)

theorem spent_restore : Spent s group (fun c => c ∈ p.pool.used ∧ c ∉ p.pool.saved ∧
    ∀ room, p.pool.current? = some room → room.chip ≠ c) { p with pool := p.pool.restore } := by
  intro c hc
  simp only [ChipPool.restore_eq, List.mem_filter, Bool.not_eq_true', List.contains_eq_mem,
    decide_eq_false_iff_not] at hc ⊢
  obtain ⟨hused, hsaved⟩ := hc
  by_cases hat : ∃ room, p.pool.current? = some room ∧ room.chip = c
  · exact Or.inl hat
  · exact Or.inr (Or.inl ⟨hused, hsaved, fun room hroom hchip => hat ⟨room, hroom, hchip⟩⟩)

/-- A vertex that a placement fails on, and what the vertices in front of it have come to. -/
structure FailsOn (s : Setting) (start : Coord) (before : List Task) (task : Task)
    (after : List Task) (p : Progress) (f : Failure) : Prop where
  order : s.tasks = before ++ task :: after
  placed : before.forM (placeTask s) ⟨.ofMachine s.machine start, .empty⟩ = .ok ((), p)
  fails : placeTask s task p = .error f

/-- A chip that is not looked at for the next vertex: an attempt that placed an earlier vertex was
given it, and it is neither at hand nor offered again. -/
structure LeftBehind (s : Setting) (start : Coord) (todo : List Task) (p : Progress) (c : Coord) :
    Prop where
  used : c ∈ p.pool.used
  kept : c ∉ p.pool.saved
  past : ∀ room, p.pool.current? = some room → room.chip ≠ c
  given : GivenBefore s start todo c

/-- Where a placement ran out of chips: a vertex that is a single group would fit only on chips that
were left behind. -/
structure Exhausted (s : Setting) (start : Coord) (f : Failure) : Prop where
  failsOn : ∃ before task after p, FailsOn s start before task after p f
  leftBehind : ∀ before task after p, FailsOn s start before task after p f →
    ∀ group, task.groups = .ok [group] → ∀ c chip, s.machine.chip? c = some chip →
      WouldFit s chip p.placements.toList group → LeftBehind s start (task :: after) p c

theorem placeGraph_eq_error_iff (hstart : s.start = .ok start) :
    placeGraph s.app s.graph s.machine s.config = .error f ↔
      ∃ before task after p, FailsOn s start before task after p f := by
  rw [placeGraph_eq hstart, bind_eq_error]
  constructor
  · rintro (h | ⟨_, _, hreturn⟩)
    · obtain ⟨before, task, after, p, horder, hplaced, hfails⟩ := runState_forM_eq_error.1 h
      exact ⟨before, task, after, p, horder, hplaced, hfails⟩
    · cases hreturn
  · rintro ⟨before, task, after, p, horder, hplaced, hfails⟩
    exact Or.inl
      (runState_forM_eq_error.2 ⟨before, task, after, p, horder, hplaced, hfails⟩)

theorem placeGroups_of_placeTask_error {task : Task} {groups : List ChipGroup}
    (hgroups : task.groups = .ok groups) (h : placeTask s task p = .error f) :
    s.placeGroups task.label groups p = .error f := by
  rcases runState_bind_eq_error.1 h with hlift | ⟨_, _, hlift, h⟩
  · obtain ⟨_, hnone, _⟩ := lift_eq_error.1 (runState_lift_eq_error.1 hlift)
    cases hgroups.symm.trans hnone
  · obtain ⟨_, hsome, hstate⟩ := runState_lift_eq_ok.1 hlift
    cases hstate
    cases hgroups.symm.trans (lift_eq_ok.1 hsome)
    exact h

theorem FailsOn.leftBehind {before after : List Task} {task : Task}
    (hm : Machine.Fulfils d s.machine) (hgraph : s.graph.WellFormed)
    (h : FailsOn s start before task after p f)
    (hcause : f.cause = .placing (.noMoreChips used total report))
    (hgroups : task.groups = .ok [group]) (hchip : s.machine.chip? c = some chip)
    (hfits : WouldFit s chip p.placements.toList group) :
    LeftBehind s start (task :: after) p c := by
  obtain ⟨horder, hplaced, hfails⟩ := h
  have hfollows := tasks_follow_append hm (⟨[], horder ▸ .refl⟩ :
    Passes s start .next (before ++ task :: after) ⟨.ofMachine s.machine start, .empty⟩ [])
  rw [hplaced] at hfollows
  obtain ⟨failed, given, hreached⟩ := hfollows
  obtain ⟨n, result, _, htries, hresult⟩ := placeGroups_tries hm hreached rfl rfl hgroups
  rw [placeGroups_of_placeTask_error hgroups hfails] at hresult
  obtain ⟨f', hended, rfl⟩ := during_eq_error.1 hresult.symm
  obtain ⟨hused, hkept, hpast⟩ := Spent.of_tries hm hgraph htries
    ⟨_, hreached.tail (.takeUp rfl rfl hgroups)⟩ spent_restore hended hcause hchip hfits
  refine ⟨hused, hkept, hpast, ?_⟩
  rcases Explained.of_reached hm hreached c hused with hfailed | ⟨hunderWay, _⟩ | hbefore
  · exact absurd ((Orderly.of_reached hm hreached).saved c hfailed) hkept
  · exact hunderWay.elim
  · exact hbefore

end

/-- When no chip is left for a vertex that is a single group, every working chip that has room for
it was left behind by an attempt that placed an earlier vertex. -/
theorem sliceGraph_exhausted {d : Mesh.MachineSpec} {app : ApplicationGraph} {m : Machine}
    {config : PlacerConfig} {code : Nat} {g : MachineGraph} {f : Failure} {used total : Nat}
    {report : FailureReport} (hm : Machine.ofSpec d = .ok m)
    (hcut : Slicing.sliceGraph code app m = .ok g) (h : placeGraph app g m config = .error f)
    (hcause : f.cause = .placing (.noMoreChips used total report)) :
    ∃ start, Setting.start ⟨app, g, m, config⟩ = .ok start ∧
      Exhausted ⟨app, g, m, config⟩ start f := by
  have hm := Machine.ofSpec_spec hm
  have hgraph := Slicing.wellFormed_of_sliceGraph hcut
  cases hstart : Setting.start ⟨app, g, m, config⟩ with
  | error e =>
      cases (placeGraph_of_start_error hstart).symm.trans h
      exact absurd hcause ((start_immediate hstart).2 _ _ _)
  | ok start =>
      refine ⟨start, rfl, (placeGraph_eq_error_iff (s := ⟨app, g, m, config⟩) hstart).1 h, ?_⟩
      intro before task after p hfails group hgroups c chip hchip
      exact hfails.leftBehind hm hgraph hcause hgroups hchip

/-- Two chips in a row with three cores each for vertices. -/
def gappedSpec : Mesh.MachineSpec where
  width := 2
  height := 1
  chip := { processors := 4, sdram := 100 }

def gappedChip (x : Nat) (links : List Mesh.Link) : Chip where
  coord := ⟨x, 0⟩
  processors := 4
  monitors := 1
  sdram := 100
  routerEntries := 1024
  ethernet := ⟨0, 0⟩
  links

def gappedMachine : Machine :=
  ⟨⟨2, 1, false⟩, 200000, #[some (gappedChip 0 [.east]), some (gappedChip 1 [.west])]⟩

/-- A vertex that takes a part of each chip, and one that would fit beside its first slice. -/
def gappedApp : ApplicationGraph where
  vertices := #[
    { label := "split", atoms := 13, cost := { sdramPerAtom := 10 },
      splitter := .applicationDefined [(0, 5), (6, 12)] false },
    { label := "last", atoms := 1, cost := { fixedSdram := 40 } }]

def gappedSlice (label : String) (app index lo atoms sdram : Nat) : Graph.Call :=
  .vertex ⟨label, some ⟨app⟩, index, .ofLength lo atoms, ⟨1, sdram, 0⟩, none⟩

def gappedGraph : MachineGraph :=
  Graph.graphOf 1 2 [gappedSlice "split:0:5" 0 0 0 6 60, gappedSlice "split:6:12" 0 1 6 7 70,
    gappedSlice "last:0:0" 1 0 0 1 40]

def gapped : Setting := ⟨gappedApp, gappedGraph, gappedMachine, {}⟩

def gappedFirst : Task := ⟨"split", .ok [⟨[⟨0⟩], 60⟩, ⟨[⟨1⟩], 70⟩]⟩

def gappedLast : Task := ⟨"last", .ok [⟨[⟨2⟩], 40⟩]⟩

/-- The second chip is at hand when the last vertex is taken up. -/
def gappedProgress : Progress where
  pool := {
    upcoming := [⟨0, 0⟩, ⟨1, 0⟩]
    used := [⟨1, 0⟩, ⟨0, 0⟩]
    current? := some ⟨⟨1, 0⟩, [2, 3], 30⟩ }
  placements := ⟨[⟨⟨0⟩, ⟨0, 0⟩, 1⟩, ⟨⟨1⟩, ⟨1, 0⟩, 1⟩], by decide, by decide⟩

def gappedFailure : Failure :=
  { gapped.noMoreChips gappedProgress with during := [.placingVertex "last"] }

theorem gapped_cut : Machine.ofSpec gappedSpec = .ok gappedMachine ∧
    Slicing.sliceGraph 1 gappedApp gappedMachine = .ok gappedGraph :=
  ⟨by with_unfolding_all rfl, by with_unfolding_all rfl⟩

theorem gapped_failsOn : FailsOn gapped ⟨0, 0⟩ [gappedFirst] gappedLast [] gappedProgress
    gappedFailure where
  order := by with_unfolding_all rfl
  placed := by with_unfolding_all rfl
  fails := by with_unfolding_all rfl

theorem gapped_fails : placeGraph gappedApp gappedGraph gappedMachine {} = .error gappedFailure :=
  (placeGraph_eq_error_iff (s := gapped) rfl).2 ⟨_, _, _, _, gapped_failsOn⟩

theorem gapped_wouldFit :
    WouldFit gapped (gappedChip 0 [.east]) gappedProgress.placements.toList ⟨[⟨2⟩], 40⟩ where
  cores := by decide
  memory := by decide

/-- The last vertex would fit on the first chip, which was left for the second. -/
theorem sliceGraph_exhausted_gapped :
    placeGraph gappedApp gappedGraph gappedMachine {} = .error gappedFailure ∧
      LeftBehind gapped ⟨0, 0⟩ [gappedLast] gappedProgress ⟨0, 0⟩ := by
  obtain ⟨hm, hcut⟩ := gapped_cut
  refine ⟨gapped_fails, ?_⟩
  obtain ⟨start, hstart, hexhausted⟩ := sliceGraph_exhausted hm hcut gapped_fails rfl
  cases (show gapped.start = .ok ⟨0, 0⟩ from rfl).symm.trans hstart
  exact hexhausted.leftBehind _ _ _ _ gapped_failsOn _ rfl _ _ rfl gapped_wouldFit

/-- No chip is left for a vertex that is free to go anywhere, and would fit on one. -/
theorem sliceGraph_exhausted_too_soon :
    Machine.ofSpec gappedSpec = .ok gappedMachine ∧
    Slicing.sliceGraph 1 gappedApp gappedMachine = .ok gappedGraph ∧
    placeGraph gappedApp gappedGraph gappedMachine {} = .error gappedFailure ∧
    (∃ used total report, gappedFailure.cause = .placing (.noMoreChips used total report)) ∧
    FailsOn gapped ⟨0, 0⟩ [gappedFirst] gappedLast [] gappedProgress gappedFailure ∧
    gappedLast.groups = .ok [⟨[⟨2⟩], 40⟩] ∧ gapped.fixedChip? [⟨2⟩] = .ok none ∧
    gappedMachine.chip? ⟨0, 0⟩ = some (gappedChip 0 [.east]) ∧
    WouldFit gapped (gappedChip 0 [.east]) gappedProgress.placements.toList ⟨[⟨2⟩], 40⟩ := by
  obtain ⟨hm, hcut⟩ := gapped_cut
  exact ⟨hm, hcut, gapped_fails, ⟨_, _, _, rfl⟩, gapped_failsOn, rfl, rfl, rfl, gapped_wouldFit⟩

end MulticastMesh.Placing
