import Mathlib.Data.List.Lattice
import MulticastMesh.Proofs.Graph.Edits
import MulticastMesh.Proofs.Placing.Returns
import MulticastMesh.Proofs.Placing.Safety
/-!
# Groups are placed whole

An attempt commits a group with a fixed location at once and notes free groups until its end, so
an attempt that is abandoned leaves complete groups with a fixed location behind and nothing else.
Between attempts the vertices of a group are all unplaced or all on one chip.  What carries this
is that two groups of one graph have the same vertices or none in common.
-/

namespace MulticastMesh.Placing

open MulticastMesh.Graph (AppVertexId MachineGraph MachineVertexId)
open Mesh (Coord Machine)
open Layout (Placement Placements)
open Slicing (ChipGroup)
open Outcome

/-! ## The groups of all vertices -/

/-- A group of one of the vertices that a search takes up. -/
def Setting.HasGroup (s : Setting) (group : ChipGroup) : Prop :=
  ∃ task ∈ s.tasks, ∃ groups, task.groups = .ok groups ∧ group ∈ groups

def SameOrApart (group group' : ChipGroup) : Prop :=
  group.vertices = group'.vertices ∨ List.Disjoint group.vertices group'.vertices

section

variable {s : Setting} {splitter : Graph.Splitter} {g : MachineGraph} {id : AppVertexId}
  {groups : List ChipGroup} {group group' : ChipGroup}

/-- The vertices cut from an application vertex are one group, or each is a group of its own. -/
theorem chipGroups_cases (h : Slicing.chipGroups splitter g id = .ok groups) :
    (∀ group ∈ groups, group.vertices = g.verticesOf id) ∨
      ∀ group ∈ groups, ∃ v ∈ g.verticesOf id, group.vertices = [v] := by
  rcases chipGroups_eq_ok h with ⟨_, _, rfl⟩ | ⟨_, rfl⟩
  · left
    split
    · simp
    · simp
  · right
    intro group hgroup
    obtain ⟨v, hv, rfl⟩ := List.mem_map.1 hgroup
    exact ⟨v, hv, rfl⟩

theorem mem_verticesOf_of_chipGroups (h : Slicing.chipGroups splitter g id = .ok groups)
    (hgroup : group ∈ groups) {v : MachineVertexId} (hv : v ∈ group.vertices) :
    v ∈ g.verticesOf id := by
  rcases chipGroups_cases h with hwhole | hsingle
  · exact hwhole group hgroup ▸ hv
  · obtain ⟨u, hu, hvertices⟩ := hsingle group hgroup
    rw [hvertices] at hv
    exact List.mem_singleton.1 hv ▸ hu

theorem sameOrApart_single {u v : MachineVertexId} (h : group.vertices = [u])
    (h' : group'.vertices = [v]) : SameOrApart group group' := by
  unfold SameOrApart
  rw [h, h']
  by_cases huv : u = v
  · exact Or.inl (by rw [huv])
  · exact Or.inr (by simpa [eq_comm] using huv)

theorem sameOrApart_of_chipGroups (h : Slicing.chipGroups splitter g id = .ok groups)
    (hgroup : group ∈ groups) (hgroup' : group' ∈ groups) : SameOrApart group group' := by
  rcases chipGroups_cases h with hwhole | hsingle
  · exact Or.inl ((hwhole group hgroup).trans (hwhole group' hgroup').symm)
  · obtain ⟨u, _, hu⟩ := hsingle group hgroup
    obtain ⟨v, _, hv⟩ := hsingle group' hgroup'
    exact sameOrApart_single hu hv

theorem mem_tasks {task : Task} : task ∈ s.tasks ↔
    (∃ a w, s.app.vertices[a.index]? = some w ∧
      ⟨w.label, Slicing.chipGroups w.splitter s.graph a⟩ = task) ∨
    ∃ v w, s.graph.HasVertex v w ∧ w.app? = none ∧
      ⟨w.label, .ok [⟨[v], w.resources.sdram⟩]⟩ = task := by
  simp only [Setting.tasks, List.mem_append, List.mem_map, List.mem_filter, Prod.exists,
    Slicing.mem_app_toList, MachineGraph.mem_toList, Option.isNone_iff_eq_none, and_assoc]

theorem Setting.HasGroup.cases (h : s.HasGroup group) :
    (∃ a w groups, s.app.vertices[a.index]? = some w ∧
      Slicing.chipGroups w.splitter s.graph a = .ok groups ∧ group ∈ groups) ∨
    ∃ v w, s.graph.HasVertex v w ∧ w.app? = none ∧ group.vertices = [v] := by
  obtain ⟨task, htask, groups, hgroups, hgroup⟩ := h
  rcases mem_tasks.1 htask with ⟨a, w, hw, rfl⟩ | ⟨v, w, hw, hnone, rfl⟩
  · exact Or.inl ⟨a, w, groups, hw, hgroups, hgroup⟩
  · cases hgroups
    cases List.mem_singleton.1 hgroup
    exact Or.inr ⟨v, w, hw, hnone, rfl⟩

theorem sameOrApart_of_hasGroup (hgraph : s.graph.WellFormed) (h : s.HasGroup group)
    (h' : s.HasGroup group') : SameOrApart group group' := by
  have hself : ∀ {group group' : ChipGroup} {a w groups v x},
      Slicing.chipGroups w s.graph a = .ok groups → group ∈ groups →
      s.graph.HasVertex v x → x.app? = none → group'.vertices = [v] →
      List.Disjoint group.vertices group'.vertices := by
    intro group group' a w groups v x hgroups hgroup hx hnone hvertices
    rw [hvertices, List.disjoint_singleton]
    intro hv
    obtain ⟨y, hy, hya⟩ := (hgraph.members a v).1 (mem_verticesOf_of_chipGroups hgroups hgroup hv)
    rw [hx.eq hy, hya] at hnone
    cases hnone
  rcases h.cases with ⟨a, w, groups, hw, hgroups, hgroup⟩ | ⟨v, x, hx, hnone, hvertices⟩
  · rcases h'.cases with ⟨b, w', groups', hw', hgroups', hgroup'⟩ | ⟨v, x, hx, hnone, hvertices⟩
    · by_cases hab : a = b
      · subst hab
        cases hw.symm.trans hw'
        cases hgroups.symm.trans hgroups'
        exact sameOrApart_of_chipGroups hgroups hgroup hgroup'
      · refine Or.inr fun v hv hv' => hab ?_
        obtain ⟨y, hy, hya⟩ := (hgraph.members a v).1
          (mem_verticesOf_of_chipGroups hgroups hgroup hv)
        obtain ⟨z, hz, hzb⟩ := (hgraph.members b v).1
          (mem_verticesOf_of_chipGroups hgroups' hgroup' hv')
        rw [hy.eq hz] at hya
        exact Option.some.inj (hya.symm.trans hzb)
    · exact Or.inr (hself hgroups hgroup hx hnone hvertices)
  · rcases h'.cases with ⟨b, w', groups', hw', hgroups', hgroup'⟩ | ⟨u, y, _, _, hu⟩
    · exact Or.inr (hself hgroups' hgroup' hx hnone hvertices).symm
    · exact sameOrApart_single hvertices hu

theorem exists_groups (hgraph : s.graph.WellFormed) {task : Task} (htask : task ∈ s.tasks) :
    ∃ groups, task.groups = .ok groups := by
  rcases mem_tasks.1 htask with ⟨a, w, _, rfl⟩ | ⟨_, _, _, _, rfl⟩
  · have hmemory : ∀ e, Slicing.chipGroups w.splitter s.graph a ≠ .error e := by
      intro e h
      rcases bind_eq_error.1 h with hmap | ⟨memory, _, h⟩
      · have hok : ∃ memory, (Except.error e : Except Graph.GraphError _) = .ok memory :=
          hmap ▸ exists_mapM_eq_ok fun v hv => by
            obtain ⟨x, hx, _⟩ := (hgraph.members a v).1 hv
            exact ⟨_, bind_eq_ok.2 ⟨x, MachineGraph.vertex_eq_ok.2 hx, rfl⟩⟩
        obtain ⟨memory, hmemory⟩ := hok
        cases hmemory
      · split at h
        · cases h
        · cases h
    cases hgroups : Slicing.chipGroups w.splitter s.graph a with
    | ok groups => exact ⟨groups, rfl⟩
    | error e => exact absurd hgroups (hmemory e)
  · exact ⟨_, rfl⟩

end

/-! ## One group -/

section

variable {d : Mesh.MachineSpec} {s : Setting} {p p' : Progress} {frontier : Frontier}
  {pending made : List Placement} {from? : Option Coord} {group group' : ChipGroup}
  {left : List ChipGroup} {first : MachineVertexId} {others : List MachineVertexId}
  {sdram : Nat} {chip : Coord} {result : Attempt}

/-- A group that was put on one chip is whole, and so is any other. -/
theorem whole_of_sameOrApart (hvertices : made.map Placement.vertex = group.vertices)
    (hchip : ∀ q ∈ made, q.chip = chip) (h : SameOrApart group group') :
    Whole made group'.vertices := by
  rcases h with hsame | hapart
  · refine Or.inr ⟨chip, fun v hv => ?_⟩
    rw [← hsame, ← hvertices] at hv
    obtain ⟨q, hq, rfl⟩ := List.mem_map.1 hv
    exact ⟨q, hq, rfl, hchip q hq⟩
  · refine Or.inl fun q hq hmem => hapart ?_ hmem
    rw [← hvertices]
    exact List.mem_map_of_mem hq

theorem placeOn_made (hm : Machine.Fulfils d s.machine) {placements : Placements} {c : Coord}
    (h : s.placeOn placements c first others sdram pending = .ok made) :
    ∃ room, room.chip = c ∧ Made room (first :: others) made := by
  unfold Setting.placeOn at h
  simp only at h
  split at h
  · obtain ⟨_, _, hthrow⟩ := bind_eq_ok.1 h
    cases hthrow
  obtain ⟨room, hroom, h⟩ := bind_eq_ok.1 h
  obtain ⟨residents, _, h⟩ := bind_eq_ok.1 h
  obtain ⟨⟨rest, labels⟩, htake, h⟩ := bind_eq_ok.1 h
  simp only at h
  split at h
  · obtain ⟨_, _, hthrow⟩ := bind_eq_ok.1 h
    cases hthrow
  · exact ⟨rest, (takePending_spec htake).1.trans (roomOn_chip hm hroom).1,
      (giveFixedCores_spec h).1⟩

theorem placeFixed_made (hm : Machine.Fulfils d s.machine)
    (h : s.placeFixed first others sdram pending p = .ok (true, p')) :
    ∃ chip made, s.fixedChip? (first :: others) = .ok (some chip) ∧
      made.map Placement.vertex = first :: others ∧ (∀ q ∈ made, q.chip = chip) ∧
      p'.placements.toList.Perm (p.placements.toList ++ made) := by
  obtain ⟨_, chip, made, placements, hfixed, hplace, hadd, rfl⟩ | ⟨hfalse, _⟩ := placeFixed_cases h
  · obtain ⟨room, rfl, hmade⟩ := placeOn_made hm hplace
    exact ⟨room.chip, made, hfixed, hmade.vertices, hmade.chip, Placements.addAll_perm hadd⟩
  · cases hfalse

theorem findRoom_placements {cores fuel : Nat} {found : Option (ChipRoom × Frontier)}
    (h : s.findRoom cores sdram fuel frontier from? p = .ok (found, p')) :
    p'.placements = p.placements := by
  induction fuel generalizing p frontier from? with
  | zero => cases h
  | succ fuel ih =>
      rcases findRoom_succ s cores sdram fuel frontier from? p with
        ⟨room, _, _, hrun⟩ | ⟨_, hrun⟩
      · cases hrun.symm.trans h
        rfl
      · rw [hrun] at h
        obtain ⟨grown, p₁, hgrown, hrest⟩ := runState_bind_eq_ok.1 h
        obtain ⟨rfl, rfl⟩ | ⟨chip, widened, room, rfl, _, _, rfl⟩ := grow_cases hgrown
        · cases runState_pure_eq_ok.1 hrest
          rfl
        · have hsame := ih hrest
          exact hsame

/-- What an attempt does with its next group: it is placed already, or is placed at once, or
found to have no room, or noted on one chip. -/
inductive NextGroup (s : Setting) (frontier : Frontier) (pending : List Placement)
    (from? : Option Coord) (group : ChipGroup) (left : List ChipGroup) (p : Progress) :
    Attempt → Progress → Prop where
  | skip {result : Attempt} {p' : Progress} (hplaced : unplaced p.placements group = [])
      (hrest : s.placeFrom frontier pending from? left p = .ok (result, p')) :
      NextGroup s frontier pending from? group left p result p'
  | fix {result : Attempt} {p₁ p' : Progress} {chip : Coord} {made : List Placement}
      (hvertices : unplaced p.placements group ≠ [])
      (hfixed : s.fixedChip? (unplaced p.placements group) = .ok (some chip))
      (hmade : made.map Placement.vertex = unplaced p.placements group)
      (hchip : ∀ q ∈ made, q.chip = chip)
      (hperm : p₁.placements.toList.Perm (p.placements.toList ++ made))
      (hrest : s.placeFrom frontier pending from? left p₁ = .ok (result, p')) :
      NextGroup s frontier pending from? group left p result p'
  | abandon {cores sdram : Nat} {p' : Progress} (hsame : p'.placements = p.placements) :
      NextGroup s frontier pending from? group left p (.abandoned cores sdram) p'
  | give {result : Attempt} {p₁ p' : Progress} {frontier' : Frontier} {from?' : Option Coord}
      {chip : Coord} {made : List Placement} (hvertices : unplaced p.placements group ≠ [])
      (hmade : made.map Placement.vertex = unplaced p.placements group)
      (hchip : ∀ q ∈ made, q.chip = chip) (hsame : p₁.placements = p.placements)
      (hrest : s.placeFrom frontier' (pending ++ made) from?' left p₁ = .ok (result, p')) :
      NextGroup s frontier pending from? group left p result p'

theorem placeFrom_cons (hm : Machine.Fulfils d s.machine)
    (h : s.placeFrom frontier pending from? (group :: left) p = .ok (result, p')) :
    NextGroup s frontier pending from? group left p result p' := by
  unfold Setting.placeFrom at h
  obtain ⟨_, _, hget, h⟩ := runState_bind_eq_ok.1 h
  cases runState_get_eq_ok.1 hget
  have hfilter : (group.vertices.filter fun v => !p.placements.isPlaced v) =
      unplaced p.placements group := rfl
  rw [hfilter] at h
  cases hvertices : unplaced p.placements group with
  | nil =>
      rw [hvertices] at h
      exact .skip hvertices h
  | cons first others =>
      rw [hvertices] at h
      have hne : unplaced p.placements group ≠ [] := by simp [hvertices]
      obtain ⟨fixed, p₁, hplace, hcont⟩ := runState_bind_eq_ok.1 h
      rcases placeFixed_cases hplace with ⟨rfl, _⟩ | ⟨rfl, _, rfl⟩
      · obtain ⟨chip, made, hfixed, hmade, hchip, hperm⟩ := placeFixed_made hm hplace
        rw [← hvertices] at hfixed hmade
        exact .fix hne hfixed hmade hchip hperm hcont
      · obtain ⟨found, p₂, hfind, hcont⟩ := runState_bind_eq_ok.1 hcont
        have hsame := findRoom_placements hfind
        cases found with
        | none =>
            obtain ⟨_, _, hmodify, hreturn⟩ := runState_bind_eq_ok.1 hcont
            cases runState_modify_eq_ok.1 hmodify
            cases runState_pure_eq_ok.1 hreturn
            exact .abandon hsame
        | some found =>
            obtain ⟨room, frontier'⟩ := found
            obtain ⟨⟨made, rest⟩, _, hlift, hcont⟩ := runState_bind_eq_ok.1 hcont
            obtain ⟨_, hgive, hstate⟩ := runState_lift_eq_ok.1 hlift
            cases hstate
            obtain ⟨_, _, hmodify, hrest⟩ := runState_bind_eq_ok.1 hcont
            cases runState_modify_eq_ok.1 hmodify
            obtain ⟨hmade, _⟩ := giveCores_spec hgive
            have hmadeVertices := hmade.vertices
            rw [← hvertices] at hmadeVertices
            refine .give hne hmadeVertices hmade.chip ?_ hrest
            exact hsame

end

/-! ## All groups along a run -/

/-- Every group of a search is on one chip or not at all among some placements. -/
def AllWhole (s : Setting) (l : List Placement) : Prop :=
  ∀ group, s.HasGroup group → Whole l group.vertices

/-- What a run has in hand are groups of the search, with whole groups pending. -/
def Control.Intact (s : Setting) : Control → Prop
  | .next => True
  | .attempt job => ∀ group ∈ job.groups, s.HasGroup group
  | .place job patch left => (∀ group ∈ job.groups, s.HasGroup group) ∧
      (∀ group ∈ left, s.HasGroup group) ∧ AllWhole s patch.pending
  | .check job _ _ => ∀ group ∈ job.groups, s.HasGroup group

structure Intact (s : Setting) (stage : Stage) : Prop where
  todo : ∀ task ∈ stage.todo, task ∈ s.tasks
  control : stage.control.Intact s
  placed : AllWhole s stage.progress.placements.toList

section

variable {d : Mesh.MachineSpec} {s : Setting} {start chip : Coord} {stage stage' : Stage}
  {l l' made : List Placement} {group : ChipGroup} {placements : Placements}

theorem allWhole_nil (s : Setting) : AllWhole s [] := fun _ _ => Or.inl (by simp)

theorem AllWhole.perm (h : AllWhole s l) (hperm : l.Perm l') : AllWhole s l' :=
  fun group hgroup => (h group hgroup).perm hperm

theorem AllWhole.append (h : AllWhole s l) (h' : AllWhole s l') : AllWhole s (l ++ l') :=
  fun group hgroup => (h group hgroup).union (h' group hgroup)

theorem allWhole_of_made (hgraph : s.graph.WellFormed) (hgroup : s.HasGroup group)
    (hvertices : made.map Placement.vertex = group.vertices) (hchip : ∀ q ∈ made, q.chip = chip) :
    AllWhole s made :=
  fun _ hgroup' =>
    whole_of_sameOrApart hvertices hchip (sameOrApart_of_hasGroup hgraph hgroup hgroup')

/-- A group that is not placed yet is not placed in part either. -/
theorem AllWhole.unplaced_eq (h : AllWhole s placements.toList) (hgroup : s.HasGroup group)
    (hne : unplaced placements group ≠ []) : unplaced placements group = group.vertices :=
  unplaced_eq_of_whole (h group hgroup) hne

theorem Intact.initial (s : Setting) (start : Coord) : Intact s (.initial s start) where
  todo := fun _ htask => htask
  control := trivial
  placed := allWhole_nil s

theorem Intact.step (hm : Machine.Fulfils d s.machine) (hgraph : s.graph.WellFormed)
    (h : Intact s stage) (hstep : Step s stage stage') : Intact s stage' := by
  obtain ⟨htodo, hcontrol, hplaced⟩ := h
  cases hstep with
  | @takeUp task todo groups hnext htask hgroups =>
      rw [htask] at htodo
      obtain ⟨hfirst, hrest⟩ := List.forall_mem_cons.1 htodo
      exact ⟨hrest, fun group hgroup => ⟨task, hfirst, groups, hgroups, hgroup⟩, hplaced⟩
  | pass _ => exact ⟨htodo, trivial, hplaced⟩
  | start hattempt _ hstart _ =>
      rw [hattempt] at hcontrol
      obtain ⟨_, _, _, hsame, _⟩ := startPatch_cases hstart
      exact ⟨htodo, ⟨hcontrol, hcontrol, allWhole_nil s⟩, by rw [hsame]; exact hplaced⟩
  | skip hplace _ =>
      rw [hplace] at hcontrol
      obtain ⟨hjob, hleft, hpending⟩ := hcontrol
      exact ⟨htodo, ⟨hjob, (List.forall_mem_cons.1 hleft).2, hpending⟩, hplaced⟩
  | fix hplace hvertices hfixed =>
      rw [hplace] at hcontrol
      obtain ⟨hjob, hleft, hpending⟩ := hcontrol
      obtain ⟨hgroup, hleft⟩ := List.forall_mem_cons.1 hleft
      obtain ⟨chip, made, _, hmade, hchip, hperm⟩ := placeFixed_made hm hfixed
      rw [← hvertices, hplaced.unplaced_eq hgroup (by simp [hvertices])] at hmade
      exact ⟨htodo, ⟨hjob, hleft, hpending⟩,
        (hplaced.append (allWhole_of_made hgraph hgroup hmade hchip)).perm hperm.symm⟩
  | give hplace hloose hroom hgive =>
      rw [hplace] at hcontrol
      obtain ⟨hjob, hleft, hpending⟩ := hcontrol
      obtain ⟨hgroup, hleft⟩ := List.forall_mem_cons.1 hleft
      obtain ⟨hmade, _⟩ := giveCores_spec hgive
      have hvertices := hmade.vertices
      rw [hplaced.unplaced_eq hgroup hloose.1] at hvertices
      exact ⟨htodo, ⟨hjob, hleft,
        hpending.append (allWhole_of_made hgraph hgroup hvertices hmade.chip)⟩, hplaced⟩
  | grow hplace _ _ hgrow _ =>
      rw [hplace] at hcontrol
      obtain ⟨hnone, _⟩ | ⟨_, _, _, _, _, _, rfl⟩ := grow_cases hgrow
      · cases hnone
      · exact ⟨htodo, hcontrol, hplaced⟩
  | abandon hplace _ _ hgrow =>
      rw [hplace] at hcontrol
      obtain ⟨_, rfl⟩ | ⟨_, _, _, hsome, _⟩ := grow_cases hgrow
      · exact ⟨htodo, hcontrol.1, hplaced⟩
      · cases hsome
  | again hcheck _ =>
      rw [hcheck] at hcontrol
      exact ⟨htodo, hcontrol, hplaced⟩
  | commit hplace hadd =>
      rw [hplace] at hcontrol
      exact ⟨htodo, trivial,
        (hplaced.append hcontrol.2.2).perm (Placements.addAll_perm hadd).symm⟩

theorem Intact.of_reached (hm : Machine.Fulfils d s.machine) (hgraph : s.graph.WellFormed)
    (h : Reached s start stage) : Intact s stage := by
  induction h with
  | refl => exact .initial s start
  | tail _ hstep ih => exact ih.step hm hgraph hstep

end

/-! ## What an attempt leaves behind -/

structure PlacedFixed (s : Setting) (group : ChipGroup) (made : List Placement) : Prop where
  fixed : ∃ chip, s.fixedChip? group.vertices = .ok (some chip) ∧ ∀ q ∈ made, q.chip = chip
  vertices : made.map Placement.vertex = group.vertices

/-- Placements that were joined by some of the groups with a fixed location, each complete. -/
def GrowsByFixed (s : Setting) (groups : List ChipGroup) (before after : Placements) : Prop :=
  ∃ batches : List (ChipGroup × List Placement), (batches.map Prod.fst).Sublist groups ∧
    (∀ batch ∈ batches, PlacedFixed s batch.1 batch.2) ∧
    after.toList.Perm (before.toList ++ batches.flatMap Prod.snd)

section

variable {d : Mesh.MachineSpec} {s : Setting} {p p' : Progress} {frontier : Frontier}
  {pending : List Placement} {from? : Option Coord} {groups : List ChipGroup}
  {cores sdram : Nat}

/-- Induction over the groups; what is pending is lost. -/
theorem placeFrom_abandoned (hm : Machine.Fulfils d s.machine) (hgraph : s.graph.WellFormed)
    (hgroups : ∀ group ∈ groups, s.HasGroup group) (hplaced : AllWhole s p.placements.toList)
    (h : s.placeFrom frontier pending from? groups p = .ok (.abandoned cores sdram, p')) :
    GrowsByFixed s groups p.placements p'.placements := by
  induction groups generalizing p frontier pending from? with
  | nil =>
      unfold Setting.placeFrom at h
      obtain ⟨_, _, _, h⟩ := runState_bind_eq_ok.1 h
      obtain ⟨_, _, _, h⟩ := runState_bind_eq_ok.1 h
      obtain ⟨_, _, _, hreturn⟩ := runState_bind_eq_ok.1 h
      cases runState_pure_eq_ok.1 hreturn
  | cons group left ih =>
      obtain ⟨hgroup, hleft⟩ := List.forall_mem_cons.1 hgroups
      cases placeFrom_cons hm h with
      | skip _ hrest =>
          obtain ⟨batches, hsub, hfixed, hperm⟩ := ih hleft hplaced hrest
          exact ⟨batches, hsub.cons _, hfixed, hperm⟩
      | @fix _ p₁ _ chip made hne hchip? hmade hchip hstep hrest =>
          rw [hplaced.unplaced_eq hgroup hne] at hchip? hmade
          have hplaced' := (hplaced.append (allWhole_of_made hgraph hgroup hmade hchip)).perm
            hstep.symm
          obtain ⟨batches, hsub, hfixed, hperm⟩ := ih hleft hplaced' hrest
          refine ⟨(group, made) :: batches, hsub.cons_cons _, ?_, ?_⟩
          · rw [List.forall_mem_cons]
            exact ⟨⟨⟨chip, hchip?, hchip⟩, hmade⟩, hfixed⟩
          · rw [List.flatMap_cons, ← List.append_assoc]
            exact hperm.trans (hstep.append_right _)
      | abandon hsame => exact ⟨[], List.nil_sublist _, by simp, by simp [hsame]⟩
      | give _ _ _ hsame hrest =>
          rw [← hsame] at hplaced ⊢
          obtain ⟨batches, hsub, hfixed, hperm⟩ := ih hleft hplaced hrest
          exact ⟨batches, hsub.cons _, hfixed, hperm⟩

/-- Placements that keep the old ones and have what was pending and all members of some groups. -/
structure Completes (before after : Placements) (pending : List Placement)
    (groups : List ChipGroup) : Prop where
  kept : ∀ q ∈ before.toList, q ∈ after.toList
  pending : ∀ q ∈ pending, q ∈ after.toList
  placed : ∀ group ∈ groups, ∀ v ∈ group.vertices, after.isPlaced v = true

/-- Induction over the groups; what is pending is placed at the end. -/
theorem placeFrom_placed (hm : Machine.Fulfils d s.machine)
    (h : s.placeFrom frontier pending from? groups p = .ok (.placed, p')) :
    Completes p.placements p'.placements pending groups := by
  induction groups generalizing p frontier pending from? with
  | nil =>
      unfold Setting.placeFrom at h
      obtain ⟨_, _, hget, h⟩ := runState_bind_eq_ok.1 h
      cases runState_get_eq_ok.1 hget
      obtain ⟨placements, _, hlift, h⟩ := runState_bind_eq_ok.1 h
      obtain ⟨_, hadd, hstate⟩ := runState_lift_eq_ok.1 hlift
      cases hstate
      obtain ⟨_, _, hset, hreturn⟩ := runState_bind_eq_ok.1 h
      cases runState_set_eq_ok.1 hset
      cases runState_pure_eq_ok.1 hreturn
      have hperm := Placements.addAll_perm (lift_eq_ok.1 hadd)
      exact ⟨fun q hq => hperm.mem_iff.2 (List.mem_append_left _ hq),
        fun q hq => hperm.mem_iff.2 (List.mem_append_right _ hq), by simp⟩
  | cons group left ih =>
      cases placeFrom_cons hm h with
      | skip hplaced hrest =>
          have hend := ih hrest
          refine ⟨hend.kept, hend.pending, List.forall_mem_cons.2 ⟨?_, hend.placed⟩⟩
          exact isPlaced_of_made [] (List.map_nil.trans hplaced.symm) hend.kept (by simp)
      | @fix _ p₁ _ _ made _ _ hmade _ hperm hrest =>
          have hend := ih hrest
          have hkept : ∀ q ∈ p.placements.toList, q ∈ p'.placements.toList :=
            fun q hq => hend.kept q (hperm.mem_iff.2 (List.mem_append_left _ hq))
          have hin : ∀ q ∈ made, q ∈ p'.placements.toList :=
            fun q hq => hend.kept q (hperm.mem_iff.2 (List.mem_append_right _ hq))
          exact ⟨hkept, hend.pending, List.forall_mem_cons.2
            ⟨isPlaced_of_made made hmade hkept hin, hend.placed⟩⟩
      | @give _ p₁ _ _ _ _ made _ hmade _ hsame hrest =>
          have hend := ih hrest
          rw [← hsame] at hmade ⊢
          refine ⟨hend.kept, fun q hq => hend.pending q (List.mem_append_left _ hq),
            List.forall_mem_cons.2 ⟨?_, hend.placed⟩⟩
          exact isPlaced_of_made made hmade hend.kept
            fun q hq => hend.pending q (List.mem_append_right _ hq)

theorem attempt_abandoned (hm : Machine.Fulfils d s.machine) (hgraph : s.graph.WellFormed)
    (hgroups : ∀ group ∈ groups, s.HasGroup group) (hplaced : AllWhole s p.placements.toList)
    (h : s.attempt groups p = .ok (.abandoned cores sdram, p')) :
    GrowsByFixed s groups p.placements p'.placements := by
  cases groups with
  | nil => cases runState_pure_eq_ok.1 h
  | cons group left =>
      obtain ⟨frontier, p₁, hstart, hrest⟩ := runState_bind_eq_ok.1 h
      obtain ⟨_, _, _, hsame, _⟩ := startPatch_cases hstart
      rw [← hsame] at hplaced ⊢
      exact placeFrom_abandoned hm hgraph hgroups hplaced hrest

theorem attempt_placed (hm : Machine.Fulfils d s.machine)
    (h : s.attempt groups p = .ok (.placed, p')) :
    Completes p.placements p'.placements [] groups := by
  cases groups with
  | nil =>
      cases runState_pure_eq_ok.1 h
      exact ⟨fun _ hq => hq, by simp, by simp⟩
  | cons group left =>
      obtain ⟨frontier, p₁, hstart, hrest⟩ := runState_bind_eq_ok.1 h
      obtain ⟨_, _, _, hsame, _⟩ := startPatch_cases hstart
      rw [← hsame]
      exact placeFrom_placed hm hrest

end

/-! ## Between attempts -/

/-- Vertices that are all unplaced, or all on cores of their own on one chip. -/
def StandTogether (placements : Placements) (vertices : List MachineVertexId) : Prop :=
  (∀ v ∈ vertices, placements.isPlaced v = false) ∨
    ∃ chip, ∃ core : MachineVertexId → Nat,
      (∀ v ∈ vertices, ⟨v, chip, core v⟩ ∈ placements.toList) ∧
      ∀ v ∈ vertices, ∀ w ∈ vertices, core v = core w → v = w

theorem standTogether_of_whole {placements : Placements} {vertices : List MachineVertexId}
    (h : Whole placements.toList vertices) : StandTogether placements vertices := by
  rcases h with hnone | ⟨chip, hall⟩
  · left
    intro v hv
    rw [← Bool.not_eq_true, Placements.isPlaced_iff]
    rintro ⟨q, hq, rfl⟩
    exact hnone q hq hv
  · right
    have hon : ∀ v ∈ vertices,
        ⟨v, chip, ((placements.find? v).map Placement.processor).getD 0⟩ ∈ placements.toList := by
      intro v hv
      obtain ⟨q, hq, rfl, rfl⟩ := hall v hv
      rw [Placements.find?_eq_some_iff.2 ⟨hq, rfl⟩]
      exact hq
    refine ⟨chip, _, hon, fun v hv w hw hcore => ?_⟩
    have heq := Placements.eq_of_core_eq (hon v hv) (hon w hw) (by simp [Placement.core, hcore])
    exact congrArg Placement.vertex heq

/-- Groups are placed whole, whatever happens to the attempts at them. -/
structure PlacesWhole (s : Setting) (start : Coord) : Prop where
  grouped : ∀ task ∈ s.tasks, ∃ groups, task.groups = .ok groups
  /-- Before and after every attempt. -/
  boundary : ∀ stage, Reached s start stage → ¬stage.control.UnderWay →
    ∀ group, s.HasGroup group → StandTogether stage.progress.placements group.vertices
  /-- An attempt without enough space leaves complete groups with a fixed location behind. -/
  abandoned : ∀ stage job cores sdram p, Reached s start stage → stage.control = .attempt job →
    s.attempt job.groups stage.progress = .ok (.abandoned cores sdram, p) →
    GrowsByFixed s job.groups stage.progress.placements p.placements
  placed : ∀ stage job p, Reached s start stage → stage.control = .attempt job →
    s.attempt job.groups stage.progress = .ok (.placed, p) →
    ∀ group ∈ job.groups, ∀ v ∈ group.vertices, p.placements.isPlaced v = true
  /-- The run goes on from where an attempt ends. -/
  goesOn : ∀ stage job result p, Reached s start stage → stage.control = .attempt job →
    s.attempt job.groups stage.progress = .ok (result, p) →
    ∃ stage', Reached s start stage' ∧ ¬stage'.control.UnderWay ∧ stage'.progress = p
  /-- The placements that the search returns are those of the last stage of its run. -/
  succeeds : ∀ placements, placeGraph s.app s.graph s.machine s.config = .ok placements →
    ∃ stage, Reached s start stage ∧ stage.control = .next ∧ stage.todo = [] ∧
      stage.progress.placements = placements

section

variable {d : Mesh.MachineSpec} {s : Setting} {start : Coord}

theorem reached_after_attempt (hm : Machine.Fulfils d s.machine) {stage : Stage} {job : Job}
    {result : Attempt} {p : Progress} (h : Reached s start stage)
    (hcontrol : stage.control = .attempt job)
    (hattempt : s.attempt job.groups stage.progress = .ok (result, p)) :
    ∃ stage', Reached s start stage' ∧ ¬stage'.control.UnderWay ∧ stage'.progress = p := by
  obtain ⟨control, todo, progress, failed, given⟩ := stage
  cases hcontrol
  have hends := Passes.attempted hm ⟨given, h⟩ hattempt
  cases result with
  | placed =>
      obtain ⟨failed, given, hreached⟩ := hends
      exact ⟨_, hreached, id, rfl⟩
  | abandoned cores sdram =>
      obtain ⟨given, given', hreached⟩ := hends
      exact ⟨_, hreached, id, rfl⟩

theorem placesWhole (hm : Machine.Fulfils d s.machine) (hgraph : s.graph.WellFormed)
    (hstart : s.start = .ok start) : PlacesWhole s start where
  grouped := fun _ => exists_groups hgraph
  boundary := fun stage hreached _ group hgroup =>
    standTogether_of_whole ((Intact.of_reached hm hgraph hreached).placed group hgroup)
  abandoned := by
    intro stage job cores sdram p hreached hcontrol hattempt
    obtain ⟨_, hgroups, hplaced⟩ := Intact.of_reached hm hgraph hreached
    rw [hcontrol] at hgroups
    exact attempt_abandoned hm hgraph hgroups hplaced hattempt
  placed := fun stage job p _ _ hattempt => (attempt_placed hm hattempt).placed
  goesOn := fun stage job result p => reached_after_attempt hm
  succeeds := (placeGraph_follows hm hstart).1

/-- A graph that was made by its own operations is placed group by group. -/
theorem graphOf_placesWhole {app : Graph.ApplicationGraph} {m : Machine} {config : PlacerConfig}
    {code appVertices : Nat} {calls : List Graph.Call} (hm : Machine.ofSpec d = .ok m)
    (hstart : Setting.start ⟨app, Graph.graphOf code appVertices calls, m, config⟩ = .ok start) :
    PlacesWhole ⟨app, Graph.graphOf code appVertices calls, m, config⟩ start :=
  placesWhole (Machine.ofSpec_spec hm)
    ((MachineGraph.wellFormed_empty code appVertices).afterCalls calls).1 hstart

end

/-- Two chips with three cores each for vertices and no link between them. -/
def twoIslands : Mesh.MachineSpec where
  width := 2
  height := 1
  chip := { processors := 4 }
  deadLinks := [(⟨0, 0⟩, .east)]

/-- A pair that shares a chip, and a vertex whose machine vertices may be apart. -/
def mixedApp : Graph.ApplicationGraph where
  vertices := #[
    { label := "pair", atoms := 2, splitter := .applicationDefined [(0, 0), (1, 1)] true },
    { label := "mixed", atoms := 3, splitter := .fixedSlice 1 }]

def sliceOf (a : AppVertexId) (index : Nat) (chip? : Option Coord) : Graph.MachineVertex where
  label := "slice"
  app? := some a
  index
  slice := .ofLength index 1
  resources := ⟨1, 10, 0⟩
  location? := chip?.map fun chip => ⟨chip, none⟩

/-- The pair leaves room for one free slice on the first island, so the fixed slice between the
free ones is placed by an attempt that is abandoned. -/
def mixedCalls : List Graph.Call :=
  [.vertex (sliceOf ⟨0⟩ 0 none), .vertex (sliceOf ⟨0⟩ 1 none), .vertex (sliceOf ⟨1⟩ 0 none),
    .vertex (sliceOf ⟨1⟩ 1 (some ⟨1, 0⟩)), .vertex (sliceOf ⟨1⟩ 2 none)]

def placedMixed : Outcome (Machine × Coord × Placements) := do
  let m ← Machine.ofSpec twoIslands
  let start ← Setting.start ⟨mixedApp, Graph.graphOf 1 2 mixedCalls, m, {}⟩
  let placements ← placeGraph mixedApp (Graph.graphOf 1 2 mixedCalls) m {}
  return (m, start, placements)

theorem graphOf_placesWhole_mixed : ∃ m start placements, Machine.ofSpec twoIslands = .ok m ∧
    Setting.start ⟨mixedApp, Graph.graphOf 1 2 mixedCalls, m, {}⟩ = .ok start ∧
    placeGraph mixedApp (Graph.graphOf 1 2 mixedCalls) m {} = .ok placements ∧
    PlacesWhole ⟨mixedApp, Graph.graphOf 1 2 mixedCalls, m, {}⟩ start := by
  obtain ⟨_, hrun⟩ := exists_of_isOk (show placedMixed.isOk = true by decide +kernel)
  obtain ⟨m, hm, hrun⟩ := bind_eq_ok.1 hrun
  obtain ⟨start, hstart, hrun⟩ := bind_eq_ok.1 hrun
  obtain ⟨placements, hplaced, _⟩ := bind_eq_ok.1 hrun
  have hm := lift_eq_ok.1 hm
  have hstart := lift_eq_ok.1 hstart
  exact ⟨m, start, placements, hm, hstart, hplaced, graphOf_placesWhole hm hstart⟩

end MulticastMesh.Placing
