import MulticastMesh.Proofs.Placing.FixedCores
import MulticastMesh.Proofs.Placing.Wholes
/-!
# Fixed locations

A group goes to the chip that its first member with a fixed location names, each member with a
fixed core to that core, and a search that succeeds leaves no machine vertex out.  So a vertex with
a fixed location is where it has to be, unless a member of its group in front of it is fixed to
another chip.
-/

namespace MulticastMesh.Placing

open MulticastMesh.Graph (AppVertexId ApplicationGraph MachineGraph MachineVertex MachineVertexId)
open Mesh (Coord Machine)
open Layout (Placement Placements)
open Slicing (ChipGroup)
open Outcome

/-! ## Every machine vertex is in a group -/

section

variable {s : Setting} {splitter : Graph.Splitter} {g : MachineGraph} {id : AppVertexId}
  {groups : List ChipGroup} {group : ChipGroup} {v : MachineVertexId} {w : MachineVertex}

theorem exists_mem_of_chipGroups (h : Slicing.chipGroups splitter g id = .ok groups)
    (hv : v ∈ g.verticesOf id) : ∃ group ∈ groups, v ∈ group.vertices := by
  rcases chipGroups_eq_ok h with ⟨_, _, rfl⟩ | ⟨_, rfl⟩
  · have hne : ¬(g.verticesOf id).isEmpty = true := by
      rw [List.isEmpty_iff]
      exact List.ne_nil_of_mem hv
    rw [if_neg hne]
    exact ⟨_, List.mem_singleton_self _, hv⟩
  · exact ⟨_, List.mem_map_of_mem hv, List.mem_singleton_self v⟩

theorem exists_hasGroup (hgraph : s.graph.WellFormed) (hsize : s.graph.byApp.size = s.app.size)
    (hv : s.graph.HasVertex v w) : ∃ group, s.HasGroup group ∧ v ∈ group.vertices := by
  cases happ : w.app? with
  | none =>
      exact ⟨⟨[v], w.resources.sdram⟩, ⟨_, mem_tasks.2 (Or.inr ⟨v, w, hv, happ, rfl⟩), _, rfl,
        List.mem_singleton_self _⟩, List.mem_singleton_self v⟩
  | some a =>
      have hmember : v ∈ s.graph.verticesOf a := (hgraph.members a v).2 ⟨w, hv, happ⟩
      have hlt : a.index < s.app.vertices.size := by
        by_contra hout
        have hnone : s.graph.byApp[a.index]? = none :=
          Array.getElem?_eq_none (by rw [hsize]; exact not_lt.1 hout)
        simp [MachineGraph.verticesOf, hnone] at hmember
      have htask := mem_tasks.2 (Or.inl ⟨a, _, Array.getElem?_eq_getElem hlt, rfl⟩)
      obtain ⟨groups, hgroups⟩ := exists_groups hgraph htask
      obtain ⟨group, hgroup, hvg⟩ := exists_mem_of_chipGroups hgroups hmember
      exact ⟨group, ⟨_, htask, groups, hgroups, hgroup⟩, hvg⟩

end

/-! ## Where a run puts its groups -/

def Control.pending : Control → List Placement
  | .place _ patch _ => patch.pending
  | _ => []

/-- All placements that a run has come to, with those that are only noted. -/
def Stage.taken (stage : Stage) : List Placement :=
  stage.progress.placements.toList ++ stage.control.pending

/-- A placement of a member of a group on the chip that the group is fixed to, if any, and on the
core that the member is fixed to. -/
def Guided (s : Setting) (q : Placement) : Prop :=
  ∃ group, s.HasGroup group ∧ q.vertex ∈ group.vertices ∧ ObeysCore s.graph q ∧
    (s.fixedChip? group.vertices = .ok (some q.chip) ∨ s.fixedChip? group.vertices = .ok none)

def AllIn (l : List Placement) (vertices : List MachineVertexId) : Prop :=
  ∀ v ∈ vertices, ∃ q ∈ l, q.vertex = v

section

variable {d : Mesh.MachineSpec} {s : Setting} {start : Coord} {stage stage' : Stage}
  {p p' : Progress} {l l' pending made : List Placement} {group : ChipGroup}
  {placements : Placements} {first : MachineVertexId} {others : List MachineVertexId}
  {sdram : Nat}

theorem placeOn_obeysCore {c : Coord}
    (h : s.placeOn placements c first others sdram pending = .ok made) :
    ∀ q ∈ made, ObeysCore s.graph q := by
  unfold Setting.placeOn at h
  simp only at h
  split at h
  · obtain ⟨_, _, hthrow⟩ := bind_eq_ok.1 h
    cases hthrow
  obtain ⟨room, _, h⟩ := bind_eq_ok.1 h
  obtain ⟨residents, _, h⟩ := bind_eq_ok.1 h
  obtain ⟨⟨rest, labels⟩, _, h⟩ := bind_eq_ok.1 h
  simp only at h
  split at h
  · obtain ⟨_, _, hthrow⟩ := bind_eq_ok.1 h
    cases hthrow
  · exact (giveFixedCores_spec h).2

theorem placeFixed_guided (hm : Machine.Fulfils d s.machine) (hgroup : s.HasGroup group)
    (hvertices : group.vertices = first :: others)
    (h : s.placeFixed first others sdram pending p = .ok (true, p')) :
    ∃ made, made.map Placement.vertex = group.vertices ∧ (∀ q ∈ made, Guided s q) ∧
      p'.placements.toList.Perm (p.placements.toList ++ made) := by
  obtain ⟨_, chip, made, placements, hfixed, hplace, hadd, rfl⟩ | ⟨hfalse, _⟩ := placeFixed_cases h
  · obtain ⟨room, rfl, hmade⟩ := placeOn_made hm hplace
    rw [← hvertices] at hfixed
    have hmadeVertices := hmade.vertices.trans hvertices.symm
    refine ⟨made, hmadeVertices, fun q hq => ?_, Placements.addAll_perm hadd⟩
    refine ⟨group, hgroup, hmadeVertices ▸ List.mem_map_of_mem hq, placeOn_obeysCore hplace q hq,
      Or.inl ?_⟩
    rw [hmade.chip q hq]
    exact hfixed
  · cases hfalse

theorem guided_of_free (hgroup : s.HasGroup group)
    (hfree : s.fixedChip? group.vertices = .ok none)
    (hmade : made.map Placement.vertex = group.vertices) : ∀ q ∈ made, Guided s q := by
  intro q hq
  have hmember : q.vertex ∈ group.vertices := hmade ▸ List.mem_map_of_mem hq
  refine ⟨group, hgroup, hmember, ?_, Or.inr hfree⟩
  intro w hw location core hlocation
  rw [(fixedChip?_spec hfree).2 rfl _ hmember w hw] at hlocation
  cases hlocation

/-- No member of a group that is next in an attempt is placed, unless all are. -/
theorem Intact.unplaced_eq (h : Intact s stage) {job : Job} {patch : Patch}
    {left : List ChipGroup} (hcontrol : stage.control = .place job patch (group :: left))
    (hne : unplaced stage.progress.placements group ≠ []) :
    s.HasGroup group ∧ unplaced stage.progress.placements group = group.vertices := by
  have hgroups := h.control
  rw [hcontrol] at hgroups
  have hgroup := hgroups.2.1 group List.mem_cons_self
  exact ⟨hgroup, h.placed.unplaced_eq hgroup hne⟩

theorem AllIn.mono {vertices : List MachineVertexId} (h : AllIn l vertices)
    (hsub : ∀ q ∈ l, q ∈ l') : AllIn l' vertices := by
  intro v hv
  obtain ⟨q, hq, hqv⟩ := h v hv
  exact ⟨q, hsub q hq, hqv⟩

theorem allIn_of_unplaced (h : unplaced placements group = []) :
    AllIn placements.toList group.vertices := by
  intro v hv
  have hplaced : placements.isPlaced v = true := by
    simpa using List.filter_eq_nil_iff.1 h v hv
  exact Placements.isPlaced_iff.1 hplaced

theorem allIn_of_made (h : made.map Placement.vertex = group.vertices) :
    AllIn made group.vertices := by
  intro v hv
  rw [← h] at hv
  exact List.mem_map.1 hv

/-- One case for each kind of step; only fixed and free groups that are placed add anything. -/
theorem guided_of_step (hm : Machine.Fulfils d s.machine) (hintact : Intact s stage)
    (h : ∀ q ∈ stage.taken, Guided s q) (hstep : Step s stage stage') :
    ∀ q ∈ stage'.taken, Guided s q := by
  have hplaced : ∀ q ∈ stage.progress.placements.toList, Guided s q :=
    fun q hq => h q (List.mem_append_left _ hq)
  have hpending : ∀ q ∈ stage.control.pending, Guided s q :=
    fun q hq => h q (List.mem_append_right _ hq)
  unfold Stage.taken
  rw [List.forall_mem_append]
  cases hstep with
  | takeUp _ _ _ => exact ⟨hplaced, nofun⟩
  | pass _ => exact ⟨hplaced, nofun⟩
  | start _ _ hstart _ =>
      obtain ⟨_, _, _, hsame, _⟩ := startPatch_cases hstart
      exact ⟨by rw [hsame]; exact hplaced, nofun⟩
  | skip hcontrol _ =>
      rw [hcontrol] at hpending
      exact ⟨hplaced, hpending⟩
  | fix hcontrol hvertices hfixed =>
      obtain ⟨hhas, hall⟩ := hintact.unplaced_eq hcontrol (by simp [hvertices])
      obtain ⟨made, _, hguided, hperm⟩ :=
        placeFixed_guided hm hhas (hall.symm.trans hvertices) hfixed
      rw [hcontrol] at hpending
      refine ⟨fun q hq => ?_, hpending⟩
      exact (List.mem_append.1 (hperm.mem_iff.1 hq)).elim (hplaced q) (hguided q)
  | give hcontrol hloose _ hgive =>
      obtain ⟨hhas, hall⟩ := hintact.unplaced_eq hcontrol hloose.1
      have hfree := hloose.2
      rw [hall] at hfree hgive
      rw [hcontrol] at hpending
      exact ⟨hplaced, List.forall_mem_append.2
        ⟨hpending, guided_of_free hhas hfree (giveCores_spec hgive).1.vertices⟩⟩
  | grow hcontrol _ _ hgrow _ =>
      obtain ⟨hnone, _⟩ | ⟨_, _, _, _, _, _, rfl⟩ := grow_cases hgrow
      · cases hnone
      · rw [hcontrol] at hpending
        exact ⟨hplaced, hpending⟩
  | abandon _ _ _ hgrow =>
      obtain ⟨_, rfl⟩ | ⟨_, _, _, hsome, _⟩ := grow_cases hgrow
      · exact ⟨hplaced, nofun⟩
      · cases hsome
  | again _ _ => exact ⟨hplaced, nofun⟩
  | commit hcontrol hadd =>
      rw [hcontrol] at hpending
      refine ⟨fun q hq => ?_, nofun⟩
      exact (List.mem_append.1 ((Placements.addAll_perm hadd).mem_iff.1 hq)).elim (hplaced q)
        (hpending q)

theorem guided_of_reached (hm : Machine.Fulfils d s.machine) (hgraph : s.graph.WellFormed)
    (h : Reached s start stage) : ∀ q ∈ stage.taken, Guided s q := by
  induction h with
  | refl => exact nofun
  | tail hreached hstep ih => exact guided_of_step hm (.of_reached hm hgraph hreached) ih hstep

theorem Guided.hasVertex (hgraph : s.graph.WellFormed) {q : Placement} (h : Guided s q) :
    ∃ w, s.graph.HasVertex q.vertex w := by
  obtain ⟨group, hgroup, hmember, _⟩ := h
  rcases hgroup.cases with ⟨a, w, groups, _, hgroups, hmem⟩ | ⟨v, w, hw, _, hvertices⟩
  · obtain ⟨x, hx, _⟩ := (hgraph.members a _).1 (mem_verticesOf_of_chipGroups hgroups hmem hmember)
    exact ⟨x, hx⟩
  · rw [hvertices] at hmember
    exact ⟨w, List.mem_singleton.1 hmember ▸ hw⟩

/-! ## No group is left out -/

def Control.groups : Control → List ChipGroup
  | .next => []
  | .attempt job => job.groups
  | .place job _ _ => job.groups
  | .check job _ _ => job.groups

/-- Every group is still to come, or in hand, or placed; of those in hand an attempt has placed or
noted the ones that it is through with. -/
structure Covers (s : Setting) (stage : Stage) : Prop where
  all : ∀ group, s.HasGroup group →
    (∃ task ∈ stage.todo, ∃ groups, task.groups = .ok groups ∧ group ∈ groups) ∨
      group ∈ stage.control.groups ∨ AllIn stage.progress.placements.toList group.vertices
  underWay : ∀ job patch left, stage.control = .place job patch left → ∀ group ∈ job.groups,
    group ∈ left ∨ AllIn stage.taken group.vertices

theorem Covers.next_group (h : Covers s stage) {job : Job} {patch : Patch}
    {left : List ChipGroup} {taken : List Placement}
    (hcontrol : stage.control = .place job patch (group :: left))
    (hsub : ∀ q ∈ stage.taken, q ∈ taken) (hgroup : AllIn taken group.vertices) :
    ∀ other ∈ job.groups, other ∈ left ∨ AllIn taken other.vertices := by
  intro other hother
  rcases h.underWay job patch _ hcontrol other hother with hleft | hdone
  · rcases List.mem_cons.1 hleft with rfl | hleft
    · exact Or.inr hgroup
    · exact Or.inl hleft
  · exact Or.inr (hdone.mono hsub)

theorem Covers.step (hm : Machine.Fulfils d s.machine) (hintact : Intact s stage)
    (h : Covers s stage) (hstep : Step s stage stage') : Covers s stage' := by
  obtain ⟨control, todo, ⟨pool, placements⟩, failed, given⟩ := stage
  cases hstep with
  | @takeUp task todo groups hcontrol htodo hgroups =>
      cases hcontrol
      cases htodo
      refine ⟨fun group hgroup => ?_, nofun⟩
      rcases h.all group hgroup with ⟨task', htask, groups', hgroups', hmem⟩ | hmem | hdone
      · rcases List.mem_cons.1 htask with rfl | htask
        · cases hgroups.symm.trans hgroups'
          exact Or.inr (Or.inl hmem)
        · exact Or.inl ⟨task', htask, groups', hgroups', hmem⟩
      · cases hmem
      · exact Or.inr (Or.inr hdone)
  | pass hcontrol =>
      cases hcontrol
      exact ⟨h.all, nofun⟩
  | start hcontrol _ hstart _ =>
      cases hcontrol
      obtain ⟨_, _, _, hsame, _⟩ := startPatch_cases hstart
      refine ⟨by simp only [hsame]; exact h.all, ?_⟩
      rintro _ _ _ ⟨⟩ group hgroup
      exact Or.inl hgroup
  | skip hcontrol hplaced =>
      cases hcontrol
      refine ⟨h.all, ?_⟩
      rintro _ _ _ ⟨⟩
      exact h.next_group rfl (fun q hq => hq)
        ((allIn_of_unplaced hplaced).mono fun q hq => List.mem_append_left _ hq)
  | fix hcontrol hvertices hfixed =>
      cases hcontrol
      obtain ⟨hhas, hwhole⟩ := hintact.unplaced_eq rfl (by simp [hvertices])
      obtain ⟨made, hmade, _, hperm⟩ :=
        placeFixed_guided hm hhas (hwhole.symm.trans hvertices) hfixed
      have hkept : ∀ q ∈ placements.toList, q ∈ _ :=
        fun q hq => hperm.mem_iff.2 (List.mem_append_left _ hq)
      refine ⟨fun group hgroup => ?_, ?_⟩
      · exact (h.all group hgroup).imp_right (Or.imp_right fun hdone => hdone.mono hkept)
      · rintro _ _ _ ⟨⟩
        refine h.next_group rfl ?_ ?_
        · exact List.forall_mem_append.2 ⟨fun q hq => List.mem_append_left _ (hkept q hq),
            fun q hq => List.mem_append_right _ hq⟩
        · exact (allIn_of_made hmade).mono fun q hq =>
            List.mem_append_left _ (hperm.mem_iff.2 (List.mem_append_right _ hq))
  | give hcontrol hloose _ hgive =>
      cases hcontrol
      have hmade := (giveCores_spec hgive).1.vertices
      rw [(hintact.unplaced_eq rfl hloose.1).2] at hmade
      refine ⟨h.all, ?_⟩
      rintro _ _ _ ⟨⟩
      refine h.next_group rfl (fun q hq => ?_) ?_
      · rw [Stage.taken, Control.pending, ← List.append_assoc]
        exact List.mem_append_left _ hq
      · exact (allIn_of_made hmade).mono fun q hq =>
          List.mem_append_right _ (List.mem_append_right _ hq)
  | grow hcontrol _ _ hgrow _ =>
      cases hcontrol
      obtain ⟨hnone, _⟩ | ⟨_, _, _, _, _, _, rfl⟩ := grow_cases hgrow
      · cases hnone
      refine ⟨h.all, ?_⟩
      rintro _ _ _ ⟨⟩
      exact h.underWay _ _ _ rfl
  | abandon hcontrol _ _ hgrow =>
      cases hcontrol
      obtain ⟨_, rfl⟩ | ⟨_, _, _, hsome, _⟩ := grow_cases hgrow
      · exact ⟨h.all, nofun⟩
      · cases hsome
  | again hcontrol _ =>
      cases hcontrol
      exact ⟨h.all, nofun⟩
  | commit hcontrol hadd =>
      cases hcontrol
      have hperm := Placements.addAll_perm hadd
      refine ⟨fun group hgroup => ?_, nofun⟩
      rcases h.all group hgroup with htask | hmem | hdone
      · exact Or.inl htask
      · have hdone := (h.underWay _ _ _ rfl group hmem).resolve_left List.not_mem_nil
        exact Or.inr (Or.inr (hdone.mono fun q hq => hperm.mem_iff.2 hq))
      · exact Or.inr (Or.inr (hdone.mono fun q hq =>
          hperm.mem_iff.2 (List.mem_append_left _ hq)))

theorem Covers.of_reached (hm : Machine.Fulfils d s.machine) (hgraph : s.graph.WellFormed)
    (h : Reached s start stage) : Covers s stage := by
  induction h with
  | refl => exact ⟨fun _ hgroup => Or.inl hgroup, nofun⟩
  | tail hreached hstep ih => exact ih.step hm (.of_reached hm hgraph hreached) hstep

/-! ## The whole search -/

/-- A vertex that is placed on the chip of the first fixed location in its group, and on its own
core if it is fixed to one. -/
structure PlacedAsFixed (s : Setting) (placements : Placements) (v : MachineVertexId)
    (location : Graph.FixedLocation) : Prop where
  grouped : ∃ group, s.HasGroup group ∧ v ∈ group.vertices
  placed : ∃ q ∈ placements.toList, q.vertex = v ∧
    (∀ core, location.core? = some core → q.processor = core) ∧
    ∀ group, s.HasGroup group → v ∈ group.vertices →
      s.fixedChip? group.vertices = .ok (some q.chip) ∧
      ((∀ u ∈ group.vertices, ∀ x other, s.graph.HasVertex u x → x.location? = some other →
        other.chip = location.chip) → q.chip = location.chip)

theorem Guided.fixedChip?_eq (hgraph : s.graph.WellFormed) {q : Placement} (h : Guided s q)
    {w : MachineVertex} (hw : s.graph.HasVertex q.vertex w) (hlocation : w.location?.isSome)
    (hgroup : s.HasGroup group) (hmember : q.vertex ∈ group.vertices) :
    s.fixedChip? group.vertices = .ok (some q.chip) := by
  obtain ⟨group', hgroup', hmember', _, hfixed⟩ := h
  have hsame : group'.vertices = group.vertices :=
    (sameOrApart_of_hasGroup hgraph hgroup' hgroup).resolve_right fun hapart =>
      hapart hmember' hmember
  rw [hsame] at hfixed
  refine hfixed.resolve_right fun hnone => ?_
  rw [(fixedChip?_spec hnone).2 rfl _ hmember w hw] at hlocation
  cases hlocation

theorem placedAsFixed_of_reached (hm : Machine.Fulfils d s.machine) (hgraph : s.graph.WellFormed)
    (hsize : s.graph.byApp.size = s.app.size) (h : Reached s start stage)
    (hcontrol : stage.control = .next) (htodo : stage.todo = []) {v : MachineVertexId}
    {w : MachineVertex} {location : Graph.FixedLocation} (hv : s.graph.HasVertex v w)
    (hlocation : w.location? = some location) :
    PlacedAsFixed s stage.progress.placements v location := by
  obtain ⟨group, hgroup, hmember⟩ := exists_hasGroup hgraph hsize hv
  have hall := (Covers.of_reached hm hgraph h).all group hgroup
  rw [htodo, hcontrol] at hall
  have hdone : AllIn stage.progress.placements.toList group.vertices := by
    rcases hall with ⟨_, htask, _⟩ | hmem | hdone
    · cases htask
    · cases hmem
    · exact hdone
  obtain ⟨q, hq, rfl⟩ := hdone v hmember
  have hguided := guided_of_reached hm hgraph h q (List.mem_append_left _ hq)
  refine ⟨⟨group, hgroup, hmember⟩, q, hq, rfl, ?_, ?_⟩
  · obtain ⟨_, _, _, hobeys, _⟩ := hguided
    exact fun core => hobeys w hv location core hlocation
  · intro group hgroup hmember
    have hfixed := hguided.fixedChip?_eq hgraph hv (by simp [hlocation]) hgroup hmember
    refine ⟨hfixed, fun hagree => ?_⟩
    obtain ⟨u, hu, x, other, hx, hother, hchip⟩ := (fixedChip?_spec hfixed).1 _ rfl
    rw [← hchip]
    exact hagree u hu x other hx hother

end

/-- In a graph that was made by its own operations every vertex with a fixed location is placed on
its core, and on its chip if no other location in its group names another one. -/
theorem graphOf_placedAsFixed {d : Mesh.MachineSpec} {app : ApplicationGraph} {m : Machine}
    {config : PlacerConfig} {code : Nat} {calls : List Graph.Call} {placements : Placements}
    (hm : Machine.ofSpec d = .ok m)
    (h : placeGraph app (Graph.graphOf code app.size calls) m config = .ok placements)
    {v : MachineVertexId} {w : MachineVertex} {location : Graph.FixedLocation}
    (hv : (Graph.graphOf code app.size calls).HasVertex v w)
    (hlocation : w.location? = some location) :
    PlacedAsFixed ⟨app, Graph.graphOf code app.size calls, m, config⟩ placements v location := by
  have hm := Machine.ofSpec_spec hm
  have hgraph := ((MachineGraph.wellFormed_empty code app.size).afterCalls calls).1
  have hsize := Graph.byApp_size_graphOf code app.size calls
  obtain ⟨start, hstart, _⟩ := bind_eq_ok.1 h
  obtain ⟨stage, hreached, hcontrol, htodo, rfl⟩ :=
    (placeGraph_follows (s := ⟨app, Graph.graphOf code app.size calls, m, config⟩) hm
      (lift_eq_ok.1 hstart)).1 placements h
  exact placedAsFixed_of_reached hm hgraph hsize hreached hcontrol htodo hv hlocation

def locatedPair (first? second? : Option Graph.FixedLocation) : List Graph.Call :=
  [.vertex (pairMember 0 first?), .vertex (pairMember 1 second?)]

def placedPairOf (first? second? : Option Graph.FixedLocation) :
    Outcome (Machine × Placements) := do
  let m ← Machine.ofSpec twoChips
  let placements ← placeGraph sharedPair (Graph.graphOf 1 1 (locatedPair first? second?)) m {}
  return (m, placements)

/-- The location of the second member is obeyed, with the first one free to go along. -/
theorem graphOf_placedAsFixed_along :
    let calls := locatedPair none (some ⟨⟨1, 0⟩, some 3⟩)
    ∃ m placements, Machine.ofSpec twoChips = .ok m ∧
      placeGraph sharedPair (Graph.graphOf 1 1 calls) m {} = .ok placements ∧
      PlacedAsFixed ⟨sharedPair, Graph.graphOf 1 1 calls, m, {}⟩ placements ⟨1⟩
        ⟨⟨1, 0⟩, some 3⟩ := by
  obtain ⟨_, hrun⟩ := exists_of_isOk
    (show (placedPairOf none (some ⟨⟨1, 0⟩, some 3⟩)).isOk = true by decide +kernel)
  obtain ⟨m, hm, hrun⟩ := bind_eq_ok.1 hrun
  obtain ⟨placements, hplaced, _⟩ := bind_eq_ok.1 hrun
  have hm := lift_eq_ok.1 hm
  exact ⟨m, placements, hm, hplaced, graphOf_placedAsFixed hm hplaced (w := pairMember 1 _) rfl rfl⟩

/-- The second member is placed on the chip that the first one is fixed to. -/
theorem placeGraph_misplaces_second :
    let calls := locatedPair (some ⟨⟨0, 0⟩, none⟩) (some ⟨⟨1, 0⟩, none⟩)
    ∃ m placements, Machine.ofSpec twoChips = .ok m ∧
      placeGraph sharedPair (Graph.graphOf 1 1 calls) m {} = .ok placements ∧
      (Graph.graphOf 1 1 calls).HasVertex ⟨1⟩ (pairMember 1 (some ⟨⟨1, 0⟩, none⟩)) ∧
      ⟨⟨1⟩, ⟨0, 0⟩, 2⟩ ∈ placements.toList := by
  have hlist : (placedPairOf (some ⟨⟨0, 0⟩, none⟩) (some ⟨⟨1, 0⟩, none⟩)).map
      (fun r => r.2.toList) = .ok [⟨⟨0⟩, ⟨0, 0⟩, 1⟩, ⟨⟨1⟩, ⟨0, 0⟩, 2⟩] := by
    decide +kernel
  cases hrun : placedPairOf (some ⟨⟨0, 0⟩, none⟩) (some ⟨⟨1, 0⟩, none⟩) with
  | error f =>
      rw [hrun] at hlist
      cases hlist
  | ok r =>
      rw [hrun] at hlist
      obtain ⟨m, hm, hrun⟩ := bind_eq_ok.1 hrun
      obtain ⟨placements, hplaced, hreturn⟩ := bind_eq_ok.1 hrun
      cases pure_eq_ok.1 hreturn
      have hplacements : placements.toList = [⟨⟨0⟩, ⟨0, 0⟩, 1⟩, ⟨⟨1⟩, ⟨0, 0⟩, 2⟩] :=
        Except.ok.inj hlist
      exact ⟨m, placements, lift_eq_ok.1 hm, hplaced, rfl, by simp [hplacements]⟩

end MulticastMesh.Placing
