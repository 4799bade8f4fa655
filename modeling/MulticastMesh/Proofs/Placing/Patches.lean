import MulticastMesh.Proofs.Mesh.Links
import MulticastMesh.Proofs.Placing.Frontiers
import MulticastMesh.Proofs.Placing.Wholes
import MulticastMesh.Proofs.Routing.Reach.Basic
/-!
# A vertex occupies a connected patch

An attempt grows over working links only from chips that it noted something on: whatever is in
its frontier is one link away from such a chip.  So the chips with pending placements are connected
at every step, also when chips are passed over or boards change.  An application vertex without a
fixed location is noted by one attempt as a whole, and all of its machine vertices are placed when
that attempt ends.
-/

namespace MulticastMesh.Placing

open MulticastMesh.Graph (AppVertexId ApplicationGraph ApplicationVertex MachineGraph
  MachineVertexId)
open Mesh (Coord Machine)
open Layout (Placement Placements)
open Routing (Linked)
open Slicing (ChipGroup CutFrom)
open Outcome

/-! ## Connected chips -/

def LinkedWithin (m : Machine) (chips : List Coord) (a b : Coord) : Prop :=
  Linked m a b ∧ a ∈ chips ∧ b ∈ chips

/-- Working links between chips of a list lead from each of them to each other. -/
def Connected (m : Machine) (chips : List Coord) : Prop :=
  ∀ a ∈ chips, ∀ b ∈ chips, Relation.ReflTransGen (LinkedWithin m chips) a b

section

variable {d : Mesh.MachineSpec} {m : Machine} {a b c : Coord} {chips chips' more : List Coord}

theorem linked_symm (hm : Machine.Fulfils d m) (h : Linked m a b) : Linked m b a := by
  obtain ⟨link, h⟩ := h
  rw [hm.linkTarget?_iff] at h
  exact ⟨link.opposite, hm.linkTarget?_iff.2 h.symm⟩

theorem linkedWithin_symm (hm : Machine.Fulfils d m) (chips : List Coord) :
    Std.Symm (LinkedWithin m chips) :=
  ⟨fun _ _ ⟨hlink, ha, hb⟩ => ⟨linked_symm hm hlink, hb, ha⟩⟩

theorem connected_nil (m : Machine) : Connected m [] := by simp [Connected]

theorem Connected.of_mem_iff (h : Connected m chips) (hmem : ∀ c, c ∈ chips' ↔ c ∈ chips) :
    Connected m chips' := by
  intro a ha b hb
  refine Relation.ReflTransGen.mono ?_ _ _ (h a ((hmem a).1 ha) b ((hmem b).1 hb))
  rintro x y ⟨hlink, hx, hy⟩
  exact ⟨hlink, (hmem x).2 hx, (hmem y).2 hy⟩

/-- A patch grows by a chip that it has already or that is one link away. -/
theorem Connected.append (hm : Machine.Fulfils d m) (h : Connected m chips)
    (hmore : ∀ x ∈ more, x = c)
    (hnext : chips = [] ∨ c ∈ chips ∨ ∃ b ∈ chips, Linked m b c) :
    Connected m (chips ++ more) := by
  have hold : ∀ a ∈ chips, ∀ b ∈ chips,
      Relation.ReflTransGen (LinkedWithin m (chips ++ more)) a b := by
    intro a ha b hb
    refine Relation.ReflTransGen.mono ?_ _ _ (h a ha b hb)
    rintro x y ⟨hlink, hx, hy⟩
    exact ⟨hlink, List.mem_append_left _ hx, List.mem_append_left _ hy⟩
  have hsymm : Std.Symm (Relation.ReflTransGen (LinkedWithin m (chips ++ more))) :=
    have := linkedWithin_symm hm (chips ++ more)
    Relation.ReflTransGen.stdSymm
  have hnew : c ∈ more → ∀ a ∈ chips,
      Relation.ReflTransGen (LinkedWithin m (chips ++ more)) a c := by
    intro hc a ha
    rcases hnext with rfl | hmem | ⟨b, hb, hlink⟩
    · cases ha
    · exact hold a ha c hmem
    · exact (hold a ha b hb).tail
        ⟨hlink, List.mem_append_left _ hb, List.mem_append_right _ hc⟩
  intro a ha b hb
  rcases List.mem_append.1 ha with ha | ha
  · rcases List.mem_append.1 hb with hb | hb
    · exact hold a ha b hb
    · cases hmore b hb
      exact hnew hb a ha
  · cases hmore a ha
    rcases List.mem_append.1 hb with hb | hb
    · exact hsymm.symm _ _ (hnew ha b hb)
    · cases hmore b hb
      exact .refl

end

/-! ## Growing -/

section

variable {d : Mesh.MachineSpec} {m : Machine} {s : Setting} {p p' : Progress}
  {frontier frontier' widened : Frontier} {from? : Option Coord} {chip c : Coord}

theorem mem_of_popUnused? {used : List Coord} {fuel : Nat}
    (h : frontier.popUnused? m used fuel = some (chip, frontier')) :
    chip ∈ frontier.chips ∧ ∀ c ∈ frontier'.chips, c ∈ frontier.chips := by
  induction fuel generalizing frontier with
  | zero => cases h
  | succ fuel ih =>
      unfold Frontier.popUnused? at h
      cases hpop : frontier.pop? m with
      | none =>
          rw [hpop] at h
          cases h
      | some next =>
          obtain ⟨popped, rest⟩ := next
          have hperm := Frontier.perm_of_pop? hpop
          rw [hpop] at h
          simp only at h
          split at h
          · obtain ⟨hchip, hrest⟩ := ih h
            exact ⟨hperm.mem_iff.2 (List.mem_cons_of_mem _ hchip),
              fun c hc => hperm.mem_iff.2 (List.mem_cons_of_mem _ (hrest c hc))⟩
          · cases h
            exact ⟨hperm.mem_iff.2 List.mem_cons_self,
              fun c hc => hperm.mem_iff.2 (List.mem_cons_of_mem _ hc)⟩

theorem linked_of_usableFrom {pool : ChipPool}
    (h : c ∈ (pool.usableFrom m chip).map Prod.fst) : Linked m chip c := by
  obtain ⟨⟨target, board⟩, hmem, rfl⟩ := List.mem_map.1 h
  obtain ⟨target', htarget, hsome⟩ := List.mem_filterMap.1 hmem
  obtain ⟨link, _, hlink⟩ := List.mem_filterMap.1 htarget
  split at hsome
  · cases hsome
  · obtain ⟨_, _, heq⟩ := Option.map_eq_some_iff.1 hsome
    cases heq
    exact ⟨link, hlink⟩

/-- A chip that a patch can grow to: one that was queued, or one link away from the chip that the
frontier is widened around. -/
def Offered (m : Machine) (frontier : Frontier) (from? : Option Coord) (chip : Coord) : Prop :=
  chip ∈ frontier.chips ∨ ∃ c, from? = some c ∧ Linked m c chip

theorem grow_offered (hm : Machine.Fulfils d s.machine)
    (h : s.grow frontier from? p = .ok (some widened, p')) :
    ∃ room, p' = { p with pool := p.pool.moveTo room } ∧
      Offered s.machine frontier from? room.chip ∧
      ∀ c ∈ widened.chips, Offered s.machine frontier from? c := by
  have hwiden : ∀ c ∈ (s.widened p frontier from?).chips, Offered s.machine frontier from? c := by
    intro c hc
    cases from? with
    | none => exact Or.inl hc
    | some chip =>
        rcases Frontier.mem_pushAll.1 hc with hc | hc
        · exact Or.inl hc
        · exact Or.inr ⟨chip, rfl, linked_of_usableFrom hc⟩
  obtain ⟨hnone, _⟩ | ⟨chip, rest, room, hrest, hpop, hroom, rfl⟩ := grow_cases h
  · cases hnone
  · cases hrest
    obtain ⟨hchip, hwidened⟩ := mem_of_popUnused? hpop
    refine ⟨room, rfl, ?_, fun c hc => hwiden c (hwidened c hc)⟩
    rw [(roomOn_chip hm hroom).1]
    exact hwiden chip hchip

end

/-! ## The patch of an attempt -/

/-- The chips with pending placements are connected, and a patch that has any grows next to them
only. -/
structure Joined (m : Machine) (pool : ChipPool) (patch : Patch) : Prop where
  connected : Connected m (patch.pending.map Placement.chip)
  offered : ∀ c, Offered m patch.frontier patch.from? c →
    ∃ b ∈ patch.pending.map Placement.chip, Linked m b c
  current : patch.pending = [] ∨ ∀ room, pool.current? = some room →
    room.chip ∈ patch.pending.map Placement.chip ∨
      ∃ b ∈ patch.pending.map Placement.chip, Linked m b room.chip

def Stage.Joined (s : Setting) (stage : Stage) : Prop :=
  ∀ job patch left, stage.control = .place job patch left →
    Placing.Joined s.machine stage.progress.pool patch

section

variable {d : Mesh.MachineSpec} {m : Machine} {s : Setting} {start : Coord} {p p' : Progress}
  {pool pool' : ChipPool} {stage stage' : Stage} {patch : Patch}
  {frontier widened : Frontier} {pending made : List Placement} {from? : Option Coord}
  {room : ChipRoom}

theorem joined_start (board : Coord) : Joined m pool { frontier := { board } } where
  connected := connected_nil m
  offered := by
    rintro c (hc | ⟨_, hnone, _⟩)
    · cases hc
    · cases hnone
  current := Or.inl rfl

theorem Joined.refill (h : Joined m pool patch)
    (hsame : ∀ r, pool'.current? = some r → ∃ r', pool.current? = some r' ∧ r'.chip = r.chip) :
    Joined m pool' patch := by
  refine { h with current := h.current.imp_right fun hcurrent r hr => ?_ }
  obtain ⟨r', hr', hchip⟩ := hsame r hr
  rw [← hchip]
  exact hcurrent r' hr'

theorem Joined.give (hm : Machine.Fulfils d m)
    (h : Joined m pool ⟨frontier, pending, from?⟩) (hroom : pool.current? = some room)
    (hmade : made ≠ []) (hchip : ∀ q ∈ made, q.chip = room.chip)
    (hsame : ∀ r, pool'.current? = some r → r.chip = room.chip) :
    Joined m pool' ⟨frontier, pending ++ made, some room.chip⟩ := by
  have hon : room.chip ∈ (pending ++ made).map Placement.chip := by
    obtain ⟨q, hq⟩ := List.exists_mem_of_ne_nil _ hmade
    exact List.mem_map.2 ⟨q, List.mem_append_right _ hq, hchip q hq⟩
  refine ⟨?_, ?_, Or.inr fun r hr => Or.inl (hsame r hr ▸ hon)⟩
  · rw [List.map_append]
    refine h.connected.append hm (c := room.chip) ?_ ?_
    · intro x hx
      obtain ⟨q, hq, rfl⟩ := List.mem_map.1 hx
      exact hchip q hq
    · exact h.current.imp List.map_eq_nil_iff.2 fun hcurrent => hcurrent room hroom
  · rintro c (hc | ⟨_, heq, hlink⟩)
    · obtain ⟨b, hb, hlink⟩ := h.offered c (Or.inl hc)
      rw [List.map_append]
      exact ⟨b, List.mem_append_left _ hb, hlink⟩
    · cases heq
      exact ⟨room.chip, hon, hlink⟩

theorem Stage.Joined.step (hm : Machine.Fulfils d s.machine) (h : stage.Joined s)
    (hstep : Step s stage stage') : stage'.Joined s := by
  intro job' patch' left' hcontrol'
  cases hstep with
  | takeUp _ _ _ => cases hcontrol'
  | pass _ => cases hcontrol'
  | start _ _ hstart _ =>
      cases hcontrol'
      obtain ⟨board, _, rfl, _⟩ := startPatch_cases hstart
      exact joined_start board
  | skip hplace _ =>
      cases hcontrol'
      exact h _ _ _ hplace
  | fix hplace _ hfixed =>
      cases hcontrol'
      obtain ⟨_, chip, made, _, _, _, _, rfl⟩ | ⟨hfalse, _⟩ := placeFixed_cases hfixed
      · exact (h _ _ _ hplace).refill (takeFromCurrent_chip _ _ _ _)
      · cases hfalse
  | give hplace hloose hroom hgive =>
      cases hcontrol'
      obtain ⟨hmade, hchip, _⟩ := giveCores_spec hgive
      refine (h _ _ _ hplace).give hm hroom.1 ?_ hmade.chip ?_
      · rintro rfl
        exact hloose.1 hmade.vertices.symm
      · intro r hr
        cases hr
        exact hchip
  | grow hplace _ _ hgrow _ =>
      cases hcontrol'
      have hjoined := h _ _ _ hplace
      obtain ⟨room, rfl, hchip, hwidened⟩ := grow_offered hm hgrow
      refine ⟨hjoined.connected, ?_, Or.inr ?_⟩
      · rintro c (hc | ⟨_, hnone, _⟩)
        · exact hjoined.offered c (hwidened c hc)
        · cases hnone
      · intro r hr
        cases hr
        exact Or.inr (hjoined.offered _ hchip)
  | abandon _ _ _ _ => cases hcontrol'
  | again _ _ => cases hcontrol'
  | commit _ _ => cases hcontrol'

theorem joined_of_reached (hm : Machine.Fulfils d s.machine) (h : Reached s start stage) :
    stage.Joined s := by
  induction h with
  | refl => intro _ _ _ hcontrol; cases hcontrol
  | tail _ hstep ih => exact ih.step hm hstep

end

/-! ## The vertices of one application vertex -/

def chipsOf (g : MachineGraph) (a : AppVertexId) (l : List Placement) : List Coord :=
  (l.filter fun q => decide (q.vertex ∈ g.verticesOf a)).map Placement.chip

def Without (g : MachineGraph) (a : AppVertexId) (l : List Placement) : Prop :=
  ∀ q ∈ l, q.vertex ∉ g.verticesOf a

/-- Groups that have exactly the machine vertices of an application vertex. -/
def Owns (g : MachineGraph) (a : AppVertexId) (groups : List ChipGroup) : Prop :=
  ∀ v, v ∈ g.verticesOf a ↔ ∃ group ∈ groups, v ∈ group.vertices

def Foreign (g : MachineGraph) (a : AppVertexId) (groups : List ChipGroup) : Prop :=
  ∀ group ∈ groups, ∀ v ∈ group.vertices, v ∉ g.verticesOf a

/-- Nothing of an application vertex is placed, or all of it on connected chips. -/
def Settled (s : Setting) (a : AppVertexId) (l : List Placement) : Prop :=
  Without s.graph a l ∨
    (∀ v ∈ s.graph.verticesOf a, ∃ q ∈ l, q.vertex = v) ∧
      Connected s.machine (chipsOf s.graph a l)

section

variable {s : Setting} {g : MachineGraph} {a : AppVertexId} {l l' more pending : List Placement}
  {c : Coord} {placements : Placements} {task : Task} {groups : List ChipGroup}

theorem mem_chipsOf : c ∈ chipsOf g a l ↔ ∃ q ∈ l, q.vertex ∈ g.verticesOf a ∧ q.chip = c := by
  simp [chipsOf, and_assoc]

theorem Settled.perm (h : Settled s a l) (hperm : l.Perm l') : Settled s a l' := by
  refine h.imp (fun hnone q hq => hnone q (hperm.mem_iff.2 hq)) ?_
  rintro ⟨hall, hconnected⟩
  refine ⟨fun v hv => ?_, hconnected.of_mem_iff fun c => ?_⟩
  · obtain ⟨q, hq, hqv⟩ := hall v hv
    exact ⟨q, hperm.mem_iff.1 hq, hqv⟩
  · simp only [mem_chipsOf, hperm.mem_iff]

theorem Settled.append (h : Settled s a l) (hmore : Without s.graph a more) :
    Settled s a (l ++ more) := by
  refine h.imp (fun hnone => List.forall_mem_append.2 ⟨hnone, hmore⟩) ?_
  rintro ⟨hall, hconnected⟩
  refine ⟨fun v hv => ?_, hconnected.of_mem_iff fun c => ?_⟩
  · obtain ⟨q, hq, hqv⟩ := hall v hv
    exact ⟨q, List.mem_append_left _ hq, hqv⟩
  · rw [mem_chipsOf, mem_chipsOf]
    constructor
    · rintro ⟨q, hq, hqa, rfl⟩
      rcases List.mem_append.1 hq with hq | hq
      · exact ⟨q, hq, hqa, rfl⟩
      · exact absurd hqa (hmore q hq)
    · rintro ⟨q, hq, hqa, rfl⟩
      exact ⟨q, List.mem_append_left _ hq, hqa, rfl⟩

theorem settled_of_patch (hnone : Without s.graph a l)
    (hpending : ∀ q ∈ pending, q.vertex ∈ s.graph.verticesOf a)
    (hall : ∀ v ∈ s.graph.verticesOf a, ∃ q ∈ pending, q.vertex = v)
    (hconnected : Connected s.machine (pending.map Placement.chip)) :
    Settled s a (l ++ pending) := by
  refine Or.inr ⟨fun v hv => ?_, hconnected.of_mem_iff fun c => ?_⟩
  · obtain ⟨q, hq, hqv⟩ := hall v hv
    exact ⟨q, List.mem_append_right _ hq, hqv⟩
  · rw [mem_chipsOf, List.mem_map]
    constructor
    · rintro ⟨q, hq, hqa, rfl⟩
      rcases List.mem_append.1 hq with hq | hq
      · exact absurd hqa (hnone q hq)
      · exact ⟨q, hq, rfl⟩
    · rintro ⟨q, hq, rfl⟩
      exact ⟨q, List.mem_append_right _ hq, hpending q hq, rfl⟩

theorem owns_or_foreign (hcut : CutFrom s.app s.graph) (htask : task ∈ s.tasks)
    (hgroups : task.groups = .ok groups) (a : AppVertexId) :
    Owns s.graph a groups ∨ Foreign s.graph a groups := by
  rcases mem_tasks.1 htask with ⟨b, w, hw, rfl⟩ | ⟨u, w, hw, hnone, rfl⟩
  · have hcover := (chipGroups_spec hcut hw hgroups).2
    by_cases hab : a = b
    · subst hab
      refine Or.inl fun v => ⟨hcover v, ?_⟩
      rintro ⟨group, hgroup, hv⟩
      exact mem_verticesOf_of_chipGroups hgroups hgroup hv
    · exact Or.inr fun group hgroup v hv => CutFrom.not_mem_verticesOf hcut hab
        (mem_verticesOf_of_chipGroups hgroups hgroup hv)
  · cases hgroups
    refine Or.inr fun group hgroup v hv hva => ?_
    cases List.mem_singleton.1 hgroup
    cases List.mem_singleton.1 hv
    obtain ⟨x, hx, hxa⟩ := hcut.wellIndexed.mem_verticesOf.1 hva
    cases hx.eq hw
    cases hxa.symm.trans hnone

end

/-! ## A vertex without a fixed location -/

/-- An attempt at an application vertex: nothing else is pending, and what is neither pending nor
left is placed already; once anything is pending, nothing is. -/
structure Gathering (s : Setting) (a : AppVertexId) (placements : Placements)
    (pending : List Placement) (left : List ChipGroup) : Prop where
  noted : ∀ q ∈ pending, q.vertex ∈ s.graph.verticesOf a
  ahead : ∀ group ∈ left, ∀ v ∈ group.vertices, v ∈ s.graph.verticesOf a
  covered : ∀ v ∈ s.graph.verticesOf a, placements.isPlaced v = true ∨
    (∃ q ∈ pending, q.vertex = v) ∨ ∃ group ∈ left, v ∈ group.vertices
  fresh : pending ≠ [] → Without s.graph a placements.toList

/-- What a run has in hand is all of an application vertex or nothing of it. -/
def Control.Keeps (s : Setting) (a : AppVertexId) (placements : Placements) : Control → Prop
  | .next => True
  | .attempt job => Owns s.graph a job.groups ∨ Foreign s.graph a job.groups
  | .place job patch left => (Owns s.graph a job.groups ∨ Foreign s.graph a job.groups) ∧
      (Gathering s a placements patch.pending left ∨
        Without s.graph a patch.pending ∧ Foreign s.graph a left)
  | .check job _ _ => Owns s.graph a job.groups ∨ Foreign s.graph a job.groups

structure Undivided (s : Setting) (a : AppVertexId) (stage : Stage) : Prop where
  todo : ∀ task ∈ stage.todo, task ∈ s.tasks
  control : stage.control.Keeps s a stage.progress.placements
  settled : Settled s a stage.progress.placements.toList

section

variable {d : Mesh.MachineSpec} {s : Setting} {a : AppVertexId} {start : Coord}
  {stage stage' : Stage} {placements : Placements} {pending made : List Placement}
  {group : ChipGroup} {left groups : List ChipGroup}

theorem gathering_start (h : Owns s.graph a groups) : Gathering s a placements [] groups where
  noted := by simp
  ahead := fun group hgroup v hv => (h v).2 ⟨group, hgroup, hv⟩
  covered := fun v hv => Or.inr (Or.inr ((h v).1 hv))
  fresh := absurd rfl

theorem Gathering.skip (h : Gathering s a placements pending (group :: left))
    (hplaced : unplaced placements group = []) : Gathering s a placements pending left where
  noted := h.noted
  ahead := (List.forall_mem_cons.1 h.ahead).2
  covered := by
    intro v hv
    rcases h.covered v hv with hv | hv | ⟨group', hgroup', hv⟩
    · exact Or.inl hv
    · exact Or.inr (Or.inl hv)
    · rcases List.mem_cons.1 hgroup' with rfl | hgroup'
      · left
        simpa using List.filter_eq_nil_iff.1 hplaced v hv
      · exact Or.inr (Or.inr ⟨group', hgroup', hv⟩)
  fresh := h.fresh

/-- A group that is noted has a vertex that is not placed, so none is. -/
theorem Gathering.give (h : Gathering s a placements pending (group :: left))
    (hsettled : Settled s a placements.toList) (hne : unplaced placements group ≠ [])
    (hmade : made.map Placement.vertex = unplaced placements group) :
    Gathering s a placements (pending ++ made) left := by
  obtain ⟨hgroup, hleft⟩ := List.forall_mem_cons.1 h.ahead
  refine ⟨List.forall_mem_append.2 ⟨h.noted, fun q hq => ?_⟩, hleft, fun v hv => ?_, fun _ => ?_⟩
  · have hmem : q.vertex ∈ made.map Placement.vertex := List.mem_map_of_mem hq
    rw [hmade] at hmem
    exact hgroup _ (List.mem_of_mem_filter hmem)
  · rcases h.covered v hv with hv | ⟨q, hq, hqv⟩ | ⟨group', hgroup', hv⟩
    · exact Or.inl hv
    · exact Or.inr (Or.inl ⟨q, List.mem_append_left _ hq, hqv⟩)
    · rcases List.mem_cons.1 hgroup' with rfl | hgroup'
      · by_cases hplaced : placements.isPlaced v = true
        · exact Or.inl hplaced
        · have hmem : v ∈ unplaced placements group' :=
            List.mem_filter.2 ⟨hv, by simpa using hplaced⟩
          rw [← hmade] at hmem
          obtain ⟨q, hq, hqv⟩ := List.mem_map.1 hmem
          exact Or.inr (Or.inl ⟨q, List.mem_append_right _ hq, hqv⟩)
      · exact Or.inr (Or.inr ⟨group', hgroup', hv⟩)
  · obtain ⟨v, hv⟩ := List.exists_mem_of_ne_nil _ hne
    obtain ⟨hvg, hfree⟩ := List.mem_filter.1 hv
    rcases hsettled with hnone | ⟨hall, _⟩
    · exact hnone
    · have hplaced := Placements.isPlaced_iff.2 (hall v (hgroup v hvg))
      simp [hplaced] at hfree

theorem Gathering.commit (h : Gathering s a placements pending [])
    (hsettled : Settled s a placements.toList)
    (hconnected : Connected s.machine (pending.map Placement.chip)) :
    Settled s a (placements.toList ++ pending) := by
  by_cases hpending : pending = []
  · rw [hpending, List.append_nil]
    exact hsettled
  · have hnone := h.fresh hpending
    refine settled_of_patch hnone h.noted (fun v hv => ?_) hconnected
    rcases h.covered v hv with hplaced | hv | ⟨_, hnil, _⟩
    · obtain ⟨q, hq, rfl⟩ := Placements.isPlaced_iff.1 hplaced
      exact absurd hv (hnone q hq)
    · exact hv
    · cases hnil

theorem undivided_initial (s : Setting) (a : AppVertexId) (start : Coord) :
    Undivided s a (.initial s start) where
  todo := fun _ htask => htask
  control := trivial
  settled := Or.inl (by simp [Without, Stage.initial, Placements.empty])

/-- Only groups of other vertices are placed at once, as these have no fixed location. -/
theorem Undivided.fix (hm : Machine.Fulfils d s.machine)
    (hfree : ∀ v ∈ s.graph.verticesOf a, ∀ w, s.graph.HasVertex v w → w.location? = none)
    {p p' : Progress} {first : MachineVertexId} {others : List MachineVertexId} {sdram : Nat}
    (hvertices : unplaced p.placements group = first :: others)
    (hfixed : s.placeFixed first others sdram pending p = .ok (true, p'))
    (hsettled : Settled s a p.placements.toList)
    (h : Gathering s a p.placements pending (group :: left) ∨
      Without s.graph a pending ∧ Foreign s.graph a (group :: left)) :
    (Without s.graph a pending ∧ Foreign s.graph a left) ∧
      Settled s a p'.placements.toList := by
  obtain ⟨chip, made, hchip?, hmade, _, hperm⟩ := placeFixed_made hm hfixed
  have hmember : ∀ v ∈ first :: others, v ∈ group.vertices := by
    intro v hv
    rw [← hvertices] at hv
    exact List.mem_of_mem_filter hv
  rcases h with hgathering | ⟨hpending, hforeign⟩
  · obtain ⟨v, hv, w, location, hw, hlocation, _⟩ := (fixedChip?_spec hchip?).1 chip rfl
    have hva := hgathering.ahead group List.mem_cons_self v (hmember v hv)
    rw [hfree v hva w hw] at hlocation
    cases hlocation
  · obtain ⟨hgroup, hleft⟩ := List.forall_mem_cons.1 hforeign
    refine ⟨⟨hpending, hleft⟩, (hsettled.append fun q hq => ?_).perm hperm.symm⟩
    have hmem : q.vertex ∈ made.map Placement.vertex := List.mem_map_of_mem hq
    rw [hmade] at hmem
    exact hgroup _ (hmember _ hmem)

theorem Undivided.step (hm : Machine.Fulfils d s.machine) (hcut : CutFrom s.app s.graph)
    (hfree : ∀ v ∈ s.graph.verticesOf a, ∀ w, s.graph.HasVertex v w → w.location? = none)
    (h : Undivided s a stage) (hjoined : stage.Joined s) (hstep : Step s stage stage') :
    Undivided s a stage' := by
  obtain ⟨htodo, hcontrol, hsettled⟩ := h
  cases hstep with
  | takeUp _ htask hgroups =>
      rw [htask] at htodo
      obtain ⟨hfirst, hrest⟩ := List.forall_mem_cons.1 htodo
      exact ⟨hrest, owns_or_foreign hcut hfirst hgroups a, hsettled⟩
  | pass _ => exact ⟨htodo, trivial, hsettled⟩
  | start hattempt _ hstart _ =>
      rw [hattempt] at hcontrol
      obtain ⟨_, _, _, hsame, _⟩ := startPatch_cases hstart
      refine ⟨htodo, ⟨hcontrol, ?_⟩, by rw [hsame]; exact hsettled⟩
      exact hcontrol.imp gathering_start fun hforeign => ⟨by simp [Without], hforeign⟩
  | skip hplace hplaced =>
      rw [hplace] at hcontrol
      obtain ⟨hjob, hleft⟩ := hcontrol
      refine ⟨htodo, ⟨hjob, ?_⟩, hsettled⟩
      exact hleft.imp (fun hgathering => hgathering.skip hplaced) fun ⟨hpending, hforeign⟩ =>
        ⟨hpending, (List.forall_mem_cons.1 hforeign).2⟩
  | fix hplace hvertices hfixed =>
      rw [hplace] at hcontrol
      obtain ⟨hjob, hleft⟩ := hcontrol
      obtain ⟨haside, hsettled⟩ := Undivided.fix hm hfree hvertices hfixed hsettled hleft
      exact ⟨htodo, ⟨hjob, Or.inr haside⟩, hsettled⟩
  | give hplace hloose _ hgive =>
      rw [hplace] at hcontrol
      obtain ⟨hjob, hleft⟩ := hcontrol
      obtain ⟨hmade, _⟩ := giveCores_spec hgive
      refine ⟨htodo, ⟨hjob, ?_⟩, hsettled⟩
      refine hleft.imp (fun hgathering => hgathering.give hsettled hloose.1 hmade.vertices) ?_
      rintro ⟨hpending, hforeign⟩
      obtain ⟨hgroup, hforeign⟩ := List.forall_mem_cons.1 hforeign
      refine ⟨List.forall_mem_append.2 ⟨hpending, fun q hq => ?_⟩, hforeign⟩
      have hmem : q.vertex ∈ _ := List.mem_map_of_mem (f := Placement.vertex) hq
      rw [hmade.vertices] at hmem
      exact hgroup _ (List.mem_of_mem_filter hmem)
  | grow hplace _ _ hgrow _ =>
      rw [hplace] at hcontrol
      obtain ⟨_, rfl, _⟩ := grow_offered hm hgrow
      exact ⟨htodo, hcontrol, hsettled⟩
  | abandon hplace _ _ hgrow =>
      rw [hplace] at hcontrol
      obtain ⟨_, rfl⟩ | ⟨_, _, _, hsome, _⟩ := grow_cases hgrow
      · exact ⟨htodo, hcontrol.1, hsettled⟩
      · cases hsome
  | again hcheck _ =>
      rw [hcheck] at hcontrol
      exact ⟨htodo, hcontrol, hsettled⟩
  | commit hplace hadd =>
      have hconnected := (hjoined _ _ _ hplace).connected
      rw [hplace] at hcontrol
      refine ⟨htodo, trivial, Settled.perm ?_ (Placements.addAll_perm hadd).symm⟩
      rcases hcontrol.2 with hgathering | ⟨hpending, _⟩
      · exact hgathering.commit hsettled hconnected
      · exact hsettled.append hpending

theorem undivided_of_reached (hm : Machine.Fulfils d s.machine) (hcut : CutFrom s.app s.graph)
    (hfree : ∀ v ∈ s.graph.verticesOf a, ∀ w, s.graph.HasVertex v w → w.location? = none)
    (h : Reached s start stage) : Undivided s a stage := by
  induction h with
  | refl => exact undivided_initial s a start
  | tail hreached hstep ih => exact ih.step hm hcut hfree (joined_of_reached hm hreached) hstep

end

/-! ## The placed vertex -/

/-- All machine vertices of an application vertex, on chips that working links between these chips
join. -/
structure OnePatch (m : Machine) (g : MachineGraph) (placements : Placements)
    (a : AppVertexId) : Prop where
  placed : ∀ v ∈ g.verticesOf a, ∃ q ∈ placements.toList, q.vertex = v
  connected : Connected m (chipsOf g a placements.toList)

section

variable {d : Mesh.MachineSpec} {app : ApplicationGraph} {g : MachineGraph} {m : Machine}
  {config : PlacerConfig} {placements : Placements} {a : AppVertexId} {w : ApplicationVertex}

theorem location_of_free (hcut : CutFrom app g) (hw : app.vertices[a.index]? = some w)
    (hfree : w.fixedLocation? = .ok none) :
    ∀ v ∈ g.verticesOf a, ∀ x, g.HasVertex v x → x.location? = none := by
  intro v hv x hx
  obtain ⟨y, hy, hya⟩ := hcut.wellIndexed.mem_verticesOf.1 hv
  cases hx.eq hy
  obtain ⟨w', hw', hlocation⟩ := hcut.located v x a hx hya
  cases hw.symm.trans hw'
  exact (Except.ok.inj (hfree.symm.trans hlocation)).symm

/-- The slices of a vertex without a fixed location are placed as one patch of the machine. -/
theorem sliceGraph_onePatch {code : Nat} (hm : Machine.ofSpec d = .ok m)
    (hsliced : Slicing.sliceGraph code app m = .ok g)
    (hplaced : placeGraph app g m config = .ok placements)
    (hw : app.vertices[a.index]? = some w) (hfree : w.fixedLocation? = .ok none) :
    OnePatch m g placements a := by
  have hm := Machine.ofSpec_spec hm
  obtain ⟨hcut, _, _⟩ := Slicing.sliceGraph_spec hsliced
  have hsafe := safePlacement_of_placeGraph hm hcut hplaced
  have hall : ∀ v ∈ g.verticesOf a, ∃ q ∈ placements.toList, q.vertex = v := by
    intro v hv
    obtain ⟨x, hx, _⟩ := hcut.wellIndexed.mem_verticesOf.1 hv
    obtain ⟨q, hq, _⟩ := hsafe.placed v hx.lt
    exact ⟨q, hq⟩
  obtain ⟨start, hstart, _⟩ := bind_eq_ok.1 hplaced
  obtain ⟨stage, hreached, _, _, rfl⟩ := (placeGraph_follows
    (s := ⟨app, g, m, config⟩) hm (lift_eq_ok.1 hstart)).1 placements hplaced
  refine ⟨hall, ?_⟩
  rcases (undivided_of_reached hm hcut (location_of_free hcut hw hfree) hreached).settled with
    hnone | ⟨_, hconnected⟩
  · have hnil : chipsOf g a stage.progress.placements.toList = [] := by
      rw [chipsOf, List.filter_eq_nil_iff.2 (by simpa [Without] using hnone), List.map_nil]
    rw [hnil]
    exact connected_nil m
  · exact hconnected

end

/-- Six chips with a core each for vertices, on boards of two chips, with a fault. -/
def sixChips : Mesh.MachineSpec where
  width := 3
  height := 2
  boardWidth := 1
  boardHeight := 2
  chip := { processors := 2 }
  deadLinks := [(⟨0, 0⟩, .north)]

/-- A vertex that fills a chip from the start, and one that grows past it. -/
def pinnedApp : ApplicationGraph where
  vertices := #[
    { label := "pinned", atoms := 1, constraints := [.chipAndCore 1 0 none] },
    { label := "patch", atoms := 4, splitter := .fixedSlice 1 }]

def placedPinned : Outcome (Machine × MachineGraph × Placements) := do
  let m ← Machine.ofSpec sixChips
  let g ← Slicing.sliceGraph 1 pinnedApp m
  let placements ← placeGraph pinnedApp g m {}
  return (m, g, placements)

theorem sliceGraph_onePatch_pinned : ∃ m g placements, Machine.ofSpec sixChips = .ok m ∧
    Slicing.sliceGraph 1 pinnedApp m = .ok g ∧ placeGraph pinnedApp g m {} = .ok placements ∧
    OnePatch m g placements ⟨1⟩ := by
  obtain ⟨_, hrun⟩ := exists_of_isOk (show placedPinned.isOk = true by decide +kernel)
  obtain ⟨m, hm, hrun⟩ := bind_eq_ok.1 hrun
  obtain ⟨g, hg, hrun⟩ := bind_eq_ok.1 hrun
  obtain ⟨placements, hplaced, _⟩ := bind_eq_ok.1 hrun
  have hm := lift_eq_ok.1 hm
  exact ⟨m, g, placements, hm, hg, hplaced, sliceGraph_onePatch hm hg hplaced rfl rfl⟩

end MulticastMesh.Placing
