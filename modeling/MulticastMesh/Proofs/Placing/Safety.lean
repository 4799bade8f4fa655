import MulticastMesh.Proofs.Placing.Attempts
import MulticastMesh.Proofs.Slicing.Graph
/-!
# Safe placements

A placement that succeeds puts every machine vertex on a core of its own, within the memory of the
chips, clear of monitors and reserved cores, and where the constraints want it.
-/

namespace MulticastMesh.Placing

open MulticastMesh.Graph (AppVertexId ApplicationGraph ApplicationVertex MachineGraph
  MachineVertex MachineVertexId)
open Mesh (Coord Machine MachineSpec)
open Layout (Placement Placements)
open Slicing (ChipGroup CutFrom)
open Outcome

variable {d : MachineSpec} {s : Setting} {p p' : Progress}

/-! ## Placing the groups of one vertex -/

theorem attempt_spec (hm : Machine.Fulfils d s.machine) {groups : List ChipGroup}
    (hgroups : ∀ group ∈ groups, GroupOk s group) (h : Invariant s p [])
    (hidle : p.pool.handedOut = []) {result : Attempt}
    (hrun : s.attempt groups p = .ok (result, p')) : Ended s p p' [] groups result := by
  cases groups with
  | nil =>
      cases runState_pure_eq_ok.1 hrun
      exact ⟨fun q hq => hq, h, hidle, by simp, by simp⟩
  | cons group rest =>
      obtain ⟨frontier, p₁, hstart, hrun⟩ := runState_bind_eq_ok.1 hrun
      obtain ⟨hsame, hinv⟩ := startPatch_spec hm h hstart
      have hend := placeFrom_spec hm hgroups hinv hrun
      refine { hend with kept := ?_ }
      rw [← hsame]
      exact hend.kept

theorem retry_spec (hm : Machine.Fulfils d s.machine) {groups : List ChipGroup}
    (hgroups : ∀ group ∈ groups, GroupOk s group) (h : Invariant s p [])
    (hidle : p.pool.handedOut = []) {label : String} {fuel : Nat}
    (hrun : s.retry label groups fuel p = .ok ((), p')) : Ended s p p' [] groups .placed := by
  induction fuel generalizing p with
  | zero => cases hrun
  | succ fuel ih =>
      obtain ⟨result, p₁, hattempt, hrun⟩ := runState_bind_eq_ok.1 hrun
      have hend := attempt_spec hm hgroups h hidle hattempt
      cases result with
      | placed =>
          cases runState_pure_eq_ok.1 hrun
          exact hend
      | abandoned cores sdram =>
          obtain ⟨_, _, hlift, hrun⟩ := runState_bind_eq_ok.1 hrun
          obtain ⟨_, _, hstate⟩ := runState_lift_eq_ok.1 hlift
          cases hstate
          have hlast := ih hend.invariant hend.idle hrun
          exact { hlast with kept := fun q hq => hlast.kept q (hend.kept q hq) }

theorem placeGroups_spec (hm : Machine.Fulfils d s.machine) {groups : List ChipGroup}
    (hgroups : ∀ group ∈ groups, GroupOk s group) (h : Invariant s p [])
    (hidle : p.pool.handedOut = []) {label : String}
    (hrun : s.placeGroups label groups p = .ok ((), p')) : Ended s p p' [] groups .placed := by
  obtain ⟨htracked, hidle', hcurrent⟩ := h.tracked.restore hidle
  have hinv : Invariant s { p with pool := p.pool.restore } [] := by
    refine ⟨h.sound, htracked, ?_, by simp, h.whole⟩
    intro room hroom
    exact h.room room (hcurrent ▸ hroom)
  unfold Setting.placeGroups at hrun
  have hlast := retry_spec hm hgroups hinv hidle' (during_eq_ok.1 hrun)
  exact ⟨hlast.kept, hlast.invariant, hlast.idle, hlast.pending, hlast.placed⟩

/-! ## The groups -/

section

variable {w : ApplicationVertex} {id : AppVertexId}

theorem CutFrom.not_mem_verticesOf (hcut : CutFrom s.app s.graph) {a : AppVertexId}
    (hne : a ≠ id) {v : MachineVertexId} (hv : v ∈ s.graph.verticesOf id) :
    v ∉ s.graph.verticesOf a := by
  intro hva
  obtain ⟨x, hx, hxid⟩ := hcut.wellIndexed.mem_verticesOf.1 hv
  obtain ⟨y, hy, hya⟩ := hcut.wellIndexed.mem_verticesOf.1 hva
  cases hx.eq hy
  exact hne (Option.some.inj (hya.symm.trans hxid))

theorem CutFrom.locations (hcut : CutFrom s.app s.graph) {v u : MachineVertexId}
    (hv : v ∈ s.graph.verticesOf id) (hu : u ∈ s.graph.verticesOf id) {v' u' : MachineVertex}
    (hv' : s.graph.HasVertex v v') (hu' : s.graph.HasVertex u u') :
    v'.location? = u'.location? := by
  obtain ⟨x, hx, hxid⟩ := hcut.wellIndexed.mem_verticesOf.1 hv
  obtain ⟨y, hy, hyid⟩ := hcut.wellIndexed.mem_verticesOf.1 hu
  cases hx.eq hv'
  cases hy.eq hu'
  exact hcut.same_location hx hxid hy hyid

theorem chipGroups_eq_ok {splitter : Graph.Splitter} {g : MachineGraph} {groups : List ChipGroup}
    (h : Slicing.chipGroups splitter g id = .ok groups) :
    (∃ slices, splitter = .applicationDefined slices true ∧
      groups = if (g.verticesOf id).isEmpty then []
        else [⟨g.verticesOf id, ((g.verticesOf id).map (memoryOf g)).sum⟩]) ∨
    ((∀ slices, splitter ≠ .applicationDefined slices true) ∧
      groups = (g.verticesOf id).map fun v => ⟨[v], memoryOf g v⟩) := by
  obtain ⟨memory, hmemory, h⟩ := bind_eq_ok.1 h
  have hall := mapM_eq_ok.1 hmemory
  have hmemory : memory = (g.verticesOf id).map (memoryOf g) := by
    symm
    rw [← List.forall₂_eq_eq_eq, List.forall₂_map_left_iff]
    refine hall.imp ?_
    intro v n hv
    obtain ⟨x, hx, hn⟩ := bind_eq_ok.1 hv
    rw [memoryOf_eq (MachineGraph.vertex_eq_ok.1 hx)]
    exact pure_eq_ok.1 hn
  subst hmemory
  by_cases hshares : ∃ slices, splitter = .applicationDefined slices true
  · obtain ⟨slices, rfl⟩ := hshares
    exact Or.inl ⟨slices, rfl, (pure_eq_ok.1 h).symm⟩
  · refine Or.inr ⟨not_exists.1 hshares, ?_⟩
    split at h
    · exact absurd ⟨_, rfl⟩ hshares
    · rw [← pure_eq_ok.1 h, List.zipWith_map_right, List.zipWith_self]

theorem chipGroups_spec (hcut : CutFrom s.app s.graph)
    (hw : s.app.vertices[id.index]? = some w) {groups : List ChipGroup}
    (h : Slicing.chipGroups w.splitter s.graph id = .ok groups) :
    (∀ group ∈ groups, GroupOk s group) ∧
      ∀ v ∈ s.graph.verticesOf id, ∃ group ∈ groups, v ∈ group.vertices := by
  rcases chipGroups_eq_ok h with ⟨slices, hsplitter, rfl⟩ | ⟨hsplitter, rfl⟩
  · by_cases hempty : (s.graph.verticesOf id).isEmpty = true
    · rw [if_pos hempty]
      rw [List.isEmpty_iff] at hempty
      simp [hempty]
    · rw [if_neg hempty]
      simp only [List.mem_singleton, forall_eq, exists_eq_left]
      refine ⟨⟨le_rfl, fun v hv u hu v' u' hv' hu' => CutFrom.locations hcut hv hu hv' hu', ?_⟩,
        fun v hv => hv⟩
      intro a _
      by_cases ha : a = id
      · exact Or.inl (by rw [ha])
      · exact Or.inr fun v hv => CutFrom.not_mem_verticesOf hcut ha hv
  · refine ⟨?_, fun v hv => ⟨_, List.mem_map_of_mem hv, List.mem_singleton.2 rfl⟩⟩
    intro group hgroup
    obtain ⟨v, hv, rfl⟩ := List.mem_map.1 hgroup
    refine ⟨by simp, ?_, ?_⟩
    · intro x hx y hy x' y' hx' hy'
      cases List.mem_singleton.1 hx
      cases List.mem_singleton.1 hy
      rw [hx'.eq hy']
    · rintro a ⟨w', slices, hw', hslices⟩
      right
      intro x hx
      cases List.mem_singleton.1 hx
      refine CutFrom.not_mem_verticesOf hcut ?_ hv
      rintro rfl
      cases hw.symm.trans hw'
      exact hsplitter slices hslices

theorem groupOk_single (hcut : CutFrom s.app s.graph) {v : MachineVertexId} {x : MachineVertex}
    (hx : s.graph.HasVertex v x) (hnone : x.app? = none) :
    GroupOk s ⟨[v], x.resources.sdram⟩ where
  memory := by simp [memoryOf_eq hx]
  location := by
    intro y hy z hz y' z' hy' hz'
    cases List.mem_singleton.1 hy
    cases List.mem_singleton.1 hz
    rw [hy'.eq hz']
  together := by
    intro a _
    right
    intro y hy hmem
    cases List.mem_singleton.1 hy
    obtain ⟨z, hz, hza⟩ := hcut.wellIndexed.mem_verticesOf.1 hmem
    rw [hz.eq hx, hnone] at hza
    cases hza

end

/-! ## All vertices -/

/-- What is kept while one vertex after another is placed. -/
structure Standing (s : Setting) (p : Progress) : Prop where
  invariant : Invariant s p []
  idle : p.pool.handedOut = []

theorem Standing.placeGroups (hm : Machine.Fulfils d s.machine) (h : Standing s p)
    {groups : List ChipGroup} (hgroups : ∀ group ∈ groups, GroupOk s group) {label : String}
    (hrun : s.placeGroups label groups p = .ok ((), p')) :
    Standing s p' ∧ (∀ v, p.placements.isPlaced v = true → p'.placements.isPlaced v = true) ∧
      ∀ group ∈ groups, ∀ v ∈ group.vertices, p'.placements.isPlaced v = true := by
  have hend := placeGroups_spec hm hgroups h.invariant h.idle hrun
  exact ⟨⟨hend.invariant, hend.idle⟩, fun v => isPlaced_of_mem hend.kept, hend.placed rfl⟩

theorem standing_start (s : Setting) (start : Coord) :
    Standing s ⟨.ofMachine s.machine start, .empty⟩ where
  invariant := by
    refine ⟨⟨by simp [Placements.empty], ?_, by simp [Placements.empty]⟩,
      Tracked.ofMachine _ _, by simp [ChipPool.ofMachine], by simp, ?_⟩
    · intro c chip _
      simp [Placements.empty, memoryOn]
    · intro a _
      exact ⟨Or.inl (by simp [Placements.empty]), Or.inl (by simp)⟩
  idle := rfl

theorem placeAll_spec (hm : Machine.Fulfils d s.machine) (hcut : CutFrom s.app s.graph)
    (h : Standing s p) (hrun : s.placeAll p = .ok ((), p')) :
    Standing s p' ∧ ∀ id v, s.graph.HasVertex id v → p'.placements.isPlaced id = true := by
  obtain ⟨_, p₁, hcutRun, hownRun⟩ := runState_bind_eq_ok.1 hrun
  have hfirst := runState_forM_induction
    (motive := fun before q => Standing s q ∧ ∀ a w, (a, w) ∈ before →
      ∀ v ∈ s.graph.verticesOf a, q.placements.isPlaced v = true) hcutRun ⟨h, by simp⟩ ?_
  · have hsecond := runState_forM_induction
      (motive := fun before q => Standing s q ∧
        (∀ v, p₁.placements.isPlaced v = true → q.placements.isPlaced v = true) ∧
        ∀ id x, (id, x) ∈ before → x.app? = none → q.placements.isPlaced id = true)
      hownRun ⟨hfirst.1, fun _ hv => hv, by simp⟩ ?_
    · refine ⟨hsecond.1, ?_⟩
      intro id x hx
      cases happ : x.app? with
      | none => exact hsecond.2.2 id x (MachineGraph.mem_toList.2 hx) happ
      | some a =>
          obtain ⟨w, hw, _⟩ := hcut.located id x a hx happ
          apply hsecond.2.1
          refine hfirst.2 a w ?_ id (hcut.wellIndexed.mem_verticesOf.2 ⟨x, hx, happ⟩)
          exact Slicing.mem_app_toList.2 hw
    · rintro before ⟨id, x⟩ after hl q q' ⟨hstanding, hkept, hplaced⟩ hstep
      have hx : s.graph.HasVertex id x := MachineGraph.mem_toList.1 (by simp [hl])
      cases happ : x.app? with
      | none =>
          simp only [happ, Option.isNone_none, if_true] at hstep
          obtain ⟨hstanding', hkept', hgroup⟩ := hstanding.placeGroups hm
            (by simpa using groupOk_single hcut hx happ) hstep
          refine ⟨hstanding', fun v hv => hkept' v (hkept v hv), ?_⟩
          intro id' x' hmem hnone
          rcases List.mem_append.1 hmem with hmem | hmem
          · exact hkept' _ (hplaced id' x' hmem hnone)
          · cases List.mem_singleton.1 hmem
            exact hgroup _ (List.mem_singleton.2 rfl) id (List.mem_singleton.2 rfl)
      | some a =>
          simp only [happ, Option.isNone_some, Bool.false_eq_true, if_false] at hstep
          cases runState_pure_eq_ok.1 hstep
          refine ⟨hstanding, hkept, ?_⟩
          intro id' x' hmem hnone
          rcases List.mem_append.1 hmem with hmem | hmem
          · exact hplaced id' x' hmem hnone
          · cases List.mem_singleton.1 hmem
            rw [happ] at hnone
            cases hnone
  · rintro before ⟨a, w⟩ after hl q q' ⟨hstanding, hplaced⟩ hstep
    have hw : s.app.vertices[a.index]? = some w := Slicing.mem_app_toList.1 (by simp [hl])
    obtain ⟨groups, _, hlift, hstep⟩ := runState_bind_eq_ok.1 hstep
    obtain ⟨_, hgroups, hstate⟩ := runState_lift_eq_ok.1 hlift
    cases hstate
    obtain ⟨hok, hcover⟩ := chipGroups_spec hcut hw (lift_eq_ok.1 hgroups)
    obtain ⟨hstanding', hkept', hgroup⟩ := hstanding.placeGroups hm hok hstep
    refine ⟨hstanding', ?_⟩
    intro a' w' hmem v hv
    rcases List.mem_append.1 hmem with hmem | hmem
    · exact hkept' v (hplaced a' w' hmem v hv)
    · cases List.mem_singleton.1 hmem
      obtain ⟨group, hmember, hvg⟩ := hcover v hv
      exact hgroup group hmember v hvg

/-- What a placement must be to run. -/
structure SafePlacement (app : ApplicationGraph) (g : MachineGraph) (m : Machine)
    (reserved : List ReservedCore) (placements : Placements) : Prop where
  placed : ∀ id : MachineVertexId, id.index < g.size →
    ∃! p, p ∈ placements.toList ∧ p.vertex = id
  ownCore : ∀ p ∈ placements.toList, ∀ q ∈ placements.toList, p.core = q.core → p = q
  userCore : ∀ p ∈ placements.toList, ∃ chip, m.chip? p.chip = some chip ∧
    chip.monitors ≤ p.processor ∧ p.processor < chip.processors ∧
    ⟨p.chip, p.processor⟩ ∉ reserved
  memory : ∀ c chip, m.chip? c = some chip → memoryOn g c placements.toList ≤ chip.sdram
  fixed : ∀ p ∈ placements.toList, Obeys g p
  together : ∀ a, SharesChip app a → ∃ chip, ∀ v ∈ g.verticesOf a,
    ∀ p ∈ placements.toList, p.vertex = v → p.chip = chip

theorem safePlacement_of_standing (hm : Machine.Fulfils d s.machine) (h : Standing s p)
    (hall : ∀ id v, s.graph.HasVertex id v → p.placements.isPlaced id = true) :
    SafePlacement s.app s.graph s.machine s.config.reserved p.placements where
  placed := by
    intro id hid
    obtain ⟨v, hv⟩ := MachineGraph.exists_hasVertex hid
    obtain ⟨q, hq, hqv⟩ := Placements.isPlaced_iff.1 (hall id v hv)
    refine ⟨q, ⟨hq, hqv⟩, ?_⟩
    rintro r ⟨hr, hrv⟩
    exact Placements.eq_of_vertex_eq hr hq (hrv.trans hqv.symm)
  ownCore := fun q hq r hr => Placements.eq_of_core_eq hq hr
  userCore := by
    intro q hq
    obtain ⟨chip, hchip, hcore⟩ := h.invariant.sound.left.core q hq
    obtain ⟨huser, hfree⟩ := List.mem_filter.1 hcore
    unfold Mesh.Chip.userProcessors at huser
    rw [List.mem_range'_1] at huser
    refine ⟨chip, hchip, huser.1, by omega, ?_⟩
    rw [← hm.chip_coord hchip]
    simpa using hfree
  memory := h.invariant.sound.left.memory
  fixed := h.invariant.sound.left.obeys
  together := by
    intro a ha
    rcases (h.invariant.whole a ha).1 with hnone | ⟨chip, hchip⟩
    · exact ⟨⟨0, 0⟩, fun v hv q hq hqv => absurd (hqv ▸ hv) (hnone q hq)⟩
    · refine ⟨chip, fun v hv q hq hqv => ?_⟩
      obtain ⟨r, hr, hrv, hrchip⟩ := hchip v hv
      rw [Placements.eq_of_vertex_eq hq hr (hqv.trans hrv.symm)]
      exact hrchip

theorem cutFrom_addVertices {app : ApplicationGraph} {cut g : MachineGraph}
    {extras : List MachineVertex} (hcut : CutFrom app cut) (hg : cut.addVertices extras = .ok g)
    (hnone : ∀ v ∈ extras, v.app? = none) : CutFrom app g := by
  refine foldlM_invariant hg hcut ?_
  intro v hv graph graph' hgraph hstep
  obtain ⟨⟨id, extended⟩, hadd, hreturn⟩ := bind_eq_ok.1 hstep
  cases pure_eq_ok.1 hreturn
  obtain ⟨_, hext⟩ := MachineGraph.addVertex_spec hadd
  apply hgraph.extend hext
  intro a ha
  rw [hnone v hv] at ha
  cases ha

theorem safePlacement_of_placeGraph {app : ApplicationGraph} {g : MachineGraph} {m : Machine}
    {config : PlacerConfig} {placements : Placements} (hm : Machine.Fulfils d m)
    (hcut : CutFrom app g) (h : placeGraph app g m config = .ok placements) :
    SafePlacement app g m config.reserved placements := by
  obtain ⟨start, _, h⟩ := bind_eq_ok.1 h
  obtain ⟨⟨_, progress⟩, hrun, hreturn⟩ := bind_eq_ok.1 h
  cases pure_eq_ok.1 hreturn
  obtain ⟨hstanding, hall⟩ := placeAll_spec (s := ⟨app, g, m, config⟩) hm hcut
    (standing_start _ start) hrun
  exact safePlacement_of_standing (s := ⟨app, g, m, config⟩) hm hstanding hall

/-- Placing the machine vertices of an application, and any others beside them, is safe. -/
theorem placeGraph_safe {app : ApplicationGraph} {cut g : MachineGraph} {m : Machine}
    {code : Nat} {extras : List MachineVertex} {config : PlacerConfig} {placements : Placements}
    (hm : Machine.ofSpec d = .ok m) (hcut : Slicing.sliceGraph code app m = .ok cut)
    (hextras : cut.addVertices extras = .ok g) (hnone : ∀ v ∈ extras, v.app? = none)
    (h : placeGraph app g m config = .ok placements) :
    SafePlacement app g m config.reserved placements :=
  safePlacement_of_placeGraph (Machine.ofSpec_spec hm)
    (cutFrom_addVertices (Slicing.sliceGraph_spec hcut).1 hextras hnone) h

def twoChips : MachineSpec := { width := 2, height := 1 }

/-- A vertex whose two slices share a chip, and one that is fixed to the other chip. -/
def pairApp : ApplicationGraph where
  vertices := #[
    { label := "a", atoms := 2, splitter := .applicationDefined [(0, 0), (1, 1)] true },
    { label := "b", atoms := 1, constraints := [.chipAndCore 1 0 (some 3)] }]

def device : MachineVertex where
  label := "device"
  app? := none
  index := 0
  slice := .ofLength 0 1
  resources := ⟨1, 10, 0⟩
  location? := some ⟨⟨1, 0⟩, none⟩

def placedPair : Outcome (Machine × MachineGraph × MachineGraph × Placements) := do
  let m ← Machine.ofSpec twoChips
  let cut ← Slicing.sliceGraph 1 pairApp m
  let g ← cut.addVertices [device]
  let placements ← placeGraph pairApp g m {}
  return (m, cut, g, placements)

theorem placeGraph_safe_pair : ∃ m cut g placements, Machine.ofSpec twoChips = .ok m ∧
    Slicing.sliceGraph 1 pairApp m = .ok cut ∧ cut.addVertices [device] = .ok g ∧
    placeGraph pairApp g m {} = .ok placements ∧ SafePlacement pairApp g m [] placements := by
  obtain ⟨_, hrun⟩ := exists_of_isOk (show placedPair.isOk = true by decide +kernel)
  obtain ⟨m, hm, hrun⟩ := bind_eq_ok.1 hrun
  obtain ⟨cut, hcut, hrun⟩ := bind_eq_ok.1 hrun
  obtain ⟨g, hg, hrun⟩ := bind_eq_ok.1 hrun
  obtain ⟨placements, hplaced, _⟩ := bind_eq_ok.1 hrun
  have hm := lift_eq_ok.1 hm
  have hg := lift_eq_ok.1 hg
  exact ⟨m, cut, g, placements, hm, hcut, hg, hplaced,
    placeGraph_safe hm hcut hg (by simp [device]) hplaced⟩

end MulticastMesh.Placing
