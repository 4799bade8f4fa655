import Mathlib.Algebra.GroupWithZero.Nat
import Mathlib.Data.List.Find
import MulticastMesh.Proofs.Slicing.Classes
import MulticastMesh.Proofs.Slicing.Tiles
/-!
# Vertices cut into slices that fit

The machine vertices of an application vertex run slices that tile its atoms; each fits on a core
and holds no more atoms than any vertex allows that it is tied to.  Tied vertices have the same
slices.
-/

namespace MulticastMesh.Slicing

open MulticastMesh.Graph (AppVertexId ApplicationGraph ApplicationVertex CoreBudget MachineGraph
  MachineVertex MachineVertexId Slice)
open MulticastMesh.Graph.MachineGraph (HasVertex)
open Mesh (Machine)
open Outcome

variable {app : ApplicationGraph} {g g' : MachineGraph} {a b : AppVertexId} {m : Member}
  {all : List Member} {w w' : ApplicationVertex} {slices : List Slice} {budget : CoreBudget}
  {vertices : List MachineVertex}

/-- All atoms of the vertices with multicast edges into a vertex, counted once for every edge. -/
def heardAtoms (app : ApplicationGraph) (a : AppVertexId) : Nat :=
  (((app.incoming a).filter fun edge => edge.traffic == .multicast).map fun edge =>
    app.vertices[edge.pre.index]?.elim 0 ApplicationVertex.atoms).sum

/-- A machine vertex that runs one slice of an application vertex and fits on a core. -/
structure Runs (app : ApplicationGraph) (budget : CoreBudget) (a : AppVertexId)
    (w : ApplicationVertex) (s : Slice) (i : Nat) (v : MachineVertex) : Prop where
  app? : v.app? = some a
  index : v.index = i
  slice : v.slice = s
  resources : v.resources = w.cost.resources s.atoms (heardAtoms app a)
  fits : v.resources.fitsCore budget = true

/-- The machine vertices of an application vertex run the given slices, in order. -/
structure CutInto (app : ApplicationGraph) (budget : CoreBudget) (g : MachineGraph)
    (a : AppVertexId) (w : ApplicationVertex) (slices : List Slice) : Prop where
  increasing : (g.verticesOf a).Pairwise fun id id' => id.index < id'.index
  runs : List.Forall₂ (fun id piece => ∃ v, g.HasVertex id v ∧
    Runs app budget a w piece.1 piece.2 v) (g.verticesOf a) slices.zipIdx

/-! ## Members -/

theorem incomingAtoms_spec {n : Nat} (h : incomingAtoms app a = .ok n) : n = heardAtoms app a := by
  obtain ⟨atoms, hatoms, h⟩ := bind_eq_ok.1 h
  rw [← pure_eq_ok.1 h]
  unfold heardAtoms
  revert hatoms
  generalize ((app.incoming a).filter fun edge => edge.traffic == .multicast) = edges
  intro hatoms
  have hall := mapM_eq_ok.1 hatoms
  clear hatoms h
  induction hall with
  | nil => rfl
  | @cons edge n _ _ hstep _ ih =>
      obtain ⟨source, hsource, hn⟩ := bind_eq_ok.1 hstep
      rw [List.foldr_cons, List.map_cons, List.sum_cons, ih, app_vertex_eq_ok.1 hsource,
        ← pure_eq_ok.1 hn]
      rfl

theorem mem_members (h : members app = .ok all) (hm : m ∈ all) :
    app.vertices[m.id.index]? = some m.vertex ∧ m.incomingAtoms = heardAtoms app m.id := by
  obtain ⟨⟨a, w⟩, hw, hmember⟩ := (mem_of_mapM_eq_ok h).1 hm
  obtain ⟨n, hn, hmember⟩ := bind_eq_ok.1 hmember
  cases pure_eq_ok.1 hmember
  exact ⟨mem_app_toList.1 hw, incomingAtoms_spec hn⟩

theorem members_get (h : members app = .ok all) (hw : app.vertices[a.index]? = some w) :
    ∃ m, all[a.index]? = some m ∧ m.id = a ∧ m.vertex = w := by
  obtain ⟨hlength, hmember⟩ := members_spec h
  have hlt : a.index < all.length := by
    rw [hlength]
    exact (Array.getElem?_eq_some_iff.1 hw).1
  have hget := List.getElem?_eq_getElem hlt
  obtain ⟨hid, hvertex⟩ := hmember a.index all[a.index] hget
  exact ⟨all[a.index], hget, hid, Option.some.inj (hvertex.symm.trans hw)⟩

/-! ## Slices of a group -/

theorem groupSlices_spec {group : List AppVertexId} {atoms : Nat} (hall : members app = .ok all)
    (hcounted : ∀ w ∈ app.vertices, Counted w)
    (halike : ∀ a ∈ group, ∃ w, app.vertices[a.index]? = some w ∧ w.atoms = atoms)
    (h : groupSlices all budget group = .ok slices) (hne : group ≠ []) :
    Tiles 0 atoms slices ∧ ∀ a ∈ group, ∀ w, app.vertices[a.index]? = some w →
      ∀ s ∈ slices, s.atoms ≤ w.maxAtomsPerCore := by
  have hteam : ∀ m, m ∈ (group.filterMap fun id => all[id.index]?) ↔
      ∃ a ∈ group, all[a.index]? = some m := fun m => List.mem_filterMap
  have hmember : ∀ a ∈ group, ∀ w, app.vertices[a.index]? = some w →
      ∃ m ∈ (group.filterMap fun id => all[id.index]?), m.vertex = w := by
    intro a ha w hw
    obtain ⟨m, hm, _, hvertex⟩ := members_get hall hw
    exact ⟨m, (hteam m).2 ⟨a, ha, hm⟩, hvertex⟩
  unfold groupSlices at h
  split at h
  · next hnil =>
      obtain ⟨a, ha⟩ := List.exists_mem_of_ne_nil group hne
      obtain ⟨w, hw, _⟩ := halike a ha
      obtain ⟨m, hm, _⟩ := hmember a ha w hw
      rw [hnil] at hm
      cases hm
  · next first others hcons =>
      have hfirst : first.vertex.atoms = atoms ∧ Counted first.vertex := by
        obtain ⟨a, ha, hget⟩ := (hteam first).1 (by simp [hcons])
        obtain ⟨w, hw, hatoms⟩ := halike a ha
        obtain ⟨m, hm, _, rfl⟩ := members_get hall hw
        cases hget.symm.trans hm
        exact ⟨hatoms, hcounted _ (Array.mem_of_getElem? hw)⟩
      split at h
      · next hzero =>
          cases h
          exact ⟨hzero.symm.trans hfirst.1, by simp⟩
      · obtain ⟨htiles, hlimit⟩ := Team.slices_spec hfirst.2 (during_eq_ok.1 h)
        refine ⟨hfirst.1 ▸ htiles, ?_⟩
        intro a ha w hw s hs
        obtain ⟨m, hm, rfl⟩ := hmember a ha w hw
        rw [hcons] at hm
        exact (hlimit s hs).trans (Team.maxAtoms_le hm)

def slicesIn (cuts : List (List AppVertexId × List Slice)) (a : AppVertexId) : List Slice :=
  ((cuts.find? fun cut => cut.1.contains a).map Prod.snd).getD []

/-- Slices that tile a vertex and respect the limits of all vertices tied to it. -/
structure Suits (app : ApplicationGraph) (a : AppVertexId) (w : ApplicationVertex)
    (slices : List Slice) : Prop where
  tiles : Tiles 0 w.atoms slices
  limit : ∀ b w', Tied app a b → app.vertices[b.index]? = some w' →
    ∀ s ∈ slices, s.atoms ≤ w'.maxAtomsPerCore

section Cuts

variable {groups : List (List AppVertexId)} {cuts : List (List AppVertexId × List Slice)}
  (hcuts : (groups.mapM fun group => do
    return (group, ← groupSlices all budget group)) = (.ok cuts : Outcome _))

include hcuts

theorem mem_cuts {group : List AppVertexId} : (group, slices) ∈ cuts ↔
      group ∈ groups ∧ groupSlices all budget group = .ok slices := by
  rw [mem_of_mapM_eq_ok hcuts]
  simp only [bind_eq_ok, pure_eq_ok, Prod.mk.injEq]
  constructor
  · rintro ⟨_, hgroup, _, hslices, rfl, rfl⟩
    exact ⟨hgroup, hslices⟩
  · rintro ⟨hgroup, hslices⟩
    exact ⟨group, hgroup, slices, hslices, rfl, rfl⟩

theorem slicesIn_tied (hgroups : Grouped app groups) (hab : Tied app a b) :
    slicesIn cuts a = slicesIn cuts b := by
  have hsame : ∀ cut ∈ cuts, cut.1.contains a = cut.1.contains b := by
    intro cut hcut
    have hgroup := ((mem_cuts hcuts).1 hcut).1
    rw [Bool.eq_iff_iff, List.contains_iff_mem, List.contains_iff_mem]
    exact hgroups.tied cut.1 hgroup a b hab
  unfold slicesIn
  rw [List.find?_congr hsame]

theorem slicesIn_suits (hall : members app = .ok all) (hcounted : ∀ w ∈ app.vertices, Counted w)
    (hgroups : Grouped app groups) (hw : app.vertices[a.index]? = some w) :
    Suits app a w (slicesIn cuts a) := by
  have hfound : ∃ cut, cuts.find? (fun cut => cut.1.contains a) = some cut := by
    obtain ⟨group, hgroup, ha⟩ := hgroups.covered a (Array.getElem?_eq_some_iff.1 hw).1
    obtain ⟨cut, hcut, hstep⟩ := exists_ok_of_mapM_eq_ok hcuts hgroup
    obtain ⟨_, _, heq⟩ := bind_eq_ok.1 hstep
    rw [← Option.isSome_iff_exists, List.find?_isSome]
    refine ⟨cut, hcut, ?_⟩
    rw [← pure_eq_ok.1 heq]
    exact List.contains_iff_mem.2 ha
  obtain ⟨cut, hfind⟩ := hfound
  have hcontains := List.find?_some hfind
  have ha : a ∈ cut.1 := List.contains_iff_mem.1 hcontains
  obtain ⟨hgroup, hslices⟩ := (mem_cuts hcuts).1 (List.mem_of_find?_eq_some hfind)
  obtain ⟨atoms, halike⟩ := hgroups.alike cut.1 hgroup
  obtain ⟨htiles, hlimit⟩ := groupSlices_spec hall hcounted halike hslices (List.ne_nil_of_mem ha)
  have hcut : slicesIn cuts a = cut.2 := by
    unfold slicesIn
    rw [hfind]
    rfl
  rw [hcut]
  refine ⟨?_, ?_⟩
  · obtain ⟨w', hw', hatoms⟩ := halike a ha
    cases hw.symm.trans hw'
    exact hatoms ▸ htiles
  · intro b w' hab hw'
    exact hlimit b ((hgroups.tied cut.1 hgroup a b hab).1 ha) w' hw'

end Cuts

/-! ## Vertices of one member -/

structure Gains (a : AppVertexId) (vertices : List MachineVertex) (g g' : MachineGraph) :
    Prop where
  extended : g'.vertices.toList = g.vertices.toList ++ vertices
  listed : g'.verticesOf a =
    g.verticesOf a ++ (List.range' g.size vertices.length).map MachineVertexId.mk
  others : ∀ b, b ≠ a → g'.verticesOf b = g.verticesOf b

theorem gains_of_addVertex (happ : ∀ v ∈ vertices, v.app? = some a)
    (h : vertices.foldlM (fun graph v => do
      let (_, graph) ← graph.addVertex v
      return graph) g = (.ok g' : Outcome MachineGraph)) : Gains a vertices g g' := by
  induction vertices generalizing g with
  | nil =>
      cases pure_eq_ok.1 h
      exact ⟨by simp, by simp, fun _ _ => rfl⟩
  | cons v vertices ih =>
      rw [List.foldlM_cons] at h
      obtain ⟨g₁, hstep, h⟩ := bind_eq_ok.1 h
      obtain ⟨⟨id, g₂⟩, hadded, hreturn⟩ := bind_eq_ok.1 hstep
      cases pure_eq_ok.1 hreturn
      obtain ⟨_, hext⟩ := MachineGraph.addVertex_spec (lift_eq_ok.1 hadded)
      obtain ⟨hv, happ⟩ := List.forall_mem_cons.1 happ
      obtain ⟨hextended, hlisted, hothers⟩ := ih happ h
      refine ⟨?_, ?_, ?_⟩
      · rw [hextended, hext.vertices, Array.toList_push, List.append_assoc,
          List.singleton_append]
      · rw [hlisted, hext.verticesOf, if_pos hv, hext.size, List.length_cons, List.range'_succ,
          List.map_cons, List.append_assoc, List.singleton_append]
      · intro b hb
        have hother : v.app? ≠ some b := by
          rw [hv]
          exact fun heq => hb (Option.some.inj heq).symm
        rw [hothers b hb, hext.verticesOf, if_neg hother]

theorem Gains.hasVertex {id : MachineVertexId} {v : MachineVertex} (h : Gains a vertices g g')
    (hv : g.HasVertex id v) : g'.HasVertex id v := by
  have hlt := hv.lt
  unfold HasVertex at hv ⊢
  rw [← Array.getElem?_toList] at hv ⊢
  rw [h.extended, List.getElem?_append_left (by simpa [MachineGraph.size] using hlt)]
  exact hv

theorem Gains.hasVertex_new {i : Nat} {v : MachineVertex} (h : Gains a vertices g g')
    (hv : vertices[i]? = some v) : g'.HasVertex ⟨g.size + i⟩ v := by
  unfold HasVertex
  have hsize : g.vertices.toList.length = g.size := Array.length_toList
  have hpast : g.vertices.toList.length ≤ g.size + i := hsize ▸ Nat.le_add_right _ _
  rw [← Array.getElem?_toList, h.extended, List.getElem?_append_right hpast, hsize,
    Nat.add_sub_cancel_left]
  exact hv

theorem Gains.cutInto_other (h : Gains a vertices g g') (hba : b ≠ a)
    (hb : CutInto app budget g b w slices) : CutInto app budget g' b w slices where
  increasing := by
    rw [h.others b hba]
    exact hb.increasing
  runs := by
    rw [h.others b hba]
    exact hb.runs.imp fun id piece ⟨v, hv, hruns⟩ => ⟨v, h.hasVertex hv, hruns⟩

theorem createVertices_runs (hm : m.incomingAtoms = heardAtoms app m.id)
    (hslices : ∀ s ∈ slices, s.atoms < UInt32.size)
    (h : createVertices m slices budget = .ok vertices) :
    List.Forall₂ (fun v piece => Runs app budget m.id m.vertex piece.1 piece.2 v) vertices
      slices.zipIdx := by
  obtain ⟨location?, _, h⟩ := bind_eq_ok.1 h
  have hpieces : ∀ piece ∈ slices.zipIdx, piece.1.atoms < UInt32.size :=
    fun _ hpiece => hslices _ (List.fst_mem_of_mem_zipIdx hpiece)
  refine List.Forall₂.flip (((List.forall₂_and_left _ _).2 ⟨hpieces, mapM_eq_ok.1 h⟩).imp ?_)
  rintro ⟨s, i⟩ v ⟨hcount, hv⟩
  simp only at hv
  split at hv
  · cases hv
  · next hfits =>
      rw [← pure_eq_ok.1 hv]
      refine ⟨rfl, rfl, rfl, ?_, by simpa using hfits⟩
      change m.vertex.cost.resources s.count m.incomingAtoms = _
      rw [hm, Slice.count_eq hcount]

theorem Gains.cutInto (h : Gains m.id vertices g g') (hnone : g.verticesOf m.id = [])
    (hruns : List.Forall₂ (fun v piece => Runs app budget m.id m.vertex piece.1 piece.2 v)
      vertices slices.zipIdx) : CutInto app budget g' m.id m.vertex slices := by
  have hlisted := h.listed
  rw [hnone, List.nil_append] at hlisted
  refine ⟨?_, ?_⟩
  · rw [hlisted, List.pairwise_map]
    exact List.pairwise_lt_range'
  · rw [hlisted, List.forall₂_iff_get]
    obtain ⟨hlength, hget⟩ := List.forall₂_iff_get.1 hruns
    refine ⟨by simpa using hlength, ?_⟩
    intro i hi hi'
    have hiv : i < vertices.length := by omega
    refine ⟨vertices[i], ?_, hget i hiv hi'⟩
    have hnew := h.hasVertex_new (List.getElem?_eq_getElem hiv)
    simpa using hnew

/-! ## All vertices -/

/-- The graph while the listed members have their machine vertices. -/
structure CutSoFar (app : ApplicationGraph) (budget : CoreBudget)
    (slicesOf : AppVertexId → List Slice) (done : List Member) (g : MachineGraph) : Prop where
  cut : ∀ m ∈ done, CutInto app budget g m.id m.vertex (slicesOf m.id)
  rest : ∀ a, (∀ m ∈ done, m.id ≠ a) → g.verticesOf a = []

theorem cutSoFar_empty (code : Nat) (slicesOf : AppVertexId → List Slice) :
    CutSoFar app budget slicesOf [] (MachineGraph.empty code app.size) where
  cut := by simp
  rest := by
    intro a _
    unfold MachineGraph.verticesOf MachineGraph.empty
    by_cases ha : a.index < app.size <;> simp [ha]

theorem CutSoFar.add {done : List Member} {slicesOf : AppVertexId → List Slice}
    (h : CutSoFar app budget slicesOf done g) (hfresh : ∀ m' ∈ done, m'.id ≠ m.id)
    (hm : m.incomingAtoms = heardAtoms app m.id)
    (hslices : ∀ s ∈ slicesOf m.id, s.atoms < UInt32.size)
    (hvertices : createVertices m (slicesOf m.id) budget = .ok vertices)
    (hadd : vertices.foldlM (fun graph v => do
      let (_, graph) ← graph.addVertex v
      return graph) g = (.ok g' : Outcome MachineGraph)) :
    CutSoFar app budget slicesOf (done ++ [m]) g' := by
  have happ : ∀ v ∈ vertices, v.app? = some m.id := by
    intro v hv
    obtain ⟨i, hi⟩ := List.getElem?_of_mem hv
    exact (createVertices_spec hvertices i v hi).1
  have hgains := gains_of_addVertex happ hadd
  refine ⟨?_, ?_⟩
  · intro m' hm'
    rcases List.mem_append.1 hm' with hm' | hm'
    · exact hgains.cutInto_other (hfresh m' hm') (h.cut m' hm')
    · rw [List.mem_singleton.1 hm']
      exact hgains.cutInto (h.rest m.id hfresh) (createVertices_runs hm hslices hvertices)
  · intro a ha
    have hother : m.id ≠ a := ha m (by simp)
    rw [hgains.others a hother.symm]
    exact h.rest a fun m' hm' => ha m' (List.mem_append_left _ hm')

theorem exists_cuts {code : Nat} {machine : Machine} (hcounted : ∀ w ∈ app.vertices, Counted w)
    (h : sliceGraph code app machine = .ok g) :
    ∃ slicesOf : AppVertexId → List Slice,
      (∀ a w, app.vertices[a.index]? = some w →
        CutInto app machine.coreBudget g a w (slicesOf a) ∧ Suits app a w (slicesOf a)) ∧
      ∀ a b, Tied app a b → slicesOf a = slicesOf b := by
  obtain ⟨all, hall, h⟩ := bind_eq_ok.1 h
  obtain ⟨groups, hgroups, h⟩ := bind_eq_ok.1 h
  obtain ⟨cuts, hcuts, h⟩ := bind_eq_ok.1 h
  have hall := lift_eq_ok.1 hall
  have hgroups := sameSizeGroups_spec hgroups
  obtain ⟨_, hposition⟩ := members_spec hall
  have hsuits : ∀ a w, app.vertices[a.index]? = some w → Suits app a w (slicesIn cuts a) :=
    fun a w hw => slicesIn_suits hcuts hall hcounted hgroups hw
  have hdone := foldlM_induction
    (motive := fun done graph => CutSoFar app machine.coreBudget (slicesIn cuts) done graph)
    h (cutSoFar_empty code _) ?_
  · refine ⟨slicesIn cuts, ?_, fun a b hab => slicesIn_tied hcuts hgroups hab⟩
    intro a w hw
    obtain ⟨m, hm, rfl, rfl⟩ := members_get hall hw
    exact ⟨hdone.cut m (List.mem_of_getElem? hm), hsuits _ _ hw⟩
  intro before m after hsplit graph graph' hgraph hstep
  obtain ⟨vertices, hvertices, hadd⟩ := bind_eq_ok.1 hstep
  have hm : m ∈ all := by simp [hsplit]
  obtain ⟨hw, hheard⟩ := mem_members hall hm
  have hslices : ∀ s ∈ slicesIn cuts m.id, s.atoms < UInt32.size := by
    intro s hs
    have hle := (hsuits _ _ hw).tiles.atoms_le hs
    have hatoms := (hcounted _ (Array.mem_of_getElem? hw)).atoms
    omega
  refine hgraph.add ?_ hheard hslices (during_eq_ok.1 hvertices) hadd
  intro m' hm' heq
  obtain ⟨i, hi⟩ := List.getElem?_of_mem hm'
  have hlt : i < before.length := (List.getElem?_eq_some_iff.1 hi).1
  have hfirst := (hposition i m' (by rw [hsplit, List.getElem?_append_left hlt, hi])).1
  have hlast := (hposition before.length m (by simp [hsplit])).1
  rw [hfirst, hlast] at heq
  cases heq
  exact absurd hlt (Nat.lt_irrefl _)

theorem CutInto.slice_mem (hcut : CutInto app budget g a w slices) (hindexed : g.WellIndexed)
    {id : MachineVertexId} {v : MachineVertex} (hv : g.HasVertex id v) (ha : v.app? = some a) :
    v.slice ∈ slices := by
  obtain ⟨hlt, hget⟩ := List.getElem?_eq_some_iff.1 ((hindexed a v.index id).2 ⟨v, hv, ha, rfl⟩)
  have hlength := hcut.runs.length_eq
  obtain ⟨v', hv', hruns⟩ := hcut.runs.get hlt (hlength ▸ hlt)
  rw [List.get_eq_getElem, hget] at hv'
  cases hv'.eq hv
  rw [hruns.slice, List.get_eq_getElem, List.getElem_zipIdx]
  exact List.getElem_mem _

/-- The slices of all machine vertices can be counted. -/
theorem atoms_lt_of_sliceGraph {code : Nat} {machine : Machine}
    (hcounted : ∀ w ∈ app.vertices, Counted w) (h : sliceGraph code app machine = .ok g)
    {id : MachineVertexId} {v : MachineVertex} (hv : g.HasVertex id v) :
    v.slice.atoms < UInt32.size := by
  obtain ⟨hfrom, _, happ⟩ := sliceGraph_spec h
  obtain ⟨a, ha⟩ := Option.isSome_iff_exists.1 (happ id v hv)
  obtain ⟨w, hw, _⟩ := hfrom.located id v a hv ha
  obtain ⟨slicesOf, hall, _⟩ := exists_cuts hcounted h
  obtain ⟨hcut, hsuits⟩ := hall a w hw
  have hmem := hcut.slice_mem hfrom.wellIndexed hv ha
  have hle := hsuits.tiles.atoms_le hmem
  have hatoms := (hcounted w (Array.mem_of_getElem? hw)).atoms
  omega

/-- How the machine vertices of an application vertex share its atoms. -/
structure SlicedInto (app : ApplicationGraph) (machine : Machine) (g : MachineGraph)
    (a : AppVertexId) (w : ApplicationVertex) (slices : List Slice) : Prop
    extends CutInto app machine.coreBudget g a w slices, Suits app a w slices where
  /-- No other machine vertex claims to be cut from the vertex. -/
  complete : ∀ id, id ∈ g.verticesOf a ↔ ∃ v, g.HasVertex id v ∧ v.app? = some a
  /-- Every atom is in exactly one slice. -/
  everyAtom : slices.flatMap Slice.toList = List.range w.atoms
  nothing : w.atoms = 0 → g.verticesOf a = []

theorem slicedInto_of_cutInto {machine : Machine}
    (hcut : CutInto app machine.coreBudget g a w slices) (hsuits : Suits app a w slices)
    (hindexed : g.WellIndexed) : SlicedInto app machine g a w slices where
  toCutInto := hcut
  toSuits := hsuits
  complete := fun _ => hindexed.mem_verticesOf
  everyAtom := by
    rw [hsuits.tiles.flatMap_toList, Nat.sub_zero, List.range_eq_range']
  nothing := by
    intro hzero
    have htiles := hsuits.tiles
    rw [hzero] at htiles
    have hruns := hcut.runs
    rw [htiles.eq_nil] at hruns
    exact List.forall₂_nil_right_iff.1 hruns

/-- Two tied vertices, of which the second allows two atoms on a core and hears the first. -/
def twins : ApplicationGraph where
  vertices := #[
    { label := "a", atoms := 5, constraints := [.sameAtomsAs "b"] },
    { label := "b", atoms := 5, maxAtoms? := some 2, cost := { sdramPerSynapse := 4 } }]
  edges := #[⟨⟨0⟩, ⟨1⟩, "spikes", .multicast⟩]

theorem twins_tied : Tied twins ⟨0⟩ ⟨1⟩ :=
  Relation.EqvGen.rel _ _ ⟨_, "b", rfl, by decide, by decide⟩

/-- A small machine and a graph cut for it. -/
def slicedFor (app : ApplicationGraph) : Outcome (Machine × MachineGraph) := do
  let machine ← Machine.ofSpec { width := 2, height := 1 }
  let g ← sliceGraph 0 app machine
  return (machine, g)

/-- A vertex of one atom that lists a slice of all atoms there can be before the slice of its
own. -/
def overrun : ApplicationGraph where
  vertices := #[
    { label := "a", atoms := 1,
      splitter := .applicationDefined [(0, UInt32.size - 1), (0, 0)] false }]

end MulticastMesh.Slicing
