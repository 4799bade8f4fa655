import MulticastMesh.Flow.Place
import MulticastMesh.Proofs.Keys.Shares
import MulticastMesh.Proofs.Placing.Safety
import MulticastMesh.Proofs.Routing.Router
import MulticastMesh.Proofs.Slicing.Expansion
import MulticastMesh.Proofs.Slicing.Sliced
/-!
# What placement promises to routing

A placed design has a machine, a graph whose partitions connect its vertices, and a safe placement
of all of them.
-/

namespace MulticastMesh.Flow

open Keys (Numbered Rooted)
open Mesh (Machine)
open Outcome
open Placing (PlacerConfig SafePlacement)
open Routing (Ready)
open Slicing (Counted CutFrom Edgeless Expanded WiredOver)

variable {p : Problem} {config : PlacerConfig} {d : PlacedDesign} {m : Machine}

/-- A design whose parts fit together. -/
structure Consistent (m : Machine) (d : PlacedDesign) : Prop where
  machine : Machine.ofSpec d.machine = .ok m
  ready : Ready m d.graph d.placements
  numbered : Numbered d.graph
  rooted : Rooted d.app d.graph

theorem buildMachine_eq_ok {spec : Mesh.MachineSpec} :
    buildMachine spec = .ok m ↔ Machine.ofSpec spec = .ok m := by
  unfold buildMachine
  rw [during_eq_ok]
  exact lift_eq_ok

variable {app : Graph.ApplicationGraph} {cut g : Graph.MachineGraph}
  {placements : Layout.Placements} {spec : Mesh.MachineSpec} {reserved : List Placing.ReservedCore}

theorem ready_of_safePlacement (hm : Machine.Fulfils spec m) (hg : WiredOver cut g)
    (h : SafePlacement app cut m reserved placements) : Ready m g placements where
  fulfils := ⟨spec, hm⟩
  wired := hg.wired
  placed := by
    intro id v hv
    obtain ⟨placement, hplacement, _⟩ := h.placed id (hg.same.hasVertex_iff.1 hv).lt
    exact ⟨placement, Layout.Placements.placementOf_eq_ok.2 hplacement⟩
  working := by
    intro placement hplacement
    obtain ⟨chip, hchip, _⟩ := h.userCore placement hplacement
    exact Option.isSome_iff_exists.2 ⟨chip, hchip⟩
  routable := by
    intro placement hplacement
    obtain ⟨chip, hchip, _, hlt, _⟩ := h.userCore placement hplacement
    exact hlt.trans_le (hm.chip_processors hchip)

theorem numbered_of_cutFrom (hcut : CutFrom app cut) (hg : WiredOver cut g)
    (happ : ∀ id v, cut.HasVertex id v → v.app?.isSome) : Numbered g where
  wellIndexed := hg.same.wellIndexed hcut.wellIndexed
  alone := by
    intro id v hv hnone
    have hsome := happ id v (hg.same.hasVertex_iff.1 hv)
    rw [hnone] at hsome
    cases hsome

theorem rooted_of_cutFrom (hcut : CutFrom app cut) (hg : WiredOver cut g) : Rooted app g where
  source := fun part hpart =>
    hg.wired.source part (Routing.mem_multicastPartitions.1 hpart).1
  app := by
    intro id v a hv ha
    obtain ⟨w, hw, _⟩ := hcut.located id v a (hg.same.hasVertex_iff.1 hv) ha
    refine ⟨w, ?_⟩
    unfold Graph.ApplicationGraph.vertex
    rw [hw]

/-- What the stages of placement made of a problem. -/
structure PlacedBy (p : Problem) (config : PlacerConfig) (m : Machine) (cut : Graph.MachineGraph)
    (d : PlacedDesign) : Prop where
  app : p.applicationGraph = .ok d.app
  machine : Machine.ofSpec d.machine = .ok m
  sliced : Slicing.sliceGraph placedGraphCode d.app m = .ok cut
  placed : Placing.placeGraph d.app cut m
    { config with reserved := config.reserved ++ p.reserved } = .ok d.placements
  expanded : (d.placements.toList.forM fun placement =>
    Slicing.expandEdges d.app placement.vertex).run.run cut = (.ok (), d.graph)

theorem exists_placedBy (h : placeDesign p config = .ok d) :
    ∃ m cut, PlacedBy p config m cut d := by
  obtain ⟨m, hm, h⟩ := bind_eq_ok.1 h
  obtain ⟨app, happ, h⟩ := bind_eq_ok.1 h
  obtain ⟨cut, hcut, h⟩ := bind_eq_ok.1 h
  obtain ⟨placements, hplaced, h⟩ := bind_eq_ok.1 h
  rcases hexpand : ((placements.toList.forM fun placement =>
    Slicing.expandEdges app placement.vertex).run.run cut) with ⟨result, g⟩
  simp only [hexpand] at h
  obtain ⟨_, hresult, h⟩ := bind_eq_ok.1 h
  cases pure_eq_ok.1 h
  subst hresult
  exact ⟨m, cut, happ, buildMachine_eq_ok.1 hm, during_eq_ok.1 hcut, during_eq_ok.1 hplaced,
    hexpand⟩

theorem consistent_of_placeDesign (h : placeDesign p config = .ok d) :
    ∃ m, Consistent m d := by
  obtain ⟨m, cut, hd⟩ := exists_placedBy h
  obtain ⟨hcutFrom, _, happ⟩ := Slicing.sliceGraph_spec hd.sliced
  have hfulfils := Machine.ofSpec_spec hd.machine
  have hsafe := Placing.safePlacement_of_placeGraph hfulfils hcutFrom hd.placed
  have hwell := Slicing.wellFormed_of_sliceGraph hd.sliced
  have hg : WiredOver cut d.graph := (Slicing.grows_of_expansion hwell hd.expanded).wiredOver
  exact ⟨m, hd.machine, ready_of_safePlacement hfulfils hg hsafe,
    numbered_of_cutFrom hcutFrom hg happ, rooted_of_cutFrom hcutFrom hg⟩

/-! ## Counted slices -/

theorem addEdge_vertices {e : LabelledEdge} {app' : Graph.ApplicationGraph}
    (h : Problem.addEdge app e = .ok app') : app'.vertices = app.vertices := by
  unfold Problem.addEdge at h
  split at h
  · split at h
    · obtain ⟨_, _, h⟩ := bind_eq_ok.1 (lift_eq_ok.1 h)
      obtain ⟨_, _, h⟩ := bind_eq_ok.1 h
      cases pure_eq_ok.1 h
      rfl
    · cases h
  · cases h

theorem mem_of_applicationGraph (h : p.applicationGraph = .ok app) :
    ∀ w ∈ app.vertices, w ∈ p.vertices := by
  obtain ⟨app₀, hvertices, hedges⟩ := bind_eq_ok.1 h
  have hbefore : ∀ w ∈ app₀.vertices, w ∈ p.vertices := by
    refine foldlM_invariant (P := fun (app : Graph.ApplicationGraph) =>
      ∀ w ∈ app.vertices, w ∈ p.vertices) hvertices (by simp) ?_
    intro v hv app app' happ hstep
    obtain ⟨⟨_, app''⟩, hadded, hreturn⟩ := bind_eq_ok.1 hstep
    cases pure_eq_ok.1 hreturn
    have hadded := lift_eq_ok.1 hadded
    unfold Graph.ApplicationGraph.addVertex at hadded
    split at hadded
    · cases hadded
    · cases hadded
      intro w hw
      rcases Array.mem_push.1 hw with hw | rfl
      · exact happ w hw
      · exact hv
  refine foldlM_invariant (P := fun (app : Graph.ApplicationGraph) =>
    ∀ w ∈ app.vertices, w ∈ p.vertices) hedges hbefore ?_
  intro e _ app app' happ hstep
  rw [addEdge_vertices hstep]
  exact happ

theorem sourcesCounted_of_placeDesign (hcounted : ∀ w ∈ p.vertices, Counted w)
    (h : placeDesign p config = .ok d) : d.graph.SourcesCounted := by
  obtain ⟨m, cut, hd⟩ := exists_placedBy h
  have hwell := Slicing.wellFormed_of_sliceGraph hd.sliced
  have hg : WiredOver cut d.graph := (Slicing.grows_of_expansion hwell hd.expanded).wiredOver
  have happ : ∀ w ∈ d.app.vertices, Counted w :=
    fun w hw => hcounted w (mem_of_applicationGraph hd.app w hw)
  exact fun _ _ _ hv => Slicing.atoms_lt_of_sliceGraph happ hd.sliced (hg.same.hasVertex_iff.1 hv)

/-! ## Edges -/

/-- A placed design has the edges that its problem asks for, and no others. -/
theorem placeDesign_expands (h : placeDesign p config = .ok d) :
    p.applicationGraph = .ok d.app ∧ Expanded d.app d.graph := by
  obtain ⟨m, cut, hd⟩ := exists_placedBy h
  obtain ⟨hcutFrom, hedgeless, _⟩ := Slicing.sliceGraph_spec hd.sliced
  have hsafe := Placing.safePlacement_of_placeGraph (Machine.ofSpec_spec hd.machine) hcutFrom
    hd.placed
  refine ⟨hd.app, Slicing.expanded_of_forM (Slicing.wellFormed_of_sliceGraph hd.sliced)
    hedgeless.partitions ?_ hd.expanded⟩
  intro id v hv
  obtain ⟨placement, ⟨hmem, hvertex⟩, _⟩ := hsafe.placed id hv.lt
  exact ⟨placement, hmem, hvertex⟩

/-- A vertex with two slices that sends to itself and, in two partitions and with a repeated edge,
to another; one edge leads to a vertex without atoms. -/
def loopProblem : Problem where
  machine := { width := 2, height := 1 }
  vertices := [
    { label := "a", atoms := 2, maxAtoms? := some 1 },
    { label := "b", atoms := 1 },
    { label := "c", atoms := 0 }]
  edges := [⟨"a", "b", "spikes", .multicast⟩, ⟨"a", "a", "spikes", .multicast⟩,
    ⟨"a", "b", "spikes", .multicast⟩, ⟨"a", "b", "shared", .sdram⟩,
    ⟨"b", "c", "spikes", .multicast⟩]

theorem placeDesign_expands_loop : ∃ d, placeDesign loopProblem {} = .ok d ∧
    d.graph.partitionCount = 4 ∧ loopProblem.applicationGraph = .ok d.app ∧
    Expanded d.app d.graph := by
  obtain ⟨d, hplaced⟩ := exists_of_isOk
    (show (placeDesign loopProblem {}).isOk = true by decide +kernel)
  have hcount : ((placeDesign loopProblem {}).map fun d => d.graph.partitionCount) = .ok 4 := by
    decide +kernel
  rw [hplaced] at hcount
  exact ⟨d, hplaced, Except.ok.inj hcount, placeDesign_expands hplaced⟩

end MulticastMesh.Flow
