import MulticastMesh.Proofs.Flow.Routed
import MulticastMesh.Proofs.Tables.Hints
/-!
# Defaultable entries of a routed design

The flags of a routed design are a hint that a router could do without an entry.  A packet that
meets a defaultable entry of the generated tables goes straight on.  After compression the hint
still tells which way the entry sends a packet, but it is true of where the packet came from only
if the entries of one route had the same flag on that chip.
-/

namespace MulticastMesh.Flow

open MulticastMesh.Graph (EdgePartition MachineGraph)
open Keys (sourceOf)
open Mesh (Coord Machine)
open Outcome
open Placing (PlacerConfig)
open Routing (PathTable)
open Tables (Compressor Entry GoesOn HintsByRoute Journey TableSet Through)

variable {p : Problem} {config : PlacerConfig} {d : PlacedDesign} {m : Machine}
  {options : RoutingOptions} {r : RoutedDesign} {part : EdgePartition} {paths : PathTable}

/-- All packets of a partition that meet a defaultable entry go straight on. -/
def Truthful (m : Machine) (d : PlacedDesign) (r : RoutedDesign) (part : EdgePartition) : Prop :=
  ∀ v source keys, d.graph.vertex part.pre = .ok v →
    d.placements.placementOf part.pre = .ok source →
    r.keys.keysOf part.pre part.identifier = .ok keys →
    ∀ i < v.slice.atoms, ∀ hops chip f,
      Journey m r.tables (keys.range.keyAt i) source.chip hops chip →
      r.tables.lookup? chip (keys.range.keyAt i) = some f → f.defaultable = true → GoesOn hops f

/-- The flags of a chip survive compression: it is left out, or no join can mix flags. -/
def KeepsHints (c : Compressor) (uncompressed : TableSet) (chip : Coord) : Prop :=
  c = .none ∨ ∀ entries, uncompressed.entries? chip = some entries → HintsByRoute entries

/-- Defaultable entries pass packets of a partition through, and where compression keeps the
flags they take packets straight on. -/
def Hinted (m : Machine) (d : PlacedDesign) (options : RoutingOptions) (r : RoutedDesign)
    (part : EdgePartition) : Prop :=
  ∃ v source keys, d.graph.vertex part.pre = .ok v ∧
    d.placements.placementOf part.pre = .ok source ∧
    r.keys.keysOf part.pre part.identifier = .ok keys ∧
    ∀ i < v.slice.atoms, ∀ hops chip f,
      Journey m r.tables (keys.range.keyAt i) source.chip hops chip →
      r.tables.lookup? chip (keys.range.keyAt i) = some f → f.defaultable = true →
      (∃ l, Through f.route l) ∧
        (KeepsHints options.compressor r.uncompressed chip → GoesOn hops f)

theorem Staged.hinted (h : Staged m d options r paths) (hd : Consistent m d)
    (hpart : part ∈ d.graph.multicastPartitions) : Hinted m d options r part := by
  obtain ⟨hplan, hgenerated, hcompressed⟩ := h
  obtain ⟨grants, hgrants⟩ := hplan.allotted
  have htab := Tables.tabulated_generate hgrants hplan.routed.sourced hgenerated
  have horder := htab.orderless hgrants
  have hcompressed := Tables.compressed_compressAll hcompressed
  obtain ⟨v, hv⟩ := hd.ready.source hpart
  obtain ⟨range, hrange⟩ := hgrants.exists_keys hpart
  obtain ⟨x, hshare⟩ := hgrants.exists_share hpart hv
  obtain ⟨source, hsource, hbranches⟩ := hplan.routed.routed part hpart v hv
  refine ⟨v, source, range, MachineGraph.vertex_eq_ok.2 hv, hsource,
    Tables.keysOf_eq_ok.2 hrange, ?_⟩
  intro i _ hops chip f hj hf hflag
  have hmatches := Keys.matches_keyAt range.range i
  have hcarries := hcompressed.carries horder
    (htab.carries hgrants ⟨x, v.index, hshare⟩ hrange hmatches)
  obtain ⟨path, hpath⟩ := Tables.uses_of_journey hbranches hcarries hj
  obtain ⟨e, he, hfollows⟩ := htab.exists_follows hgrants hshare hrange hmatches hpath
  refine ⟨?_, fun hkeeps => Tables.goesOn_of_defaultable hbranches hcarries hj hcompressed horder
    hpath he hfollows hf hflag hkeeps⟩
  obtain ⟨entries, hentries, _, origin, horigin, hroute, hback⟩ :=
    hcompressed.exists_origin horder hf
  obtain ⟨l, hthrough⟩ := (htab.sound chip entries hentries).2.through horigin (hback hflag)
  exact ⟨l, hroute ▸ hthrough⟩

/-- Defaultable entries of routed designs pass packets through, and take them straight on unless
compression mixed flags on the chip. -/
theorem routeDesign_hints (hplaced : placeDesign p config = .ok d)
    (hrouted : routeDesign d options = .ok r) : ∃ m, Machine.ofSpec d.machine = .ok m ∧
      ∀ part ∈ d.graph.multicastPartitions, Hinted m d options r part := by
  obtain ⟨m, hd⟩ := consistent_of_placeDesign hplaced
  obtain ⟨paths, hstaged⟩ := hd.exists_staged hrouted
  exact ⟨m, hd.machine, fun part hpart => hstaged.hinted hd hpart⟩

/-- A vertex that sends straight through a chip to another one. -/
def lineProblem : Problem where
  machine := { width := 3, height := 1 }
  vertices := [
    { label := "a", atoms := 2, constraints := [.chipAndCore 0 0 none] },
    { label := "b", atoms := 1, constraints := [.chipAndCore 2 0 none] }]
  edges := [⟨"a", "b", "spikes", .multicast⟩]

/-- The line with a table whose flags are kept, as compression has nothing to do. -/
def routedLine : Outcome (PlacedDesign × RoutedDesign) := do
  let d ← placeDesign lineProblem {}
  let r ← routeDesign d { router := .steiner, compressor := .none }
  return (d, r)

theorem routeDesign_hints_line : ∃ d r m, placeDesign lineProblem {} = .ok d ∧
    routeDesign d { router := .steiner, compressor := .none } = .ok r ∧
    Machine.ofSpec d.machine = .ok m ∧ ∀ part ∈ d.graph.multicastPartitions,
      Hinted m d { router := .steiner, compressor := .none } r part := by
  obtain ⟨_, hrun⟩ := exists_of_isOk (show routedLine.isOk = true by decide +kernel)
  obtain ⟨d, hplaced, hrun⟩ := bind_eq_ok.1 hrun
  obtain ⟨r, hrouted, _⟩ := bind_eq_ok.1 hrun
  obtain ⟨m, hm, hall⟩ := routeDesign_hints hplaced hrouted
  exact ⟨d, r, m, hplaced, hrouted, hm, hall⟩

/-! ## Mixed flags -/

def startsOnHint (d : PlacedDesign) (r : RoutedDesign) (part : EdgePartition) : Bool :=
  match d.graph.vertex part.pre, d.placements.placementOf part.pre,
      r.keys.keysOf part.pre part.identifier with
  | .ok v, .ok source, .ok keys => decide (0 < v.slice.atoms) &&
      (r.tables.lookup? source.chip (keys.range.keyAt 0)).any fun e => e.defaultable
  | _, _, _ => false

/-- No packet goes straight on where it starts. -/
theorem not_truthful_of_startsOnHint (h : startsOnHint d r part = true) :
    ¬ Truthful m d r part := by
  intro htrue
  unfold startsOnHint at h
  split at h
  · next v source keys hv hsource hkeys =>
      rw [Bool.and_eq_true, decide_eq_true_eq, Option.any_eq_true] at h
      obtain ⟨hatoms, f, hf, hflag⟩ := h
      obtain ⟨l, previous, rest, _, hhops⟩ :=
        htrue v source keys hv hsource hkeys 0 hatoms [] source.chip f Journey.start hf hflag
      cases hhops
  · cases h

/-- Two vertices send through the middle chip to the last one.  A third one, on the middle chip,
sends there too, and has a key that the join of the others' keys catches.  All three can not be
joined, because the key of a fourth vertex is in the way. -/
def crossingProblem : Problem where
  machine := { width := 3, height := 1 }
  vertices := [
    { label := "a", atoms := 1, constraints := [.chipAndCore 0 0 none,
        .fixedKeyAndMask 0 (BitVec.allOnes 32) none] },
    { label := "b", atoms := 1, constraints := [.chipAndCore 0 0 none,
        .fixedKeyAndMask 12 (BitVec.allOnes 32) none] },
    { label := "c", atoms := 4, constraints := [.chipAndCore 1 0 none,
        .fixedKeyAndMask 4 (~~~3) none] },
    { label := "d", atoms := 1, constraints := [.chipAndCore 1 0 none,
        .fixedKeyAndMask 1 (BitVec.allOnes 32) none] },
    { label := "t", atoms := 1, constraints := [.chipAndCore 2 0 none] }]
  edges := [⟨"a", "t", "spikes", .multicast⟩, ⟨"b", "t", "spikes", .multicast⟩,
    ⟨"c", "t", "spikes", .multicast⟩, ⟨"d", "a", "spikes", .multicast⟩]

def routedCrossing : Outcome (PlacedDesign × RoutedDesign × EdgePartition) := do
  let d ← placeDesign crossingProblem {}
  let r ← routeDesign d { router := .steiner, compressor := .unordered }
  match d.graph.multicastPartitions.find? (startsOnHint d r) with
  | some part => return (d, r, part)
  | none => throw ⟨[], .malformed⟩

/-- Compression may flag an entry that some of its packets start at. -/
theorem routeDesign_hints_not_truthful : ∃ d r m part, placeDesign crossingProblem {} = .ok d ∧
    routeDesign d { router := .steiner, compressor := .unordered } = .ok r ∧
    Machine.ofSpec d.machine = .ok m ∧ part ∈ d.graph.multicastPartitions ∧
    ¬ Truthful m d r part := by
  obtain ⟨_, hrun⟩ := exists_of_isOk (show routedCrossing.isOk = true by decide +kernel)
  obtain ⟨d, hplaced, hrun⟩ := bind_eq_ok.1 hrun
  obtain ⟨r, hrouted, hrun⟩ := bind_eq_ok.1 hrun
  obtain ⟨m, hd⟩ := consistent_of_placeDesign hplaced
  split at hrun
  · next part hfound =>
      exact ⟨d, r, m, part, hplaced, hrouted, hd.machine, List.mem_of_find?_eq_some hfound,
        not_truthful_of_startsOnHint (List.find?_some hfound)⟩
  · cases hrun

end MulticastMesh.Flow
