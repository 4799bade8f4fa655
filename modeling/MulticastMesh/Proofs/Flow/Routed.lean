import MulticastMesh.Flow.Route
import MulticastMesh.Proofs.Flow.Placed
import MulticastMesh.Proofs.Tables.Compressed
import MulticastMesh.Proofs.Tables.Delivery
/-!
# From a placed design to delivered packets

Keys, paths and tables of a placed design fit together: every packet that a source can send
arrives at exactly the cores of its partition's destinations.  So the checks on the way accept
what they are given, and routing fails only where keys, links or table space run out.
-/

namespace MulticastMesh.Flow

open MulticastMesh.Graph (EdgePartition MachineGraph)
open Keys (Assignment sourceOf)
open Mesh (Machine)
open Outcome
open Placing (PlacerConfig)
open Slicing (Counted)
open Routing (Expected IsRoutingLimit PathTable Router RoutedUpTo)
open Tables (Arrives CarriesAll Compressed Compressor IsTooManyEntries Orderless TableSet)

variable {p : Problem} {config : PlacerConfig} {d : PlacedDesign} {m : Machine}
  {keys : Assignment} {paths : PathTable} {uncompressed tables : TableSet} {router : Router}
  {compressor : Compressor} {maxEntries : Nat} {options : RoutingOptions} {r : RoutedDesign}
  {part : EdgePartition}

/-! ## The stages -/

/-- Keys and paths that tables can be generated from. -/
structure Planned (m : Machine) (d : PlacedDesign) (keys : Assignment) (paths : PathTable) :
    Prop where
  allotted : ∃ grants, Keys.Allotted d.graph keys grants
  routed : RoutedUpTo m d.graph d.placements d.graph.multicastPartitions paths

theorem planned (h : Consistent m d) (hkeys : Keys.allocate d.app d.graph = .ok keys)
    (hpaths : Routing.routeAll router m d.graph d.placements = .ok paths) :
    Planned m d keys paths where
  allotted := (Keys.exists_allotted h.numbered.indexed hkeys).imp fun _ hgrants => hgrants.1
  routed := Routing.routeAll_spec h.ready hpaths

/-- Tables that carry all keys whatever the order of their entries. -/
structure Generated (d : PlacedDesign) (keys : Assignment) (paths : PathTable)
    (tables : TableSet) : Prop where
  orderless : Orderless tables
  carries : CarriesAll d.graph keys tables paths

theorem Planned.exists_tables (h : Planned m d keys paths) :
    ∃ tables, Tables.generate keys paths = .ok tables := by
  obtain ⟨grants, hgrants⟩ := h.allotted
  exact Tables.exists_generate hgrants h.routed.sourced

theorem Planned.generated (h : Planned m d keys paths) (hd : Consistent m d)
    (hrun : Tables.generate keys paths = .ok tables) : Generated d keys paths tables := by
  obtain ⟨grants, hgrants⟩ := h.allotted
  have htab := Tables.tabulated_generate hgrants h.routed.sourced hrun
  refine ⟨htab.orderless hgrants, fun part hpart => ?_⟩
  obtain ⟨v, hv⟩ := hd.ready.source hpart
  obtain ⟨range, hrange⟩ := hgrants.exists_keys hpart
  obtain ⟨x, hshare⟩ := hgrants.exists_share hpart hv
  exact ⟨v, range, hv, hrange, fun i =>
    htab.carries hgrants ⟨x, v.index, hshare⟩ hrange (Keys.matches_keyAt range.range i)⟩

theorem Generated.compressed (h : Generated d keys paths uncompressed)
    (hrun : Tables.compressAll compressor maxEntries uncompressed = .ok tables) :
    CarriesAll d.graph keys tables paths := by
  have hcompressed := Tables.compressed_compressAll hrun
  intro part hpart
  obtain ⟨v, range, hv, hrange, hall⟩ := h.carries part hpart
  exact ⟨v, range, hv, hrange, fun i => hcompressed.carries h.orderless (hall i)⟩

theorem Planned.validate_ok (h : Planned m d keys paths) (hd : Consistent m d)
    (hcounted : d.graph.SourcesCounted) (hcarries : CarriesAll d.graph keys tables paths) :
    Tables.validate m d.graph d.placements keys tables = .ok () :=
  Tables.validate_ok hd.ready hcounted h.routed hcarries

theorem Generated.checkTables_ok (h : Generated d keys paths uncompressed)
    (hrun : Tables.compressAll compressor maxEntries uncompressed = .ok tables) :
    Tables.checkTables uncompressed tables = .ok () :=
  (Tables.compressed_compressAll hrun).checkTables_ok h.orderless

/-! ## The checks -/

/-- The flow without its checks. -/
def routeUnchecked (d : PlacedDesign) (options : RoutingOptions) : Outcome RoutedDesign := do
  let machine ← buildMachine d.machine
  let keys ← during .allocatingKeys (Keys.allocate d.app d.graph)
  let paths ← during .routing (Routing.routeAll
    (.fresh options.router options.pricing) machine d.graph d.placements)
  let uncompressed ← during .generatingTables (Tables.generate keys paths)
  let tables ← during .compressingTables
    (Tables.compressAll options.compressor options.maxEntries uncompressed)
  return { keys, uncompressed, tables }

/-- What passes the checks is made without them, too. -/
theorem routeUnchecked_of_routeDesign (h : routeDesign d options = .ok r) :
    routeUnchecked d options = .ok r := by
  obtain ⟨m, hm, h⟩ := bind_eq_ok.1 h
  obtain ⟨keys, hkeys, h⟩ := bind_eq_ok.1 h
  obtain ⟨paths, hpaths, h⟩ := bind_eq_ok.1 h
  obtain ⟨uncompressed, huncompressed, h⟩ := bind_eq_ok.1 h
  refine bind_eq_ok.2 ⟨m, hm, bind_eq_ok.2 ⟨keys, hkeys, bind_eq_ok.2 ⟨paths, hpaths, ?_⟩⟩⟩
  refine bind_eq_ok.2 ⟨uncompressed, huncompressed, ?_⟩
  cases hvalidate : options.validate with
  | false =>
      simp only [hvalidate] at h
      exact h
  | true =>
      simp only [hvalidate, if_true] at h
      obtain ⟨_, _, h⟩ := bind_eq_ok.1 h
      obtain ⟨tables, htables, h⟩ := bind_eq_ok.1 h
      obtain ⟨_, _, h⟩ := bind_eq_ok.1 h
      obtain ⟨_, _, h⟩ := bind_eq_ok.1 h
      exact bind_eq_ok.2 ⟨tables, htables, h⟩

/-- On consistent designs the checks pass wherever they are made. -/
theorem Consistent.routeDesign_eq (hd : Consistent m d) (hcounted : d.graph.SourcesCounted) :
    routeDesign d options = routeUnchecked d options := by
  refine bind_congr_ok fun m' hm' => ?_
  cases hd.machine.symm.trans (buildMachine_eq_ok.1 hm')
  refine bind_congr_ok fun keys hkeys => ?_
  refine bind_congr_ok fun paths hpaths => ?_
  refine bind_congr_ok fun uncompressed huncompressed => ?_
  have hplan := planned hd (during_eq_ok.1 hkeys) (during_eq_ok.1 hpaths)
  have hgenerated := hplan.generated hd (during_eq_ok.1 huncompressed)
  have hvalid := hplan.validate_ok hd hcounted hgenerated.carries
  cases hvalidate : options.validate with
  | false => rfl
  | true =>
      simp only [if_true, hvalid]
      rw [during_eq_ok.2 rfl, ok_bind]
      refine bind_congr_ok fun tables htables => ?_
      have hcompressed := hgenerated.compressed (during_eq_ok.1 htables)
      rw [hgenerated.checkTables_ok (during_eq_ok.1 htables),
        hplan.validate_ok hd hcounted hcompressed]
      rfl

/-- The causes that a run of the flow may fail with. -/
inductive IsRefusal : Cause → Prop where
  | keys (error : Keys.KeyError) : IsRefusal (.keys error)
  | limit {cause : Cause} (h : IsRoutingLimit cause) : IsRefusal cause
  | tooManyEntries (error : Tables.TooManyEntries) : IsRefusal (.tooManyEntries error)

theorem Consistent.routeUnchecked_fails (hd : Consistent m d) :
    FailsOnly IsRefusal (routeUnchecked d options) := by
  refine FailsOnly.bind
    (FailsOnly.of_eq_ok (buildMachine_eq_ok.2 hd.machine)) fun m' hm' => ?_
  cases hd.machine.symm.trans (buildMachine_eq_ok.1 hm')
  refine FailsOnly.bind (FailsOnly.during ?_) fun keys hkeys => ?_
  · exact (Keys.allocate_fails hd.numbered hd.rooted).mono
      fun _ ⟨error, herror⟩ => herror ▸ IsRefusal.keys error
  refine FailsOnly.bind (FailsOnly.during ?_) fun paths hpaths => ?_
  · exact (Routing.routeAll_fails hd.ready).mono fun _ hlimit => IsRefusal.limit hlimit
  have hplan := planned hd (during_eq_ok.1 hkeys) (during_eq_ok.1 hpaths)
  obtain ⟨tables, htables⟩ := hplan.exists_tables
  refine FailsOnly.bind (FailsOnly.during (FailsOnly.of_eq_ok htables)) fun _ _ => ?_
  refine FailsOnly.bind (FailsOnly.during ?_) fun _ _ => FailsOnly.pure _
  exact Tables.compressAll_fails.mono
    fun _ ⟨error, herror⟩ => herror ▸ IsRefusal.tooManyEntries error

/-- A vertex whose two slices share a chip sends to one that is fixed to the other chip. -/
def pairProblem : Problem where
  machine := { width := 2, height := 1 }
  vertices := [
    { label := "a", atoms := 2, splitter := .applicationDefined [(0, 0), (1, 1)] true },
    { label := "b", atoms := 1, constraints := [.chipAndCore 1 0 (some 3)] }]
  edges := [⟨"a", "b", "spikes", .multicast⟩]

/-- A vertex of one atom that lists a slice of all atoms there can be before the slice of its own,
and sends to another vertex. -/
def overrunProblem : Problem where
  machine := { width := 1, height := 1 }
  vertices := [
    { label := "a", atoms := 1,
      splitter := .applicationDefined [(0, UInt32.size - 1), (0, 0)] false },
    { label := "b", atoms := 1 }]
  edges := [⟨"a", "b", "spikes", .multicast⟩]

/-- Why routing the overrun fails with its checks, and whether it succeeds without them. -/
def routedOverrun : Outcome (Option Cause × Bool) := do
  let d ← placeDesign overrunProblem {}
  let cause? := match routeDesign d { router := .steiner } with
    | .error f => some f.cause
    | .ok _ => none
  return (cause?, (routeDesign d { router := .steiner, validate := false }).isOk)

/-- All packets of a partition arrive at its destinations, which are all placed. -/
def Delivered (m : Machine) (d : PlacedDesign) (r : RoutedDesign) (part : EdgePartition) : Prop :=
  ∃ v source keys, d.graph.vertex part.pre = .ok v ∧
    d.placements.placementOf part.pre = .ok source ∧
    r.keys.keysOf part.pre part.identifier = .ok keys ∧
    (∀ id ∈ part.destinations, ∃ placement, d.placements.placementOf id = .ok placement) ∧
    ∀ i < v.slice.atoms,
      Arrives m r.tables (keys.range.keyAt i) source.chip (Expected d.placements part)

theorem Planned.delivered (h : Planned m d r.keys paths) (hd : Consistent m d)
    (hcarries : CarriesAll d.graph r.keys r.tables paths)
    (hpart : part ∈ d.graph.multicastPartitions) : Delivered m d r part := by
  obtain ⟨v, range, hv, hrange, hall⟩ := hcarries part hpart
  obtain ⟨source, hsource, hbranches⟩ := h.routed.routed part hpart v hv
  exact ⟨v, source, range, MachineGraph.vertex_eq_ok.2 hv, hsource, Tables.keysOf_eq_ok.2 hrange,
    fun id hid => hd.ready.destination hpart hid,
    fun i _ => Tables.arrives_of_branches hbranches (hall i)⟩

structure Staged (m : Machine) (d : PlacedDesign) (options : RoutingOptions) (r : RoutedDesign)
    (paths : PathTable) : Prop where
  planned : Planned m d r.keys paths
  generated : Tables.generate r.keys paths = .ok r.uncompressed
  compressed : Tables.compressAll options.compressor options.maxEntries r.uncompressed =
    .ok r.tables

theorem Consistent.exists_staged (hd : Consistent m d) (h : routeDesign d options = .ok r) :
    ∃ paths, Staged m d options r paths := by
  replace h := routeUnchecked_of_routeDesign h
  obtain ⟨m', hm', h⟩ := bind_eq_ok.1 h
  cases hd.machine.symm.trans (buildMachine_eq_ok.1 hm')
  obtain ⟨keys, hkeys, h⟩ := bind_eq_ok.1 h
  obtain ⟨paths, hpaths, h⟩ := bind_eq_ok.1 h
  obtain ⟨uncompressed, huncompressed, h⟩ := bind_eq_ok.1 h
  obtain ⟨tables, htables, h⟩ := bind_eq_ok.1 h
  cases pure_eq_ok.1 h
  exact ⟨paths, planned hd (during_eq_ok.1 hkeys) (during_eq_ok.1 hpaths),
    during_eq_ok.1 huncompressed, during_eq_ok.1 htables⟩

theorem Consistent.delivered (hd : Consistent m d) (h : routeDesign d options = .ok r)
    (hpart : part ∈ d.graph.multicastPartitions) : Delivered m d r part := by
  obtain ⟨paths, hplan, hgenerated, hcompressed⟩ := hd.exists_staged h
  exact hplan.delivered hd ((hplan.generated hd hgenerated).compressed hcompressed) hpart

/-- Packets of placed and routed designs arrive. -/
theorem routeDesign_delivers (hplaced : placeDesign p config = .ok d)
    (hrouted : routeDesign d options = .ok r) : ∃ m, Machine.ofSpec d.machine = .ok m ∧
      ∀ part ∈ d.graph.multicastPartitions, Delivered m d r part := by
  obtain ⟨m, hd⟩ := consistent_of_placeDesign hplaced
  exact ⟨m, hd.machine, fun part hpart => hd.delivered hrouted hpart⟩

def routedPair : Outcome (PlacedDesign × RoutedDesign × EdgePartition) := do
  let d ← placeDesign pairProblem {}
  let r ← routeDesign d { router := .steiner }
  match d.graph.multicastPartitions with
  | part :: _ => return (d, r, part)
  | [] => throw ⟨[], .malformed⟩

theorem routeDesign_delivers_pair : ∃ d r m part, placeDesign pairProblem {} = .ok d ∧
    routeDesign d { router := .steiner } = .ok r ∧ part ∈ d.graph.multicastPartitions ∧
    Machine.ofSpec d.machine = .ok m ∧ Delivered m d r part := by
  obtain ⟨_, hrun⟩ := exists_of_isOk (show routedPair.isOk = true by decide +kernel)
  obtain ⟨d, hplaced, hrun⟩ := bind_eq_ok.1 hrun
  obtain ⟨r, hrouted, hrun⟩ := bind_eq_ok.1 hrun
  cases hparts : d.graph.multicastPartitions with
  | nil =>
      simp only [hparts] at hrun
      cases hrun
  | cons part rest =>
      obtain ⟨m, hm, hall⟩ := routeDesign_delivers hplaced hrouted
      exact ⟨d, r, m, part, hplaced, hrouted, by simp [hparts], hm, hall part (by simp [hparts])⟩

end MulticastMesh.Flow
