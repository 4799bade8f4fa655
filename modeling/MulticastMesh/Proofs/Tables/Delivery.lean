import MulticastMesh.Proofs.Keys.Blocks
import MulticastMesh.Proofs.Routing.Router
import MulticastMesh.Proofs.Tables.Following
/-!
# The check of deliveries decides whether packets arrive

The check follows the first key of every partition and lets the other keys take the same routes.
It passes exactly when packets of the first key have one way, the others go along with them and
the cores that they are handed to are those of the destinations.  Tables that carry all keys of
the partitions along their branches are such tables.

The check sends a key for every atom that is counted, so a slice of `2 ^ 32` atoms sends none.
-/

namespace MulticastMesh.Tables

open MulticastMesh.Graph (EdgePartition MachineGraph MachineVertex)
open Keys (Assignment Key KeyRange PartitionKeys sourceOf)
open Layout (Placement Placements)
open Mesh (Coord Machine)
open Outcome
open Routing (Branches Expected LinkFrom PartitionSource PathTable Ready RoutedUpTo)

variable {m : Machine} {g : MachineGraph} {placements : Placements} {a : Assignment}
  {tables : TableSet} {paths : PathTable} {s : PartitionSource} {source chip : Coord}
  {cores : Coord → Nat → Prop} {k other : Key} {p : EdgePartition} {v : MachineVertex}
  {origin : Placement} {keys : PartitionKeys} {expected reached : Cores} {atoms : Nat}

/-! ## The check of a partition -/

/-- Packets of all keys of a range arrive where the destinations of a partition are placed, and
nowhere else. -/
structure Delivers (m : Machine) (placements : Placements) (tables : TableSet)
    (p : EdgePartition) (source : Coord) (keys : KeyRange) (atoms : Nat) : Prop where
  oneWay : OneWay m tables keys.key source
  alike : ∀ i < atoms, Alike m tables source keys.key (keys.keyAt i)
  exact : ∀ chip n, HandsOver m tables keys.key source chip n ↔ Expected placements p chip n

/-- The source of a partition with its place and its keys.  Its destinations are placed, too. -/
structure Addressed (g : MachineGraph) (placements : Placements) (a : Assignment)
    (p : EdgePartition) (v : MachineVertex) (origin : Placement) (keys : PartitionKeys) :
    Prop where
  vertex : g.HasVertex p.pre v
  placed : placements.placementOf p.pre = .ok origin
  keyed : a.keys? p.pre p.identifier = some keys
  destinations : ∀ id ∈ p.destinations, ∃ placement, placements.placementOf id = .ok placement

theorem expectedCores_spec
    (h : ∀ id ∈ p.destinations, ∃ placement, placements.placementOf id = .ok placement) :
    ∃ expected, expectedCores placements p = .ok expected ∧
      ∀ c n, (c, n) ∈ expected ↔ Expected placements p c n := by
  have hmap : ∀ ids : List Graph.MachineVertexId,
      (∀ id ∈ ids, ∃ placement, placements.placementOf id = .ok placement) →
      ∃ cores, (ids.mapM fun id => do
          return (← placements.placementOf id).core) = .ok cores ∧
        ∀ core, core ∈ cores ↔ ∃ id ∈ ids, ∃ placement,
          placements.placementOf id = .ok placement ∧ placement.core = core := by
    intro ids
    induction ids with
    | nil => exact fun _ => ⟨[], rfl, by simp⟩
    | cons id rest ih =>
        intro hall
        obtain ⟨⟨placement, hplacement⟩, hrest⟩ := List.forall_mem_cons.1 hall
        obtain ⟨cores, hcores, hmem⟩ := ih hrest
        refine ⟨placement.core :: cores, ?_, fun core => ?_⟩
        · rw [List.mapM_cons]
          refine bind_eq_ok.2 ⟨placement.core, bind_eq_ok.2 ⟨placement, hplacement, rfl⟩, ?_⟩
          exact bind_eq_ok.2 ⟨cores, hcores, rfl⟩
        · rw [List.mem_cons, hmem, List.exists_mem_cons_iff, eq_comm (a := core)]
          simp only [hplacement, Except.ok.injEq, exists_eq_left']
  obtain ⟨cores, hcores, hmem⟩ := hmap p.destinations h
  refine ⟨.ofList cores compare, bind_eq_ok.2 ⟨cores, hcores, rfl⟩, fun c n => ?_⟩
  rw [Std.ExtTreeSet.mem_ofList, List.contains_iff_mem, hmem]
  rfl

theorem find?_missing_eq_none : (expected.toList.find? fun core => !reached.contains core) = none ↔
    ∀ core ∈ expected, core ∈ reached := by
  simp [List.find?_eq_none]

theorem validatePartition_eq_ok (h : Addressed g placements a p v origin keys)
    (hexpected : expectedCores placements p = .ok expected) :
    validatePartition m g placements a tables p = .ok () ↔ ∃ reached,
      trace m tables origin.chip ((List.range v.slice.count).map keys.range.keyAt) = .ok reached ∧
      ∀ core, core ∈ reached ↔ core ∈ expected := by
  have hvertex := MachineGraph.vertex_eq_ok.2 h.vertex
  have hkeys := keysOf_eq_ok.2 h.keyed
  unfold validatePartition
  constructor
  · intro hok
    obtain ⟨origin', horigin, hok⟩ := bind_eq_ok.1 hok
    cases h.placed.symm.trans (lift_eq_ok.1 horigin)
    obtain ⟨expected', hexpected', hok⟩ := bind_eq_ok.1 hok
    cases hexpected.symm.trans (lift_eq_ok.1 hexpected')
    obtain ⟨v', hv, hok⟩ := bind_eq_ok.1 hok
    cases hvertex.symm.trans (lift_eq_ok.1 hv)
    obtain ⟨keys', hkeys', hok⟩ := bind_eq_ok.1 hok
    cases hkeys.symm.trans hkeys'
    obtain ⟨reached, htrace, hok⟩ := bind_eq_ok.1 hok
    split at hok
    · cases hok
    · next hmissing =>
        split at hok
        · cases hok
        · next hextra =>
            exact ⟨reached, lift_eq_ok.1 htrace, fun core =>
              ⟨find?_missing_eq_none.1 hextra core, find?_missing_eq_none.1 hmissing core⟩⟩
  · rintro ⟨reached, htrace, hsame⟩
    refine bind_eq_ok.2 ⟨origin, lift_eq_ok.2 h.placed, ?_⟩
    refine bind_eq_ok.2 ⟨expected, lift_eq_ok.2 hexpected, ?_⟩
    refine bind_eq_ok.2 ⟨v, lift_eq_ok.2 hvertex, ?_⟩
    refine bind_eq_ok.2 ⟨keys, hkeys, ?_⟩
    refine bind_eq_ok.2 ⟨reached, lift_eq_ok.2 htrace, ?_⟩
    have hmissing := find?_missing_eq_none.2 fun core => (hsame core).2
    have hextra := find?_missing_eq_none.2 fun core => (hsame core).1
    simp only [hmissing, hextra]
    rfl

theorem Alike.refl : Alike m tables source k k :=
  fun _ e _ he => ⟨e, he, rfl⟩

theorem exists_others (m : Machine) (tables : TableSet) (source : Coord) (keys : KeyRange)
    (hatoms : 0 < atoms) : ∃ others, (List.range atoms).map keys.keyAt = keys.key :: others ∧
      ((∀ k ∈ others, Alike m tables source keys.key k) ↔
        ∀ i < atoms, Alike m tables source keys.key (keys.keyAt i)) := by
  obtain ⟨n, rfl⟩ := Nat.exists_eq_add_one_of_ne_zero hatoms.ne'
  have hsent : (List.range (n + 1)).map keys.keyAt =
      keys.key :: ((List.range n).map Nat.succ).map keys.keyAt := by
    rw [List.range_succ_eq_map, List.map_cons, Keys.keyAt_zero]
  refine ⟨_, hsent, ?_⟩
  have hall : (∀ k ∈ (List.range (n + 1)).map keys.keyAt, Alike m tables source keys.key k) ↔
      ∀ i < n + 1, Alike m tables source keys.key (keys.keyAt i) := by
    rw [List.forall_mem_map]
    simp only [List.mem_range]
  rw [← hall, hsent, List.forall_mem_cons, and_iff_right Alike.refl]

theorem validatePartition_eq_ok_iff (h : Addressed g placements a p v origin keys)
    (hcounted : v.slice.atoms < UInt32.size) :
    validatePartition m g placements a tables p = .ok () ↔
      Delivers m placements tables p origin.chip keys.range v.slice.atoms := by
  obtain ⟨expected, hexpected, hexpects⟩ := expectedCores_spec h.destinations
  have hatoms : 0 < v.slice.atoms := by simp [Graph.Slice.atoms]
  obtain ⟨others, hsent, hothers⟩ := exists_others m tables origin.chip keys.range hatoms
  have htraces : Traces m tables keys.range.key others origin.chip _ := trace_traces
  rw [validatePartition_eq_ok h hexpected, Graph.Slice.count_eq hcounted, hsent]
  constructor
  · rintro ⟨reached, htrace, hsame⟩
    rw [htrace] at htraces
    obtain ⟨hway, halike, hreached⟩ := htraces
    refine ⟨hway, hothers.1 halike, fun chip n => ?_⟩
    rw [← hreached, hsame, hexpects]
  · rintro ⟨hway, halike, hexact⟩
    cases htrace : trace m tables origin.chip (keys.range.key :: others) with
    | error fault =>
        rw [htrace] at htraces
        exact absurd ⟨hway, hothers.2 halike⟩ htraces
    | ok reached =>
        rw [htrace] at htraces
        obtain ⟨_, _, hreached⟩ := htraces
        refine ⟨reached, rfl, ?_⟩
        rintro ⟨chip, n⟩
        rw [hreached, hexact, hexpects]

/-! ## The whole check -/

theorem validate_eq_ok_iff
    (h : ∀ p ∈ g.multicastPartitions, ∃ v origin keys, Addressed g placements a p v origin keys)
    (hcounted : g.SourcesCounted) :
    validate m g placements a tables = .ok () ↔ ∀ p ∈ g.multicastPartitions,
      ∃ v origin keys, Addressed g placements a p v origin keys ∧
        Delivers m placements tables p origin.chip keys.range v.slice.atoms := by
  unfold validate
  rw [forM_eq_ok]
  refine forall₂_congr fun p hp => ?_
  obtain ⟨v, origin, keys, haddressed⟩ := h p hp
  rw [bind_eq_ok]
  constructor
  · rintro ⟨v', hv', hok⟩
    cases (MachineGraph.vertex_eq_ok.2 haddressed.vertex).symm.trans (lift_eq_ok.1 hv')
    exact ⟨v, origin, keys, haddressed,
      (validatePartition_eq_ok_iff haddressed (hcounted p hp v haddressed.vertex)).1
        (during_eq_ok.1 hok)⟩
  · rintro ⟨v', origin', keys', haddressed', hdelivers⟩
    refine ⟨v', lift_eq_ok.2 (MachineGraph.vertex_eq_ok.2 haddressed'.vertex), ?_⟩
    exact during_eq_ok.2 ((validatePartition_eq_ok_iff haddressed'
      (hcounted p hp v' haddressed'.vertex)).2 hdelivers)

/-- The check of deliveries follows packets on one finite walk and passes exactly when those of
all partitions arrive. -/
structure DecidesDelivery (m : Machine) (g : MachineGraph) (placements : Placements)
    (a : Assignment) (tables : TableSet) : Prop where
  run : ∀ source first others result, FollowRun m tables first others [] [source] ∅ result ↔
    trace m tables source (first :: others) = result
  passes : validate m g placements a tables = .ok () ↔ ∀ p ∈ g.multicastPartitions,
    ∃ v origin keys, Addressed g placements a p v origin keys ∧
      Delivers m placements tables p origin.chip keys.range v.slice.atoms

def oneHopSource (atoms : Nat) : MachineVertex :=
  ⟨"pre", none, 0, .ofLength 0 atoms, ⟨1, 0, 0⟩, none⟩

def oneHopPartition : EdgePartition := ⟨⟨0⟩, "spikes", .multicast, [⟨⟨0⟩, ⟨1⟩⟩], some 0⟩

def oneHop (atoms : Nat) : MachineGraph where
  code := 0
  vertices := #[oneHopSource atoms, ⟨"post", none, 0, .ofLength 0 1, ⟨1, 0, 0⟩, none⟩]
  byApp := #[]
  partitions := #[oneHopPartition]
  outgoing := #[[0], []]

def oneHopPlacements : Placements where
  toList := [⟨⟨0⟩, ⟨0, 0⟩, 1⟩, ⟨⟨1⟩, ⟨1, 0⟩, 2⟩]
  sorted := by decide
  injective := by decide

def oneHopKeys (range : KeyRange) : Assignment :=
  .addKeys .empty ⟨⟨0⟩, "spikes", range, 0⟩

theorem addressed_oneHop (atoms : Nat) (range : KeyRange) :
    Addressed (oneHop atoms) oneHopPlacements (oneHopKeys range) oneHopPartition
      (oneHopSource atoms) ⟨⟨0⟩, ⟨0, 0⟩, 1⟩ ⟨⟨0⟩, "spikes", range, 0⟩ where
  vertex := rfl
  placed := rfl
  keyed := Std.ExtTreeMap.getElem?_insert_self
  destinations := by
    intro id hid
    obtain rfl : id = ⟨1⟩ := List.mem_singleton.1 hid
    exact ⟨_, rfl⟩

theorem exists_addressed_oneHop (atoms : Nat) (range : KeyRange) :
    ∀ p ∈ (oneHop atoms).multicastPartitions, ∃ v origin keys,
      Addressed (oneHop atoms) oneHopPlacements (oneHopKeys range) p v origin keys := by
  intro p hp
  obtain rfl : p = oneHopPartition := List.mem_singleton.1 hp
  exact ⟨_, _, _, addressed_oneHop atoms range⟩

def oneHopTables : TableSet where
  byChip := .ofList [
    (⟨0, 0⟩, [⟨⟨6, ~~~1⟩, .overLinks [.east], false⟩]),
    (⟨1, 0⟩, [⟨⟨0, ~~~7⟩, ⟨0, 4⟩, false⟩])] compare

def everyKey : KeyRange := ⟨⟨0, 0⟩, by decide⟩

def everyKeyTables : TableSet where
  byChip := .ofList [
    (⟨0, 0⟩, [⟨⟨0, 0⟩, .overLinks [.east], false⟩]),
    (⟨1, 0⟩, [⟨⟨0, 0⟩, ⟨0, 4⟩, false⟩])] compare

/-- Where entries match every key, all keys take the same routes. -/
theorem alike_everyKey (source : Coord) (k other : Key) :
    Alike m everyKeyTables source k other := by
  have hlist : everyKeyTables.byChip.toList = [
      (⟨0, 0⟩, [⟨⟨0, 0⟩, .overLinks [.east], false⟩]),
      (⟨1, 0⟩, [⟨⟨0, 0⟩, ⟨0, 4⟩, false⟩])] := by decide +kernel
  intro chip e _ he
  obtain ⟨entries, hentries, he⟩ := Option.bind_eq_some_iff.1 he
  have hmem := Std.ExtTreeMap.mem_toList_iff_getElem?_eq_some.2 hentries
  rw [hlist] at hmem
  have hhead : ∀ k, lookup? entries k = entries.head? := by
    intro k
    rcases List.mem_cons.1 hmem with heq | hmem
    · cases heq
      simp [lookup?, Entry.Matches, Keys.Pattern.Matches]
    · cases List.mem_singleton.1 hmem
      simp [lookup?, Entry.Matches, Keys.Pattern.Matches]
  rw [hhead] at he
  exact ⟨e, Option.bind_eq_some_iff.2 ⟨entries, hentries, (hhead other).trans he⟩, rfl⟩

theorem exists_everyKey_checked : ∃ m, Machine.ofSpec { width := 2, height := 1 } = .ok m ∧
    validatePartition m (oneHop 1) oneHopPlacements (oneHopKeys everyKey) everyKeyTables
      oneHopPartition = .ok () ∧
    (validate m (oneHop UInt32.size) oneHopPlacements (oneHopKeys everyKey)
      everyKeyTables).isOk = false :=
  ⟨_, rfl, by decide +kernel, by decide +kernel⟩

theorem Arrives.oneWay (h : Arrives m tables k source cores) : OneWay m tables k source where
  matched := fun chip ⟨hops, hj⟩ => h.matched hops chip hj
  alive := fun chip e l ⟨hops, hj⟩ hmatch hl => h.alive hops chip hj e hmatch l hl
  entered := by
    rintro chip ⟨hops, hj⟩ hne
    cases hj with
    | start => exact absurd rfl hne
    | @hop hops previous _ e l hj hmatch hl htarget =>
        refine ⟨(previous, l), ⟨⟨hops, hj⟩, e, hmatch, hl, htarget⟩, ?_⟩
        rintro ⟨previous', l'⟩ ⟨⟨hops', hj'⟩, e', hmatch', hl', htarget'⟩
        have hsame := h.once _ _ chip (hj'.hop hmatch' hl' htarget') (hj.hop hmatch hl htarget)
        exact (List.cons.inj hsame).1
  source_left := by
    rintro link ⟨hops, hj⟩ ⟨e, hmatch, hl, htarget⟩
    have hsame := h.once _ _ source (hj.hop hmatch hl htarget) .start
    cases hsame

theorem Arrives.handsOver_iff (h : Arrives m tables k source cores) (chip : Coord) (n : Nat) :
    HandsOver m tables k source chip n ↔ cores chip n := by
  rw [← h.exact]
  constructor
  · rintro ⟨⟨hops, hj⟩, hhands⟩
    exact ⟨hops, hj, hhands⟩
  · rintro ⟨hops, hj, hhands⟩
    exact ⟨⟨hops, hj⟩, hhands⟩

theorem alike_of_branches (h : Branches m paths s source cores) (hk : Carries tables paths s k)
    (hother : Carries tables paths s other) : Alike m tables source k other := by
  rintro chip e ⟨hops, hj⟩ hmatch
  obtain ⟨path, hpath⟩ := uses_of_journey h hk hj
  obtain ⟨d, hd, hroute⟩ := hk chip path hpath
  obtain ⟨f, hf, hroute'⟩ := hother chip path hpath
  cases hmatch.symm.trans hd
  exact ⟨f, hf, hroute'.trans hroute.symm⟩

def CarriesAll (g : MachineGraph) (a : Assignment) (tables : TableSet) (paths : PathTable) :
    Prop :=
  ∀ p ∈ g.multicastPartitions, ∃ v keys, g.HasVertex p.pre v ∧
    a.keys? p.pre p.identifier = some keys ∧
    ∀ i, Carries tables paths (sourceOf v p) (keys.range.keyAt i)

theorem validate_ok (h : Ready m g placements) (hcounted : g.SourcesCounted)
    (hpaths : RoutedUpTo m g placements g.multicastPartitions paths)
    (hcarries : CarriesAll g a tables paths) : validate m g placements a tables = .ok () := by
  have hdelivers : ∀ p ∈ g.multicastPartitions, ∃ v origin keys,
      Addressed g placements a p v origin keys ∧
        Delivers m placements tables p origin.chip keys.range v.slice.atoms := by
    intro p hp
    obtain ⟨v, keys, hv, hkeys, hall⟩ := hcarries p hp
    obtain ⟨origin, horigin, hbranches⟩ := hpaths.routed p hp v hv
    have hfirst : Carries tables paths (sourceOf v p) keys.range.key := by
      rw [← Keys.keyAt_zero]
      exact hall 0
    have harrives := arrives_of_branches hbranches hfirst
    refine ⟨v, origin, keys, ⟨hv, horigin, hkeys, fun id hid => h.destination hp hid⟩, ?_⟩
    exact ⟨harrives.oneWay, fun i _ => alike_of_branches hbranches hfirst (hall i),
      harrives.handsOver_iff⟩
  refine (validate_eq_ok_iff (fun p hp => ?_) hcounted).2 hdelivers
  obtain ⟨v, origin, keys, haddressed, _⟩ := hdelivers p hp
  exact ⟨v, origin, keys, haddressed⟩

end MulticastMesh.Tables
