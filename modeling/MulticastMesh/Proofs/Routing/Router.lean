import MulticastMesh.Proofs.Graph.Partitions
import MulticastMesh.Proofs.Layout.Placed
import MulticastMesh.Proofs.Routing.Branches
import MulticastMesh.Proofs.Routing.Cheapest
import MulticastMesh.Proofs.Routing.Steiner
import MulticastMesh.Proofs.Keys.Shares
import MulticastMesh.Routing.Router
/-!
# Routing all partitions

Partitions are told apart by their sources, so routing one leaves the path entries of the others
as they are.  Afterwards the entries of every partition lead from the core of its source to the
cores of its destinations.
-/

namespace MulticastMesh.Routing

open MulticastMesh.Graph (EdgePartition MachineGraph MachineVertex MachineVertexId)
open Keys (sourceOf)
open Layout (Placement Placements)
open Mesh (Coord Link Machine maxProcessors)
open Outcome

variable {m : Machine} {g : MachineGraph} {placements : Placements} {paths paths' : PathTable}
  {p q : EdgePartition} {v w : MachineVertex} {router router' : Router} {s : PartitionSource}

/-! ## Destinations -/

def Destinations.Holds (d : Destinations) (chip : Coord) (processor : Nat) : Prop :=
  ∃ set, d[chip]? = some set ∧ processor ∈ set

theorem Destinations.holds_add {d : Destinations} {chip c : Coord} {processor n : Nat} :
    (d.add chip processor).Holds c n ↔ d.Holds c n ∨ (chip, processor) = (c, n) := by
  unfold Holds add
  rw [Maps.getElem?_insert_eq_ite]
  by_cases hc : chip = c
  · subst hc
    rw [if_pos rfl]
    simp only [Option.some.injEq, exists_eq_left', Std.ExtTreeSet.mem_insert,
      Std.LawfulEqCmp.compare_eq_iff_eq, Prod.mk.injEq, true_and]
    cases hd : d[chip]? with
    | none => simp
    | some set => simp [or_comm]
  · rw [if_neg hc]
    simp [hc]

def Expected (placements : Placements) (p : EdgePartition) (chip : Coord) (processor : Nat) :
    Prop :=
  ∃ id ∈ p.destinations, ∃ placement, placements.placementOf id = .ok placement ∧
    placement.core = (chip, processor)

theorem destinationsOf_spec {d : Destinations} (h : destinationsOf placements p = .ok d)
    {chip : Coord} {processor : Nat} :
    d.Holds chip processor ↔ Expected placements p chip processor := by
  refine foldlM_induction (motive := fun done (d : Destinations) =>
    d.Holds chip processor ↔ ∃ id ∈ done, ∃ placement, placements.placementOf id = .ok placement ∧
      placement.core = (chip, processor)) h ?_ ?_
  · simp [Destinations.Holds, Destinations.empty]
  · intro before id after _ d d' hd hstep
    obtain ⟨placement, hfound, hreturn⟩ := bind_eq_ok.1 hstep
    cases pure_eq_ok.1 hreturn
    rw [Destinations.holds_add, hd]
    simp only [List.mem_append, List.mem_singleton, or_and_right, exists_or, exists_eq_left,
      hfound, Except.ok.injEq, exists_eq_left']
    rfl

/-! ## Routers -/

theorem Router.tree_spec {source : Coord} {destinations : List Coord} {t : Tree}
    (hrun : router.tree m source destinations paths = .ok t) :
    t.source = source ∧ t.Sound m ∧ ∀ chip ∈ destinations, t.contains chip = true := by
  cases router with
  | cheapest r => exact Cheapest.tree_spec hrun
  | steiner => exact Steiner.tree_spec hrun

theorem Router.tree_fails {d : Mesh.MachineSpec} (hm : Machine.Fulfils d m) {source : Coord}
    {destinations : List Coord} (hsource : (m.chip? source).isSome) :
    FailsOnly IsRoutingLimit (router.tree m source destinations paths) := by
  cases router with
  | cheapest r => exact Cheapest.tree_fails hm hsource
  | steiner => exact Steiner.tree_fails hsource

/-! ## One partition -/

/-- What routing relies on: partitions connect the vertices of the graph, and these are placed
where routes can lead. -/
structure Ready (m : Machine) (g : MachineGraph) (placements : Placements) : Prop where
  fulfils : ∃ d, Machine.Fulfils d m
  wired : g.Wired
  placed : ∀ id v, g.HasVertex id v → ∃ placement, placements.placementOf id = .ok placement
  working : ∀ placement ∈ placements.toList, (m.chip? placement.chip).isSome
  routable : ∀ placement ∈ placements.toList, placement.processor < maxProcessors

/-- The path entries of a partition lead from its source to its destinations. -/
def Routed (m : Machine) (placements : Placements) (p : EdgePartition) (s : PartitionSource)
    (paths : PathTable) : Prop :=
  ∃ source, placements.placementOf p.pre = .ok source ∧
    Branches m paths s source.chip (Expected placements p)

theorem mem_multicastPartitions :
    p ∈ g.multicastPartitions ↔ p ∈ g.partitions ∧ p.isMulticast = true := by
  unfold MachineGraph.multicastPartitions
  rw [List.mem_filter, Array.mem_toList_iff]

theorem Ready.source (h : Ready m g placements) (hp : p ∈ g.multicastPartitions) :
    ∃ v, g.HasVertex p.pre v :=
  h.wired.source p (mem_multicastPartitions.1 hp).1

theorem Ready.destination (h : Ready m g placements) (hp : p ∈ g.multicastPartitions)
    {id : MachineVertexId} (hid : id ∈ p.destinations) :
    ∃ placement, placements.placementOf id = .ok placement := by
  unfold EdgePartition.destinations at hid
  rw [List.mem_eraseDups] at hid
  obtain ⟨edge, hedge, rfl⟩ := List.mem_map.1 hid
  obtain ⟨v, hv⟩ := h.wired.target p (mem_multicastPartitions.1 hp).1 edge hedge
  exact h.placed edge.post v hv

theorem Ready.exists_expected (h : Ready m g placements) (hp : p ∈ g.multicastPartitions) :
    ∃ chip processor, Expected placements p chip processor := by
  have hmulticast := (mem_multicastPartitions.1 hp).2
  unfold EdgePartition.isMulticast at hmulticast
  simp only [Bool.and_eq_true, Bool.not_eq_true', List.isEmpty_eq_false_iff] at hmulticast
  obtain ⟨edge, rest, hedges⟩ := List.exists_cons_of_ne_nil hmulticast.2
  have hdestination : edge.post ∈ p.destinations := by
    unfold EdgePartition.destinations
    rw [List.mem_eraseDups, hedges]
    simp
  obtain ⟨placement, hplacement⟩ := h.destination hp hdestination
  exact ⟨placement.chip, placement.processor, edge.post, hdestination, placement, hplacement, rfl⟩

theorem Ready.exists_destinationsOf (h : Ready m g placements) (hp : p ∈ g.multicastPartitions) :
    ∃ d, destinationsOf placements p = .ok d := by
  have hgen : ∀ (ids : List MachineVertexId) (d : Destinations),
      (∀ id ∈ ids, ∃ placement, placements.placementOf id = .ok placement) →
      ∃ d', ids.foldlM (fun (d : Destinations) id => do
        let placement ← placements.placementOf id
        return d.add placement.chip placement.processor) d = .ok d' := by
    intro ids
    induction ids with
    | nil => exact fun d _ => ⟨d, rfl⟩
    | cons id rest ih =>
        intro d hall
        obtain ⟨⟨placement, hplacement⟩, hrest⟩ := List.forall_mem_cons.1 hall
        obtain ⟨d', hd'⟩ := ih (d.add placement.chip placement.processor) hrest
        refine ⟨d', ?_⟩
        rw [List.foldlM_cons]
        exact bind_eq_ok.2 ⟨_, bind_eq_ok.2 ⟨placement, hplacement, rfl⟩, hd'⟩
  exact hgen p.destinations .empty fun id hid => h.destination hp hid

theorem commit_routed (h : Ready m g placements) (hp : p ∈ g.multicastPartitions)
    {source : Placement} {d : Destinations} {t : Tree}
    (hsource : placements.placementOf p.pre = .ok source)
    (hd : destinationsOf placements p = .ok d)
    (ht : router.tree m source.chip d.chips paths = .ok t)
    (hfresh : ∀ chip, paths.entry? chip s = none) :
    ∃ claimed paths', (t.commit d source.processor s).run.run paths = (.ok claimed, paths') ∧
      Routed m placements p s paths' ∧ Tree.SameElsewhere s paths paths' := by
  obtain ⟨hroot, hsound, hcontains⟩ := Router.tree_spec ht
  have hlisted : ∀ (chip : Coord) (processor : Nat),
      (∃ set, (chip, set) ∈ d.toList ∧ processor ∈ set) ↔
        Expected placements p chip processor := by
    intro chip processor
    rw [← destinationsOf_spec hd]
    simp only [Std.ExtTreeMap.mem_toList_iff_getElem?_eq_some]
    rfl
  have hprocessors : ∀ (chip : Coord) set, d[chip]? = some set →
      ∀ n ∈ set, n < maxProcessors := by
    intro chip set hset n hn
    obtain ⟨_, _, placement, hplacement, hcore⟩ := (destinationsOf_spec hd).1 ⟨set, hset, hn⟩
    rw [← (Prod.mk.inj hcore).2]
    exact h.routable placement (Layout.Placements.placementOf_eq_ok.1 hplacement).1
  obtain ⟨claimed, paths', hcommit, hlaid, hsame⟩ :=
    Tree.commit_spec source.processor hsound hfresh hcontains hprocessors
  have hstops : d.toList ≠ [] := by
    obtain ⟨chip, processor, hexpected⟩ := h.exists_expected hp
    obtain ⟨set, hset, _⟩ := (hlisted chip processor).2 hexpected
    exact List.ne_nil_of_mem hset
  have hbranches := hlaid.branches hsound hstops
  simp only [hlisted, hroot] at hbranches
  exact ⟨claimed, paths', hcommit, ⟨source, hsource, hbranches⟩, hsame⟩

theorem routePartition_spec (h : Ready m g placements) (hp : p ∈ g.multicastPartitions)
    (hv : g.HasVertex p.pre v) (hfresh : ∀ chip, paths.entry? chip (sourceOf v p) = none)
    (hrun : routePartition m g placements (router, paths) p = .ok (router', paths')) :
    Routed m placements p (sourceOf v p) paths' ∧
      Tree.SameElsewhere (sourceOf v p) paths paths' := by
  obtain ⟨w, hw, hrun⟩ := bind_eq_ok.1 hrun
  cases hv.eq (MachineGraph.vertex_eq_ok.1 (lift_eq_ok.1 hw))
  obtain ⟨source, hsource, hrun⟩ := bind_eq_ok.1 hrun
  obtain ⟨d, hd, hrun⟩ := bind_eq_ok.1 hrun
  obtain ⟨t, ht, hrun⟩ := bind_eq_ok.1 hrun
  obtain ⟨claimed, paths₁, hcommit, hrouted, hsame⟩ :=
    commit_routed h hp (lift_eq_ok.1 hsource) (lift_eq_ok.1 hd) ht hfresh
  simp only [sourceOf] at hcommit
  simp only [hcommit] at hrun
  obtain ⟨_, _, hrun⟩ := bind_eq_ok.1 hrun
  obtain ⟨_, _, hrun⟩ := bind_eq_ok.1 hrun
  cases pure_eq_ok.1 hrun
  exact ⟨hrouted, hsame⟩

theorem claimLinks_fails {links : List LinkFrom} {e : RoutingError}
    (he : (router.claimLinks links).1 = .error e) : IsRoutingLimit (.routing e) := by
  cases router with
  | steiner => cases he
  | cheapest r =>
      rcases hrun : (links.forM Cheapest.claim).run.run r with ⟨result, r'⟩
      have hresult : result = .error e := by
        rw [← he]
        unfold Router.claimLinks
        simp only [hrun]
      subst hresult
      obtain ⟨link, _, before, after, hclaim⟩ := change_forM_eq_error hrun
      rcases change_bind_eq_error hclaim with hget | ⟨_, _, _, hclaim⟩
      · cases hget
      · simp only at hclaim
        split at hclaim
        · cases hclaim
          exact IsRoutingLimit.bandwidthExhausted link.1 link.2
        · cases hclaim

theorem routePartition_fails (h : Ready m g placements) (hp : p ∈ g.multicastPartitions)
    (hv : g.HasVertex p.pre v) (hfresh : ∀ chip, paths.entry? chip (sourceOf v p) = none) :
    FailsOnly IsRoutingLimit (routePartition m g placements (router, paths) p) := by
  obtain ⟨d, hm⟩ := h.fulfils
  obtain ⟨source, hsource⟩ := h.placed p.pre v hv
  obtain ⟨hmem, _⟩ := Layout.Placements.placementOf_eq_ok.1 hsource
  obtain ⟨stops, hstops⟩ := h.exists_destinationsOf hp
  unfold routePartition
  refine FailsOnly.bind
    (FailsOnly.of_eq_ok (lift_eq_ok.2 (MachineGraph.vertex_eq_ok.2 hv))) fun w hw => ?_
  cases hv.eq (MachineGraph.vertex_eq_ok.1 (lift_eq_ok.1 hw))
  refine FailsOnly.bind (FailsOnly.of_eq_ok (lift_eq_ok.2 hsource)) fun source' hsource' => ?_
  cases hsource.symm.trans (lift_eq_ok.1 hsource')
  refine FailsOnly.bind (FailsOnly.of_eq_ok (lift_eq_ok.2 hstops)) fun stops' hstops' => ?_
  cases hstops.symm.trans (lift_eq_ok.1 hstops')
  refine FailsOnly.bind (Router.tree_fails hm (h.working source hmem)) fun t ht => ?_
  obtain ⟨claimed, paths', hcommit, _, _⟩ := commit_routed h hp hsource hstops ht hfresh
  simp only [sourceOf] at hcommit
  simp only [hcommit]
  refine FailsOnly.bind (FailsOnly.ok claimed) fun claimed' _ => ?_
  exact FailsOnly.bind (FailsOnly.lift fun e he => claimLinks_fails he)
    fun _ _ => FailsOnly.pure _

/-! ## All partitions -/

structure RoutedUpTo (m : Machine) (g : MachineGraph) (placements : Placements)
    (done : List EdgePartition) (paths : PathTable) : Prop where
  routed : ∀ p ∈ done, ∀ v, g.HasVertex p.pre v → Routed m placements p (sourceOf v p) paths
  sourced : ∀ chip s e, paths.entry? chip s = some e →
    ∃ p ∈ done, ∃ v, g.HasVertex p.pre v ∧ s = sourceOf v p

theorem routedUpTo_nil : RoutedUpTo m g placements [] .empty :=
  ⟨by simp, by simp [ PathTable.entry?, PathTable.empty]⟩

variable {before after : List EdgePartition}

theorem RoutedUpTo.fresh (h : RoutedUpTo m g placements before paths) (hg : Ready m g placements)
    (hsplit : g.multicastPartitions = before ++ p :: after) :
    ∀ chip, paths.entry? chip (sourceOf v p) = none := by
  intro chip
  cases hfound : paths.entry? chip (sourceOf v p) with
  | none => rfl
  | some e =>
      obtain ⟨q, hq, w, _, heq⟩ := h.sourced chip _ e hfound
      have hdistinct : g.multicastPartitions.Pairwise MachineGraph.Distinct :=
        hg.wired.distinct.filter _
      rw [hsplit, List.pairwise_append] at hdistinct
      have hne := hdistinct.2.2 q hq p (by simp)
      obtain ⟨_, hidentifier, hpre⟩ := PartitionSource.mk.inj heq
      exact absurd (Prod.ext hpre.symm hidentifier.symm) hne

theorem RoutedUpTo.step (h : RoutedUpTo m g placements before paths) (hv : g.HasVertex p.pre v)
    (hfresh : ∀ chip, paths.entry? chip (sourceOf v p) = none)
    (hrouted : Routed m placements p (sourceOf v p) paths')
    (hsame : Tree.SameElsewhere (sourceOf v p) paths paths') :
    RoutedUpTo m g placements (before ++ [p]) paths' := by
  refine ⟨?_, ?_⟩
  · intro q hq w hw
    rcases List.mem_append.1 hq with hq | hq
    · obtain ⟨source, hsource, hbranches⟩ := h.routed q hq w hw
      have hne : sourceOf w q ≠ sourceOf v p := by
        intro heq
        obtain ⟨e, he⟩ := hbranches.start
        rw [heq, hfresh] at he
        cases he
      exact ⟨source, hsource, hbranches.congr fun chip => hsame chip _ hne⟩
    · cases List.mem_singleton.1 hq
      cases hv.eq hw
      exact hrouted
  · intro chip s e he
    by_cases hs : s = sourceOf v p
    · exact ⟨p, by simp, v, hv, hs⟩
    · rw [hsame chip s hs] at he
      obtain ⟨q, hq, hrest⟩ := h.sourced chip s e he
      exact ⟨q, List.mem_append_left _ hq, hrest⟩

theorem routeAll_step (hg : Ready m g placements)
    (hsplit : g.multicastPartitions = before ++ p :: after) :
    p ∈ g.multicastPartitions ∧ ∃ v, g.HasVertex p.pre v := by
  have hp : p ∈ g.multicastPartitions := by simp [hsplit]
  exact ⟨hp, hg.source hp⟩

/-- After routing all partitions the path entries of each lead from its source to its
destinations. -/
theorem routeAll_spec (hg : Ready m g placements)
    (hrun : routeAll router m g placements = .ok paths) :
    RoutedUpTo m g placements g.multicastPartitions paths := by
  obtain ⟨⟨router', paths'⟩, hfold, hreturn⟩ := bind_eq_ok.1 hrun
  cases pure_eq_ok.1 hreturn
  refine foldlM_induction (motive := fun done (state : Router × PathTable) =>
    RoutedUpTo m g placements done state.2) hfold routedUpTo_nil ?_
  rintro before p after hsplit ⟨r, paths⟩ ⟨r', paths'⟩ hbefore hstep
  obtain ⟨hp, v, hv⟩ := routeAll_step hg hsplit
  obtain ⟨_, _, hstep⟩ := bind_eq_ok.1 hstep
  have hfresh := hbefore.fresh (v := v) hg hsplit
  obtain ⟨hrouted, hsame⟩ := routePartition_spec hg hp hv hfresh (during_eq_ok.1 hstep)
  exact hbefore.step hv hfresh hrouted hsame

theorem routeAll_fails (hg : Ready m g placements) :
    FailsOnly IsRoutingLimit (routeAll router m g placements) := by
  refine FailsOnly.bind (FailsOnly.foldlM
    (motive := fun done (state : Router × PathTable) =>
      RoutedUpTo m g placements done state.2) routedUpTo_nil ?_) fun _ _ => FailsOnly.pure _
  rintro before p after hsplit ⟨r, paths⟩ hbefore
  obtain ⟨hp, v, hv⟩ := routeAll_step hg hsplit
  have hfresh := hbefore.fresh (v := v) hg hsplit
  refine ⟨?_, ?_⟩
  · refine FailsOnly.bind
      (FailsOnly.of_eq_ok (lift_eq_ok.2 (MachineGraph.vertex_eq_ok.2 hv))) fun w _ => ?_
    exact FailsOnly.during (routePartition_fails hg hp hv hfresh)
  · rintro ⟨r', paths'⟩ hstep
    obtain ⟨_, _, hstep⟩ := bind_eq_ok.1 hstep
    obtain ⟨hrouted, hsame⟩ := routePartition_spec hg hp hv hfresh (during_eq_ok.1 hstep)
    exact hbefore.step hv hfresh hrouted hsame

end MulticastMesh.Routing
