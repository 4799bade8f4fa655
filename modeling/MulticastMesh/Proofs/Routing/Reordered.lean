import MulticastMesh.Proofs.Graph.Built
import MulticastMesh.Proofs.Reordering
import MulticastMesh.Proofs.Routing.Local
import MulticastMesh.Proofs.Routing.Router
/-!
# Routes do not depend on the order of partitions

Where prices do not depend on earlier partitions, the tree of a partition is the same whenever it
is routed.  Its entries stand apart from those of other partitions, and the links that it claims
only count.
-/

namespace MulticastMesh.Routing

open MulticastMesh.Graph (EdgePartition MachineGraph MachineVertex MachineVertexId)
open MulticastMesh.Graph.MachineGraph (Built Reordered SamePartition SameVertices)
open Keys (sourceOf)
open Layout (Placement Placements)
open Mesh (Coord Link Machine)
open Outcome

/-! ## Destinations in another order -/

theorem Destinations.add_comm (d : Destinations) (chip chip' : Coord) (n n' : Nat) :
    (d.add chip n).add chip' n' = (d.add chip' n').add chip n := by
  unfold add
  by_cases hchip : chip = chip'
  · subst hchip
    have hset : ∀ set : Std.ExtTreeSet Nat compare,
        (set.insert n).insert n' = (set.insert n').insert n := by
      intro set
      apply Std.ExtTreeSet.ext_mem
      intro i
      simp only [Std.ExtTreeSet.mem_insert]
      exact or_left_comm
    apply Std.ExtTreeMap.ext_getElem?
    intro c
    simp only [Maps.getElem?_insert_eq_ite, if_true, Option.getD_some, hset]
    split
    · rfl
    · rfl
  · rw [Maps.getElem?_insert_of_ne hchip, Maps.getElem?_insert_of_ne (Ne.symm hchip),
      Maps.insert_comm hchip]

variable {m : Machine} {g g' : MachineGraph} {placements : Placements}
  {paths paths' paths₁ paths₂ : PathTable} {p q : EdgePartition} {router router₁ router₂ : Router}

theorem perm_destinations (h : p.edges.Perm q.edges) : p.destinations.Perm q.destinations := by
  unfold EdgePartition.destinations
  rw [List.perm_ext_iff_of_nodup (Maps.nodup_eraseDups _) (Maps.nodup_eraseDups _)]
  intro id
  rw [List.mem_eraseDups, List.mem_eraseDups]
  exact (h.map _).mem_iff

/-- Where the destinations are does not depend on the order of the edges. -/
theorem destinationsOf_same {d : Destinations} (h : p.edges.Perm q.edges) :
    destinationsOf placements p = .ok d ↔ destinationsOf placements q = .ok d := by
  refine foldlM_perm_eq_ok (perm_destinations h) (P := fun _ => True) trivial
    (fun _ _ _ _ _ _ => trivial) ?_
  intro id _ id' _ _ d d' _ hrun
  obtain ⟨d₁, hd₁, hrun⟩ := bind_eq_ok.1 hrun
  obtain ⟨placement, hplacement, hreturn⟩ := bind_eq_ok.1 hd₁
  cases pure_eq_ok.1 hreturn
  obtain ⟨placement', hplacement', hreturn⟩ := bind_eq_ok.1 hrun
  cases pure_eq_ok.1 hreturn
  rw [Destinations.add_comm]
  exact bind_eq_ok.2 ⟨_, bind_eq_ok.2 ⟨placement', hplacement', rfl⟩,
    bind_eq_ok.2 ⟨placement, hplacement, rfl⟩⟩

/-! ## Prices that count hops only -/

namespace Cheapest

/-- Neither scarcity nor load has any weight. -/
structure Pricing.Unweighted (pricing : Pricing) : Prop where
  scarcity : (pricing.scarcity == 0.0) = true
  load : (pricing.load == 0.0) = true

variable {r r' : Cheapest.Router}

theorem price_eq (h : r.pricing.Unweighted) (link : LinkFrom) (target : Coord) :
    r.price m paths link target = .ok r.pricing.hop := by
  have hscarcity : (r.pricing.scarcity != 0.0) = false := by
    rw [bne, h.scarcity]
    rfl
  have hload : (r.pricing.load != 0.0) = false := by
    rw [bne, h.load]
    rfl
  unfold Router.price
  simp only [hscarcity, hload, Bool.false_eq_true, if_false]
  rfl

section

variable (h : r.pricing.Unweighted) (hr : r'.pricing = r.pricing)

include h hr

theorem relax_eq (item : Waiting) (s : Search) (link : Link) :
    r'.relax m paths' item s link = r.relax m paths item s link := by
  unfold Router.relax
  simp only [price_eq h, price_eq (hr ▸ h : r'.pricing.Unweighted), hr]

theorem settle_eq (fuel : Nat) (s : Search) :
    r'.settle m paths' fuel s = r.settle m paths fuel s := by
  induction fuel generalizing s with
  | zero => rfl
  | succ fuel ih =>
      have hrelax : ∀ item, r'.relax m paths' item = r.relax m paths item :=
        fun item => funext fun s => funext fun link => relax_eq h hr item s link
      unfold Router.settle
      simp only [ih, hrelax]

theorem tree_eq (source : Coord) (destinations : List Coord) :
    r'.tree m source destinations paths' = r.tree m source destinations paths := by
  have hsettle : ∀ fuel s, r'.settle m paths' fuel s = r.settle m paths fuel s :=
    settle_eq h hr
  unfold Router.tree
  simp only [hsettle]

end

/-! ### Claims -/

def Router.take (r : Cheapest.Router) (link : LinkFrom) : Cheapest.Router :=
  { r with loads := r.loads.insert link (r.bandwidth link - r.pricing.bandwidthPerRoute) }

/-- Something is left of the bandwidth of a link after one more route over it. -/
def Router.HasRoom (r : Cheapest.Router) (link : LinkFrom) : Prop :=
  ¬ r.bandwidth link - r.pricing.bandwidthPerRoute <= 0.0

theorem claim_eq_ok {link : LinkFrom} :
    changed (claim link) r = .ok r' ↔ r.HasRoom link ∧ r.take link = r' := by
  rw [changed_eq_ok]
  unfold claim
  rw [change_bind_eq_ok]
  constructor
  · rintro ⟨_, _, hget, hrun⟩
    obtain ⟨rfl, rfl⟩ := change_get_eq_ok.1 hget
    simp only at hrun
    split at hrun
    · cases hrun
    · next hroom => exact ⟨hroom, change_set_eq_ok.1 hrun⟩
  · rintro ⟨hroom, hset⟩
    refine ⟨r, r, change_get_eq_ok.2 ⟨rfl, rfl⟩, ?_⟩
    simp only
    rw [if_neg hroom]
    exact change_set_eq_ok.2 hset

theorem bandwidth_take {link link' : LinkFrom} (h : link ≠ link') :
    (r.take link).bandwidth link' = r.bandwidth link' := by
  unfold Router.take Router.bandwidth
  rw [Maps.getElem?_insert_of_ne h]

theorem hasRoom_take {link link' : LinkFrom} (h : link ≠ link') :
    (r.take link).HasRoom link' ↔ r.HasRoom link' := by
  unfold Router.HasRoom
  rw [bandwidth_take h]
  rfl

theorem take_comm {link link' : LinkFrom} (h : link ≠ link') :
    (r.take link).take link' = (r.take link').take link := by
  have hloads : ∀ {l l' : LinkFrom}, l ≠ l' → ((r.take l).take l').loads =
      (r.loads.insert l (r.bandwidth l - r.pricing.bandwidthPerRoute)).insert l'
        (r.bandwidth l' - r.pricing.bandwidthPerRoute) := by
    intro l l' hne
    rw [← bandwidth_take hne]
    rfl
  have hboth : ((r.take link).take link').loads = ((r.take link').take link).loads := by
    rw [hloads h, hloads h.symm, Maps.insert_comm h]
  exact congrArg (Router.mk r.pricing) hboth

theorem claim_swap {link link' : LinkFrom} (h : link ≠ link')
    (hrun : (changed (claim link) r >>= fun u => changed (claim link') u) = .ok r') :
    (changed (claim link') r >>= fun u => changed (claim link) u) = .ok r' := by
  obtain ⟨u, hu, hrun⟩ := bind_eq_ok.1 hrun
  obtain ⟨hroom, rfl⟩ := claim_eq_ok.1 hu
  obtain ⟨hroom', rfl⟩ := claim_eq_ok.1 hrun
  refine bind_eq_ok.2 ⟨_, claim_eq_ok.2 ⟨(hasRoom_take h).1 hroom', rfl⟩, ?_⟩
  exact claim_eq_ok.2 ⟨(hasRoom_take h.symm).2 hroom, take_comm h.symm⟩

theorem pricing_of_claims {links : List LinkFrom} {u : Unit}
    (h : (links.forM claim).run.run r = (.ok u, r')) : r'.pricing = r.pricing := by
  refine change_forM_invariant (P := fun r' : Cheapest.Router => r'.pricing = r.pricing) h rfl ?_
  intro link _ s s' hs hclaim
  obtain ⟨_, rfl⟩ := claim_eq_ok.1 (changed_eq_ok.2 hclaim)
  exact hs

end Cheapest

/-! ## Routers that do not look at earlier partitions -/

/-- Routers whose trees do not depend on the partitions routed before. -/
inductive Router.Unweighted : Router → Prop where
  | steiner : Unweighted steiner
  | cheapest {r : Cheapest.Router} (h : r.pricing.Unweighted) : Unweighted (cheapest r)

theorem Router.claimLinks_cheapest_eq_ok {r : Cheapest.Router} {links : List LinkFrom} :
    (Router.cheapest r).claimLinks links = (.ok (), router₁) ↔ ∃ r',
      (links.forM Cheapest.claim).run.run r = (.ok (), r') ∧ router₁ = cheapest r' := by
  unfold claimLinks
  rcases hrun : (links.forM Cheapest.claim).run.run r with ⟨result, r'⟩
  simp only [hrun]
  constructor
  · rintro ⟨⟩
    exact ⟨r', rfl, rfl⟩
  · rintro ⟨_, ⟨⟩, rfl⟩
    rfl

theorem Router.claimLinks_swap {links links' : List LinkFrom}
    (hfirst : router.claimLinks links = (.ok (), router₁))
    (hsecond : router₁.claimLinks links' = (.ok (), router₂)) :
    ∃ router₁', router.claimLinks links' = (.ok (), router₁') ∧
      router₁'.claimLinks links = (.ok (), router₂) := by
  cases router with
  | steiner =>
      cases hfirst
      cases hsecond
      exact ⟨steiner, rfl, rfl⟩
  | cheapest r =>
      obtain ⟨r₁, hr₁, rfl⟩ := claimLinks_cheapest_eq_ok.1 hfirst
      obtain ⟨r₂, hr₂, rfl⟩ := claimLinks_cheapest_eq_ok.1 hsecond
      obtain ⟨r₁', hr₁', hr₂'⟩ :=
        change_forM_swap (fun _ _ hne _ _ => Cheapest.claim_swap hne) hr₁ hr₂
      exact ⟨cheapest r₁', claimLinks_cheapest_eq_ok.2 ⟨r₁', hr₁', rfl⟩,
        claimLinks_cheapest_eq_ok.2 ⟨r₂, hr₂', rfl⟩⟩

theorem Router.Unweighted.claimLinks {links : List LinkFrom} (h : router.Unweighted)
    (hclaim : router.claimLinks links = (.ok (), router₁)) : router₁.Unweighted := by
  cases h with
  | steiner =>
      cases hclaim
      exact .steiner
  | @cheapest r hr =>
      obtain ⟨r₁, hr₁, rfl⟩ := claimLinks_cheapest_eq_ok.1 hclaim
      exact .cheapest (Cheapest.pricing_of_claims hr₁ ▸ hr)

theorem Router.Unweighted.tree_eq {links : List LinkFrom} (h : router.Unweighted)
    (hclaim : router.claimLinks links = (.ok (), router₁)) (source : Coord)
    (destinations : List Coord) :
    router₁.tree m source destinations paths₁ = router.tree m source destinations paths := by
  cases h with
  | steiner =>
      cases hclaim
      rfl
  | @cheapest r hr =>
      obtain ⟨r₁, hr₁, rfl⟩ := claimLinks_cheapest_eq_ok.1 hclaim
      exact Cheapest.tree_eq hr (Cheapest.pricing_of_claims hr₁) source destinations

/-! ## Partitions in another order -/

/-- What routing a partition starts from: its source, its destinations and a tree between them. -/
structure Planned (m : Machine) (g : MachineGraph) (placements : Placements) (router : Router)
    (paths : PathTable) (p : EdgePartition) (v : MachineVertex) (source : Placement)
    (d : Destinations) (t : Tree) : Prop where
  vertex : g.HasVertex p.pre v
  placed : placements.placementOf p.pre = .ok source
  destinations : destinationsOf placements p = .ok d
  tree : router.tree m source.chip d.chips paths = .ok t

theorem routePartition_eq_ok :
    routePartition m g placements (router, paths) p = .ok (router₁, paths₁) ↔
      ∃ v source d t claimed, Planned m g placements router paths p v source d t ∧
        (t.commit d source.processor (sourceOf v p)).run.run paths = (.ok claimed, paths₁) ∧
        router.claimLinks claimed = (.ok (), router₁) := by
  constructor
  · intro hrun
    obtain ⟨v, hv, hrun⟩ := bind_eq_ok.1 hrun
    obtain ⟨source, hsource, hrun⟩ := bind_eq_ok.1 hrun
    obtain ⟨d, hd, hrun⟩ := bind_eq_ok.1 hrun
    obtain ⟨t, ht, hrun⟩ := bind_eq_ok.1 hrun
    rcases hcommit : (t.commit d source.processor (sourceOf v p)).run.run paths with ⟨r, paths'⟩
    simp only [sourceOf] at hcommit
    simp only [hcommit] at hrun
    obtain ⟨claimed, rfl, hrest⟩ := bind_eq_ok.1 hrun
    rcases hclaim : router.claimLinks claimed with ⟨r, router'⟩
    simp only [hclaim] at hrest
    obtain ⟨_, hr, hreturn⟩ := bind_eq_ok.1 hrest
    cases pure_eq_ok.1 hreturn
    cases lift_eq_ok.1 hr
    exact ⟨v, source, d, t, claimed, ⟨MachineGraph.vertex_eq_ok.1 (lift_eq_ok.1 hv),
      lift_eq_ok.1 hsource, lift_eq_ok.1 hd, ht⟩, hcommit, hclaim⟩
  · rintro ⟨v, source, d, t, claimed, h, hcommit, hclaim⟩
    refine bind_eq_ok.2 ⟨v, lift_eq_ok.2 (MachineGraph.vertex_eq_ok.2 h.vertex),
      bind_eq_ok.2 ⟨source, lift_eq_ok.2 h.placed, bind_eq_ok.2 ⟨d, lift_eq_ok.2 h.destinations,
        bind_eq_ok.2 ⟨t, h.tree, ?_⟩⟩⟩⟩
    simp only [sourceOf] at hcommit
    simp only [hcommit]
    refine bind_eq_ok.2 ⟨claimed, rfl, ?_⟩
    simp only [hclaim]
    exact bind_eq_ok.2 ⟨(), lift_eq_ok.2 rfl, rfl⟩

theorem routePartition_swap (hrouter : router.Unweighted) (hne : MachineGraph.Distinct p q)
    (hfirst : routePartition m g placements (router, paths) p = .ok (router₁, paths₁))
    (hsecond : routePartition m g placements (router₁, paths₁) q = .ok (router₂, paths₂)) :
    ∃ router₁' paths₁', routePartition m g placements (router, paths) q = .ok (router₁', paths₁') ∧
      routePartition m g placements (router₁', paths₁') p = .ok (router₂, paths₂) := by
  obtain ⟨v, source, d, t, claimed, hplan, hcommit, hclaim⟩ := routePartition_eq_ok.1 hfirst
  obtain ⟨v', source', d', t', claimed', hplan', hcommit', hclaim'⟩ :=
    routePartition_eq_ok.1 hsecond
  have hsources : sourceOf v p ≠ sourceOf v' q := by
    intro heq
    obtain ⟨_, hidentifier, hpre⟩ := PartitionSource.mk.inj heq
    exact hne (Prod.ext hpre hidentifier)
  obtain ⟨paths₁', hcommit₁, hcommit₂⟩ :=
    Tree.local_commit.swap Tree.local_commit hsources hcommit hcommit'
  obtain ⟨router₁', hclaim₁, hclaim₂⟩ := Router.claimLinks_swap hclaim hclaim'
  -- both trees are those that the first router plans
  have hplan₁ : Planned m g placements router paths q v' source' d' t' :=
    { hplan' with tree := (hrouter.tree_eq hclaim _ _).symm.trans hplan'.tree }
  have hplan₂ : Planned m g placements router₁' paths₁' p v source d t :=
    { hplan with tree := (hrouter.tree_eq hclaim₁ _ _).trans hplan.tree }
  exact ⟨router₁', paths₁',
    routePartition_eq_ok.2 ⟨v', source', d', t', claimed', hplan₁, hcommit₁, hclaim₁⟩,
    routePartition_eq_ok.2 ⟨v, source, d, t, claimed, hplan₂, hcommit₂, hclaim₂⟩⟩

theorem routePartition_unweighted {state state' : Router × PathTable} (h : state.1.Unweighted)
    (hrun : routePartition m g placements state p = .ok state') : state'.1.Unweighted := by
  obtain ⟨_, _, _, _, _, _, _, hclaim⟩ := routePartition_eq_ok.1 hrun
  exact h.claimLinks hclaim

theorem Planned.same {v : MachineVertex} {source : Placement} {d : Destinations} {t : Tree}
    (hsame : SameVertices g g') (hpq : SamePartition p q)
    (h : Planned m g placements router paths p v source d t) :
    Planned m g' placements router paths q v source d t where
  vertex := hsame.hasVertex_iff.2 (hpq.pre ▸ h.vertex)
  placed := hpq.pre ▸ h.placed
  destinations := (destinationsOf_same hpq.edges).1 h.destinations
  tree := h.tree

theorem routePartition_same {state state' : Router × PathTable} (hsame : SameVertices g g')
    (hpq : SamePartition p q) (hrun : routePartition m g placements state p = .ok state') :
    routePartition m g' placements state q = .ok state' := by
  obtain ⟨v, source, d, t, claimed, hplan, hcommit, hclaim⟩ := routePartition_eq_ok.1 hrun
  have hsource : sourceOf v q = sourceOf v p := by
    unfold sourceOf
    rw [hpq.pre, hpq.identifier]
  exact routePartition_eq_ok.2
    ⟨v, source, d, t, claimed, hplan.same hsame hpq, hsource ▸ hcommit, hclaim⟩

theorem routeAll_step_eq_ok {state state' : Router × PathTable} :
    (do let vertex ← g.vertex p.pre
        during (.routingPartition p.identifier vertex.label)
          (routePartition m g placements state p) : Outcome (Router × PathTable)) = .ok state' ↔
      routePartition m g placements state p = .ok state' := by
  constructor
  · intro hstep
    obtain ⟨_, _, hstep⟩ := bind_eq_ok.1 hstep
    exact during_eq_ok.1 hstep
  · intro hstep
    obtain ⟨v, hv, _⟩ := bind_eq_ok.1 hstep
    exact bind_eq_ok.2 ⟨v, hv, during_eq_ok.2 hstep⟩

theorem routeAll_eq_ok : routeAll router m g placements = .ok paths ↔ ∃ router',
    g.multicastPartitions.foldlM (routePartition m g placements) (router, .empty) =
      .ok (router', paths) := by
  constructor
  · intro hrun
    obtain ⟨⟨router', _⟩, hfold, hreturn⟩ := bind_eq_ok.1 hrun
    cases pure_eq_ok.1 hreturn
    exact ⟨router', (foldlM_congr_ok (List.forall₂_same.2 fun _ _ _ _ =>
      routeAll_step_eq_ok)).1 hfold⟩
  · rintro ⟨router', hfold⟩
    exact bind_eq_ok.2 ⟨(router', paths), (foldlM_congr_ok (List.forall₂_same.2 fun _ _ _ _ =>
      routeAll_step_eq_ok)).2 hfold, rfl⟩

/-- Routes are the same for partitions in any order, for trees that do not depend on earlier
ones. -/
theorem routeAll_reordered (hg : Built g) (h : Reordered g g') (hrouter : router.Unweighted)
    (paths : PathTable) : routeAll router m g placements = .ok paths ↔
      routeAll router m g' placements = .ok paths := by
  obtain ⟨l, hperm, hall⟩ := h.partitions
  have hdistinct : ∀ p ∈ g.multicastPartitions, ∀ q ∈ g.multicastPartitions, p ≠ q →
      MachineGraph.Distinct p q := fun p hp q hq hne =>
    hg.wired.distinct_multicast.forall hp hq hne
  rw [routeAll_eq_ok, routeAll_eq_ok]
  refine exists_congr fun router' => ?_
  calc
    _ ↔ l.foldlM (routePartition m g placements) (router, .empty) = .ok (router', paths) := by
      refine foldlM_perm_eq_ok hperm (P := fun state => state.1.Unweighted) hrouter
        (fun _ _ _ _ => routePartition_unweighted) ?_
      rintro p hp q hq hne ⟨r, paths⟩ ⟨r', paths'⟩ hr hrun
      obtain ⟨⟨r₁, paths₁⟩, hfirst, hsecond⟩ := bind_eq_ok.1 hrun
      obtain ⟨r₂, paths₂, hfirst', hsecond'⟩ :=
        routePartition_swap hr (hdistinct p hp q hq hne) hfirst hsecond
      exact bind_eq_ok.2 ⟨(r₂, paths₂), hfirst', hsecond'⟩
    _ ↔ _ := foldlM_congr_ok (hall.imp fun p q hpq state state' =>
      ⟨routePartition_same h.same hpq, routePartition_same h.same.symm hpq.symm⟩)

/-- Three vertices, of which one sends to both others and one under two identifiers. -/
def crossed : MachineGraph where
  code := 0
  vertices := #[
    ⟨"a", none, 0, .ofLength 0 1, ⟨1, 0, 0⟩, none⟩,
    ⟨"b", none, 0, .ofLength 0 1, ⟨1, 0, 0⟩, none⟩,
    ⟨"c", none, 0, .ofLength 0 1, ⟨1, 0, 0⟩, none⟩]
  byApp := #[]
  partitions := #[
    ⟨⟨0⟩, "spikes", .multicast, [⟨⟨0⟩, ⟨2⟩⟩, ⟨⟨0⟩, ⟨1⟩⟩], some 0⟩,
    ⟨⟨1⟩, "spikes", .multicast, [⟨⟨1⟩, ⟨2⟩⟩], some 0⟩,
    ⟨⟨1⟩, "rates", .multicast, [⟨⟨1⟩, ⟨0⟩⟩], some 0⟩]
  outgoing := #[[0], [1, 2], []]

def crossedLater : MachineGraph :=
  { crossed with
    partitions := #[
      ⟨⟨1⟩, "rates", .multicast, [⟨⟨1⟩, ⟨0⟩⟩], some 0⟩,
      ⟨⟨0⟩, "spikes", .multicast, [⟨⟨0⟩, ⟨1⟩⟩, ⟨⟨0⟩, ⟨2⟩⟩], some 0⟩,
      ⟨⟨1⟩, "spikes", .multicast, [⟨⟨1⟩, ⟨2⟩⟩], some 0⟩]
    outgoing := #[[1], [0, 2], []] }

theorem built_crossed : Built crossed :=
  MachineGraph.built_of_edges 0 0 crossed.vertices.toList [(⟨⟨0⟩, ⟨2⟩⟩, "spikes"),
    (⟨⟨1⟩, ⟨2⟩⟩, "spikes"), (⟨⟨1⟩, ⟨0⟩⟩, "rates"), (⟨⟨0⟩, ⟨1⟩⟩, "spikes")] (by decide)

theorem built_crossedLater : Built crossedLater :=
  MachineGraph.built_of_edges 0 0 crossed.vertices.toList [(⟨⟨1⟩, ⟨0⟩⟩, "rates"),
    (⟨⟨0⟩, ⟨1⟩⟩, "spikes"), (⟨⟨1⟩, ⟨2⟩⟩, "spikes"), (⟨⟨0⟩, ⟨2⟩⟩, "spikes")] (by decide)

theorem reordered_crossed : Reordered crossed crossedLater where
  same := ⟨rfl, rfl⟩
  partitions := ⟨[
      ⟨⟨1⟩, "rates", .multicast, [⟨⟨1⟩, ⟨0⟩⟩], some 0⟩,
      ⟨⟨0⟩, "spikes", .multicast, [⟨⟨0⟩, ⟨2⟩⟩, ⟨⟨0⟩, ⟨1⟩⟩], some 0⟩,
      ⟨⟨1⟩, "spikes", .multicast, [⟨⟨1⟩, ⟨2⟩⟩], some 0⟩], by decide,
    .cons ⟨rfl, rfl, by decide⟩ (.cons ⟨rfl, rfl, by decide⟩ (.cons ⟨rfl, rfl, by decide⟩ .nil))⟩

def crossedPlacements : Placements :=
  ⟨[⟨⟨0⟩, ⟨0, 0⟩, 1⟩, ⟨⟨1⟩, ⟨1, 0⟩, 1⟩, ⟨⟨2⟩, ⟨1, 1⟩, 1⟩], by decide, by decide⟩

def crossedRoutes (router : Router) : Outcome (Machine × PathTable) := do
  let m ← Machine.ofSpec { width := 2, height := 2 }
  return (m, ← routeAll router m crossed crossedPlacements)

theorem routeAll_reordered_crossed : Built crossed ∧ Built crossedLater ∧
    Reordered crossed crossedLater ∧ ∀ router ∈ [Router.steiner, .cheapest (.fresh {})],
      router.Unweighted ∧ ∃ m paths, Machine.ofSpec { width := 2, height := 2 } = .ok m ∧
        routeAll router m crossed crossedPlacements = .ok paths ∧
        routeAll router m crossedLater crossedPlacements = .ok paths := by
  refine ⟨built_crossed, built_crossedLater, reordered_crossed, fun router hrouter => ?_⟩
  have h : router.Unweighted ∧ (crossedRoutes router).isOk = true := by
    rcases List.mem_cons.1 hrouter with rfl | hrouter
    · exact ⟨.steiner, by decide +kernel⟩
    · cases List.mem_singleton.1 hrouter
      exact ⟨.cheapest ⟨by decide +kernel, by decide +kernel⟩, by decide +kernel⟩
  obtain ⟨⟨m, paths⟩, hrun⟩ := exists_of_isOk h.2
  obtain ⟨_, hm, hrun⟩ := bind_eq_ok.1 hrun
  obtain ⟨_, hpaths, hreturn⟩ := bind_eq_ok.1 hrun
  cases pure_eq_ok.1 hreturn
  exact ⟨h.1, m, paths, lift_eq_ok.1 hm, hpaths,
    (routeAll_reordered built_crossed reordered_crossed h.1 paths).1 hpaths⟩

end MulticastMesh.Routing
