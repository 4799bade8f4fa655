import MulticastMesh.Proofs.Mesh.Machines
import MulticastMesh.Proofs.Routing.Heaps
import MulticastMesh.Proofs.Routing.Trees
import MulticastMesh.Routing.Cheapest
/-!
# Trees of cheapest paths

Whatever the prices are, a chip is settled after the chip that it is reached from, and keeps its
way back from then on.  So the settled chips form a tree.
-/

namespace MulticastMesh.Routing

open Mesh (Coord Link Machine MachineSpec)
open Outcome

namespace Cheapest

variable {d : MachineSpec} {m : Machine} {r : Router} {paths : PathTable} {source : Coord}
  {destinations : List Coord} {s s' : Search} {item : Waiting} {l : Link} {fuel : Nat}

/-- Settled chips are reached from chips settled before them. -/
structure Searching (m : Machine) (source : Coord) (destinations : List Coord) (s : Search) :
    Prop where
  link : ∀ (chip previous : Coord) (l : Link), s.cameFrom[chip]? = some (previous, l) →
    m.linkTarget? previous l = some chip ∧ previous ∈ s.settled
  root : s.cameFrom[source]? = none
  start : source ∈ s.settled ∨ ∀ item ∈ s.queue.elements, item.chip = source
  queued : ∀ item ∈ s.queue.elements,
    item.chip = source ∨ ∃ step, s.cameFrom[item.chip]? = some step
  settled : ∀ chip ∈ s.settled, chip = source ∨ ∃ step, s.cameFrom[chip]? = some step
  remaining : ∀ chip ∈ destinations, chip ∈ s.remaining ∨ chip ∈ s.settled
  rank : ∃ (rank : Coord → Nat) (n : Nat), (∀ chip ∈ s.settled, rank chip < n) ∧
    ∀ chip ∈ s.settled, ∀ (previous : Coord) (l : Link),
      s.cameFrom[chip]? = some (previous, l) → rank previous < rank chip

theorem searching_ofSource : Searching m source destinations (.ofSource source destinations) where
  link := by simp [Search.ofSource]
  root := by simp [Search.ofSource]
  start := by
    refine Or.inr fun item hitem => ?_
    rcases Heap.mem_push.1 hitem with hitem | rfl
    · simp [Heap.empty] at hitem
    · rfl
  queued := by
    intro item hitem
    rcases Heap.mem_push.1 hitem with hitem | rfl
    · simp [Heap.empty] at hitem
    · exact Or.inl rfl
  settled := by simp [Search.ofSource]
  remaining := fun _ hchip => Or.inl hchip
  rank := ⟨fun _ => 0, 0, by simp [Search.ofSource], by simp [Search.ofSource]⟩

theorem Searching.improve (h : Searching m source destinations s) (hsource : source ∈ s.settled)
    {chip neighbour : Coord} (hchip : chip ∈ s.settled)
    (hlink : m.linkTarget? chip l = some neighbour) (hnew : neighbour ∉ s.settled) (cost : Float) :
    Searching m source destinations { s with
      costs := s.costs.insert neighbour cost
      cameFrom := s.cameFrom.insert neighbour (chip, l)
      queue := s.queue.push Waiting.atMost ⟨cost, neighbour⟩ } := by
  have hfound : ∀ c : Coord, (s.cameFrom.insert neighbour (chip, l))[c]? =
      if neighbour = c then some (chip, l) else s.cameFrom[c]? :=
    fun _ => Maps.getElem?_insert_eq_ite
  have hkept : ∀ c : Coord, (∃ step, s.cameFrom[c]? = some step) →
      ∃ step, (s.cameFrom.insert neighbour (chip, l))[c]? = some step := by
    intro c hc
    rw [hfound]
    split
    · exact ⟨_, rfl⟩
    · exact hc
  have hsame : ∀ c ∈ s.settled,
      (s.cameFrom.insert neighbour (chip, l))[c]? = s.cameFrom[c]? := by
    intro c hc
    rw [hfound, if_neg]
    rintro rfl
    exact hnew hc
  refine ⟨?_, ?_, Or.inl hsource, ?_, ?_, h.remaining, ?_⟩
  · intro c previous l' hc
    rw [hfound] at hc
    split at hc
    · next heq =>
        cases heq
        cases hc
        exact ⟨hlink, hchip⟩
    · exact h.link c previous l' hc
  · rw [hsame source hsource]
    exact h.root
  · intro item hitem
    rcases Heap.mem_push.1 hitem with hitem | rfl
    · rcases h.queued item hitem with heq | hstep
      · exact Or.inl heq
      · exact Or.inr (hkept _ hstep)
    · refine Or.inr ⟨(chip, l), ?_⟩
      rw [hfound, if_pos rfl]
  · intro c hc
    rcases h.settled c hc with heq | hstep
    · exact Or.inl heq
    · exact Or.inr (hkept c hstep)
  · obtain ⟨rank, n, hbound, hless⟩ := h.rank
    refine ⟨rank, n, hbound, fun c hc previous l' hstep => ?_⟩
    rw [hsame c hc] at hstep
    exact hless c hc previous l' hstep

theorem relax_spec (h : Searching m source destinations s) (hsource : source ∈ s.settled)
    (hitem : item.chip ∈ s.settled) (hrun : r.relax m paths item s l = .ok s') :
    Searching m source destinations s' ∧ s'.settled = s.settled := by
  unfold Router.relax at hrun
  split at hrun
  · cases pure_eq_ok.1 hrun
    exact ⟨h, rfl⟩
  · next neighbour hlink =>
      simp only at hrun
      split at hrun
      · cases pure_eq_ok.1 hrun
        exact ⟨h, rfl⟩
      · next hnew =>
          obtain ⟨price, _, hrun⟩ := bind_eq_ok.1 hrun
          split at hrun
          · cases pure_eq_ok.1 hrun
            refine ⟨h.improve hsource hitem hlink ?_ _, rfl⟩
            rwa [Std.ExtTreeSet.mem_iff_contains]
          · cases pure_eq_ok.1 hrun
            exact ⟨h, rfl⟩

theorem Searching.settleNext (h : Searching m source destinations s) {queue : Heap Waiting}
    (hpop : s.queue.pop? Waiting.atMost = some (item, queue)) :
    Searching m source destinations { s with
        queue
        settled := s.settled.insert item.chip
        remaining := s.remaining.erase item.chip } ∧
      source ∈ s.settled.insert item.chip := by
  obtain ⟨hitem, hqueue⟩ := Heap.mem_of_pop? hpop
  have hmem : ∀ c : Coord, c ∈ s.settled.insert item.chip ↔ item.chip = c ∨ c ∈ s.settled := by
    intro c
    rw [Std.ExtTreeSet.mem_insert, Std.LawfulEqCmp.compare_eq_iff_eq]
  have hsource : source ∈ s.settled.insert item.chip := by
    rw [hmem]
    rcases h.start with hstart | hstart
    · exact Or.inr hstart
    · exact Or.inl (hstart item hitem)
  refine ⟨⟨?_, h.root, Or.inl hsource, fun item' hitem' => h.queued item' (hqueue item' hitem'),
    ?_, ?_, ?_⟩, hsource⟩
  · intro chip previous l hstep
    obtain ⟨hlink, hprevious⟩ := h.link chip previous l hstep
    exact ⟨hlink, (hmem previous).2 (Or.inr hprevious)⟩
  · intro chip hchip
    rcases (hmem chip).1 hchip with rfl | hchip
    · exact h.queued item hitem
    · exact h.settled chip hchip
  · intro chip hchip
    by_cases heq : item.chip = chip
    · exact Or.inr ((hmem chip).2 (Or.inl heq))
    · rcases h.remaining chip hchip with hremaining | hsettled
      · exact Or.inl ((List.mem_erase_of_ne (Ne.symm heq)).2 hremaining)
      · exact Or.inr ((hmem chip).2 (Or.inr hsettled))
  · -- the new chip gets the highest rank
    obtain ⟨rank, n, hbound, hless⟩ := h.rank
    have hrank : ∀ c ∈ s.settled, (if c ∈ s.settled then rank c else n) = rank c :=
      fun c hc => if_pos hc
    refine ⟨fun c => if c ∈ s.settled then rank c else n, n + 1, ?_, ?_⟩
    · intro chip _
      simp only
      split
      · next hc =>
          have := hbound chip hc
          omega
      · omega
    · intro chip hchip previous l hstep
      have hprevious := (h.link chip previous l hstep).2
      simp only [hrank previous hprevious]
      split
      · next hc => exact hless chip hc previous l hstep
      · exact hbound previous hprevious

theorem settle_spec (h : Searching m source destinations s)
    (hrun : r.settle m paths fuel s = .ok s') : Searching m source destinations s' := by
  induction fuel generalizing s with
  | zero =>
      cases hrun
      exact h
  | succ fuel ih =>
      unfold Router.settle at hrun
      split at hrun
      · cases hrun
        exact h
      · split at hrun
        · cases hrun
          exact h
        · next item queue hpop =>
            obtain ⟨hnext, hsource⟩ := h.settleNext hpop
            split at hrun
            · obtain ⟨_, hqueue⟩ := Heap.mem_of_pop? hpop
              refine ih (s := { s with queue })
                ⟨h.link, h.root, ?_, ?_, h.settled, h.remaining, h.rank⟩ hrun
              · rcases h.start with hstart | hstart
                · exact Or.inl hstart
                · exact Or.inr fun item' hitem' => hstart item' (hqueue item' hitem')
              · exact fun item' hitem' => h.queued item' (hqueue item' hitem')
            · obtain ⟨t, ht, hrest⟩ := bind_eq_ok.1 hrun
              have hfold := foldlM_invariant
                (P := fun t : Search => Searching m source destinations t ∧
                  t.settled = s.settled.insert item.chip) ht ⟨hnext, rfl⟩ ?_
              · exact ih hfold.1 hrest
              · rintro l _ t₁ t₂ ⟨ht₁, hsettled⟩ hrelax
                obtain ⟨ht₂, hsame⟩ := relax_spec ht₁ (hsettled ▸ hsource)
                  (hsettled ▸ Std.ExtTreeSet.mem_insert_self) hrelax
                exact ⟨ht₂, hsame.trans hsettled⟩

theorem tree_spec {t : Tree} (hrun : r.tree m source destinations paths = .ok t) :
    t.source = source ∧ t.Sound m ∧ ∀ chip ∈ destinations, t.contains chip = true := by
  obtain ⟨_, _, hrun⟩ := bind_eq_ok.1 hrun
  obtain ⟨s, hs, hrun⟩ := bind_eq_ok.1 hrun
  have h := settle_spec searching_ofSource hs
  split at hrun
  · cases hrun
  · next hremaining =>
      cases pure_eq_ok.1 hrun
      have hfound : ∀ (c : Coord) (step : LinkFrom),
          (s.cameFrom.filter fun chip _ => s.settled.contains chip)[c]? = some step ↔
            s.cameFrom[c]? = some step ∧ c ∈ s.settled := by
        intro c step
        rw [Std.ExtTreeMap.getElem?_filter', Option.filter_eq_some_iff,
          Std.ExtTreeSet.mem_iff_contains]
      have hcontains : ∀ c ∈ s.settled, Tree.contains
          ⟨source, s.cameFrom.filter fun chip _ => s.settled.contains chip⟩ c = true := by
        intro c hc
        rw [Tree.contains_iff]
        rcases h.settled c hc with heq | ⟨step, hstep⟩
        · exact Or.inl heq
        · exact Or.inr ⟨step, (hfound c step).2 ⟨hstep, hc⟩⟩
      refine ⟨rfl, ⟨?_, ?_, ?_, ?_⟩, ?_⟩
      · rw [Std.ExtTreeMap.getElem?_filter', h.root]
        rfl
      · intro chip previous l hstep
        exact (h.link chip previous l ((hfound _ _).1 hstep).1).1
      · intro chip previous l hstep
        exact hcontains previous (h.link chip previous l ((hfound _ _).1 hstep).1).2
      · obtain ⟨rank, _, _, hless⟩ := h.rank
        refine ⟨rank, fun chip previous l hstep => ?_⟩
        obtain ⟨hstep, hsettled⟩ := (hfound _ _).1 hstep
        exact hless chip hsettled previous l hstep
      · intro chip hchip
        apply hcontains
        rcases h.remaining chip hchip with hmem | hsettled
        · rw [hremaining] at hmem
          cases hmem
        · exact hsettled

/-! ## Failures -/

theorem exists_chip {c : Coord} (h : (m.chip? c).isSome) : ∃ chip, m.chip c = .ok chip := by
  obtain ⟨chip, hchip⟩ := Option.isSome_iff_exists.1 h
  exact ⟨chip, by unfold Machine.chip; rw [hchip]⟩

theorem price_fails (hm : Machine.Fulfils d m) {c target : Coord}
    (hlink : m.linkTarget? c l = some target) :
    FailsOnly IsRoutingLimit (r.price m paths (c, l) target) := by
  obtain ⟨chip, hchip⟩ := exists_chip (hm.linkTarget?_eq_some hlink).2
  -- the load is charged on top of either price
  have hload : ∀ price : Float, FailsOnly IsRoutingLimit (if (r.pricing.load != 0.0) = true then
      pure (price + r.pricing.load * (1.0 / r.bandwidth (c, l) - 1.0 / r.pricing.maxBandwidth))
    else pure price) := by
    intro price
    split
    · exact FailsOnly.pure _
    · exact FailsOnly.pure _
  unfold Router.price
  simp only
  split
  · refine FailsOnly.bind (FailsOnly.of_eq_ok (lift_eq_ok.2 hchip)) fun chip _ => ?_
    split
    · exact FailsOnly.bind (FailsOnly.error (IsRoutingLimit.entriesExhausted target))
        fun _ _ => (FailsOnly.pure _).bind fun price _ => hload price
    · exact (FailsOnly.pure _).bind fun price _ => hload price
  · exact (FailsOnly.pure _).bind fun price _ => hload price

theorem relax_fails (hm : Machine.Fulfils d m) :
    FailsOnly IsRoutingLimit (r.relax m paths item s l) := by
  unfold Router.relax
  split
  · exact FailsOnly.pure _
  · next neighbour hlink =>
      simp only
      split
      · exact FailsOnly.pure _
      · refine (price_fails hm hlink).bind fun price _ => ?_
        split
        · exact FailsOnly.pure _
        · exact FailsOnly.pure _

theorem settle_fails (hm : Machine.Fulfils d m) :
    FailsOnly IsRoutingLimit (r.settle m paths fuel s) := by
  induction fuel generalizing s with
  | zero => exact FailsOnly.ok s
  | succ fuel ih =>
      unfold Router.settle
      split
      · exact FailsOnly.ok s
      · split
        · exact FailsOnly.ok s
        · split
          · exact ih
          · refine FailsOnly.bind ?_ fun _ _ => ih
            exact FailsOnly.foldlM (motive := fun _ _ => True) trivial
              fun _ _ _ _ _ _ => ⟨relax_fails hm, fun _ _ => trivial⟩

theorem tree_fails (hm : Machine.Fulfils d m) (hsource : (m.chip? source).isSome) :
    FailsOnly IsRoutingLimit (r.tree m source destinations paths) := by
  obtain ⟨chip, hchip⟩ := exists_chip hsource
  refine FailsOnly.bind (FailsOnly.of_eq_ok (lift_eq_ok.2 hchip)) fun _ _ => ?_
  refine (settle_fails hm).bind fun s _ => ?_
  split
  · exact FailsOnly.error (IsRoutingLimit.unreachable _ _)
  · exact FailsOnly.pure _

end Cheapest

end MulticastMesh.Routing
