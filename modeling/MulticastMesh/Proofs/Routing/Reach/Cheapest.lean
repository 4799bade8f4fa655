import Mathlib.Data.List.Nodup
import MulticastMesh.Proofs.Routing.Cheapest
import MulticastMesh.Proofs.Routing.Reach.Basic
/-!
# Cheapest paths reach what is within reach

Costs decide in which order chips are settled, but not which ones: a chip that a link leads to from
a settled one is settled or waiting, whatever the costs are.  The search never runs out of fuel,
because a settled chip makes at most six others wait.
-/

namespace MulticastMesh.Routing.Cheapest

open Mesh (Coord Link Machine MachineSpec)
open Outcome

variable {d : MachineSpec} {m : Machine} {r : Router} (paths : PathTable) {source chip c : Coord}
  {destinations : List Coord} {s s' : Search} {item : Waiting} {l : Link} {fuel : Nat}

theorem exists_price (hr : (r.pricing.scarcity == 0.0) = true) (link : LinkFrom) (target : Coord) :
    ∃ price, r.price m paths link target = .ok price := by
  have hscarcity : ¬(r.pricing.scarcity != 0.0) = true := by simp [bne, hr]
  unfold Router.price
  simp only
  rw [if_neg hscarcity]
  by_cases hload : (r.pricing.load != 0.0) = true
  · exact ⟨_, if_pos hload⟩
  · exact ⟨_, if_neg hload⟩

def Awaited (s : Search) (c : Coord) : Prop :=
  c ∈ s.settled ∨ ∃ item ∈ s.queue.elements, item.chip = c

def Known (s : Search) : Prop := ∀ (c : Coord) cost, s.costs[c]? = some cost → Awaited s c

structure Relaxed (m : Machine) (source chip : Coord) (links : List Link) (s s' : Search) :
    Prop where
  settled_eq : s'.settled = s.settled
  remaining_eq : s'.remaining = s.remaining
  awaited : ∀ c, Awaited s c → Awaited s' c
  inReach : (∀ item ∈ s.queue.elements, InReach m source item.chip) →
    ∀ item ∈ s'.queue.elements, InReach m source item.chip
  targets : ∀ l ∈ links, ∀ next, m.linkTarget? chip l = some next → Awaited s' next
  size_le : s'.queue.size ≤ s.queue.size + links.length

theorem relaxed_nil : Relaxed m source chip [] s s :=
  ⟨rfl, rfl, fun _ h => h, fun h => h, by simp, Nat.le_refl _⟩

/-- A link that changes nothing leads to no chip, or to one that is settled or waiting. -/
theorem relaxed_same (h : ∀ next, m.linkTarget? chip l = some next → Awaited s next) :
    Relaxed m source chip [l] s s :=
  ⟨rfl, rfl, fun _ h => h, fun h => h, by simpa using h, Nat.le_succ _⟩

theorem Relaxed.trans {links links' : List Link} {s'' : Search}
    (h : Relaxed m source chip links s s') (h' : Relaxed m source chip links' s' s'') :
    Relaxed m source chip (links ++ links') s s'' where
  settled_eq := h'.settled_eq.trans h.settled_eq
  remaining_eq := h'.remaining_eq.trans h.remaining_eq
  awaited := fun c hc => h'.awaited c (h.awaited c hc)
  inReach := fun hqueue => h'.inReach (h.inReach hqueue)
  targets := by
    intro l hl next hlink
    rcases List.mem_append.1 hl with hl | hl
    · exact h'.awaited next (h.targets l hl next hlink)
    · exact h'.targets l hl next hlink
  size_le := by
    have hsize := h.size_le
    have hsize' := h'.size_le
    rw [List.length_append]
    omega

theorem awaited_push {cost : Float} {costs : Std.ExtTreeMap Coord Float compare}
    {cameFrom : Std.ExtTreeMap Coord LinkFrom compare} {next : Coord} :
    Awaited { s with costs, cameFrom, queue := s.queue.push Waiting.atMost ⟨cost, next⟩ } c ↔
      c = next ∨ Awaited s c := by
  unfold Awaited
  simp only [Heap.mem_push]
  constructor
  · rintro (hc | ⟨item, hitem | rfl, rfl⟩)
    · exact .inr (.inl hc)
    · exact .inr (.inr ⟨item, hitem, rfl⟩)
    · exact .inl rfl
  · rintro (rfl | hc | ⟨item, hitem, rfl⟩)
    · exact .inr ⟨_, .inr rfl, rfl⟩
    · exact .inl hc
    · exact .inr ⟨item, .inl hitem, rfl⟩

theorem relax_relaxed (hr : (r.pricing.scarcity == 0.0) = true) (hknown : Known s)
    (hitem : InReach m source item.chip) (l : Link) :
    ∃ s', r.relax m paths item s l = .ok s' ∧ Relaxed m source item.chip [l] s s' ∧ Known s' := by
  unfold Router.relax
  split
  · next hnone => exact ⟨s, rfl, relaxed_same (by simp [hnone]), hknown⟩
  · next next hlink =>
      have honly : ∀ {P : Coord → Prop}, P next →
          ∀ next', m.linkTarget? item.chip l = some next' → P next' := by
        intro P hP next' hlink'
        cases hlink.symm.trans hlink'
        exact hP
      simp only
      split
      · next hsettled =>
          exact ⟨s, rfl, relaxed_same (honly (.inl (Std.ExtTreeSet.mem_iff_contains.2 hsettled))),
            hknown⟩
      · obtain ⟨price, hprice⟩ := exists_price (m := m) paths hr (item.chip, l) next
        rw [hprice, ok_bind]
        split
        · refine ⟨_, rfl, ⟨rfl, rfl, fun c hc => awaited_push.2 (.inr hc), ?_, ?_, ?_⟩, ?_⟩
          · intro hqueue item' hitem'
            rcases Heap.mem_push.1 hitem' with hitem' | rfl
            · exact hqueue item' hitem'
            · exact hitem.step hlink
          · intro l' hl'
            rw [List.mem_singleton.1 hl']
            exact honly (awaited_push.2 (.inl rfl))
          · exact Nat.le_of_eq Heap.size_push
          · intro c cost hcost
            rw [Maps.getElem?_insert_eq_ite] at hcost
            split at hcost
            · next heq => exact awaited_push.2 (.inl heq.symm)
            · exact awaited_push.2 (.inr (hknown c cost hcost))
        · next hcost =>
            -- the chip has a cost already
            cases hold : s.costs[next]? with
            | none => simp [hold] at hcost
            | some cost => exact ⟨s, rfl, relaxed_same (honly (hknown next cost hold)), hknown⟩

theorem foldlM_relaxed (hr : (r.pricing.scarcity == 0.0) = true)
    (hitem : InReach m source item.chip) (links : List Link) (hknown : Known s) :
    ∃ s', links.foldlM (r.relax m paths item) s = .ok s' ∧
      Relaxed m source item.chip links s s' ∧ Known s' := by
  induction links generalizing s with
  | nil => exact ⟨s, rfl, relaxed_nil, hknown⟩
  | cons l rest ih =>
      obtain ⟨s₁, hrelax, h₁, hknown₁⟩ := relax_relaxed paths hr hknown hitem l
      obtain ⟨s₂, hrest, h₂, hknown₂⟩ := ih hknown₁
      exact ⟨s₂, by rw [List.foldlM_cons, hrelax, ok_bind, hrest], h₁.trans h₂, hknown₂⟩

/-! ## Settling -/

/-- A search that has seen all chips that links lead to from settled ones. -/
structure Exploring (m : Machine) (source : Coord) (destinations : List Coord) (s : Search) :
    Prop where
  settled : ∀ c ∈ s.settled, InReach m source c
  queued : ∀ item ∈ s.queue.elements, InReach m source item.chip
  start : Awaited s source
  known : Known s
  done : ∀ c ∈ s.settled, ∀ l next, m.linkTarget? c l = some next → Awaited s next
  remaining_eq : s.remaining = destinations.filter fun c => !s.settled.contains c

theorem exploring_ofSource : Exploring m source destinations (.ofSource source destinations) := by
  have hqueue : ∀ item ∈ (Search.ofSource source destinations).queue.elements,
      item.chip = source := by
    intro item hitem
    rcases Heap.mem_push.1 hitem with hitem | rfl
    · simp [Heap.empty] at hitem
    · rfl
  have hstart : Awaited (.ofSource source destinations) source :=
    .inr ⟨⟨0.0, source⟩, Heap.mem_push.2 (.inr rfl), rfl⟩
  refine ⟨by simp [Search.ofSource], fun item hitem => hqueue item hitem ▸ .refl, hstart, ?_,
    by simp [Search.ofSource], by simp [Search.ofSource]⟩
  intro c cost hcost
  unfold Search.ofSource at hcost
  simp only [Maps.getElem?_insert_eq_ite] at hcost
  split at hcost
  · next heq => exact heq ▸ hstart
  · simp at hcost

/-- There are no more settled chips than working ones. -/
theorem Exploring.size_le (h : Exploring m source destinations s) (hm : Machine.Fulfils d m)
    (hsource : (m.chip? source).isSome) : s.settled.size ≤ m.chipCount := by
  rw [← Std.ExtTreeSet.length_toList]
  refine hm.length_le_chipCount ?_ fun c hc =>
    (h.settled c (Std.ExtTreeSet.mem_toList.1 hc)).isSome_chip? hm hsource
  exact Std.ExtTreeSet.distinct_toList.imp fun hne heq => hne (by simp [heq])

theorem Awaited.pop {queue : Heap Waiting} (h : Awaited s c)
    (hpop : s.queue.pop? Waiting.atMost = some (item, queue)) :
    c = item.chip ∨ Awaited { s with queue } c := by
  rcases h with hsettled | ⟨item', hitem', rfl⟩
  · exact .inr (.inl hsettled)
  · rcases (Heap.mem_pop? hpop).1 hitem' with rfl | hleft
    · exact .inl rfl
    · exact .inr (.inr ⟨item', hleft, rfl⟩)

/-- Taking a settled chip from the queue loses nothing. -/
theorem Exploring.skip (h : Exploring m source destinations s) {queue : Heap Waiting}
    (hpop : s.queue.pop? Waiting.atMost = some (item, queue)) (hsettled : item.chip ∈ s.settled) :
    Exploring m source destinations { s with queue } := by
  have hawaited : ∀ c, Awaited s c → Awaited { s with queue } c := by
    intro c hc
    rcases hc.pop hpop with rfl | hc
    · exact .inl hsettled
    · exact hc
  exact ⟨h.settled, fun item' hitem' => h.queued item' ((Heap.mem_of_pop? hpop).2 item' hitem'),
    hawaited _ h.start, fun c cost hcost => hawaited c (h.known c cost hcost),
    fun c hc l next hlink => hawaited next (h.done c hc l next hlink), h.remaining_eq⟩

def settling (s : Search) (queue : Heap Waiting) (chip : Coord) : Search :=
  { s with queue, settled := s.settled.insert chip, remaining := s.remaining.erase chip }

theorem mem_settling {queue : Heap Waiting} :
    c ∈ (settling s queue chip).settled ↔ c = chip ∨ c ∈ s.settled := by
  unfold settling
  rw [Std.ExtTreeSet.mem_insert, Std.LawfulEqCmp.compare_eq_iff_eq, eq_comm]

theorem size_settling {queue : Heap Waiting} (hnew : chip ∉ s.settled) :
    (settling s queue chip).settled.size = s.settled.size + 1 := by
  unfold settling
  rw [Std.ExtTreeSet.size_insert]
  exact if_neg hnew

theorem Awaited.settling {queue : Heap Waiting} (h : Awaited s c)
    (hpop : s.queue.pop? Waiting.atMost = some (item, queue)) :
    Awaited (settling s queue item.chip) c := by
  rcases h.pop hpop with rfl | hsettled | hqueued
  · exact .inl (mem_settling.2 (.inl rfl))
  · exact .inl (mem_settling.2 (.inr hsettled))
  · exact .inr hqueued

theorem Exploring.settle (h : Exploring m source destinations s) {queue : Heap Waiting}
    (hnodup : destinations.Nodup)
    (hpop : s.queue.pop? Waiting.atMost = some (item, queue))
    (hrelaxed : Relaxed m source item.chip Link.all (settling s queue item.chip) s')
    (hknown : Known s') : Exploring m source destinations s' := by
  obtain ⟨hitem, hqueue⟩ := Heap.mem_of_pop? hpop
  have hawaited : ∀ c, Awaited s c → Awaited s' c :=
    fun c hc => hrelaxed.awaited c (hc.settling hpop)
  refine ⟨?_, hrelaxed.inReach fun item' hitem' => h.queued item' (hqueue item' hitem'),
    hawaited _ h.start, hknown, ?_, ?_⟩
  · intro c hc
    rw [hrelaxed.settled_eq] at hc
    rcases mem_settling.1 hc with rfl | hc
    · exact h.queued item hitem
    · exact h.settled c hc
  · intro c hc l next hlink
    rw [hrelaxed.settled_eq] at hc
    rcases mem_settling.1 hc with rfl | hc
    · exact hrelaxed.targets l (Link.mem_all l) next hlink
    · exact hawaited next (h.done c hc l next hlink)
  · rw [hrelaxed.settled_eq, hrelaxed.remaining_eq]
    change s.remaining.erase item.chip = _
    rw [h.remaining_eq, (hnodup.filter _).erase_eq_filter, List.filter_filter]
    apply List.filter_congr
    intro c _
    rw [Bool.eq_iff_iff]
    simp only [Bool.and_eq_true, bne_iff_ne, ne_eq, Bool.not_eq_true', ← Bool.not_eq_true,
      ← Std.ExtTreeSet.mem_iff_contains, mem_settling, not_or]

theorem settle_explores (hm : Machine.Fulfils d m) (hsource : (m.chip? source).isSome)
    (hr : (r.pricing.scarcity == 0.0) = true) (hnodup : destinations.Nodup)
    (h : Exploring m source destinations s)
    (hfuel : s.queue.size + 6 * (m.chipCount - s.settled.size) < fuel) :
    ∃ s', r.settle m paths fuel s = .ok s' ∧ Exploring m source destinations s' ∧
      (s'.remaining = [] ∨ s'.queue.elements.toList = []) := by
  induction fuel generalizing s with
  | zero => exact absurd hfuel (Nat.not_lt_zero _)
  | succ fuel ih =>
      unfold Router.settle
      split
      · next hempty => exact ⟨s, rfl, h, .inl (List.isEmpty_iff.1 hempty)⟩
      · split
        · next hnone => exact ⟨s, rfl, h, .inr (Heap.pop?_eq_none_iff.1 hnone)⟩
        · next item queue hpop =>
            have hsize := Heap.size_pop? hpop
            split
            · next hsettled =>
                rw [← Std.ExtTreeSet.mem_iff_contains] at hsettled
                exact ih (h.skip hpop hsettled) (by simp only; omega)
            · next hnew =>
                have hitem := h.queued item (Heap.mem_of_pop? hpop).1
                have hknown : Known (settling s queue item.chip) :=
                  fun c cost hcost => (h.known c cost hcost).settling hpop
                obtain ⟨s₁, hrun, hrelaxed, hknown₁⟩ :=
                  foldlM_relaxed paths hr hitem Link.all hknown
                have h₁ := h.settle hnodup hpop hrelaxed hknown₁
                have hle := h₁.size_le hm hsource
                have hgrown : s₁.settled.size = s.settled.size + 1 := by
                  rw [hrelaxed.settled_eq]
                  exact size_settling (by simpa using hnew)
                have hqueue := hrelaxed.size_le
                change s₁.queue.size ≤ queue.size + 6 at hqueue
                obtain ⟨s₂, hrest, h₂⟩ := ih h₁ (by omega)
                refine ⟨s₂, ?_, h₂⟩
                change (Link.all.foldlM (r.relax m paths item) (settling s queue item.chip) >>=
                  _) = _
                rw [hrun, ok_bind, hrest]

theorem Exploring.mem_settled (h : Exploring m source destinations s)
    (hempty : s.queue.elements.toList = []) (hreach : InReach m source c) : c ∈ s.settled := by
  have hsettled : ∀ c, Awaited s c → c ∈ s.settled := by
    rintro c (hsettled | ⟨item, hitem, -⟩)
    · exact hsettled
    · rw [← Array.mem_toList_iff, hempty] at hitem
      cases hitem
  exact hreach.induction (hsettled source h.start)
    fun a b l ha hlink => hsettled b (h.done a ha l b hlink)

/-- The search for cheapest paths decides whether all destinations are within reach, unless a price
is set on scarcity. -/
theorem tree_decides (hm : Machine.Fulfils d m) (hsource : (m.chip? source).isSome)
    (hr : (r.pricing.scarcity == 0.0) = true)
    (hsorted : destinations.Pairwise fun a b => compare a b = .lt) :
    Decides m source destinations (r.tree m source destinations paths) := by
  have hnodup : destinations.Nodup := hsorted.imp fun hlt heq => by simp [heq] at hlt
  obtain ⟨chip, hchip⟩ := exists_chip hsource
  have hfuel : (Search.ofSource source destinations).queue.size +
      6 * (m.chipCount - (Search.ofSource source destinations).settled.size) <
        6 * m.chipCount + 2 := by
    have hsize : (Search.ofSource source destinations).queue.size = 1 := Heap.size_push
    omega
  obtain ⟨s, hrun, h, hend⟩ :=
    settle_explores paths hm hsource hr hnodup exploring_ofSource hfuel
  have hout : ∀ c ∈ s.remaining, ¬InReach m source c := by
    intro c hc hreach
    rcases hend with hnone | hempty
    · simp [hnone] at hc
    · have hsettled := h.mem_settled hempty hreach
      rw [h.remaining_eq, List.mem_filter] at hc
      rw [Std.ExtTreeSet.mem_iff_contains] at hsettled
      simp [hsettled] at hc
  have hin : ∀ c ∈ destinations, (!s.settled.contains c) = false → InReach m source c :=
    fun c _ hc => h.settled c (Std.ExtTreeSet.mem_iff_contains.2 (by simpa using hc))
  unfold Router.tree
  rw [hchip]
  change Decides m source destinations (r.settle m paths (6 * m.chipCount + 2) _ >>= _)
  rw [hrun, ok_bind]
  cases hremaining : s.remaining with
  | nil =>
      refine ⟨fun _ _ c hc => hin c hc ?_, nofun⟩
      have hfilter := h.remaining_eq.symm.trans hremaining
      rw [List.filter_eq_nil_iff] at hfilter
      simpa using hfilter c hc
  | cons first rest =>
      refine ⟨nofun, fun f hf => ?_⟩
      cases hf
      exact ⟨first, rfl, firstOut_of_cons hsorted (h.remaining_eq.symm.trans hremaining) hin
        (hout first (hremaining ▸ List.mem_cons_self))⟩

end MulticastMesh.Routing.Cheapest
