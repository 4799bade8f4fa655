import MulticastMesh.Proofs.Routing.Reach.Basic
import MulticastMesh.Proofs.Routing.Steiner
/-!
# Grafting reaches what is within reach

A breadth-first search that ends without a pending chip has seen everything within reach.  It never
runs out of fuel: every chip it takes from the queue was either a seed or is seen for the first
time.
-/

namespace MulticastMesh.Routing.Steiner

open Mesh (Chip Coord Link Machine MachineSpec)
open Outcome

variable {d : MachineSpec} {m : Machine} {t : Tree} {reached : Reached}
  {seeds seen seen' queue queue' pending destinations : List Coord} {chip next : Coord} {fuel : Nat}

def unseen (m : Machine) (seen : List Coord) : Nat :=
  ((m.workingChips.map Chip.coord).filter fun c => !seen.contains c).length

theorem unseen_le (m : Machine) (seen : List Coord) : unseen m seen ≤ m.chipCount := by
  refine (List.length_filter_le _ _).trans ?_
  rw [List.length_map]
  rfl

theorem unseen_cons_lt (hm : Machine.Fulfils d m) (hnext : (m.chip? next).isSome)
    (hnew : next ∉ seen) : unseen m (next :: seen) < unseen m seen := by
  unfold unseen
  have hfilter : ((m.workingChips.map Chip.coord).filter fun c => !(next :: seen).contains c) =
      ((m.workingChips.map Chip.coord).filter fun c => !seen.contains c).filter
        fun c => c != next := by
    rw [List.filter_filter]
    apply List.filter_congr
    intro c _
    simp [bne, Bool.beq_eq_decide_eq]
  rw [hfilter, List.length_filter_lt_length_iff_exists]
  exact ⟨next, List.mem_filter.2 ⟨hm.mem_workingChips hnext, by simpa using hnew⟩, by simp⟩

structure Visited (m : Machine) (chip : Coord) (links : List Link)
    (seen queue seen' queue' : List Coord) : Prop where
  kept : ∀ c ∈ seen, c ∈ seen'
  waiting : ∀ c ∈ queue, c ∈ queue'
  new : ∀ c ∈ seen', c ∈ seen ∨ c ∈ queue'
  targets : ∀ l ∈ links, ∀ next, m.linkTarget? chip l = some next → next ∈ seen'
  measure : queue'.length + unseen m seen' ≤ queue.length + unseen m seen

theorem visited_nil : Visited m chip [] seen queue seen queue :=
  ⟨fun _ h => h, fun _ h => h, fun _ h => .inl h, by simp, le_rfl⟩

theorem visit_visited (hm : Machine.Fulfils d m) (chip : Coord) (seen : List Coord)
    (reached : Reached) (queue : List Coord) (l : Link) :
    ∃ seen' reached' queue', visit m chip (seen, reached, queue) l = (seen', reached', queue') ∧
      Visited m chip [l] seen queue seen' queue' := by
  unfold visit
  simp only
  split
  · next hnone =>
      exact ⟨seen, reached, queue, rfl,
        ⟨fun _ h => h, fun _ h => h, fun _ h => .inl h, by simp [hnone], le_rfl⟩⟩
  · next next hlink =>
      split
      · next hold =>
          exact ⟨seen, reached, queue, rfl,
            ⟨fun _ h => h, fun _ h => h, fun _ h => .inl h,
              by simpa [hlink] using hold, le_rfl⟩⟩
      · next hnew =>
          have hlt : unseen m (next :: seen) < unseen m seen :=
            unseen_cons_lt hm (hm.linkTarget?_eq_some hlink).2 (by simpa using hnew)
          refine ⟨_, _, _, rfl, ⟨fun c hc => List.mem_cons_of_mem _ hc,
            fun c hc => List.mem_append_left _ hc, ?_, by simp [hlink], ?_⟩⟩
          · intro c hc
            rcases List.mem_cons.1 hc with rfl | hc
            · exact .inr (by simp)
            · exact .inl hc
          · rw [List.length_append, List.length_singleton]
            omega

theorem Visited.trans {links links' : List Link} {seen'' queue'' : List Coord}
    (h : Visited m chip links seen queue seen' queue')
    (h' : Visited m chip links' seen' queue' seen'' queue'') :
    Visited m chip (links ++ links') seen queue seen'' queue'' where
  kept := fun c hc => h'.kept c (h.kept c hc)
  waiting := fun c hc => h'.waiting c (h.waiting c hc)
  new := by
    intro c hc
    rcases h'.new c hc with hc | hc
    · exact (h.new c hc).imp_right (h'.waiting c)
    · exact .inr hc
  targets := by
    intro l hl next hlink
    rcases List.mem_append.1 hl with hl | hl
    · exact h'.kept next (h.targets l hl next hlink)
    · exact h'.targets l hl next hlink
  measure := h'.measure.trans h.measure

theorem foldl_visit_visited (hm : Machine.Fulfils d m) (chip : Coord) (links : List Link)
    (seen : List Coord) (reached : Reached) (queue : List Coord) :
    ∃ seen' reached' queue', links.foldl (visit m chip) (seen, reached, queue) =
      (seen', reached', queue') ∧ Visited m chip links seen queue seen' queue' := by
  induction links generalizing seen reached queue with
  | nil => exact ⟨seen, reached, queue, rfl, visited_nil⟩
  | cons l rest ih =>
      obtain ⟨seen₁, reached₁, queue₁, hvisit, h₁⟩ :=
        visit_visited hm chip seen reached queue l
      obtain ⟨seen₂, reached₂, queue₂, hrest, h₂⟩ := ih seen₁ reached₁ queue₁
      refine ⟨seen₂, reached₂, queue₂, ?_, h₁.trans h₂⟩
      rw [List.foldl_cons, hvisit, hrest]

/-- All chips that are seen but not queued have been looked at. -/
structure Flooding (m : Machine) (seeds pending seen queue : List Coord) : Prop where
  start : ∀ c ∈ seeds, c ∈ seen
  done : ∀ c ∈ seen, c ∈ queue ∨
    c ∉ pending ∧ ∀ l next, m.linkTarget? c l = some next → next ∈ seen

theorem Flooding.visit (h : Flooding m seeds pending seen (chip :: queue)) (hchip : chip ∉ pending)
    (hvisited : Visited m chip Link.all seen queue seen' queue') :
    Flooding m seeds pending seen' queue' where
  start := fun c hc => hvisited.kept c (h.start c hc)
  done := by
    intro c hc
    rcases hvisited.new c hc with hold | hnew
    · rcases h.done c hold with hqueued | ⟨hfree, hclosed⟩
      · rcases List.mem_cons.1 hqueued with rfl | hqueued
        · exact .inr ⟨hchip, fun l => hvisited.targets l (Link.mem_all l)⟩
        · exact .inl (hvisited.waiting c hqueued)
      · exact .inr ⟨hfree, fun l next hlink => hvisited.kept next (hclosed l next hlink)⟩
    · exact .inl hnew

theorem flooding_of_none (hm : Machine.Fulfils d m) (h : Flooding m seeds pending seen queue)
    (hfuel : queue.length + unseen m seen < fuel)
    (hrun : nearest? m pending fuel seen reached queue = none) :
    ∃ seen', Flooding m seeds pending seen' [] := by
  induction fuel generalizing seen reached queue with
  | zero => exact absurd hfuel (Nat.not_lt_zero _)
  | succ fuel ih =>
      cases queue with
      | nil => exact ⟨seen, h⟩
      | cons chip queue =>
          unfold nearest? at hrun
          split at hrun
          · cases hrun
          · next hpending =>
              obtain ⟨seen₁, reached₁, queue₁, hvisit, h₁⟩ :=
                foldl_visit_visited hm chip Link.all seen reached queue
              rw [hvisit] at hrun
              have hmeasure := h₁.measure
              rw [List.length_cons] at hfuel
              exact ih (h.visit (by simpa using hpending) h₁) (by omega) hrun

theorem not_inReach_of_none (hm : Machine.Fulfils d m)
    (hnone : nearest? m pending (m.chipCount + (t.source :: t.cameFrom.keys).length + 1)
      (t.source :: t.cameFrom.keys) ∅ (t.source :: t.cameFrom.keys) = none) :
    ∀ c ∈ pending, ¬InReach m t.source c := by
  have hstart : Flooding m (t.source :: t.cameFrom.keys) pending (t.source :: t.cameFrom.keys)
      (t.source :: t.cameFrom.keys) := ⟨fun _ h => h, fun _ h => .inl h⟩
  have hunseen := unseen_le m (t.source :: t.cameFrom.keys)
  obtain ⟨seen, hseen⟩ := flooding_of_none hm hstart (by omega) hnone
  have hdone : ∀ c ∈ seen, c ∉ pending ∧ ∀ l next, m.linkTarget? c l = some next → next ∈ seen :=
    fun c hc => (hseen.done c hc).resolve_left List.not_mem_nil
  intro c hc hreach
  have hmem : c ∈ seen := hreach.induction (hseen.start _ List.mem_cons_self)
    fun a b l ha hlink => (hdone a ha).2 l b hlink
  exact (hdone c hmem).1 hc

theorem decides_of_held (ht : t.Sound m)
    (hheld : (destinations.filter fun c => !t.contains c) = []) :
    Decides m t.source destinations (.ok t) := by
  refine ⟨fun _ _ c hc => ht.inReach ?_, nofun⟩
  rw [List.filter_eq_nil_iff] at hheld
  simpa using hheld c hc

theorem grow_decides (hm : Machine.Fulfils d m) (ht : t.Sound m)
    (hsorted : destinations.Pairwise fun a b => compare a b = .lt)
    (hpending : pending = destinations.filter fun c => !t.contains c)
    (hfuel : pending.length ≤ fuel) :
    Decides m t.source destinations (grow m fuel t pending) := by
  induction fuel generalizing t pending with
  | zero =>
      cases List.eq_nil_of_length_eq_zero (Nat.le_zero.1 hfuel)
      exact decides_of_held ht hpending.symm
  | succ fuel ih =>
      cases pending with
      | nil => exact decides_of_held ht hpending.symm
      | cons first rest =>
          unfold grow
          simp only
          split
          · next hnone =>
              have hin : ∀ c ∈ destinations, (!t.contains c) = false → InReach m t.source c :=
                fun c _ hc => ht.inReach (by simpa using hc)
              have hout := not_inReach_of_none hm hnone first List.mem_cons_self
              refine ⟨nofun, fun f hf => ?_⟩
              cases hf
              exact ⟨first, rfl, firstOut_of_cons hsorted hpending.symm hin hout⟩
          · next found reached hfound =>
              obtain ⟨hmem, t₁, hgraft, ht₁, hsource, hmono, hcontains⟩ := graft_found ht hfound
              have hshorter : ((first :: rest).filter fun c => !t₁.contains c).length <
                  (first :: rest).length :=
                List.length_filter_lt_length_iff_exists.2 ⟨found, hmem, by simp [hcontains]⟩
              rw [hgraft, ok_bind, ← hsource]
              refine ih ht₁ ?_ (by omega)
              rw [hpending, List.filter_filter]
              apply List.filter_congr
              intro c _
              cases hc : t.contains c with
              | true => simp [hmono c hc]
              | false => simp

theorem tree_decides {source : Coord} (hm : Machine.Fulfils d m) (hsource : (m.chip? source).isSome)
    (hsorted : destinations.Pairwise fun a b => compare a b = .lt) :
    Decides m source destinations (tree m source destinations) := by
  obtain ⟨chip, hchip⟩ := Cheapest.exists_chip hsource
  have hrun : tree m source destinations = grow m
      (destinations.filter fun c => !(Tree.root source).contains c).length (.root source)
      (destinations.filter fun c => !(Tree.root source).contains c) := by
    unfold tree
    rw [hchip]
    rfl
  rw [hrun]
  exact grow_decides hm (sound_root m source) hsorted rfl le_rfl

end MulticastMesh.Routing.Steiner
