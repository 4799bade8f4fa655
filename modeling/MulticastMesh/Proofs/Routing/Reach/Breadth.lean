import Mathlib.Order.Lattice.Nat
import Mathlib.Order.Nat
import MulticastMesh.Proofs.Routing.Reach.Steiner
/-!
# Breadth-first search finds what is nearest

The search sees the chips in layers: the queue holds chips of at most two depths, the lower ones
first, and every link out of a chip that has left the queue leads at most one layer deeper.  The
first pending chip in the queue is therefore no further from the seeds than any other one.
-/

namespace MulticastMesh.Routing

open Mesh (Coord Link Machine)

variable {m : Machine} {start chip : Coord}

/-! ## Paths over working links -/

/-- The hops of a path over working links, the last one first. -/
inductive Leads (m : Machine) (start : Coord) : Coord → List LinkFrom → Prop
  | start : Leads m start start []
  | step {chip previous : Coord} {l : Link} {hops : List LinkFrom}
      (hlink : m.linkTarget? previous l = some chip) (path : Leads m start previous hops) :
      Leads m start chip ((previous, l) :: hops)

theorem InReach.exists_leads (h : InReach m start chip) : ∃ hops, Leads m start chip hops := by
  induction h with
  | refl => exact ⟨[], .start⟩
  | tail _ hlink ih =>
      obtain ⟨l, hlink⟩ := hlink
      obtain ⟨hops, hpath⟩ := ih
      exact ⟨_, .step hlink hpath⟩

/-- The fewest hops that lead from one chip to another. -/
noncomputable def distance (m : Machine) (start chip : Coord) : Nat :=
  sInf {n | ∃ hops, Leads m start chip hops ∧ hops.length = n}

theorem InReach.exists_shortest (h : InReach m start chip) :
    ∃ hops, Leads m start chip hops ∧ hops.length = distance m start chip := by
  obtain ⟨hops, hpath⟩ := h.exists_leads
  exact Nat.sInf_mem (s := {n | ∃ hops, Leads m start chip hops ∧ hops.length = n})
    ⟨hops.length, hops, hpath, rfl⟩

namespace Steiner

variable {reached reached' reached'' : Reached}
  {seeds pending seen seen' seen'' queue queue' queue'' new new' : List Coord}
  {next found c : Coord} {links links' : List Link} {hops : List LinkFrom} {depth : Coord → Nat}
  {fuel : Nat}

/-! ## Looking along links -/

/-- What looking along some links of a chip adds to a search. -/
structure Spread (m : Machine) (chip : Coord) (links : List Link)
    (seen : List Coord) (reached : Reached) (queue : List Coord)
    (seen' : List Coord) (reached' : Reached) (queue' : List Coord) (new : List Coord) :
    Prop where
  queue_eq : queue' = queue ++ new
  mem_seen : ∀ c, c ∈ seen' ↔ c ∈ seen ∨ c ∈ new
  fresh : ∀ c ∈ new, c ∉ seen
  linked : ∀ c ∈ new, ∃ l, m.linkTarget? chip l = some c ∧ reached'[c]? = some (chip, l)
  kept : ∀ c, c ∉ new → reached'[c]? = reached[c]?
  targets : ∀ l ∈ links, ∀ next, m.linkTarget? chip l = some next → next ∈ seen'

theorem spread_nothing (h : ∀ l ∈ links, ∀ next, m.linkTarget? chip l = some next → next ∈ seen) :
    Spread m chip links seen reached queue seen reached queue [] where
  queue_eq := (List.append_nil queue).symm
  mem_seen := by simp
  fresh := by simp
  linked := by simp
  kept := fun _ _ => rfl
  targets := h

theorem Spread.trans (h : Spread m chip links seen reached queue seen' reached' queue' new)
    (h' : Spread m chip links' seen' reached' queue' seen'' reached'' queue'' new') :
    Spread m chip (links ++ links') seen reached queue seen'' reached'' queue'' (new ++ new') where
  queue_eq := by rw [h'.queue_eq, h.queue_eq, List.append_assoc]
  mem_seen := by
    intro c
    rw [h'.mem_seen, h.mem_seen, List.mem_append, or_assoc]
  fresh := by
    intro c hc hseen
    rcases List.mem_append.1 hc with hc | hc
    · exact h.fresh c hc hseen
    · exact h'.fresh c hc ((h.mem_seen c).2 (.inl hseen))
  linked := by
    intro c hc
    by_cases hlater : c ∈ new'
    · exact h'.linked c hlater
    · rw [h'.kept c hlater]
      exact h.linked c ((List.mem_append.1 hc).resolve_right hlater)
  kept := by
    intro c hc
    rw [List.mem_append, not_or] at hc
    rw [h'.kept c hc.2, h.kept c hc.1]
  targets := by
    intro l hl next hlink
    rcases List.mem_append.1 hl with hl | hl
    · exact (h'.mem_seen next).2 (.inl (h.targets l hl next hlink))
    · exact h'.targets l hl next hlink

theorem visit_spread (m : Machine) (chip : Coord) (seen : List Coord) (reached : Reached)
    (queue : List Coord) (l : Link) :
    ∃ seen' reached' queue' new, visit m chip (seen, reached, queue) l = (seen', reached', queue') ∧
      Spread m chip [l] seen reached queue seen' reached' queue' new := by
  unfold visit
  simp only
  split
  · next hnone => exact ⟨_, _, _, [], rfl, spread_nothing (by simp [hnone])⟩
  · next next hlink =>
      split
      · next hold =>
          exact ⟨_, _, _, [], rfl, spread_nothing (by simpa [hlink] using hold)⟩
      · next hnew =>
          refine ⟨_, _, _, [next], rfl, rfl, ?_, by simpa using hnew, ?_, ?_, by simp [hlink]⟩
          · intro c
            rw [List.mem_cons, List.mem_singleton, or_comm]
          · intro c hc
            rw [List.mem_singleton.1 hc]
            exact ⟨l, hlink, by rw [getElem?_reach, if_pos rfl]⟩
          · intro c hc
            rw [getElem?_reach, if_neg]
            rintro rfl
            exact hc (List.mem_singleton_self _)

theorem foldl_visit_spread (m : Machine) (chip : Coord) (links : List Link) (seen : List Coord)
    (reached : Reached) (queue : List Coord) :
    ∃ seen' reached' queue' new, links.foldl (visit m chip) (seen, reached, queue) =
      (seen', reached', queue') ∧
      Spread m chip links seen reached queue seen' reached' queue' new := by
  induction links generalizing seen reached queue with
  | nil => exact ⟨seen, reached, queue, [], rfl, spread_nothing (by simp)⟩
  | cons l rest ih =>
      obtain ⟨seen₁, reached₁, queue₁, new₁, hvisit, h₁⟩ := visit_spread m chip seen reached queue l
      obtain ⟨seen₂, reached₂, queue₂, new₂, hrest, h₂⟩ := ih seen₁ reached₁ queue₁
      refine ⟨seen₂, reached₂, queue₂, new₁ ++ new₂, ?_, h₁.trans h₂⟩
      rw [List.foldl_cons, hvisit, hrest]

/-! ## Layers -/

/-- A search that has seen chips layer by layer. -/
structure Layered (m : Machine) (depth : Coord → Nat) (seeds pending seen : List Coord)
    (reached : Reached) (queue : List Coord) : Prop where
  seed : ∀ c ∈ seeds, c ∈ seen ∧ depth c = 0
  known : ∀ c ∈ seen, c ∈ seeds ∨ ∃ step, reached[c]? = some step
  step : ∀ (c previous : Coord) (l : Link), reached[c]? = some (previous, l) →
    m.linkTarget? previous l = some c ∧ c ∉ seeds ∧ c ∈ seen ∧ previous ∈ seen ∧
      depth c = depth previous + 1
  queued : ∀ c ∈ queue, c ∈ seen
  ordered : queue.Pairwise fun a b => depth a ≤ depth b
  span : ∀ a ∈ queue, ∀ c ∈ seen, depth c ≤ depth a + 1
  done : ∀ c ∈ seen, c ∈ queue ∨
    c ∉ pending ∧ ∀ l next, m.linkTarget? c l = some next → next ∈ seen ∧ depth next ≤ depth c + 1

theorem layered_start (m : Machine) (seeds pending : List Coord) :
    Layered m (fun _ => 0) seeds pending seeds ∅ seeds where
  seed := fun c hc => ⟨hc, rfl⟩
  known := fun c hc => .inl hc
  step := by simp
  queued := fun _ hc => hc
  ordered := List.pairwise_of_forall fun _ _ => le_rfl
  span := fun _ _ _ _ => Nat.zero_le _
  done := fun _ hc => .inl hc

def deepen (depth : Coord → Nat) (chip : Coord) (new : List Coord) : Coord → Nat :=
  fun c => if c ∈ new then depth chip + 1 else depth c

theorem deepen_new (h : c ∈ new) : deepen depth chip new c = depth chip + 1 := if_pos h

theorem Spread.deepen_seen (h : Spread m chip links seen reached queue seen' reached' queue' new)
    (hc : c ∈ seen) : deepen depth chip new c = depth c :=
  if_neg fun hnew => h.fresh c hnew hc

/-- The head of the queue is nowhere deeper than the rest. -/
theorem Layered.head_le (h : Layered m depth seeds pending seen reached (chip :: queue))
    (hc : c ∈ chip :: queue) : depth chip ≤ depth c := by
  rcases List.mem_cons.1 hc with rfl | hc
  · exact le_rfl
  · exact (List.pairwise_cons.1 h.ordered).1 c hc

/-- New chips lie one layer below the chip looked at, so they go to the end of the queue. -/
theorem Layered.spread (h : Layered m depth seeds pending seen reached (chip :: queue))
    (hchip : chip ∉ pending)
    (hs : Spread m chip Link.all seen reached queue seen' reached' queue' new) :
    Layered m (deepen depth chip new) seeds pending seen' reached' queue' := by
  have hspan : ∀ c ∈ seen, depth c ≤ depth chip + 1 := h.span chip List.mem_cons_self
  have hmem : chip ∈ seen := h.queued chip List.mem_cons_self
  have hqueue : ∀ a ∈ queue, a ∈ seen := fun a ha => h.queued a (List.mem_cons_of_mem chip ha)
  constructor
  case seed =>
    intro c hc
    obtain ⟨hseen, hzero⟩ := h.seed c hc
    exact ⟨(hs.mem_seen c).2 (.inl hseen), (hs.deepen_seen hseen).trans hzero⟩
  case known =>
    intro c hc
    by_cases hnew : c ∈ new
    · obtain ⟨l, _, hstep⟩ := hs.linked c hnew
      exact .inr ⟨_, hstep⟩
    · rw [hs.kept c hnew]
      exact h.known c (((hs.mem_seen c).1 hc).resolve_right hnew)
  case step =>
    intro c previous l hc
    by_cases hnew : c ∈ new
    · obtain ⟨l', hlink, hstep⟩ := hs.linked c hnew
      cases hstep.symm.trans hc
      refine ⟨hlink, fun hseed => hs.fresh c hnew (h.seed c hseed).1,
        (hs.mem_seen c).2 (.inr hnew), (hs.mem_seen chip).2 (.inl hmem), ?_⟩
      rw [deepen_new hnew, hs.deepen_seen hmem]
    · rw [hs.kept c hnew] at hc
      obtain ⟨hlink, hseed, hseen, hprevious, hdepth⟩ := h.step c previous l hc
      refine ⟨hlink, hseed, (hs.mem_seen c).2 (.inl hseen),
        (hs.mem_seen previous).2 (.inl hprevious), ?_⟩
      rw [hs.deepen_seen hseen, hs.deepen_seen hprevious, hdepth]
  case queued =>
    intro c hc
    rw [hs.queue_eq, List.mem_append] at hc
    exact (hs.mem_seen c).2 (hc.imp_left (hqueue c))
  case ordered =>
    rw [hs.queue_eq, List.pairwise_append]
    refine ⟨?_, ?_, ?_⟩
    · refine (List.pairwise_cons.1 h.ordered).2.imp_of_mem fun ha hb hab => ?_
      rw [hs.deepen_seen (hqueue _ ha), hs.deepen_seen (hqueue _ hb)]
      exact hab
    · refine List.pairwise_of_forall_mem_list fun a ha b hb => ?_
      rw [deepen_new ha, deepen_new hb]
    · intro a ha b hb
      rw [hs.deepen_seen (hqueue a ha), deepen_new hb]
      exact hspan a (hqueue a ha)
  case span =>
    intro a ha c hc
    have hdeep : deepen depth chip new c ≤ depth chip + 1 := by
      by_cases hnew : c ∈ new
      · rw [deepen_new hnew]
      · have hseen := ((hs.mem_seen c).1 hc).resolve_right hnew
        rw [hs.deepen_seen hseen]
        exact hspan c hseen
    rw [hs.queue_eq, List.mem_append] at ha
    rcases ha with ha | ha
    · rw [hs.deepen_seen (hqueue a ha)]
      have := h.head_le (List.mem_cons_of_mem chip ha)
      omega
    · rw [deepen_new ha]
      omega
  case done =>
    intro c hc
    rcases (hs.mem_seen c).1 hc with hseen | hnew
    · rcases h.done c hseen with hwaits | ⟨hfree, htargets⟩
      · rcases List.mem_cons.1 hwaits with rfl | hwaits
        · refine .inr ⟨hchip, fun l next hlink => ?_⟩
          have hnext := hs.targets l (Link.mem_all l) next hlink
          refine ⟨hnext, ?_⟩
          rw [hs.deepen_seen hmem]
          by_cases hnew : next ∈ new
          · rw [deepen_new hnew]
          · have hold := ((hs.mem_seen next).1 hnext).resolve_right hnew
            rw [hs.deepen_seen hold]
            exact hspan next hold
        · exact .inl (by rw [hs.queue_eq]; exact List.mem_append_left _ hwaits)
      · refine .inr ⟨hfree, fun l next hlink => ?_⟩
        obtain ⟨hnext, hdepth⟩ := htargets l next hlink
        rw [hs.deepen_seen hseen, hs.deepen_seen hnext]
        exact ⟨(hs.mem_seen next).2 (.inl hnext), hdepth⟩
    · exact .inl (by rw [hs.queue_eq]; exact List.mem_append_right _ hnew)

/-- The search stops at the first pending chip in the queue. -/
theorem nearest?_layered (h : Layered m depth seeds pending seen reached queue)
    (hrun : nearest? m pending fuel seen reached queue = some (found, reached')) :
    ∃ depth' seen' queue', Layered m depth' seeds pending seen' reached' (found :: queue') ∧
      found ∈ pending := by
  induction fuel generalizing seen reached queue depth with
  | zero => cases hrun
  | succ fuel ih =>
      cases queue with
      | nil => cases hrun
      | cons chip queue =>
          unfold nearest? at hrun
          split at hrun
          · next hpending =>
              cases hrun
              exact ⟨depth, seen, queue, h, by simpa using hpending⟩
          · next hpending =>
              obtain ⟨seen₁, reached₁, queue₁, new, hvisit, hs⟩ :=
                foldl_visit_spread m chip Link.all seen reached queue
              rw [hvisit] at hrun
              exact ih (h.spread (by simpa using hpending) hs) hrun

/-- Along a path from a seed, the depth cannot grow faster than the path, unless the path goes
through the queue. -/
theorem Layered.depth_le (h : Layered m depth seeds pending seen reached (chip :: queue))
    (hstart : start ∈ seeds) (hpath : Leads m start c hops) :
    c ∈ seen ∧ depth c ≤ hops.length ∨ depth chip ≤ hops.length := by
  induction hpath with
  | start =>
      obtain ⟨hseen, hzero⟩ := h.seed start hstart
      exact .inl ⟨hseen, hzero.le⟩
  | step hlink _ ih =>
      rw [List.length_cons]
      rcases ih with ⟨hseen, hdepth⟩ | hdepth
      · rcases h.done _ hseen with hwaits | ⟨_, htargets⟩
        · -- a chip that still waits is no higher than the head of the queue
          have := h.head_le hwaits
          exact .inr (by omega)
        · obtain ⟨hnext, hdeeper⟩ := htargets _ _ hlink
          exact .inl ⟨hnext, by omega⟩
      · exact .inr (by omega)

/-- No path from a seed to a pending chip is shorter than the head of the queue is deep. -/
theorem Layered.nearest (h : Layered m depth seeds pending seen reached (chip :: queue))
    (hstart : start ∈ seeds) (hc : c ∈ pending) (hpath : Leads m start c hops) :
    depth chip ≤ hops.length := by
  rcases h.depth_le hstart hpath with ⟨hseen, hdepth⟩ | hdepth
  · rcases h.done c hseen with hwaits | ⟨hfree, _⟩
    · exact (h.head_le hwaits).trans hdepth
    · exact absurd hc hfree
  · exact hdepth

/-! ## The way back -/

/-- The hops back from a chip to a seed. -/
inductive Back (reached : Reached) (seeds : List Coord) : Coord → List LinkFrom → Prop
  | seed {chip : Coord} (hseed : chip ∈ seeds) : Back reached seeds chip []
  | step {chip previous : Coord} {l : Link} {hops : List LinkFrom} (hnew : chip ∉ seeds)
      (hstep : reached[chip]? = some (previous, l)) (back : Back reached seeds previous hops) :
      Back reached seeds chip ((previous, l) :: hops)

/-- The chips that hops back from a chip lead into, so all but the one they end at. -/
def entered : Coord → List LinkFrom → List Coord
  | _, [] => []
  | chip, (previous, _) :: hops => chip :: entered previous hops

theorem Layered.exists_back (h : Layered m depth seeds pending seen reached queue)
    (hc : c ∈ seen) : ∃ hops, Back reached seeds c hops ∧ hops.length = depth c := by
  induction hn : depth c using Nat.strong_induction_on generalizing c with
  | _ n ih =>
      by_cases hseed : c ∈ seeds
      · exact ⟨[], .seed hseed, (h.seed c hseed).2.symm.trans hn⟩
      · obtain ⟨⟨previous, l⟩, hstep⟩ := (h.known c hc).resolve_left hseed
        obtain ⟨_, _, _, hprevious, hdepth⟩ := h.step c previous l hstep
        obtain ⟨hops, hback, hlength⟩ := ih (depth previous) (by omega) hprevious rfl
        refine ⟨(previous, l) :: hops, .step hseed hstep hback, ?_⟩
        rw [List.length_cons, hlength]
        omega

theorem Layered.leads_of_back (h : Layered m depth seeds pending seen reached queue)
    (hback : Back reached seeds c hops) : ∃ start ∈ seeds, Leads m start c hops := by
  induction hback with
  | seed hseed => exact ⟨_, hseed, .start⟩
  | step _ hstep _ ih =>
      obtain ⟨start, hstart, hpath⟩ := ih
      exact ⟨start, hstart, .step (h.step _ _ _ hstep).1 hpath⟩

theorem Back.entered_new (hback : Back reached seeds chip hops) :
    ∀ c ∈ entered chip hops, c ∉ seeds := by
  induction hback with
  | seed => simp [entered]
  | step hnew _ _ ih => exact List.forall_mem_cons.2 ⟨hnew, ih⟩

/-- The depth falls on the way back, so no chip is entered twice. -/
theorem Layered.nodup_entered (h : Layered m depth seeds pending seen reached queue)
    (hback : Back reached seeds chip hops) :
    (entered chip hops).Nodup ∧ ∀ c ∈ entered chip hops, depth c ≤ depth chip := by
  induction hback with
  | seed => simp [entered]
  | step _ hstep _ ih =>
      obtain ⟨hnodup, hdepth⟩ := ih
      have hless := (h.step _ _ _ hstep).2.2.2.2
      refine ⟨List.nodup_cons.2 ⟨fun hmem => ?_, hnodup⟩, ?_⟩
      · have := hdepth _ hmem
        omega
      · refine List.forall_mem_cons.2 ⟨le_rfl, fun c hc => ?_⟩
        have := hdepth c hc
        omega

theorem nearest?_shortest (hrun : nearest? m pending fuel seeds ∅ seeds = some (found, reached)) :
    found ∈ pending ∧ ∃ hops, Back reached seeds found hops ∧ (entered found hops).Nodup ∧
      (∃ start ∈ seeds, Leads m start found hops) ∧
      ∀ start ∈ seeds, ∀ c ∈ pending, ∀ hops', Leads m start c hops' →
        hops.length ≤ hops'.length := by
  obtain ⟨depth, seen, queue, h, hpending⟩ :=
    nearest?_layered (layered_start m seeds pending) hrun
  obtain ⟨hops, hback, hlength⟩ := h.exists_back (h.queued found List.mem_cons_self)
  refine ⟨hpending, hops, hback, (h.nodup_entered hback).1, h.leads_of_back hback, ?_⟩
  intro start hstart c hc hops' hpath
  rw [hlength]
  exact h.nearest hstart hc hpath

end Steiner

end MulticastMesh.Routing
