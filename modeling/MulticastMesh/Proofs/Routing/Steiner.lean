import Mathlib.Algebra.Order.BigOperators.Group.List
import MulticastMesh.Proofs.Routing.Cheapest
import MulticastMesh.Routing.Steiner
/-!
# Trees of grafted paths

A breadth-first search from all chips of a tree reaches new chips over links of the machine, each
from a chip reached before.  Grafting the way back from one of them makes the tree larger and
keeps it sound.
-/

namespace MulticastMesh.Routing.Steiner

open Mesh (Coord Link Machine MachineSpec)
open Outcome

variable {d : MachineSpec} {m : Machine} {t t' t₀ : Tree} {reached : Reached}
  {seeds seen queue pending : List Coord} {chip next found : Coord} {fuel : Nat}

structure Searched (m : Machine) (seeds seen : List Coord) (reached : Reached)
    (queue : List Coord) : Prop where
  link : ∀ (chip previous : Coord) (l : Link), reached[chip]? = some (previous, l) →
    m.linkTarget? previous l = some chip
  known : ∀ (chip previous : Coord) (l : Link), reached[chip]? = some (previous, l) →
    previous ∈ seeds ∨ ∃ step, reached[previous]? = some step
  rank : ∃ rank : Coord → Nat,
    (∀ (chip : Coord) step, reached[chip]? = some step → rank chip < reached.size) ∧
    ∀ (chip previous : Coord) (l : Link) step, reached[chip]? = some (previous, l) →
      reached[previous]? = some step → rank previous < rank chip
  queued : ∀ chip ∈ queue, chip ∈ seeds ∨ ∃ step, reached[chip]? = some step
  seen : ∀ chip : Coord, (chip ∈ seeds ∨ ∃ step, reached[chip]? = some step) → chip ∈ seen

theorem searched_start (m : Machine) (seeds : List Coord) : Searched m seeds seeds ∅ seeds where
  link := by simp
  known := by simp
  rank := ⟨fun _ => 0, by simp, by simp⟩
  queued := fun _ hchip => Or.inl hchip
  seen := by simp

theorem getElem?_reach {step : LinkFrom} {c : Coord} :
    (reached.insert next step)[c]? = if next = c then some step else reached[c]? :=
  Maps.getElem?_insert_eq_ite

theorem Searched.not_reached (h : Searched m seeds seen reached queue) (hnew : next ∉ seen) :
    reached[next]? = none := by
  cases hstep : reached[next]? with
  | none => rfl
  | some step => exact absurd (h.seen next (Or.inr ⟨step, hstep⟩)) hnew

/-- Chips are ranked in the order in which they are reached. -/
theorem Searched.rank_reach (h : Searched m seeds seen reached queue)
    (hchip : chip ∈ seeds ∨ ∃ step, reached[chip]? = some step) (hnew : next ∉ seen) {l : Link} :
    ∃ rank : Coord → Nat,
      (∀ (c : Coord) step, (reached.insert next (chip, l))[c]? = some step →
        rank c < (reached.insert next (chip, l)).size) ∧
      ∀ (c previous : Coord) (l' : Link) step,
        (reached.insert next (chip, l))[c]? = some (previous, l') →
        (reached.insert next (chip, l))[previous]? = some step → rank previous < rank c := by
  obtain ⟨rank, hbound, hless⟩ := h.rank
  have hmem : ¬ reached.contains next = true := by
    rw [Std.ExtTreeMap.contains_eq_isSome_getElem?, h.not_reached hnew]
    simp
  have hsize : (reached.insert next (chip, l)).size = reached.size + 1 := by
    rw [Std.ExtTreeMap.size_insert]
    exact if_neg hmem
  have hother : ∀ {c : Coord}, (c ∈ seeds ∨ ∃ step, reached[c]? = some step) → next ≠ c := by
    rintro c hc rfl
    exact hnew (h.seen _ hc)
  refine ⟨fun c => if c = next then reached.size else rank c, ?_, ?_⟩
  · intro c step hc
    rw [hsize]
    simp only
    split
    · omega
    · next hne =>
        rw [getElem?_reach, if_neg (Ne.symm hne)] at hc
        have := hbound c step hc
        omega
  · intro c previous l' step hc hprevious
    rw [getElem?_reach] at hc hprevious
    split at hc
    · next heq =>
        subst heq
        cases hc
        have hne := hother hchip
        rw [if_neg hne] at hprevious
        simp only [if_neg hne.symm]
        exact hbound chip step hprevious
    · next hne =>
        have hne' := hother (h.known c previous l' hc)
        rw [if_neg hne'] at hprevious
        simp only [if_neg hne'.symm, if_neg (Ne.symm hne)]
        exact hless c previous l' step hc hprevious

theorem Searched.reach (h : Searched m seeds seen reached queue)
    (hchip : chip ∈ seeds ∨ ∃ step, reached[chip]? = some step) {l : Link}
    (hlink : m.linkTarget? chip l = some next) (hnew : next ∉ seen) :
    Searched m seeds (next :: seen) (reached.insert next (chip, l)) (queue ++ [next]) := by
  have hkept : ∀ c : Coord, (c ∈ seeds ∨ ∃ step, reached[c]? = some step) →
      c ∈ seeds ∨ ∃ step, (reached.insert next (chip, l))[c]? = some step := by
    intro c hc
    rw [getElem?_reach]
    split
    · exact Or.inr ⟨_, rfl⟩
    · exact hc
  refine ⟨?_, ?_, h.rank_reach hchip hnew, ?_, ?_⟩
  · intro c previous l' hc
    rw [getElem?_reach] at hc
    split at hc
    · next heq =>
        cases heq
        cases hc
        exact hlink
    · exact h.link c previous l' hc
  · intro c previous l' hc
    rw [getElem?_reach] at hc
    split at hc
    · cases hc
      exact hkept chip hchip
    · exact hkept previous (h.known c previous l' hc)
  · intro c hc
    rcases List.mem_append.1 hc with hc | hc
    · exact hkept c (h.queued c hc)
    · rw [List.mem_singleton.1 hc, getElem?_reach, if_pos rfl]
      exact Or.inr ⟨_, rfl⟩
  · intro c hc
    by_cases hcn : c = next
    · simp [hcn]
    · rw [getElem?_reach, if_neg (Ne.symm hcn)] at hc
      exact List.mem_cons_of_mem _ (h.seen c hc)

theorem visit_spec (l : Link) (h : Searched m seeds seen reached queue)
    (hchip : chip ∈ seeds ∨ ∃ step, reached[chip]? = some step) :
    ∃ seen' reached' queue', visit m chip (seen, reached, queue) l = (seen', reached', queue') ∧
      Searched m seeds seen' reached' queue' ∧
      (chip ∈ seeds ∨ ∃ step, reached'[chip]? = some step) := by
  unfold visit
  simp only
  split
  · exact ⟨seen, reached, queue, rfl, h, hchip⟩
  · next next hlink =>
      split
      · exact ⟨seen, reached, queue, rfl, h, hchip⟩
      · next hnew =>
          have hmem : next ∉ seen := by simpa using hnew
          refine ⟨_, _, _, rfl, h.reach hchip hlink hmem, ?_⟩
          rcases hchip with hchip | hchip
          · exact Or.inl hchip
          · rw [Maps.getElem?_insert_eq_ite]
            split
            · exact Or.inr ⟨_, rfl⟩
            · exact Or.inr hchip

theorem foldl_visit_spec (links : List Link) (h : Searched m seeds seen reached queue)
    (hchip : chip ∈ seeds ∨ ∃ step, reached[chip]? = some step) :
    ∃ seen' reached' queue', links.foldl (visit m chip) (seen, reached, queue) =
      (seen', reached', queue') ∧ Searched m seeds seen' reached' queue' := by
  induction links generalizing seen reached queue with
  | nil => exact ⟨seen, reached, queue, rfl, h⟩
  | cons l rest ih =>
      obtain ⟨seen₁, reached₁, queue₁, hvisit, h₁, hchip₁⟩ := visit_spec l h hchip
      rw [List.foldl_cons, hvisit]
      exact ih h₁ hchip₁

theorem nearest?_spec {reached' : Reached} (h : Searched m seeds seen reached queue)
    (hrun : nearest? m pending fuel seen reached queue = some (found, reached')) :
    found ∈ pending ∧ (∃ seen' queue', Searched m seeds seen' reached' queue') ∧
      (found ∈ seeds ∨ ∃ step, reached'[found]? = some step) := by
  induction fuel generalizing seen reached queue with
  | zero => cases hrun
  | succ fuel ih =>
      cases queue with
      | nil => cases hrun
      | cons chip queue =>
          unfold nearest? at hrun
          have hchip := h.queued chip (by simp)
          split at hrun
          · next hpending =>
              cases hrun
              exact ⟨by simpa using hpending, ⟨_, _, h⟩, hchip⟩
          · have hrest : Searched m seeds seen reached queue :=
              ⟨h.link, h.known, h.rank, fun c hc => h.queued c (by simp [hc]), h.seen⟩
            obtain ⟨seen₁, reached₁, queue₁, hvisit, h₁⟩ :=
              foldl_visit_spec Link.all hrest hchip
            rw [hvisit] at hrun
            exact ih h₁ hrun

/-! ## Grafting -/

/-- A tree that is being extended by the way back from some chip, as far as the next one. -/
structure Grafting (t₀ : Tree) (reached : Reached) (next : Coord) (t : Tree) : Prop where
  source_eq : t.source = t₀.source
  kept : ∀ (c : Coord) step, t₀.cameFrom[c]? = some step → t.cameFrom[c]? = some step
  steps : ∀ (c : Coord) step, t.cameFrom[c]? = some step →
    t₀.cameFrom[c]? = some step ∨ t₀.contains c = false ∧ reached[c]? = some step
  closed : ∀ (c previous : Coord) (l : Link), t.cameFrom[c]? = some (previous, l) →
    t.contains previous = true ∨ previous = next

theorem Grafting.contains (h : Grafting t₀ reached next t) {c : Coord}
    (hc : t₀.contains c = true) : t.contains c = true := by
  rw [Tree.contains_iff] at hc ⊢
  rw [h.source_eq]
  rcases hc with hc | ⟨step, hstep⟩
  · exact Or.inl hc
  · exact Or.inr ⟨step, h.kept c step hstep⟩

theorem contains_insert {c : Coord} {step : LinkFrom} (h : t.contains c = true) :
    Tree.contains { t with cameFrom := t.cameFrom.insert chip step } c = true := by
  rw [Tree.contains_iff] at h ⊢
  rcases h with h | ⟨step', hstep⟩
  · exact Or.inl h
  · rw [Maps.getElem?_insert_eq_ite]
    split
    · exact Or.inr ⟨_, rfl⟩
    · exact Or.inr ⟨step', hstep⟩

theorem Grafting.step (h : Grafting t₀ reached chip t) (hnew : t.contains chip = false)
    {step : LinkFrom} (hstep : reached[chip]? = some step) :
    Grafting t₀ reached step.1 { t with cameFrom := t.cameFrom.insert chip step } := by
  have hfound : ∀ c : Coord, (t.cameFrom.insert chip step)[c]? =
      if chip = c then some step else t.cameFrom[c]? :=
    fun _ => Maps.getElem?_insert_eq_ite
  have hfresh : t₀.contains chip = false := by
    cases hc : t₀.contains chip with
    | false => rfl
    | true =>
        rw [h.contains hc] at hnew
        cases hnew
  refine ⟨h.source_eq, ?_, ?_, ?_⟩
  · intro c step' hc
    rw [hfound, if_neg]
    · exact h.kept c step' hc
    · rintro rfl
      rw [Tree.contains_iff.2 (Or.inr ⟨step', hc⟩)] at hfresh
      cases hfresh
  · intro c step' hc
    rw [hfound] at hc
    split at hc
    · next heq =>
        subst heq
        cases hc
        exact Or.inr ⟨hfresh, hstep⟩
    · exact h.steps c step' hc
  · intro c previous l hc
    rw [hfound] at hc
    split at hc
    · cases hc
      exact Or.inr rfl
    · rcases h.closed c previous l hc with hprevious | rfl
      · exact Or.inl (contains_insert hprevious)
      · refine Or.inl (Tree.contains_iff.2 (Or.inr ⟨step, ?_⟩))
        rw [hfound, if_pos rfl]

theorem contains_of_graft {c : Coord} (hrun : graft reached fuel t chip = .ok t')
    (hc : t.contains c = true) : t'.contains c = true := by
  induction fuel generalizing t chip with
  | zero => cases hrun
  | succ fuel ih =>
      unfold graft at hrun
      split at hrun
      · cases hrun
        exact hc
      · split at hrun
        · cases hrun
        · exact ih hrun (contains_insert hc)

/-- Grafting never loses the way back: every step is reached before the last one. -/
theorem graft_spec (hs : Searched m seeds seen reached queue)
    (hseeds : ∀ c ∈ seeds, t₀.contains c = true) {rank : Coord → Nat}
    (hless : ∀ (c previous : Coord) (l : Link) step, reached[c]? = some (previous, l) →
      reached[previous]? = some step → rank previous < rank c)
    (h : Grafting t₀ reached chip t)
    (hchip : t₀.contains chip = true ∨ ∃ step, reached[chip]? = some step)
    (hfuel : 0 < fuel ∧ ∀ step, reached[chip]? = some step → rank chip + 1 < fuel) :
    ∃ t' last, graft reached fuel t chip = .ok t' ∧ Grafting t₀ reached last t' ∧
      t'.contains last = true ∧ t'.contains chip = true := by
  induction fuel generalizing t chip with
  | zero => exact absurd hfuel.1 (Nat.lt_irrefl 0)
  | succ fuel ih =>
      unfold graft
      cases hcontains : t.contains chip with
      | true => exact ⟨t, chip, rfl, h, hcontains, hcontains⟩
      | false =>
          have hreached : ∃ step, reached[chip]? = some step := by
            rcases hchip with hchip | hchip
            · rw [h.contains hchip] at hcontains
              cases hcontains
            · exact hchip
          obtain ⟨⟨previous, l⟩, hstep⟩ := hreached
          have hnext := h.step hcontains hstep
          have hbound := hfuel.2 _ hstep
          have hprevious : t₀.contains previous = true ∨
              ∃ step, reached[previous]? = some step := by
            rcases hs.known chip previous l hstep with hseed | hknown
            · exact Or.inl (hseeds previous hseed)
            · exact Or.inr hknown
          have hfuel' : 0 < fuel ∧ ∀ step, reached[previous]? = some step →
              rank previous + 1 < fuel := by
            refine ⟨by omega, fun step hknown => ?_⟩
            have := hless chip previous l step hstep hknown
            omega
          obtain ⟨t', last, hrun, hgraft, hlast, hcontains'⟩ := ih hnext hprevious hfuel'
          refine ⟨t', last, ?_, hgraft, hlast, ?_⟩
          · simp only [hstep]
            exact hrun
          · refine contains_of_graft hrun (Tree.contains_iff.2 (Or.inr ⟨(previous, l), ?_⟩))
            rw [Maps.getElem?_insert_eq_ite, if_pos rfl]

theorem exists_rank_bound (t : Tree) (rank : Coord → Nat) :
    ∃ n, ∀ c, t.contains c = true → rank c < n := by
  refine ⟨((t.source :: t.cameFrom.keys).map rank).sum + 1, fun c hc => ?_⟩
  have hmem : c ∈ t.source :: t.cameFrom.keys := by
    rcases Tree.contains_iff.1 hc with rfl | hstep
    · simp
    · rw [← Option.isSome_iff_exists, Std.ExtTreeMap.isSome_getElem?_iff_mem] at hstep
      exact List.mem_cons_of_mem _ (Std.ExtTreeMap.mem_keys.2 hstep)
  exact Nat.lt_succ_of_le (List.le_sum_of_mem (List.mem_map_of_mem hmem))

theorem Grafting.sound (h : Grafting t₀ reached next t) (ht₀ : t₀.Sound m)
    (hs : Searched m seeds seen reached queue) (hseeds : ∀ c ∈ seeds, t₀.contains c = true)
    (hnext : t.contains next = true) : t.Sound m := by
  have hclosed : ∀ (c previous : Coord) (l : Link), t.cameFrom[c]? = some (previous, l) →
      t.contains previous = true := by
    intro c previous l hc
    rcases h.closed c previous l hc with hprevious | rfl
    · exact hprevious
    · exact hnext
  have hsource : t₀.contains t₀.source = true := Tree.contains_iff.2 (Or.inl rfl)
  refine ⟨?_, ?_, hclosed, ?_⟩
  · rw [h.source_eq]
    cases hroot : t.cameFrom[t₀.source]? with
    | none => rfl
    | some step =>
        rcases h.steps t₀.source step hroot with hold | ⟨hnew, _⟩
        · rw [ht₀.root] at hold
          cases hold
        · rw [hsource] at hnew
          cases hnew
  · intro c previous l hc
    rcases h.steps c (previous, l) hc with hold | ⟨_, hstep⟩
    · exact ht₀.link c previous l hold
    · exact hs.link c previous l hstep
  · -- the grafted chips are ranked above those of the old tree
    obtain ⟨rank₀, hless₀⟩ := ht₀.rank
    obtain ⟨rank, _, hless⟩ := hs.rank
    obtain ⟨n, hn⟩ := exists_rank_bound t₀ rank₀
    refine ⟨fun c => if t₀.contains c then rank₀ c else n + rank c, fun c previous l hc => ?_⟩
    simp only
    rcases h.steps c (previous, l) hc with hold | ⟨hnew, hstep⟩
    · have hcold : t₀.contains c = true := Tree.contains_iff.2 (Or.inr ⟨_, hold⟩)
      rw [if_pos hcold, if_pos (ht₀.closed c previous l hold)]
      exact hless₀ c previous l hold
    · have hcnew : ¬ t₀.contains c = true := by simp [hnew]
      rw [if_neg hcnew]
      split
      · next hprevious =>
          have := hn previous hprevious
          omega
      · next hprevious =>
          rcases hs.known c previous l hstep with hseed | ⟨step, hknown⟩
          · exact absurd (hseeds previous hseed) hprevious
          · have := hless c previous l step hstep hknown
            omega

/-! ## Growing -/

theorem mem_seeds {c : Coord} : c ∈ t.source :: t.cameFrom.keys ↔ t.contains c = true := by
  rw [List.mem_cons, Tree.contains_iff, Std.ExtTreeMap.mem_keys,
    ← Std.ExtTreeMap.isSome_getElem?_iff_mem, Option.isSome_iff_exists]

theorem graft_found (ht : t.Sound m) {n : Nat}
    (hfound : nearest? m pending n (t.source :: t.cameFrom.keys) ∅ (t.source :: t.cameFrom.keys) =
      some (found, reached)) :
    found ∈ pending ∧ ∃ t', graft reached (reached.size + 1) t found = .ok t' ∧ t'.Sound m ∧
      t'.source = t.source ∧ (∀ c, t.contains c = true → t'.contains c = true) ∧
      t'.contains found = true := by
  obtain ⟨hpending, ⟨seen, queue, hs⟩, hknown⟩ := nearest?_spec (searched_start m _) hfound
  have hseeds : ∀ c ∈ t.source :: t.cameFrom.keys, t.contains c = true :=
    fun c hc => mem_seeds.1 hc
  obtain ⟨rank, hbound, hless⟩ := hs.rank
  have hstart : Grafting t reached found t :=
    ⟨rfl, fun _ _ hc => hc, fun _ _ hc => Or.inl hc,
      fun c previous l hc => Or.inl (ht.closed c previous l hc)⟩
  have hknown' : t.contains found = true ∨ ∃ step, reached[found]? = some step := by
    rcases hknown with hseed | hstep
    · exact Or.inl (hseeds found hseed)
    · exact Or.inr hstep
  have hfuel : 0 < reached.size + 1 ∧ ∀ step, reached[found]? = some step →
      rank found + 1 < reached.size + 1 :=
    ⟨Nat.succ_pos _, fun step hstep => by have := hbound found step hstep; omega⟩
  obtain ⟨t', last, hrun, hgraft, hlast, hcontains⟩ :=
    graft_spec hs hseeds hless hstart hknown' hfuel
  exact ⟨hpending, t', hrun, hgraft.sound ht hs hseeds hlast, hgraft.source_eq,
    fun c hc => hgraft.contains hc, hcontains⟩

theorem grow_spec (ht : t.Sound m) (hfuel : pending.length ≤ fuel)
    (hrun : grow m fuel t pending = .ok t') :
    t'.Sound m ∧ t'.source = t.source ∧ (∀ c, t.contains c = true → t'.contains c = true) ∧
      ∀ c ∈ pending, t'.contains c = true := by
  induction fuel generalizing t pending with
  | zero =>
      cases List.eq_nil_of_length_eq_zero (Nat.le_zero.1 hfuel)
      cases hrun
      exact ⟨ht, rfl, fun _ hc => hc, by simp⟩
  | succ fuel ih =>
      cases pending with
      | nil =>
          cases hrun
          exact ⟨ht, rfl, fun _ hc => hc, by simp⟩
      | cons first rest =>
          unfold grow at hrun
          simp only at hrun
          split at hrun
          · cases hrun
          · next found reached hfound =>
              obtain ⟨hpending, t₁, hgraft, ht₁, hsource, hmono, hcontains⟩ :=
                graft_found ht hfound
              obtain ⟨t₂, ht₂, hrest⟩ := bind_eq_ok.1 hrun
              cases hgraft.symm.trans ht₂
              have hshorter :
                  ((first :: rest).filter fun chip => !t₁.contains chip).length ≤ fuel := by
                have hlt : ((first :: rest).filter fun chip => !t₁.contains chip).length <
                    (first :: rest).length :=
                  List.length_filter_lt_length_iff_exists.2 ⟨found, hpending, by simp [hcontains]⟩
                omega
              obtain ⟨ht', hsource', hmono', hall⟩ := ih ht₁ hshorter hrest
              refine ⟨ht', hsource'.trans hsource, fun c hc => hmono' c (hmono c hc), ?_⟩
              intro c hc
              cases hc₁ : t₁.contains c with
              | true => exact hmono' c hc₁
              | false => exact hall c (List.mem_filter.2 ⟨hc, by simp [hc₁]⟩)

theorem sound_root (m : Machine) (source : Coord) : (Tree.root source).Sound m where
  root := by simp [Tree.root]
  link := by simp [Tree.root]
  closed := by simp [Tree.root]
  rank := ⟨fun _ => 0, by simp [Tree.root]⟩

theorem tree_spec {source : Coord} {destinations : List Coord}
    (hrun : tree m source destinations = .ok t) :
    t.source = source ∧ t.Sound m ∧ ∀ chip ∈ destinations, t.contains chip = true := by
  obtain ⟨_, _, hrun⟩ := bind_eq_ok.1 hrun
  obtain ⟨ht, hsource, hmono, hall⟩ := grow_spec (sound_root m source) le_rfl hrun
  refine ⟨hsource, ht, fun chip hchip => ?_⟩
  cases hroot : (Tree.root source).contains chip with
  | true => exact hmono chip hroot
  | false => exact hall chip (List.mem_filter.2 ⟨hchip, by simp [hroot]⟩)

/-! ## Failures -/

theorem grow_fails (ht : t.Sound m) : FailsOnly IsRoutingLimit (grow m fuel t pending) := by
  induction fuel generalizing t pending with
  | zero => exact FailsOnly.ok t
  | succ fuel ih =>
      cases pending with
      | nil => exact FailsOnly.ok t
      | cons first rest =>
          unfold grow
          simp only
          split
          · exact FailsOnly.error (IsRoutingLimit.unreachable _ _)
          · next found reached hfound =>
              obtain ⟨_, t₁, hgraft, ht₁, _⟩ := graft_found ht hfound
              refine FailsOnly.bind (FailsOnly.of_eq_ok hgraft) fun t₂ ht₂ => ?_
              cases hgraft.symm.trans ht₂
              exact ih ht₁

theorem tree_fails {source : Coord} {destinations : List Coord}
    (hsource : (m.chip? source).isSome) :
    FailsOnly IsRoutingLimit (tree m source destinations) := by
  obtain ⟨chip, hchip⟩ := Cheapest.exists_chip hsource
  refine FailsOnly.bind (FailsOnly.of_eq_ok (lift_eq_ok.2 hchip)) fun _ _ => ?_
  exact grow_fails (sound_root m source)

end MulticastMesh.Routing.Steiner
