import Mathlib.Data.List.Perm.Subperm
import Mathlib.Data.Nat.SuccPred
import MulticastMesh.Proofs.Maps
import MulticastMesh.Proofs.Routing.Routes
import MulticastMesh.Routing.Tree
/-!
# Committing a routing tree

A sound tree can always be committed: the walk back from a destination never meets a chip twice,
and all walks agree on how each chip is entered.  Afterwards the path entries of the partition
hold exactly the branches of the tree that lead to destinations.
-/

namespace MulticastMesh.Routing

open Mesh (Coord Link Machine)
open Outcome

inductive IsRoutingLimit : Cause → Prop where
  | unreachable (source destination : Coord) :
      IsRoutingLimit (.routing (.unreachable source destination))
  | entriesExhausted (chip : Coord) : IsRoutingLimit (.routing (.entriesExhausted chip))
  | bandwidthExhausted (chip : Coord) (link : Link) :
      IsRoutingLimit (.routing (.bandwidthExhausted chip link))

namespace PathTable

def Uses (paths : PathTable) (s : PartitionSource) (chip : Coord) : Prop :=
  ∃ e, paths.entry? chip s = some e

def Leaves (paths : PathTable) (s : PartitionSource) (chip : Coord) (l : Link) : Prop :=
  ∃ e, paths.entry? chip s = some e ∧ e.route.hasLink l = true

def Delivers (paths : PathTable) (s : PartitionSource) (chip : Coord) (p : Nat) : Prop :=
  ∃ e, paths.entry? chip s = some e ∧ e.route.hasProcessor p = true

variable {paths : PathTable} {s : PartitionSource} {chip : Coord} {e : PathEntry}

theorem Leaves.uses {l : Link} (h : paths.Leaves s chip l) : paths.Uses s chip := by
  obtain ⟨e, he, _⟩ := h
  exact ⟨e, he⟩

theorem Delivers.uses {p : Nat} (h : paths.Delivers s chip p) : paths.Uses s chip := by
  obtain ⟨e, he, _⟩ := h
  exact ⟨e, he⟩

theorem leaves_iff (he : paths.entry? chip s = some e) {l : Link} :
    paths.Leaves s chip l ↔ e.route.hasLink l = true := by
  unfold Leaves
  rw [he]
  simp

theorem delivers_iff (he : paths.entry? chip s = some e) {p : Nat} :
    paths.Delivers s chip p ↔ e.route.hasProcessor p = true := by
  unfold Delivers
  rw [he]
  simp

end PathTable

namespace Tree

/-- A tree of working links that grows from its source. -/
structure Sound (m : Machine) (t : Tree) : Prop where
  root : t.cameFrom[t.source]? = none
  link : ∀ (chip previous : Coord) (l : Link), t.cameFrom[chip]? = some (previous, l) →
    m.linkTarget? previous l = some chip
  closed : ∀ (chip previous : Coord) (l : Link), t.cameFrom[chip]? = some (previous, l) →
    t.contains previous = true
  rank : ∃ rank : Coord → Nat, ∀ (chip previous : Coord) (l : Link),
    t.cameFrom[chip]? = some (previous, l) → rank previous < rank chip

variable {m : Machine} {t : Tree} {processor fuel : Nat} {s : PartitionSource}
  {chip destination previous : Coord} {paths paths' : PathTable} {e : PathEntry} {x : Entrance}

theorem contains_iff : t.contains chip = true ↔
    chip = t.source ∨ ∃ step, t.cameFrom[chip]? = some step := by
  unfold contains
  rw [Bool.or_eq_true, beq_iff_eq, Std.ExtTreeMap.contains_eq_isSome_getElem?,
    Option.isSome_iff_exists]

theorem exists_entrance (processor : Nat) (h : t.contains chip = true) :
    ∃ x, t.entrance processor chip = .ok x := by
  unfold entrance
  rcases contains_iff.1 h with rfl | ⟨⟨previous, l⟩, hstep⟩
  · exact ⟨_, if_pos rfl⟩
  · split
    · exact ⟨_, rfl⟩
    · simp only [hstep]
      exact ⟨_, rfl⟩

/-! ## Path entries -/

def SameElsewhere (s : PartitionSource) (paths paths' : PathTable) : Prop :=
  ∀ chip s', s' ≠ s → paths'.entry? chip s' = paths.entry? chip s'

theorem SameElsewhere.refl : SameElsewhere s paths paths := fun _ _ _ => rfl

theorem SameElsewhere.trans {paths'' : PathTable} (h : SameElsewhere s paths paths')
    (h' : SameElsewhere s paths' paths'') : SameElsewhere s paths paths'' :=
  fun chip s' hne => (h' chip s' hne).trans (h chip s' hne)

structure Added (chip : Coord) (s : PartitionSource) (e : PathEntry) (x : Entrance)
    (paths paths' : PathTable) : Prop where
  here : ∃ e', paths'.entry? chip s = some e' ∧ e'.entrance? = some x
  leaves : ∀ l, paths'.Leaves s chip l ↔ e.route.hasLink l = true ∨ paths.Leaves s chip l
  delivers : ∀ p, paths'.Delivers s chip p ↔
    e.route.hasProcessor p = true ∨ paths.Delivers s chip p
  elsewhere : ∀ c s', (c, s') ≠ (chip, s) → paths'.entry? c s' = paths.entry? c s'

theorem Added.sameElsewhere (h : Added chip s e x paths paths') : SameElsewhere s paths paths' :=
  fun c _ hne => h.elsewhere c _ fun heq => hne (Prod.mk.inj heq).2

theorem entry?_insert {c : Coord} {s' : PartitionSource} :
    PathTable.entry? ⟨paths.entries.insert (chip, s) e⟩ c s' =
      if (chip, s) = (c, s') then some e else paths.entry? c s' :=
  Maps.getElem?_insert_eq_ite

theorem add_spec (hx : e.entrance? = some x)
    (hold : ∀ e₀, paths.entry? chip s = some e₀ → e₀.entrance? = some x) :
    ∃ e', paths.add chip s e = .ok ⟨paths.entries.insert (chip, s) e'⟩ ∧
      e'.entrance? = some x ∧
      (∀ l, e'.route.hasLink l = true ↔ e.route.hasLink l = true ∨ paths.Leaves s chip l) ∧
      ∀ p, e'.route.hasProcessor p = true ↔
        e.route.hasProcessor p = true ∨ paths.Delivers s chip p := by
  unfold PathTable.add PathTable.Leaves PathTable.Delivers
  cases hfound : paths.entry? chip s with
  | none => exact ⟨e, rfl, hx, by simp, by simp⟩
  | some e₀ =>
      have hmerge : e₀.merge e chip s.identifier = .ok ⟨e₀.route.union e.route, some x⟩ := by
        unfold PathEntry.merge
        rw [hold e₀ hfound, hx]
        simp
      simp only [hmerge]
      refine ⟨⟨e₀.route.union e.route, some x⟩, rfl, rfl, fun l => ?_, fun p => ?_⟩
      · simp [or_comm]
      · simp [or_comm]

/-- Entries that enter a chip in the same way can be added to each other. -/
theorem addPath_spec (hx : e.entrance? = some x)
    (hold : ∀ e₀, paths.entry? chip s = some e₀ → e₀.entrance? = some x) :
    ∃ paths', (addPath chip s e).run.run paths = (.ok (), paths') ∧
      Added chip s e x paths paths' := by
  obtain ⟨e', hadd, hentrance, hlinks, hprocessors⟩ := add_spec hx hold
  have he' : PathTable.entry? ⟨paths.entries.insert (chip, s) e'⟩ chip s = some e' := by
    rw [entry?_insert, if_pos rfl]
  refine ⟨⟨paths.entries.insert (chip, s) e'⟩, ?_, ?_⟩
  · refine change_bind_eq_ok.2 ⟨paths, paths, change_get_eq_ok.2 ⟨rfl, rfl⟩, ?_⟩
    simp only [hadd]
    exact change_set_eq_ok.2 rfl
  · refine ⟨⟨e', he', hentrance⟩, fun l => ?_, fun p => ?_, fun c s' hne => ?_⟩
    · rw [PathTable.leaves_iff he', hlinks]
    · rw [PathTable.delivers_iff he', hprocessors]
    · rw [entry?_insert, if_neg (Ne.symm hne)]

section

variable (h : Added chip s e x paths paths')

include h

theorem Added.entry_eq {c : Coord} (hc : c ≠ chip) : paths'.entry? c s = paths.entry? c s :=
  h.elsewhere c s fun heq => hc (Prod.mk.inj heq).1

theorem Added.uses_iff {c : Coord} : paths'.Uses s c ↔ c = chip ∨ paths.Uses s c := by
  obtain ⟨e', he', _⟩ := h.here
  by_cases hc : c = chip
  · subst hc
    simp [PathTable.Uses, he']
  · unfold PathTable.Uses
    rw [h.entry_eq hc]
    simp [hc]

theorem Added.leaves_iff {c : Coord} {l : Link} : paths'.Leaves s c l ↔
    c = chip ∧ e.route.hasLink l = true ∨ paths.Leaves s c l := by
  by_cases hc : c = chip
  · subst hc
    simp [h.leaves]
  · unfold PathTable.Leaves
    rw [h.entry_eq hc]
    simp [hc]

theorem Added.delivers_iff {c : Coord} {p : Nat} : paths'.Delivers s c p ↔
    c = chip ∧ e.route.hasProcessor p = true ∨ paths.Delivers s c p := by
  by_cases hc : c = chip
  · subst hc
    simp [h.delivers]
  · unfold PathTable.Delivers
    rw [h.entry_eq hc]
    simp [hc]

end

/-! ## What commitment keeps -/

abbrev Stops := List (Coord × Std.ExtTreeSet Nat compare)

/-- Path entries of a partition that hold the branches to some destinations.  The branch to one
chip may still be without its way back. -/
structure Laid (t : Tree) (processor : Nat) (s : PartitionSource) (stops : Stops)
    (loose? : Option Coord) (paths : PathTable) : Prop where
  entrance : ∀ chip e, paths.entry? chip s = some e →
    ∃ x, t.entrance processor chip = .ok x ∧ e.entrance? = some x
  contains : ∀ chip, paths.Uses s chip → t.contains chip = true
  links : ∀ (chip : Coord) (l : Link), paths.Leaves s chip l →
    ∃ next, t.cameFrom[next]? = some (chip, l) ∧ paths.Uses s next
  parents : ∀ chip, paths.Uses s chip → chip ≠ t.source → some chip ≠ loose? →
    ∃ (previous : Coord) (l : Link), t.cameFrom[chip]? = some (previous, l) ∧
      paths.Leaves s previous l
  processors : ∀ chip p, paths.Delivers s chip p ↔ ∃ set, (chip, set) ∈ stops ∧ p ∈ set
  reached : ∀ stop ∈ stops, paths.Uses s stop.1

variable {stops : Stops} {loose? : Option Coord}

theorem Laid.entrance_eq (h : Laid t processor s stops loose? paths)
    (hx : t.entrance processor chip = .ok x) :
    ∀ e₀, paths.entry? chip s = some e₀ → e₀.entrance? = some x := by
  intro e₀ he₀
  obtain ⟨y, hy, hentrance⟩ := h.entrance chip e₀ he₀
  cases hx.symm.trans hy
  exact hentrance

/-- Adding an entry on a chip of the tree.  The way back from the chip may be missing then, and
the way back to it must be the only one that was missing before. -/
theorem Laid.add {stops' : Stops} (h : Laid t processor s stops loose? paths)
    (hadd : Added chip s e x paths paths') (hx : t.entrance processor chip = .ok x)
    (hchip : t.contains chip = true)
    (hlinks : ∀ l, e.route.hasLink l = true →
      ∃ next, t.cameFrom[next]? = some (chip, l) ∧ paths.Uses s next)
    (hloose : ∀ c : Coord, some c = loose? → c ≠ t.source → c ≠ chip →
      ∃ l, t.cameFrom[c]? = some (chip, l) ∧ e.route.hasLink l = true)
    (hprocessors : ∀ c p, (∃ set, (c, set) ∈ stops' ∧ p ∈ set) ↔
      c = chip ∧ e.route.hasProcessor p = true ∨ ∃ set, (c, set) ∈ stops ∧ p ∈ set)
    (hreached : ∀ stop ∈ stops', stop ∈ stops ∨ stop.1 = chip) :
    Laid t processor s stops' (some chip) paths' := by
  refine ⟨?_, ?_, ?_, ?_, ?_, ?_⟩
  · intro c f hf
    by_cases hc : c = chip
    · subst hc
      obtain ⟨e', he', hentrance⟩ := hadd.here
      cases he'.symm.trans hf
      exact ⟨x, hx, hentrance⟩
    · rw [hadd.entry_eq hc] at hf
      exact h.entrance c f hf
  · intro c hc
    rcases hadd.uses_iff.1 hc with rfl | hc
    · exact hchip
    · exact h.contains c hc
  · intro c l hl
    obtain ⟨next, hnext, huses⟩ : ∃ next, t.cameFrom[next]? = some (c, l) ∧
        paths.Uses s next := by
      rcases hadd.leaves_iff.1 hl with ⟨rfl, hl⟩ | hl
      · exact hlinks l hl
      · exact h.links c l hl
    exact ⟨next, hnext, hadd.uses_iff.2 (Or.inr huses)⟩
  · intro c hc hsource hne
    have hne : c ≠ chip := fun heq => hne (congrArg some heq)
    have hold := (hadd.uses_iff.1 hc).resolve_left hne
    by_cases hcl : some c = loose?
    · obtain ⟨l, hfrom, hl⟩ := hloose c hcl hsource hne
      exact ⟨chip, l, hfrom, hadd.leaves_iff.2 (Or.inl ⟨rfl, hl⟩)⟩
    · obtain ⟨previous, l, hfrom, hl⟩ := h.parents c hold hsource hcl
      exact ⟨previous, l, hfrom, hadd.leaves_iff.2 (Or.inr hl)⟩
  · intro c p
    rw [hprocessors c p, hadd.delivers_iff, h.processors c p]
  · intro stop hstop
    rcases hreached stop hstop with hstop | hstop
    · exact hadd.uses_iff.2 (Or.inr (h.reached stop hstop))
    · exact hadd.uses_iff.2 (Or.inl hstop)

/-! ## Walking back -/

theorem Laid.close (h : Laid t processor s stops (some t.source) paths) :
    Laid t processor s stops none paths where
  entrance := h.entrance
  contains := h.contains
  links := h.links
  parents := fun chip huses hsource _ =>
    h.parents chip huses hsource fun heq => hsource (Option.some.inj heq)
  processors := h.processors
  reached := h.reached

theorem deliver_spec {set : Std.ExtTreeSet Nat compare} (h : Laid t processor s stops none paths)
    (hchip : t.contains chip = true) (hset : ∀ p ∈ set, p < Mesh.maxProcessors) :
    ∃ paths', (t.deliver processor s chip set.toList).run.run paths = (.ok (), paths') ∧
      Laid t processor s (stops ++ [(chip, set)]) (some chip) paths' ∧
      SameElsewhere s paths paths' := by
  obtain ⟨x, hx⟩ := exists_entrance processor hchip
  obtain ⟨r, hr, hlinks, hprocessors⟩ :=
    Route.ofParts_spec fun p hp => hset p (Std.ExtTreeSet.mem_toList.1 hp)
  obtain ⟨paths', hrun, hadd⟩ := addPath_spec (e := ⟨r, some x⟩) rfl (h.entrance_eq hx)
  refine ⟨paths', ?_, ?_, hadd.sameElsewhere⟩
  · refine change_bind_eq_ok.2 ⟨r, paths, change_result_eq_ok.2 ⟨lift_eq_ok.2 hr, rfl⟩, ?_⟩
    exact change_bind_eq_ok.2 ⟨x, paths, change_result_eq_ok.2 ⟨lift_eq_ok.2 hx, rfl⟩, hrun⟩
  · refine h.add hadd hx hchip ?_ (fun c hc => by cases hc) ?_ ?_
    · intro l hl
      rw [hlinks l] at hl
      cases hl
    · intro c p
      simp only [List.mem_append, List.mem_singleton, Prod.mk.injEq, hprocessors,
        Std.ExtTreeSet.mem_toList]
      constructor
      · rintro ⟨set', hmem | ⟨rfl, rfl⟩, hp⟩
        · exact Or.inr ⟨set', hmem, hp⟩
        · exact Or.inl ⟨rfl, hp⟩
      · rintro (⟨rfl, hp⟩ | ⟨set', hmem, hp⟩)
        · exact ⟨set, Or.inr ⟨rfl, rfl⟩, hp⟩
        · exact ⟨set', Or.inl hmem, hp⟩
    · intro stop hstop
      rcases List.mem_append.1 hstop with hstop | hstop
      · exact Or.inl hstop
      · exact Or.inr (by rw [List.mem_singleton.1 hstop])

/-- One step back: the chip before gets the link to the chip. -/
theorem stepBack_spec {l : Link} (h : Laid t processor s stops (some chip) paths)
    (ht : t.Sound m) (hstep : t.cameFrom[chip]? = some (previous, l))
    (hused : paths.Uses s chip) :
    ∃ x paths', t.entrance processor previous = .ok x ∧
      (addPath previous s ⟨.overLinks [l], some x⟩).run.run paths = (.ok (), paths') ∧
      Laid t processor s stops (some previous) paths' ∧ SameElsewhere s paths paths' ∧
      paths'.Uses s previous := by
  have hcontains := ht.closed chip previous l hstep
  obtain ⟨x, hx⟩ := exists_entrance processor hcontains
  obtain ⟨paths', hrun, hadd⟩ :=
    addPath_spec (e := ⟨.overLinks [l], some x⟩) rfl (h.entrance_eq hx)
  refine ⟨x, paths', hx, hrun, ?_, hadd.sameElsewhere, hadd.uses_iff.2 (Or.inl rfl)⟩
  refine h.add hadd hx hcontains ?_ ?_ ?_ fun stop hstop => Or.inl hstop
  · intro l' hl'
    rw [Route.hasLink_overLink, decide_eq_true_eq] at hl'
    subst hl'
    exact ⟨chip, hstep, hused⟩
  · intro c hc _ _
    cases hc
    exact ⟨l, hstep, by rw [Route.hasLink_overLink, decide_eq_true_eq]⟩
  · intro c p
    simp [Route.hasProcessor_overLink]

/-- Walks do not run out of fuel: the chips behind a walk are different chips of the tree. -/
theorem length_le_size {visited : List Coord} (hnodup : visited.Nodup)
    (hvisited : ∀ c ∈ visited, ∃ step, t.cameFrom[c]? = some step) :
    visited.length ≤ t.cameFrom.size := by
  have hsub : visited ⊆ t.cameFrom.keys := by
    intro c hc
    rw [Std.ExtTreeMap.mem_keys, ← Std.ExtTreeMap.isSome_getElem?_iff_mem,
      Option.isSome_iff_exists]
    exact hvisited c hc
  rw [← Std.ExtTreeMap.length_keys]
  exact (hnodup.subperm hsub).length_le

theorem walkBack_spec (destination : Coord) (fuel : Nat) (visited : List Coord)
    (claimed : List LinkFrom) (ht : t.Sound m)
    (h : Laid t processor s stops (some chip) paths) (hused : paths.Uses s chip)
    {rank : Coord → Nat} (hrank : ∀ (c previous : Coord) (l : Link),
      t.cameFrom[c]? = some (previous, l) → rank previous < rank c)
    (hnodup : visited.Nodup) (hvisited : ∀ c ∈ visited, ∃ step, t.cameFrom[c]? = some step)
    (hbelow : ∀ c ∈ visited, rank chip < rank c)
    (hfuel : t.cameFrom.size < fuel + visited.length) :
    ∃ claimed' paths',
      (t.walkBack processor s destination fuel visited claimed chip).run.run paths =
        (.ok claimed', paths') ∧
      Laid t processor s stops none paths' ∧ SameElsewhere s paths paths' := by
  induction fuel generalizing chip visited claimed paths with
  | zero =>
      have := length_le_size hnodup hvisited
      omega
  | succ fuel ih =>
      unfold walkBack
      by_cases hsource : chip = t.source
      · subst hsource
        rw [if_pos rfl]
        exact ⟨claimed, paths, change_pure_eq_ok.2 ⟨rfl, rfl⟩, h.close, SameElsewhere.refl⟩
      · have hnew : chip ∉ visited := fun hmem => Nat.lt_irrefl _ (hbelow chip hmem)
        have hcontains : visited.contains chip = false := by simpa using hnew
        obtain ⟨⟨previous, l⟩, hstep⟩ :=
          (contains_iff.1 (h.contains chip hused)).resolve_left hsource
        obtain ⟨x, paths₁, hx, hadd, hlaid, hsame, hused'⟩ := stepBack_spec h ht hstep hused
        have hlt := hrank chip previous l hstep
        have hbelow' : ∀ c ∈ chip :: visited, rank previous < rank c := by
          intro c hc
          rcases List.mem_cons.1 hc with rfl | hc
          · exact hlt
          · exact hlt.trans (hbelow c hc)
        have hvisited' : ∀ c ∈ chip :: visited, ∃ step, t.cameFrom[c]? = some step := by
          intro c hc
          rcases List.mem_cons.1 hc with rfl | hc
          · exact ⟨_, hstep⟩
          · exact hvisited c hc
        obtain ⟨claimed', paths', hrun, hlaid', hsame'⟩ := ih (chip :: visited)
          (if claimed.contains (previous, l) then claimed else claimed ++ [(previous, l)])
          hlaid hused' (List.nodup_cons.2 ⟨hnew, hnodup⟩) hvisited' hbelow'
          (by rw [List.length_cons]; omega)
        refine ⟨claimed', paths', ?_, hlaid', hsame.trans hsame'⟩
        rw [if_neg hsource]
        simp only [hcontains, hstep]
        refine change_bind_eq_ok.2 ⟨x, paths, change_result_eq_ok.2 ⟨lift_eq_ok.2 hx, rfl⟩, ?_⟩
        exact change_bind_eq_ok.2 ⟨(), paths₁, hadd, hrun⟩

/-! ## Whole trees -/

theorem laid_nil (h : ∀ chip, paths.entry? chip s = none) :
    Laid t processor s [] none paths := by
  refine ⟨?_, ?_, ?_, ?_, ?_, ?_⟩ <;>
    simp [h, PathTable.Uses, PathTable.Leaves, PathTable.Delivers]

theorem commit_spec (processor : Nat) {destinations : Destinations} (ht : t.Sound m)
    (hfresh : ∀ chip, paths.entry? chip s = none)
    (hcontains : ∀ chip ∈ destinations.chips, t.contains chip = true)
    (hprocessors : ∀ (chip : Coord) set, destinations[chip]? = some set →
      ∀ p ∈ set, p < Mesh.maxProcessors) :
    ∃ claimed paths', (t.commit destinations processor s).run.run paths = (.ok claimed, paths') ∧
      Laid t processor s destinations.toList none paths' ∧ SameElsewhere s paths paths' := by
  obtain ⟨rank, hrank⟩ := ht.rank
  refine change_foldlM_ok
    (motive := fun stops _ paths' => Laid t processor s stops none paths' ∧
      SameElsewhere s paths paths') ⟨laid_nil hfresh, SameElsewhere.refl⟩ ?_
  rintro before ⟨chip, set⟩ after hsplit claimed paths₁ ⟨hlaid, hsame⟩
  have hmem : (chip, set) ∈ destinations.toList := by simp [hsplit]
  have hchip : t.contains chip = true := hcontains chip (List.mem_map_of_mem hmem)
  have hset := hprocessors chip set (Std.ExtTreeMap.mem_toList_iff_getElem?_eq_some.1 hmem)
  obtain ⟨paths₂, hdeliver, hlaid₂, hsame₂⟩ := deliver_spec hlaid hchip hset
  obtain ⟨claimed', paths₃, hwalk, hlaid₃, hsame₃⟩ :=
    walkBack_spec chip (t.cameFrom.size + 2) [] claimed ht hlaid₂
      (hlaid₂.reached (chip, set) (by simp)) hrank
      List.nodup_nil (by simp) (by simp) (by simp)
  exact ⟨claimed', paths₃, change_bind_eq_ok.2 ⟨(), paths₂, hdeliver, hwalk⟩, hlaid₃,
    hsame.trans (hsame₂.trans hsame₃)⟩

end Tree

end MulticastMesh.Routing
