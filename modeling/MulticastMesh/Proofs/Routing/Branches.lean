import MulticastMesh.Proofs.Routing.Trees
/-!
# Branches

What a committed tree means for packets, told by the path entries alone: they span a tree of
working links from one chip to the cores of the destinations.
-/

namespace MulticastMesh.Routing

open Mesh (Coord Link Machine)

variable {m : Machine} {paths paths' : PathTable} {s : PartitionSource} {source : Coord}
  {cores : Coord → Nat → Prop}

theorem PathTable.mem_links_iff {chip : Coord} {e : PathEntry} {l : Link}
    (he : paths.entry? chip s = some e) : l ∈ e.route.links ↔ paths.Leaves s chip l := by
  rw [Route.mem_links, PathTable.leaves_iff he]

theorem PathTable.mem_processors_iff {chip : Coord} {e : PathEntry} {p : Nat}
    (he : paths.entry? chip s = some e) : p ∈ e.route.processors ↔ paths.Delivers s chip p := by
  rw [Route.mem_processors, PathTable.delivers_iff he]

/-- The entries of a partition lead over working links from its source to some cores, and enter no
chip in two ways. -/
structure Branches (m : Machine) (paths : PathTable) (s : PartitionSource) (source : Coord)
    (cores : Coord → Nat → Prop) : Prop where
  start : paths.Uses s source
  forward : ∀ (chip : Coord) (l : Link), paths.Leaves s chip l →
    ∃ next, m.linkTarget? chip l = some next ∧ paths.Uses s next
  entrance : ∃ cameFrom : Coord → Option LinkFrom, cameFrom source = none ∧
    ∀ (chip next : Coord) (l : Link), paths.Leaves s chip l → m.linkTarget? chip l = some next →
      cameFrom next = some (chip, l)
  back : ∀ chip : Coord, paths.Uses s chip → chip ≠ source → ∃ (previous : Coord) (l : Link),
    paths.Leaves s previous l ∧ m.linkTarget? previous l = some chip
  /-- The entry of a chip names the link that the branch comes in over. -/
  entered : ∀ (chip : Coord) (e : PathEntry) (l : Link), paths.entry? chip s = some e →
    e.entrance? = some (.link l) → ∃ previous, paths.Leaves s previous l.opposite ∧
      m.linkTarget? previous l.opposite = some chip
  rank : ∃ rank : Coord → Nat, ∀ (chip next : Coord) (l : Link), paths.Leaves s chip l →
    m.linkTarget? chip l = some next → rank chip < rank next
  exact : ∀ (chip : Coord) (p : Nat), paths.Delivers s chip p ↔ cores chip p

theorem Branches.induction (h : Branches m paths s source cores) {P : Coord → Prop}
    (hsource : P source)
    (hstep : ∀ (chip next : Coord) (l : Link), paths.Leaves s chip l →
      m.linkTarget? chip l = some next → P chip → P next) :
    ∀ chip, paths.Uses s chip → P chip := by
  obtain ⟨rank, hrank⟩ := h.rank
  intro chip
  induction hn : rank chip using Nat.strong_induction_on generalizing chip with
  | _ n ih =>
      intro huses
      by_cases hchip : chip = source
      · rw [hchip]
        exact hsource
      · obtain ⟨previous, l, hleaves, htarget⟩ := h.back chip huses hchip
        have hless := hrank previous chip l hleaves htarget
        exact hstep previous chip l hleaves htarget
          (ih _ (hn ▸ hless) previous rfl hleaves.uses)

theorem Branches.congr (h : Branches m paths s source cores)
    (hsame : ∀ chip, paths'.entry? chip s = paths.entry? chip s) :
    Branches m paths' s source cores := by
  have huses : ∀ chip, paths'.Uses s chip ↔ paths.Uses s chip := by
    intro chip
    unfold PathTable.Uses
    rw [hsame]
  have hleaves : ∀ chip l, paths'.Leaves s chip l ↔ paths.Leaves s chip l := by
    intro chip l
    unfold PathTable.Leaves
    rw [hsame]
  have hdelivers : ∀ chip p, paths'.Delivers s chip p ↔ paths.Delivers s chip p := by
    intro chip p
    unfold PathTable.Delivers
    rw [hsame]
  obtain ⟨hstart, hforward, hentrance, hback, hentered, hrank, hexact⟩ := h
  refine ⟨?_, ?_, ?_, ?_, ?_, ?_, ?_⟩
  · simpa only [huses] using hstart
  · simpa only [huses, hleaves] using hforward
  · simpa only [hleaves] using hentrance
  · simpa only [huses, hleaves] using hback
  · simpa only [hleaves, hsame] using hentered
  · simpa only [hleaves] using hrank
  · simpa only [hdelivers] using hexact

namespace Tree

variable {t : Tree} {processor : Nat} {stops : Stops}

/-- The next chip over a link in use is the chip that the tree reaches over it. -/
theorem Laid.cameFrom_eq (h : Laid t processor s stops none paths) (ht : t.Sound m)
    {chip next : Coord} {l : Link} (hleaves : paths.Leaves s chip l)
    (htarget : m.linkTarget? chip l = some next) : t.cameFrom[next]? = some (chip, l) := by
  obtain ⟨next', hstep, _⟩ := h.links chip l hleaves
  have htarget' := ht.link next' chip l hstep
  rw [htarget, Option.some.injEq] at htarget'
  rw [htarget']
  exact hstep

/-- The source of a tree is in use as soon as any chip is. -/
theorem Laid.source_used (h : Laid t processor s stops none paths) (ht : t.Sound m) {chip : Coord}
    (huses : paths.Uses s chip) : paths.Uses s t.source := by
  obtain ⟨rank, hrank⟩ := ht.rank
  induction hn : rank chip using Nat.strong_induction_on generalizing chip with
  | _ n ih =>
      by_cases hchip : chip = t.source
      · rw [← hchip]
        exact huses
      · obtain ⟨previous, l, hstep, hleaves⟩ := h.parents chip huses hchip (by simp)
        exact ih _ (hn ▸ hrank chip previous l hstep) hleaves.uses rfl

theorem Laid.branches (h : Laid t processor s stops none paths) (ht : t.Sound m)
    (hstops : stops ≠ []) : Branches m paths s t.source
      fun chip p => ∃ set, (chip, set) ∈ stops ∧ p ∈ set where
  start := by
    obtain ⟨stop, rest, rfl⟩ := List.exists_cons_of_ne_nil hstops
    exact h.source_used ht (h.reached stop (by simp))
  forward := by
    intro chip l hleaves
    obtain ⟨next, hstep, huses⟩ := h.links chip l hleaves
    exact ⟨next, ht.link next chip l hstep, huses⟩
  entrance := ⟨fun chip => t.cameFrom[chip]?, ht.root,
    fun _ _ _ hleaves htarget => h.cameFrom_eq ht hleaves htarget⟩
  back := by
    intro chip huses hchip
    obtain ⟨previous, l, hstep, hleaves⟩ := h.parents chip huses hchip (by simp)
    exact ⟨previous, l, hleaves, ht.link chip previous l hstep⟩
  entered := by
    intro chip e l he hl
    obtain ⟨x, hx, hentrance⟩ := h.entrance chip e he
    rw [hl, Option.some.injEq] at hentrance
    subst hentrance
    have hchip : chip ≠ t.source := by
      intro heq
      unfold Tree.entrance at hx
      rw [if_pos heq] at hx
      cases hx
    obtain ⟨previous, l', hstep, hleaves⟩ := h.parents chip ⟨e, he⟩ hchip (by simp)
    unfold Tree.entrance at hx
    rw [if_neg hchip, hstep] at hx
    cases hx
    rw [Link.opposite_opposite]
    exact ⟨previous, hleaves, ht.link chip previous l' hstep⟩
  rank := by
    obtain ⟨rank, hrank⟩ := ht.rank
    exact ⟨rank, fun chip next l hleaves htarget =>
      hrank next chip l (h.cameFrom_eq ht hleaves htarget)⟩
  exact := h.processors

end Tree

end MulticastMesh.Routing
