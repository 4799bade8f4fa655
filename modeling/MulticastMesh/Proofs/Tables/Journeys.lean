import MulticastMesh.Proofs.Routing.Branches
import MulticastMesh.Proofs.Tables.Generated
/-!
# Journeys of packets

A packet enters the router of its source's chip and then every router that a first matching entry
sends it on to.  Tables that carry the keys of a partition take its packets along the branches of
the partition, and so exactly to the cores where these end.
-/

namespace MulticastMesh.Tables

open Keys (Key)
open Mesh (Coord Link Machine)
open Routing (Branches LinkFrom PartitionSource PathTable)

variable {m : Machine} {tables : TableSet} {paths : PathTable} {s : PartitionSource} {k : Key}
  {source chip : Coord} {hops hops' : List LinkFrom} {cores : Coord → Nat → Prop}

/-- The ways that packets of a key take from a chip, each with its last hop first. -/
inductive Journey (m : Machine) (tables : TableSet) (k : Key) (source : Coord) :
    List LinkFrom → Coord → Prop where
  | start : Journey m tables k source [] source
  | hop {hops : List LinkFrom} {chip next : Coord} {e : Entry} {l : Link}
      (h : Journey m tables k source hops chip) (hmatch : tables.lookup? chip k = some e)
      (hl : l ∈ e.route.links) (htarget : m.linkTarget? chip l = some next) :
      Journey m tables k source ((chip, l) :: hops) next

/-- Packets of a key find an entry on every chip that they enter, leave it over working links
only, enter no chip twice, and are delivered to exactly the given cores. -/
structure Arrives (m : Machine) (tables : TableSet) (k : Key) (source : Coord)
    (cores : Coord → Nat → Prop) : Prop where
  matched : ∀ hops chip, Journey m tables k source hops chip →
    ∃ e, tables.lookup? chip k = some e
  alive : ∀ hops chip, Journey m tables k source hops chip →
    ∀ e, tables.lookup? chip k = some e → ∀ l ∈ e.route.links,
      ∃ next, m.linkTarget? chip l = some next
  once : ∀ hops hops' chip, Journey m tables k source hops chip →
    Journey m tables k source hops' chip → hops = hops'
  exact : ∀ chip p, (∃ hops, Journey m tables k source hops chip ∧
    ∃ e, tables.lookup? chip k = some e ∧ p ∈ e.route.processors) ↔ cores chip p

variable (h : Branches m paths s source cores) (hk : Carries tables paths s k)

include hk in
theorem Carries.exists_lookup (huses : paths.Uses s chip) :
    ∃ e, tables.lookup? chip k = some e := by
  obtain ⟨path, hpath⟩ := huses
  obtain ⟨e, he, _⟩ := hk chip path hpath
  exact ⟨e, he⟩

include hk in
theorem Carries.lookup {e : Entry} (huses : paths.Uses s chip)
    (hmatch : tables.lookup? chip k = some e) :
    (∀ l, l ∈ e.route.links ↔ paths.Leaves s chip l) ∧
      ∀ p, p ∈ e.route.processors ↔ paths.Delivers s chip p := by
  obtain ⟨path, hpath⟩ := huses
  obtain ⟨f, hf, hroute⟩ := hk chip path hpath
  cases hmatch.symm.trans hf
  rw [hroute]
  exact ⟨fun l => PathTable.mem_links_iff hpath, fun p => PathTable.mem_processors_iff hpath⟩

include h hk

/-- Packets stay on the branches. -/
theorem uses_of_journey (hj : Journey m tables k source hops chip) : paths.Uses s chip := by
  induction hj with
  | start => exact h.start
  | hop _ hmatch hl htarget ih =>
      have hleaves := ((hk.lookup ih hmatch).1 _).1 hl
      obtain ⟨next, htarget', huses⟩ := h.forward _ _ hleaves
      cases htarget.symm.trans htarget'
      exact huses

theorem exists_journey : ∀ chip, paths.Uses s chip →
    ∃ hops, Journey m tables k source hops chip := by
  refine h.induction ⟨[], Journey.start⟩ ?_
  rintro chip next l hleaves htarget ⟨hops, hj⟩
  have huses := hleaves.uses
  obtain ⟨e, he⟩ := hk.exists_lookup huses
  exact ⟨_, hj.hop he (((hk.lookup huses he).1 l).2 hleaves) htarget⟩

/-- There is one way to every chip: the last hops of two ways are the same link. -/
theorem journey_unique (hj : Journey m tables k source hops chip)
    (hj' : Journey m tables k source hops' chip) : hops = hops' := by
  obtain ⟨cameFrom, hsource, hcameFrom⟩ := h.entrance
  have hlast : ∀ {hops : List LinkFrom} {chip next : Coord} {e : Entry} {l : Link},
      Journey m tables k source hops chip → tables.lookup? chip k = some e →
      l ∈ e.route.links → m.linkTarget? chip l = some next →
      cameFrom next = some (chip, l) := by
    intro hops chip next e l hj hmatch hl htarget
    have huses := uses_of_journey h hk hj
    exact hcameFrom chip next l (((hk.lookup huses hmatch).1 l).1 hl) htarget
  induction hj generalizing hops' with
  | start =>
      cases hj' with
      | start => rfl
      | hop hj' hmatch' hl' htarget' =>
          have hfrom := hlast hj' hmatch' hl' htarget'
          rw [hsource] at hfrom
          cases hfrom
  | hop hj hmatch hl htarget ih =>
      have hfrom := hlast hj hmatch hl htarget
      cases hj' with
      | start =>
          rw [hsource] at hfrom
          cases hfrom
      | hop hj' hmatch' hl' htarget' =>
          have hfrom' := hlast hj' hmatch' hl' htarget'
          cases hfrom.symm.trans hfrom'
          rw [ih hj']

theorem arrives_of_branches : Arrives m tables k source cores where
  matched := fun hops chip hj => hk.exists_lookup (uses_of_journey h hk hj)
  alive := by
    intro hops chip hj e hmatch l hl
    have huses := uses_of_journey h hk hj
    obtain ⟨next, htarget, _⟩ := h.forward chip l (((hk.lookup huses hmatch).1 l).1 hl)
    exact ⟨next, htarget⟩
  once := fun hops hops' chip hj hj' => journey_unique h hk hj hj'
  exact := by
    intro chip p
    rw [← h.exact]
    constructor
    · rintro ⟨hops, hj, e, hmatch, hp⟩
      exact ((hk.lookup (uses_of_journey h hk hj) hmatch).2 p).1 hp
    · intro hdelivers
      have huses := hdelivers.uses
      obtain ⟨hops, hj⟩ := exists_journey h hk chip huses
      obtain ⟨e, he⟩ := hk.exists_lookup huses
      exact ⟨hops, hj, e, he, ((hk.lookup huses he).2 p).2 hdelivers⟩

end MulticastMesh.Tables
