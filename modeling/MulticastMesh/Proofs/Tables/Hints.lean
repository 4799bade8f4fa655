import MulticastMesh.Proofs.Tables.Compressed
import MulticastMesh.Proofs.Tables.Journeys
/-!
# Defaultable entries

A path entry is defaultable if packets leave the chip in the direction in which they came.
Generated entries have the flags of the path entries that they follow.  A join is defaultable only
if all of its members are, but it may catch keys of an entry that is no member: the flag then
speaks for the members only.
-/

namespace MulticastMesh.Tables

open Keys (Allotted Grant Key)
open Mesh (Coord Link Machine)
open Routing (Branches LinkFrom PartitionSource PathEntry PathTable Route)
open MulticastMesh.Graph (MachineGraph)

variable {before middle after entries : List Entry} {e f : Entry} {c : Compressor}
  {g : MachineGraph} {a : Keys.Assignment} {grants : List Grant} {paths : PathTable}
  {chip : Coord} {path : PathEntry} {k : Key}

/-- A route that goes on over one link and is delivered nowhere. -/
def Through (route : Route) (l : Link) : Prop := route.links = [l] ∧ route.processors = []

theorem defaultable_iff : path.defaultable = true ↔
    ∃ l, path.entrance? = some (.link l) ∧ Through path.route l.opposite := by
  unfold PathEntry.defaultable Through
  split
  · next l hentrance =>
      rw [hentrance, Bool.and_eq_true, List.isEmpty_iff, beq_iff_eq]
      constructor
      · rintro ⟨hprocessors, hlinks⟩
        exact ⟨l, rfl, hlinks, hprocessors⟩
      · rintro ⟨l', hl, hlinks, hprocessors⟩
        cases hl
        exact ⟨hprocessors, hlinks⟩
  · next hother =>
      constructor
      · intro h
        cases h
      · rintro ⟨l, hl, _⟩
        exact absurd hl (hother l)

/-! ## Where entries come from -/

/-- Every later entry goes back to an earlier one with its route, and to a defaultable one if it
is defaultable. -/
def GoesBack (before after : List Entry) : Prop :=
  ∀ f ∈ after, ∃ e ∈ before, e.route = f.route ∧ (f.defaultable = true → e.defaultable = true)

theorem GoesBack.of_subset (h : ∀ f ∈ after, f ∈ before) : GoesBack before after :=
  fun f hf => ⟨f, h f hf, rfl, id⟩

theorem GoesBack.refl : GoesBack entries entries := GoesBack.of_subset fun _ hf => hf

theorem GoesBack.trans (h : GoesBack before middle) (h' : GoesBack middle after) :
    GoesBack before after := by
  intro f hf
  obtain ⟨d, hd, hroute, hflag⟩ := h' f hf
  obtain ⟨e, he, hroute', hflag'⟩ := h d hd
  exact ⟨e, he, hroute'.trans hroute, fun hf => hflag' (hflag hf)⟩

theorem GoesBack.append {before' after' : List Entry} (h : GoesBack before after)
    (h' : GoesBack before' after') : GoesBack (before ++ before') (after ++ after') := by
  intro f hf
  rcases List.mem_append.1 hf with hf | hf
  · obtain ⟨e, he, hback⟩ := h f hf
    exact ⟨e, List.mem_append_left _ he, hback⟩
  · obtain ⟨e, he, hback⟩ := h' f hf
    exact ⟨e, List.mem_append_right _ he, hback⟩

namespace Unordered

variable {others : List Entry}

theorem absorb_grows (others : List Entry) (e : Entry) (l : List Entry) :
    (absorb others e l).1.route = e.route ∧
      ((absorb others e l).1.defaultable = true → e.defaultable = true) ∧
      ∀ f ∈ (absorb others e l).2, f ∈ l := by
  induction l generalizing e with
  | nil => exact ⟨rfl, id, by simp [absorb]⟩
  | cons d l ih =>
      unfold absorb
      split
      · obtain ⟨hroute, hflag, hleft⟩ := ih e
        refine ⟨hroute, hflag, ?_⟩
        rw [List.forall_mem_cons]
        exact ⟨by simp, fun f hf => List.mem_cons_of_mem d (hleft f hf)⟩
      · obtain ⟨hroute, hflag, hleft⟩ := ih (e.join d)
        refine ⟨hroute, ?_, fun f hf => List.mem_cons_of_mem d (hleft f hf)⟩
        intro hjoined
        have hboth := hflag hjoined
        unfold Entry.join at hboth
        exact (Bool.and_eq_true_iff.1 hboth).1

theorem goesBack_joinGroup (fuel : Nat) : GoesBack entries (joinGroup others fuel entries) := by
  induction fuel generalizing entries with
  | zero => exact GoesBack.refl
  | succ fuel ih =>
      cases entries with
      | nil => exact GoesBack.of_subset (by simp [joinGroup])
      | cons e l =>
          obtain ⟨hroute, hflag, hleft⟩ := absorb_grows others e l
          unfold joinGroup
          intro f hf
          rcases List.mem_cons.1 hf with rfl | hf
          · exact ⟨e, by simp, hroute.symm, hflag⟩
          · obtain ⟨d, hd, hback⟩ := ih f hf
            exact ⟨d, List.mem_cons_of_mem e (hleft d hd), hback⟩

theorem goesBack_joinGroups (done todo : List Group) :
    GoesBack ((done ++ todo).flatMap fun g => g.entries)
      ((joinGroups done todo).flatMap fun g => g.entries) := by
  induction todo generalizing done with
  | nil =>
      rw [List.append_nil]
      exact GoesBack.refl
  | cons g rest ih =>
      have hstep : joinGroups done (g :: rest) = joinGroups (done ++ [joined done rest g]) rest :=
        rfl
      rw [hstep]
      refine GoesBack.trans ?_ (ih (done ++ [joined done rest g]))
      simp only [List.flatMap_append, List.flatMap_cons, List.flatMap_nil, List.append_nil,
        List.append_assoc]
      exact GoesBack.refl.append ((goesBack_joinGroup g.entries.length).append GoesBack.refl)

theorem goesBack_minimise (table : List Entry) : GoesBack table (minimise table) := by
  refine GoesBack.trans (GoesBack.of_subset ?_) (goesBack_joinGroups [] (group table))
  intro e he
  obtain ⟨g, hg, he⟩ := List.mem_flatMap.1 he
  obtain ⟨route, _, rfl⟩ := List.mem_map.1 hg
  exact (List.mem_filter.1 he).1

end Unordered

namespace OrderedCovering

variable {table : Array Entry} {origins : Origins} {route : Route} {m : Merge}

theorem goesBack_apply (h : MergeOf table route m) (hne : m.members ≠ []) :
    GoesBack table.toList (m.apply table).toList := by
  have hkept : ∀ positions : List Nat, ∀ f ∈ positions.filterMap fun i => table[i]?,
      f ∈ table.toList := by
    intro positions f hf
    obtain ⟨i, _, hi⟩ := List.mem_filterMap.1 hf
    exact Array.mem_toList_iff.2 (Array.mem_of_getElem? hi)
  intro f hf
  rw [toList_apply, List.mem_append, List.mem_cons] at hf
  rcases hf with hf | rfl | hf
  · exact ⟨f, hkept _ f hf, rfl, id⟩
  · obtain ⟨i, hi⟩ := List.exists_mem_of_ne_nil _ hne
    obtain ⟨e, he, hroute⟩ := h.entry i hi
    have hmember : e ∈ m.members.filterMap fun i => table[i]? := List.mem_filterMap.2 ⟨i, hi, he⟩
    refine ⟨e, hkept _ e hmember, hroute.trans (h.route_entry hne).symm, fun hall => ?_⟩
    exact List.all_eq_true.1 hall e hmember
  · exact ⟨f, hkept _ f hf, rfl, id⟩

theorem goesBack_mergeAll {initial : List Entry} (fuel : Nat)
    (h : Faithful initial table origins) :
    GoesBack table.toList (mergeAll fuel table origins).toList := by
  induction fuel generalizing table origins with
  | zero => exact GoesBack.refl
  | succ fuel ih =>
      rw [mergeAll]
      by_cases hnone : (bestMerge table origins).goodness ≤ 0
      · rw [if_pos hnone]
        exact GoesBack.refl
      · rw [if_neg hnone]
        have hgood : 0 < (bestMerge table origins).goodness := by omega
        obtain ⟨route, hm⟩ := bestMerge_spec h.sorted h.proper hgood
        exact (goesBack_apply hm.merge (Merge.members_ne_nil hgood)).trans (ih (h.apply hm))

theorem goesBack_minimise {table : List Entry} (h : SpecificFirst table)
    (hproper : AllProper table) : GoesBack table (minimise table) := by
  have hsorted : GoesBack table (sortByGenerality table) :=
    GoesBack.of_subset fun f hf => (perm_sortByGenerality table).mem_iff.1 hf
  exact hsorted.trans (goesBack_mergeAll table.length (faithful_sortByGenerality h hproper))

end OrderedCovering

theorem goesBack_compressor (c : Compressor) (h : Unambiguous entries)
    (hproper : AllProper entries) : GoesBack entries (c.minimise entries) := by
  cases c with
  | orderedCovering =>
      exact OrderedCovering.goesBack_minimise (specificFirst_of_unambiguous h) hproper
  | unordered => exact Unordered.goesBack_minimise entries
  | none => exact GoesBack.refl

/-! ## What the flags say -/

/-- A packet goes straight on: it leaves over the link opposite to the one that it came in over. -/
def GoesOn (hops : List LinkFrom) (e : Entry) : Prop :=
  ∃ l previous rest, Through e.route l ∧ hops = (previous, l) :: rest

/-- Entries with one route agree on whether they are defaultable. -/
def HintsByRoute (entries : List Entry) : Prop :=
  ∀ e ∈ entries, ∀ f ∈ entries, e.route = f.route → e.defaultable = f.defaultable

/-- Defaultable entries pass packets through. -/
theorem Tabulates.through (h : Tabulates g a grants (paths.entriesOn chip) entries)
    (he : e ∈ entries) (hflag : e.defaultable = true) : ∃ l, Through e.route l := by
  obtain ⟨⟨s, path⟩, _, _, hfollows⟩ :=
    h.sound e he e.pattern.key ((h.proper e he).matches_key)
  obtain ⟨l, _, hthrough⟩ := defaultable_iff.1 (hfollows.defaultable_eq.symm.trans hflag)
  exact ⟨l.opposite, hfollows.route_eq ▸ hthrough⟩

theorem Compressed.exists_origin {tables tables' : TableSet}
    (h : Compressed c tables.toList tables') (horder : Orderless tables)
    (hf : tables'.lookup? chip k = some f) :
    ∃ entries, tables.entries? chip = some entries ∧ (c = .none → lookup? entries k = some f) ∧
      ∃ e ∈ entries, e.route = f.route ∧ (f.defaultable = true → e.defaultable = true) := by
  obtain ⟨entries', hentries', hlookup⟩ := lookup?_eq_some_iff.1 hf
  obtain ⟨t, ht, rfl⟩ := h.sound chip entries' hentries'
  cases hentries'.symm.trans (h.complete t ht)
  have hentries := mem_toList_tables.1 ht
  obtain ⟨hunambiguous, hproper⟩ := horder t.chip t.entries hentries
  refine ⟨t.entries, hentries, fun hnone => ?_, ?_⟩
  · rw [hnone] at hlookup
    exact hlookup
  · exact goesBack_compressor c hunambiguous hproper f (mem_of_lookup? hlookup)

section Journeys

variable {m : Machine} {tables tables' : TableSet} {s : PartitionSource} {source : Coord}
  {hops : List LinkFrom} {cores : Coord → Nat → Prop}

theorem entered_of_journey (h : Branches m paths s source cores)
    (hk : Carries tables paths s k) (hj : Journey m tables k source hops chip)
    (hpath : paths.entry? chip s = some path) {l : Link}
    (hentrance : path.entrance? = some (.link l)) :
    ∃ previous rest, hops = (previous, l.opposite) :: rest := by
  obtain ⟨cameFrom, hsource, hcameFrom⟩ := h.entrance
  obtain ⟨previous, hleaves, htarget⟩ := h.entered chip path l hpath hentrance
  have hfrom := hcameFrom previous chip l.opposite hleaves htarget
  cases hj with
  | start =>
      rw [hsource] at hfrom
      cases hfrom
  | @hop hops chip' _ e l' hj hmatch hl htarget' =>
      have huses := uses_of_journey h hk hj
      have hleaves' := ((hk.lookup huses hmatch).1 l').1 hl
      have hfrom' := hcameFrom chip' chip l' hleaves' htarget'
      cases hfrom.symm.trans hfrom'
      exact ⟨previous, hops, rfl⟩

theorem goesOn_of_defaultable (h : Branches m paths s source cores)
    (hk : Carries tables' paths s k) (hj : Journey m tables' k source hops chip)
    (hcompressed : Compressed c tables.toList tables') (horder : Orderless tables)
    (hpath : paths.entry? chip s = some path) (he : tables.lookup? chip k = some e)
    (hfollows : Follows e path) (hf : tables'.lookup? chip k = some f)
    (hflag : f.defaultable = true)
    (hkeeps : c = .none ∨ ∀ entries, tables.entries? chip = some entries → HintsByRoute entries) :
    GoesOn hops f := by
  obtain ⟨entries, hentries, huncompressed, d, hd, hdroute, hdflag⟩ :=
    hcompressed.exists_origin horder hf
  obtain ⟨entries', hentries', hlookup⟩ := lookup?_eq_some_iff.1 he
  cases hentries.symm.trans hentries'
  have hroute : f.route = path.route := by
    obtain ⟨f', hf', hroute⟩ := hk chip path hpath
    cases hf.symm.trans hf'
    exact hroute
  have hown : e.defaultable = true := by
    rcases hkeeps with hnone | hhints
    · cases hlookup.symm.trans (huncompressed hnone)
      exact hflag
    · have hsame : e.route = d.route := by rw [hfollows.route_eq, ← hroute, hdroute]
      rw [hhints entries hentries e (mem_of_lookup? hlookup) d hd hsame]
      exact hdflag hflag
  obtain ⟨l, hentrance, hthrough⟩ :=
    defaultable_iff.1 (hfollows.defaultable_eq.symm.trans hown)
  obtain ⟨previous, rest, hhops⟩ := entered_of_journey h hk hj hpath hentrance
  exact ⟨l.opposite, previous, rest, hroute ▸ hthrough, hhops⟩

end Journeys

end MulticastMesh.Tables
