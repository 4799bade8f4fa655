import Mathlib.Data.List.Nodup
import MulticastMesh.Proofs.Keys.Joins
import MulticastMesh.Proofs.Tables.Covering.Routes
/-!
# Merges in any table

What the checks leave of a merge is a merge of some of its entries that catches nothing at or
behind its position.  This holds for every table, sorted or not and with any bits in its keys.  A
merge takes its members out of the table and leaves every other entry in it.
-/

namespace MulticastMesh.Tables.OrderedCovering

open Keys (Pattern)
open Routing (Route)

variable {table : Array Entry} {origins : Origins} {minGoodness : Int} {fuel : Nat}
  {route : Route} {l m n : Merge} {looked removed : List Nat} {i : Nat} {e : Entry}

/-! ## Parts of merges -/

/-- What a check may leave of a merge: some of its members, or none. -/
structure PartOf (table : Array Entry) (m n : Merge) : Prop where
  eq_of : n = .of table n.members
  sublist : n.members.Sublist m.members

theorem partOf_self (h : m = .of table m.members) : PartOf table m m :=
  ⟨h, List.Sublist.refl _⟩

theorem partOf_empty : PartOf table m (.empty table) :=
  ⟨rfl, List.nil_sublist _⟩

theorem partOf_without : PartOf table m (m.without table removed) :=
  ⟨rfl, m.without_sublist table removed⟩

theorem PartOf.trans (h : PartOf table l m) (h' : PartOf table m n) : PartOf table l n :=
  ⟨h'.eq_of, h'.sublist.trans h.sublist⟩

theorem MergeOf.part (h : MergeOf table route m) (hn : PartOf table m n) :
    MergeOf table route n := by
  have hmerge := h.of_sublist hn.sublist
  rwa [← hn.eq_of] at hmerge

theorem downCheck_partOf (h : m = .of table m.members) :
    PartOf table m (downCheck table origins minGoodness fuel m) := by
  induction fuel generalizing m with
  | zero => exact partOf_empty
  | succ fuel ih =>
      rw [downCheck]
      split
      · exact partOf_empty
      · split
        · exact partOf_self h
        · split
          · exact partOf_empty
          · exact partOf_empty
          · exact partOf_without.trans (ih rfl)

theorem upCheck_partOf (h : m = .of table m.members) :
    PartOf table m (upCheck table minGoodness looked m).1 := by
  induction looked generalizing m with
  | nil => exact partOf_self h
  | cons i rest ih =>
      rw [upCheck]
      split
      · simp only
        split
        · exact partOf_empty
        · exact partOf_without.trans (ih rfl)
      · exact ih h

theorem refine_partOf (h : m = .of table m.members) :
    PartOf table m (refine table origins minGoodness m) := by
  unfold refine
  have hdown : PartOf table m (downCheck table origins minGoodness (m.members.length + 1) m) :=
    downCheck_partOf h
  simp only
  generalize downCheck table origins minGoodness (m.members.length + 1) m = d at hdown ⊢
  split
  · exact hdown
  · have hup : PartOf table d (upCheck table minGoodness d.members.reverse d).1 :=
      upCheck_partOf hdown.eq_of
    split
    · exact hdown.trans (hup.trans (downCheck_partOf hup.eq_of))
    · exact hdown.trans hup

/-! ## Merges that are taken -/

theorem caught_downCheck (hmin : 0 ≤ minGoodness)
    (hgood : minGoodness < (downCheck table origins minGoodness fuel m).goodness) :
    caught table origins (downCheck table origins minGoodness fuel m) = [] := by
  have hempty : ¬ minGoodness < (Merge.empty table).goodness := by
    rw [Merge.goodness_empty]
    omega
  induction fuel generalizing m with
  | zero => exact absurd hgood hempty
  | succ fuel ih =>
      rw [downCheck] at hgood ⊢
      by_cases hlow : m.goodness ≤ minGoodness
      · rw [if_pos hlow] at hgood
        exact absurd hgood hempty
      rw [if_neg hlow] at hgood ⊢
      cases hcaught : caught table origins m with
      | nil => exact hcaught
      | cons p ps =>
          rw [hcaught] at hgood
          simp only at hgood ⊢
          split at hgood
          · exact absurd hgood hempty
          · exact absurd hgood hempty
          · exact ih hgood

/-- A merge that both checks let through catches nothing either: the up-check leaves it alone, or
the down-check is repeated. -/
theorem caught_refine (hmin : 0 ≤ minGoodness)
    (hgood : minGoodness < (refine table origins minGoodness m).goodness) :
    caught table origins (refine table origins minGoodness m) = [] := by
  unfold refine at hgood ⊢
  simp only at hgood ⊢
  generalize hdown : downCheck table origins minGoodness (m.members.length + 1) m = d
    at hgood ⊢
  by_cases hlow : d.goodness ≤ minGoodness
  · rw [if_pos hlow] at hgood
    omega
  rw [if_neg hlow] at hgood ⊢
  generalize hup : upCheck table minGoodness d.members.reverse d = u at hgood ⊢
  by_cases hchanged : u.2 = true ∧ u.1.goodness > minGoodness
  · rw [if_pos hchanged] at hgood ⊢
    exact caught_downCheck hmin hgood
  · rw [if_neg hchanged] at hgood ⊢
    have hsame : u.1 = d := by
      rw [← hup]
      apply upCheck_unchanged
      rw [hup]
      simpa [hgood] using hchanged
    rw [hsame, ← hdown]
    apply caught_downCheck hmin
    rw [hdown]
    omega

/-- A merge of entries of one route that would catch no initial pattern at or behind its
position. -/
structure Catchless (table : Array Entry) (origins : Origins) (route : Route) (m : Merge) :
    Prop where
  merge : MergeOf table route m
  catchesNothing : caught table origins m = []

theorem refine_catchless (hmin : 0 ≤ minGoodness) (h : MergeOf table route m)
    (hgood : minGoodness < (refine table origins minGoodness m).goodness) :
    Catchless table origins route (refine table origins minGoodness m) :=
  ⟨h.part (refine_partOf h.eq_of), caught_refine hmin hgood⟩

theorem bestMerge_catchless (hgood : 0 < (bestMerge table origins).goodness) :
    ∃ route, Catchless table origins route (bestMerge table origins) := by
  revert hgood
  unfold bestMerge
  refine List.foldlRecOn (motive := fun best => 0 < best.goodness →
    ∃ route, Catchless table origins route best) _ _ ?_ ?_
  · simp [Merge.goodness_empty]
  · intro best hbest route _ hpos
    simp only at hpos ⊢
    split at hpos
    · next hle =>
        rw [if_pos hle]
        exact hbest hpos
    · next hle =>
        rw [if_neg hle]
        split at hpos
        · next hgt =>
            rw [if_pos hgt]
            exact ⟨route, refine_catchless (le_max_right _ _) (mergeOf_positionsOf table route) hgt⟩
        · next hgt =>
            rw [if_neg hgt]
            exact hbest hpos

theorem Catchless.apart (h : Catchless table origins route m) (hi : m.position ≤ i)
    (he : table[i]? = some e) {p : Pattern} (hp : p ∈ origins.of e.pattern) :
    m.pattern.Apart p := by
  intro k hmk hpk
  have hmem : p ∈ caught table origins m := by
    unfold caught
    rw [List.mem_filter, List.mem_flatMap]
    refine ⟨⟨e, ?_, hp⟩, Pattern.intersects_of_matches hmk hpk⟩
    refine List.mem_of_getElem? (i := i - m.position) ?_
    rw [List.getElem?_drop, Nat.add_sub_cancel' hi, Array.getElem?_toList, he]
  rw [h.catchesNothing] at hmem
  cases hmem

/-! ## Members and the rest -/

theorem MergeOf.lt_size (h : MergeOf table route m) (hi : i ∈ m.members) : i < table.size := by
  obtain ⟨_, he, _⟩ := h.entry i hi
  exact size_of_getElem? he

/-- In a sorted table all members stand in front of the join. -/
theorem MergeOf.lt_position (h : MergeOf table route m) (hs : Sorted table)
    (hi : i ∈ m.members) : i < m.position := by
  obtain ⟨e, he, _⟩ := h.entry i hi
  rw [h.lt_position_iff hs he, h.pattern_eq]
  exact Pattern.generality_le_joinAll (mem_patternsAt hi he)

theorem MergeOf.perm_range (h : MergeOf table route m) :
    (keptBefore table m ++ (m.members ++ keptBehind table m)).Perm (List.range table.size) := by
  have hbefore : (keptBefore table m).Nodup := keptBefore_increasing.imp Nat.ne_of_lt
  have hmembers : m.members.Nodup := h.increasing.imp Nat.ne_of_lt
  have hbehind : (keptBehind table m).Nodup := keptBehind_increasing.imp Nat.ne_of_lt
  rw [List.perm_ext_iff_of_nodup ?_ List.nodup_range]
  · intro i
    have hsize : i ∈ m.members → i < table.size := h.lt_size
    rw [List.mem_append, List.mem_append, mem_keptBefore, mem_keptBehind, List.mem_range]
    by_cases hi : i ∈ m.members
    · simp [hi, hsize hi]
    · simp only [hi, not_false_eq_true, true_and, false_or]
      omega
  · refine List.nodup_append'.2 ⟨hbefore, List.nodup_append'.2 ⟨hmembers, hbehind, ?_⟩, ?_⟩
    · intro i hi hout
      exact (mem_keptBehind.1 hout).2.1 hi
    · intro i hi hmem
      obtain ⟨_, hout, hpos⟩ := mem_keptBefore.1 hi
      rcases List.mem_append.1 hmem with hmem | hmem
      · exact hout hmem
      · have := (mem_keptBehind.1 hmem).2.2
        omega

/-- A merge shortens the table by its goodness. -/
theorem MergeOf.size_apply (h : MergeOf table route m) :
    ((m.apply table).size : Int) + m.goodness = table.size := by
  have hlength := h.perm_range.length_eq
  have hkept : ∀ positions : List Nat, (∀ i ∈ positions, i < table.size) →
      (positions.filterMap fun i => table[i]?).length = positions.length := by
    intro positions hpositions
    rw [List.filterMap_length_eq_length]
    intro i hi
    simp [hpositions i hi]
  have hbefore := hkept (keptBefore table m) fun i hi => (mem_keptBefore.1 hi).1
  have hbehind := hkept (keptBehind table m) fun i hi => (mem_keptBehind.1 hi).1
  have happly : (m.apply table).size = (m.apply table).toList.length := Array.length_toList.symm
  rw [List.length_append, List.length_append, List.length_range] at hlength
  rw [toList_apply, List.length_append, List.length_cons, hbefore, hbehind] at happly
  unfold Merge.goodness
  omega

end MulticastMesh.Tables.OrderedCovering
