import Mathlib.Logic.Relation
import MulticastMesh.Proofs.Tables.Covering.Merges
/-!
# The stages of ordered covering

Both loops of ordered covering are defined with a number of rounds that they may take.  Here they
are relations, without any such number, and the functions are their runs: a round of the
down-check drops a member, and a merge shortens the table.  Every stage of the table is sorted,
whatever the table was at first.
-/

namespace MulticastMesh.Tables.OrderedCovering

open Keys (Pattern)
open Routing (Route)

/-! ## The down-check as a loop -/

/-- A down-check that takes as many rounds as it needs. -/
inductive DownRun (table : Array Entry) (origins : Origins) (minGoodness : Int) :
    Merge → Merge → Prop
  | tooFew {m : Merge} (hlow : m.goodness ≤ minGoodness) :
      DownRun table origins minGoodness m (.empty table)
  | passes {m : Merge} (hgood : minGoodness < m.goodness) (hcaught : caught table origins m = []) :
      DownRun table origins minGoodness m m
  | stuck {m : Merge} (hgood : minGoodness < m.goodness) (hcaught : caught table origins m ≠ [])
      (hremoved : (shortest? (removals table m (caught table origins m))).getD [] = []) :
      DownRun table origins minGoodness m (.empty table)
  | narrows {m n : Merge} {removed : List Nat} (hgood : minGoodness < m.goodness)
      (hcaught : caught table origins m ≠ [])
      (hremoved : shortest? (removals table m (caught table origins m)) = some removed)
      (hne : removed ≠ []) (hrun : DownRun table origins minGoodness (m.without table removed) n) :
      DownRun table origins minGoodness m n

section

variable {table : Array Entry} {origins : Origins} {minGoodness : Int} {fuel : Nat}
  {m n : Merge} {removed : List Nat}

theorem mem_members_of_removals {caught : List Pattern} (h : removed ∈ removals table m caught)
    {i : Nat} (hi : i ∈ removed) : i ∈ m.members := by
  unfold removals at h
  obtain ⟨p, _, hp⟩ := List.mem_flatMap.1 h
  obtain ⟨b, _, rfl⟩ := List.mem_map.1 hp
  exact List.mem_of_mem_filter hi

theorem length_without_lt {caught : List Pattern}
    (h : shortest? (removals table m caught) = some removed) (hne : removed ≠ []) :
    (m.without table removed).members.length < m.members.length := by
  obtain ⟨i, hi⟩ := List.exists_mem_of_ne_nil removed hne
  have hmem := mem_members_of_removals (mem_of_shortest? h) hi
  refine List.length_filter_lt_length_iff_exists.2 ⟨i, hmem, ?_⟩
  simpa using hi

theorem downRun_downCheck (hfuel : m.members.length < fuel) :
    DownRun table origins minGoodness m (downCheck table origins minGoodness fuel m) := by
  induction fuel generalizing m with
  | zero => omega
  | succ fuel ih =>
      rw [downCheck]
      split
      · next hlow => exact .tooFew hlow
      · next hlow =>
          have hgood := Int.not_le.1 hlow
          split
          · next hcaught => exact .passes hgood hcaught
          · next hcaught =>
              split
              · next hnone => exact .stuck hgood hcaught (by rw [hnone]; rfl)
              · next hnil => exact .stuck hgood hcaught (by rw [hnil]; rfl)
              · next removed hne hsome =>
                  have hne' : removed ≠ [] := hne
                  have hless := length_without_lt hsome hne'
                  exact .narrows hgood hcaught hsome hne' (ih (by omega))

theorem DownRun.eq_downCheck (h : DownRun table origins minGoodness m n)
    (hfuel : m.members.length < fuel) : n = downCheck table origins minGoodness fuel m := by
  induction h generalizing fuel with
  | tooFew hlow =>
      obtain ⟨fuel, rfl⟩ := Nat.exists_eq_add_of_lt hfuel
      rw [downCheck, if_pos hlow]
  | passes hgood hcaught =>
      obtain ⟨fuel, rfl⟩ := Nat.exists_eq_add_of_lt hfuel
      rw [downCheck, if_neg (Int.not_le.2 hgood), hcaught]
  | stuck hgood hcaught hremoved =>
      obtain ⟨fuel, rfl⟩ := Nat.exists_eq_add_of_lt hfuel
      rw [downCheck, if_neg (Int.not_le.2 hgood)]
      split
      · next hnil => exact absurd hnil hcaught
      · split
        · rfl
        · rfl
        · next hne hsome =>
            rw [hsome] at hremoved
            exact absurd hremoved hne
  | narrows hgood hcaught hremoved hne _ ih =>
      obtain ⟨fuel, rfl⟩ := Nat.exists_eq_add_of_lt hfuel
      have hless := length_without_lt hremoved hne
      obtain ⟨_, _, rfl⟩ := List.exists_cons_of_ne_nil hne
      rw [downCheck, if_neg (Int.not_le.2 hgood)]
      split
      · next hnil => exact absurd hnil hcaught
      · rw [hremoved]
        exact ih (by omega)

/-- The number of rounds that the down-check may take is never its limit. -/
theorem downRun_iff :
    DownRun table origins minGoodness m n ↔
      n = downCheck table origins minGoodness (m.members.length + 1) m := by
  constructor
  · intro h
    exact h.eq_downCheck (Nat.lt_succ_self _)
  · rintro rfl
    exact downRun_downCheck (Nat.lt_succ_self _)

end

/-! ## Merging as a loop -/

/-- A table and the initial patterns that its entries stand for. -/
structure Stage where
  table : Array Entry
  origins : Origins

namespace Stage

def start (table : List Entry) : Stage := ⟨(sortByGenerality table).toArray, []⟩

def best (s : Stage) : Merge := bestMerge s.table s.origins

def Next (s s' : Stage) : Prop :=
  0 < s.best.goodness ∧ s' = ⟨s.best.apply s.table, s.best.record s.table s.origins⟩

/-- The stages that merging goes through, from the sorted table on. -/
def Reached (table : List Entry) (s : Stage) : Prop :=
  Relation.ReflTransGen Next (start table) s

/-- All members of a merge stand in front of the join, which shortens the table by the merge's
goodness and has no key of what the entries from its position on stand for. -/
structure Fits (s : Stage) (m : Merge) : Prop where
  before : ∀ i ∈ m.members, i < m.position
  shortens : ((m.apply s.table).size : Int) + m.goodness = s.table.size
  apart : ∀ i e, m.position ≤ i → s.table[i]? = some e →
    ∀ p ∈ s.origins.of e.pattern, m.pattern.Apart p

end Stage

section

variable {table : List Entry} {s s' : Stage} {route : Route} {m : Merge} {fuel : Nat}

theorem Catchless.fits (h : Catchless s.table s.origins route m) (hs : Sorted s.table) :
    s.Fits m where
  before := fun _ hi => h.merge.lt_position hs hi
  shortens := h.merge.size_apply
  apart := fun _ _ hi he _ hp => h.apart hi he hp

theorem Stage.Next.size_lt (h : s.Next s') : s'.table.size < s.table.size := by
  obtain ⟨hgood, rfl⟩ := h
  obtain ⟨_, hbest⟩ := bestMerge_catchless hgood
  have hsize := hbest.merge.size_apply
  have hgood' : 0 < (bestMerge s.table s.origins).goodness := hgood
  simp only [Stage.best]
  omega

theorem Stage.Next.sorted (h : s.Next s') (hs : Sorted s.table) : Sorted s'.table := by
  obtain ⟨hgood, rfl⟩ := h
  obtain ⟨_, hbest⟩ := bestMerge_catchless hgood
  exact sorted_apply hbest.merge hs

theorem Stage.Reached.sorted (h : Stage.Reached table s) : Sorted s.table := by
  induction h with
  | refl => exact sorted_sortByGenerality table
  | tail _ hnext ih => exact hnext.sorted ih

/-- Merging ends, within as many rounds as the table has entries. -/
theorem mergeAll_ends (hfuel : s.table.size ≤ fuel) :
    ∃ last, Relation.ReflTransGen Stage.Next s last ∧ last.best.goodness ≤ 0 ∧
      mergeAll fuel s.table s.origins = last.table := by
  induction fuel generalizing s with
  | zero =>
      refine ⟨s, .refl, Int.not_lt.1 fun hgood => ?_, rfl⟩
      have hless := Stage.Next.size_lt ⟨hgood, rfl⟩
      omega
  | succ fuel ih =>
      by_cases hgood : s.best.goodness ≤ 0
      · refine ⟨s, .refl, hgood, ?_⟩
        rw [mergeAll]
        exact if_pos hgood
      · have hnext : s.Next ⟨s.best.apply s.table, s.best.record s.table s.origins⟩ :=
          ⟨Int.not_le.1 hgood, rfl⟩
        obtain ⟨last, hrun, hlast, hresult⟩ :=
          ih (Nat.le_of_lt_succ (hnext.size_lt.trans_le hfuel))
        refine ⟨last, .head hnext hrun, hlast, ?_⟩
        rw [mergeAll, ← hresult]
        exact if_neg hgood

/-- Ordered covering ends for every table, and so does every down-check on the way.  All tables on
the way are sorted, and every merge that the checks leave fits in. -/
theorem minimise_stages (table : List Entry) :
    (∃ last, Stage.Reached table last ∧ last.best.goodness ≤ 0 ∧
      minimise table = last.table.toList) ∧
    ∀ s, Stage.Reached table s →
      Sorted s.table ∧
      (∀ s', s.Next s' → s.Fits s.best ∧ s'.table.size < s.table.size) ∧
      (∀ route minGoodness, 0 ≤ minGoodness →
        minGoodness < (refine s.table s.origins minGoodness
          (.of s.table (positionsOf s.table route))).goodness →
        s.Fits (refine s.table s.origins minGoodness
          (.of s.table (positionsOf s.table route)))) ∧
      ∀ minGoodness m n, DownRun s.table s.origins minGoodness m n ↔
        n = downCheck s.table s.origins minGoodness (m.members.length + 1) m := by
  constructor
  · have hsize : (Stage.start table).table.size ≤ table.length := by
      simp [Stage.start, (perm_sortByGenerality table).length_eq]
    obtain ⟨last, hrun, hlast, hresult⟩ := mergeAll_ends hsize
    refine ⟨last, hrun, hlast, ?_⟩
    rw [← hresult]
    rfl
  · intro s hs
    refine ⟨hs.sorted, ?_, ?_, fun _ _ _ => downRun_iff⟩
    · intro s' hnext
      obtain ⟨_, hbest⟩ := bestMerge_catchless hnext.1
      exact ⟨hbest.fits hs.sorted, hnext.size_lt⟩
    · intro route minGoodness hmin hgood
      exact (refine_catchless hmin (mergeOf_positionsOf s.table route) hgood).fits hs.sorted

/-- Three keys of one route.  The join of all of them would catch a key of the last entry. -/
def crowded : List Entry :=
  [⟨⟨0, BitVec.allOnes 32⟩, .overLinks [.east], false⟩,
    ⟨⟨1, BitVec.allOnes 32⟩, .overLinks [.east], false⟩,
    ⟨⟨2, BitVec.allOnes 32⟩, .overLinks [.east], false⟩,
    ⟨⟨3, ~~~28⟩, .overLinks [.north], false⟩]

theorem minimise_stages_crowded :
    (Stage.start crowded).best.members = [0, 2] ∧
      (Stage.start crowded).Fits (Stage.start crowded).best ∧
      ∃ last, Stage.Reached crowded last ∧ minimise crowded = last.table.toList := by
  have hsorted : sortByGenerality crowded = crowded :=
    List.mergeSort_of_pairwise (by decide)
  have hmembers : (Stage.start crowded).best.members = [0, 2] := by
    unfold Stage.start
    rw [hsorted]
    decide +kernel
  obtain ⟨⟨last, hreached, _, hresult⟩, hstages⟩ := minimise_stages crowded
  have hgood : 0 < (Stage.start crowded).best.goodness := by
    simp [Merge.goodness, hmembers]
  exact ⟨hmembers, ((hstages _ .refl).2.1 _ ⟨hgood, rfl⟩).1, last, hreached, hresult⟩

end

end MulticastMesh.Tables.OrderedCovering
