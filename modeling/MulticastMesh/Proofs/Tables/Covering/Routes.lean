import Mathlib.Data.List.Basic
import MulticastMesh.Proofs.Tables.Covering.Checks
import MulticastMesh.Proofs.Tables.Covering.Origins
/-!
# Ordered covering keeps routes

The invariant of merging: the table routes every initial key as the initial table did, and an
entry that matches an initial key stands for an initial pattern with that key.  The second part
is what makes the check against the initial patterns behind a join sufficient.
-/

namespace MulticastMesh.Tables.OrderedCovering

open Keys (Key Pattern)
open Routing (Route)

/-- Some entry that matches the key stands for an initial pattern with that key. -/
def Carried (table : Array Entry) (origins : Origins) (k : Key) : Prop :=
  ∃ (i : Nat) (c : Entry), table[i]? = some c ∧ c.Matches k ∧
    ∃ p ∈ origins.of c.pattern, p.Matches k

/-- The table does for the keys of the initial table what the initial table did. -/
structure Faithful (initial : List Entry) (table : Array Entry) (origins : Origins) : Prop where
  sorted : Sorted table
  proper : AllProper table.toList
  filled : origins.Filled
  routes : KeepsRoutes initial table.toList
  carried : ∀ k, (∃ e ∈ initial, e.Matches k) → Carried table origins k

section

variable {table : Array Entry} {origins : Origins} {route : Route} {m : Merge} {k : Key}
  {e f : Entry}

/-! ## The table after a merge -/

def keptBefore (table : Array Entry) (m : Merge) : List Nat :=
  ((List.range table.size).filter fun i => !m.members.contains i).filter
    fun i => i < m.position

def keptBehind (table : Array Entry) (m : Merge) : List Nat :=
  ((List.range table.size).filter fun i => !m.members.contains i).filter
    fun i => m.position ≤ i

theorem mem_keptBefore {i : Nat} : i ∈ keptBefore table m ↔
    i < table.size ∧ i ∉ m.members ∧ i < m.position := by
  simp [keptBefore, and_comm]

theorem mem_keptBehind {i : Nat} : i ∈ keptBehind table m ↔
    i < table.size ∧ i ∉ m.members ∧ m.position ≤ i := by
  simp [keptBehind, and_comm]

theorem keptBefore_increasing : (keptBefore table m).Pairwise (· < ·) :=
  (List.pairwise_lt_range.sublist List.filter_sublist).sublist List.filter_sublist

theorem keptBehind_increasing : (keptBehind table m).Pairwise (· < ·) :=
  (List.pairwise_lt_range.sublist List.filter_sublist).sublist List.filter_sublist

theorem toList_apply : (m.apply table).toList =
    ((keptBefore table m).filterMap fun i => table[i]?) ++ m.entry table ::
      ((keptBehind table m).filterMap fun i => table[i]?) := rfl

theorem size_of_getElem? {i : Nat} (he : table[i]? = some e) : i < table.size :=
  (Array.getElem?_eq_some_iff.1 he).1

theorem mem_apply {i : Nat} (hi : i ∉ m.members) (he : table[i]? = some e) :
    e ∈ (m.apply table).toList := by
  rw [toList_apply, List.mem_append, List.mem_cons]
  rcases Nat.lt_or_ge i m.position with hpos | hpos
  · left
    exact List.mem_filterMap.2 ⟨i, mem_keptBefore.2 ⟨size_of_getElem? he, hi, hpos⟩, he⟩
  · right; right
    exact List.mem_filterMap.2 ⟨i, mem_keptBehind.2 ⟨size_of_getElem? he, hi, hpos⟩, he⟩

theorem entry_mem_apply : m.entry table ∈ (m.apply table).toList := by
  simp [toList_apply]

theorem MergeOf.route_entry (h : MergeOf table route m) (hne : m.members ≠ []) :
    (m.entry table).route = route := by
  unfold Merge.entry
  simp only
  have hall : ∀ e ∈ m.members.filterMap fun i => table[i]?, e.route = route := by
    intro e he
    obtain ⟨i, hi, hie⟩ := List.mem_filterMap.1 he
    obtain ⟨f, hf, hroute⟩ := h.entry i hi
    rw [hie] at hf
    cases hf
    exact hroute
  have hsome : (m.members.filterMap fun i => table[i]?) ≠ [] := by
    obtain ⟨i, hi⟩ := List.exists_mem_of_ne_nil _ hne
    obtain ⟨f, hf, _⟩ := h.entry i hi
    exact List.ne_nil_of_mem (List.mem_filterMap.2 ⟨i, hi, hf⟩)
  rw [List.getLast?_eq_some_getLast hsome]
  exact hall _ (List.getLast_mem hsome)

theorem proper_apply (h : MergeOf table route m) (hproper : AllProper table.toList) :
    AllProper (m.apply table).toList := by
  have hkept : ∀ positions : List Nat, ∀ e ∈ positions.filterMap fun i => table[i]?,
      e.pattern.Proper := by
    intro positions e he
    obtain ⟨i, _, hie⟩ := List.mem_filterMap.1 he
    exact hproper e (Array.mem_toList_iff.2 (Array.mem_of_getElem? hie))
  intro e he
  rw [toList_apply, List.mem_append, List.mem_cons] at he
  rcases he with he | rfl | he
  · exact hkept _ e he
  · exact h.proper hproper
  · exact hkept _ e he

theorem sorted_at_positions (hs : Sorted table) {positions : List Nat}
    (hpos : positions.Pairwise (· < ·)) :
    (positions.filterMap fun i => table[i]?).Pairwise
      fun e f => e.pattern.generality ≤ f.pattern.generality := by
  rw [List.pairwise_filterMap]
  exact hpos.imp fun hij e he f hf => hs.le hij he hf

theorem sorted_apply (h : MergeOf table route m) (hs : Sorted table) :
    Sorted (m.apply table) := by
  unfold Sorted
  rw [toList_apply, List.pairwise_append, List.pairwise_cons]
  have hbefore : ∀ e ∈ (keptBefore table m).filterMap fun i => table[i]?,
      e.pattern.generality ≤ m.pattern.generality := by
    intro e he
    obtain ⟨i, hi, hie⟩ := List.mem_filterMap.1 he
    exact (h.lt_position_iff hs hie).1 (mem_keptBefore.1 hi).2.2
  have hbehind : ∀ e ∈ (keptBehind table m).filterMap fun i => table[i]?,
      m.pattern.generality ≤ e.pattern.generality := by
    intro e he
    obtain ⟨i, hi, hie⟩ := List.mem_filterMap.1 he
    have hpos := (mem_keptBehind.1 hi).2.2
    by_contra hlt
    have := (h.lt_position_iff hs hie).2 (by omega)
    omega
  refine ⟨sorted_at_positions hs keptBefore_increasing, ⟨hbehind,
    sorted_at_positions hs keptBehind_increasing⟩, ?_⟩
  intro e he f hf
  rcases List.mem_cons.1 hf with rfl | hf
  · exact hbefore e he
  · exact (hbefore e he).trans (hbehind f hf)

/-! ## One merge -/

/-- A key that some entry behind a join stands for is not caught by it. -/
theorem not_matches_of_carried (hm : Accepted table origins route m) {i : Nat} {c : Entry}
    {p : Pattern} (hi : m.position ≤ i) (hc : table[i]? = some c)
    (hp : p ∈ origins.of c.pattern) (hk : p.Matches k) : ¬ m.pattern.Matches k := by
  intro hmk
  obtain ⟨hsize, rfl⟩ := Array.getElem?_eq_some_iff.1 hc
  have hmem : p ∈ caught table origins m := by
    unfold caught
    rw [List.mem_filter, List.mem_flatMap]
    refine ⟨⟨table[i], ?_, hp⟩, Pattern.intersects_of_matches hmk hk⟩
    rw [List.mem_drop_iff_getElem]
    refine ⟨i - m.position, by simpa using by omega, ?_⟩
    simp only [Nat.add_sub_cancel' hi, Array.getElem_toList]
  rw [hm.catchesNothing] at hmem
  cases hmem

structure FirstAt (table : Array Entry) (k : Key) (l : Nat) (e : Entry) : Prop where
  entry : table[l]? = some e
  hits : e.Matches k
  first : ∀ i < l, ∀ f, table[i]? = some f → ¬ f.Matches k

theorem FirstAt.route_of_member {l : Nat} (hf : FirstAt table k l e)
    (hm : Accepted table origins route m) (hl : l ∈ m.members) : e.route = route := by
  obtain ⟨g, hg, hgr⟩ := hm.merge.entry l hl
  cases hf.entry.symm.trans hg
  exact hgr

theorem FirstAt.route_before {l : Nat} {f : Entry} (h : FirstAt table k l e)
    (hm : Accepted table origins route m)
    (hbefore : ((keptBefore table m).filterMap fun i => table[i]?).find?
      (fun e => decide (e.Matches k)) = some f) : f.route = e.route := by
  obtain ⟨i, hi, hif, hfk, hleast⟩ := lookup?_at_positions keptBefore_increasing hbefore
  obtain ⟨_, hout, hpos⟩ := mem_keptBefore.1 hi
  rcases Nat.lt_trichotomy l i with hli | rfl | hil
  · have hmem : l ∈ m.members := by
      by_contra hnot
      have hkept : l ∈ keptBefore table m :=
        mem_keptBefore.2 ⟨size_of_getElem? h.entry, hnot, by omega⟩
      exact hleast l hkept hli e h.entry h.hits
    rcases hm.shadowsOwn l hmem i hli hpos hout e f h.entry hif with hown | hmiss
    · rw [hown, h.route_of_member hm hmem]
    · have hhit : e.intersects f = true := Pattern.intersects_of_matches h.hits hfk
      rw [hmiss] at hhit
      cases hhit
  · cases h.entry.symm.trans hif
    rfl
  · exact absurd hfk (h.first i hil f hif)

/-- A key that the join matches, and no entry kept in front of it, is a key of one of the
members: otherwise the join would catch it from an entry behind. -/
theorem FirstAt.route_join {l : Nat} (h : FirstAt table k l e)
    (hm : Accepted table origins route m) (hcarried : Carried table origins k)
    (hmember : l < m.position → l ∈ m.members) (hjoin : (m.entry table).Matches k) :
    route = e.route := by
  by_cases hmem : l ∈ m.members
  · exact (h.route_of_member hm hmem).symm
  · obtain ⟨i, c, hic, hck, p, hp, hpk⟩ := hcarried
    have hbehind : m.position ≤ i := by
      by_contra hlt
      have hli : l ≤ i := by
        by_contra hgt
        exact h.first i (by omega) c hic hck
      exact hmem (hmember (by omega))
    exact absurd hjoin (not_matches_of_carried hm hbehind hic hp hpk)

theorem FirstAt.lookup_behind {l : Nat} (h : FirstAt table k l e)
    (hproper : AllProper table.toList) (hm : Accepted table origins route m)
    (hmember : l < m.position → l ∈ m.members) (hjoin : ¬ (m.entry table).Matches k) :
    ∃ f, ((keptBehind table m).filterMap fun i => table[i]?).find?
      (fun e => decide (e.Matches k)) = some f ∧ f.route = e.route := by
  have hout : l ∉ m.members := fun hmem =>
    hjoin (h.hits.of_coveredBy (hm.merge.coveredBy hproper hmem h.entry))
  have hpos : m.position ≤ l := by
    by_contra hlt
    exact hout (hmember (by omega))
  have hbehind : l ∈ keptBehind table m :=
    mem_keptBehind.2 ⟨size_of_getElem? h.entry, hout, hpos⟩
  obtain ⟨f, hf⟩ := exists_lookup? (List.mem_filterMap.2 ⟨l, hbehind, h.entry⟩) h.hits
  obtain ⟨i, _, hif, hfk, hleast⟩ := lookup?_at_positions keptBehind_increasing hf
  refine ⟨f, hf, ?_⟩
  rcases Nat.lt_trichotomy l i with hli | rfl | hil
  · exact absurd h.hits (hleast l hbehind hli e h.entry)
  · cases h.entry.symm.trans hif
    rfl
  · exact absurd hfk (h.first i hil f hif)

theorem lookup?_apply (hproper : AllProper table.toList)
    (hm : Accepted table origins route m)
    (hcarried : Carried table origins k)
    (he : lookup? table.toList k = some e) :
    ∃ f, lookup? (m.apply table).toList k = some f ∧ f.route = e.route := by
  obtain ⟨l, hl, hek, hfirst⟩ := lookup?_toList he
  have h : FirstAt table k l e := ⟨hl, hek, hfirst⟩
  rw [toList_apply, lookup?, List.find?_append]
  cases hbefore : ((keptBefore table m).filterMap fun i => table[i]?).find?
      fun e => decide (e.Matches k) with
  | some f => exact ⟨f, rfl, h.route_before hm hbefore⟩
  | none =>
      have hmember : l < m.position → l ∈ m.members := by
        intro hpos
        by_contra hnot
        exact lookup?_at_positions_eq_none hbefore
          (mem_keptBefore.2 ⟨size_of_getElem? hl, hnot, hpos⟩) hl hek
      rw [Option.none_or, List.find?_cons]
      by_cases hjoin : (m.entry table).Matches k
      · simp only [hjoin, decide_true]
        refine ⟨_, rfl, ?_⟩
        rw [hm.merge.route_entry (Merge.members_ne_nil hm.several)]
        exact h.route_join hm hcarried hmember hjoin
      · simp only [hjoin, decide_false]
        exact h.lookup_behind hproper hm hmember hjoin

theorem filled_record (hm : Accepted table origins route m) (ho : origins.Filled) :
    (m.record table origins).Filled := by
  have hne := hm.merge.patternsAt_ne_nil (Merge.members_ne_nil hm.several)
  exact (Origins.Filled.takeAll ho).put (Origins.takeAll_ne_nil ho hne)

theorem mem_of_record_join (hm : Accepted table origins route m) (ho : origins.Filled) {i : Nat}
    {p : Pattern} (hi : i ∈ m.members) (he : table[i]? = some e)
    (hp : p ∈ origins.of e.pattern) : p ∈ (m.record table origins).of m.pattern := by
  have hne := hm.merge.patternsAt_ne_nil (Merge.members_ne_nil hm.several)
  have hmem : p ∈ (origins.takeAll (patternsAt table m.members)).1 :=
    Origins.mem_takeAll ho (mem_patternsAt hi he) hp
  have hfilled : (origins.takeAll (patternsAt table m.members)).2.Filled :=
    Origins.Filled.takeAll ho
  have hself := Origins.of_put_self (p := m.pattern) hfilled (Origins.takeAll_ne_nil ho hne)
  have hrecord : m.record table origins =
      (origins.takeAll (patternsAt table m.members)).2.put m.pattern
        (origins.takeAll (patternsAt table m.members)).1 := rfl
  rw [hrecord, hself, List.mem_append]
  exact Or.inr hmem

/-- An entry left alone stands for what it stood for, for its own pattern if the list of that
was taken by a member of the same pattern, or for more if the join has its pattern. -/
theorem carried_by_kept (hm : Accepted table origins route m) (ho : origins.Filled) {i : Nat}
    {p : Pattern} (hi : i ∉ m.members) (he : table[i]? = some e) (hek : e.Matches k)
    (hp : p ∈ origins.of e.pattern) (hk : p.Matches k) :
    ∃ q ∈ (m.record table origins).of e.pattern, q.Matches k := by
  by_cases hjoin : e.pattern = m.pattern
  · obtain ⟨j, hj⟩ := List.exists_mem_of_ne_nil _ (Merge.members_ne_nil hm.several)
    obtain ⟨f, hf, _⟩ := hm.merge.entry j hj
    have hsame : f.pattern = m.pattern := hm.alone i hi e he hjoin j hj f hf
    rw [hjoin]
    refine ⟨p, mem_of_record_join hm ho hj hf ?_, hk⟩
    rw [hsame, ← hjoin]
    exact hp
  · have hput : (m.record table origins).of e.pattern =
        (origins.takeAll (patternsAt table m.members)).2.of e.pattern :=
      Origins.of_put_of_ne hjoin
    rw [hput]
    by_cases htaken : e.pattern ∈ patternsAt table m.members
    · refine ⟨e.pattern, ?_, hek⟩
      rw [Origins.of_eq_of_none (by rw [Origins.of?_takeAll, if_pos htaken])]
      simp
    · refine ⟨p, ?_, hk⟩
      rw [Origins.of_congr (o := origins) (by rw [Origins.of?_takeAll, if_neg htaken])]
      exact hp

theorem Carried.apply (hm : Accepted table origins route m) (ho : origins.Filled)
    (hproper : AllProper table.toList) (h : Carried table origins k) :
    Carried (m.apply table) (m.record table origins) k := by
  obtain ⟨i, c, hic, hck, p, hp, hpk⟩ := h
  have hat : ∀ f ∈ (m.apply table).toList, f.Matches k →
      (∃ q ∈ (m.record table origins).of f.pattern, q.Matches k) →
      Carried (m.apply table) (m.record table origins) k := by
    intro f hf hfk hq
    obtain ⟨j, hj⟩ := Array.mem_iff_getElem?.1 (Array.mem_toList_iff.1 hf)
    exact ⟨j, f, hj, hfk, hq⟩
  by_cases hi : i ∈ m.members
  · exact hat (m.entry table) entry_mem_apply
      (hck.of_coveredBy (hm.merge.coveredBy hproper hi hic))
      ⟨p, mem_of_record_join hm ho hi hic hp, hpk⟩
  · exact hat c (mem_apply hi hic) hck (carried_by_kept hm ho hi hic hck hp hpk)

theorem Faithful.apply {initial : List Entry} (h : Faithful initial table origins)
    (hm : Accepted table origins route m) :
    Faithful initial (m.apply table) (m.record table origins) where
  sorted := sorted_apply hm.merge h.sorted
  proper := proper_apply hm.merge h.proper
  filled := filled_record hm h.filled
  routes := by
    intro k e he
    obtain ⟨f, hf, hfe⟩ := h.routes k e he
    have hcarried := h.carried k ⟨e, mem_of_lookup? he, matches_of_lookup? he⟩
    obtain ⟨g, hg, hgf⟩ := lookup?_apply h.proper hm hcarried hf
    exact ⟨g, hg, hgf.trans hfe⟩
  carried := fun k hk => (h.carried k hk).apply hm h.filled h.proper

theorem mergeAll_faithful {initial : List Entry} (fuel : Nat)
    (h : Faithful initial table origins) :
    ∃ o, Faithful initial (mergeAll fuel table origins) o := by
  induction fuel generalizing table origins with
  | zero => exact ⟨origins, h⟩
  | succ fuel ih =>
      rw [mergeAll]
      by_cases hnone : (bestMerge table origins).goodness ≤ 0
      · rw [if_pos hnone]
        exact ⟨origins, h⟩
      · rw [if_neg hnone]
        have hgood : 0 < (bestMerge table origins).goodness := by omega
        obtain ⟨route, hm⟩ := bestMerge_spec h.sorted h.proper hgood
        exact ih (h.apply hm)

end

/-! ## The whole minimisation -/

section

variable {table : List Entry} {k : Key} {e f : Entry}

/-- Of two entries that send a common key different ways, the more specific one comes first. -/
def SpecificFirst (table : List Entry) : Prop :=
  table.Pairwise fun e f => e.route ≠ f.route → (∃ k, e.Matches k ∧ f.Matches k) →
    e.pattern.generality ≤ f.pattern.generality

theorem perm_sortByGenerality (table : List Entry) : (sortByGenerality table).Perm table :=
  List.mergeSort_perm table _

theorem sorted_sortByGenerality (table : List Entry) :
    (sortByGenerality table).Pairwise fun e f => e.pattern.generality ≤ f.pattern.generality := by
  have hsorted : (sortByGenerality table).Pairwise fun e f =>
      decide (e.pattern.generality ≤ f.pattern.generality) = true := List.pairwise_mergeSort
    (fun a b c hab hbc => by simp only [decide_eq_true_eq] at *; omega)
    (fun a b => by simp only [Bool.or_eq_true, decide_eq_true_eq]; omega) table
  simpa using hsorted

theorem filter_sortByGenerality (table : List Entry) (n : Nat) :
    ((sortByGenerality table).filter fun e => e.pattern.generality == n) =
      table.filter fun e => e.pattern.generality == n := by
  set some := table.filter fun e => e.pattern.generality == n with hsome
  have hconst : some.Pairwise
      fun e f => decide (e.pattern.generality ≤ f.pattern.generality) = true := by
    rw [List.pairwise_iff_getElem]
    intro i j hi hj _
    have h1 := (List.mem_filter.1 (List.getElem_mem hi)).2
    have h2 := (List.mem_filter.1 (List.getElem_mem hj)).2
    simp only [beq_iff_eq] at h1 h2
    simp [h1, h2]
  have hsub : some.Sublist (sortByGenerality table) :=
    List.sublist_mergeSort
      (fun a b c hab hbc => by simp only [decide_eq_true_eq] at *; omega)
      (fun a b => by simp only [Bool.or_eq_true, decide_eq_true_eq]; omega)
      hconst List.filter_sublist
  have hfilter := hsub.filter fun e => e.pattern.generality == n
  have hself : some.filter (fun e => e.pattern.generality == n) = some := by
    simp [hsome]
  rw [hself] at hfilter
  have hlength := ((perm_sortByGenerality table).filter
    fun e => e.pattern.generality == n).length_eq
  exact (hfilter.eq_of_length hlength.symm).symm

theorem lookup?_filter {p : Entry → Bool} (he : lookup? table k = some e) (hp : p e = true) :
    lookup? (table.filter p) k = some e := by
  obtain ⟨hk, before, behind, rfl, hbefore⟩ := List.find?_eq_some_iff_append.1 he
  rw [List.filter_append, List.filter_cons_of_pos hp]
  refine List.find?_eq_some_iff_append.2 ⟨hk, _, _, rfl, ?_⟩
  intro f hf
  exact hbefore f (List.mem_of_mem_filter hf)

theorem eq_or_of_lookup? {R : Entry → Entry → Prop} (hR : table.Pairwise R)
    (he : lookup? table k = some e) (hf : f ∈ table) (hk : f.Matches k) : e = f ∨ R e f := by
  obtain ⟨_, before, behind, rfl, hbefore⟩ := List.find?_eq_some_iff_append.1 he
  have hcons := (List.pairwise_append.1 hR).2.1
  rcases List.mem_append.1 hf with hf | hf
  · have hmiss := hbefore f hf
    simp [hk] at hmiss
  · rcases List.mem_cons.1 hf with rfl | hf
    · exact Or.inl rfl
    · exact Or.inr ((List.pairwise_cons.1 hcons).1 f hf)

theorem keepsRoutes_sortByGenerality (h : SpecificFirst table) :
    KeepsRoutes table (sortByGenerality table) := by
  intro k e he
  have hek := matches_of_lookup? he
  obtain ⟨f, hf⟩ := exists_lookup?
    ((perm_sortByGenerality table).mem_iff.2 (mem_of_lookup? he)) hek
  have hfk := matches_of_lookup? hf
  refine ⟨f, hf, ?_⟩
  by_contra hroute
  have hfe : f.pattern.generality ≤ e.pattern.generality := by
    rcases eq_or_of_lookup? (sorted_sortByGenerality table) hf
      ((perm_sortByGenerality table).mem_iff.2 (mem_of_lookup? he)) hek with rfl | hle
    · exact le_rfl
    · exact hle
  have hef : e.pattern.generality ≤ f.pattern.generality := by
    rcases eq_or_of_lookup? h he ((perm_sortByGenerality table).mem_iff.1 (mem_of_lookup? hf))
      hfk with rfl | hle
    · exact le_rfl
    · exact hle (fun heq => hroute heq.symm) ⟨k, hek, hfk⟩
  have hsame : f.pattern.generality = e.pattern.generality := le_antisymm hfe hef
  have h1 := lookup?_filter (p := fun g => g.pattern.generality == e.pattern.generality) he
    (by simp)
  have h2 := lookup?_filter (p := fun g => g.pattern.generality == e.pattern.generality) hf
    (by simp [hsame])
  rw [filter_sortByGenerality, h1] at h2
  cases h2
  exact hroute rfl

/-- Before any merge each entry stands for its own pattern. -/
theorem faithful_sortByGenerality (h : SpecificFirst table) (hproper : AllProper table) :
    Faithful table (sortByGenerality table).toArray [] where
  sorted := by
    unfold Sorted
    exact sorted_sortByGenerality table
  proper := fun e he => hproper e ((perm_sortByGenerality table).mem_iff.1 he)
  filled := by
    intro p l hl
    cases hl
  routes := keepsRoutes_sortByGenerality h
  carried := by
    rintro k ⟨e, he, hek⟩
    have hmem : e ∈ (sortByGenerality table).toArray :=
      List.mem_toArray.2 ((perm_sortByGenerality table).mem_iff.2 he)
    obtain ⟨i, hi⟩ := Array.mem_iff_getElem?.1 hmem
    refine ⟨i, e, hi, hek, e.pattern, ?_, hek⟩
    rw [Origins.of_eq_of_none rfl]
    simp

theorem faithful_minimise (h : SpecificFirst table) (hproper : AllProper table) :
    KeepsRoutes table (minimise table) ∧ AllProper (minimise table) := by
  obtain ⟨_, hfaithful⟩ := mergeAll_faithful table.length
    (faithful_sortByGenerality h hproper)
  exact ⟨hfaithful.routes, hfaithful.proper⟩

/-- Minimising a table of proper entries keeps the route of every key that has one. -/
theorem minimise_keeps_route (hproper : AllProper table) (h : SpecificFirst table)
    (hk : ∃ e ∈ table, e.Matches k) :
    ∃ e f, lookup? table k = some e ∧ lookup? (minimise table) k = some f ∧
      f.route = e.route := by
  obtain ⟨g, hg, hgk⟩ := hk
  obtain ⟨e, he⟩ := exists_lookup? hg hgk
  obtain ⟨f, hf, hroute⟩ := (faithful_minimise h hproper).1 k e he
  exact ⟨e, f, he, hf, hroute⟩

/-- Two keys of one route above a more general entry of another. -/
def layered : List Entry :=
  [⟨⟨0, BitVec.allOnes 32⟩, .overLinks [.east], false⟩,
    ⟨⟨1, BitVec.allOnes 32⟩, .overLinks [.east], false⟩,
    ⟨⟨0, ~~~7⟩, .overLinks [.north], false⟩]

theorem minimise_keeps_route_layered :
    ∃ e f, lookup? layered 1 = some e ∧ lookup? (minimise layered) 1 = some f ∧
      f.route = e.route := by
  have hproper : AllProper layered := by
    intro e he
    simp only [layered, List.mem_cons, List.not_mem_nil, or_false] at he
    rcases he with rfl | rfl | rfl <;> decide
  have hordered : layered.Pairwise
      fun e f => e.pattern.generality ≤ f.pattern.generality := by decide
  exact minimise_keeps_route hproper (hordered.imp fun hle _ _ => hle) (by decide)

/-- A table in which two entries have a key bit outside their mask. -/
def improperTwins : List Entry :=
  [⟨⟨0, BitVec.allOnes 32⟩, .overLinks [.north], false⟩,
    ⟨⟨6, BitVec.allOnes 32⟩, .overLinks [.north], false⟩,
    ⟨⟨0, ~~~7⟩, .overLinks [.east], false⟩,
    ⟨⟨1, ~~~7⟩, .overLinks [.northEast], false⟩,
    ⟨⟨1, ~~~7⟩, .overLinks [.northEast], false⟩]

/-- Without proper entries the statement fails: the join of the twins takes the place of an
entry in front of it in the list of initial patterns, which then no longer protects that entry's
keys. -/
theorem minimise_reroutes_improperTwins :
    ¬ ∀ table k, SpecificFirst table → (∃ e ∈ table, e.Matches k) →
      ∃ e f, lookup? table k = some e ∧ lookup? (minimise table) k = some f ∧
        f.route = e.route := by
  intro h
  have hordered : improperTwins.Pairwise
      fun e f => e.pattern.generality ≤ f.pattern.generality := by decide
  obtain ⟨e, f, he, hf, hroute⟩ := h improperTwins 2
    (hordered.imp fun hle _ _ => hle) (by decide)
  have hbefore : (lookup? improperTwins 2).map Entry.route = some (.overLinks [.east]) := by
    decide
  have hsorted : sortByGenerality improperTwins = improperTwins :=
    List.mergeSort_of_pairwise (by simpa using hordered)
  have hafter : (lookup? (minimise improperTwins) 2).map Entry.route =
      some (.overLinks [.north]) := by
    unfold minimise
    rw [hsorted]
    decide +kernel
  rw [he, Option.map_some, Option.some.injEq] at hbefore
  rw [hf, Option.map_some, Option.some.injEq] at hafter
  rw [hafter, hbefore] at hroute
  exact absurd hroute (by decide)

end

end MulticastMesh.Tables.OrderedCovering
