import Mathlib.Data.List.Forall2
import Mathlib.Data.List.Perm.Basic
import MulticastMesh.Proofs.Tables.Covering.Merges
import MulticastMesh.Proofs.Tables.Hints
/-!
# Whole groups

A minimised table consists of joins of groups of entries, and the groups divide the table: joins
of joins are joins of the members together, in whatever order these are taken.  Groups are lists
of entries while tables are joined step by step, and lists of positions in the end, since a table
may hold one entry several times.
-/

namespace MulticastMesh.Tables

open Keys (Pattern)
open Routing (Route)

variable {before middle after before' after' members members' table out : List Entry}
  {groups : List (List Entry)} {e f : Entry}

/-! ## Lists that correspond -/

section

variable {α β : Type} {R : α → β → Prop} {l : List α} {l' : List β} {divided : List (List β)}

theorem exists_right_of_mem (h : List.Forall₂ R l l') {a : α} (ha : a ∈ l) :
    ∃ b ∈ l', R a b := by
  induction h with
  | nil => cases ha
  | cons hr _ ih =>
      rcases List.mem_cons.1 ha with rfl | ha
      · exact ⟨_, by simp, hr⟩
      · obtain ⟨b, hb, hab⟩ := ih ha
        exact ⟨b, by simp [hb], hab⟩

theorem exists_groups (h : List.Forall₂ R l divided.flatten) :
    ∃ parts, List.Forall₂ (List.Forall₂ R) parts divided ∧ parts.flatten = l := by
  induction divided generalizing l with
  | nil => exact ⟨[], .nil, (List.forall₂_nil_right_iff.1 h).symm⟩
  | cons group divided ih =>
      rw [List.flatten_cons] at h
      obtain ⟨parts, hparts, hrest⟩ := ih (List.forall₂_drop_append _ _ _ h)
      refine ⟨l.take group.length :: parts, .cons (List.forall₂_take_append _ _ _ h) hparts, ?_⟩
      rw [List.flatten_cons, hrest, List.take_append_drop]

/-- What corresponds to the reordered entries of groups is divided in the same way. -/
theorem exists_groups_of_perm (h : List.Forall₂ R l l') (hp : divided.flatten.Perm l') :
    ∃ parts, List.Forall₂ (List.Forall₂ R) parts divided ∧ parts.flatten.Perm l := by
  have hcomp : Relation.Comp (List.Forall₂ R) List.Perm l divided.flatten := ⟨l', h, hp.symm⟩
  rw [List.forall₂_comp_perm_eq_perm_comp_forall₂] at hcomp
  obtain ⟨reordered, hreordered, hrel⟩ := hcomp
  obtain ⟨parts, hparts, rfl⟩ := exists_groups hrel
  exact ⟨parts, hparts, hreordered.symm⟩

end

/-! ## Joins of groups -/

/-- An entry is the join of a group of entries with its route. -/
structure Joins (members : List Entry) (f : Entry) : Prop where
  nonempty : members ≠ []
  route : ∀ e ∈ members, e.route = f.route
  pattern : f.pattern = Pattern.joinAll (members.map Entry.pattern)
  defaultable : f.defaultable = members.all Entry.defaultable

theorem joins_self (e : Entry) : Joins [e] e where
  nonempty := List.cons_ne_nil e []
  route := by simp
  pattern := rfl
  defaultable := by simp

theorem joins_join (h : f.route = e.route) : Joins [e, f] (e.join f) where
  nonempty := List.cons_ne_nil e [f]
  route := by simp [Entry.join, h]
  pattern := rfl
  defaultable := by simp [Entry.join]

theorem patterns_of_joins (h : List.Forall₂ Joins groups members) :
    members.map Entry.pattern =
      (groups.map (List.map Entry.pattern)).map Pattern.joinAll := by
  induction h with
  | nil => rfl
  | cons hjoin _ ih => simp only [List.map_cons, ih, hjoin.pattern]

theorem flags_of_joins (h : List.Forall₂ Joins groups members) :
    members.all Entry.defaultable = groups.flatten.all Entry.defaultable := by
  induction h with
  | nil => rfl
  | cons hjoin _ ih =>
      rw [List.all_cons, List.flatten_cons, List.all_append, ih, hjoin.defaultable]

theorem Joins.flatten (h : Joins members f) (hgroups : List.Forall₂ Joins groups members) :
    Joins groups.flatten f where
  nonempty := by
    have hne : groups ≠ [] := by
      rintro rfl
      cases hgroups
      exact h.nonempty rfl
    obtain ⟨group, hgroup⟩ := List.exists_mem_of_ne_nil groups hne
    obtain ⟨_, _, hjoin⟩ := exists_right_of_mem hgroups hgroup
    exact List.flatten_ne_nil_iff.2 ⟨group, hgroup, hjoin.nonempty⟩
  route := by
    intro e he
    obtain ⟨group, hgroup, he⟩ := List.mem_flatten.1 he
    obtain ⟨d, hd, hjoin⟩ := exists_right_of_mem hgroups hgroup
    exact (hjoin.route e he).trans (h.route d hd)
  pattern := by
    have hne : ∀ patterns ∈ groups.map (List.map Entry.pattern), patterns ≠ [] := by
      intro patterns hpatterns
      obtain ⟨group, hgroup, rfl⟩ := List.mem_map.1 hpatterns
      obtain ⟨_, _, hjoin⟩ := exists_right_of_mem hgroups hgroup
      exact List.map_eq_nil_iff.not.2 hjoin.nonempty
    rw [h.pattern, patterns_of_joins hgroups, List.map_flatten, Pattern.joinAll_flatten hne]
  defaultable := h.defaultable.trans (flags_of_joins hgroups)

theorem Joins.perm (h : Joins members f) (hp : members.Perm members') : Joins members' f where
  nonempty := fun hnil => h.nonempty (hnil ▸ hp).eq_nil
  route := fun e he => h.route e (hp.mem_iff.2 he)
  pattern := h.pattern.trans (Pattern.joinAll_perm (hp.map Entry.pattern))
  defaultable := h.defaultable.trans hp.all_eq

/-! ## Tables of joins -/

/-- The later entries are the joins of groups that divide the earlier ones. -/
def Gathers (before after : List Entry) : Prop :=
  ∃ groups : List (List Entry), List.Forall₂ Joins groups after ∧ groups.flatten.Perm before

theorem gathers_join (h : Joins members f) : Gathers members [f] :=
  ⟨[members], .cons h .nil, by simp⟩

theorem Gathers.append (h : Gathers before after) (h' : Gathers before' after') :
    Gathers (before ++ before') (after ++ after') := by
  obtain ⟨groups, hjoins, hperm⟩ := h
  obtain ⟨groups', hjoins', hperm'⟩ := h'
  refine ⟨groups ++ groups', List.rel_append hjoins hjoins', ?_⟩
  rw [List.flatten_append]
  exact hperm.append hperm'

theorem gathers_self (l : List Entry) : Gathers l l := by
  induction l with
  | nil => exact ⟨[], .nil, List.Perm.refl []⟩
  | cons e l ih => exact (gathers_join (joins_self e)).append ih

theorem Gathers.of_perm (h : Gathers before after) (hp : before.Perm before') :
    Gathers before' after := by
  obtain ⟨groups, hjoins, hperm⟩ := h
  exact ⟨groups, hjoins, hperm.trans hp⟩

theorem gathers_perm (hp : before.Perm after) : Gathers before after :=
  (gathers_self after).of_perm hp.symm

theorem Gathers.trans (h : Gathers before middle) (h' : Gathers middle after) :
    Gathers before after := by
  obtain ⟨groups, hjoins, hperm⟩ := h
  obtain ⟨groups', hjoins', hperm'⟩ := h'
  obtain ⟨parts, hparts, hdivided⟩ := exists_groups_of_perm hjoins hperm'
  -- a group of the later step is made of the groups whose joins are its members
  refine ⟨parts.map List.flatten, ?_, ?_⟩
  · rw [List.forall₂_map_left_iff]
    clear hperm' hdivided
    induction hjoins' generalizing parts with
    | nil => cases hparts; exact .nil
    | cons hjoin _ ih =>
        cases hparts with
        | cons hpart hparts => exact .cons (hjoin.flatten hpart) (ih _ hparts)
  · rw [← List.flatten_flatten]
    exact hdivided.flatten.trans hperm

/-! ## Entries at positions -/

def entriesAt (table : List Entry) (positions : List Nat) : List Entry :=
  positions.filterMap fun i => table[i]?

theorem entriesAt_eq {positions : List Nat} {entries : List Entry}
    (h : List.Forall₂ (fun i e => table[i]? = some e) positions entries) :
    entriesAt table positions = entries := by
  induction h with
  | nil => rfl
  | cons he _ ih =>
      unfold entriesAt at ih ⊢
      rw [List.filterMap_cons_some he, ih]

theorem forall₂_range (table : List Entry) :
    List.Forall₂ (fun i e => table[i]? = some e) (List.range table.length) table := by
  rw [List.forall₂_iff_get]
  refine ⟨List.length_range, fun i _ hi => ?_⟩
  simp [hi]

theorem entriesAt_range (table : List Entry) :
    entriesAt table (List.range table.length) = table :=
  entriesAt_eq (forall₂_range table)

/-! ## Merging without regard to order -/

namespace Unordered

variable {others l : List Entry} {route : Route}

theorem gathers_absorb (h : ∀ f ∈ l, f.route = e.route) :
    Gathers (e :: l) ((absorb others e l).1 :: (absorb others e l).2) := by
  induction l generalizing e with
  | nil => exact gathers_self [e]
  | cons f l ih =>
      obtain ⟨hf, hl⟩ := List.forall_mem_cons.1 h
      unfold absorb
      split
      · have hskip := (gathers_self [f]).append (ih hl)
        exact ((gathers_perm (.swap f e l)).trans hskip).trans (gathers_perm (.swap _ f _))
      · exact ((gathers_join (joins_join hf)).append (gathers_self l)).trans (ih hl)

theorem gathers_joinGroup (fuel : Nat) (h : ∀ e ∈ l, e.route = route) :
    Gathers l (joinGroup others fuel l) := by
  induction fuel generalizing l with
  | zero => exact gathers_self l
  | succ fuel ih =>
      cases l with
      | nil => exact gathers_self []
      | cons e l =>
          obtain ⟨he, hl⟩ := List.forall_mem_cons.1 h
          obtain ⟨_, _, hleft⟩ := absorb_grows others e l
          have habsorb : Gathers (e :: l) ((absorb others e l).1 :: (absorb others e l).2) :=
            gathers_absorb fun f hf => (hl f hf).trans he.symm
          have hrest := ih fun f hf => hl f (hleft f hf)
          unfold joinGroup
          exact habsorb.trans ((gathers_self [_]).append hrest)

theorem gathers_joined (done rest : List Group) {g : Group}
    (h : ∀ e ∈ g.entries, e.route = g.route) :
    Gathers ((done ++ g :: rest).flatMap fun g => g.entries)
      ((done ++ joined done rest g :: rest).flatMap fun g => g.entries) := by
  simp only [List.flatMap_append, List.flatMap_cons]
  exact (gathers_self _).append ((gathers_joinGroup _ h).append (gathers_self _))

theorem gathers_joinGroups (done : List Group) {todo : List Group}
    (h : ∀ g ∈ todo, ∀ e ∈ g.entries, e.route = g.route) :
    Gathers ((done ++ todo).flatMap fun g => g.entries)
      ((joinGroups done todo).flatMap fun g => g.entries) := by
  induction todo generalizing done with
  | nil =>
      rw [List.append_nil]
      exact gathers_self _
  | cons g rest ih =>
      obtain ⟨hg, hrest⟩ := List.forall_mem_cons.1 h
      have hlater := ih (done ++ [joined done rest g]) hrest
      rw [← List.append_cons] at hlater
      exact (gathers_joined done rest hg).trans hlater

theorem perm_filter_routes {routes : List Route} (hroutes : routes.Nodup)
    (h : ∀ e ∈ l, e.route ∈ routes) :
    (routes.flatMap fun route => l.filter fun e => e.route == route).Perm l := by
  induction routes generalizing l with
  | nil =>
      rw [List.eq_nil_iff_forall_not_mem.2 fun e he => List.not_mem_nil (h e he)]
      exact List.Perm.refl []
  | cons route routes ih =>
      obtain ⟨hnew, hrest⟩ := List.nodup_cons.1 hroutes
      have hothers : (routes.flatMap fun r => l.filter fun e => e.route == r) =
          routes.flatMap fun r =>
            (l.filter fun e => !(e.route == route)).filter fun e => e.route == r := by
        refine List.flatMap_congr fun r hr => ?_
        rw [List.filter_filter]
        refine List.filter_congr fun e _ => ?_
        have hne : r ≠ route := fun heq => hnew (heq ▸ hr)
        grind
      have hleft := ih (l := l.filter fun e => !(e.route == route)) hrest fun e he => by
        obtain ⟨he, hne⟩ := List.mem_filter.1 he
        have := h e he
        grind
      rw [List.flatMap_cons, hothers]
      exact (List.Perm.append_left _ hleft).trans (List.filter_append_perm _ l)

theorem perm_group (table : List Entry) :
    ((group table).flatMap fun g => g.entries).Perm table := by
  unfold group
  rw [List.flatMap_map]
  refine perm_filter_routes (Maps.nodup_eraseDups _) fun e he => ?_
  exact List.mem_eraseDups.2 (List.mem_map_of_mem he)

theorem route_of_mem_group {g : Group} (hg : g ∈ group table) :
    ∀ e ∈ g.entries, e.route = g.route := by
  intro e he
  obtain ⟨route, _, rfl⟩ := List.mem_map.1 hg
  exact beq_iff_eq.1 (List.mem_filter.1 he).2

theorem gathers_minimise (table : List Entry) : Gathers table (minimise table) :=
  (gathers_perm (perm_group table).symm).trans
    (gathers_joinGroups [] fun _ hg => route_of_mem_group hg)

end Unordered

/-! ## Ordered covering -/

namespace OrderedCovering

variable {table : Array Entry} {origins : Origins} {route : Route} {m : Merge}

theorem MergeOf.joins_entry (h : MergeOf table route m) (hne : m.members ≠ []) :
    Joins (m.members.filterMap fun i => table[i]?) (m.entry table) where
  nonempty := by
    obtain ⟨i, hi⟩ := List.exists_mem_of_ne_nil _ hne
    obtain ⟨e, he, _⟩ := h.entry i hi
    exact List.ne_nil_of_mem (List.mem_filterMap.2 ⟨i, hi, he⟩)
  route := by
    intro e he
    obtain ⟨i, hi, he⟩ := List.mem_filterMap.1 he
    obtain ⟨f, hf, hroute⟩ := h.entry i hi
    cases he.symm.trans hf
    rw [h.route_entry hne, hroute]
  pattern := by
    rw [List.map_filterMap]
    exact h.pattern_eq
  defaultable := rfl

theorem gathers_apply (h : MergeOf table route m) (hne : m.members ≠ []) :
    Gathers table.toList (m.apply table).toList := by
  have hall : ((List.range table.size).filterMap fun i => table[i]?) = table.toList := by
    simpa [entriesAt] using entriesAt_range table.toList
  have hperm := h.perm_range.filterMap fun i => table[i]?
  rw [hall, List.filterMap_append, List.filterMap_append] at hperm
  rw [toList_apply]
  refine (gathers_perm hperm.symm).trans ((gathers_self _).append ?_)
  exact (gathers_join (h.joins_entry hne)).append (gathers_self _)

theorem gathers_mergeAll (fuel : Nat) (table : Array Entry) (origins : Origins) :
    Gathers table.toList (mergeAll fuel table origins).toList := by
  induction fuel generalizing table origins with
  | zero => exact gathers_self _
  | succ fuel ih =>
      rw [mergeAll]
      split
      · exact gathers_self _
      · next hgood =>
          obtain ⟨route, hbest⟩ := bestMerge_catchless (Int.not_le.1 hgood)
          have hne := Merge.members_ne_nil (Int.not_le.1 hgood)
          exact (gathers_apply hbest.merge hne).trans (ih _ _)

theorem gathers_minimise (table : List Entry) : Gathers table (minimise table) :=
  (gathers_perm (perm_sortByGenerality table).symm).trans
    (gathers_mergeAll table.length (sortByGenerality table).toArray [])

end OrderedCovering

/-! ## Groups of positions -/

variable {places : List (List Nat)}

/-- Groups of positions that divide a table, each listed in order and with the join of its
entries. -/
structure GroupsOf (table out : List Entry) (groups : List (List Nat)) : Prop where
  positions : groups.flatten.Perm (List.range table.length)
  increasing : ∀ group ∈ groups, group.Pairwise (· < ·)
  joins : List.Forall₂ (fun group f => Joins (entriesAt table group) f) groups out

theorem Gathers.exists_positions (h : Gathers table out) : ∃ places : List (List Nat),
    places.flatten.Perm (List.range table.length) ∧
      List.Forall₂ (fun group f => Joins (entriesAt table group) f) places out := by
  obtain ⟨groups, hjoins, hperm⟩ := h
  obtain ⟨places, hplaces, hdivided⟩ := exists_groups_of_perm (forall₂_range table) hperm
  refine ⟨places, hdivided, ?_⟩
  clear hperm hdivided
  induction hjoins generalizing places with
  | nil => cases hplaces; exact .nil
  | cons hjoin _ ih =>
      cases hplaces with
      | cons hplace hplaces =>
          refine .cons ?_ (ih _ hplaces)
          rwa [entriesAt_eq hplace]

theorem Gathers.exists_groupsOf (h : Gathers table out) : ∃ groups, GroupsOf table out groups := by
  obtain ⟨places, hperm, hjoins⟩ := h.exists_positions
  have hsorted : ∀ group : List Nat, group.mergeSort.Perm group := fun _ => List.mergeSort_perm _ _
  have hnodup := (List.nodup_flatten.1 (hperm.nodup_iff.2 List.nodup_range)).1
  refine ⟨places.map fun group => group.mergeSort, ?_, ?_, ?_⟩
  · refine (List.Perm.flatten_congr ?_).trans hperm
    rw [List.forall₂_map_left_iff, List.forall₂_same]
    exact fun group _ => hsorted group
  · intro listed hlisted
    obtain ⟨group, hgroup, rfl⟩ := List.mem_map.1 hlisted
    have hle : group.mergeSort.Pairwise fun i j => decide (i ≤ j) = true :=
      List.pairwise_mergeSort (fun i j k => by simpa using Nat.le_trans)
        (fun i j => by simpa using Nat.le_total i j) group
    have hne : group.mergeSort.Nodup := (hsorted group).nodup_iff.2 (hnodup group hgroup)
    exact (hle.and hne).imp fun hij => Nat.lt_of_le_of_ne (by simpa using hij.1) hij.2
  · rw [List.forall₂_map_left_iff]
    refine hjoins.imp fun group f hjoin => hjoin.perm ?_
    exact ((hsorted group).filterMap fun i => table[i]?).symm

theorem GroupsOf.existsUnique (h : GroupsOf table out places) {i : Nat} (hi : i < table.length) :
    ∃! j : Nat, ∃ group, places[j]? = some group ∧ i ∈ group := by
  obtain ⟨group, hgroup, hmem⟩ :=
    List.mem_flatten.1 (h.positions.mem_iff.2 (List.mem_range.2 hi))
  obtain ⟨j, hj⟩ := List.getElem?_of_mem hgroup
  have hnodup : places.flatten.Nodup := h.positions.nodup_iff.2 List.nodup_range
  have hdisjoint := List.pairwise_iff_getElem.1 (List.nodup_flatten.1 hnodup).2
  refine ⟨j, ⟨group, hj, hmem⟩, ?_⟩
  rintro j' ⟨group', hj', hmem'⟩
  obtain ⟨hlt, rfl⟩ := List.getElem?_eq_some_iff.1 hj
  obtain ⟨hlt', rfl⟩ := List.getElem?_eq_some_iff.1 hj'
  rcases Nat.lt_trichotomy j j' with hless | rfl | hless
  · exact absurd hmem' (hdisjoint j j' hlt hlt' hless hmem)
  · rfl
  · exact absurd hmem (hdisjoint j' j hlt' hlt hless hmem')

theorem GroupsOf.length_le (h : GroupsOf table out places) : out.length ≤ table.length := by
  have hne : ∀ n ∈ places.map List.length, 1 ≤ n := by
    intro n hn
    obtain ⟨group, hgroup, rfl⟩ := List.mem_map.1 hn
    obtain ⟨_, _, hjoin⟩ := exists_right_of_mem h.joins hgroup
    rw [Nat.one_le_iff_ne_zero, Ne, List.length_eq_zero_iff]
    rintro rfl
    exact hjoin.nonempty rfl
  have hsum := List.length_le_sum_of_one_le _ hne
  rw [List.length_map, ← List.length_flatten, h.positions.length_eq, List.length_range,
    h.joins.length_eq] at hsum
  exact hsum

theorem Gathers.length_le (h : Gathers table out) : out.length ≤ table.length := by
  obtain ⟨_, hplaces⟩ := h.exists_groupsOf
  exact hplaces.length_le

/-- A table whose entries are the joins of groups that divide another: every position of the
other is in one of the groups. -/
def JoinsGroups (table out : List Entry) : Prop :=
  ∃ places, GroupsOf table out places ∧
    (∀ i < table.length, ∃! j : Nat, ∃ group, places[j]? = some group ∧ i ∈ group) ∧
    out.length ≤ table.length

theorem Gathers.joinsGroups (h : Gathers table out) : JoinsGroups table out := by
  obtain ⟨places, hplaces⟩ := h.exists_groupsOf
  exact ⟨places, hplaces, fun _ hi => hplaces.existsUnique hi, hplaces.length_le⟩

/-- Both minimisers join whole groups of entries, and lose or double none. -/
theorem minimise_joinsGroups (table : List Entry) :
    JoinsGroups table (OrderedCovering.minimise table) ∧
      JoinsGroups table (Unordered.minimise table) :=
  ⟨(OrderedCovering.gathers_minimise table).joinsGroups,
    (Unordered.gathers_minimise table).joinsGroups⟩

end MulticastMesh.Tables
