import Mathlib.Data.List.Pairwise
import MulticastMesh.Proofs.Maps
import MulticastMesh.Proofs.Tables.FirstMatch
import MulticastMesh.Tables.Unordered
/-!
# Merging without regard to order

Groups of entries with different routes never have a common key, and joining the entries of one
group keeps it so.  Tables in which every key has one route keep their routes, in whatever order
their entries are looked up.
-/

namespace MulticastMesh.Tables.Unordered

open Keys (Key Pattern)
open Routing (Route)

variable {table entries others left out : List Entry} {e f : Entry} {route : Route} {k : Key}

def KeepsKeys (before after : List Entry) : Prop :=
  ∀ e ∈ before, ∀ k, e.Matches k → ∃ f ∈ after, f.Matches k

theorem KeepsKeys.refl : KeepsKeys entries entries := fun e he _ hk => ⟨e, he, hk⟩

theorem KeepsKeys.trans {a b c : List Entry} (h : KeepsKeys a b) (h' : KeepsKeys b c) :
    KeepsKeys a c := by
  intro e he k hk
  obtain ⟨f, hf, hfk⟩ := h e he k hk
  exact h' f hf k hfk

/-- An entry of a group that has no key in common with the other groups. -/
structure Clear (others : List Entry) (route : Route) (e : Entry) : Prop where
  route_eq : e.route = route
  apart : ∀ o ∈ others, ∀ k, e.Matches k → ¬ o.Matches k

theorem matches_join_left (hk : e.Matches k) : (e.join f).Matches k :=
  Pattern.Matches.of_coveredBy Pattern.coveredBy_join_left hk

theorem matches_join_right (hk : f.Matches k) : (e.join f).Matches k :=
  Pattern.Matches.of_coveredBy Pattern.coveredBy_join_right hk

theorem Clear.join (h : Clear others route e) (hfree : clashes others (e.join f) = false) :
    Clear others route (e.join f) where
  route_eq := h.route_eq
  apart := by
    intro o ho k hk hok
    unfold clashes at hfree
    rw [List.any_eq_false] at hfree
    exact hfree o ho (Pattern.intersects_of_matches hk hok)

theorem absorb_spec {l : List Entry} (h : Clear others route e) :
    Clear others route (absorb others e l).1 ∧ (∀ f ∈ (absorb others e l).2, f ∈ l) ∧
      KeepsKeys (e :: l) ((absorb others e l).1 :: (absorb others e l).2) := by
  induction l generalizing e with
  | nil => exact ⟨h, by simp [absorb], KeepsKeys.refl⟩
  | cons f l ih =>
      unfold absorb
      split
      · obtain ⟨hclear, hleft, hkeys⟩ := ih h
        refine ⟨hclear, ?_, ?_⟩
        · intro d hd
          rcases List.mem_cons.1 hd with rfl | hd
          · simp
          · exact List.mem_cons_of_mem _ (hleft d hd)
        · intro d hd k hk
          have hold : d ∈ e :: l → ∃ c ∈ (absorb others e l).1 :: f :: (absorb others e l).2,
              c.Matches k := by
            intro hmem
            obtain ⟨c, hc, hck⟩ := hkeys d hmem k hk
            rcases List.mem_cons.1 hc with rfl | hc
            · exact ⟨_, by simp, hck⟩
            · exact ⟨c, by simp [hc], hck⟩
          rcases List.mem_cons.1 hd with rfl | hd
          · exact hold (by simp)
          · rcases List.mem_cons.1 hd with rfl | hd
            · exact ⟨d, by simp, hk⟩
            · exact hold (by simp [hd])
      · next hfree =>
          rw [Bool.not_eq_true] at hfree
          obtain ⟨hclear, hleft, hkeys⟩ := ih (h.join hfree)
          refine ⟨hclear, fun d hd => List.mem_cons_of_mem _ (hleft d hd), ?_⟩
          intro d hd k hk
          rcases List.mem_cons.1 hd with rfl | hd
          · exact hkeys (d.join f) (by simp) k (matches_join_left hk)
          · rcases List.mem_cons.1 hd with rfl | hd
            · exact hkeys (e.join d) (by simp) k (matches_join_right hk)
            · exact hkeys d (by simp [hd]) k hk

theorem joinGroup_spec (fuel : Nat) (h : ∀ e ∈ entries, Clear others route e) :
    (∀ e ∈ joinGroup others fuel entries, Clear others route e) ∧
      KeepsKeys entries (joinGroup others fuel entries) := by
  induction fuel generalizing entries with
  | zero => exact ⟨h, KeepsKeys.refl⟩
  | succ fuel ih =>
      cases entries with
      | nil => exact ⟨by simp [joinGroup], KeepsKeys.refl⟩
      | cons e l =>
          obtain ⟨he, hl⟩ := List.forall_mem_cons.1 h
          obtain ⟨hclear, hleft, hkeys⟩ := absorb_spec (l := l) he
          obtain ⟨hrest, hrestKeys⟩ := ih fun f hf => hl f (hleft f hf)
          unfold joinGroup
          refine ⟨List.forall_mem_cons.2 ⟨hclear, hrest⟩, hkeys.trans ?_⟩
          intro d hd k hk
          rcases List.mem_cons.1 hd with rfl | hd
          · exact ⟨_, by simp, hk⟩
          · obtain ⟨c, hc, hck⟩ := hrestKeys d hd k hk
            exact ⟨c, List.mem_cons_of_mem _ hc, hck⟩

/-! ## Groups -/

def ApartGroups (g h : Group) : Prop :=
  ∀ e ∈ g.entries, ∀ f ∈ h.entries, ∀ k, e.Matches k → ¬ f.Matches k

theorem ApartGroups.symm {g h : Group} (hgh : ApartGroups g h) : ApartGroups h g :=
  fun e he f hf k hk hfk => hgh f hf e he k hfk hk

/-- Groups by route, no two of which have a common key. -/
structure Separate (groups : List Group) : Prop where
  route_eq : ∀ g ∈ groups, ∀ e ∈ g.entries, e.route = g.route
  apart : groups.Pairwise ApartGroups

def joined (done rest : List Group) (g : Group) : Group :=
  let others := (done ++ rest).flatMap fun h => h.entries
  { g with entries := joinGroup others g.entries.length g.entries }

theorem joined_spec {done rest : List Group} {g : Group} (h : Separate (done ++ g :: rest)) :
    Separate (done ++ joined done rest g :: rest) ∧
      KeepsKeys g.entries (joined done rest g).entries := by
  have hg : g ∈ done ++ g :: rest := by simp
  have hothers : ∀ e ∈ g.entries,
      Clear ((done ++ rest).flatMap fun h => h.entries) g.route e := by
    intro e he
    refine ⟨h.route_eq g hg e he, ?_⟩
    intro o ho k hk
    obtain ⟨d, hd, hod⟩ := List.mem_flatMap.1 ho
    obtain ⟨_, htail, hcross⟩ := List.pairwise_append.1 h.apart
    rcases List.mem_append.1 hd with hd | hd
    · exact (hcross d hd g (by simp)).symm e he o hod k hk
    · exact (List.pairwise_cons.1 htail).1 d hd e he o hod k hk
  obtain ⟨hclear, hkeys⟩ := joinGroup_spec g.entries.length hothers
  refine ⟨⟨?_, ?_⟩, hkeys⟩
  · intro d hd e he
    rcases List.mem_append.1 hd with hd | hd
    · exact h.route_eq d (by simp [hd]) e he
    · rcases List.mem_cons.1 hd with rfl | hd
      · exact (hclear e he).route_eq
      · exact h.route_eq d (by simp [hd]) e he
  · obtain ⟨hdone, htail, hcross⟩ := List.pairwise_append.1 h.apart
    have hnew : ∀ d ∈ done ++ rest, ApartGroups (joined done rest g) d :=
      fun d hd e he f hf k hk =>
        (hclear e he).apart f (List.mem_flatMap.2 ⟨d, hd, hf⟩) k hk
    rw [List.pairwise_append, List.pairwise_cons]
    refine ⟨hdone, ⟨fun d hd => hnew d (by simp [hd]), (List.pairwise_cons.1 htail).2⟩, ?_⟩
    intro d hd c hc
    rcases List.mem_cons.1 hc with rfl | hc
    · exact (hnew d (by simp [hd])).symm
    · exact hcross d hd c (by simp [hc])

theorem joinGroups_spec (done : List Group) {todo : List Group} (h : Separate (done ++ todo)) :
    Separate (joinGroups done todo) ∧ ∀ g ∈ done ++ todo, ∃ g' ∈ joinGroups done todo,
      g'.route = g.route ∧ KeepsKeys g.entries g'.entries := by
  induction todo generalizing done with
  | nil =>
      rw [List.append_nil] at h ⊢
      exact ⟨h, fun g hg => ⟨g, hg, rfl, KeepsKeys.refl⟩⟩
  | cons g rest ih =>
      obtain ⟨hsep, hkeys⟩ := joined_spec h
      have hnext : joinGroups done (g :: rest) = joinGroups (done ++ [joined done rest g]) rest :=
        rfl
      rw [List.append_cons] at hsep
      obtain ⟨hresult, hall⟩ := ih _ hsep
      rw [hnext]
      refine ⟨hresult, ?_⟩
      intro d hd
      have hkept : d ∈ done ++ rest → ∃ g' ∈ joinGroups (done ++ [joined done rest g]) rest,
          g'.route = d.route ∧ KeepsKeys d.entries g'.entries := by
        intro hmem
        apply hall d
        rcases List.mem_append.1 hmem with hmem | hmem
        · simp [hmem]
        · simp [hmem]
      rcases List.mem_append.1 hd with hd | hd
      · exact hkept (by simp [hd])
      · rcases List.mem_cons.1 hd with rfl | hd
        · obtain ⟨g', hg', hroute, hkeys'⟩ := hall (joined done rest d) (by simp)
          exact ⟨g', hg', hroute, hkeys.trans hkeys'⟩
        · exact hkept (by simp [hd])

/-! ## Whole tables -/

theorem separate_group (h : Unambiguous table) : Separate (group table) := by
  refine ⟨?_, ?_⟩
  · intro g hg e he
    obtain ⟨route, _, rfl⟩ := List.mem_map.1 hg
    exact beq_iff_eq.1 (List.mem_filter.1 he).2
  · unfold group
    rw [List.pairwise_map]
    apply (Maps.nodup_eraseDups (table.map fun e => e.route)).imp
    intro r s hne e he f hf k hk hfk
    obtain ⟨hmem, hr⟩ := List.mem_filter.1 he
    obtain ⟨hmem', hs⟩ := List.mem_filter.1 hf
    have hroute := h e hmem f hmem' k hk hfk
    rw [beq_iff_eq.1 hr, beq_iff_eq.1 hs] at hroute
    exact hne hroute

theorem mem_group (he : e ∈ table) : ∃ g ∈ group table, g.route = e.route ∧ e ∈ g.entries := by
  refine ⟨⟨e.route, table.filter fun f => f.route == e.route⟩, ?_, rfl, ?_⟩
  · exact List.mem_map.2 ⟨e.route, List.mem_eraseDups.2 (List.mem_map_of_mem he), rfl⟩
  · exact List.mem_filter.2 ⟨he, beq_iff_eq.2 rfl⟩

theorem unambiguous_of_separate {groups : List Group} (h : Separate groups) :
    Unambiguous (groups.flatMap fun g => g.entries) := by
  intro e he f hf k hk hfk
  obtain ⟨g, hg, he⟩ := List.mem_flatMap.1 he
  obtain ⟨g', hg', hf⟩ := List.mem_flatMap.1 hf
  have hsymm : Std.Symm ApartGroups := ⟨fun _ _ hgh => hgh.symm⟩
  have hsame : g.route = g'.route := by
    by_contra hne
    have hapart := h.apart.forall hg hg' fun heq => hne (heq ▸ rfl)
    exact hapart e he f hf k hk hfk
  rw [h.route_eq g hg e he, h.route_eq g' hg' f hf, hsame]

/-- The shorter table has an entry with the same route for every key of the table. -/
theorem exists_mem_minimise (h : Unambiguous table) (he : e ∈ table) (hk : e.Matches k) :
    ∃ f ∈ minimise table, f.Matches k ∧ f.route = e.route := by
  obtain ⟨hsep, hall⟩ := joinGroups_spec [] (separate_group h)
  obtain ⟨g, hg, hroute, hmem⟩ := mem_group he
  obtain ⟨g', hg', hroute', hkeys⟩ := hall g hg
  obtain ⟨f, hf, hfk⟩ := hkeys e hmem k hk
  refine ⟨f, List.mem_flatMap.2 ⟨g', hg', hf⟩, hfk, ?_⟩
  rw [hsep.route_eq g' hg' f hf, hroute', hroute]

theorem unambiguous_minimise (h : Unambiguous table) : Unambiguous (minimise table) :=
  unambiguous_of_separate (joinGroups_spec [] (separate_group h)).1

/-! ## What joins keep -/

section Kept

variable {P : Entry → Prop} (hjoin : ∀ e f, P e → P f → P (e.join f))

include hjoin

theorem forall_absorb (others : List Entry) (he : P e) (hleft : ∀ f ∈ left, P f) :
    P (absorb others e left).1 ∧ ∀ f ∈ (absorb others e left).2, P f := by
  induction left generalizing e with
  | nil => exact ⟨he, by simp [absorb]⟩
  | cons f left ih =>
      obtain ⟨hf, hrest⟩ := List.forall_mem_cons.1 hleft
      unfold absorb
      split
      · obtain ⟨hjoined, hkept⟩ := ih he hrest
        exact ⟨hjoined, List.forall_mem_cons.2 ⟨hf, hkept⟩⟩
      · exact ih (hjoin e f he hf) hrest

theorem forall_joinGroup (others : List Entry) (fuel : Nat) (h : ∀ e ∈ entries, P e) :
    ∀ e ∈ joinGroup others fuel entries, P e := by
  induction fuel generalizing entries with
  | zero => exact h
  | succ fuel ih =>
      cases entries with
      | nil => simp [joinGroup]
      | cons e left =>
          obtain ⟨he, hleft⟩ := List.forall_mem_cons.1 h
          obtain ⟨hjoined, hkept⟩ := forall_absorb hjoin others he hleft
          unfold joinGroup
          exact List.forall_mem_cons.2 ⟨hjoined, ih hkept⟩

theorem forall_joinGroups (done : List Group) {todo : List Group}
    (h : ∀ g ∈ done ++ todo, ∀ e ∈ g.entries, P e) :
    ∀ g ∈ joinGroups done todo, ∀ e ∈ g.entries, P e := by
  induction todo generalizing done with
  | nil => simpa [joinGroups] using h
  | cons g rest ih =>
      have hg := forall_joinGroup hjoin ((done ++ rest).flatMap fun h => h.entries)
        g.entries.length (h g (by simp))
      refine ih (done ++ [joined done rest g]) fun d hd => ?_
      simp only [List.append_assoc, List.mem_append, List.mem_cons, List.not_mem_nil, or_false]
        at hd
      rcases hd with hd | rfl | hd
      · exact h d (by simp [hd])
      · exact hg
      · exact h d (by simp [hd])

/-- What all entries of a table have and joins keep, all entries of the shorter table have. -/
theorem forall_minimise (h : ∀ e ∈ table, P e) : ∀ e ∈ minimise table, P e := by
  have hgroups : ∀ g ∈ [] ++ group table, ∀ e ∈ g.entries, P e := by
    intro g hg e he
    obtain ⟨route, _, rfl⟩ := List.mem_map.1 hg
    exact h e (List.mem_filter.1 he).1
  intro e he
  obtain ⟨g, hg, he⟩ := List.mem_flatMap.1 he
  exact forall_joinGroups hjoin [] hgroups g hg e he

end Kept

theorem keepsRoutes_minimise (h : Unambiguous table) (hproper : AllProper table) :
    KeepsRoutes table (minimise table) ∧ AllProper (minimise table) := by
  refine ⟨?_, forall_minimise (fun _ _ _ _ => Pattern.proper_join) hproper⟩
  intro k e he
  obtain ⟨f, hf, hfk, hroute⟩ :=
    exists_mem_minimise h (mem_of_lookup? he) (matches_of_lookup? he)
  obtain ⟨f', hf', hsame⟩ := (unambiguous_minimise h).lookup? hf hfk
  exact ⟨f', hf', hsame.trans hroute⟩

/-! ## Any order -/

theorem unambiguous_perm (hperm : out.Perm entries) (h : Unambiguous entries) :
    Unambiguous out :=
  fun e he f hf => h e (hperm.mem_iff.1 he) f (hperm.mem_iff.1 hf)

/-- The shorter table of a table in which every key has one route can be looked up in any order:
the first match of a key always has its old route. -/
theorem minimise_inAnyOrder (h : Unambiguous table) (hperm : out.Perm (minimise table)) :
    (∀ e ∈ table, ∀ k, e.Matches k → ∃ f, lookup? out k = some f ∧ f.route = e.route) ∧
      Unambiguous out := by
  have hout := unambiguous_perm hperm (unambiguous_minimise h)
  refine ⟨fun e he k hk => ?_, hout⟩
  obtain ⟨f, hf, hfk, hroute⟩ := exists_mem_minimise h he hk
  obtain ⟨f', hf', hsame⟩ := hout.lookup? (hperm.mem_iff.2 hf) hfk
  exact ⟨f', hf', hsame.trans hroute⟩

/-- Entries for two routes.  The last one asks for bits that its mask leaves free, so it matches
no key, but its join with another one would catch the keys of the other route. -/
def twoRoutes : List Entry := [
  ⟨⟨0x0#32, 0xffffffff#32⟩, .overLinks [.east], false⟩,
  ⟨⟨0x2#32, 0xffffffff#32⟩, .overLinks [.north], false⟩,
  ⟨⟨0x1#32, 0xffffffff#32⟩, .overLinks [.east], true⟩,
  ⟨⟨0x6#32, 0xffffffff#32⟩, .overLinks [.north], false⟩,
  ⟨⟨0x9#32, 0xfffffff0#32⟩, .overLinks [.north], false⟩]

theorem minimise_inAnyOrder_reversed :
    Unambiguous twoRoutes ∧ (minimise twoRoutes).reverse.Perm (minimise twoRoutes) ∧
      (minimise twoRoutes).reverse.map Entry.pattern =
        [⟨0x9#32, 0xfffffff0#32⟩, ⟨0x2#32, 0xfffffffb#32⟩, ⟨0x0#32, 0xfffffffe#32⟩] ∧
      (∀ e ∈ twoRoutes, ∀ k, e.Matches k →
        ∃ f, lookup? (minimise twoRoutes).reverse k = some f ∧ f.route = e.route) ∧
      Unambiguous (minimise twoRoutes).reverse := by
  have h : Unambiguous twoRoutes := by
    intro e he f hf k hek hfk
    have hsame : ∀ e ∈ twoRoutes, ∀ f ∈ twoRoutes, e.intersects f = true → e.route = f.route := by
      decide
    exact hsame e he f hf (Pattern.intersects_of_matches hek hfk)
  have hperm := List.reverse_perm (minimise twoRoutes)
  exact ⟨h, hperm, by decide, minimise_inAnyOrder h hperm⟩

end MulticastMesh.Tables.Unordered
