import MulticastMesh.Proofs.Tables.Gathered
/-!
# One pass is enough

A join that would catch a key of another route still does so when the entries to be joined, and
those of the other route, have grown.  Merging without regard to order therefore leaves no two
entries that could be joined, and merging its result again changes nothing.
-/

namespace MulticastMesh.Tables

open Keys (Pattern)

variable {before after members : List Entry} {e e' f f' o : Entry}

/-! ## Growth -/

structure Grown (e e' : Entry) : Prop where
  route : e'.route = e.route
  pattern : e.pattern.GrowsTo e'.pattern

theorem Grown.refl : Grown e e := ⟨rfl, .refl⟩

theorem Joins.grown (h : Joins members f) (he : e ∈ members) : Grown e f where
  route := (h.route e he).symm
  pattern := by
    rw [h.pattern]
    exact Pattern.growsTo_joinAll (List.mem_map_of_mem he)

theorem Gathers.exists_later (h : Gathers before after) (he : e ∈ before) :
    ∃ f ∈ after, Grown e f := by
  obtain ⟨groups, hjoins, hperm⟩ := h
  obtain ⟨group, hgroup, he⟩ := List.mem_flatten.1 (hperm.mem_iff.2 he)
  obtain ⟨f, hf, hjoin⟩ := exists_right_of_mem hjoins hgroup
  exact ⟨f, hf, hjoin.grown he⟩

theorem Gathers.exists_earlier (h : Gathers before after) (hf : f ∈ after) :
    ∃ e ∈ before, Grown e f := by
  obtain ⟨groups, hjoins, hperm⟩ := h
  obtain ⟨group, hgroup, hjoin⟩ := exists_right_of_mem hjoins.flip hf
  obtain ⟨e, he⟩ := List.exists_mem_of_ne_nil group hjoin.nonempty
  exact ⟨e, hperm.mem_iff.1 (List.mem_flatten.2 ⟨group, hgroup, he⟩), hjoin.grown he⟩

/-- A key that a join has in common with an entry it keeps while all three grow. -/
theorem intersects_join_of_grown {o' : Entry} (he : Grown e e') (hf : Grown f f')
    (ho : Grown o o') (h : (e.join f).intersects o = true) :
    (e'.join f').intersects o' = true :=
  Pattern.intersects_of_growsTo (he.pattern.join hf.pattern) ho.pattern h

namespace Unordered

open Routing (Route)

variable {table all all' others l : List Entry} {groups done rest todo : List Group} {g d : Group}
  {route : Route} {fuel : Nat}

/-! ## Joining one group -/

theorem clashes_iff : clashes others e = true ↔ ∃ o ∈ others, e.intersects o = true :=
  List.any_eq_true

theorem clashes_join_of_grown (he : Grown e e') (hf : Grown f f')
    (h : clashes others (e.join f) = true) : clashes others (e'.join f') = true := by
  obtain ⟨o, ho, hclash⟩ := clashes_iff.1 h
  exact clashes_iff.2 ⟨o, ho, intersects_join_of_grown he hf .refl hclash⟩

theorem grown_absorb (others : List Entry) (e : Entry) (l : List Entry) :
    Grown e (absorb others e l).1 := by
  induction l generalizing e with
  | nil => exact .refl
  | cons f l ih =>
      unfold absorb
      split
      · exact ih e
      · have hjoined := ih (e.join f)
        exact ⟨hjoined.route, Pattern.growsTo_join_left.trans hjoined.pattern⟩

/-- What an entry has left it cannot absorb any more. -/
theorem clashes_absorb (hf : f ∈ (absorb others e l).2) :
    clashes others ((absorb others e l).1.join f) = true := by
  induction l generalizing e with
  | nil => cases hf
  | cons d l ih =>
      unfold absorb at hf ⊢
      by_cases hclash : clashes others (e.join d) = true
      · rw [if_pos hclash] at hf ⊢
        rcases List.mem_cons.1 hf with rfl | hf
        · -- the clash was found before the entry grew further
          exact clashes_join_of_grown (grown_absorb others e l) .refl hclash
        · exact ih hf
      · rw [if_neg hclash] at hf ⊢
        exact ih hf

theorem absorb_eq_self (h : ∀ f ∈ l, clashes others (e.join f) = true) :
    absorb others e l = (e, l) := by
  induction l with
  | nil => rfl
  | cons f l ih =>
      obtain ⟨hf, hl⟩ := List.forall_mem_cons.1 h
      rw [absorb, if_pos hf, ih hl]

/-- No two entries can be joined without a clash. -/
def Unjoinable (others l : List Entry) : Prop :=
  l.Pairwise fun e f => clashes others (e.join f) = true

theorem unjoinable_joinGroup (hfuel : l.length ≤ fuel) (h : ∀ e ∈ l, e.route = route) :
    Unjoinable others (joinGroup others fuel l) := by
  unfold Unjoinable
  induction fuel generalizing l with
  | zero =>
      rw [List.length_eq_zero_iff.1 (Nat.le_zero.1 hfuel)]
      exact .nil
  | succ fuel ih =>
      cases l with
      | nil => exact .nil
      | cons e l =>
          obtain ⟨he, hl⟩ := List.forall_mem_cons.1 h
          obtain ⟨_, _, hleft⟩ := absorb_grows others e l
          have hroutes : ∀ f ∈ (absorb others e l).2, f.route = route :=
            fun f hf => hl f (hleft f hf)
          have habsorb : Gathers (e :: l) ((absorb others e l).1 :: (absorb others e l).2) :=
            gathers_absorb fun f hf => (hl f hf).trans he.symm
          have hlength := habsorb.length_le
          rw [List.length_cons, List.length_cons] at hlength
          rw [List.length_cons] at hfuel
          unfold joinGroup
          refine .cons ?_ (ih (by omega) hroutes)
          intro f' hf'
          obtain ⟨f, hf, hgrown⟩ := (gathers_joinGroup fuel hroutes).exists_earlier hf'
          exact clashes_join_of_grown .refl hgrown (clashes_absorb hf)

theorem joinGroup_eq_self (h : Unjoinable others l) : joinGroup others fuel l = l := by
  unfold Unjoinable at h
  induction fuel generalizing l with
  | zero => rfl
  | succ fuel ih =>
      cases h with
      | nil => rfl
      | cons hclash hrest =>
          rw [joinGroup, absorb_eq_self hclash]
          exact congrArg (List.cons _) (ih hrest)

/-! ## All groups -/

/-- Groups with different routes, none of them empty. -/
structure ByRoute (groups : List Group) : Prop where
  route_eq : ∀ g ∈ groups, ∀ e ∈ g.entries, e.route = g.route
  distinct : (groups.map Group.route).Nodup
  nonempty : ∀ g ∈ groups, g.entries ≠ []

def entriesOf (groups : List Group) : List Entry := groups.flatMap fun g => g.entries

theorem mem_entriesOf : e ∈ entriesOf groups ↔ ∃ g ∈ groups, e ∈ g.entries := List.mem_flatMap

theorem mem_middle : d ∈ done ++ g :: rest ↔ d = g ∨ d ∈ done ++ rest := by
  rw [List.perm_middle.mem_iff, List.mem_cons]

theorem ByRoute.route_ne (h : ByRoute (done ++ g :: rest)) (ho : o ∈ entriesOf (done ++ rest)) :
    o.route ≠ g.route := by
  obtain ⟨d, hd, ho⟩ := mem_entriesOf.1 ho
  have hperm : ((done ++ g :: rest).map Group.route).Perm
      ((g :: (done ++ rest)).map Group.route) := List.perm_middle.map Group.route
  have hdistinct := (List.nodup_cons.1 (hperm.nodup_iff.1 h.distinct)).1
  rw [h.route_eq d (mem_middle.2 (.inr hd)) o ho]
  intro heq
  exact hdistinct (heq ▸ List.mem_map_of_mem hd)

theorem ByRoute.tail (h : ByRoute (g :: rest)) : ByRoute rest where
  route_eq := fun d hd => h.route_eq d (List.mem_cons_of_mem g hd)
  distinct := (List.nodup_cons.1 h.distinct).2
  nonempty := fun d hd => h.nonempty d (List.mem_cons_of_mem g hd)

theorem ByRoute.joined (h : ByRoute (done ++ g :: rest)) :
    ByRoute (done ++ joined done rest g :: rest) := by
  have hg : g ∈ done ++ g :: rest := mem_middle.2 (.inl rfl)
  have hgathers : Gathers g.entries (Unordered.joined done rest g).entries :=
    gathers_joinGroup _ (h.route_eq g hg)
  constructor
  case route_eq =>
    intro d hd e he
    rcases mem_middle.1 hd with rfl | hd
    · obtain ⟨f, hf, hgrown⟩ := hgathers.exists_earlier he
      exact hgrown.route.trans (h.route_eq g hg f hf)
    · exact h.route_eq d (mem_middle.2 (.inr hd)) e he
  case distinct =>
    have hdistinct := h.distinct
    rw [List.map_append, List.map_cons] at hdistinct ⊢
    exact hdistinct
  case nonempty =>
    intro d hd
    rcases mem_middle.1 hd with rfl | hd
    · obtain ⟨e, he⟩ := List.exists_mem_of_ne_nil _ (h.nonempty g hg)
      obtain ⟨f, hf, _⟩ := hgathers.exists_later he
      exact List.ne_nil_of_mem hf
    · exact h.nonempty d (mem_middle.2 (.inr hd))

/-- The join of any two entries has a key in common with some entry of another route. -/
def Settled (all l : List Entry) : Prop :=
  l.Pairwise fun e f => ∃ o ∈ all, o.route ≠ e.route ∧ (e.join f).intersects o = true

theorem Settled.mono (h : Settled all l) (hall : Gathers all all') : Settled all' l := by
  refine h.imp ?_
  rintro e f ⟨o, ho, hne, hclash⟩
  obtain ⟨o', ho', hgrown⟩ := hall.exists_later ho
  refine ⟨o', ho', ?_, intersects_join_of_grown .refl .refl hgrown hclash⟩
  rw [hgrown.route]
  exact hne

theorem ByRoute.settled_iff (h : ByRoute (done ++ g :: rest)) :
    Settled (entriesOf (done ++ g :: rest)) g.entries ↔
      Unjoinable (entriesOf (done ++ rest)) g.entries := by
  have hg : g ∈ done ++ g :: rest := mem_middle.2 (.inl rfl)
  constructor
  · intro hs
    refine hs.imp_of_mem ?_
    rintro e f he _ ⟨o, ho, hne, hclash⟩
    obtain ⟨d, hd, hod⟩ := mem_entriesOf.1 ho
    rw [h.route_eq g hg e he] at hne
    rcases mem_middle.1 hd with rfl | hd
    · exact absurd (h.route_eq d hg o hod) hne
    · exact clashes_iff.2 ⟨o, mem_entriesOf.2 ⟨d, hd, hod⟩, hclash⟩
  · intro hs
    refine hs.imp_of_mem ?_
    intro e f he _ hclash
    obtain ⟨o, ho, hclash⟩ := clashes_iff.1 hclash
    obtain ⟨d, hd, hod⟩ := mem_entriesOf.1 ho
    refine ⟨o, mem_entriesOf.2 ⟨d, mem_middle.2 (.inr hd), hod⟩, ?_, hclash⟩
    rw [h.route_eq g hg e he]
    exact h.route_ne ho

theorem settled_joined (h : ByRoute (done ++ g :: rest)) :
    Settled (entriesOf (done ++ joined done rest g :: rest)) (joined done rest g).entries :=
  h.joined.settled_iff.2 (unjoinable_joinGroup le_rfl (h.route_eq g (mem_middle.2 (.inl rfl))))

/-- Groups that were joined stay settled while the later ones are joined. -/
theorem joinGroups_settled (done : List Group) {todo : List Group} (h : ByRoute (done ++ todo))
    (hdone : ∀ d ∈ done, Settled (entriesOf (done ++ todo)) d.entries) :
    ByRoute (joinGroups done todo) ∧
      ∀ d ∈ joinGroups done todo, Settled (entriesOf (joinGroups done todo)) d.entries := by
  induction todo generalizing done with
  | nil =>
      rw [List.append_nil] at h hdone
      exact ⟨h, hdone⟩
  | cons g rest ih =>
      have hnew := h.joined
      have hlast := settled_joined h
      have hgathers := gathers_joined done rest (h.route_eq g (mem_middle.2 (.inl rfl)))
      rw [List.append_cons] at hnew hlast
      refine ih (done ++ [joined done rest g]) hnew ?_
      intro d hd
      rcases List.mem_append.1 hd with hd | hd
      · -- what this group clashed with may have been joined now, but is still there
        rw [← List.append_cons]
        exact (hdone d hd).mono hgathers
      · rw [List.mem_singleton.1 hd]
        exact hlast

theorem byRoute_group (table : List Entry) : ByRoute (group table) where
  route_eq := fun _ hg => route_of_mem_group hg
  distinct := by
    have hroutes : (group table).map Group.route = (table.map fun e => e.route).eraseDups := by
      unfold group
      rw [List.map_map]
      exact List.map_id _
    rw [hroutes]
    exact Maps.nodup_eraseDups _
  nonempty := by
    intro g hg
    obtain ⟨route, hroute, rfl⟩ := List.mem_map.1 hg
    obtain ⟨e, he, rfl⟩ := List.mem_map.1 (List.mem_eraseDups.1 hroute)
    exact List.ne_nil_of_mem (List.mem_filter.2 ⟨he, by simp⟩)

/-! ## Merging again -/

theorem joinGroups_eq_self (done : List Group) {todo : List Group} (h : ByRoute (done ++ todo))
    (hs : ∀ g ∈ todo, Settled (entriesOf (done ++ todo)) g.entries) :
    joinGroups done todo = done ++ todo := by
  induction todo generalizing done with
  | nil => exact (List.append_nil done).symm
  | cons g rest ih =>
      have hsame : joined done rest g = g := by
        have hentries : joinGroup (entriesOf (done ++ rest)) g.entries.length g.entries =
            g.entries := joinGroup_eq_self (h.settled_iff.1 (hs g (by simp)))
        unfold joined
        exact congrArg (Group.mk g.route) hentries
      have hstep : joinGroups done (g :: rest) = joinGroups (done ++ [joined done rest g]) rest :=
        rfl
      rw [List.append_cons] at h hs
      rw [hstep, hsame, ih (done ++ [g]) h fun d hd => hs d (by simp [hd]), ← List.append_cons]

theorem filter_entriesOf (h : ByRoute groups) (hg : g ∈ groups) :
    (entriesOf groups).filter (fun e => e.route == g.route) = g.entries := by
  obtain ⟨done, rest, rfl⟩ := List.append_of_mem hg
  have hothers : ∀ l, (∀ d ∈ l, d ∈ done ++ rest) →
      (entriesOf l).filter (fun e => e.route == g.route) = [] := by
    intro l hl
    refine List.filter_eq_nil_iff.2 fun o ho => ?_
    obtain ⟨d, hd, ho⟩ := mem_entriesOf.1 ho
    simpa using h.route_ne (mem_entriesOf.2 ⟨d, hl d hd, ho⟩)
  have hown : g.entries.filter (fun e => e.route == g.route) = g.entries :=
    List.filter_eq_self.2 fun e he => by simpa using h.route_eq g hg e he
  have hsplit : entriesOf (done ++ g :: rest) =
      entriesOf done ++ (g.entries ++ entriesOf rest) := by
    simp [entriesOf]
  rw [hsplit, List.filter_append, List.filter_append, hown,
    hothers done fun d hd => List.mem_append_left _ hd,
    hothers rest fun d hd => List.mem_append_right _ hd, List.nil_append, List.append_nil]

theorem eraseDups_routes (h : ByRoute groups) :
    ((entriesOf groups).map fun e => e.route).eraseDups = groups.map Group.route := by
  induction groups with
  | nil => rfl
  | cons g rest ih =>
      have hg : g ∈ g :: rest := by simp
      obtain ⟨e, l, hentries⟩ := List.exists_cons_of_ne_nil (h.nonempty g hg)
      have hroutes : ∀ f ∈ e :: l, f.route = g.route := hentries ▸ h.route_eq g hg
      obtain ⟨he, hl⟩ := List.forall_mem_cons.1 hroutes
      have hown : (l.map fun f => f.route).filter (fun r => !r == g.route) = [] := by
        simpa [List.filter_eq_nil_iff] using hl
      have hothers : ((entriesOf rest).map fun f => f.route).filter (fun r => !r == g.route) =
          (entriesOf rest).map fun f => f.route := by
        refine List.filter_eq_self.2 fun r hr => ?_
        obtain ⟨o, ho, rfl⟩ := List.mem_map.1 hr
        have hfirst : ByRoute ([] ++ g :: rest) := h
        simpa using hfirst.route_ne ho
      have hsplit : entriesOf (g :: rest) = e :: (l ++ entriesOf rest) := by
        simp [entriesOf, hentries]
      rw [hsplit, List.map_cons, List.eraseDups_cons, List.map_append, List.filter_append, he,
        hown, hothers, List.nil_append, ih h.tail, List.map_cons]

theorem group_entriesOf (h : ByRoute groups) : group (entriesOf groups) = groups := by
  unfold group
  rw [eraseDups_routes h, List.map_map]
  conv_rhs => rw [← List.map_id groups]
  refine List.map_congr_left fun g hg => ?_
  exact congrArg (Group.mk g.route) (filter_entriesOf h hg)

/-! ## Whole tables -/

theorem byRoute_minimise (table : List Entry) : ByRoute (joinGroups [] (group table)) ∧
    ∀ d ∈ joinGroups [] (group table),
      Settled (entriesOf (joinGroups [] (group table))) d.entries :=
  joinGroups_settled [] (byRoute_group table) (by simp)

theorem settled_minimise (table : List Entry) : (minimise table).Pairwise fun e f =>
    e.route = f.route →
      ∃ o ∈ minimise table, o.route ≠ e.route ∧ (e.join f).intersects o = true := by
  obtain ⟨hgroups, hsettled⟩ := byRoute_minimise table
  refine List.pairwise_flatMap.2 ⟨?_, ?_⟩
  · intro d hd
    refine (hsettled d hd).imp ?_
    intro e f hclash _
    exact hclash
  · refine (List.pairwise_map.1 hgroups.distinct).imp_of_mem ?_
    intro g d hg hd hne e he f hf hsame
    rw [hgroups.route_eq g hg e he, hgroups.route_eq d hd f hf] at hsame
    exact absurd hsame hne

theorem minimise_minimise (table : List Entry) : minimise (minimise table) = minimise table := by
  obtain ⟨hgroups, hsettled⟩ := byRoute_minimise table
  have hgroup : group (minimise table) = joinGroups [] (group table) := group_entriesOf hgroups
  unfold minimise at hgroup ⊢
  rw [hgroup, joinGroups_eq_self [] hgroups hsettled]
  rfl

/-- No two entries of the result that have one route can be joined, and merging the result again
changes nothing. -/
theorem minimise_settles (table : List Entry) :
    (∀ (i j : Nat) (e f : Entry), i ≠ j → (minimise table)[i]? = some e →
      (minimise table)[j]? = some f → e.route = f.route →
        ∃ o ∈ minimise table, o.route ≠ e.route ∧ (e.join f).intersects o = true) ∧
      minimise (minimise table) = minimise table := by
  have hpairs := List.pairwise_iff_getElem.1 (settled_minimise table)
  refine ⟨?_, minimise_minimise table⟩
  intro i j e f hne he hf hsame
  obtain ⟨hi, rfl⟩ := List.getElem?_eq_some_iff.1 he
  obtain ⟨hj, rfl⟩ := List.getElem?_eq_some_iff.1 hf
  rcases Nat.lt_or_gt_of_ne hne with hless | hless
  · exact hpairs i j hi hj hless hsame
  · obtain ⟨o, ho, hroute, hclash⟩ := hpairs j i hj hi hless hsame.symm
    refine ⟨o, ho, hsame ▸ hroute, ?_⟩
    unfold Entry.intersects Entry.join at hclash ⊢
    rw [Pattern.join_comm]
    exact hclash

/-- The two entries that are left for one of the routes cannot be joined. -/
theorem minimise_settles_twoRoutes :
    ∃ e f, (minimise twoRoutes)[1]? = some e ∧ (minimise twoRoutes)[2]? = some f ∧
      e.route = f.route ∧
      (∃ o ∈ minimise twoRoutes, o.route ≠ e.route ∧ (e.join f).intersects o = true) ∧
      minimise (minimise twoRoutes) = minimise twoRoutes := by
  obtain ⟨hclash, hagain⟩ := minimise_settles twoRoutes
  refine ⟨⟨⟨0x2#32, 0xfffffffb#32⟩, .overLinks [.north], false⟩,
    ⟨⟨0x9#32, 0xfffffff0#32⟩, .overLinks [.north], false⟩, by decide, by decide, rfl, ?_, hagain⟩
  exact hclash 1 2 _ _ (by decide) (by decide) (by decide) rfl

end Unordered

end MulticastMesh.Tables
