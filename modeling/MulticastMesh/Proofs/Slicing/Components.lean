import Mathlib.Order.Lattice.Nat
import Mathlib.Tactic.IntervalCases
import MulticastMesh.Proofs.Slicing.Classes
/-!
# Groups as connected components

Merging two classes under the smaller of their names keeps every name the least vertex of its
class, and joins no more than the constraints tie.  So the groups are the connected components of
the constraints, in the order of their least vertices.
-/

namespace MulticastMesh.Slicing

open MulticastMesh.Graph (AppVertexId ApplicationGraph ApplicationVertex)
open Outcome

variable {app : ApplicationGraph} {names : List Nat} {i j k name : Nat} {w w' : ApplicationVertex}
  {pairs : List (AppVertexId × AppVertexId)} {group : List AppVertexId}

def TiesExist (app : ApplicationGraph) : Prop :=
  ∀ (a : AppVertexId) w, app.vertices[a.index]? = some w → ∀ label ∈ w.tiedTo,
    ∃ b, app.idOfLabel? label = some b

def Mismatched (app : ApplicationGraph) (w w' : ApplicationVertex) : Prop :=
  ∃ a b, Tied app a b ∧ app.vertices[a.index]? = some w ∧ app.vertices[b.index]? = some w' ∧
    w.atoms ≠ w'.atoms

/-- Every vertex is in one of the groups, together with all vertices tied to it and no others.
The groups are in the order of their least vertices. -/
structure Components (app : ApplicationGraph) (groups : List (List AppVertexId)) : Prop where
  once : groups.flatten.Perm (app.toList.map Prod.fst)
  nonempty : ∀ group ∈ groups, group ≠ []
  tied : ∀ group ∈ groups, ∀ a ∈ group, ∀ b, b ∈ group ↔ Tied app a b
  increasing : ∀ group ∈ groups, group.Pairwise fun a b => a.index < b.index
  ordered : groups.Pairwise fun group group' => ∃ a ∈ group, ∀ b ∈ group', a.index < b.index

/-! ## Least names -/

/-- Every vertex is named after a vertex tied to it, and no vertex of its class is less. -/
structure LeastNames (app : ApplicationGraph) (names : List Nat) : Prop where
  root : ∀ i name : Nat, names[i]? = some name → names[name]? = some name ∧ name ≤ i
  tied : ∀ i j name : Nat, names[i]? = some name → names[j]? = some name → Tied app ⟨i⟩ ⟨j⟩

theorem leastNames_range (app : ApplicationGraph) (size : Nat) :
    LeastNames app (List.range size) := by
  have hname : ∀ i name : Nat, (List.range size)[i]? = some name → name = i := by
    intro i name h
    obtain ⟨_, rfl⟩ := List.getElem?_eq_some_iff.1 h
    exact List.getElem_range ..
  refine ⟨fun i name h => ?_, fun i j name hi hj => ?_⟩
  · cases hname i name h
    exact ⟨h, le_rfl⟩
  · cases hname i name hi
    cases hname j i hj
    exact Tied.refl app ⟨i⟩

theorem getElem?_mergeClasses {a b : Nat} (hi : names[i]? = some a) (hj : names[j]? = some b) :
    (mergeClasses names i j)[k]? =
      names[k]?.map fun name => if name = max a b then min a b else name := by
  simp [mergeClasses, hi, hj]

/-- Two vertices get one name if they had one, or if the merged classes are theirs. -/
theorem LeastNames.merge (h : LeastNames app names) (hi : i < names.length)
    (hj : j < names.length) (htied : Tied app ⟨i⟩ ⟨j⟩) :
    LeastNames app (mergeClasses names i j) := by
  obtain ⟨a, ha⟩ : ∃ a, names[i]? = some a := ⟨_, List.getElem?_eq_getElem hi⟩
  obtain ⟨b, hb⟩ : ∃ b, names[j]? = some b := ⟨_, List.getElem?_eq_getElem hj⟩
  have hmin : names[min a b]? = some (min a b) := by
    rcases Nat.le_total a b with hab | hab
    · rw [Nat.min_eq_left hab]
      exact (h.root i a ha).1
    · rw [Nat.min_eq_right hab]
      exact (h.root j b hb).1
  -- the classes that are merged hold `i` and `j`
  have hjoined : ∀ k l, names[k]? = some (max a b) → names[l]? = some (min a b) →
      Tied app ⟨k⟩ ⟨l⟩ := by
    intro k l hk hl
    rcases Nat.le_total a b with hab | hab
    · rw [Nat.max_eq_right hab] at hk
      rw [Nat.min_eq_left hab] at hl
      exact ((h.tied k j b hk hb).trans _ _ _ (htied.symm _ _)).trans _ _ _ (h.tied i l a ha hl)
    · rw [Nat.max_eq_left hab] at hk
      rw [Nat.min_eq_right hab] at hl
      exact ((h.tied k i a hk ha).trans _ _ _ htied).trans _ _ _ (h.tied j l b hb hl)
  refine ⟨fun k name hk => ?_, fun k l name hk hl => ?_⟩
  · rw [getElem?_mergeClasses ha hb] at hk ⊢
    obtain ⟨old, hold, rfl⟩ := Option.map_eq_some_iff.1 hk
    obtain ⟨hroot, hle⟩ := h.root k old hold
    by_cases hmax : old = max a b
    · rw [if_pos hmax, hmin]
      refine ⟨?_, by omega⟩
      simp
    · rw [if_neg hmax, hroot]
      exact ⟨by simp [hmax], hle⟩
  · rw [getElem?_mergeClasses ha hb] at hk hl
    obtain ⟨old, hold, rfl⟩ := Option.map_eq_some_iff.1 hk
    obtain ⟨old', hold', hsame⟩ := Option.map_eq_some_iff.1 hl
    by_cases hmax : old = max a b
    · by_cases hmax' : old' = max a b
      · exact h.tied k l _ (hmax ▸ hold) (hmax' ▸ hold')
      · rw [if_neg hmax', if_pos hmax] at hsame
        exact hjoined k l (hmax ▸ hold) (hsame ▸ hold')
    · by_cases hmax' : old' = max a b
      · rw [if_pos hmax', if_neg hmax] at hsame
        exact (hjoined l k (hmax' ▸ hold') (hsame ▸ hold)).symm _ _
      · rw [if_neg hmax', if_neg hmax] at hsame
        exact h.tied k l _ hold (hsame ▸ hold')

theorem leastNames_classNames (hties : ties app = .ok pairs) :
    LeastNames app (classNames app.size pairs) := by
  have hnames := List.foldlRecOn
    (motive := fun names => names.length = app.size ∧ LeastNames app names) pairs
    (fun names pair => mergeClasses names pair.1.index pair.2.index)
    ⟨List.length_range, leastNames_range app app.size⟩ ?_
  · exact hnames.2
  · rintro names ⟨hlength, hnames⟩ ⟨a, b⟩ hab
    have htie := (mem_ties hties).1 hab
    refine ⟨length_mergeClasses.trans hlength, hnames.merge ?_ ?_ (.rel _ _ htie)⟩
    · rw [hlength]
      exact htie.lt.1
    · rw [hlength]
      exact htie.lt.2

/-! ## Classes -/

def classOf (names : List Nat) (name : Nat) : List AppVertexId :=
  ((List.range names.length).filter fun i => names[i]? == some name).map AppVertexId.mk

theorem mem_classOf {a : AppVertexId} : a ∈ classOf names name ↔ names[a.index]? = some name :=
  mem_members_of_class

/-- Empty groups may as well be left out after their members are named. -/
private theorem filterMap_groups (l : List (List Nat)) :
    l.filterMap (fun
      | [] => none
      | group => some (group.map AppVertexId.mk)) =
      (l.map fun group => group.map AppVertexId.mk).filter (· ≠ []) := by
  induction l with
  | nil => rfl
  | cons group l ih =>
      rw [List.filterMap_cons, List.map_cons, List.filter_cons, ih]
      cases group <;> simp

theorem classes_eq (names : List Nat) :
    classes names = ((List.range names.length).map (classOf names)).filter (· ≠ []) := by
  refine (filterMap_groups _).trans ?_
  rw [List.map_map]
  rfl

theorem mem_classes : group ∈ classes names ↔
    ∃ name < names.length, classOf names name = group ∧ group ≠ [] := by
  rw [classes_eq, List.mem_filter, List.mem_map]
  simp only [List.mem_range, decide_eq_true_eq]
  constructor
  · rintro ⟨⟨name, hname, rfl⟩, hne⟩
    exact ⟨name, hname, rfl, hne⟩
  · rintro ⟨name, hname, rfl, hne⟩
    exact ⟨⟨name, hname, rfl⟩, hne⟩

theorem increasing_classOf (names : List Nat) (name : Nat) :
    (classOf names name).Pairwise fun a b => a.index < b.index := by
  unfold classOf
  rw [List.pairwise_map]
  exact List.pairwise_lt_range.filter _

theorem LeastNames.name_mem (h : LeastNames app names) (hne : classOf names name ≠ []) :
    ⟨name⟩ ∈ classOf names name := by
  obtain ⟨a, ha⟩ := List.exists_mem_of_ne_nil _ hne
  exact mem_classOf.2 (h.root a.index name (mem_classOf.1 ha)).1

theorem LeastNames.ordered (h : LeastNames app names) : (classes names).Pairwise
    fun group group' => ∃ a ∈ group, ∀ b ∈ group', a.index < b.index := by
  rw [classes_eq, List.pairwise_filter, List.pairwise_map]
  refine List.pairwise_lt_range.imp ?_
  intro name name' hlt hne _
  refine ⟨⟨name⟩, h.name_mem (of_decide_eq_true hne), fun b hb => ?_⟩
  exact hlt.trans_le (h.root b.index name' (mem_classOf.1 hb)).2

theorem perm_flatten_classes (hlt : ∀ name ∈ names, name < names.length) :
    (classes names).flatten.Perm ((List.range names.length).map AppVertexId.mk) := by
  have hnodup : (classes names).flatten.Nodup := by
    rw [List.nodup_flatten]
    constructor
    · intro group hgroup
      obtain ⟨name, _, rfl, _⟩ := mem_classes.1 hgroup
      exact (increasing_classOf names name).imp fun hab heq => by simp [heq] at hab
    · rw [classes_eq, List.pairwise_filter, List.pairwise_map]
      refine List.pairwise_lt_range.imp ?_
      intro name name' hne _ _ a ha ha'
      rw [mem_classOf] at ha ha'
      rw [ha, Option.some.injEq] at ha'
      omega
  have hnodup' : ((List.range names.length).map AppVertexId.mk).Nodup :=
    List.nodup_range.map fun i j hij => AppVertexId.mk.inj hij
  refine (List.perm_ext_iff_of_nodup hnodup hnodup').2 fun a => ?_
  rw [List.mem_flatten, List.mem_map]
  constructor
  · rintro ⟨group, hgroup, ha⟩
    obtain ⟨name, _, rfl, _⟩ := mem_classes.1 hgroup
    obtain ⟨hlt, _⟩ := List.getElem?_eq_some_iff.1 (mem_classOf.1 ha)
    exact ⟨a.index, List.mem_range.2 hlt, rfl⟩
  · rintro ⟨i, hi, rfl⟩
    exact exists_class hlt (List.mem_range.1 hi)

/-! ## Sizes -/

theorem exists_ties (h : TiesExist app) : ∃ pairs, ties app = .ok pairs := by
  refine ⟨_, bind_eq_ok.2 ⟨_, (exists_mapM_eq_ok ?_).choose_spec, rfl⟩⟩
  rintro ⟨a, w⟩ hw
  apply exists_mapM_eq_ok
  intro label hlabel
  obtain ⟨b, hb⟩ := h a w (mem_app_toList.1 hw) label hlabel
  exact ⟨(a, b), by simp [hb]⟩

/-- A group is refused because two of its members differ. -/
theorem checkSizes_eq_error {f : Failure}
    (hgroup : ∀ a ∈ group, ∃ w, app.vertices[a.index]? = some w)
    (h : checkSizes app group = .error f) :
    ∃ a ∈ group, ∃ b ∈ group, ∃ w w', app.vertices[a.index]? = some w ∧
      app.vertices[b.index]? = some w' ∧ w.atoms ≠ w'.atoms ∧
      f = ⟨[], .slicing (.sizeMismatch w.label w.atoms w'.label w'.atoms)⟩ := by
  cases group with
  | nil => cases h
  | cons first others =>
      obtain ⟨⟨w', hw'⟩, hothers⟩ := List.forall_mem_cons.1 hgroup
      have hfirst : app.vertex first = .ok w' := app_vertex_eq_ok.2 hw'
      unfold checkSizes at h
      rcases bind_eq_error.1 h with h | ⟨reference, href, h⟩
      · rw [hfirst] at h
        cases h
      rw [hfirst] at href
      cases href
      rcases bind_eq_error.1 h with h | ⟨_, _, h⟩
      · have hfails := forIn_eq_error ?_ h
        · obtain ⟨a, ha, hstep⟩ := hfails
          obtain ⟨w, hw⟩ := hothers a ha
          rcases bind_eq_error.1 hstep with hstep | ⟨other, hother, hstep⟩
          · rw [app_vertex_eq_ok.2 hw] at hstep
            cases hstep
          rw [app_vertex_eq_ok.2 hw] at hother
          cases hother
          split at hstep
          · next hne =>
              cases hstep
              exact ⟨a, List.mem_cons_of_mem _ ha, first, List.mem_cons_self, w, w', hw, hw',
                hne, rfl⟩
          · cases hstep
        · intro a r hr
          obtain ⟨w, _, hr⟩ := bind_eq_ok.1 hr
          split at hr
          · cases hr
          · exact (pure_eq_ok.1 hr).symm
      · cases h

theorem Mismatched.not_grouped {groups : List (List AppVertexId)} (h : Mismatched app w w')
    (hgroups : Grouped app groups) : False := by
  obtain ⟨a, b, hab, ha, hb, hne⟩ := h
  obtain ⟨group, hgroup, hmem⟩ := hgroups.covered a (Array.getElem?_eq_some_iff.1 ha).1
  obtain ⟨atoms, halike⟩ := hgroups.alike group hgroup
  obtain ⟨_, hx, hxatoms⟩ := halike a hmem
  obtain ⟨_, hy, hyatoms⟩ := halike b ((hgroups.tied group hgroup a b hab).1 hmem)
  cases ha.symm.trans hx
  cases hb.symm.trans hy
  exact hne (hxatoms.trans hyatoms.symm)

/-! ## Components -/

theorem map_fst_toList (app : ApplicationGraph) :
    app.toList.map Prod.fst = (List.range app.size).map AppVertexId.mk := by
  unfold ApplicationGraph.toList
  rw [List.map_map]
  change app.vertices.toList.zipIdx.map (AppVertexId.mk ∘ Prod.snd) = _
  rw [← List.map_map, List.zipIdx_map_snd, ← List.range_eq_range', Array.length_toList]
  rfl

theorem components_classes (hties : ties app = .ok pairs) :
    Components app (classes (classNames app.size pairs)) := by
  have hleast := leastNames_classNames hties
  have hnamed : Named app.size pairs (classNames app.size pairs) :=
    named_classNames fun pair hpair => ((mem_ties hties).1 hpair).lt
  refine ⟨?_, ?_, ?_, ?_, hleast.ordered⟩
  · rw [map_fst_toList]
    have hlt : ∀ name ∈ classNames app.size pairs,
        name < (classNames app.size pairs).length := by
      rw [hnamed.length]
      exact hnamed.lt
    have hperm := perm_flatten_classes hlt
    rwa [hnamed.length] at hperm
  · intro group hgroup
    obtain ⟨_, _, _, hne⟩ := mem_classes.1 hgroup
    exact hne
  · intro group hgroup a ha b
    obtain ⟨name, _, rfl, _⟩ := mem_classes.1 hgroup
    rw [mem_classOf] at ha ⊢
    constructor
    · exact fun hb => hleast.tied a.index b.index name ha hb
    · intro hab
      rw [← hnamed.eq_of_tied hties hab]
      exact ha
  · intro group hgroup
    obtain ⟨name, _, rfl, _⟩ := mem_classes.1 hgroup
    exact increasing_classOf _ name

theorem sameSizeGroups_eq_error (hties : ties app = .ok pairs) {f : Failure}
    (h : sameSizeGroups app = .error f) : ∃ w w', Mismatched app w w' ∧
      f = ⟨[], .slicing (.sizeMismatch w.label w.atoms w'.label w'.atoms)⟩ := by
  have hcomponents := components_classes hties
  rcases bind_eq_error.1 h with h | ⟨pairs', hpairs, h⟩
  · rw [hties] at h
    cases h
  cases hties.symm.trans (lift_eq_ok.1 hpairs)
  rcases bind_eq_error.1 h with h | ⟨_, _, h⟩
  · obtain ⟨group, hgroup, hsizes⟩ := forM_eq_error h
    have hin : ∀ a ∈ group, ∃ w, app.vertices[a.index]? = some w := by
      intro a ha
      have hmem := hcomponents.once.mem_iff.1 (List.mem_flatten.2 ⟨group, hgroup, ha⟩)
      obtain ⟨⟨_, w⟩, hw, rfl⟩ := List.mem_map.1 hmem
      exact ⟨w, mem_app_toList.1 hw⟩
    obtain ⟨a, ha, b, hb, w, w', hw, hw', hne, rfl⟩ := checkSizes_eq_error hin hsizes
    exact ⟨w, w', ⟨a, b, (hcomponents.tied group hgroup a ha b).1 hb, hw, hw', hne⟩, rfl⟩
  · cases h

theorem sameSizeGroups_eq_ok (hties : ties app = .ok pairs) {groups : List (List AppVertexId)}
    (h : sameSizeGroups app = .ok groups) : Components app groups := by
  obtain ⟨pairs', hpairs, h⟩ := bind_eq_ok.1 h
  cases hties.symm.trans (lift_eq_ok.1 hpairs)
  obtain ⟨_, _, h⟩ := bind_eq_ok.1 h
  cases pure_eq_ok.1 h
  exact components_classes hties

/-- Vertices that are tied must have equally many atoms, and nothing else is refused.  The groups
are the connected components of the constraints. -/
theorem sameSizeGroups_components (hexist : TiesExist app) :
    ((∃ f, sameSizeGroups app = .error f) ↔ ∃ w w', Mismatched app w w') ∧
    (∀ f, sameSizeGroups app = .error f → ∃ w w', Mismatched app w w' ∧
      f = ⟨[], .slicing (.sizeMismatch w.label w.atoms w'.label w'.atoms)⟩) ∧
    ∀ groups, sameSizeGroups app = .ok groups → Components app groups := by
  obtain ⟨pairs, hties⟩ := exists_ties hexist
  refine ⟨⟨?_, ?_⟩, fun f hf => sameSizeGroups_eq_error hties hf,
    fun groups hgroups => sameSizeGroups_eq_ok hties hgroups⟩
  · rintro ⟨f, hf⟩
    obtain ⟨w, w', hmismatch, _⟩ := sameSizeGroups_eq_error hties hf
    exact ⟨w, w', hmismatch⟩
  · rintro ⟨w, w', hmismatch⟩
    cases hrun : sameSizeGroups app with
    | error f => exact ⟨f, rfl⟩
    | ok groups => exact (hmismatch.not_grouped (sameSizeGroups_spec hrun)).elim

/-- A chain of constraints that meets in a later vertex, and a vertex on its own. -/
def chainApp : ApplicationGraph where
  vertices := #[
    { label := "a", atoms := 4, constraints := [.sameAtomsAs "d"] },
    { label := "b", atoms := 3 },
    { label := "c", atoms := 4, constraints := [.sameAtomsAs "d"] },
    { label := "d", atoms := 4 }]

theorem sameSizeGroups_components_chain : TiesExist chainApp ∧
    sameSizeGroups chainApp = .ok [[⟨0⟩, ⟨2⟩, ⟨3⟩], [⟨1⟩]] ∧ Tied chainApp ⟨0⟩ ⟨2⟩ ∧
    ¬ Tied chainApp ⟨0⟩ ⟨1⟩ := by
  have hexist : TiesExist chainApp := by
    intro a w hw label hlabel
    obtain ⟨hlt, rfl⟩ := Array.getElem?_eq_some_iff.1 hw
    obtain ⟨i⟩ := a
    have hbelow : i < 4 := hlt
    interval_cases i
    · cases List.mem_singleton.1 hlabel
      exact ⟨⟨3⟩, by decide⟩
    · cases hlabel
    · cases List.mem_singleton.1 hlabel
      exact ⟨⟨3⟩, by decide⟩
    · cases hlabel
  have hgroups : sameSizeGroups chainApp = .ok [[⟨0⟩, ⟨2⟩, ⟨3⟩], [⟨1⟩]] := by decide +kernel
  have htied := ((sameSizeGroups_components hexist).2.2 _ hgroups).tied _
    List.mem_cons_self ⟨0⟩ (by decide)
  exact ⟨hexist, hgroups, (htied ⟨2⟩).1 (by decide), fun h => absurd ((htied ⟨1⟩).2 h) (by decide)⟩

end MulticastMesh.Slicing
