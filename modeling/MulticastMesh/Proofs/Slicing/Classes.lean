import Mathlib.Logic.Relation
import MulticastMesh.Proofs.Slicing.Graph
import MulticastMesh.Slicing.SameSize
/-!
# Groups of vertices with the same slices

A chain of same-size constraints ties vertices.  Merging the classes of two tied vertices keeps
together what was together, so in the end every vertex is in the groups that hold a vertex tied
to it.  The members of a group have equally many atoms.
-/

namespace MulticastMesh.Slicing

open MulticastMesh.Graph (AppVertexId ApplicationGraph ApplicationVertex)
open Outcome

variable {app : ApplicationGraph} {a b : AppVertexId} {w : ApplicationVertex}
  {pairs : List (AppVertexId × AppVertexId)} {names : List Nat} {size i j : Nat}
  {groups : List (List AppVertexId)} {group : List AppVertexId}

/-- A same-size constraint of one vertex names the other. -/
def Tie (app : ApplicationGraph) (a b : AppVertexId) : Prop :=
  ∃ w label, app.vertices[a.index]? = some w ∧ label ∈ w.tiedTo ∧
    app.idOfLabel? label = some b

/-- Two vertices that same-size constraints tie, directly or over others. -/
def Tied (app : ApplicationGraph) : AppVertexId → AppVertexId → Prop :=
  Relation.EqvGen (Tie app)

theorem Tied.refl (app : ApplicationGraph) (a : AppVertexId) : Tied app a a :=
  Relation.EqvGen.refl a

theorem app_vertex_eq_ok : app.vertex a = .ok w ↔ app.vertices[a.index]? = some w := by
  unfold ApplicationGraph.vertex
  cases app.vertices[a.index]? <;> simp

theorem lt_of_idOfLabel? {label : String} (h : app.idOfLabel? label = some b) :
    b.index < app.size := by
  unfold ApplicationGraph.idOfLabel? at h
  obtain ⟨i, hi, rfl⟩ := Option.map_eq_some_iff.1 h
  have hlt := (List.findIdx?_eq_some_iff_getElem.1 hi).1
  rwa [Array.length_toList] at hlt

theorem Tie.lt (h : Tie app a b) : a.index < app.size ∧ b.index < app.size := by
  obtain ⟨w, label, hw, _, hb⟩ := h
  exact ⟨(Array.getElem?_eq_some_iff.1 hw).1, lt_of_idOfLabel? hb⟩

theorem mem_ties (h : ties app = .ok pairs) : (a, b) ∈ pairs ↔ Tie app a b := by
  obtain ⟨perVertex, hall, hpairs⟩ := bind_eq_ok.1 h
  cases pure_eq_ok.1 hpairs
  rw [List.mem_flatten]
  constructor
  · rintro ⟨l, hl, hab⟩
    obtain ⟨⟨c, w⟩, hw, hties⟩ := (mem_of_mapM_eq_ok hall).1 hl
    obtain ⟨label, hlabel, htie⟩ := (mem_of_mapM_eq_ok hties).1 hab
    cases hother : app.idOfLabel? label with
    | none => simp [hother] at htie
    | some other =>
        simp only [hother, Except.ok.injEq, Prod.mk.injEq] at htie
        obtain ⟨rfl, rfl⟩ := htie
        exact ⟨w, label, mem_app_toList.1 hw, hlabel, hother⟩
  · rintro ⟨w, label, hw, hlabel, hb⟩
    obtain ⟨l, hl, hties⟩ := exists_ok_of_mapM_eq_ok hall (mem_app_toList.2 hw)
    exact ⟨l, hl, (mem_of_mapM_eq_ok hties).2 ⟨label, hlabel, by simp [hb]⟩⟩

/-! ## Names of classes -/

@[simp] theorem length_mergeClasses : (mergeClasses names i j).length = names.length := by
  simp [mergeClasses]

theorem mergeClasses_keeps {x y : Nat} (h : names[x]? = names[y]?) :
    (mergeClasses names i j)[x]? = (mergeClasses names i j)[y]? := by
  simp only [mergeClasses, List.getElem?_map, h]

theorem mergeClasses_joins (hi : i < names.length) (hj : j < names.length) :
    (mergeClasses names i j)[i]? = (mergeClasses names i j)[j]? := by
  simp only [mergeClasses, List.getElem?_map, List.getElem?_eq_getElem hi,
    List.getElem?_eq_getElem hj, Option.getD_some, Option.map_some, Option.some.injEq]
  split
  · split <;> omega
  · split <;> omega

theorem mergeClasses_lt (hi : i < names.length) (hj : j < names.length)
    (hnames : ∀ name ∈ names, name < size) : ∀ name ∈ mergeClasses names i j, name < size := by
  intro name hname
  obtain ⟨old, hold, rfl⟩ := List.mem_map.1 hname
  simp only [List.getElem?_eq_getElem hi, List.getElem?_eq_getElem hj, Option.getD_some]
  have hfirst := hnames names[i] (List.getElem_mem hi)
  have hlast := hnames old hold
  split <;> omega

/-- Names given to all vertices, the same one to both vertices of some pairs. -/
structure Named (size : Nat) (pairs : List (AppVertexId × AppVertexId)) (names : List Nat) :
    Prop where
  length : names.length = size
  lt : ∀ name ∈ names, name < size
  joined : ∀ pair ∈ pairs, names[pair.1.index]? = names[pair.2.index]?

theorem named_classNames
    (hlt : ∀ pair ∈ pairs, pair.1.index < size ∧ pair.2.index < size) :
    Named size pairs (classNames size pairs) := by
  suffices hgen : ∀ (todo done : List (AppVertexId × AppVertexId)) (names : List Nat),
      Named size done names → (∀ pair ∈ todo, pair.1.index < size ∧ pair.2.index < size) →
      Named size (done ++ todo)
        (todo.foldl (fun names pair => mergeClasses names pair.1.index pair.2.index) names) from
    hgen pairs [] _ ⟨List.length_range, by simp, by simp⟩ hlt
  intro todo
  induction todo with
  | nil =>
      intro done names hdone _
      rw [List.append_nil]
      exact hdone
  | cons pair todo ih =>
      intro done names hdone hlt
      obtain ⟨⟨ha, hb⟩, hlt⟩ := List.forall_mem_cons.1 hlt
      rw [← hdone.length] at ha hb
      have hstep : Named size (done ++ [pair])
          (mergeClasses names pair.1.index pair.2.index) := by
        refine ⟨length_mergeClasses.trans hdone.length, mergeClasses_lt ha hb hdone.lt, ?_⟩
        intro other hother
        rcases List.mem_append.1 hother with hother | hother
        · exact mergeClasses_keeps (hdone.joined other hother)
        · rw [List.mem_singleton.1 hother]
          exact mergeClasses_joins ha hb
      have hrest := ih _ _ hstep hlt
      rwa [List.append_assoc, List.singleton_append] at hrest

theorem Named.eq_of_tied (h : Named app.size pairs names) (hties : ties app = .ok pairs)
    (hab : Tied app a b) : names[a.index]? = names[b.index]? := by
  induction hab with
  | rel a b hab => exact h.joined (a, b) ((mem_ties hties).2 hab)
  | refl a => rfl
  | symm a b _ ih => exact ih.symm
  | trans a b c _ _ ihab ihbc => exact ihab.trans ihbc

/-! ## Groups -/

theorem mem_members_of_class {name : Nat} :
    a ∈ ((List.range names.length).filter fun i => names[i]? == some name).map AppVertexId.mk ↔
      names[a.index]? = some name := by
  rw [List.mem_map]
  constructor
  · rintro ⟨i, hi, rfl⟩
    exact eq_of_beq (List.mem_filter.1 hi).2
  · intro ha
    obtain ⟨hlt, _⟩ := List.getElem?_eq_some_iff.1 ha
    exact ⟨a.index, List.mem_filter.2 ⟨List.mem_range.2 hlt, beq_iff_eq.2 ha⟩, rfl⟩

theorem name_of_mem_classes (h : group ∈ classes names) :
    ∃ name, ∀ a : AppVertexId, a ∈ group ↔ names[a.index]? = some name := by
  obtain ⟨indices, hindices, hgroup⟩ := List.mem_filterMap.1 h
  obtain ⟨name, _, rfl⟩ := List.mem_map.1 hindices
  split at hgroup
  · cases hgroup
  · cases hgroup
    exact ⟨name, fun a => mem_members_of_class⟩

theorem exists_class (hlt : ∀ name ∈ names, name < names.length) (ha : a.index < names.length) :
    ∃ group ∈ classes names, a ∈ group := by
  let name := names[a.index]
  have hname : names[a.index]? = some name := List.getElem?_eq_getElem ha
  have hmem : a ∈ ((List.range names.length).filter fun i => names[i]? == some name).map
      AppVertexId.mk := mem_members_of_class.2 hname
  refine ⟨_, List.mem_filterMap.2 ⟨_, List.mem_map.2 ⟨name, ?_, rfl⟩, ?_⟩, hmem⟩
  · exact List.mem_range.2 (hlt name (List.getElem_mem ha))
  · split
    · next hnil =>
        rw [hnil] at hmem
        cases hmem
    · rfl

theorem checkSizes_spec (h : checkSizes app group = .ok ()) :
    ∃ atoms, ∀ a ∈ group, ∃ w, app.vertices[a.index]? = some w ∧ w.atoms = atoms := by
  cases group with
  | nil => exact ⟨0, by simp⟩
  | cons first others =>
      obtain ⟨reference, href, h⟩ := bind_eq_ok.1 h
      obtain ⟨_, hloop, _⟩ := bind_eq_ok.1 h
      have hsteps := forIn_eq_ok ?_ hloop
      · refine ⟨reference.atoms, ?_⟩
        rw [List.forall_mem_cons]
        refine ⟨⟨reference, app_vertex_eq_ok.1 (lift_eq_ok.1 href), rfl⟩, ?_⟩
        intro a ha
        obtain ⟨w, hw, hsame⟩ := bind_eq_ok.1 (hsteps a ha)
        refine ⟨w, app_vertex_eq_ok.1 (lift_eq_ok.1 hw), ?_⟩
        split at hsame
        · cases hsame
        · next hatoms => exact Classical.not_not.1 hatoms
      · intro a r hr
        obtain ⟨w, _, hr⟩ := bind_eq_ok.1 hr
        split at hr
        · cases hr
        · exact (pure_eq_ok.1 hr).symm

structure Grouped (app : ApplicationGraph) (groups : List (List AppVertexId)) : Prop where
  covered : ∀ a : AppVertexId, a.index < app.size → ∃ group ∈ groups, a ∈ group
  tied : ∀ group ∈ groups, ∀ a b, Tied app a b → (a ∈ group ↔ b ∈ group)
  alike : ∀ group ∈ groups, ∃ atoms, ∀ a ∈ group, ∃ w, app.vertices[a.index]? = some w ∧
    w.atoms = atoms

theorem sameSizeGroups_spec (h : sameSizeGroups app = .ok groups) : Grouped app groups := by
  obtain ⟨pairs, hpairs, h⟩ := bind_eq_ok.1 h
  obtain ⟨_, hsizes, h⟩ := bind_eq_ok.1 h
  cases pure_eq_ok.1 h
  have hties := lift_eq_ok.1 hpairs
  have hnamed : Named app.size pairs (classNames app.size pairs) :=
    named_classNames fun pair hpair => ((mem_ties hties).1 hpair).lt
  refine ⟨?_, ?_, ?_⟩
  · intro a ha
    have hlength := hnamed.length
    exact exists_class (by rw [hlength]; exact hnamed.lt) (by rw [hlength]; exact ha)
  · intro group hgroup a b hab
    obtain ⟨name, hname⟩ := name_of_mem_classes hgroup
    rw [hname a, hname b, hnamed.eq_of_tied hties hab]
  · intro group hgroup
    exact checkSizes_spec (forM_eq_ok.1 hsizes group hgroup)

end MulticastMesh.Slicing
