import MulticastMesh.Proofs.Graph.Edits
import MulticastMesh.Proofs.Slicing.Graph
/-!
# Expansion is the product

Expanding the edges of a machine vertex gives the graph an edge to every machine vertex of every
target, and no others.  Expanding them again finds all of them there.
-/

namespace MulticastMesh.Slicing

open MulticastMesh.Graph (AppVertexId ApplicationEdge ApplicationGraph ApplicationVertex
  MachineEdge MachineGraph MachineVertex MachineVertexId Slice Traffic)
open MulticastMesh.Graph.MachineGraph (SameVertices WellFormed Wired)
open Mesh (Machine)
open Outcome

variable {app : ApplicationGraph} {g g' g'' : MachineGraph} {source target : MachineVertexId}
  {pre : AppVertexId} {edge : MachineEdge} {identifier : String} {traffic : Traffic}

/-! ## The graph before expansion -/

theorem wellFormed_of_sliceGraph {code : Nat} {machine : Machine}
    (h : sliceGraph code app machine = .ok g) : g.WellFormed := by
  obtain ⟨_, _, h⟩ := bind_eq_ok.1 h
  obtain ⟨_, _, h⟩ := bind_eq_ok.1 h
  obtain ⟨_, _, h⟩ := bind_eq_ok.1 h
  refine foldlM_invariant h (MachineGraph.wellFormed_empty code app.size) ?_
  intro m _ t t' ht hstep
  obtain ⟨vertices, _, hadd⟩ := bind_eq_ok.1 hstep
  refine foldlM_invariant hadd ht ?_
  intro v _ u u' hu hstep
  obtain ⟨⟨id, u''⟩, hadded, hreturn⟩ := bind_eq_ok.1 hstep
  cases pure_eq_ok.1 hreturn
  exact hu.extend (MachineGraph.addVertex_spec (lift_eq_ok.1 hadded)).2

/-! ## The edges of one machine vertex -/

theorem slicesOf_congr (h : SameVertices g g') (a : AppVertexId) :
    slicesOf g' a = slicesOf g a := by
  unfold slicesOf
  simp only [h.verticesOf_eq, h.vertex_eq]

theorem edgesFrom_congr (h : SameVertices g g') :
    edgesFrom app g' source pre = edgesFrom app g source pre := by
  unfold edgesFrom
  simp only [slicesOf_congr h]

theorem map_fst_of_slicesOf {a : AppVertexId} {l : List (MachineVertexId × Slice)}
    (h : slicesOf g a = .ok l) : l.map Prod.fst = g.verticesOf a := by
  have hall := mapM_eq_ok.1 h
  rw [← List.forall₂_eq_eq_eq, List.forall₂_map_left_iff]
  refine hall.flip.imp ?_
  rintro id r hr
  obtain ⟨v, _, hreturn⟩ := bind_eq_ok.1 hr
  rw [← pure_eq_ok.1 hreturn]

theorem mem_edgesFrom {l : List (MachineEdge × ApplicationEdge × String)}
    (h : edgesFrom app g source pre = .ok l) (e : MachineEdge) (standsFor : ApplicationEdge) :
    (∃ label, (e, standsFor, label) ∈ l) ↔ e.pre = source ∧ standsFor ∈ app.outgoing pre ∧
      e.post ∈ g.verticesOf standsFor.post := by
  obtain ⟨perEdge, hall, hflat⟩ := bind_eq_ok.1 h
  rw [← pure_eq_ok.1 hflat]
  simp only [List.mem_flatten, mem_of_mapM_eq_ok hall]
  constructor
  · rintro ⟨label, edges, ⟨edge, hedge, hedges⟩, hmem⟩
    obtain ⟨post, _, hedges⟩ := bind_eq_ok.1 hedges
    obtain ⟨targets, htargets, hreturn⟩ := bind_eq_ok.1 hedges
    rw [← pure_eq_ok.1 hreturn] at hmem
    obtain ⟨⟨target, slice⟩, htarget, heq⟩ := List.mem_map.1 hmem
    cases heq
    refine ⟨rfl, hedge, ?_⟩
    rw [← map_fst_of_slicesOf htargets]
    exact List.mem_map_of_mem htarget
  · rintro ⟨rfl, hedge, htarget⟩
    obtain ⟨edges, hmem, hedges⟩ := exists_ok_of_mapM_eq_ok hall hedge
    have hrun := hedges
    obtain ⟨post, _, hedges⟩ := bind_eq_ok.1 hedges
    obtain ⟨targets, htargets, hreturn⟩ := bind_eq_ok.1 hedges
    rw [← map_fst_of_slicesOf htargets] at htarget
    obtain ⟨⟨target, slice⟩, hin, heq⟩ := List.mem_map.1 htarget
    refine ⟨post.label, edges, ⟨standsFor, hedge, hrun⟩, ?_⟩
    rw [← pure_eq_ok.1 hreturn]
    refine List.mem_map.2 ⟨(target, slice), hin, ?_⟩
    cases e
    cases heq
    rfl

/-! ## What a graph gains -/

/-- A graph that has some edges more, and no new empty partitions. -/
structure Grows (g : MachineGraph) (new : MachineEdge → String → Traffic → Prop)
    (g' : MachineGraph) : Prop where
  wellFormed : g'.WellFormed
  same : SameVertices g g'
  hasEdge_iff : ∀ e name kind, g'.HasEdge e name kind ↔ g.HasEdge e name kind ∨ new e name kind
  nonempty : (∀ p ∈ g.partitions, p.edges ≠ []) → ∀ p ∈ g'.partitions, p.edges ≠ []

theorem Grows.refl (h : g.WellFormed) : Grows g (fun _ _ _ => False) g :=
  ⟨h, SameVertices.refl, by simp, fun hp => hp⟩

structure WiredOver (g₀ g : MachineGraph) : Prop where
  wired : g.Wired
  same : SameVertices g₀ g

theorem Grows.wiredOver {new : MachineEdge → String → Traffic → Prop} (h : Grows g new g') :
    WiredOver g g' :=
  ⟨h.wellFormed.toWired, h.same⟩

theorem Grows.trans {new new' : MachineEdge → String → Traffic → Prop} (h : Grows g new g')
    (h' : Grows g' new' g'') :
    Grows g (fun e name kind => new e name kind ∨ new' e name kind) g'' where
  wellFormed := h'.wellFormed
  same := h.same.trans h'.same
  hasEdge_iff := by
    intro e name kind
    rw [h'.hasEdge_iff, h.hasEdge_iff, or_assoc]
  nonempty := fun hp => h'.nonempty (h.nonempty hp)

theorem Grows.congr {new new' : MachineEdge → String → Traffic → Prop} (h : Grows g new g')
    (hiff : ∀ e name kind, new e name kind ↔ new' e name kind) : Grows g new' g' :=
  { h with hasEdge_iff := fun e name kind => by rw [h.hasEdge_iff, hiff] }

theorem grows_of_forM {α ε : Type} {new : α → MachineEdge → String → Traffic → Prop}
    {f : α → ExceptT ε (StateM MachineGraph) Unit} {l : List α} (h : g.WellFormed)
    (hstep : ∀ a ∈ l, ∀ t t', t.WellFormed → SameVertices g t →
      (f a).run.run t = (.ok (), t') → Grows t (new a) t')
    (hrun : (l.forM f).run.run g = (.ok (), g')) :
    Grows g (fun e name kind => ∃ a ∈ l, new a e name kind) g' := by
  suffices hgen : ∀ t, t.WellFormed → SameVertices g t → (l.forM f).run.run t = (.ok (), g') →
      Grows t (fun e name kind => ∃ a ∈ l, new a e name kind) g' from
    hgen g h SameVertices.refl hrun
  clear hrun
  induction l with
  | nil =>
      intro t ht _ hrun
      cases hrun
      exact (Grows.refl ht).congr (by simp)
  | cons a l ih =>
      intro t ht hsame hrun
      obtain ⟨_, t', hfirst, hrest⟩ := change_bind_eq_ok.1 hrun
      have hgrows := hstep a List.mem_cons_self t t' ht hsame hfirst
      have hothers := ih (fun b hb => hstep b (List.mem_cons_of_mem a hb)) t' hgrows.wellFormed
        (hsame.trans hgrows.same) hrest
      exact (hgrows.trans hothers).congr (by simp)

/-- An application edge with an identifier and a kind of traffic leads from the application vertex
that an edge starts from to the one where it ends. -/
def StandsFor (app : ApplicationGraph) (g : MachineGraph) (e : MachineEdge) (identifier : String)
    (traffic : Traffic) : Prop :=
  ∃ v w a b, g.HasVertex e.pre v ∧ v.app? = some a ∧ g.HasVertex e.post w ∧ w.app? = some b ∧
    ⟨a, b, identifier, traffic⟩ ∈ app.edges

theorem standsFor_congr (h : SameVertices g g') :
    StandsFor app g' edge identifier traffic ↔ StandsFor app g edge identifier traffic := by
  unfold StandsFor
  simp only [h.hasVertex_iff]

theorem grows_of_addExpanded (h : g.WellFormed) {standsFor : ApplicationEdge} {label post : String}
    (hrun : (addExpanded label edge standsFor post).run.run g = (.ok (), g')) :
    Grows g (fun e name kind =>
      e = edge ∧ name = standsFor.partition ∧ kind = standsFor.traffic) g' := by
  have hgains := h.gains_of_addEdge (Graph.run_addEdge_eq_ok.1 (change_adapt_eq_ok.1 hrun))
  refine ⟨hgains.wellFormed, hgains.same, hgains.hasEdge_iff, fun hfull => hgains.nonempty ?_⟩
  intro p hp hempty
  exact absurd hempty (hfull p hp)

theorem mem_outgoing {standsFor : ApplicationEdge} :
    standsFor ∈ app.outgoing pre ↔ standsFor ∈ app.edges ∧ standsFor.pre = pre := by
  simp [ApplicationGraph.outgoing]

theorem grows_of_edges (h : g.WellFormed) {label : String}
    {edges : List (MachineEdge × ApplicationEdge × String)}
    (hrun : (edges.forM fun (edge, standsFor, post) =>
      addExpanded label edge standsFor post).run.run g = (.ok (), g')) :
    Grows g (fun e name kind => ∃ x ∈ edges,
      e = x.1 ∧ name = x.2.1.partition ∧ kind = x.2.1.traffic) g' := by
  refine grows_of_forM h ?_ hrun
  rintro ⟨edge, standsFor, post⟩ _ t t' ht _ hstep
  exact grows_of_addExpanded ht hstep

theorem expandEdges_eq_ok : (expandEdges app source).run.run g = (.ok (), g') ↔
    ∃ vertex, g.HasVertex source vertex ∧ match vertex.app? with
      | none => g = g'
      | some pre => ∃ preVertex edges, app.vertex pre = .ok preVertex ∧
          edgesFrom app g source pre = .ok edges ∧
          (edges.forM fun (edge, standsFor, post) =>
            addExpanded preVertex.label edge standsFor post).run.run g = (.ok (), g') := by
  unfold expandEdges
  simp only [change_bind_eq_ok, change_get_eq_ok, change_result_eq_ok, lift_eq_ok,
    MachineGraph.vertex_eq_ok]
  constructor
  · rintro ⟨_, _, ⟨rfl, rfl⟩, vertex, _, ⟨hv, rfl⟩, hrun⟩
    refine ⟨vertex, hv, ?_⟩
    cases happ : vertex.app? with
    | none =>
        rw [happ] at hrun
        exact (change_pure_eq_ok.1 hrun).2
    | some pre =>
        simp only [happ, change_bind_eq_ok, change_result_eq_ok, lift_eq_ok] at hrun
        obtain ⟨preVertex, _, ⟨hpre, rfl⟩, edges, _, ⟨hedges, rfl⟩, hrun⟩ := hrun
        exact ⟨preVertex, edges, hpre, hedges, hrun⟩
  · rintro ⟨vertex, hv, hrun⟩
    refine ⟨g, g, ⟨rfl, rfl⟩, vertex, g, ⟨hv, rfl⟩, ?_⟩
    cases happ : vertex.app? with
    | none =>
        rw [happ] at hrun
        exact change_pure_eq_ok.2 ⟨rfl, hrun⟩
    | some pre =>
        simp only [happ] at hrun
        obtain ⟨preVertex, edges, hpre, hedges, hrun⟩ := hrun
        simp only [change_bind_eq_ok, change_result_eq_ok, lift_eq_ok]
        exact ⟨preVertex, g, ⟨hpre, rfl⟩, edges, g, ⟨hedges, rfl⟩, hrun⟩

theorem grows_of_expandEdges (h : g.WellFormed)
    (hrun : (expandEdges app source).run.run g = (.ok (), g')) :
    Grows g (fun e name kind => e.pre = source ∧ StandsFor app g e name kind) g' := by
  obtain ⟨vertex, hv, hrun⟩ := expandEdges_eq_ok.1 hrun
  split at hrun
  · next hnone =>
      subst hrun
      refine (Grows.refl h).congr fun e name kind => ?_
      constructor
      · exact False.elim
      · rintro ⟨rfl, v, _, a, _, hv', ha, _⟩
        cases hv.eq hv'
        rw [hnone] at ha
        cases ha
  · next pre hpre =>
      obtain ⟨preVertex, edges, _, hedges, hrun⟩ := hrun
      refine (grows_of_edges h hrun).congr fun e name kind => ?_
      have hmem := fun standsFor => mem_edgesFrom hedges e standsFor
      constructor
      · rintro ⟨⟨_, standsFor, label⟩, hin, rfl, rfl, rfl⟩
        obtain ⟨hsource, hout, htarget⟩ := (hmem standsFor).1 ⟨label, hin⟩
        obtain ⟨hedge, rfl⟩ := mem_outgoing.1 hout
        obtain ⟨w, hw, hb⟩ := (h.members _ _).1 htarget
        exact ⟨hsource, vertex, w, _, _, hsource ▸ hv, hpre, hw, hb, hedge⟩
      · rintro ⟨rfl, v, w, a, b, hv', ha, hw, hb, hin⟩
        cases hv.eq hv'
        cases hpre.symm.trans ha
        obtain ⟨label, hlabel⟩ := (hmem ⟨pre, b, name, kind⟩).2
          ⟨rfl, mem_outgoing.2 ⟨hin, rfl⟩, (h.members b e.post).2 ⟨w, hw, hb⟩⟩
        exact ⟨_, hlabel, rfl, rfl, rfl⟩

theorem grows_of_expansion {α : Type} {l : List α} {sourceOf : α → MachineVertexId}
    (h : g.WellFormed)
    (hrun : (l.forM fun a => expandEdges app (sourceOf a)).run.run g = (.ok (), g')) :
    Grows g (fun e name kind => ∃ a ∈ l, e.pre = sourceOf a ∧ StandsFor app g e name kind) g' := by
  refine grows_of_forM h ?_ hrun
  intro a _ t t' ht hsame hran
  refine (grows_of_expandEdges ht hran).congr fun e name kind => ?_
  rw [standsFor_congr hsame]

/-! ## All machine vertices -/

/-- A graph with exactly the edges that an application graph asks for. -/
structure Expanded (app : ApplicationGraph) (g : MachineGraph) : Prop extends WellFormed g where
  hasEdge_iff : ∀ u w identifier traffic,
    g.HasEdge ⟨u, w⟩ identifier traffic ↔ StandsFor app g ⟨u, w⟩ identifier traffic
  nonempty : ∀ p ∈ g.partitions, p.edges ≠ []
  again : ∀ id v, g.HasVertex id v → (expandEdges app id).run.run g = (.ok (), g)

theorem addExpanded_of_hasEdge (h : g.WellFormed) {standsFor : ApplicationEdge}
    {label post : String} (hedge : g.HasEdge edge standsFor.partition standsFor.traffic) :
    (addExpanded label edge standsFor post).run.run g = (.ok (), g) :=
  change_adapt_eq_ok.2 (Graph.run_addEdge_eq_ok.2 (h.addEdge_of_hasEdge hedge))

theorem expandEdges_again (h : g.WellFormed) {t t' : MachineGraph} (hsame : SameVertices t g)
    (hran : (expandEdges app source).run.run t = (.ok (), t'))
    (hedges : ∀ e name kind, e.pre = source → StandsFor app g e name kind →
      g.HasEdge e name kind) :
    (expandEdges app source).run.run g = (.ok (), g) := by
  obtain ⟨vertex, hv, hran⟩ := expandEdges_eq_ok.1 hran
  have hv := hsame.hasVertex_iff.2 hv
  refine expandEdges_eq_ok.2 ⟨vertex, hv, ?_⟩
  split at hran
  · rfl
  · next pre hpre =>
      obtain ⟨preVertex, edges, happ, hfrom, _⟩ := hran
      rw [← edgesFrom_congr hsame] at hfrom
      refine ⟨preVertex, edges, happ, hfrom, change_forM_fixed ?_⟩
      rintro ⟨e, standsFor, label⟩ hin
      obtain ⟨rfl, hout, htarget⟩ := (mem_edgesFrom hfrom e standsFor).1 ⟨label, hin⟩
      obtain ⟨hedge, rfl⟩ := mem_outgoing.1 hout
      obtain ⟨w, hw, hb⟩ := (h.members _ _).1 htarget
      exact addExpanded_of_hasEdge h
        (hedges e _ _ rfl ⟨vertex, w, _, _, hv, hpre, hw, hb, hedge⟩)

theorem expanded_of_forM {α : Type} {l : List α} {sourceOf : α → MachineVertexId}
    (h : g.WellFormed) (hedgeless : g.partitions = #[])
    (hall : ∀ id v, g.HasVertex id v → ∃ a ∈ l, sourceOf a = id)
    (hrun : (l.forM fun a => expandEdges app (sourceOf a)).run.run g = (.ok (), g')) :
    Expanded app g' := by
  have hgrows := grows_of_expansion h hrun
  have hedges : ∀ e name kind, g'.HasEdge e name kind ↔ StandsFor app g' e name kind := by
    intro e name kind
    rw [hgrows.hasEdge_iff, h.hasEdge_iff, standsFor_congr hgrows.same]
    simp only [hedgeless, Array.not_mem_empty, false_and, exists_false, false_or]
    constructor
    · rintro ⟨a, _, _, hstands⟩
      exact hstands
    · intro hstands
      have hsource : ∃ v, g.HasVertex e.pre v := by
        obtain ⟨v, _, _, _, hv, _⟩ := hstands
        exact ⟨v, hv⟩
      obtain ⟨v, hv⟩ := hsource
      obtain ⟨x, hx, hsource⟩ := hall e.pre v hv
      exact ⟨x, hx, hsource.symm, hstands⟩
  refine ⟨hgrows.wellFormed, fun u w name kind => hedges ⟨u, w⟩ name kind,
    hgrows.nonempty (by simp [hedgeless]), ?_⟩
  intro id v hv
  obtain ⟨a, ha, rfl⟩ := hall id v (hgrows.same.hasVertex_iff.1 hv)
  obtain ⟨t, t', ⟨ht, hsame⟩, hran⟩ := change_forM_ran
    (P := fun t => t.WellFormed ∧ SameVertices g t) hrun ⟨h, SameVertices.refl⟩
    (fun a _ t t' ht hran =>
      have hone := grows_of_expandEdges ht.1 hran
      ⟨hone.wellFormed, ht.2.trans hone.same⟩) a ha
  exact expandEdges_again hgrows.wellFormed (hsame.symm.trans hgrows.same) hran
    fun e name kind _ hstands => (hedges e name kind).2 hstands

end MulticastMesh.Slicing
