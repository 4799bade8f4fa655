import MulticastMesh.Format.Application
import MulticastMesh.Proofs.Format.Machine
/-!
# Application graphs are kept by their format

A graph is kept if its numbers have the widths that the format reads; labels can be any text.
-/

namespace MulticastMesh.Graph

open Json
open Mesh (Coord)

variable (room : Nat)

def AppVertexId.InRange (v : AppVertexId) : Prop := v.index < UInt32.size

instance : DecidablePred AppVertexId.InRange := fun _ => inferInstanceAs (Decidable (_ < _))

theorem AppVertexId.keeps {v : AppVertexId} (h : v.InRange) :
    Keeps AppVertexId.toJson AppVertexId.ofJson? room v :=
  (keeps_nat32 room h).map rfl

def CostModel.InRange (c : CostModel) : Prop :=
  c.fixedSdram < UInt64.size ∧ c.sdramPerAtom < UInt64.size ∧ c.sdramPerSynapse < UInt64.size ∧
    c.fixedCycles < UInt64.size ∧ c.cyclesPerAtom < UInt64.size

instance : DecidablePred CostModel.InRange := fun _ => inferInstanceAs (Decidable (_ ∧ _))

theorem CostModel.keeps {c : CostModel} (h : c.InRange) :
    Keeps CostModel.toJson CostModel.ofJson? (room + 1) c := by
  obtain ⟨hsdram, hatom, hsynapse, hcycles, hcyclesAtom⟩ := h
  replace hsdram := keeps_nat64 room hsdram
  replace hatom := keeps_nat64 room hatom
  replace hsynapse := keeps_nat64 room hsynapse
  replace hcycles := keeps_nat64 room hcycles
  replace hcyclesAtom := keeps_nat64 room hcyclesAtom
  refine keeps_record rfl (fun _ => rfl)
    (by simp [hsdram.fits, hatom.fits, hsynapse.fits, hcycles.fits, hcyclesAtom.fits])
    (by simp) (by simp) ?_
  simp [Fields.defaulted, hsdram.back, hatom.back, hsynapse.back, hcycles.back, hcyclesAtom.back]

def Splitter.InRange : Splitter → Prop
  | legacy => True
  | fixedSlice atoms => atoms < UInt32.size
  | applicationDefined slices _ => ∀ slice ∈ slices, slice.1 < UInt32.size ∧ slice.2 < UInt32.size

instance : DecidablePred Splitter.InRange
  | .legacy => inferInstanceAs (Decidable True)
  | .fixedSlice _ => inferInstanceAs (Decidable (_ < _))
  | .applicationDefined _ _ => inferInstanceAs (Decidable (∀ _ ∈ _, _ ∧ _))

theorem Splitter.keeps {s : Splitter} (h : s.InRange) :
    Keeps Splitter.toJson Splitter.ofJson? (room + 3) s := by
  cases s with
  | legacy =>
      exact keeps_tagged rfl (fun _ => rfl) (fun _ => rfl) (by simp)
        (by simp) (by simp) (by simp) rfl
  | fixedSlice atoms =>
      have hatoms := keeps_nat32 (room + 2) h
      refine keeps_tagged rfl (fun _ => rfl) (fun _ => rfl) (by simp [hatoms.fits])
        (by simp) (by simp) (by simp) ?_
      simp [Fields.required, hatoms.back]
  | applicationDefined slices sameChip =>
      have hslices := Keeps.list fun slice hslice =>
        (keeps_nat32 room (h slice hslice).1).pair (keeps_nat32 _ (h slice hslice).2)
      have hsame := keeps_bool (room + 2) sameChip
      refine keeps_tagged rfl (fun _ => rfl) (fun _ => rfl) (by simp [hslices.fits, hsame.fits])
        (by simp) (by simp) (by simp) ?_
      simp [Fields.required, Fields.defaulted, hslices.back, hsame.back]

def Constraint.InRange : Constraint → Prop
  | maxAtomsPerCore max => max < UInt32.size
  | sameAtomsAs _ => True
  | chipAndCore x y core? => x < UInt32.size ∧ y < UInt32.size ∧ ∀ p ∈ core?, p < UInt8.size
  | fixedKeyAndMask _ _ _ => True

instance : DecidablePred Constraint.InRange
  | .maxAtomsPerCore _ => inferInstanceAs (Decidable (_ < _))
  | .sameAtomsAs _ => inferInstanceAs (Decidable True)
  | .chipAndCore _ _ _ => inferInstanceAs (Decidable (_ ∧ _))
  | .fixedKeyAndMask _ _ _ => inferInstanceAs (Decidable True)

theorem Constraint.keeps {c : Constraint} (h : c.InRange) :
    Keeps Constraint.toJson Constraint.ofJson? (room + 1) c := by
  cases c with
  | maxAtomsPerCore max =>
      have hmax := keeps_nat32 room h
      refine keeps_tagged rfl (fun _ => rfl) (fun _ => rfl) (by simp [hmax.fits])
        (by simp) (by simp) (by simp) ?_
      simp [Fields.required, hmax.back]
  | sameAtomsAs label =>
      have hlabel := keeps_string room label
      refine keeps_tagged rfl (fun _ => rfl) (fun _ => rfl) (by simp [hlabel.fits])
        (by simp) (by simp) (by simp) ?_
      simp [Fields.required, hlabel.back]
  | chipAndCore x y core? =>
      have hx := keeps_nat32 room h.1
      have hy := keeps_nat32 room h.2.1
      have hcore := Keeps.nullable (fun p hp => keeps_nat8 room (h.2.2 p hp))
        (by simp [nat])
      refine keeps_tagged rfl (fun _ => rfl) (fun _ => rfl) (by simp [hx.fits, hy.fits, hcore.fits])
        (by simp) (by simp) (by simp) ?_
      simp [Fields.required, Fields.optional, hx.back, hy.back, hcore.back]
  | fixedKeyAndMask key mask partition? =>
      have hkey := keeps_word room key
      have hmask := keeps_word room mask
      have hpartition : Keeps (option string) (Fields.nullable string?) room partition? :=
        Keeps.nullable (fun p _ => keeps_string room p) (by simp)
      refine keeps_tagged rfl (fun _ => rfl) (fun _ => rfl)
        (by simp [hkey.fits, hmask.fits, hpartition.fits])
        (by simp) (by simp) (by simp) ?_
      simp [Fields.required, Fields.maybe, Fields.defaulted, hkey.back, hmask.back, hpartition.back]

def FixedLocation.InRange (l : FixedLocation) : Prop :=
  l.chip.InRange ∧ ∀ p ∈ l.core?, p < UInt8.size

instance : DecidablePred FixedLocation.InRange := fun _ => inferInstanceAs (Decidable (_ ∧ _))

theorem FixedLocation.keeps {l : FixedLocation} (h : l.InRange) :
    Keeps FixedLocation.toJson FixedLocation.ofJson? (room + 2) l := by
  have hchip := Coord.keeps room h.1
  have hcore := Keeps.nullable (fun p hp => keeps_nat8 (room + 1) (h.2 p hp))
    (by simp [nat])
  refine keeps_record rfl (fun _ => rfl) (by simp [hchip.fits, hcore.fits]) (by simp) (by simp) ?_
  simp [Fields.required, Fields.optional, hchip.back, hcore.back]

def ApplicationVertex.InRange (v : ApplicationVertex) : Prop :=
  v.atoms < UInt32.size ∧ (∀ max ∈ v.maxAtoms?, max < UInt32.size) ∧ v.cost.InRange ∧
    v.splitter.InRange ∧ ∀ c ∈ v.constraints, c.InRange

instance : DecidablePred ApplicationVertex.InRange :=
  fun _ => inferInstanceAs (Decidable (_ ∧ _))

theorem ApplicationVertex.keeps {v : ApplicationVertex} (h : v.InRange) :
    Keeps ApplicationVertex.toJson ApplicationVertex.ofJson? (room + 4) v := by
  obtain ⟨hatoms, hmax, hcost, hsplitter, hconstraints⟩ := h
  have hlabel := keeps_string (room + 3) v.label
  replace hatoms := keeps_nat32 (room + 3) hatoms
  replace hmax := Keeps.nullable (fun max h => keeps_nat32 (room + 3) (hmax max h))
    (by simp [nat])
  replace hcost := CostModel.keeps (room + 2) hcost
  replace hsplitter := Splitter.keeps room hsplitter
  replace hconstraints := Keeps.list fun c hc =>
    Constraint.keeps (room + 1) (hconstraints c hc)
  refine keeps_record rfl (fun _ => rfl)
    (by simp [hlabel.fits, hatoms.fits, hmax.fits, hcost.fits, hsplitter.fits, hconstraints.fits])
    (by simp) (by simp) ?_
  simp [Fields.required, Fields.maybe, Fields.defaulted, hlabel.back, hatoms.back, hmax.back,
    hcost.back, hsplitter.back, hconstraints.back]

theorem Traffic.keeps (t : Traffic) : Keeps Traffic.toJson Traffic.ofJson? room t :=
  ⟨(keeps_string room t.name).fits, by cases t <;> rfl⟩

def ApplicationEdge.InRange (e : ApplicationEdge) : Prop := e.pre.InRange ∧ e.post.InRange

instance : DecidablePred ApplicationEdge.InRange := fun _ => inferInstanceAs (Decidable (_ ∧ _))

theorem ApplicationEdge.keeps {e : ApplicationEdge} (h : e.InRange) :
    Keeps ApplicationEdge.toJson ApplicationEdge.ofJson? (room + 1) e := by
  have hpre := AppVertexId.keeps room h.1
  have hpost := AppVertexId.keeps room h.2
  have hpartition := keeps_string room e.partition
  have htraffic := Traffic.keeps room e.traffic
  refine keeps_record rfl (fun _ => rfl)
    (by simp [hpre.fits, hpost.fits, hpartition.fits, htraffic.fits])
    (by simp) (by simp) ?_
  simp [Fields.required, Fields.defaulted, hpre.back, hpost.back, hpartition.back, htraffic.back]

def ApplicationGraph.InRange (g : ApplicationGraph) : Prop :=
  (∀ v ∈ g.vertices.toList, v.InRange) ∧ ∀ e ∈ g.edges.toList, e.InRange

instance : DecidablePred ApplicationGraph.InRange := fun _ => inferInstanceAs (Decidable (_ ∧ _))

theorem ApplicationGraph.keeps {g : ApplicationGraph} (h : g.InRange) :
    Keeps ApplicationGraph.toJson ApplicationGraph.ofJson? (room + 6) g := by
  have hvertices := Keeps.list fun v hv => ApplicationVertex.keeps room (h.1 v hv)
  have hedges := Keeps.list fun e he => ApplicationEdge.keeps (room + 3) (h.2 e he)
  refine keeps_record rfl (fun _ => rfl) (by simp [hvertices.fits, hedges.fits])
    (by simp) (by simp) ?_
  simp [Fields.required, hvertices.back, hedges.back]

end MulticastMesh.Graph
