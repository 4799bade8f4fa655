import MulticastMesh.Format.MachineGraph
import MulticastMesh.Proofs.Format.Application
/-!
# Machine graphs are kept by their format

A graph is kept if its numbers have the widths that the format reads.  A slice is read through its
constructors, which take every slice that was built by them and turn away what they would not
build.
-/

namespace MulticastMesh.Graph

open Json

variable (room : Nat)

/-! ## Slices -/

inductive SliceFields.Refused (f : SliceFields) : Prop
  | interval {e : GraphError} (noShape : f.shape? = none) (noStart : f.start? = none)
      (error : Slice.ofInterval f.lo f.hi = .error e)
  | box {e : GraphError} (box : Box) (shape : f.shape? = some box.shape)
      (start : f.start? = some box.start) (error : Slice.ofBox f.lo f.hi box = .error e)
  | alone (differ : f.shape?.isSome ≠ f.start?.isSome)

namespace Slice

theorem ofJson?_eq (j : Json) : ofJson? j =
    (SliceFields.ofJson? j).bind fun f => (ofFields f.lo f.hi f.shape? f.start?).toOption :=
  rfl

theorem toOption_eq_none_iff {ε α : Type} {x : Except ε α} :
    x.toOption = none ↔ ∃ e, x = .error e := by
  cases x <;> simp [Except.toOption]

theorem ofFields_toOption_eq_none_iff {f : SliceFields} :
    (ofFields f.lo f.hi f.shape? f.start?).toOption = none ↔ f.Refused := by
  rw [toOption_eq_none_iff]
  obtain ⟨lo, hi, shape?, start?⟩ := f
  constructor
  · rintro ⟨e, he⟩
    cases shape? with
    | none =>
        cases start? with
        | none => exact .interval rfl rfl he
        | some start => exact .alone (by simp)
    | some shape =>
        cases start? with
        | none => exact .alone (by simp)
        | some start => exact .box ⟨shape, start⟩ rfl rfl he
  · rintro (⟨rfl, rfl, he⟩ | ⟨box, rfl, rfl, he⟩ | hdiffer)
    · exact ⟨_, he⟩
    · exact ⟨_, he⟩
    · cases shape? <;> cases start? <;> simp_all [ofFields]

theorem ofJson?_eq_none_iff {j : Json} {f : SliceFields} (h : SliceFields.ofJson? j = some f) :
    ofJson? j = none ↔ f.Refused := by
  rw [ofJson?_eq, h, Option.bind_some, ofFields_toOption_eq_none_iff]

theorem ofFields_self (s : Slice) :
    ofFields s.lo s.hi (s.box?.map Box.shape) (s.box?.map Box.start) = .ok s := by
  obtain ⟨lo, hi, hle, box?, hbox⟩ := s
  cases box? with
  | none => simp [ofFields, ofInterval, hle]
  | some box =>
      obtain ⟨hdimensions, hvolume⟩ := hbox box rfl
      simp [ofFields, ofBox, hle, hdimensions, hvolume]

def InRange (s : Slice) : Prop :=
  s.hi < UInt32.size ∧
    ∀ box ∈ s.box?, (∀ n ∈ box.shape, n < UInt32.size) ∧ ∀ n ∈ box.start, n < UInt32.size

instance : DecidablePred InRange := fun _ => inferInstanceAs (Decidable (_ ∧ _))

def fields (s : Slice) : SliceFields where
  lo := s.lo
  hi := s.hi
  shape? := s.box?.map Box.shape
  start? := s.box?.map Box.start

theorem fields_toJson {s : Slice} (h : s.InRange) :
    (toJson s).Fits (room + 2) ∧ SliceFields.ofJson? s.toJson = some s.fields := by
  have hlo := keeps_nat32 (room + 1) (Nat.lt_of_le_of_lt s.lo_le_hi h.1)
  have hhi := keeps_nat32 (room + 1) h.1
  unfold SliceFields.ofJson? toJson fields
  cases hbox : s.box? with
  | none =>
      refine ⟨fits_object (by simp [hlo.fits, hhi.fits]), ?_⟩
      simp only [List.append_nil]
      rw [fields?_object (by simp) (by simp)]
      simp [Fields.required, Fields.maybe, Fields.defaulted, hlo.back, hhi.back]
  | some box =>
      have hshape := Keeps.list fun n hn => keeps_nat32 room ((h.2 box hbox).1 n hn)
      have hstart := Keeps.list fun n hn => keeps_nat32 room ((h.2 box hbox).2 n hn)
      refine ⟨fits_object (by simp [hlo.fits, hhi.fits, hshape.fits, hstart.fits]), ?_⟩
      simp only [List.cons_append, List.nil_append]
      rw [fields?_object (by simp) (by simp)]
      simp [Fields.required, Fields.maybe, Fields.defaulted, hlo.back, hhi.back,
        hshape.nullable_back (by simp [list]), hstart.nullable_back (by simp [list])]

theorem keeps {s : Slice} (h : s.InRange) : Keeps toJson ofJson? (room + 2) s where
  fits := (fields_toJson room h).1
  back := by
    rw [ofJson?_eq, (fields_toJson room h).2, Option.bind_some]
    unfold fields
    rw [ofFields_self]
    rfl

end Slice

/-! ## Vertices, partitions and graphs -/

def MachineVertexId.InRange (v : MachineVertexId) : Prop := v.index < UInt32.size

instance : DecidablePred MachineVertexId.InRange := fun _ => inferInstanceAs (Decidable (_ < _))

theorem MachineVertexId.keeps {v : MachineVertexId} (h : v.InRange) :
    Keeps MachineVertexId.toJson MachineVertexId.ofJson? room v :=
  (keeps_nat32 room h).map rfl

def Resources.InRange (r : Resources) : Prop :=
  r.cores < UInt32.size ∧ r.sdram < UInt64.size ∧ r.cycles < UInt64.size

instance : DecidablePred Resources.InRange := fun _ => inferInstanceAs (Decidable (_ ∧ _))

theorem Resources.keeps {r : Resources} (h : r.InRange) :
    Keeps Resources.toJson Resources.ofJson? (room + 1) r := by
  have hcores := keeps_nat32 room h.1
  have hsdram := keeps_nat64 room h.2.1
  have hcycles := keeps_nat64 room h.2.2
  refine keeps_record rfl (fun _ => rfl) (by simp [hcores.fits, hsdram.fits, hcycles.fits])
    (by simp) (by simp) ?_
  simp [Fields.required, hcores.back, hsdram.back, hcycles.back]

def MachineVertex.InRange (v : MachineVertex) : Prop :=
  (∀ app ∈ v.app?, app.InRange) ∧ v.index < UInt32.size ∧ v.slice.InRange ∧
    v.resources.InRange ∧ ∀ location ∈ v.location?, location.InRange

instance : DecidablePred MachineVertex.InRange := fun _ => inferInstanceAs (Decidable (_ ∧ _))

theorem MachineVertex.keeps {v : MachineVertex} (h : v.InRange) :
    Keeps MachineVertex.toJson MachineVertex.ofJson? (room + 3) v := by
  obtain ⟨happ, hindex, hslice, hresources, hlocation⟩ := h
  have hlabel := keeps_string (room + 2) v.label
  replace happ := Keeps.nullable (fun app h => AppVertexId.keeps (room + 2) (happ app h))
    (by simp [AppVertexId.toJson, nat])
  replace hindex := keeps_nat32 (room + 2) hindex
  replace hslice := Slice.keeps room hslice
  replace hresources := Resources.keeps (room + 1) hresources
  replace hlocation := Keeps.nullable
    (fun location h => FixedLocation.keeps room (hlocation location h))
    (by simp [FixedLocation.toJson])
  refine keeps_record rfl (fun _ => rfl)
    (by simp [hlabel.fits, happ.fits, hindex.fits, hslice.fits, hresources.fits, hlocation.fits])
    (by simp) (by simp) ?_
  simp [Fields.required, Fields.optional, Fields.maybe, Fields.defaulted, hlabel.back, happ.back,
    hindex.back, hslice.back, hresources.back, hlocation.back]

def MachineEdge.InRange (e : MachineEdge) : Prop := e.pre.InRange ∧ e.post.InRange

instance : DecidablePred MachineEdge.InRange := fun _ => inferInstanceAs (Decidable (_ ∧ _))

theorem MachineEdge.keeps {e : MachineEdge} (h : e.InRange) :
    Keeps MachineEdge.toJson MachineEdge.ofJson? (room + 1) e := by
  have hpre := MachineVertexId.keeps room h.1
  have hpost := MachineVertexId.keeps room h.2
  refine keeps_record rfl (fun _ => rfl) (by simp [hpre.fits, hpost.fits]) (by simp) (by simp) ?_
  simp [Fields.required, hpre.back, hpost.back]

def EdgePartition.InRange (p : EdgePartition) : Prop :=
  p.pre.InRange ∧ (∀ e ∈ p.edges, e.InRange) ∧ ∀ code ∈ p.owner?, code < UInt64.size

instance : DecidablePred EdgePartition.InRange := fun _ => inferInstanceAs (Decidable (_ ∧ _))

theorem EdgePartition.keeps {p : EdgePartition} (h : p.InRange) :
    Keeps EdgePartition.toJson EdgePartition.ofJson? (room + 3) p := by
  have hpre := MachineVertexId.keeps (room + 2) h.1
  have hidentifier := keeps_string (room + 2) p.identifier
  have htraffic := Traffic.keeps (room + 2) p.traffic
  have hedges := Keeps.list fun e he => MachineEdge.keeps room (h.2.1 e he)
  have howner := Keeps.nullable (fun code hc => keeps_nat64 (room + 2) (h.2.2 code hc))
    (by simp [nat])
  refine keeps_record rfl (fun _ => rfl)
    (by simp [hpre.fits, hidentifier.fits, htraffic.fits, hedges.fits, howner.fits])
    (by simp) (by simp) ?_
  simp [Fields.required, Fields.optional, hpre.back, hidentifier.back, htraffic.back, hedges.back,
    howner.back]

def MachineGraph.InRange (g : MachineGraph) : Prop :=
  g.code < UInt64.size ∧ (∀ v ∈ g.vertices.toList, v.InRange) ∧
    (∀ ids ∈ g.byApp.toList, ∀ id ∈ ids, id.InRange) ∧
    (∀ p ∈ g.partitions.toList, p.InRange) ∧
    ∀ indices ∈ g.outgoing.toList, ∀ i ∈ indices, i < UInt64.size

instance : DecidablePred MachineGraph.InRange := fun _ => inferInstanceAs (Decidable (_ ∧ _))

theorem MachineGraph.keeps {g : MachineGraph} (h : g.InRange) :
    Keeps MachineGraph.toJson MachineGraph.ofJson? (room + 5) g := by
  obtain ⟨hcode, hvertices, hbyApp, hpartitions, houtgoing⟩ := h
  replace hcode := keeps_nat64 (room + 4) hcode
  replace hvertices := Keeps.list fun v hv => MachineVertex.keeps room (hvertices v hv)
  replace hbyApp := Keeps.list fun ids hids => Keeps.list fun id hid =>
    MachineVertexId.keeps (room + 2) (hbyApp ids hids id hid)
  replace hpartitions := Keeps.list fun p hp =>
    EdgePartition.keeps room (hpartitions p hp)
  replace houtgoing := Keeps.list fun indices hi => Keeps.list fun i hmem =>
    keeps_nat64 (room + 2) (houtgoing indices hi i hmem)
  refine keeps_record rfl (fun _ => rfl)
    (by simp [hcode.fits, hvertices.fits, hbyApp.fits, hpartitions.fits, houtgoing.fits])
    (by simp) (by simp) ?_
  simp [Fields.required, hcode.back, hvertices.back, hbyApp.back, hpartitions.back, houtgoing.back]

end MulticastMesh.Graph
