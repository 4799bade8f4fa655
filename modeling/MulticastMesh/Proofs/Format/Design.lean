import Mathlib.Algebra.Group.Nat.Defs
import MulticastMesh.Flow.Document
import MulticastMesh.Proofs.Format.MachineGraph
import MulticastMesh.Proofs.Layout.Placed
/-!
# Placed designs are kept by their format

What is written is decoded to the same design, also when it is read from the text of a file.  On
the way back the only values that are turned away are those that no constructor would build:
placements that repeat a vertex or a core, and slices that are empty or no box.
-/

namespace MulticastMesh

open Json

variable (room : Nat)

namespace Layout

open MulticastMesh.Graph (MachineVertexId)

def Placement.InRange (p : Placement) : Prop :=
  p.vertex.InRange ∧ p.chip.InRange ∧ p.processor < UInt8.size

instance : DecidablePred Placement.InRange := fun _ => inferInstanceAs (Decidable (_ ∧ _))

theorem Placement.keeps {p : Placement} (h : p.InRange) :
    Keeps Placement.toJson Placement.ofJson? (room + 1) p := by
  obtain ⟨hvertex, ⟨hx, hy⟩, hprocessor⟩ := h
  replace hvertex := MachineVertexId.keeps room hvertex
  replace hx := keeps_nat32 room hx
  replace hy := keeps_nat32 room hy
  replace hprocessor := keeps_nat8 room hprocessor
  refine keeps_record rfl (fun _ => rfl) (by simp [hvertex.fits, hx.fits, hy.fits, hprocessor.fits])
    (by simp) (by simp) ?_
  simp [Fields.required, hvertex.back, hx.back, hy.back, hprocessor.back]

namespace Placements

def InRange (s : Placements) : Prop := ∀ p ∈ s.toList, p.InRange

instance : DecidablePred InRange := fun _ => inferInstanceAs (Decidable (∀ _ ∈ _, _))

theorem keeps {s : Placements} (h : s.InRange) : Keeps toJson ofJson? (room + 2) s := by
  have hlist := Keeps.list fun p hp => Placement.keeps room (h p hp)
  refine ⟨hlist.fits, ?_⟩
  unfold ofJson? toJson
  simp [hlist.back, ofList_toList, Except.toOption]

theorem exists_ofList_iff {l : List Placement} : (∃ s, ofList l = .ok s) ↔ NoRepeats l :=
  exists_addAll_iff (s := empty)

theorem ofJson?_eq_none_iff {j : Json} {l : List Placement}
    (h : list? Placement.ofJson? j = some l) :
    ofJson? j = none ↔ ¬(l.map Placement.vertex).Nodup ∨ ¬(l.map Placement.core).Nodup := by
  have hread : ofJson? j = (ofList l).toOption := by simp [ofJson?, h]
  have hnoRepeats : NoRepeats l ↔
      (l.map Placement.vertex).Nodup ∧ (l.map Placement.core).Nodup :=
    ⟨fun h => ⟨h.vertices, h.cores⟩, fun h => ⟨h.1, h.2⟩⟩
  rw [hread, ← not_and_or, ← hnoRepeats, ← exists_ofList_iff]
  cases ofList l <;> simp [Except.toOption]

end Placements

end Layout

namespace Flow

open Layout (Placement Placements)
open MulticastMesh.Graph (Slice SliceFields)

/-- The numbers of a design have the widths that the format reads. -/
structure PlacedDesign.InRange (d : PlacedDesign) : Prop where
  machine : d.machine.InRange
  app : d.app.InRange
  graph : d.graph.InRange
  placements : d.placements.InRange

theorem PlacedDesign.keeps {d : PlacedDesign} (h : d.InRange) :
    Keeps toJson ofJson? (room + 7) d := by
  have hmachine := Mesh.MachineSpec.keeps (room + 2) h.machine
  have happ := Graph.ApplicationGraph.keeps room h.app
  have hgraph := Graph.MachineGraph.keeps (room + 1) h.graph
  have hplacements := Placements.keeps (room + 4) h.placements
  refine keeps_record rfl (fun _ => rfl)
    (by simp [hmachine.fits, happ.fits, hgraph.fits, hplacements.fits])
    (by simp) (by simp) ?_
  simp [Fields.required, hmachine.back, happ.back, hgraph.back, hplacements.back]

theorem parseDocument_text {α : Type} {encode : α → Json} {decode : Json → Option α} {a : α}
    (h : Keeps encode decode maxNesting a) (path : String) :
    parseDocument decode path (encode a).text = .ok a := by
  simp [parseDocument, ofText?_text h.fits, h.back]

/-- A design is decoded from what is written of it, as a value and as the text of a file.
Placements of the right form are refused exactly when they repeat a vertex or a core, and a slice
of the right form exactly when its constructors refuse it or its shape or start stands alone. -/
theorem placedDesign_roundTrips {d : PlacedDesign} (h : d.InRange) :
    PlacedDesign.ofJson? d.toJson = some d ∧
      (∀ path, parsePlacedDesign path d.toJson.text = .ok d) ∧
      (∀ j l, list? Placement.ofJson? j = some l →
        (Placements.ofJson? j = none ↔
          ¬(l.map Placement.vertex).Nodup ∨ ¬(l.map Placement.core).Nodup)) ∧
      ∀ j f, SliceFields.ofJson? j = some f → (Slice.ofJson? j = none ↔ f.Refused) :=
  have hkeeps : Keeps PlacedDesign.toJson PlacedDesign.ofJson? maxNesting d :=
    PlacedDesign.keeps 120 h
  ⟨hkeeps.back, parseDocument_text hkeeps, fun _ _ => Placements.ofJson?_eq_none_iff,
    fun _ _ => Slice.ofJson?_eq_none_iff⟩

/-- Every splitter and every constraint occurs, one slice is a box, and one vertex stands for
itself. -/
def boxedDesign : PlacedDesign where
  machine :=
    { width := 3, height := 2, wraps := true, deadChips := [⟨1, 1⟩],
      deadLinks := [(⟨0, 0⟩, .east)] }
  app :=
    { vertices := #[
        { label := "retina \"left\"", atoms := 6, maxAtoms? := some 6,
          splitter := .applicationDefined [(0, 5)] true,
          constraints := [.fixedKeyAndMask 0x8000#32 0xfffffff8#32 none] },
        { label := "cortex", atoms := 4, cost := { sdramPerSynapse := 2 ^ 40 },
          splitter := .fixedSlice 4,
          constraints := [.maxAtomsPerCore 4, .chipAndCore 2 0 (some 3)] },
        { label := "copy", atoms := 4, constraints := [.sameAtomsAs "cortex"] }]
      edges := #[⟨⟨0⟩, ⟨1⟩, "spikes", .multicast⟩, ⟨⟨1⟩, ⟨0⟩, "control", .sdram⟩] }
  graph :=
    { code := 2 ^ 64 - 1
      vertices := #[
        { label := "retina 0:5", app? := some ⟨0⟩, index := 0,
          slice := ⟨0, 5, by decide, some ⟨[2, 3], [0, 7]⟩, by decide⟩,
          resources := ⟨1, 100, 200⟩, location? := none },
        { label := "monitor", app? := none, index := 0,
          slice := ⟨0, 0, by decide, none, by decide⟩,
          resources := ⟨1, 0, 0⟩, location? := some ⟨⟨2, 0⟩, some 3⟩ }]
      byApp := #[[⟨0⟩], [], []]
      partitions := #[
        { pre := ⟨0⟩, identifier := "spikes", traffic := .multicast, edges := [⟨⟨0⟩, ⟨1⟩⟩],
          owner? := some (2 ^ 64 - 1) }]
      outgoing := #[[0], []] }
  placements :=
    ⟨[⟨⟨0⟩, ⟨0, 0⟩, 1⟩, ⟨⟨1⟩, ⟨2, 0⟩, 3⟩], by decide, by decide⟩

theorem boxedDesign_inRange : boxedDesign.InRange where
  machine := by decide
  app := by decide
  graph := by decide
  placements := by decide

/-- Two vertices on one core. -/
def crowded : List Placement := [⟨⟨0⟩, ⟨0, 0⟩, 1⟩, ⟨⟨1⟩, ⟨0, 0⟩, 1⟩]

/-- Six atoms in a box for five. -/
def overfull : SliceFields := ⟨0, 5, some [5], some [0]⟩

theorem placedDesign_roundTrips_boxed :
    (∀ path, parsePlacedDesign path boxedDesign.toJson.text = .ok boxedDesign) ∧
      Placements.ofJson? (.list Placement.toJson crowded) = none ∧
      Slice.ofJson? (.object [("lo", .nat 0), ("hi", .nat 5), ("shape", .list .nat [5]),
        ("start", .list .nat [0])]) = none := by
  obtain ⟨-, htext, hplacements, hslices⟩ := placedDesign_roundTrips boxedDesign_inRange
  refine ⟨htext, ?_, ?_⟩
  · exact (hplacements _ crowded (by rfl)).2 (.inr (by decide))
  · exact (hslices _ overfull (by rfl)).2 (.box ⟨[5], [0]⟩ rfl rfl rfl)

end Flow

end MulticastMesh
