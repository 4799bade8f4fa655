import MulticastMesh.Format.Machine
import MulticastMesh.Proofs.Json.Records
/-!
# Machine descriptions are kept by their format

A description is kept if its numbers have the widths that the format reads.
-/

namespace MulticastMesh.Mesh

open Json

variable (room : Nat)

def Coord.InRange (c : Coord) : Prop := c.x < UInt32.size ∧ c.y < UInt32.size

instance : DecidablePred Coord.InRange := fun _ => inferInstanceAs (Decidable (_ ∧ _))

theorem Coord.keeps {c : Coord} (h : c.InRange) :
    Keeps Coord.toJson Coord.ofJson? (room + 1) c := by
  have hx := keeps_nat32 room h.1
  have hy := keeps_nat32 room h.2
  refine keeps_record rfl (fun _ => rfl) (by simp [hx.fits, hy.fits]) (by simp) (by simp) ?_
  simp [Fields.required, hx.back, hy.back]

theorem Link.keeps (l : Link) : Keeps Link.toJson Link.ofJson? room l :=
  ⟨(keeps_string room l.name).fits, by cases l <;> rfl⟩

def ChipSpec.InRange (c : ChipSpec) : Prop :=
  c.processors < UInt8.size ∧ c.monitors < UInt8.size ∧ c.sdram < UInt64.size ∧
    c.routerEntries < UInt32.size ∧ c.cyclesPerCore < UInt64.size

instance : DecidablePred ChipSpec.InRange := fun _ => inferInstanceAs (Decidable (_ ∧ _))

theorem ChipSpec.keeps {c : ChipSpec} (h : c.InRange) :
    Keeps ChipSpec.toJson ChipSpec.ofJson? (room + 1) c := by
  obtain ⟨hprocessors, hmonitors, hsdram, hentries, hcycles⟩ := h
  replace hprocessors := keeps_nat8 room hprocessors
  replace hmonitors := keeps_nat8 room hmonitors
  replace hsdram := keeps_nat64 room hsdram
  replace hentries := keeps_nat32 room hentries
  replace hcycles := keeps_nat64 room hcycles
  refine keeps_record rfl (fun _ => rfl)
    (by simp [hprocessors.fits, hmonitors.fits, hsdram.fits, hentries.fits, hcycles.fits])
    (by simp) (by simp) ?_
  simp [Fields.defaulted, hprocessors.back, hmonitors.back, hsdram.back, hentries.back,
    hcycles.back]

def MachineSpec.InRange (d : MachineSpec) : Prop :=
  d.width < UInt32.size ∧ d.height < UInt32.size ∧ d.boardWidth < UInt32.size ∧
    d.boardHeight < UInt32.size ∧ d.chip.InRange ∧ (∀ c ∈ d.deadChips, c.InRange) ∧
    ∀ end_ ∈ d.deadLinks, end_.1.InRange

instance : DecidablePred MachineSpec.InRange := fun _ => inferInstanceAs (Decidable (_ ∧ _))

theorem MachineSpec.keeps {d : MachineSpec} (h : d.InRange) :
    Keeps MachineSpec.toJson MachineSpec.ofJson? (room + 4) d := by
  obtain ⟨hwidth, hheight, hboardWidth, hboardHeight, hchip, hchips, hlinks⟩ := h
  replace hwidth := keeps_nat32 (room + 3) hwidth
  replace hheight := keeps_nat32 (room + 3) hheight
  have hwraps := keeps_bool (room + 3) d.wraps
  replace hboardWidth := keeps_nat32 (room + 3) hboardWidth
  replace hboardHeight := keeps_nat32 (room + 3) hboardHeight
  replace hchip := ChipSpec.keeps (room + 2) hchip
  replace hchips := Keeps.list fun c hc => Coord.keeps (room + 1) (hchips c hc)
  replace hlinks := Keeps.list fun end_ hend =>
    (Coord.keeps room (hlinks end_ hend)).pair (Link.keeps _ end_.2)
  refine keeps_record rfl (fun _ => rfl)
    (by simp [hwidth.fits, hheight.fits, hwraps.fits, hboardWidth.fits, hboardHeight.fits,
      hchip.fits, hchips.fits, hlinks.fits])
    (by simp) (by simp) ?_
  simp [Fields.required, Fields.defaulted, hwidth.back, hheight.back, hwraps.back, hboardWidth.back,
    hboardHeight.back, hchip.back, hchips.back, hlinks.back]

end MulticastMesh.Mesh
