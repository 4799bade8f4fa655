import MulticastMesh.Proofs.Mesh.Machines
/-!
# Links work in both directions

Whatever the faults of a machine are, and also where a narrow torus leads a chip to itself or to
one chip over several links, a link works if and only if its opposite at the other end does.
-/

namespace MulticastMesh.Mesh

open Outcome

variable {d : MachineSpec} {m : Machine} {a b : Coord} {link : Link}

theorem MachineSpec.Joins.symm (h : d.Joins a link b) : d.Joins b link.opposite a where
  neighbour := Grid.neighbour?_opposite h.start_inside h.neighbour
  start_inside := h.end_inside
  start_works := h.end_works
  end_inside := h.start_inside
  end_works := h.start_works
  forth := h.back
  back := by
    rw [Link.opposite_opposite]
    exact h.forth

theorem MachineSpec.joins_comm : d.Joins a link b ↔ d.Joins b link.opposite a := by
  constructor
  · exact MachineSpec.Joins.symm
  · intro h
    have hback := h.symm
    rwa [Link.opposite_opposite] at hback

namespace Machine

/-- A link leads from one chip to another if and only if its opposite leads back, and that is so
exactly for the wires that no fault touches. -/
theorem linkTarget?_symmetric (h : ofSpec d = .ok m) (a b : Coord) (link : Link) :
    (m.linkTarget? a link = some b ↔ m.linkTarget? b link.opposite = some a) ∧
      (m.linkTarget? a link = some b ↔ d.Joins a link b) := by
  have hm := ofSpec_spec h
  rw [hm.linkTarget?_iff, hm.linkTarget?_iff]
  exact ⟨MachineSpec.joins_comm, Iff.rfl⟩

/-- A torus that is two places wide, so that east and west lead to the same chip, with a dead chip
and a dead wire. -/
def narrowTorus : MachineSpec where
  width := 2
  height := 2
  wraps := true
  deadChips := [⟨1, 1⟩]
  deadLinks := [(⟨0, 0⟩, .east), (⟨1, 0⟩, .north)]

theorem linkTarget?_symmetric_narrowTorus : ∃ m, ofSpec narrowTorus = .ok m ∧
    (m.linkTarget? ⟨0, 0⟩ .west = some ⟨1, 0⟩ ↔ m.linkTarget? ⟨1, 0⟩ .east = some ⟨0, 0⟩) ∧
    (m.linkTarget? ⟨0, 0⟩ .west = some ⟨1, 0⟩ ↔ narrowTorus.Joins ⟨0, 0⟩ .west ⟨1, 0⟩) := by
  obtain ⟨m, hm⟩ := exists_of_isOk (show (ofSpec narrowTorus).isOk = true by decide +kernel)
  exact ⟨m, hm, linkTarget?_symmetric hm ⟨0, 0⟩ ⟨1, 0⟩ .west⟩

end Machine

end MulticastMesh.Mesh
