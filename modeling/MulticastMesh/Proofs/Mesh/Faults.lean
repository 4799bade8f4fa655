import MulticastMesh.Mesh.Machine
import MulticastMesh.Proofs.Mesh.Grids
import MulticastMesh.Proofs.Outcomes
/-!
# Taking faults out of a machine

The faults of a description are taken out of a flattened array, one after another.  What is left
is the chip and the links that the description promises at each place: a link is there if the
chips at both of its ends are and if neither of its ends is listed as dead.
-/

namespace MulticastMesh.Mesh

open Outcome

namespace MachineSpec

def hasChip (d : MachineSpec) (c : Coord) : Bool :=
  decide (d.grid.Contains c) && !d.deadChips.contains c

def hasLink (d : MachineSpec) (c : Coord) (link : Link) : Bool :=
  match d.grid.neighbour? c link with
  | none => false
  | some n =>
    d.hasChip n && !d.deadLinks.contains (c, link) && !d.deadLinks.contains (n, link.opposite)

def chipAt? (d : MachineSpec) (c : Coord) : Option Chip :=
  if d.hasChip c then some ((d.faultlessChip c).keeping (d.hasLink c)) else none

theorem hasChip_iff {d : MachineSpec} {c : Coord} :
    d.hasChip c = true ↔ d.grid.Contains c ∧ c ∉ d.deadChips := by
  simp [hasChip]

end MachineSpec

namespace Chip

variable {chip : Chip}

theorem keeping_true : (chip.keeping fun _ => true) = chip := by
  unfold keeping
  rw [List.filter_true]

theorem keeping_keeping {p q : Link → Bool} :
    (chip.keeping p).keeping q = chip.keeping fun link => q link && p link := by
  unfold keeping
  rw [List.filter_filter]

end Chip

/-- Whether a link is one of the two ends of a wire, of which one is given. -/
def Grid.IsEnd (g : Grid) (wire : Coord × Link) (c : Coord) (link : Link) : Prop :=
  (c = wire.1 ∧ link = wire.2) ∨
    (g.neighbour? wire.1 wire.2 = some c ∧ link = wire.2.opposite)

instance (g : Grid) (wire : Coord × Link) (c : Coord) (link : Link) :
    Decidable (g.IsEnd wire c link) :=
  inferInstanceAs (Decidable (_ ∨ _))

namespace Machine

variable {d : MachineSpec} {m m' : Machine} {c e : Coord} {link : Link} {dead : List Coord}
  {cut : List (Coord × Link)}

/-! ## Look-ups in the array -/

theorem chip?_of_getElem? {chips : Array (Option Chip)} (hc : m.grid.Contains c)
    {f : Option Chip → Option Chip} (hf : f none = none)
    (hchips : ∀ i, chips[i]? = if m.grid.indexOf c = i then m.chips[i]?.map f else m.chips[i]?) :
    ({ m with chips } : Machine).chip? e = if e = c then f (m.chip? e) else m.chip? e := by
  unfold chip?
  simp only
  by_cases he : m.grid.Contains e
  · rw [if_pos he, hchips]
    simp only [Grid.indexOf_inj hc he, eq_comm (a := c)]
    split
    · cases m.chips[m.grid.indexOf e]? with
      | none => simp [hf]
      | some chip => simp
    · simp
  · simp [he, hf]

theorem getElem?_chips (hsize : m.chips.size = m.grid.width * m.grid.height) {i : Nat}
    (hi : i < m.grid.width * m.grid.height) :
    m.chips[i]? = some (m.chip? (m.grid.coordOf i)) := by
  unfold chip?
  rw [if_pos (Grid.contains_coordOf hi), Grid.indexOf_coordOf,
    Array.getElem?_eq_getElem (hsize ▸ hi)]
  rfl

/-! ## The faults one by one -/

/-- A machine without some of its chips and wires. -/
structure Lacks (d : MachineSpec) (dead : List Coord) (cut : List (Coord × Link)) (m : Machine) :
    Prop where
  grid : m.grid = d.grid
  size : m.chips.size = d.grid.width * d.grid.height
  chip? : ∀ c, m.chip? c = if d.grid.Contains c ∧ c ∉ dead then
    some ((d.faultlessChip c).keeping fun link => ∀ wire ∈ cut, ¬ d.grid.IsEnd wire c link)
    else none

theorem lacks_faultless (d : MachineSpec) : Lacks d [] [] (faultless d) where
  grid := rfl
  size := by simp [faultless, Grid.coords]
  chip? := by
    intro c
    unfold Machine.chip? faultless
    by_cases hc : d.grid.Contains c
    · have hi := Grid.indexOf_lt hc
      simp [hc, Grid.coords, hi, Grid.coordOf_indexOf hc, Chip.keeping_true]
    · simp [hc]

theorem Lacks.removeChip (h : Lacks d dead [] m) (hrun : m.removeChip c = .ok m') :
    Lacks d (dead ++ [c]) [] m' := by
  unfold Machine.removeChip at hrun
  split at hrun
  · next hc =>
      cases hrun
      refine ⟨h.grid, by simpa using h.size, fun e => ?_⟩
      rw [chip?_of_getElem? hc (f := fun _ => none) rfl, h.chip?]
      · by_cases he : e = c
        · simp [he]
        · simp [he]
      · intro i
        rw [Array.getElem?_setIfInBounds]
        split
        · next hi =>
            split
            · next hlt => simp [Array.getElem?_eq_getElem (hi ▸ hlt)]
            · next hlt => simp [Array.getElem?_eq_none (by omega : m.chips.size ≤ i)]
        · rfl
  · cases hrun

theorem removeEnd_spec (hrun : m.removeEnd c link = .ok m') :
    m.grid.Contains c ∧ m'.grid = m.grid ∧ m'.chips.size = m.chips.size ∧
      ∀ e, m'.chip? e = (m.chip? e).map fun chip =>
        chip.keeping fun other => !decide (e = c ∧ other = link) := by
  unfold removeEnd at hrun
  split at hrun
  · next hc =>
      cases hrun
      refine ⟨hc, rfl, by simp, fun e => ?_⟩
      rw [chip?_of_getElem? hc rfl fun i => by rw [Array.getElem?_modify]]
      by_cases he : e = c
      · simp [he, bne, beq_eq_decide]
      · simp [he, Chip.keeping_true]
  · cases hrun

theorem removeWire_spec (hrun : m.removeWire c link = .ok m') :
    m.grid.Contains c ∧ m'.grid = m.grid ∧ m'.chips.size = m.chips.size ∧
      ∀ e, m'.chip? e = (m.chip? e).map fun chip =>
        chip.keeping fun other => ¬ m.grid.IsEnd (c, link) e other := by
  obtain ⟨m₁, hfirst, hrun⟩ := bind_eq_ok.1 hrun
  obtain ⟨hc, hgrid, hsize, hchip⟩ := removeEnd_spec hfirst
  unfold neighbour? at hrun
  rw [hgrid] at hrun
  cases hn : m.grid.neighbour? c link with
  | none =>
      rw [hn] at hrun
      cases pure_eq_ok.1 hrun
      refine ⟨hc, hgrid, hsize, fun e => ?_⟩
      rw [hchip]
      simp [Grid.IsEnd, hn]
  | some n =>
      rw [hn] at hrun
      obtain ⟨_, hgrid', hsize', hchip'⟩ := removeEnd_spec hrun
      refine ⟨hc, hgrid'.trans hgrid, hsize'.trans hsize, fun e => ?_⟩
      rw [hchip', hchip, Option.map_map]
      congr 1
      funext chip
      rw [Function.comp_apply, Chip.keeping_keeping]
      congr 1
      funext other
      simp [Grid.IsEnd, hn, Bool.and_comm, eq_comm (a := e)]

theorem Lacks.removeWire (h : Lacks d dead cut m) (hrun : m.removeWire c link = .ok m') :
    Lacks d dead (cut ++ [(c, link)]) m' ∧ d.grid.Contains c := by
  obtain ⟨hc, hgrid, hsize, hchip⟩ := removeWire_spec hrun
  rw [h.grid] at hc
  refine ⟨⟨hgrid.trans h.grid, hsize.trans h.size, fun e => ?_⟩, hc⟩
  rw [hchip, h.chip?, h.grid]
  split
  · rw [Option.map_some, Chip.keeping_keeping]
    congr 2
    funext other
    rw [Bool.eq_iff_iff, Bool.and_eq_true, decide_eq_true_iff, decide_eq_true_iff,
      decide_eq_true_iff, List.forall_mem_append, List.forall_mem_singleton]
    exact and_comm
  · rfl

/-! ## The links that are left -/

/-- A link that leads somewhere is an end of one of some wires if it, or the link back, is listed
among them. -/
theorem exists_isEnd_iff {n : Coord} (hc : d.grid.Contains c)
    (hn : d.grid.neighbour? c link = some n) (hcut : ∀ wire ∈ cut, d.grid.Contains wire.1) :
    (∃ wire ∈ cut, d.grid.IsEnd wire c link) ↔ (c, link) ∈ cut ∨ (n, link.opposite) ∈ cut := by
  constructor
  · rintro ⟨⟨c', link'⟩, hwire, ⟨rfl, rfl⟩ | ⟨hc', rfl⟩⟩
    · exact Or.inl hwire
    · have hback := Grid.neighbour?_opposite (hcut _ hwire) hc'
      simp only at hback
      rw [hn] at hback
      cases hback
      rw [Link.opposite_opposite]
      exact Or.inr hwire
  · rintro (hwire | hwire)
    · exact ⟨_, hwire, Or.inl ⟨rfl, rfl⟩⟩
    · exact ⟨_, hwire, Or.inr ⟨Grid.neighbour?_opposite hc hn, (Link.opposite_opposite link).symm⟩⟩

theorem chip?_removeLooseEnds (m : Machine) (c : Coord) : m.removeLooseEnds.chip? c =
    (m.chip? c).map fun chip => chip.keeping (m.leadsToChip chip.coord) := by
  unfold removeLooseEnds chip?
  simp only
  split
  · simp only [Array.getElem?_map]
    cases m.chips[m.grid.indexOf c]? with
    | none => rfl
    | some chip => rfl
  · rfl

theorem Lacks.isSome_chip? (h : Lacks d d.deadChips cut m) (c : Coord) :
    (m.chip? c).isSome = d.hasChip c := by
  rw [Bool.eq_iff_iff, MachineSpec.hasChip_iff, h.chip?]
  split
  · next hc => simp [hc]
  · next hc => simp [hc]

theorem Lacks.hasLink_iff (h : Lacks d d.deadChips d.deadLinks m) (hc : d.grid.Contains c)
    (hcut : ∀ wire ∈ d.deadLinks, d.grid.Contains wire.1) :
    m.leadsToChip c link = true ∧ (∀ wire ∈ d.deadLinks, ¬ d.grid.IsEnd wire c link) ↔
      d.hasLink c link = true := by
  unfold leadsToChip neighbour? MachineSpec.hasLink
  rw [h.grid]
  cases hn : d.grid.neighbour? c link with
  | none => simp
  | some n =>
      have hends := exists_isEnd_iff hc hn hcut
      rw [← not_iff_not] at hends
      simp only [not_exists, not_and, not_or] at hends
      rw [hends]
      simp [h.isSome_chip?, and_assoc]

theorem Lacks.chip?_removeLooseEnds (h : Lacks d d.deadChips d.deadLinks m)
    (hcut : ∀ wire ∈ d.deadLinks, d.grid.Contains wire.1) (c : Coord) :
    m.removeLooseEnds.chip? c = d.chipAt? c := by
  rw [Machine.chip?_removeLooseEnds, h.chip?]
  unfold MachineSpec.chipAt?
  simp only [MachineSpec.hasChip_iff]
  split
  · next hc =>
      rw [Option.map_some, Chip.keeping_keeping]
      congr 2
      funext link
      rw [Bool.eq_iff_iff, ← h.hasLink_iff hc.1 hcut]
      simp [Chip.keeping, MachineSpec.faultlessChip]
  · rfl

end Machine

end MulticastMesh.Mesh
