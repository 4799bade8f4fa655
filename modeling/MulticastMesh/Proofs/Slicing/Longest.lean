import Mathlib.Algebra.Group.Action.Defs
import Mathlib.Algebra.GroupWithZero.Nat
import Mathlib.Algebra.Order.BigOperators.Group.List
import Mathlib.Order.Bounds.Basic
import MulticastMesh.Proofs.Slicing.Tiles
/-!
# The longest slices that fit

As long as no cost is cut off at 64 bits, what fits a core still fits with fewer atoms, so halving
finds the greatest number of atoms that all members of a team can run.  Slices of that length, with
what is left in the last one, are as few as slices can be.
-/

namespace MulticastMesh.Slicing

open MulticastMesh.Graph (CostModel CoreBudget Slice)

variable {t : Team} {fits : Nat → Bool} {limit n n' lo hi : Nat} {l l' : List Slice}

/-- Every member of a team can run some number of atoms on one core. -/
def Team.CanRun (t : Team) (n : Nat) : Prop :=
  ∀ m ∈ t.members, (m.resources n).fitsCore t.budget = true

/-- Slices of all atoms of a team, each short enough for every member. -/
structure Team.Allows (t : Team) (l : List Slice) : Prop where
  tiles : Tiles 0 t.first.vertex.atoms l
  limit : ∀ s ∈ l, s.atoms ≤ t.maxAtoms
  canRun : ∀ s ∈ l, t.CanRun s.atoms

/-- The needs of every member can be computed with 64 bits, even for all of its atoms. -/
def Team.CostsFit (t : Team) : Prop :=
  ∀ m ∈ t.members, m.vertex.cost.sdram t.first.vertex.atoms m.incomingAtoms < UInt64.size ∧
    m.vertex.cost.cycles t.first.vertex.atoms < UInt64.size

def Team.Longest (t : Team) (n : Nat) : Prop :=
  IsGreatest {n | n ≤ min t.maxAtoms t.first.vertex.atoms ∧ t.CanRun n} n

/-! ## What fits -/

theorem misfit?_eq_none_iff : t.misfit? n = none ↔ t.CanRun n := by
  unfold Team.misfit? Team.CanRun
  rw [List.find?_eq_none]
  simp

theorem fits_iff : t.fits n = true ↔ t.CanRun n := by
  rw [Team.fits, Option.isNone_iff_eq_none, misfit?_eq_none_iff]

theorem sdram_le_sdram (cost : CostModel) (incoming : Nat) (h : n ≤ n') :
    cost.sdram n incoming ≤ cost.sdram n' incoming := by
  have hatoms := Nat.mul_le_mul_left cost.sdramPerAtom h
  have hsynapses := Nat.mul_le_mul_left (cost.sdramPerSynapse * incoming) h
  unfold CostModel.sdram
  omega

theorem cycles_le_cycles (cost : CostModel) (h : n ≤ n') : cost.cycles n ≤ cost.cycles n' :=
  Nat.add_le_add_left (Nat.mul_le_mul_left cost.cyclesPerAtom h) cost.fixedCycles

/-- Fewer atoms need no more of anything. -/
theorem fitsCore_of_le {cost : CostModel} {budget : CoreBudget} {incoming : Nat} (h : n ≤ n')
    (hsdram : cost.sdram n' incoming < UInt64.size) (hcycles : cost.cycles n' < UInt64.size)
    (hfits : (cost.resources n' incoming).fitsCore budget = true) :
    (cost.resources n incoming).fitsCore budget = true := by
  obtain ⟨hcores, hmemory, htime⟩ := of_decide_eq_true hfits
  simp only [CostModel.resources, Nat.mod_eq_of_lt hsdram, Nat.mod_eq_of_lt hcycles]
    at hmemory htime
  refine decide_eq_true ⟨hcores, ?_, ?_⟩
  · calc cost.sdram n incoming % UInt64.size
        ≤ cost.sdram n incoming := Nat.mod_le _ _
      _ ≤ cost.sdram n' incoming := sdram_le_sdram cost incoming h
      _ ≤ budget.sdram := hmemory
  · calc cost.cycles n % UInt64.size
        ≤ cost.cycles n := Nat.mod_le _ _
      _ ≤ cost.cycles n' := cycles_le_cycles cost h
      _ ≤ budget.cycles := htime

theorem Team.CanRun.mono (hcosts : t.CostsFit) (hrun : t.CanRun n')
    (hall : n' ≤ t.first.vertex.atoms) (h : n ≤ n') : t.CanRun n := by
  intro m hm
  obtain ⟨hsdram, hcycles⟩ := hcosts m hm
  exact fitsCore_of_le h ((sdram_le_sdram _ _ hall).trans_lt hsdram)
    ((cycles_le_cycles _ hall).trans_lt hcycles) (hrun m hm)

theorem fits_mono (hcosts : t.CostsFit) (h : n ≤ n') (hall : n' ≤ t.first.vertex.atoms)
    (hfits : t.fits n' = true) : t.fits n = true :=
  fits_iff.2 ((fits_iff.1 hfits).mono hcosts hall h)

/-! ## Halving -/

/-- The two ends keep their sides, and in the end they stand next to each other. -/
theorem bisect_spec {fuel good bad : Nat} (hlt : good < bad) (hfuel : bad - good ≤ fuel)
    (hgood : fits good = true) (hbad : fits bad = false) :
    fits (bisect fits fuel good bad) = true ∧ fits (bisect fits fuel good bad + 1) = false := by
  induction fuel generalizing good bad with
  | zero => omega
  | succ fuel ih =>
      unfold bisect
      split
      · simp only
        cases hmid : fits (good + (bad - good) / 2) with
        | true =>
            rw [if_pos rfl]
            exact ih (by omega) (by omega) hmid hbad
        | false =>
            rw [if_neg (by simp)]
            exact ih (by omega) (by omega) hgood hmid
      · have hnext : bad = good + 1 := by omega
        exact ⟨hgood, hnext ▸ hbad⟩

theorem isGreatest_greatestFit
    (hmono : ∀ n n', n ≤ n' → n' ≤ limit → fits n' = true → fits n = true)
    (hlimit : 1 ≤ limit) (hone : fits 1 = true) :
    IsGreatest {n | n ≤ limit ∧ fits n = true} (greatestFit fits limit) := by
  have hle := greatestFit_le fits hlimit
  revert hle
  unfold greatestFit
  cases hall : fits limit with
  | true =>
      rw [if_pos rfl]
      exact fun hle => ⟨⟨hle, hall⟩, fun n hn => hn.1⟩
  | false =>
      rw [if_neg (by simp)]
      intro hle
      have hlt : 1 < limit := by
        refine lt_of_le_of_ne hlimit ?_
        rintro rfl
        rw [hone] at hall
        cases hall
      obtain ⟨hfits, hnext⟩ := bisect_spec hlt (Nat.sub_le limit 1) hone hall
      refine ⟨⟨hle, hfits⟩, fun n hn => ?_⟩
      by_contra hgt
      have hback := hmono (bisect fits limit 1 limit + 1) n (by omega) hn.1 hn.2
      rw [hnext] at hback
      cases hback

/-- With fewer atoms left, the greatest length is the same or all that is left. -/
theorem min_isGreatest {most left atoms : Nat}
    (hmono : ∀ n n', n ≤ n' → n' ≤ atoms → fits n' = true → fits n = true) (hleft : left ≤ atoms)
    (hn : IsGreatest {n | n ≤ min most atoms ∧ fits n = true} n)
    (hn' : IsGreatest {n | n ≤ min most left ∧ fits n = true} n') : n' = min n left := by
  obtain ⟨⟨hle, hfits⟩, hmost⟩ := hn
  refine hn'.unique ⟨⟨?_, hmono _ n (Nat.min_le_left _ _) (by omega) hfits⟩, ?_⟩
  · omega
  · rintro k ⟨hk, hkfits⟩
    have hkn := hmost ⟨show k ≤ min most atoms by omega, hkfits⟩
    omega

/-! ## Slices of one length -/

theorem tile_congr {length length' : Nat → Nat} {fuel left : Nat}
    (h : ∀ n, 1 ≤ n → n ≤ left → min (length n) n = min (length' n) n) :
    tile length fuel lo left = tile length' fuel lo left := by
  induction fuel generalizing lo left with
  | zero => rfl
  | succ fuel ih =>
      cases left with
      | zero => rfl
      | succ left =>
          unfold tile
          rw [h (left + 1) (by omega) le_rfl]
          simp only
          rw [ih fun n hn hle => h n hn (by omega)]

/-- Only the last slice can be shorter than the others. -/
theorem atoms_of_mem_dropLast_tile {size fuel left : Nat} (hsize : 1 ≤ size) {s : Slice}
    (hs : s ∈ (tile (fun _ => size) fuel lo left).dropLast) : s.atoms = size := by
  induction fuel generalizing lo left with
  | zero => cases hs
  | succ fuel ih =>
      cases left with
      | zero => cases hs
      | succ left =>
          unfold tile at hs
          by_cases hlast : left + 1 ≤ size
          · have hn : max 1 (min size (left + 1)) = left + 1 := by omega
            have hnone : tile (fun _ => size) fuel (lo + (left + 1)) 0 = [] := by
              cases fuel <;> rfl
            simp [hn, hnone] at hs
          · have hn : max 1 (min size (left + 1)) = size := by omega
            rw [hn] at hs
            simp only at hs
            rw [List.dropLast_cons_of_ne_nil ?_] at hs
            · rcases List.mem_cons.1 hs with rfl | hrest
              · exact atoms_ofLength hsize
              · exact ih hrest
            · intro hnil
              simp [hnil] at hs

theorem Tiles.sum_atoms (h : Tiles lo hi l) : (l.map Slice.atoms).sum = hi - lo := by
  have hlength := congrArg List.length h.flatMap_toList
  rw [List.length_flatMap, List.length_range'] at hlength
  rw [← hlength]
  congr 1
  exact List.map_congr_left fun s _ => (List.length_range' ..).symm

/-- Slices of one length, but for the last one, are as few as slices of at most that length. -/
theorem Tiles.length_le (h : Tiles lo hi l) (hfull : ∀ s ∈ l.dropLast, s.atoms = n)
    (h' : Tiles lo hi l') (hle : ∀ s ∈ l', s.atoms ≤ n) : l.length ≤ l'.length := by
  rcases List.eq_nil_or_concat' l with rfl | ⟨front, last, rfl⟩
  · exact Nat.zero_le _
  rw [List.dropLast_concat] at hfull
  have hfront : (front.map Slice.atoms).sum = front.length * n := by
    rw [List.eq_replicate_of_mem (a := n) (l := front.map Slice.atoms) (by simpa using hfull),
      List.sum_replicate, List.length_map, smul_eq_mul]
  have hpos : 0 < last.atoms := Nat.succ_pos _
  have hsum := h.sum_atoms
  rw [List.map_append, List.sum_append, hfront, List.map_singleton, List.sum_singleton] at hsum
  have hsum' : (l'.map Slice.atoms).sum ≤ l'.length * n := by
    have hbound := List.sum_le_card_nsmul (l'.map Slice.atoms) n (by simpa using hle)
    rwa [List.length_map, smul_eq_mul] at hbound
  rw [h'.sum_atoms] at hsum'
  have hlt : front.length * n < l'.length * n := by omega
  rw [List.length_append, List.length_singleton]
  exact Nat.lt_of_mul_lt_mul_right hlt

/-! ## The slices of a team -/

theorem exists_legacySlices_iff : (∃ l, legacySlices t = .ok l) ↔ t.CanRun 1 := by
  unfold legacySlices
  rw [← misfit?_eq_none_iff]
  cases t.misfit? 1 <;> simp

theorem legacySlices_eq (hcosts : t.CostsFit) (hmax : 0 < t.maxAtoms) (hn : t.Longest n)
    (hone : t.CanRun 1) : legacySlices t = .ok (evenSlices t.first.vertex.atoms n) := by
  unfold legacySlices evenSlices
  rw [misfit?_eq_none_iff.2 hone]
  simp only [Except.ok.injEq]
  apply tile_congr
  intro left hleft hle
  unfold Team.Longest at hn
  simp only [← fits_iff] at hn
  have hgreatest := isGreatest_greatestFit
    (fun _ _ h hlimit => fits_mono hcosts h (by omega)) (show 1 ≤ min t.maxAtoms left by omega)
    (fits_iff.2 hone)
  rw [min_isGreatest (fun _ _ => fits_mono hcosts) hle hn hgreatest, min_assoc, min_self]

theorem exists_longest (hcosts : t.CostsFit) (hatoms : 0 < t.first.vertex.atoms)
    (hmax : 0 < t.maxAtoms) (hone : t.CanRun 1) : ∃ n, 1 ≤ n ∧ t.Longest n := by
  have hgreatest := isGreatest_greatestFit
    (fun _ _ h hlimit => fits_mono hcosts h (hlimit.trans (Nat.min_le_right _ _)))
    (show 1 ≤ min t.maxAtoms t.first.vertex.atoms by omega) (fits_iff.2 hone)
  refine ⟨_, hgreatest.2 ⟨?_, fits_iff.2 hone⟩, ?_⟩
  · omega
  · simp only [fits_iff] at hgreatest
    exact hgreatest

/-- Two members that run out of different things. -/
def mixedTeam : Team where
  first := {
    id := ⟨0⟩
    vertex := {
      label := "a"
      atoms := 10
      maxAtoms? := some 7
      cost := { fixedSdram := 2, sdramPerAtom := 3 } }
    incomingAtoms := 0 }
  others := [{
    id := ⟨1⟩
    vertex := {
      label := "b"
      atoms := 10
      cost := { sdramPerSynapse := 1, cyclesPerAtom := 5 } }
    incomingAtoms := 2 }]
  budget := { sdram := 20, cycles := 20 }

end MulticastMesh.Slicing
