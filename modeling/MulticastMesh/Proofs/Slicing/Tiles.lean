import Mathlib.Algebra.Order.Group.Nat
import MulticastMesh.Proofs.Outcomes
import MulticastMesh.Slicing.Cut
/-!
# Slices that tile the atoms of a vertex

Whatever rule cuts a team, its slices follow each other without a gap from the first atom to the
last, and none of them is longer than any member allows.  Only a listed slice that ends at the last
atom there can be would not be seen for what it is: its length may count as 0, and the next slice
starts again at atom 0.
-/

namespace MulticastMesh.Slicing

open MulticastMesh.Graph (ApplicationVertex Slice Splitter)
open Outcome

variable {lo hi : Nat} {s : Slice} {l : List Slice} {t : Team}

/-- The slices hold the atoms from `lo` on and before `hi`, each slice from where the one before
it ends. -/
def Tiles : (lo hi : Nat) → List Slice → Prop
  | lo, hi, [] => lo = hi
  | lo, hi, s :: rest => s.lo = lo ∧ Tiles (s.hi + 1) hi rest

theorem Tiles.le (h : Tiles lo hi l) : lo ≤ hi := by
  induction l generalizing lo with
  | nil => exact Nat.le_of_eq h
  | cons s rest ih =>
      obtain ⟨hlo, hrest⟩ := h
      have hnext := ih hrest
      have hslice := s.lo_le_hi
      omega

theorem Tiles.eq_nil (h : Tiles lo lo l) : l = [] := by
  cases l with
  | nil => rfl
  | cons s rest =>
      obtain ⟨hlo, hrest⟩ := h
      have hnext := hrest.le
      have hslice := s.lo_le_hi
      omega

/-- No slice has more atoms than all of them together. -/
theorem Tiles.atoms_le (h : Tiles lo hi l) (hs : s ∈ l) : s.atoms ≤ hi - lo := by
  induction l generalizing lo with
  | nil => cases hs
  | cons first rest ih =>
      obtain ⟨rfl, hrest⟩ := h
      have hnext := hrest.le
      have hslice := first.lo_le_hi
      rcases List.mem_cons.1 hs with rfl | hs
      · unfold Slice.atoms
        omega
      · have hle := ih hrest hs
        omega

theorem Tiles.flatMap_toList (h : Tiles lo hi l) :
    l.flatMap Slice.toList = List.range' lo (hi - lo) := by
  induction l generalizing lo with
  | nil =>
      have hend : lo = hi := h
      simp [hend]
  | cons s rest ih =>
      obtain ⟨rfl, hrest⟩ := h
      have hslice := s.lo_le_hi
      have hnext := hrest.le
      have hlength : s.atoms = s.hi + 1 - s.lo := by
        unfold Slice.atoms
        omega
      have hrestart : s.lo + s.atoms = s.hi + 1 := by omega
      have hsum : hi - s.lo = s.atoms + (hi - (s.hi + 1)) := by omega
      calc (s :: rest).flatMap Slice.toList
          = List.range' s.lo s.atoms ++ List.range' (s.lo + s.atoms) (hi - (s.hi + 1)) := by
            rw [List.flatMap_cons, ih hrest, hrestart, Slice.toList]
        _ = List.range' s.lo (hi - s.lo) := by
            rw [hsum, List.range'_append_1]

/-! ## Lengths picked by a rule -/

theorem atoms_ofLength {n : Nat} (hn : 0 < n) : (Slice.ofLength lo n).atoms = n := by
  change lo + (n - 1) - lo + 1 = n
  omega

theorem tiles_tile (length : Nat → Nat) (fuel lo left : Nat) (hfuel : left ≤ fuel) :
    Tiles lo (lo + left) (tile length fuel lo left) := by
  induction fuel generalizing lo left with
  | zero =>
      have hleft : left = 0 := Nat.le_zero.1 hfuel
      subst hleft
      rfl
  | succ fuel ih =>
      cases left with
      | zero => rfl
      | succ left =>
          let n := max 1 (min (length (left + 1)) (left + 1))
          have hpos : 1 ≤ n := Nat.le_max_left _ _
          have hle : n ≤ left + 1 := Nat.max_le.2 ⟨by omega, Nat.min_le_right _ _⟩
          have hrest := ih (lo + n) (left + 1 - n) (by omega)
          have hend : lo + n + (left + 1 - n) = lo + (left + 1) := by omega
          have hnext : lo + (n - 1) + 1 = lo + n := by omega
          rw [hend] at hrest
          refine ⟨rfl, ?_⟩
          change Tiles (lo + (n - 1) + 1) _ _
          rw [hnext]
          exact hrest

theorem tiles_tile_all (length : Nat → Nat) (atoms : Nat) :
    Tiles 0 atoms (tile length atoms 0 atoms) := by
  have hall := tiles_tile length atoms 0 atoms (Nat.le_refl atoms)
  rwa [Nat.zero_add] at hall

theorem atoms_le_of_mem_tile {length : Nat → Nat} {limit : Nat} (hlimit : 1 ≤ limit)
    (hlength : ∀ left, 0 < left → length left ≤ limit) (fuel lo left : Nat)
    (hs : s ∈ tile length fuel lo left) : s.atoms ≤ limit := by
  induction fuel generalizing lo left with
  | zero => cases hs
  | succ fuel ih =>
      cases left with
      | zero => cases hs
      | succ left =>
          rcases List.mem_cons.1 hs with rfl | hrest
          · have hpick := hlength (left + 1) (Nat.succ_pos left)
            rw [atoms_ofLength (by omega)]
            omega
          · exact ih _ _ hrest

theorem bisect_le (fits : Nat → Bool) (fuel good bad : Nat) (h : good ≤ bad) :
    bisect fits fuel good bad ≤ bad := by
  induction fuel generalizing good bad with
  | zero => exact h
  | succ fuel ih =>
      unfold bisect
      split
      · simp only
        split
        · exact ih _ _ (by omega)
        · exact (ih _ _ (by omega)).trans (by omega)
      · exact h

theorem greatestFit_le (fits : Nat → Bool) {limit : Nat} (h : 1 ≤ limit) :
    greatestFit fits limit ≤ limit := by
  unfold greatestFit
  split
  · exact Nat.le_refl limit
  · exact bisect_le fits limit 1 limit h

/-! ## The three rules -/

def listed : Splitter → List (Nat × Nat)
  | .applicationDefined intervals _ => intervals
  | _ => []

/-- A vertex whose atoms can be counted, and which lists no slice that ends at atom `2 ^ 32 - 1`.
The vertex has no such atom, but the program does not always see that. -/
structure Counted (w : ApplicationVertex) : Prop where
  atoms : w.atoms < UInt32.size
  ends : ∀ interval ∈ listed w.splitter, interval.2 + 1 < UInt32.size

instance : DecidablePred Counted := fun _ =>
  decidable_of_iff (_ ∧ _) ⟨fun h => ⟨h.1, h.2⟩, fun h => ⟨h.atoms, h.ends⟩⟩

theorem legacySlices_spec (hmax : t.maxAtoms ≠ 0) (h : legacySlices t = .ok l) :
    Tiles 0 t.first.vertex.atoms l ∧ ∀ s ∈ l, s.atoms ≤ t.maxAtoms := by
  unfold legacySlices at h
  split at h
  · cases h
  · cases h
    refine ⟨tiles_tile_all _ _, ?_⟩
    intro s hs
    refine atoms_le_of_mem_tile (Nat.one_le_iff_ne_zero.2 hmax) ?_ _ _ _ hs
    intro left hleft
    exact (greatestFit_le t.fits (by omega)).trans (Nat.min_le_left _ _)

/-- Listed slices, none of which ends at the last atom there can be. -/
theorem listedSlices_spec {label : String} {limit covered : Nat} {intervals : List (Nat × Nat)}
    (hends : ∀ interval ∈ intervals, interval.2 + 1 < UInt32.size)
    (h : listedSlices label limit lo intervals = .ok (covered, l)) :
    Tiles lo covered l ∧ ∀ s ∈ l, s.atoms ≤ limit := by
  induction intervals generalizing lo l with
  | nil =>
      cases h
      exact ⟨rfl, by simp⟩
  | cons interval intervals ih =>
      obtain ⟨first, last⟩ := interval
      obtain ⟨hend, hends⟩ := List.forall_mem_cons.1 hends
      change last + 1 < UInt32.size at hend
      unfold listedSlices at h
      split at h
      · cases h
      · next hfirst =>
          obtain ⟨s, hslice, h⟩ := bind_eq_ok.1 h
          have hs : s.lo = lo ∧ s.hi = last := by
            have hinterval := lift_eq_ok.1 hslice
            unfold Slice.ofInterval at hinterval
            split at hinterval
            · cases hinterval
              exact ⟨Classical.not_not.1 hfirst, rfl⟩
            · cases hinterval
          split at h
          · cases h
          · next hlong =>
              obtain ⟨⟨end', rest⟩, hrest, h⟩ := bind_eq_ok.1 h
              cases pure_eq_ok.1 h
              obtain ⟨htiles, hlimit⟩ := ih hends hrest
              rw [Nat.mod_eq_of_lt hend] at htiles
              have hcount : s.count = s.atoms := by
                refine Slice.count_eq ?_
                unfold Slice.atoms
                omega
              refine ⟨⟨hs.1, hs.2 ▸ htiles⟩, ?_⟩
              rw [List.forall_mem_cons]
              exact ⟨hcount ▸ Nat.le_of_not_lt hlong, hlimit⟩

theorem Team.slices_spec (hfirst : Counted t.first.vertex) (h : t.slices = .ok l) :
    Tiles 0 t.first.vertex.atoms l ∧ ∀ s ∈ l, s.atoms ≤ t.maxAtoms := by
  unfold Team.slices at h
  simp only at h
  split at h
  · cases h
  · next hmax =>
      split at h
      · exact legacySlices_spec hmax (lift_eq_ok.1 h)
      · next size _ =>
          split at h
          · cases h
          · cases pure_eq_ok.1 h
            refine ⟨tiles_tile_all _ _, ?_⟩
            intro s hs
            exact atoms_le_of_mem_tile (Nat.one_le_iff_ne_zero.2 hmax)
              (fun _ _ => Nat.min_le_right _ _) _ _ _ hs
      · next intervals sameChip hsplitter =>
          obtain ⟨⟨covered, slices⟩, hlisted, h⟩ := bind_eq_ok.1 h
          simp only at h
          split at h
          · cases h
          · next hcovered =>
              cases pure_eq_ok.1 h
              exact Classical.not_not.1 hcovered ▸
                listedSlices_spec (by simpa [hsplitter, listed] using hfirst.ends) hlisted

theorem Team.maxAtoms_le {m : Member} (hm : m ∈ t.members) :
    t.maxAtoms ≤ m.vertex.maxAtomsPerCore := by
  have hmem : m.vertex.maxAtomsPerCore ∈ t.members.map fun m => m.vertex.maxAtomsPerCore :=
    List.mem_map.2 ⟨m, hm, rfl⟩
  unfold Team.maxAtoms
  cases hmin : (t.members.map fun m => m.vertex.maxAtomsPerCore).min? with
  | none =>
      rw [List.min?_eq_none_iff] at hmin
      rw [hmin] at hmem
      cases hmem
  | some n => exact (List.min?_eq_some_iff.1 hmin).2 _ hmem

end MulticastMesh.Slicing
