import MulticastMesh.Mesh.Grid
/-!
# Places and their neighbours

Places of a grid are numbered without gap or repetition.  A step over a link is undone by a step
over the opposite link, also around a torus that is one or two places wide.
-/

namespace MulticastMesh.Mesh.Grid

variable {g : Grid} {b c n : Coord} {link : Link}

theorem indexOf_lt (h : g.Contains c) : g.indexOf c < g.width * g.height := by
  obtain ⟨hx, hy⟩ := h
  have hrow : (c.y + 1) * g.width ≤ g.height * g.width := Nat.mul_le_mul_right _ hy
  unfold indexOf
  rw [Nat.mul_comm g.width]
  rw [Nat.add_mul] at hrow
  omega

theorem coordOf_indexOf (h : g.Contains c) : g.coordOf (g.indexOf c) = c := by
  obtain ⟨hx, _⟩ := h
  have hpos : 0 < g.width := by omega
  unfold coordOf indexOf
  rw [Nat.add_mul_mod_self_right, Nat.mod_eq_of_lt hx, Nat.add_mul_div_right _ _ hpos,
    Nat.div_eq_of_lt hx, Nat.zero_add]

theorem mem_coords (h : g.Contains c) : c ∈ g.coords :=
  List.mem_map.2 ⟨g.indexOf c, List.mem_range.2 (indexOf_lt h), coordOf_indexOf h⟩

theorem indexOf_inj (hb : g.Contains b) (hc : g.Contains c) :
    g.indexOf b = g.indexOf c ↔ b = c := by
  constructor
  · intro h
    rw [← coordOf_indexOf hb, h, coordOf_indexOf hc]
  · intro h
    rw [h]

theorem indexOf_coordOf (g : Grid) (i : Nat) : g.indexOf (g.coordOf i) = i := by
  unfold indexOf coordOf
  rw [Nat.mul_comm]
  exact Nat.mod_add_div i g.width

theorem contains_coordOf {i : Nat} (h : i < g.width * g.height) : g.Contains (g.coordOf i) := by
  have hpos : 0 < g.width := Nat.pos_of_mul_pos_right (Nat.zero_lt_of_lt h)
  exact ⟨Nat.mod_lt i hpos, Nat.div_lt_of_lt_mul h⟩

/-! ## Links -/

theorem delta_opposite (link : Link) :
    link.opposite.delta = (-link.delta.1, -link.delta.2) := by
  cases link <;> rfl

theorem ring_back {size x : Nat} (hx : x < size) (step : Int) :
    ((((x + step) % size).toNat + -step) % (size : Int)).toNat = x := by
  have hnonneg := Int.emod_nonneg (x + step) (by omega : (size : Int) ≠ 0)
  rw [Int.toNat_of_nonneg hnonneg, Int.emod_add_emod, Int.add_neg_cancel_right,
    Int.emod_eq_of_lt (by omega) (by omega), Int.toNat_natCast]

theorem neighbour?_opposite (hc : g.Contains c) (h : g.neighbour? c link = some n) :
    g.neighbour? n link.opposite = some c := by
  obtain ⟨hx, hy⟩ := hc
  unfold neighbour? at h ⊢
  simp only [delta_opposite] at h ⊢
  split at h
  · next hwraps =>
      cases h
      rw [if_pos hwraps, ring_back hx, ring_back hy]
  · next hwraps =>
      rw [if_neg hwraps]
      split at h
      · next hinside =>
          cases h
          obtain ⟨hleft, _, hlow, _⟩ := hinside
          simp only [Int.toNat_of_nonneg hleft, Int.toNat_of_nonneg hlow,
            Int.add_neg_cancel_right]
          rw [if_pos (by omega)]
          rfl
      · cases h

end MulticastMesh.Mesh.Grid
