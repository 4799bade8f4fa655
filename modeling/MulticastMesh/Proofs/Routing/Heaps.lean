import Mathlib.Data.List.Perm.Basic
import MulticastMesh.Routing.Heap
/-!
# What is in a heap

Heap operations only move elements around, whatever the test of order says: putting an element in
adds it, and taking one out removes it.
-/

namespace MulticastMesh.Routing.Heap

variable {α : Type} {atMost : α → α → Bool} {a : Array α} {h h' : Heap α} {x y : α}

theorem swapIfInBounds_perm (a : Array α) (i j : Nat) :
    (a.swapIfInBounds i j).toList.Perm a.toList := by
  rw [Array.swapIfInBounds_def]
  split
  · split
    · exact (Array.swap_perm _ _).toList
    · rfl
  · rfl

theorem siftUp_perm {fuel position : Nat} :
    (siftUp atMost fuel a position).toList.Perm a.toList := by
  induction fuel generalizing a position with
  | zero => rfl
  | succ fuel ih =>
      unfold siftUp
      simp only
      split
      · rfl
      · exact ih.trans (swapIfInBounds_perm _ _ _)

theorem sinkToLeaf_perm {fuel position : Nat} :
    (sinkToLeaf atMost fuel a position).1.toList.Perm a.toList := by
  induction fuel generalizing a position with
  | zero => rfl
  | succ fuel ih =>
      unfold sinkToLeaf
      simp only
      split
      · exact ih.trans (swapIfInBounds_perm _ _ _)
      · split
        · exact swapIfInBounds_perm _ _ _
        · rfl

theorem push_perm : (h.push atMost x).elements.toList.Perm (h.elements.toList ++ [x]) := by
  unfold push
  exact siftUp_perm.trans (by rw [Array.toList_push])

theorem back?_swap_root {root : α} (hroot : a[0]? = some root) :
    (a.swapIfInBounds 0 (a.size - 1)).back? = some root := by
  obtain ⟨hpos, hget⟩ := Array.getElem?_eq_some_iff.1 hroot
  have hlast : a.size - 1 < (a.swapIfInBounds 0 (a.size - 1)).size := by
    rw [Array.size_swapIfInBounds]
    omega
  rw [Array.back?_eq_getElem?, Array.size_swapIfInBounds, Array.getElem?_eq_getElem hlast,
    Array.getElem_swapIfInBounds_right hpos, hget]

theorem pop?_eq_none_iff : h.pop? atMost = none ↔ h.elements.toList = [] := by
  unfold pop?
  split
  · next hnone => simpa using hnone
  · next root hroot =>
      have hmem := Array.mem_of_getElem? hroot
      simpa using fun hempty => by simp [hempty] at hmem

theorem pop?_perm (hpop : h.pop? atMost = some (x, h')) :
    h.elements.toList.Perm (x :: h'.elements.toList) := by
  unfold pop? at hpop
  split at hpop
  · cases hpop
  · next root hroot =>
      simp only [Option.some.injEq, Prod.mk.injEq] at hpop
      obtain ⟨rfl, rfl⟩ := hpop
      have hswap := swapIfInBounds_perm h.elements 0 (h.size - 1)
      obtain ⟨rest, hrest⟩ := Array.back?_eq_some_iff.1 (back?_swap_root hroot)
      change h.elements.swapIfInBounds 0 (h.size - 1) = rest.push root at hrest
      rw [hrest, Array.toList_push] at hswap
      rw [hrest, Array.pop_push]
      calc h.elements.toList.Perm (rest.toList ++ [root]) := hswap.symm
        _ |>.Perm (root :: rest.toList) := List.perm_append_singleton root rest.toList
        _ |>.Perm _ := (siftUp_perm.trans sinkToLeaf_perm).symm.cons root

theorem mem_push : y ∈ (h.push atMost x).elements ↔ y ∈ h.elements ∨ y = x := by
  rw [← Array.mem_toList_iff, push_perm.mem_iff]
  simp

theorem mem_pop? (hpop : h.pop? atMost = some (x, h')) :
    y ∈ h.elements ↔ y = x ∨ y ∈ h'.elements := by
  rw [← Array.mem_toList_iff, (pop?_perm hpop).mem_iff]
  simp

theorem mem_of_pop? (hpop : h.pop? atMost = some (x, h')) :
    x ∈ h.elements ∧ ∀ y ∈ h'.elements, y ∈ h.elements :=
  ⟨(mem_pop? hpop).2 (.inl rfl), fun _ hy => (mem_pop? hpop).2 (.inr hy)⟩

theorem size_push : (h.push atMost x).size = h.size + 1 := by
  have hlength : (h.push atMost x).elements.toList.length = (h.elements.toList ++ [x]).length :=
    push_perm.length_eq
  simpa [size] using hlength

theorem size_pop? (hpop : h.pop? atMost = some (x, h')) : h.size = h'.size + 1 := by
  simpa [size] using (pop?_perm hpop).length_eq

end MulticastMesh.Routing.Heap
