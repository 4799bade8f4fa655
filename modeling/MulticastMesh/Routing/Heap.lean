/-!
# Heaps

A binary heap in an array: the parent of position `i` is `(i - 1) / 2`.  The order is given by a
test whether one element is at most another; nothing is assumed of the test, so a heap always
holds the elements put into it, but only a total order makes the root the greatest.
-/

namespace MulticastMesh.Routing

structure Heap (α : Type) where
  elements : Array α
  deriving Repr

namespace Heap

variable {α : Type}

def empty : Heap α := ⟨#[]⟩

def size (h : Heap α) : Nat := h.elements.size

/-- Whether the element at one position is at most that at another; false outside the array. -/
private def atMostAt (atMost : α → α → Bool) (a : Array α) (i j : Nat) : Bool :=
  match a[i]?, a[j]? with
  | some x, some y => atMost x y
  | _, _ => false

/-- Moves an element towards the root as long as it is greater than its parent. -/
def siftUp (atMost : α → α → Bool) : (fuel : Nat) → Array α → (position : Nat) → Array α
  | 0, a, _ => a
  | fuel + 1, a, position =>
    let parent := (position - 1) / 2
    if position = 0 ∨ atMostAt atMost a position parent then a
    else siftUp atMost fuel (a.swapIfInBounds position parent) parent

/-- Moves an element down to a leaf, in exchange for the greater child each time.  The result
tells where it ends up. -/
def sinkToLeaf (atMost : α → α → Bool) : (fuel : Nat) → Array α → (position : Nat) →
    Array α × Nat
  | 0, a, position => (a, position)
  | fuel + 1, a, position =>
    let left := 2 * position + 1
    if left + 1 < a.size then
      let child := if atMostAt atMost a left (left + 1) then left + 1 else left
      sinkToLeaf atMost fuel (a.swapIfInBounds position child) child
    else if left + 1 = a.size then
      (a.swapIfInBounds position left, left)
    else
      (a, position)

def push (atMost : α → α → Bool) (h : Heap α) (x : α) : Heap α :=
  ⟨siftUp atMost h.size (h.elements.push x) h.size⟩

/-- Takes the root away.  The last element replaces it, sinks to a leaf and rises again. -/
def pop? (atMost : α → α → Bool) (h : Heap α) : Option (α × Heap α) :=
  match h.elements[0]? with
  | none => none
  | some root =>
    let rest := (h.elements.swapIfInBounds 0 (h.size - 1)).pop
    let (sunk, leaf) := sinkToLeaf atMost rest.size rest 0
    some (root, ⟨siftUp atMost leaf sunk leaf⟩)

end Heap

end MulticastMesh.Routing
