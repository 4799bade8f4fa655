import MulticastMesh.Keys.Assignment
import MulticastMesh.Routing.PathTable
import MulticastMesh.Tables.Table
/-!
# Entries for sibling slices

Slices of one vertex that send the same way share entries: an aligned run of `2 ^ n` indices is
one pattern.  A run that ends with the last slice may reach into the unused end of the block.
-/

namespace MulticastMesh.Tables

open Keys (PartitionKeys VertexBlock shiftUp)
open Routing (PathEntry)

/-- A slice that sends over a chip: its keys and what its tree does there. -/
structure Sender where
  keys : PartitionKeys
  path : PathEntry

def Sender.entry (s : Sender) : Entry where
  pattern := s.keys.range.pattern
  route := s.path.route
  defaultable := s.path.defaultable

/-- The greatest power of two that is not above a positive number. -/
def powerBelow (n : Nat) : Nat := Nat.pow 2 n.log2

/-- The least power of two that is not below a number. -/
def powerAbove (n : Nat) : Nat := Nat.pow 2 (Keys.bitsNeeded n)

/-- The greatest power of two that divides a positive number; the fuel bounds its exponent. -/
def lowestPower : (fuel n : Nat) → Nat
  | 0, _ => 1
  | fuel + 1, n => if n % 2 = 0 then 2 * lowestPower fuel (n / 2) else 1

/-- How many indices from a given one on can share a pattern; from zero on, enough for a whole
run of some length. -/
def alignedRun (index length : Nat) : Nat :=
  if index = 0 then powerAbove length else lowestPower 32 index

def groupEntry (block : VertexBlock) (s : Sender) (count : Nat) : Entry where
  pattern := ⟨s.keys.range.key,
    block.sliceMask - shiftUp (BitVec.ofNat 32 (count - 1)) block.atomBits⟩
  route := s.path.route
  defaultable := s.path.defaultable

/-- Covers the rest of a run by ever smaller powers of two. -/
def coverTail (block : VertexBlock) : (fuel : Nat) → List Sender → List Entry
  | 0, _ => []
  | _, [] => []
  | fuel + 1, s :: rest =>
    let count := powerBelow (rest.length + 1)
    groupEntry block s count :: coverTail block fuel ((s :: rest).drop count)

def coverRun (block : VertexBlock) (length : Nat) (isLast : Bool) : (fuel : Nat) →
    List Sender → List Entry
  | 0, _ => []
  | _, [] => []
  | fuel + 1, s :: rest =>
    let count := alignedRun s.keys.index length
    if count ≤ rest.length + 1 ∨ isLast then
      groupEntry block s count :: coverRun block length isLast fuel ((s :: rest).drop count)
    else
      coverTail block (rest.length + 1) (s :: rest)

def runs (senders : List Sender) : List (List Sender) :=
  senders.splitBy fun a b => b.keys.index == a.keys.index + 1

/-- Entries for slices that share one route, given in the order of their indices. -/
def coverSiblings (block : VertexBlock) (senders : List Sender) : List Entry :=
  (runs senders).flatMap fun run =>
    let isLast := run.getLast?.any fun s => s.keys.index == block.lastIndex
    coverRun block run.length isLast run.length run

end MulticastMesh.Tables
