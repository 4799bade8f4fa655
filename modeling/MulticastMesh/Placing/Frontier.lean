import MulticastMesh.Mesh.Machine
/-!
# The frontier of a growing patch

Chips next to those in use, first come first served, except that chips of the current board go
before all others.  A chip of another board makes its board the current one.
-/

namespace MulticastMesh.Placing

open Mesh (Coord Machine)

structure Frontier where
  board : Coord
  sameBoard : List Coord := []
  otherBoards : List Coord := []
  deriving DecidableEq, Repr

namespace Frontier

def size (f : Frontier) : Nat := f.sameBoard.length + f.otherBoards.length

def contains (f : Frontier) (chip : Coord) : Bool :=
  f.sameBoard.contains chip || f.otherBoards.contains chip

/-- Queues a chip of a board, unless it is queued already. -/
def push (f : Frontier) (chip board : Coord) : Frontier :=
  if f.contains chip then f
  else if board = f.board then { f with sameBoard := f.sameBoard ++ [chip] }
  else { f with otherBoards := f.otherBoards ++ [chip] }

def pushAll (f : Frontier) (chips : List (Coord × Coord)) : Frontier :=
  chips.foldl (fun f (chip, board) => f.push chip board) f

/-- The board that becomes current with a chip. -/
def boardAfter (f : Frontier) (m : Machine) (chip : Coord) : Coord :=
  match m.chip? chip with
  | some c => c.ethernet
  | none => f.board

def pop? (m : Machine) (f : Frontier) : Option (Coord × Frontier) :=
  match f.sameBoard, f.otherBoards with
  | chip :: rest, _ => some (chip, { f with sameBoard := rest })
  | [], [] => none
  | [], chip :: rest =>
    let board := f.boardAfter m chip
    let near := fun c => (m.chip? c).any fun chip => chip.ethernet == board
    some (chip, {
      board
      sameBoard := rest.filter near
      otherBoards := rest.filter fun c => !near c })

/-- The next chip that is not in use; chips in front of it are dropped. -/
def popUnused? (m : Machine) (used : List Coord) : (fuel : Nat) → Frontier →
    Option (Coord × Frontier)
  | 0, _ => none
  | fuel + 1, f =>
    match f.pop? m with
    | none => none
    | some (chip, f) =>
      if used.contains chip then popUnused? m used fuel f else some (chip, f)

end Frontier

end MulticastMesh.Placing
