import MulticastMesh.Placing.ChipRoom
import MulticastMesh.Placing.Frontier
/-!
# The pool of chips

A cursor walks the machine column by column from the start chip, around both edges.  Chips of an
abandoned attempt are saved, and offered to the next vertex before the cursor moves on.
-/

namespace MulticastMesh.Placing

open Mesh (Coord Link Machine)

structure ChipPool where
  /-- Working chips from the cursor on. -/
  upcoming : List Coord
  /-- Chips that were handed out and not given back. -/
  used : List Coord := []
  /-- The chip being filled. -/
  current? : Option ChipRoom := none
  /-- Chips of abandoned attempts, for the next vertex. -/
  saved : List Coord := []
  /-- Chips of abandoned attempts, on offer now. -/
  restored : List Coord := []
  /-- Chips that the attempt under way was given. -/
  handedOut : List Coord := []
  deriving Repr

namespace ChipPool

def cursorOrder (m : Machine) (start : Coord) : List Coord :=
  let places := (List.range m.width).flatMap fun x =>
    (List.range m.height).map fun y =>
      (⟨(x + start.x) % m.width, (y + start.y) % m.height⟩ : Coord)
  places.filter fun c => (m.chip? c).isSome

def ofMachine (m : Machine) (start : Coord) : ChipPool where
  upcoming := cursorOrder m start

def isUsed (p : ChipPool) (chip : Coord) : Bool := p.used.contains chip

/-- The next unused chip: restored chips first, then from the cursor on. -/
def next? (p : ChipPool) : Option Coord × ChipPool :=
  match p.restored.dropWhile p.isUsed with
  | chip :: rest => (some chip, { p with restored := rest })
  | [] =>
    let upcoming := p.upcoming.dropWhile p.isUsed
    (upcoming.head?, { p with restored := [], upcoming })

/-- Begins an attempt on the chip being filled. -/
def beginWith (p : ChipPool) (room : ChipRoom) : ChipPool :=
  { p with current? := some room, handedOut := [room.chip] }

/-- Unused chips one working link away, with their boards. -/
def usableFrom (p : ChipPool) (m : Machine) (chip : Coord) : List (Coord × Coord) :=
  (Link.all.filterMap (m.linkTarget? chip)).filterMap fun target =>
    if p.isUsed target then none
    else (m.chip? target).map fun c => (target, c.ethernet)

def moveTo (p : ChipPool) (room : ChipRoom) : ChipPool :=
  { p with
    used := room.chip :: p.used
    handedOut := p.handedOut ++ [room.chip]
    restored := p.restored.filter fun c => c != room.chip
    current? := some room }

/-- Gives up the attempt under way and saves its chips. -/
def abandon (p : ChipPool) : ChipPool :=
  { p with
    current? := none
    saved := p.handedOut.foldl (fun saved c =>
      if saved.contains c then saved else saved ++ [c]) p.saved
    handedOut := [] }

/-- Ends an attempt that succeeded. -/
def finish (p : ChipPool) : ChipPool := { p with handedOut := [] }

private def restoreChip (p : ChipPool) (chip : Coord) : ChipPool :=
  { p with
    used := p.used.filter fun c => c != chip
    restored := if p.restored.contains chip then p.restored else p.restored ++ [chip] }

/-- Offers the saved chips again. -/
def restore (p : ChipPool) : ChipPool :=
  p.saved.foldl restoreChip { p with saved := [] }

end ChipPool

end MulticastMesh.Placing
