import MulticastMesh.Mesh.Grid
import MulticastMesh.Graph.Cost
/-!
# Machines

A machine is built from a description that lists its faults.  The faults are taken out one after
another: first the dead chips, then the dead wires with both of their ends, and last the links
that lead nowhere.
-/

namespace MulticastMesh.Mesh

/-- Most processors a chip can have; a routing entry can name no more. -/
def maxProcessors : Nat := 18

/-- What all chips of a machine have in common. -/
structure ChipSpec where
  processors : Nat := 18
  monitors : Nat := 1
  sdram : Nat := 128 * 1024 * 1024
  routerEntries : Nat := 1024
  cyclesPerCore : Nat := 200000
  deriving DecidableEq, Repr

structure MachineSpec where
  width : Nat
  height : Nat
  wraps : Bool := false
  boardWidth : Nat := 8
  boardHeight : Nat := 8
  chip : ChipSpec := {}
  deadChips : List Coord := []
  deadLinks : List (Coord × Link) := []
  deriving DecidableEq, Repr

inductive MachineError where
  | noChips (width height : Nat)
  | emptyBoard (width height : Nat)
  | tooManyProcessors (processors : Nat)
  | tooManyMonitors (monitors processors : Nat)
  | noSuchChip (chip : Coord)
  deriving DecidableEq, Repr

def MachineError.message : MachineError → String
  | .noChips w h => s!"Machine must have at least one chip, got {w}x{h}"
  | .emptyBoard w h => s!"Board size must be non-zero, got {w}x{h}"
  | .tooManyProcessors n => s!"Chips can have at most {maxProcessors} processors, got {n}"
  | .tooManyMonitors m p => s!"More monitors ({m}) than processors ({p})"
  | .noSuchChip c => s!"no working chip at {c.text}"

structure Chip where
  coord : Coord
  processors : Nat
  monitors : Nat
  sdram : Nat
  routerEntries : Nat
  /-- The chip of the same board that has the Ethernet connection; it stands for the board. -/
  ethernet : Coord
  /-- The working links, in the order of their numbers. -/
  links : List Link
  deriving DecidableEq, Repr

namespace Chip

def hasLink (c : Chip) (link : Link) : Bool := c.links.contains link

def keeping (c : Chip) (keep : Link → Bool) : Chip := { c with links := c.links.filter keep }

def userProcessors (c : Chip) : List Nat :=
  List.range' c.monitors (c.processors - c.monitors)

def userProcessorCount (c : Chip) : Nat := c.processors - c.monitors

def isEthernet (c : Chip) : Bool := c.coord == c.ethernet

end Chip

namespace MachineSpec

def grid (d : MachineSpec) : Grid := ⟨d.width, d.height, d.wraps⟩

def faultlessChip (d : MachineSpec) (c : Coord) : Chip where
  coord := c
  processors := d.chip.processors
  monitors := d.chip.monitors
  sdram := d.chip.sdram
  routerEntries := d.chip.routerEntries
  ethernet := ⟨c.x - c.x % d.boardWidth, c.y - c.y % d.boardHeight⟩
  links := Link.all

end MachineSpec

structure Machine where
  grid : Grid
  cyclesPerCore : Nat
  /-- What stands at each place, in the order of the grid's numbers. -/
  chips : Array (Option Chip)

namespace Machine

def width (m : Machine) : Nat := m.grid.width

def height (m : Machine) : Nat := m.grid.height

def chip? (m : Machine) (c : Coord) : Option Chip :=
  if m.grid.Contains c then (m.chips[m.grid.indexOf c]?).join else none

def chip (m : Machine) (c : Coord) : Except MachineError Chip :=
  match m.chip? c with
  | some chip => .ok chip
  | none => .error (.noSuchChip c)

/-- The working chips, row by row. -/
def workingChips (m : Machine) : List Chip := m.chips.toList.filterMap fun chip => chip

def chipCount (m : Machine) : Nat := m.workingChips.length

def neighbour? (m : Machine) (c : Coord) (link : Link) : Option Coord :=
  m.grid.neighbour? c link

def faultless (d : MachineSpec) : Machine where
  grid := d.grid
  cyclesPerCore := d.chip.cyclesPerCore
  chips := (d.grid.coords.map fun c => some (d.faultlessChip c)).toArray

def removeChip (m : Machine) (c : Coord) : Except MachineError Machine :=
  if m.grid.Contains c then
    .ok { m with chips := m.chips.setIfInBounds (m.grid.indexOf c) none }
  else
    .error (.noSuchChip c)

/-- Takes a link away from the chip at a place, if one works there. -/
def removeEnd (m : Machine) (c : Coord) (link : Link) : Except MachineError Machine :=
  if m.grid.Contains c then
    .ok { m with chips := m.chips.modify (m.grid.indexOf c) (Option.map fun chip =>
      chip.keeping fun other => other != link) }
  else
    .error (.noSuchChip c)

/-- Takes away both ends of a wire, of which one is given. -/
def removeWire (m : Machine) (c : Coord) (link : Link) : Except MachineError Machine := do
  let m ← m.removeEnd c link
  match m.neighbour? c link with
  | none => return m
  | some n => m.removeEnd n link.opposite

def leadsToChip (m : Machine) (c : Coord) (link : Link) : Bool :=
  (m.neighbour? c link).any fun n => (m.chip? n).isSome

/-- Takes away the links that leave the mesh or lead to a place without a chip. -/
def removeLooseEnds (m : Machine) : Machine :=
  { m with chips := m.chips.map (Option.map fun chip => chip.keeping (m.leadsToChip chip.coord)) }

def ofSpec (d : MachineSpec) : Except MachineError Machine := do
  if d.width = 0 ∨ d.height = 0 then
    throw (.noChips d.width d.height)
  if d.boardWidth = 0 ∨ d.boardHeight = 0 then
    throw (.emptyBoard d.boardWidth d.boardHeight)
  if maxProcessors < d.chip.processors then
    throw (.tooManyProcessors d.chip.processors)
  if d.chip.processors < d.chip.monitors then
    throw (.tooManyMonitors d.chip.monitors d.chip.processors)
  let m ← d.deadChips.foldlM removeChip (faultless d)
  let m ← d.deadLinks.foldlM (fun m (c, link) => m.removeWire c link) m
  return m.removeLooseEnds

def hasLink (m : Machine) (c : Coord) (link : Link) : Bool :=
  (m.chip? c).any fun chip => chip.hasLink link

/-- The chip that a working link leads to. -/
def linkTarget? (m : Machine) (c : Coord) (link : Link) : Option Coord :=
  if m.hasLink c link then m.neighbour? c link else none

def ethernetChips (m : Machine) : List Chip := m.workingChips.filter Chip.isEthernet

def chipsOnBoard (m : Machine) (ethernet : Coord) : List Chip :=
  m.workingChips.filter fun chip => chip.ethernet == ethernet

private def greatest (values : List Nat) : Nat := values.foldl max 0

def maxCores (m : Machine) : Nat := greatest (m.workingChips.map Chip.userProcessorCount)

def maxSdram (m : Machine) : Nat := greatest (m.workingChips.map Chip.sdram)

def coreBudget (m : Machine) : Graph.CoreBudget := ⟨m.maxSdram, m.cyclesPerCore⟩

end Machine

end MulticastMesh.Mesh
