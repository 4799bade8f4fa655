import MulticastMesh.Placing.ChipPool
import MulticastMesh.Placing.Report
import MulticastMesh.Text.Path
/-!
# Placing machine vertices on chips

Application vertices are placed one after another.  Each fills the chip at hand and then grows
over working links to unused chips, those of the same board first.  When nothing is left to grow
to, the attempt is abandoned and begins anew from a fresh chip; the abandoned chips are offered to
the next vertex.
-/

namespace MulticastMesh.Placing

open MulticastMesh.Graph (AppVertexId ApplicationGraph MachineGraph MachineVertexId)
open Mesh (Coord Machine)
open Layout (Placement Placements)
open Slicing (ChipGroup)

/-- What stays the same throughout a placement. -/
structure Setting where
  app : ApplicationGraph
  graph : MachineGraph
  machine : Machine
  config : PlacerConfig

/-- What a placement has come to. -/
structure Progress where
  pool : ChipPool
  placements : Placements

abbrev Search := StateT Progress Outcome

inductive Attempt where
  | placed
  /-- Nothing was left to grow to for a group of some size. -/
  | abandoned (cores sdram : Nat)
  deriving DecidableEq, Repr

namespace Setting

def roomOn (s : Setting) (placements : Placements) (chip : Coord) : Outcome ChipRoom := do
  let chip ← s.machine.chip chip
  ChipRoom.ofChip chip placements s.graph s.config.reserved

def label (s : Setting) (v : MachineVertexId) : Outcome String := do
  return (← s.graph.vertex v).label

def noMoreChips (s : Setting) (p : Progress) : Failure :=
  let report : FailureReport := {
    path := Text.pathIn s.config.reportDirectory reportName
    text := Report.text s.app s.graph s.machine p.placements s.config.reserved }
  ⟨[], .placing (.noMoreChips p.pool.used.length s.machine.chipCount report)⟩

/-- Makes sure that there is a chip to fill, and starts with an empty frontier on its board. -/
def startPatch (s : Setting) : Search Frontier := do
  let p ← get
  let room ← match p.pool.current? with
    | some room => pure room
    | none => do
      let (next?, pool) := p.pool.next?
      let some chip := next? | throw (s.noMoreChips p)
      set { p with pool := { pool with used := chip :: pool.used } }
      s.roomOn p.placements chip
  let chip ← s.machine.chip room.chip
  modify fun p => { p with pool := p.pool.beginWith room }
  return { board := chip.ethernet }

/-- Moves on to the next chip of the frontier, after widening it around a chip if one is given.
Without such a chip there is no chip at hand any more. -/
def grow (s : Setting) (frontier : Frontier) (from? : Option Coord) :
    Search (Option Frontier) := do
  let p ← get
  let frontier := match from? with
    | none => frontier
    | some chip => frontier.pushAll (p.pool.usableFrom s.machine chip)
  match frontier.popUnused? s.machine p.pool.used (frontier.size + 1) with
  | none => return none
  | some (chip, frontier) =>
    let room ← s.roomOn p.placements chip
    set { p with pool := p.pool.moveTo room }
    return some frontier

/-- Grows until the chip at hand has room for a group. -/
def findRoom (s : Setting) (cores sdram : Nat) : (fuel : Nat) → Frontier → Option Coord →
    Search (Option (ChipRoom × Frontier))
  | 0, _, _ => throw ⟨[], .placing .searchStuck⟩
  | fuel + 1, frontier, from? => do
    match (← get).pool.current? with
    | some room =>
      if room.hasSpace cores sdram then return some (room, frontier)
    | none => pure ()
    match ← s.grow frontier from? with
    | none => return none
    | some frontier => s.findRoom cores sdram fuel frontier none

def giveCores : ChipRoom → List MachineVertexId → Outcome (List Placement × ChipRoom)
  | room, [] => .ok ([], room)
  | room, v :: rest =>
    match room.nextCore? with
    | none => .error ⟨[], .placing .chipOutOfCores⟩
    | some (core, room') => do
      let (placements, last) ← giveCores room' rest
      return (⟨v, room.chip, core⟩ :: placements, last)

/-- The chip that the first vertex with a fixed location names. -/
def fixedChip? (s : Setting) : List MachineVertexId → Outcome (Option Coord)
  | [] => .ok none
  | v :: rest => do
    match (← s.graph.vertex v).location? with
    | some location => return some location.chip
    | none => s.fixedChip? rest

/-- Gives vertices the cores that they are fixed to, or else the lowest free ones. -/
def giveFixedCores (s : Setting) : ChipRoom → (occupants : List String) →
    List MachineVertexId → Outcome (List Placement)
  | _, _, [] => .ok []
  | room, occupants, v :: rest => do
    let vertex ← s.graph.vertex v
    let refuse := fun (obstacle : Obstacle) =>
      (⟨[], .placing (.configuration vertex.label room.chip occupants obstacle)⟩ : Failure)
    let (core, room') ←
      match vertex.location?.bind fun location => location.core? with
      | some core =>
        if room.cores.contains core then pure (core, room.useCore core)
        else throw (refuse (.coreTaken core))
      | none =>
        match room.nextCore? with
        | some taken => pure taken
        | none => throw (refuse .noCore)
    let placements ← s.giveFixedCores room' (occupants ++ [vertex.label]) rest
    return ⟨v, room.chip, core⟩ :: placements

/-- What the placements of an attempt under way leave of a chip, and their labels. -/
def takePending (s : Setting) : ChipRoom → List Placement → Outcome (ChipRoom × List String)
  | room, [] => .ok (room, [])
  | room, p :: rest => do
    if p.chip = room.chip then
      let vertex ← s.graph.vertex p.vertex
      let (room, labels) ←
        s.takePending ((room.useCore p.processor).useSdram vertex.resources.sdram) rest
      return (room, vertex.label :: labels)
    else
      s.takePending room rest

def placeOn (s : Setting) (placements : Placements) (chip : Coord) (first : MachineVertexId)
    (others : List MachineVertexId) (sdram : Nat) (pending : List Placement) :
    Outcome (List Placement) := do
  if (s.machine.chip? chip).isNone then
    let label ← s.label first
    throw ⟨[], .placing (.configuration label chip [] .noChip)⟩
  let room ← s.roomOn placements chip
  let residents ← (placements.onChip chip).mapM fun p => s.label p.vertex
  let (room, arriving) ← s.takePending room pending
  let occupants := residents ++ arriving
  if room.sdram < sdram then
    let label ← s.label first
    throw ⟨[], .placing (.configuration label chip occupants (.memory sdram room.sdram))⟩
  s.giveFixedCores room occupants (first :: others)

/-- What a group placed on a chip leaves of the chip at hand. -/
def takeFromCurrent (pool : ChipPool) (chip : Coord) (made : List Placement) (sdram : Nat) :
    ChipPool :=
  { pool with current? := pool.current?.map fun room =>
      if room.chip = chip then
        (room.useCores (made.map fun p => p.processor)).useSdram sdram
      else room }

/-- Places a group with a fixed location at once; false if the group is free to go anywhere. -/
def placeFixed (s : Setting) (first : MachineVertexId) (others : List MachineVertexId)
    (sdram : Nat) (pending : List Placement) : Search Bool := do
  match ← s.fixedChip? (first :: others) with
  | none => return false
  | some chip =>
    let p ← get
    let made ← s.placeOn p.placements chip first others sdram pending
    let placements ← p.placements.addAll made
    set ({ pool := takeFromCurrent p.pool chip made sdram, placements } : Progress)
    return true

/-- Places groups in order, growing the patch as needed.  Free groups are only noted, and placed
together once all of them have a chip. -/
def placeFrom (s : Setting) : Frontier → (pending : List Placement) → (from? : Option Coord) →
    List ChipGroup → Search Attempt
  | _, pending, _, [] => do
    let p ← get
    let placements ← p.placements.addAll pending
    set ({ pool := p.pool.finish, placements } : Progress)
    return .placed
  | frontier, pending, from?, group :: rest => do
    let p ← get
    match group.vertices.filter fun v => !p.placements.isPlaced v with
    | [] => s.placeFrom frontier pending from? rest
    | first :: others =>
      if ← s.placeFixed first others group.sdram pending then
        s.placeFrom frontier pending from? rest
      else
        let cores := others.length + 1
        match ← s.findRoom cores group.sdram (s.machine.chipCount + 1) frontier from? with
        | none =>
          modify fun p => { p with pool := p.pool.abandon }
          return .abandoned cores group.sdram
        | some (room, frontier) =>
          let (made, left) ← giveCores room (first :: others)
          modify fun p =>
            { p with pool := { p.pool with current? := some (left.useSdram group.sdram) } }
          s.placeFrom frontier (pending ++ made) (some room.chip) rest

/-- Tries to place all groups from the chip at hand. -/
def attempt (s : Setting) : List ChipGroup → Search Attempt
  | [] => return .placed
  | groups => do
    let frontier ← s.startPatch
    s.placeFrom frontier [] none groups

def checkCouldFit (s : Setting) (label : String) (cores sdram : Nat) : Except PlaceError Unit :=
  let maxCores := s.machine.maxCores
  let maxSdram := s.machine.maxSdram
  if sdram ≤ maxSdram ∧ cores ≤ maxCores then .ok ()
  else .error (.tooBig label cores sdram maxCores maxSdram)

/-- Repeats attempts until one succeeds or no chip is left. -/
def retry (s : Setting) (label : String) (groups : List ChipGroup) : (fuel : Nat) → Search Unit
  | 0 => throw ⟨[], .placing .searchStuck⟩
  | fuel + 1 => do
    match ← s.attempt groups with
    | .placed => return ()
    | .abandoned cores sdram => do
      s.checkCouldFit label cores sdram
      s.retry label groups fuel

/-- Places the groups of one vertex, which gets to see the chips of abandoned attempts again. -/
def placeGroups (s : Setting) (label : String) (groups : List ChipGroup) : Search Unit :=
  fun p => Outcome.during (.placingVertex label) <|
    s.retry label groups (s.machine.chipCount + 2) { p with pool := p.pool.restore }

def start (s : Setting) : Except PlaceError Coord := do
  let start ← match s.config.start? with
    | some start => pure start
    | none =>
      match s.machine.ethernetChips with
      | [] => throw .noEthernetChip
      | chip :: _ => pure chip.coord
  if start.x < s.machine.width ∧ start.y < s.machine.height then
    return start
  else
    throw (.startOutside start s.machine.width s.machine.height)

/-- Places all vertices: those cut from application vertices first. -/
def placeAll (s : Setting) : Search Unit := do
  s.app.toList.forM fun (id, vertex) => do
    let groups ← Slicing.chipGroups vertex.splitter s.graph id
    s.placeGroups vertex.label groups
  s.graph.toList.forM fun (id, vertex) => do
    if vertex.app?.isNone then
      s.placeGroups vertex.label [⟨[id], vertex.resources.sdram⟩]

end Setting

/-- Places every machine vertex of a graph on a core of its own. -/
def placeGraph (app : ApplicationGraph) (graph : MachineGraph) (machine : Machine)
    (config : PlacerConfig) : Outcome Placements := do
  let s : Setting := { app, graph, machine, config }
  let start ← s.start
  let (_, progress) ← s.placeAll.run ⟨ChipPool.ofMachine machine start, .empty⟩
  return progress.placements

end MulticastMesh.Placing
