import MulticastMesh.Graph.MachineGraph
import MulticastMesh.Keys.Assignment
import MulticastMesh.Mesh.Machine
import MulticastMesh.Tables.Table
/-!
# Checking that packets arrive

Every key that a source can send is followed through the routers that it reaches, and must arrive
at exactly the cores of its partition's destinations.
-/

namespace MulticastMesh.Tables

open MulticastMesh.Graph (EdgePartition MachineGraph)
open Keys (Assignment Key)
open Mesh (Coord Machine)
open Layout (Placements)
open Routing (Route)

abbrev Cores := Std.ExtTreeSet (Coord × Nat) compare

def routeOn (tables : TableSet) (chip : Coord) (key : Key) : Except Misdelivery Route :=
  match tables.lookup? chip key with
  | some e => .ok e.route
  | none => .error (.noEntry chip key)

def checkAlike (tables : TableSet) (chip : Coord) (first : Key) (route : Route) :
    List Key → Except Misdelivery Unit
  | [] => .ok ()
  | key :: rest => do
    if (← routeOn tables chip key) ≠ route then
      throw (.partialCoverage chip key first)
    checkAlike tables chip first route rest

def targets (m : Machine) (chip : Coord) (route : Route) : Except Misdelivery (List Coord) :=
  route.links.mapM fun link =>
    match m.linkTarget? chip link with
    | some next => .ok next
    | none => .error (.deadLink chip link)

/-- Follows packets from the pending chips on, the last one first. -/
def follow (m : Machine) (tables : TableSet) (first : Key) (others : List Key) : (fuel : Nat) →
    (visited pending : List Coord) → Cores → Except Misdelivery Cores
  | _, _, [], reached => .ok reached
  | 0, _, _, reached => .ok reached
  | fuel + 1, visited, chip :: pending, reached => do
    if visited.contains chip then
      throw (.cycle chip first)
    let route ← routeOn tables chip first
    checkAlike tables chip first route others
    let next ← targets m chip route
    let reached := route.processors.foldl (fun reached p => reached.insert (chip, p)) reached
    follow m tables first others fuel (chip :: visited) (next.reverse ++ pending) reached

/-- Cores that the first of some keys reaches.  The other keys must take the same route on every
chip on the way. -/
def trace (m : Machine) (tables : TableSet) (source : Coord) :
    List Key → Except Misdelivery Cores
  | [] => .ok ∅
  | first :: others => follow m tables first others (tables.size + 2) [] [source] ∅

def expectedCores (placements : Placements) (p : EdgePartition) :
    Except Layout.PlacementError Cores := do
  let cores ← p.destinations.mapM fun v => do
    return (← placements.placementOf v).core
  return .ofList cores compare

def validatePartition (m : Machine) (g : MachineGraph) (placements : Placements)
    (a : Assignment) (tables : TableSet) (p : EdgePartition) : Outcome Unit := do
  let source ← placements.placementOf p.pre
  let expected ← expectedCores placements p
  let vertex ← g.vertex p.pre
  let keys ← a.keysOf p.pre p.identifier
  let sent := (List.range vertex.slice.count).map keys.range.keyAt
  let reached ← trace m tables source.chip sent
  match expected.toList.find? fun core => !reached.contains core with
  | some (chip, processor) =>
    throw ⟨[], .misdelivery (.missingDestination chip processor keys.range.key)⟩
  | none =>
    match reached.toList.find? fun core => !expected.contains core with
    | some (chip, processor) =>
      throw ⟨[], .misdelivery (.extraDestination chip processor keys.range.key)⟩
    | none => return ()

def validate (m : Machine) (g : MachineGraph) (placements : Placements) (a : Assignment)
    (tables : TableSet) : Outcome Unit :=
  g.multicastPartitions.forM fun p => do
    let vertex ← g.vertex p.pre
    Outcome.during (.validatingPartition p.identifier vertex.label)
      (validatePartition m g placements a tables p)

end MulticastMesh.Tables
