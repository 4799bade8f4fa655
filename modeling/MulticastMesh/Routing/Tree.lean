import MulticastMesh.Failure
import MulticastMesh.Routing.PathTable
/-!
# Routing trees

A tree remembers for every chip but its source the chip and the link that it is reached from.
Committing a tree walks from every destination back to the source and adds path entries on the
way.
-/

namespace MulticastMesh.Routing

open Mesh (Coord Link)

abbrev LinkFrom := Coord × Link

structure Tree where
  source : Coord
  cameFrom : Std.ExtTreeMap Coord LinkFrom compare

abbrev Destinations := Std.ExtTreeMap Coord (Std.ExtTreeSet Nat compare) compare

namespace Destinations

def empty : Destinations := ∅

def add (d : Destinations) (chip : Coord) (processor : Nat) : Destinations :=
  d.insert chip ((d[chip]?.getD ∅).insert processor)

def addChip (d : Destinations) (chip : Coord) : Destinations :=
  d.insert chip (d[chip]?.getD ∅)

/-- The destinations on some chips; a chip may be listed more than once. -/
def ofList (l : List (Coord × List Nat)) : Destinations :=
  l.foldl (fun d (chip, processors) =>
      processors.foldl (fun d p => d.add chip p) (d.addChip chip))
    empty

def chips (d : Destinations) : List Coord := d.toList.map fun item => item.1

end Destinations

namespace Tree

def root (source : Coord) : Tree := ⟨source, ∅⟩

def contains (t : Tree) (chip : Coord) : Bool := chip == t.source || t.cameFrom.contains chip

def entrance (t : Tree) (sourceProcessor : Nat) (chip : Coord) : Except RoutingError Entrance :=
  if chip = t.source then .ok (.processor sourceProcessor)
  else
    match t.cameFrom[chip]? with
    | some (_, link) => .ok (.link link.opposite)
    | none => .error (.unreachable t.source chip)

/-- A change of a path table that may fail on the way; what was added before stays. -/
abbrev Commit := ExceptT Failure (StateM PathTable)

private def check {ε α : Type} (cause : ε → Cause) (result : Except ε α) : Commit α :=
  ExceptT.mk (pure (Outcome.lift cause result))

def addPath (chip : Coord) (partition : PartitionSource) (e : PathEntry) : Commit Unit := do
  match (← get).add chip partition e with
  | .ok table => set table
  | .error error => throw ⟨[], .routing error⟩

/-- Walks back from a chip to the source.  `claimed` holds the links of earlier walks and of this
one, each once. -/
def walkBack (t : Tree) (sourceProcessor : Nat) (partition : PartitionSource)
    (destination : Coord) : (fuel : Nat) → (visited : List Coord) → (claimed : List LinkFrom) →
    Coord → Commit (List LinkFrom)
  | 0, _, _, chip => throw ⟨[], .routing (.cycle chip)⟩
  | fuel + 1, visited, claimed, chip => do
    if chip = t.source then
      return claimed
    if visited.contains chip then
      throw ⟨[], .routing (.cycle chip)⟩
    match t.cameFrom[chip]? with
    | none => throw ⟨[], .routing (.unreachable t.source destination)⟩
    | some (previous, link) =>
      let entrance ← check .routing (t.entrance sourceProcessor previous)
      addPath previous partition ⟨.overLinks [link], some entrance⟩
      let claimed :=
        if claimed.contains (previous, link) then claimed else claimed ++ [(previous, link)]
      t.walkBack sourceProcessor partition destination fuel (chip :: visited) claimed previous

def deliver (t : Tree) (sourceProcessor : Nat) (partition : PartitionSource) (chip : Coord)
    (processors : List Nat) : Commit Unit := do
  let route ← check .unroutable (Route.ofParts [] processors)
  let entrance ← check .routing (t.entrance sourceProcessor chip)
  addPath chip partition ⟨route, some entrance⟩

/-- Adds the entries of a tree for some destinations.  The result lists the links in use, each
once. -/
def commit (t : Tree) (destinations : Destinations) (sourceProcessor : Nat)
    (partition : PartitionSource) : Commit (List LinkFrom) :=
  destinations.toList.foldlM (fun claimed (chip, processors) => do
      t.deliver sourceProcessor partition chip processors.toList
      t.walkBack sourceProcessor partition chip (t.cameFrom.size + 2) [] claimed chip)
    []

end Tree

end MulticastMesh.Routing
