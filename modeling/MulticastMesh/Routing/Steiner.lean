import MulticastMesh.Routing.Tree
/-!
# Trees of grafted paths

The tree grows by the shortest path from any of its chips to the nearest destination not yet in
it, so destinations in one direction share links.
-/

namespace MulticastMesh.Routing.Steiner

open Mesh (Coord Link Machine)

abbrev Reached := Std.ExtTreeMap Coord LinkFrom compare

/-- Queues the neighbours of a chip that were not seen before. -/
def visit (m : Machine) (chip : Coord) (state : List Coord × Reached × List Coord)
    (link : Link) : List Coord × Reached × List Coord :=
  let (seen, reached, queue) := state
  match m.linkTarget? chip link with
  | none => state
  | some neighbour =>
    if seen.contains neighbour then state
    else (neighbour :: seen, reached.insert neighbour (chip, link), queue ++ [neighbour])

/-- The first pending chip that a breadth-first search comes to. -/
def nearest? (m : Machine) (pending : List Coord) : (fuel : Nat) → (seen : List Coord) →
    Reached → (queue : List Coord) → Option (Coord × Reached)
  | 0, _, _, _ => none
  | _, _, _, [] => none
  | fuel + 1, seen, reached, chip :: queue =>
    if pending.contains chip then some (chip, reached)
    else
      let (seen, reached, queue) := Link.all.foldl (visit m chip) (seen, reached, queue)
      nearest? m pending fuel seen reached queue

/-- Adds the way from a chip back to the tree. -/
def graft (reached : Reached) : (fuel : Nat) → Tree → Coord → Outcome Tree
  | 0, _, chip => .error ⟨[], .lostWayBack chip⟩
  | fuel + 1, t, chip =>
    if t.contains chip then .ok t
    else
      match reached[chip]? with
      | none => .error ⟨[], .lostWayBack chip⟩
      | some step =>
        graft reached fuel { t with cameFrom := t.cameFrom.insert chip step } step.1

def grow (m : Machine) : (fuel : Nat) → Tree → (pending : List Coord) → Outcome Tree
  | 0, t, _ => .ok t
  | _, t, [] => .ok t
  | fuel + 1, t, first :: rest =>
    let pending := first :: rest
    let seeds := t.source :: t.cameFrom.keys
    match nearest? m pending (m.chipCount + seeds.length + 1) seeds ∅ seeds with
    | none => .error ⟨[], .routing (.unreachable t.source first)⟩
    | some (found, reached) => do
      let t ← graft reached (reached.size + 1) t found
      grow m fuel t (pending.filter fun chip => !t.contains chip)

def tree (m : Machine) (source : Coord) (destinations : List Coord) : Outcome Tree := do
  let _ ← m.chip source
  let pending := destinations.filter fun chip => !(Tree.root source).contains chip
  grow m pending.length (.root source) pending

end MulticastMesh.Routing.Steiner
