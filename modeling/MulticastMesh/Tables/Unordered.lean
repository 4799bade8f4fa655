import MulticastMesh.Tables.Table
/-!
# Merging without regard to order

Entries with one route are joined as long as the join has no key in common with an entry of
another route.  The result can be looked up in any order.
-/

namespace MulticastMesh.Tables.Unordered

open Routing (Route)

structure Group where
  route : Route
  entries : List Entry
  deriving Repr

def group (table : List Entry) : List Group :=
  (table.map fun e => e.route).eraseDups.map fun route =>
    { route, entries := table.filter fun e => e.route == route }

def clashes (others : List Entry) (e : Entry) : Bool := others.any e.intersects

/-- Joins an entry with the later entries that it can be joined with, one after another, and
leaves the rest. -/
def absorb (others : List Entry) (e : Entry) : List Entry → Entry × List Entry
  | [] => (e, [])
  | f :: rest =>
    if clashes others (e.join f) then
      let (joined, left) := absorb others e rest
      (joined, f :: left)
    else
      absorb others (e.join f) rest

/-- Joins the entries of one route; the fuel bounds their number. -/
def joinGroup (others : List Entry) : (fuel : Nat) → List Entry → List Entry
  | 0, entries => entries
  | _, [] => []
  | fuel + 1, e :: rest =>
    let (joined, left) := absorb others e rest
    joined :: joinGroup others fuel left

/-- Joins the entries of one group after the other; `done` holds the groups joined so far. -/
def joinGroups : (done todo : List Group) → List Group
  | done, [] => done
  | done, g :: rest =>
    let others := (done ++ rest).flatMap fun h => h.entries
    joinGroups (done ++ [{ g with entries := joinGroup others g.entries.length g.entries }]) rest

/-- A shorter table that routes every key of the table in the same way, if keys with two routes
do not occur in it. -/
def minimise (table : List Entry) : List Entry :=
  (joinGroups [] (group table)).flatMap fun g => g.entries

end MulticastMesh.Tables.Unordered
