import MulticastMesh.Failure
import MulticastMesh.Tables.Table
/-!
# Checking that compression preserves routes

The keys of every entry are followed as one pattern.  A pattern is halved wherever an entry
covers only a part of it, so the work depends on the number of entries and not of keys.
-/

namespace MulticastMesh.Tables

open Keys (Pattern)
open Mesh (Coord)
open Routing (Route)

/-- Runs a check on both halves of some keys; the half with the bit set goes first. -/
def checkHalves (keys : Pattern) (e : Entry) (check : Pattern → Except Mismatch Unit) :
    Except Mismatch Unit :=
  match keys.split? e.pattern with
  | none => .error (.unsplittable keys e)
  | some (high, low) => do
    check high
    check low

/-- Checks that keys with a given route have it in the compressed table, unless an earlier entry
of the uncompressed table catches them. -/
def checkKeys (chip : Coord) (earlier compressed : List Entry) (route : Route) :
    (fuel : Nat) → Pattern → Except Mismatch Unit
  | 0, _ => .ok ()
  | fuel + 1, keys =>
    match earlier.find? fun e => keys.intersects e.pattern with
    | some e =>
      if keys.coveredBy e.pattern then .ok ()
      else checkHalves keys e (checkKeys chip earlier compressed route fuel)
    | none =>
      match compressed.find? fun e => keys.intersects e.pattern with
      | none => .error (.keysLost chip keys)
      | some e =>
        if keys.coveredBy e.pattern then
          if e.route = route then .ok ()
          else .error (.routeChanged chip keys route e.route)
        else checkHalves keys e (checkKeys chip earlier compressed route fuel)

def checkEntries (chip : Coord) (compressed : List Entry) : (earlier : List Entry) →
    List Entry → Except Mismatch Unit
  | _, [] => .ok ()
  | earlier, e :: rest => do
    let keys : Pattern := ⟨e.pattern.key &&& e.pattern.mask, e.pattern.mask⟩
    checkKeys chip earlier compressed e.route (keys.generality + 1) keys
    checkEntries chip compressed (earlier ++ [e]) rest

/-- Checks that every key of a table keeps its route. -/
def checkTable (uncompressed compressed : Table) : Except Mismatch Unit :=
  checkEntries uncompressed.chip compressed.entries [] uncompressed.entries

def checkTables (uncompressed compressed : TableSet) : Outcome Unit :=
  uncompressed.toList.forM fun t =>
    match compressed.table? t.chip with
    | none => .error ⟨[], .mismatch (.missingTable t.chip)⟩
    | some other =>
      Outcome.during (.checkingTable t.chip) (monadLift (checkTable t other))

end MulticastMesh.Tables
