import MulticastMesh.Keys.Pattern
import MulticastMesh.Routing.Route
/-!
# Routing tables

A router looks a packet's key up in an ordered table and follows the first entry that matches.
-/

namespace MulticastMesh.Tables

open Keys (Key Pattern)
open Mesh (Coord)
open Routing (Route)

structure Entry where
  pattern : Pattern
  route : Route
  /-- The entry only passes packets straight through, so a router could do without it. -/
  defaultable : Bool
  deriving DecidableEq, Repr

namespace Entry

def Matches (e : Entry) (k : Key) : Prop := e.pattern.Matches k

instance (e : Entry) (k : Key) : Decidable (e.Matches k) :=
  inferInstanceAs (Decidable (e.pattern.Matches k))

def intersects (e f : Entry) : Bool := e.pattern.intersects f.pattern

def join (e f : Entry) : Entry where
  pattern := e.pattern.join f.pattern
  route := e.route
  defaultable := e.defaultable && f.defaultable

def text (e : Entry) : String :=
  s!"MulticastRoutingEntry \x7b key: {e.pattern.key.toNat}, mask: {e.pattern.mask.toNat}, " ++
    s!"route: Route({e.route.toNat}), defaultable: {e.defaultable} \x7d"

end Entry

def lookup? (entries : List Entry) (k : Key) : Option Entry :=
  entries.find? fun e => decide (e.Matches k)

structure Table where
  chip : Coord
  entries : List Entry
  deriving DecidableEq, Repr

namespace Table

def size (t : Table) : Nat := t.entries.length

def lookup? (t : Table) (k : Key) : Option Entry := Tables.lookup? t.entries k

end Table

structure TableExists where
  chip : Coord
  deriving DecidableEq, Repr

def TableExists.message (e : TableExists) : String :=
  s!"A routing table for {e.chip.text} already exists"

/-- At most one table for each chip. -/
structure TableSet where
  byChip : Std.ExtTreeMap Coord (List Entry) compare

namespace TableSet

def empty : TableSet := ⟨∅⟩

def toList (s : TableSet) : List Table :=
  s.byChip.toList.map fun (chip, entries) => ⟨chip, entries⟩

def entries? (s : TableSet) (chip : Coord) : Option (List Entry) := s.byChip[chip]?

def table? (s : TableSet) (chip : Coord) : Option Table :=
  (s.entries? chip).map fun entries => ⟨chip, entries⟩

def insert (s : TableSet) (t : Table) : Except TableExists TableSet :=
  if (s.entries? t.chip).isSome then .error ⟨t.chip⟩
  else .ok ⟨s.byChip.insert t.chip t.entries⟩

def ofList (tables : List Table) : Except TableExists TableSet := tables.foldlM insert empty

def size (s : TableSet) : Nat := s.byChip.size

def maxEntries (s : TableSet) : Nat := (s.toList.map Table.size).foldl max 0

def entryCount (s : TableSet) : Nat := (s.toList.map Table.size).foldr (· + ·) 0

def lookup? (s : TableSet) (chip : Coord) (k : Key) : Option Entry := do
  let entries ← s.entries? chip
  Tables.lookup? entries k

end TableSet

end MulticastMesh.Tables
