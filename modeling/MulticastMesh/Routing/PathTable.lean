import MulticastMesh.Graph.Basic
import MulticastMesh.Routing.Error
/-!
# Path entries

What the routing tree of one partition does on one chip.  A table holds the entries of all
partitions on all chips, ordered by chip and then by partition, so that the partitions of the
slices of one vertex stand next to each other.
-/

namespace MulticastMesh.Routing

open MulticastMesh.Graph (AppVertexId MachineVertexId)
open Mesh (Coord)

structure PathEntry where
  route : Route
  entrance? : Option Entrance
  deriving DecidableEq, Repr

namespace PathEntry

/-- Whether a packet comes in over a link and only goes out over the opposite one.  A router does
that without any entry. -/
def defaultable (e : PathEntry) : Bool :=
  match e.entrance? with
  | some (.link link) => e.route.processors.isEmpty && e.route.links == [link.opposite]
  | _ => false

/-- Combines what one partition does on one chip; it can enter the chip in one way only. -/
def merge (a b : PathEntry) (chip : Coord) (identifier : String) :
    Except RoutingError PathEntry :=
  match a.entrance?, b.entrance? with
  | some x, some y =>
    if x = y then .ok ⟨a.route.union b.route, some x⟩
    else .error (.conflictingEntry chip identifier x y)
  | some x, none => .ok ⟨a.route.union b.route, some x⟩
  | none, entrance? => .ok ⟨a.route.union b.route, entrance?⟩

end PathEntry

structure PartitionSource where
  app? : Option AppVertexId
  identifier : String
  vertex : MachineVertexId
  deriving DecidableEq, Repr

namespace PartitionSource

private def sortKey (s : PartitionSource) : Option AppVertexId × (String × MachineVertexId) :=
  (s.app?, s.identifier, s.vertex)

instance : Ord PartitionSource where
  compare := compareOn sortKey

instance : Std.TransOrd PartitionSource :=
  inferInstanceAs (Std.TransCmp (compareOn sortKey))

instance : Std.LawfulEqOrd PartitionSource where
  eq_of_compare {a b} h := by
    have h : sortKey a = sortKey b := Std.LawfulEqOrd.eq_of_compare h
    cases a
    cases b
    simpa [sortKey] using h

end PartitionSource

structure PathTable where
  entries : Std.ExtTreeMap (Coord × PartitionSource) PathEntry compare

namespace PathTable

def empty : PathTable := ⟨∅⟩

def entry? (t : PathTable) (chip : Coord) (source : PartitionSource) : Option PathEntry :=
  t.entries[(chip, source)]?

def toList (t : PathTable) : List ((Coord × PartitionSource) × PathEntry) := t.entries.toList

def add (t : PathTable) (chip : Coord) (source : PartitionSource) (e : PathEntry) :
    Except RoutingError PathTable :=
  match t.entry? chip source with
  | none => .ok ⟨t.entries.insert (chip, source) e⟩
  | some existing =>
    (existing.merge e chip source.identifier).map fun merged =>
      ⟨t.entries.insert (chip, source) merged⟩

def entriesOn (t : PathTable) (chip : Coord) : List (PartitionSource × PathEntry) :=
  (t.toList.filter fun item => item.1.1 == chip).map fun item => (item.1.2, item.2)

def countOn (t : PathTable) (chip : Coord) : Nat := (t.entriesOn chip).length

def chips (t : PathTable) : List Coord := (t.toList.map fun item => item.1.1).eraseDups

end PathTable

end MulticastMesh.Routing
