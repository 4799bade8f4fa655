import MulticastMesh.Format.Paths
import MulticastMesh.Keys.Assignment
import MulticastMesh.Tables.Table
/-!
# Formats of routing tables and allocated keys

These are only written.
-/

namespace MulticastMesh

namespace Tables

def Entry.toJson (e : Entry) : Json := .object ([
  ("key", .nat e.pattern.key.toNat),
  ("mask", .nat e.pattern.mask.toNat)] ++ e.route.fields ++ [
  ("defaultable", .bool e.defaultable)])

def Table.toJson (t : Table) : Json := .object [
  ("x", .nat t.chip.x),
  ("y", .nat t.chip.y),
  ("entries", .list Entry.toJson t.entries)]

def TableSet.toJson (s : TableSet) : Json := .list Table.toJson s.toList

end Tables

def Keys.KeyRecord.toJson (r : KeyRecord) : Json := .object [
  ("vertex", .string r.label),
  ("partition", .string r.identifier),
  ("key", .nat r.range.key.toNat),
  ("mask", .nat r.range.mask.toNat)]

end MulticastMesh
