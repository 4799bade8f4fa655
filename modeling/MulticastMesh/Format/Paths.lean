import MulticastMesh.Format.MachineGraph
import MulticastMesh.Routing.PathTable
/-!
# Formats of routes and paths

These are only written.  A link is written as its number here.
-/

namespace MulticastMesh.Routing

def Route.fields (r : Route) : List (String × Json) := [
  ("link_ids", .list (fun l => .nat l.id) r.links),
  ("processor_ids", .list .nat r.processors)]

def Entrance.toJson : Entrance → Json
  | .link l => .object [("link", .nat l.id)]
  | .processor p => .object [("processor", .nat p)]

def PathEntry.fields (e : PathEntry) : List (String × Json) :=
  e.route.fields ++ [
    ("incoming", .option Entrance.toJson e.entrance?),
    ("defaultable", .bool e.defaultable)]

def PartitionSource.fields (s : PartitionSource) : List (String × Json) := [
  ("app", .option Graph.AppVertexId.toJson s.app?),
  ("identifier", .string s.identifier),
  ("vertex", s.vertex.toJson)]

def PathTable.toJson (t : PathTable) : Json :=
  .list (fun chip => .object [
      ("chip", chip.toRow),
      ("entries", .list (fun (source, e) => .object (e.fields ++ source.fields))
        (t.entriesOn chip))])
    t.chips

end MulticastMesh.Routing
