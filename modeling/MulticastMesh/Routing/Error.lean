import MulticastMesh.Routing.Route
/-!
# What can go wrong while routing
-/

namespace MulticastMesh.Routing

open Mesh (Coord Link)

/-- How packets get into a router: over a link, or from a processor of the chip. -/
inductive Entrance where
  | link (link : Link)
  | processor (p : Nat)
  deriving DecidableEq, Repr

def Entrance.text : Entrance → String
  | .link l => s!"Link({l.name})"
  | .processor p => s!"Processor({p})"

inductive RoutingError where
  | unreachable (source destination : Coord)
  | cycle (chip : Coord)
  | bandwidthExhausted (chip : Coord) (link : Link)
  | entriesExhausted (chip : Coord)
  /-- One partition would enter a chip in two ways. -/
  | conflictingEntry (chip : Coord) (identifier : String) (existing new : Entrance)
  deriving DecidableEq, Repr

def RoutingError.message : RoutingError → String
  | .unreachable source destination =>
    s!"{destination.text} can not be reached from {source.text}"
  | .cycle chip => s!"cycle detected at {chip.text} while tracing a route"
  | .bandwidthExhausted chip link =>
    s!"no bandwidth left on link {link.name} of {chip.text}"
  | .entriesExhausted chip => s!"no routing entries left on {chip.text}"
  | .conflictingEntry chip identifier existing new =>
    s!"partition {Text.quoted identifier} enters {chip.text} from {existing.text} " ++
      s!"and from {new.text}"

end MulticastMesh.Routing
