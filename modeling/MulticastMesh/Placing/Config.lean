import MulticastMesh.Mesh.Coord
/-!
# Settings of a placement
-/

namespace MulticastMesh.Placing

open Mesh (Coord)

/-- A core that the system takes before placement starts. -/
structure ReservedCore where
  chip : Coord
  processor : Nat
  deriving DecidableEq, Repr

structure PlacerConfig where
  /-- Where the search starts; the first chip with an Ethernet connection if not given. -/
  start? : Option Coord := none
  /-- Cores that are never used, besides those that the problem lists. -/
  reserved : List ReservedCore := []
  /-- Where the report of a failed placement goes. -/
  reportDirectory : String := "/tmp"
  deriving DecidableEq, Repr

def reportName : String := "placement_failure.txt"

end MulticastMesh.Placing
