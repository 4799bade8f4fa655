import MulticastMesh.Flow.Problem
import MulticastMesh.Keys.Allocation
import MulticastMesh.Routing.Router
import MulticastMesh.Tables.Compress
import MulticastMesh.Tables.Delivery
import MulticastMesh.Tables.Generate
import MulticastMesh.Tables.Preservation
/-!
# From a placed design to routing tables
-/

namespace MulticastMesh.Flow

open Keys (Assignment)
open Routing (Router RouterKind)
open Tables (Compressor TableSet)

structure RoutingOptions where
  router : RouterKind := .cheapest
  pricing : Routing.Cheapest.Pricing := {}
  compressor : Compressor := .orderedCovering
  maxEntries : Nat := Tables.routerEntries
  /-- Whether to check the tables against the graph, and compressed tables against generated
  ones. -/
  validate : Bool := true
  deriving Repr

structure RoutedDesign where
  keys : Assignment
  /-- The tables as generated. -/
  uncompressed : TableSet
  tables : TableSet

/-- Gives the partitions of a design their keys, routes them and builds the tables. -/
def routeDesign (d : PlacedDesign) (options : RoutingOptions) : Outcome RoutedDesign := do
  let machine ← buildMachine d.machine
  let keys ← Outcome.during .allocatingKeys (Keys.allocate d.app d.graph)
  let router := Router.fresh options.router options.pricing
  let paths ← Outcome.during .routing
    (Routing.routeAll router machine d.graph d.placements)
  let uncompressed ← Outcome.during .generatingTables (Tables.generate keys paths)
  if options.validate then
    Outcome.during .validatingGenerated
      (Tables.validate machine d.graph d.placements keys uncompressed)
  let tables ← Outcome.during .compressingTables
    (Tables.compressAll options.compressor options.maxEntries uncompressed)
  if options.validate then
    Tables.checkTables uncompressed tables
    Outcome.during .validatingCompressed
      (Tables.validate machine d.graph d.placements keys tables)
  return { keys, uncompressed, tables }

end MulticastMesh.Flow
