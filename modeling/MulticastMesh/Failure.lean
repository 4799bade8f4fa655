import MulticastMesh.Graph.Error
import MulticastMesh.Keys.Error
import MulticastMesh.Layout.Placements
import MulticastMesh.Placing.Error
import MulticastMesh.Routing.Error
import MulticastMesh.Slicing.Error
import MulticastMesh.Tables.Error
import MulticastMesh.Text.Numeral
/-!
# Failures

A failure is a cause and the activities that it interrupted.  Causes come from every part of the
library; a narrower error becomes a failure by lifting.
-/

namespace MulticastMesh

open Text (quoted)

inductive Cause where
  | machine (error : Mesh.MachineError)
  | graph (error : Graph.GraphError)
  | placement (error : Layout.PlacementError)
  | slicing (error : Slicing.SlicingError)
  | placing (error : Placing.PlaceError)
  | keys (error : Keys.KeyError)
  | routing (error : Routing.RoutingError)
  | unroutable (error : Routing.Unroutable)
  | tableExists (error : Tables.TableExists)
  | tooManyEntries (error : Tables.TooManyEntries)
  | mismatch (error : Tables.Mismatch)
  | misdelivery (error : Tables.Misdelivery)
  | numeral (error : Text.NumeralError)
  | unknownEndpoint (label : String)
  | noKeys (identifier : String) (source : Graph.MachineVertexId)
  /-- A search reached a chip but lost how it got there. -/
  | lostWayBack (chip : Mesh.Coord)
  | unknownRouter (name : String)
  | unknownCompressor (name : String)
  | missingArgument (name : String)
  | notAChip (text : String)
  /-- A file can not be opened or created. -/
  | noAccess (reason : String)
  /-- A file's contents do not have the form they should. -/
  | malformed
  deriving DecidableEq

def Cause.message : Cause → String
  | .machine e => e.message
  | .graph e => e.message
  | .placement e => e.message
  | .slicing e => e.message
  | .placing e => e.message
  | .keys e => e.message
  | .routing e => e.message
  | .unroutable e => e.message
  | .tableExists e => e.message
  | .tooManyEntries e => e.message
  | .mismatch e => e.message
  | .misdelivery e => e.message
  | .numeral e => e.message
  | .unknownEndpoint label => s!"Edge endpoint {quoted label} is not a vertex"
  | .noKeys identifier source =>
    s!"No keys allocated to partition {quoted identifier} of {source.text}"
  | .lostWayBack chip => s!"Search lost the way back from {chip.text}"
  | .unknownRouter name => s!"Unknown router {quoted name}"
  | .unknownCompressor name => s!"Unknown compressor {quoted name}"
  | .missingArgument name => s!"Missing argument {name}"
  | .notAChip text => s!"Expected a chip as X,Y, got {quoted text}"
  | .noAccess reason => reason
  | .malformed => "not in the expected form"

/-- What was being done when something failed. -/
inductive Activity where
  | buildingMachine
  | partitioning
  | slicing (label : String)
  | creatingVertices (label : String)
  | expandingEdge (pre post : String)
  | placing
  | placingVertex (label : String)
  | readingStartChip
  | readingColumn (text : String)
  | readingRow (text : String)
  | readingMaxEntries
  | allocatingKeys
  | fixedKeysOf (label : String)
  | routing
  | routingPartition (identifier label : String)
  | generatingTables
  | generatingTable (chip : Mesh.Coord)
  | validatingGenerated
  | validatingCompressed
  | validatingPartition (identifier label : String)
  | compressingTables
  | compressingTable (chip : Mesh.Coord)
  | checkingTable (chip : Mesh.Coord)
  | opening (path : String)
  | parsing (path : String)
  | creating (path : String)
  | routingDesign (path : String)
  deriving DecidableEq, Repr

def Activity.message : Activity → String
  | .buildingMachine => "Building machine from description"
  | .partitioning => "Partitioning"
  | .slicing label => s!"Slicing {label}"
  | .creatingVertices label => s!"Creating machine vertices of {label}"
  | .expandingEdge pre post => s!"Expanding edge {pre} -> {post}"
  | .placing => "Placing"
  | .placingVertex label => s!"Placing {label}"
  | .readingStartChip => "Parse START_CHIP"
  | .readingColumn text => s!"Parse chip x {quoted text}"
  | .readingRow text => s!"Parse chip y {quoted text}"
  | .readingMaxEntries => "Parsing max entries argument"
  | .allocatingKeys => "Allocating keys"
  | .fixedKeysOf label => s!"Fixed key and mask of {label}"
  | .routing => "Routing"
  | .routingPartition identifier label =>
    s!"Routing partition {quoted identifier} of {label}"
  | .generatingTables => "Generating routing tables"
  | .generatingTable chip => s!"Generating the routing table of {chip.text}"
  | .validatingGenerated => "Validating generated tables"
  | .validatingCompressed => "Validating compressed tables"
  | .validatingPartition identifier label =>
    s!"Validating routes of partition {quoted identifier} of {label}"
  | .compressingTables => "Compressing routing tables"
  | .compressingTable chip => s!"Compressing the table of {chip.text}"
  | .checkingTable chip => s!"Checking the compressed table of {chip.text}"
  | .opening path => s!"Opening {quoted path}"
  | .parsing path => s!"Parsing {quoted path}"
  | .creating path => s!"Creating {quoted path}"
  | .routingDesign path => s!"Routing {quoted path}"

structure Failure where
  /-- The interrupted activities, outermost first. -/
  during : List Activity
  cause : Cause
  deriving DecidableEq

def Failure.message (f : Failure) : String :=
  ": ".intercalate (f.during.map Activity.message ++ [f.cause.message])

abbrev Outcome := Except Failure

namespace Outcome

def fail {α : Type} (cause : Cause) : Outcome α := .error ⟨[], cause⟩

/-- Notes an activity around whatever fails in it. -/
def during {α : Type} (activity : Activity) : Outcome α → Outcome α
  | .ok a => .ok a
  | .error f => .error { f with during := activity :: f.during }

/-- A result with a narrower kind of error. -/
def lift {ε α : Type} (cause : ε → Cause) : Except ε α → Outcome α
  | .ok a => .ok a
  | .error e => fail (cause e)

instance : MonadLift (Except Mesh.MachineError) Outcome := ⟨lift .machine⟩
instance : MonadLift (Except Graph.GraphError) Outcome := ⟨lift .graph⟩
instance : MonadLift (Except Layout.PlacementError) Outcome := ⟨lift .placement⟩
instance : MonadLift (Except Slicing.SlicingError) Outcome := ⟨lift .slicing⟩
instance : MonadLift (Except Placing.PlaceError) Outcome := ⟨lift .placing⟩
instance : MonadLift (Except Keys.KeyError) Outcome := ⟨lift .keys⟩
instance : MonadLift (Except Routing.RoutingError) Outcome := ⟨lift .routing⟩
instance : MonadLift (Except Routing.Unroutable) Outcome := ⟨lift .unroutable⟩
instance : MonadLift (Except Tables.TableExists) Outcome := ⟨lift .tableExists⟩
instance : MonadLift (Except Tables.TooManyEntries) Outcome := ⟨lift .tooManyEntries⟩
instance : MonadLift (Except Tables.Mismatch) Outcome := ⟨lift .mismatch⟩
instance : MonadLift (Except Tables.Misdelivery) Outcome := ⟨lift .misdelivery⟩
instance : MonadLift (Except Text.NumeralError) Outcome := ⟨lift .numeral⟩

end Outcome

end MulticastMesh
