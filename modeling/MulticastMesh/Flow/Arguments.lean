import MulticastMesh.Flow.Route
import MulticastMesh.Placing.Config
/-!
# Arguments of the commands
-/

namespace MulticastMesh.Flow

open Mesh (Coord)
open Placing (PlacerConfig)
open Text (readNumeral trimBlanks)

private def coordinate (activity : Activity) (cs : List Char) : Outcome Nat :=
  Outcome.during activity (monadLift (readNumeral (UInt32.size - 1) (trimBlanks cs)))

/-- A chip written as column, comma, row. -/
def parseChip (text : String) : Outcome Coord := do
  let cs := text.toList
  match cs.dropWhile (· != ',') with
  | [] => throw ⟨[], .notAChip text⟩
  | _ :: y => do
    let x := cs.takeWhile (· != ',')
    let column ← coordinate (.readingColumn (String.ofList x)) x
    let row ← coordinate (.readingRow (String.ofList y)) y
    return ⟨column, row⟩

structure PlaceArguments where
  input? : Option String := none
  output? : Option String := none
  startChip? : Option String := none
  reportDirectory? : Option String := none
  deriving DecidableEq, Repr

structure PlaceCommand where
  input : String
  output : String
  config : PlacerConfig
  deriving DecidableEq, Repr

private def given (name : String) : Option String → Outcome String
  | some value => .ok value
  | none => .error ⟨[], .missingArgument name⟩

def PlaceCommand.ofArguments (a : PlaceArguments) : Outcome PlaceCommand := do
  let input ← given "INPUT" a.input?
  let output ← given "OUTPUT" a.output?
  let start? ← Outcome.during .readingStartChip (a.startChip?.mapM parseChip)
  let reportDirectory ← given "REPORT_DIR" a.reportDirectory?
  return { input, output, config := { start?, reportDirectory } }

structure RouteArguments where
  input? : Option String := none
  output? : Option String := none
  router : String := "dijkstra"
  compressor : String := "ordered-covering"
  maxEntries : String := "1023"
  keysFile? : Option String := none
  uncompressedFile? : Option String := none
  validate : Bool := true
  deriving DecidableEq, Repr

structure RouteCommand where
  input : String
  output : String
  keysFile? : Option String
  uncompressedFile? : Option String
  options : RoutingOptions
  deriving Repr

def RouteCommand.ofArguments (a : RouteArguments) : Outcome RouteCommand := do
  let input ← given "INPUT" a.input?
  let output ← given "OUTPUT" a.output?
  let router ← Outcome.lift id (Routing.RouterKind.ofName a.router)
  let compressor ← Outcome.lift id (Tables.Compressor.ofName a.compressor)
  let maxEntries ← Outcome.during .readingMaxEntries
    (monadLift (readNumeral (UInt64.size - 1) a.maxEntries.toList))
  return {
    input, output
    keysFile? := a.keysFile?
    uncompressedFile? := a.uncompressedFile?
    options := { router, compressor, maxEntries, validate := a.validate } }

end MulticastMesh.Flow
