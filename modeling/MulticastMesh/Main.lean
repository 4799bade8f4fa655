import MulticastMesh.Flow.Arguments
import MulticastMesh.Flow.Document
import MulticastMesh.Flow.Place
import MulticastMesh.Format.Tables
/-!
# Command line

`place` reads a problem and writes a placed design; `route` reads a placed design and writes
routing tables.
-/

namespace MulticastMesh

open MulticastMesh.Flow

private def readFile (path : String) : IO (Outcome String) := do
  try
    return .ok (← IO.FS.readFile path)
  catch error =>
    return .error (openFailed path (toString error))

private def writeFile (path contents : String) : IO (Outcome Unit) := do
  try
    IO.FS.writeFile path contents
    return .ok ()
  catch error =>
    return .error (createFailed path (toString error))

private def report (failure : Failure) : IO UInt32 := do
  IO.eprintln s!"Error: {failure.message}"
  if let .placing (.noMoreChips _ _ account) := failure.cause then
    if let .error unwritten ← writeFile account.path account.text then
      IO.eprintln s!"Could not place the report: {unwritten.message}"
  return 1

private def save (path : String) (j : Json) (andThen : IO UInt32) : IO UInt32 := do
  match ← writeFile path j.text with
  | .ok () => andThen
  | .error failure => report failure

private def place (command : PlaceCommand) : IO UInt32 := do
  let contents ← readFile command.input
  let placed := do
    let problem ← parseProblem command.input (← contents)
    placeDesign problem command.config
  match placed with
  | .ok design => save command.output design.toJson (return 0)
  | .error failure => report failure

private def saveMaybe (path? : Option String) (j : Outcome Json) (andThen : IO UInt32) :
    IO UInt32 :=
  match path?, j with
  | none, _ => andThen
  | some path, .ok j => save path j andThen
  | some _, .error failure => report failure

private def route (command : RouteCommand) : IO UInt32 := do
  let contents ← readFile command.input
  let routed := do
    let design ← parsePlacedDesign command.input (← contents)
    let routed ← Outcome.during (.routingDesign command.input)
      (routeDesign design command.options)
    return (design, routed)
  match routed with
  | .error failure => report failure
  | .ok (design, routed) =>
    let records := do
      return Json.list Keys.KeyRecord.toJson (← routed.keys.records design.graph)
    saveMaybe command.keysFile? records <|
      saveMaybe command.uncompressedFile? (.ok routed.uncompressed.toJson) <|
        save command.output routed.tables.toJson (return 0)

private def placeArguments : PlaceArguments → List String → Option PlaceArguments
  | a, [] => some a
  | a, "--start-chip" :: value :: rest => placeArguments { a with startChip? := some value } rest
  | a, "--report-dir" :: value :: rest =>
    placeArguments { a with reportDirectory? := some value } rest
  | a, value :: rest =>
    if a.input?.isNone then placeArguments { a with input? := some value } rest
    else if a.output?.isNone then placeArguments { a with output? := some value } rest
    else none

private def routeArguments : RouteArguments → List String → Option RouteArguments
  | a, [] => some a
  | a, "--no-validate" :: rest => routeArguments { a with validate := false } rest
  | a, "--router" :: value :: rest => routeArguments { a with router := value } rest
  | a, "--compressor" :: value :: rest => routeArguments { a with compressor := value } rest
  | a, "--max-entries" :: value :: rest => routeArguments { a with maxEntries := value } rest
  | a, "--routing-info" :: value :: rest =>
    routeArguments { a with keysFile? := some value } rest
  | a, "--uncompressed" :: value :: rest =>
    routeArguments { a with uncompressedFile? := some value } rest
  | a, value :: rest =>
    if a.input?.isNone then routeArguments { a with input? := some value } rest
    else if a.output?.isNone then routeArguments { a with output? := some value } rest
    else none

private def usage : IO UInt32 := do
  IO.eprintln "usage: place [--start-chip X,Y] [--report-dir DIR] INPUT OUTPUT"
  IO.eprintln ("       route [--router R] [--compressor C] [--max-entries N] " ++
    "[--routing-info FILE] [--uncompressed FILE] [--no-validate] INPUT OUTPUT")
  return 2

end MulticastMesh

open MulticastMesh in
def main (arguments : List String) : IO UInt32 := do
  match arguments with
  | "place" :: rest =>
    match placeArguments { reportDirectory? := some "." } rest with
    | none => usage
    | some a =>
      match Flow.PlaceCommand.ofArguments a with
      | .ok command => place command
      | .error failure => report failure
  | "route" :: rest =>
    match routeArguments {} rest with
    | none => usage
    | some a =>
      match Flow.RouteCommand.ofArguments a with
      | .ok command => route command
      | .error failure => report failure
  | _ => usage
