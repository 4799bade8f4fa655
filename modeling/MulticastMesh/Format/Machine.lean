import MulticastMesh.Json.Fields
import MulticastMesh.Mesh.Machine
/-!
# Format of machine descriptions
-/

namespace MulticastMesh.Mesh

open Json (bool? list? name? nat8? nat32? nat64? pair?)

def Coord.toJson (c : Coord) : Json := .object [("x", .nat c.x), ("y", .nat c.y)]

def Coord.ofJson? (j : Json) : Option Coord := do
  let f ← j.fields? ["x", "y"]
  return { x := ← f.required "x" nat32?, y := ← f.required "y" nat32? }

def Coord.toRow (c : Coord) : Json := .array [.nat c.x, .nat c.y]

def Link.toJson (l : Link) : Json := .string l.name

def Link.ofJson? (j : Json) : Option Link := (name? j).bind Link.ofName?

def ChipSpec.toJson (c : ChipSpec) : Json := .object [
  ("n_processors", .nat c.processors),
  ("n_monitors", .nat c.monitors),
  ("sdram", .nat c.sdram),
  ("router_entries", .nat c.routerEntries),
  ("cpu_cycles_per_core", .nat c.cyclesPerCore)]

def ChipSpec.ofJson? (j : Json) : Option ChipSpec := do
  let f ← j.fields?
    ["n_processors", "n_monitors", "sdram", "router_entries", "cpu_cycles_per_core"]
  let usual : ChipSpec := {}
  return {
    processors := ← f.defaulted "n_processors" nat8? usual.processors
    monitors := ← f.defaulted "n_monitors" nat8? usual.monitors
    sdram := ← f.defaulted "sdram" nat64? usual.sdram
    routerEntries := ← f.defaulted "router_entries" nat32? usual.routerEntries
    cyclesPerCore := ← f.defaulted "cpu_cycles_per_core" nat64? usual.cyclesPerCore }

def MachineSpec.toJson (d : MachineSpec) : Json := .object [
  ("width", .nat d.width),
  ("height", .nat d.height),
  ("wrap", .bool d.wraps),
  ("board_width", .nat d.boardWidth),
  ("board_height", .nat d.boardHeight),
  ("chip", d.chip.toJson),
  ("dead_chips", .list Coord.toJson d.deadChips),
  ("dead_links", .list (fun (c, l) => .array [c.toJson, l.toJson]) d.deadLinks)]

def MachineSpec.ofJson? (j : Json) : Option MachineSpec := do
  let f ← j.fields? ["width", "height", "wrap", "board_width", "board_height", "chip",
    "dead_chips", "dead_links"]
  let width ← f.required "width" nat32?
  let height ← f.required "height" nat32?
  let usual : MachineSpec := { width, height }
  return {
    width, height
    wraps := ← f.defaulted "wrap" bool? usual.wraps
    boardWidth := ← f.defaulted "board_width" nat32? usual.boardWidth
    boardHeight := ← f.defaulted "board_height" nat32? usual.boardHeight
    chip := ← f.defaulted "chip" ChipSpec.ofJson? usual.chip
    deadChips := ← f.defaulted "dead_chips" (list? Coord.ofJson?) usual.deadChips
    deadLinks := ← f.defaulted "dead_links" (list? (pair? Coord.ofJson? Link.ofJson?))
      usual.deadLinks }

/-- What there is on a chip of a machine.  This is only written. -/
def Chip.toJson (c : Chip) : Json := .object [
  ("chip", c.coord.toRow),
  ("n_processors", .nat c.processors),
  ("n_monitors", .nat c.monitors),
  ("user", .array [.nat c.monitors, .nat c.processors]),
  ("n_user", .nat c.userProcessorCount),
  ("sdram", .nat c.sdram),
  ("router_entries", .nat c.routerEntries),
  ("ethernet", c.ethernet.toRow),
  ("is_ethernet", .bool c.isEthernet),
  ("links", .list (fun l => .nat l.id) c.links)]

end MulticastMesh.Mesh
