import MulticastMesh.Placing.ChipRoom
import MulticastMesh.Placing.Error
import MulticastMesh.Slicing.Edges
/-!
# Reports of failed placements

Which application vertices did not make it, what is on each chip, and which chips nothing was put
on.
-/

namespace MulticastMesh.Placing.Report

open MulticastMesh.Graph (AppVertexId ApplicationGraph ApplicationVertex GraphError MachineGraph)
open Mesh (Chip Coord Machine)
open Layout (Placements)

/-- Text being written; what is written before a fault stays. -/
abbrev Writer := ExceptT GraphError (StateM String)

private def line (text : String) : Writer Unit :=
  modify fun sofar => sofar ++ text ++ "\n"

private def asking {α : Type} (answer : Except GraphError α) : Writer α :=
  ExceptT.mk (pure answer)

/-- Application vertices with a machine vertex that is not placed. -/
def unplaced (app : ApplicationGraph) (g : MachineGraph) (placements : Placements) :
    List (AppVertexId × ApplicationVertex) :=
  app.toList.filter fun (id, _) => (g.verticesOf id).any fun v => !placements.isPlaced v

private def chipSection (g : MachineGraph) (placements : Placements) (chip : Coord) :
    Writer Unit := do
  line s!"Chip {chip.text}:"
  let memory ← (placements.onChip chip).mapM fun p => do
    let vertex ← asking (g.vertex p.vertex)
    line s!"    Processor {p.processor}: Vertex {vertex.label}"
    return vertex.resources.sdram
  let used := memory.foldr (· + ·) 0
  line s!"    {used} bytes of SDRAM used"
  line ""

private def groupSection (g : MachineGraph) (placements : Placements)
    (group : Slicing.ChipGroup) : Writer Unit := do
  line s!"    Group of {group.vertices.length} vertices uses {group.sdram} bytes of SDRAM:"
  group.vertices.forM fun v => do
    let vertex ← asking (g.vertex v)
    let place := match placements.find? v with
      | none => ""
      | some p => s!" (placed at {p.chip.x}, {p.chip.y}, {p.processor})"
    line s!"        Vertex {vertex.label}{place}"

private def vertexSection (g : MachineGraph) (placements : Placements) (id : AppVertexId)
    (vertex : ApplicationVertex) : Writer Unit := do
  line s!"Vertex: {vertex.label}"
  let groups ← asking (Slicing.chipGroups vertex.splitter g id)
  groups.forM (groupSection g placements)

private def unusedChip (reserved : List ReservedCore) (chip : Chip) : Writer Unit :=
  let free := (ChipRoom.unreserved chip reserved).length
  line s!"    {chip.coord.x}, {chip.coord.y} ({free} free cores)"

private def write (app : ApplicationGraph) (g : MachineGraph) (m : Machine)
    (placements : Placements) (reserved : List ReservedCore) : Writer Unit := do
  let missing := unplaced app g placements
  line s!"Could not place {missing.length} of {app.size} application vertices."
  line ""
  placements.chips.forM (chipSection g placements)
  line "Not placed:"
  missing.forM fun (id, vertex) => vertexSection g placements id vertex
  line ""
  line "Unused chips:"
  (m.workingChips.filter fun chip => (placements.onChip chip.coord).isEmpty).forM
    (unusedChip reserved)

def text (app : ApplicationGraph) (g : MachineGraph) (m : Machine) (placements : Placements)
    (reserved : List ReservedCore) : String :=
  ((write app g m placements reserved).run.run "").2

end MulticastMesh.Placing.Report
