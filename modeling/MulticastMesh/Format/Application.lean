import MulticastMesh.Format.Machine
import MulticastMesh.Graph.Application
/-!
# Format of application graphs
-/

namespace MulticastMesh.Graph

open Json (bool? list? name? nat8? nat32? nat64? pair? string? tagged? word?)
open Mesh (Coord)

def AppVertexId.toJson (v : AppVertexId) : Json := .nat v.index

def AppVertexId.ofJson? (j : Json) : Option AppVertexId := (nat32? j).map AppVertexId.mk

def CostModel.toJson (c : CostModel) : Json := .object [
  ("fixed_sdram", .nat c.fixedSdram),
  ("sdram_per_atom", .nat c.sdramPerAtom),
  ("sdram_per_synapse", .nat c.sdramPerSynapse),
  ("fixed_cpu_cycles", .nat c.fixedCycles),
  ("cpu_cycles_per_atom", .nat c.cyclesPerAtom)]

def CostModel.ofJson? (j : Json) : Option CostModel := do
  let f ← j.fields? ["fixed_sdram", "sdram_per_atom", "sdram_per_synapse", "fixed_cpu_cycles",
    "cpu_cycles_per_atom"]
  return {
    fixedSdram := ← f.defaulted "fixed_sdram" nat64? 0
    sdramPerAtom := ← f.defaulted "sdram_per_atom" nat64? 0
    sdramPerSynapse := ← f.defaulted "sdram_per_synapse" nat64? 0
    fixedCycles := ← f.defaulted "fixed_cpu_cycles" nat64? 0
    cyclesPerAtom := ← f.defaulted "cpu_cycles_per_atom" nat64? 0 }

def Splitter.toJson : Splitter → Json
  | legacy => .object [("type", .string "legacy")]
  | fixedSlice atoms =>
    .object [("type", .string "fixed_slice"), ("atoms_per_core", .nat atoms)]
  | applicationDefined slices sameChip => .object [
      ("type", .string "application_defined"),
      ("slices", .list (fun (lo, hi) => .array [.nat lo, .nat hi]) slices),
      ("same_chip", .bool sameChip)]

def Splitter.ofJson? (j : Json) : Option Splitter := do
  let (tag, rest) ← tagged? j
  match tag with
  | "legacy" =>
    let _ ← rest.fields? []
    return legacy
  | "fixed_slice" =>
    let f ← rest.fields? ["atoms_per_core"]
    return fixedSlice (← f.required "atoms_per_core" nat32?)
  | "application_defined" =>
    let f ← rest.fields? ["slices", "same_chip"]
    let slices ← f.required "slices" (list? (pair? nat32? nat32?))
    return applicationDefined slices (← f.defaulted "same_chip" bool? false)
  | _ => none

def Constraint.toJson : Constraint → Json
  | maxAtomsPerCore max =>
    .object [("type", .string "max_atoms_per_core"), ("max", .nat max)]
  | sameAtomsAs label =>
    .object [("type", .string "same_atoms_as"), ("vertex", .string label)]
  | chipAndCore x y core? => .object [
      ("type", .string "chip_and_core"),
      ("x", .nat x),
      ("y", .nat y),
      ("p", .option .nat core?)]
  | fixedKeyAndMask key mask partition? => .object [
      ("type", .string "fixed_key_and_mask"),
      ("key", .nat key.toNat),
      ("mask", .nat mask.toNat),
      ("partition", .option .string partition?)]

def Constraint.ofJson? (j : Json) : Option Constraint := do
  let (tag, rest) ← tagged? j
  match tag with
  | "max_atoms_per_core" =>
    let f ← rest.fields? ["max"]
    return maxAtomsPerCore (← f.required "max" nat32?)
  | "same_atoms_as" =>
    let f ← rest.fields? ["vertex"]
    return sameAtomsAs (← f.required "vertex" string?)
  | "chip_and_core" =>
    let f ← rest.fields? ["x", "y", "p"]
    let x ← f.required "x" nat32?
    let y ← f.required "y" nat32?
    return chipAndCore x y (← f.optional "p" nat8?)
  | "fixed_key_and_mask" =>
    let f ← rest.fields? ["key", "mask", "partition"]
    let key ← f.required "key" word?
    let mask ← f.required "mask" word?
    return fixedKeyAndMask key mask (← f.maybe "partition" string?)
  | _ => none

def FixedLocation.toJson (l : FixedLocation) : Json :=
  .object [("chip", l.chip.toJson), ("core", .option .nat l.core?)]

def FixedLocation.ofJson? (j : Json) : Option FixedLocation := do
  let f ← j.fields? ["chip", "core"]
  return { chip := ← f.required "chip" Coord.ofJson?, core? := ← f.optional "core" nat8? }

def ApplicationVertex.toJson (v : ApplicationVertex) : Json := .object [
  ("label", .string v.label),
  ("n_atoms", .nat v.atoms),
  ("max_atoms_per_core", .option .nat v.maxAtoms?),
  ("cost", v.cost.toJson),
  ("splitter", v.splitter.toJson),
  ("constraints", .list Constraint.toJson v.constraints)]

def ApplicationVertex.ofJson? (j : Json) : Option ApplicationVertex := do
  let f ← j.fields?
    ["label", "n_atoms", "max_atoms_per_core", "cost", "splitter", "constraints"]
  return {
    label := ← f.required "label" string?
    atoms := ← f.required "n_atoms" nat32?
    maxAtoms? := ← f.maybe "max_atoms_per_core" nat32?
    cost := ← f.defaulted "cost" CostModel.ofJson? {}
    splitter := ← f.defaulted "splitter" Splitter.ofJson? .legacy
    constraints := ← f.defaulted "constraints" (list? Constraint.ofJson?) [] }

def Traffic.toJson (t : Traffic) : Json := .string t.name

def Traffic.ofJson? (j : Json) : Option Traffic := do
  match ← name? j with
  | "multicast" => return multicast
  | "sdram" => return sdram
  | _ => none

def ApplicationEdge.toJson (e : ApplicationEdge) : Json := .object [
  ("pre", e.pre.toJson),
  ("post", e.post.toJson),
  ("partition", .string e.partition),
  ("traffic", e.traffic.toJson)]

def ApplicationEdge.ofJson? (j : Json) : Option ApplicationEdge := do
  let f ← j.fields? ["pre", "post", "partition", "traffic"]
  return {
    pre := ← f.required "pre" AppVertexId.ofJson?
    post := ← f.required "post" AppVertexId.ofJson?
    partition := ← f.required "partition" string?
    traffic := ← f.defaulted "traffic" Traffic.ofJson? .multicast }

def ApplicationGraph.toJson (g : ApplicationGraph) : Json := .object [
  ("vertices", .list ApplicationVertex.toJson g.vertices.toList),
  ("edges", .list ApplicationEdge.toJson g.edges.toList)]

def ApplicationGraph.ofJson? (j : Json) : Option ApplicationGraph := do
  let f ← j.fields? ["vertices", "edges"]
  let vertices ← f.required "vertices" (list? ApplicationVertex.ofJson?)
  let edges ← f.required "edges" (list? ApplicationEdge.ofJson?)
  return { vertices := vertices.toArray, edges := edges.toArray }

end MulticastMesh.Graph
