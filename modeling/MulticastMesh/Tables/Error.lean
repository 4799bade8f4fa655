import MulticastMesh.Tables.Table
/-!
# What checks of routing tables report
-/

namespace MulticastMesh.Tables

open Keys (Key Pattern)
open Mesh (Coord Link)
open Routing (Route)
open Text (hexWord)

structure TooManyEntries where
  chip : Coord
  entries : Nat
  maxEntries : Nat
  deriving DecidableEq, Repr

def TooManyEntries.message (e : TooManyEntries) : String :=
  s!"the table of {e.chip.text} still has {e.entries} entries after compression, " ++
    s!"the router holds {e.maxEntries}"

/-- How a compressed table differs from the table it stands for. -/
inductive Mismatch where
  | keysLost (chip : Coord) (keys : Pattern)
  | routeChanged (chip : Coord) (keys : Pattern) (expected found : Route)
  | missingTable (chip : Coord)
  /-- An entry with key bits outside its mask neither covers the keys nor splits them. -/
  | unsplittable (keys : Pattern) (entry : Entry)
  deriving DecidableEq, Repr

def Mismatch.message : Mismatch → String
  | .keysLost chip keys =>
    s!"keys {hexWord keys.key}/{hexWord keys.mask} are no longer routed by {chip.text}"
  | .routeChanged chip keys expected found =>
    s!"keys {hexWord keys.key}/{hexWord keys.mask} go to {found.text} on {chip.text} " ++
      s!"instead of {expected.text}"
  | .missingTable chip => s!"no compressed table for {chip.text}"
  | .unsplittable keys entry =>
    s!"Region Region \x7b key: {keys.key.toNat}, mask: {keys.mask.toNat} \x7d " ++
      s!"can not be split on {entry.text}"

inductive Misdelivery where
  /-- A packet reaches a router twice. -/
  | cycle (chip : Coord) (key : Key)
  | missingDestination (chip : Coord) (processor : Nat) (key : Key)
  | extraDestination (chip : Coord) (processor : Nat) (key : Key)
  | noEntry (chip : Coord) (key : Key)
  /-- Two keys of one source are routed differently by one router. -/
  | partialCoverage (chip : Coord) (key firstKey : Key)
  | deadLink (chip : Coord) (link : Link)
  deriving DecidableEq, Repr

def Misdelivery.message : Misdelivery → String
  | .cycle chip key => s!"key {hexWord key} reaches {chip.text} twice"
  | .missingDestination chip p key =>
    s!"key {hexWord key} never reaches processor {p} of {chip.text}"
  | .extraDestination chip p key =>
    s!"key {hexWord key} reaches processor {p} of {chip.text}, which does not expect it"
  | .noEntry chip key => s!"no entry on {chip.text} matches key {hexWord key}"
  | .partialCoverage chip key firstKey =>
    s!"keys {hexWord firstKey} and {hexWord key} of one slice are routed differently " ++
      s!"by {chip.text}"
  | .deadLink chip link => s!"route leaves {chip.text} over missing link {link.name}"

end MulticastMesh.Tables
