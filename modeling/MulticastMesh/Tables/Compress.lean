import MulticastMesh.Failure
import MulticastMesh.Tables.OrderedCovering
import MulticastMesh.Tables.Unordered
/-!
# Compressing tables

Tables are shortened until they fit their routers.
-/

namespace MulticastMesh.Tables

/-- Most entries that a router holds, where no other limit is set. -/
def routerEntries : Nat := 1023

inductive Compressor where
  /-- The result relies on the first match. -/
  | orderedCovering
  /-- The result can be looked up in any order. -/
  | unordered
  | none
  deriving DecidableEq, Repr

namespace Compressor

def ofName (name : String) : Except Cause Compressor :=
  match name with
  | "ordered-covering" => .ok orderedCovering
  | "unordered" => .ok unordered
  | "none" => .ok none
  | _ => .error (.unknownCompressor name)

def minimise : Compressor → List Entry → List Entry
  | orderedCovering => OrderedCovering.minimise
  | unordered => Unordered.minimise
  | none => id

end Compressor

def compress (c : Compressor) (maxEntries : Nat) (t : Table) : Except TooManyEntries Table :=
  let entries := c.minimise t.entries
  if maxEntries < entries.length then .error ⟨t.chip, entries.length, maxEntries⟩
  else .ok { t with entries }

def compressAll (c : Compressor) (maxEntries : Nat) (tables : TableSet) : Outcome TableSet :=
  tables.toList.foldlM (fun done t => do
      let t ← Outcome.during (.compressingTable t.chip) (monadLift (compress c maxEntries t))
      done.insert t)
    .empty

end MulticastMesh.Tables
