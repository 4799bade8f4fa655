import MulticastMesh.Tables.Siblings
/-!
# Tables from path entries

Every chip that some partition passes through gets a table with an entry for each partition, or
for each run of sibling slices that are sent the same way.
-/

namespace MulticastMesh.Tables

open MulticastMesh.Graph (AppVertexId)
open Keys (Assignment)
open Mesh (Coord)
open Routing (PartitionSource PathEntry PathTable)

/-- Whether neighbouring path entries belong to siblings that are sent the same way. -/
def sameBundle (a b : PartitionSource × PathEntry) : Bool :=
  a.1.app? == b.1.app? && a.1.identifier == b.1.identifier &&
    (a.1.app?.isSome || a.1.vertex == b.1.vertex) &&
    a.2.route == b.2.route && a.2.defaultable == b.2.defaultable

def senderOf (a : Assignment) (source : PartitionSource) (path : PathEntry) : Outcome Sender := do
  return ⟨← a.keysOf source.vertex source.identifier, path⟩

def bundleEntries (a : Assignment) (bundle : List (PartitionSource × PathEntry)) :
    Outcome (List Entry) := do
  let senders ← bundle.mapM fun (source, path) => senderOf a source path
  let block? := match bundle with
    | (source, _) :: _ :: _ => source.app?.bind fun app => a.block? app source.identifier
    | _ => none
  match block? with
  | some block => return coverSiblings block senders
  | none => return senders.map Sender.entry

def tableOf (a : Assignment) (paths : PathTable) (chip : Coord) : Outcome Table := do
  let bundles := (paths.entriesOn chip).splitBy sameBundle
  return ⟨chip, (← bundles.mapM (bundleEntries a)).flatten⟩

def generate (a : Assignment) (paths : PathTable) : Outcome TableSet :=
  paths.chips.foldlM (fun tables chip => do
      let table ← Outcome.during (.generatingTable chip) (tableOf a paths chip)
      tables.insert table)
    .empty

end MulticastMesh.Tables
