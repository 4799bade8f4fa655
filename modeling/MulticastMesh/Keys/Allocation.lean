import MulticastMesh.Graph.Application
import MulticastMesh.Keys.Assignment
/-!
# Allocating keys

Blocks with a fixed key and mask are reserved first.  The others are handed out largest first,
each at the lowest aligned base that overlaps nothing allocated before.
-/

namespace MulticastMesh.Keys

open MulticastMesh.Graph (AppVertexId ApplicationGraph EdgePartition MachineGraph MachineVertexId)

/-- What a block of keys belongs to: an application vertex, or a machine vertex that stands for
itself. -/
inductive BlockOwner where
  | application (vertex : AppVertexId)
  | machine (vertex : MachineVertexId)
  deriving DecidableEq, Repr

namespace BlockOwner

/-- Application vertices come before machine vertices. -/
private def rank : BlockOwner → Nat × Nat
  | application v => (0, v.index)
  | machine v => (1, v.index)

instance : Ord BlockOwner where
  compare := compareOn rank

instance : Std.TransOrd BlockOwner :=
  inferInstanceAs (Std.TransCmp (compareOn rank))

instance : Std.LawfulEqOrd BlockOwner where
  eq_of_compare {a b} h := by
    have h : rank a = rank b := Std.LawfulEqOrd.eq_of_compare h
    rcases a with ⟨⟨i⟩⟩ | ⟨⟨i⟩⟩ <;> rcases b with ⟨⟨j⟩⟩ | ⟨⟨j⟩⟩ <;> simp_all [rank]

end BlockOwner

structure BlockRequest where
  owner : BlockOwner
  label : String
  identifier : String
  /-- The vertices that send on the partition, with their indices. -/
  senders : List (Nat × MachineVertexId)
  slices : Nat
  atomBits : Nat
  sliceBits : Nat
  fixed? : Option KeyRange
  deriving DecidableEq

def BlockRequest.bits (r : BlockRequest) : Nat := r.atomBits + r.sliceBits

def requestOfApp (app : ApplicationGraph) (g : MachineGraph) (id : AppVertexId)
    (identifier : String) : Outcome BlockRequest := do
  let vertex ← app.vertex id
  let siblings := g.verticesOf id
  let atoms ← siblings.mapM fun v => do
    return (← g.vertex v).slice.count
  let fixed? ← match vertex.fixedKeyAndMask? identifier with
    | none => pure none
    | some (key, mask) =>
      Outcome.during (.fixedKeysOf vertex.label) do
        return some (← KeyRange.ofPattern ⟨key, mask⟩)
  return {
    owner := .application id
    label := vertex.label
    identifier
    senders := []
    slices := siblings.length
    atomBits := bitsNeeded (atoms.foldl max 0)
    sliceBits := bitsNeeded siblings.length
    fixed? }

/-- The request of a machine vertex that stands for itself, without senders. -/
def requestOfMachine (id : MachineVertexId) (vertex : Graph.MachineVertex)
    (identifier : String) : BlockRequest where
  owner := .machine id
  label := vertex.label
  identifier := identifier
  senders := []
  slices := 1
  atomBits := bitsNeeded vertex.slice.count
  sliceBits := 0
  fixed? := none

abbrev Requests := Std.ExtTreeMap (BlockOwner × String) BlockRequest compare

/-- Adds the source of a partition to the block that it belongs to. -/
def addSender (app : ApplicationGraph) (g : MachineGraph) (requests : Requests)
    (p : EdgePartition) : Outcome Requests := do
  let vertex ← g.vertex p.pre
  let owner : BlockOwner := match vertex.app? with
    | some id => .application id
    | none => .machine p.pre
  let request ← match requests[(owner, p.identifier)]? with
    | some request => pure request
    | none =>
      match vertex.app? with
      | some id => requestOfApp app g id p.identifier
      | none => pure (requestOfMachine p.pre vertex p.identifier)
  return requests.insert (owner, p.identifier)
    { request with senders := request.senders ++ [(vertex.index, p.pre)] }

/-- The blocks that the multicast partitions need, by owner and identifier. -/
def blockRequests (app : ApplicationGraph) (g : MachineGraph) : Outcome (List BlockRequest) := do
  let requests ← g.multicastPartitions.foldlM (addSender app g) (∅ : Requests)
  return requests.toList.map Prod.snd

def assignBlock (a : Assignment) (r : BlockRequest) (base : Key) : Except KeyError Assignment := do
  let sliceMask := lowBitsClear r.atomBits
  let a ← r.senders.foldlM (fun a (index, vertex) => do
      let offset := shiftUp (BitVec.ofNat 32 index) r.atomBits
      let range ← KeyRange.ofPattern ⟨base ||| offset, sliceMask⟩
      return a.addKeys { vertex, identifier := r.identifier, range, index }) a
  match r.owner with
  | .machine _ => return a
  | .application vertex =>
    let range ← match r.fixed? with
      | some range => pure range
      | none => KeyRange.block base r.bits
    return a.addBlock {
      vertex, identifier := r.identifier, range, sliceMask
      atomBits := r.atomBits
      lastIndex := r.slices - 1 }

/-- Whether the free bits of a mask are its lowest ones and there are enough of them. -/
def holdsBlock (mask : Key) (bits : Nat) : Bool :=
  let free := freeBits mask
  free == List.range free.length && decide (bits ≤ free.length)

/-- Reserves the blocks with a fixed key and mask, in order.  The reserved ranges are returned
with the requests that they belong to. -/
def reserveFixed : Assignment → (reserved : List (KeyRange × BlockRequest)) →
    List BlockRequest → Except KeyError (Assignment × List (KeyRange × BlockRequest))
  | a, reserved, [] => .ok (a, reserved)
  | a, reserved, r :: rest =>
    match r.fixed? with
    | none => reserveFixed a reserved rest
    | some range => do
      if !holdsBlock range.mask r.bits then
        throw (.badPattern range.pattern (.tooFewFreeBits r.label r.bits))
      match reserved.find? fun earlier => earlier.1.overlaps range with
      | some (_, other) =>
        throw (.fixedConflict r.label r.identifier other.label other.identifier)
      | none =>
        let a ← assignBlock a r range.key
        reserveFixed a (reserved ++ [(range, r)]) rest

def alignUp (n size : Nat) : Nat := (n + size - 1) / size * size

def blockAt (base bits : Nat) : Pattern := ⟨BitVec.ofNat 32 base, lowBitsClear bits⟩

/-- The lowest multiple of the block size from a base on, below the end of the key space, whose
block overlaps no reserved range.  A base that is taken is passed over together with everything
that the range in its way covers. -/
def lowestBase? (reserved : List KeyRange) (bits : Nat) : (fuel base : Nat) → Option Nat
  | 0, _ => none
  | fuel + 1, base =>
    if blockSize 32 < base + blockSize bits then none
    else
      match reserved.find? fun range => range.pattern.agrees (blockAt base bits) with
      | none => some base
      | some range =>
        let past := range.key.toNat + range.size
        lowestBase? reserved bits fuel (alignUp past (blockSize bits))

/-- Hands out blocks without a fixed key, largest first, from a cursor on. -/
def assignFree (reserved : List KeyRange) : Assignment → (cursor : Nat) → List BlockRequest →
    Except KeyError Assignment
  | a, _, [] => .ok a
  | a, cursor, r :: rest =>
    if 32 < r.bits then .error (.spaceExhausted r.label r.identifier r.bits)
    else
      let size := blockSize r.bits
      match lowestBase? reserved r.bits (reserved.length + 1) (alignUp cursor size) with
      | none => .error (.spaceExhausted r.label r.identifier r.bits)
      | some base => do
        let a ← assignBlock a r (BitVec.ofNat 32 base)
        assignFree reserved a (base + size) rest

/-- Gives every multicast partition of a graph its keys. -/
def allocate (app : ApplicationGraph) (g : MachineGraph) : Outcome Assignment := do
  let requests ← blockRequests app g
  let (a, reserved) ← reserveFixed .empty [] requests
  let free := (requests.filter fun r => r.fixed?.isNone).mergeSort fun r s => s.bits ≤ r.bits
  assignFree (reserved.map Prod.fst) a 0 free

end MulticastMesh.Keys
