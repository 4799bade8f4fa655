import MulticastMesh.Mesh.Machine
import MulticastMesh.Text.Quoted
/-!
# Routes

Where a router copies a packet to: a set of links and a set of the chip's processors.
-/

namespace MulticastMesh.Routing

open Mesh (Link maxProcessors)

structure Route where
  linkBits : BitVec 6
  processorBits : BitVec 18
  deriving DecidableEq, Repr, Inhabited

structure Unroutable where
  processor : Nat
  deriving DecidableEq, Repr

def Unroutable.message (e : Unroutable) : String :=
  s!"Processor {e.processor} can not be routed to, routers address at most " ++
    s!"{maxProcessors} processors"

namespace Route

def empty : Route := ⟨0, 0⟩

def withLink (r : Route) (link : Link) : Route :=
  { r with linkBits := r.linkBits ||| (1 <<< link.id) }

def withProcessor (r : Route) (p : Nat) : Except Unroutable Route :=
  if p < maxProcessors then .ok { r with processorBits := r.processorBits ||| (1 <<< p) }
  else .error ⟨p⟩

def overLinks (links : List Link) : Route := links.foldl withLink empty

def ofParts (links : List Link) (processors : List Nat) : Except Unroutable Route :=
  processors.foldlM withProcessor (overLinks links)

def hasLink (r : Route) (link : Link) : Bool := r.linkBits.getLsbD link.id

def hasProcessor (r : Route) (p : Nat) : Bool := r.processorBits.getLsbD p

def links (r : Route) : List Link := Link.all.filter r.hasLink

def processors (r : Route) : List Nat := (List.range maxProcessors).filter r.hasProcessor

def isEmpty (r : Route) : Bool := r.linkBits == 0 && r.processorBits == 0

def union (r s : Route) : Route :=
  ⟨r.linkBits ||| s.linkBits, r.processorBits ||| s.processorBits⟩

/-- A route as one word: the links are its lowest bits, the processors follow. -/
def toNat (r : Route) : Nat := r.linkBits.toNat + r.processorBits.toNat <<< 6

def text (r : Route) : String :=
  s!"links {Text.bracketed (r.links.map Link.id)} " ++
    s!"processors {Text.bracketed r.processors}"

end Route

end MulticastMesh.Routing
