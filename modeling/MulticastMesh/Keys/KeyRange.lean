import MulticastMesh.Keys.Error
/-!
# Key ranges

The keys given to a partition or to a whole block of partitions: a proper pattern, whose keys can
be counted through its free bits.
-/

namespace MulticastMesh.Keys

/-- A proper pattern. -/
structure KeyRange where
  pattern : Pattern
  proper : pattern.Proper
  deriving DecidableEq

namespace KeyRange

def key (r : KeyRange) : Key := r.pattern.key

def mask (r : KeyRange) : Key := r.pattern.mask

def ofPattern (p : Pattern) : Except KeyError KeyRange :=
  if h : p.Proper then .ok ⟨p, h⟩ else .error (.badPattern p .keyOutsideMask)

/-- The aligned block of `2 ^ bits` keys that starts at a base. -/
def block (base : Key) (bits : Nat) : Except KeyError KeyRange :=
  ofPattern ⟨base, lowBitsClear bits⟩

def size (r : KeyRange) : Nat := blockSize r.pattern.generality

def overlaps (r s : KeyRange) : Bool := r.pattern.agrees s.pattern

/-- Writes the bits of a number into the given positions of a word, lowest first. -/
def scatter : Key → List Nat → Nat → Key
  | word, [], _ => word
  | word, i :: rest, n =>
    scatter (if n % 2 = 1 then word ||| bit i else word) rest (n / 2)

/-- The key with a given number, counting through the free bits from the bottom up. -/
def keyAt (r : KeyRange) (n : Nat) : Key := scatter r.key (freeBits r.mask) n

end KeyRange

end MulticastMesh.Keys
