/-!
# Key patterns

A pattern fixes some bits of a 32-bit key and leaves the others free.  It stands for the set of
keys that agree with it on the fixed bits.  The set is empty if the pattern asks for a bit that
its own mask leaves free; a pattern that does not is called proper.
-/

namespace MulticastMesh.Keys

abbrev Key := BitVec 32

/-- Moves a word up; nothing is left of it after 32 places. -/
def shiftUp (word : Key) (places : Nat) : Key := if places < 32 then word <<< places else 0

def lowBitsClear (bits : Nat) : Key := shiftUp (BitVec.allOnes 32) bits

def bitsNeeded (n : Nat) : Nat := if n ≤ 1 then 0 else (n - 1).log2 + 1

/-- Number of keys that a number of free bits tells apart. -/
def blockSize (bits : Nat) : Nat := Nat.pow 2 bits

/-- Positions of the bits that a mask leaves free, lowest first. -/
def freeBits (mask : Key) : List Nat :=
  (List.range 32).filter fun i => !mask.getLsbD i

def bit (i : Nat) : Key := shiftUp 1 i

structure Pattern where
  key : Key
  mask : Key
  deriving DecidableEq, Repr, Inhabited

namespace Pattern

def Matches (p : Pattern) (k : Key) : Prop := k &&& p.mask = p.key

instance (p : Pattern) (k : Key) : Decidable (p.Matches k) :=
  inferInstanceAs (Decidable (_ = _))

/-- No bit of the key lies outside the mask. -/
def Proper (p : Pattern) : Prop := p.key &&& ~~~p.mask = 0

instance (p : Pattern) : Decidable p.Proper :=
  inferInstanceAs (Decidable (_ = _))

/-- Number of free bits. -/
def generality (p : Pattern) : Nat := (freeBits p.mask).length

/-- Whether two patterns agree on the bits that both fix. -/
def intersects (p q : Pattern) : Bool := p.key &&& q.mask == q.key &&& p.mask

/-- Whether two patterns ask for different values of no bit that both fix. -/
def agrees (p q : Pattern) : Bool := (p.key ^^^ q.key) &&& p.mask &&& q.mask == 0

/-- Whether every key of `p` is a key of `q`. -/
def coveredBy (p q : Pattern) : Bool :=
  q.mask &&& ~~~p.mask == 0 && p.key &&& q.mask == q.key

/-- The narrowest pattern that has the keys of both: a bit stays fixed only where both fix it
and agree. -/
def join (p q : Pattern) : Pattern :=
  let anyOnes := p.key ||| q.key
  let allOnes := p.key &&& q.key
  let mask := (p.mask &&& q.mask) &&& (anyOnes ^^^ ~~~allOnes)
  ⟨allOnes &&& mask, mask⟩

/-- The narrowest pattern that has the keys of all of them; without any it is the single key
zero. -/
def joinAll : List Pattern → Pattern
  | [] => ⟨0, BitVec.allOnes 32⟩
  | p :: rest => rest.foldl join p

/-- The halves of `p` on the lowest bit that `q` fixes and `p` leaves free; the half with the
bit set comes first. -/
def split? (p q : Pattern) : Option (Pattern × Pattern) :=
  match (List.range 32).find? fun i => (q.mask &&& ~~~p.mask).getLsbD i with
  | none => none
  | some i =>
    some (⟨p.key ||| bit i, p.mask ||| bit i⟩, ⟨p.key &&& ~~~bit i, p.mask ||| bit i⟩)

end Pattern

end MulticastMesh.Keys
