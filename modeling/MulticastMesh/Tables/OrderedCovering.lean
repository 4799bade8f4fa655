import MulticastMesh.Tables.Table
/-!
# Ordered covering

Entries are kept in the order of their generality.  A group of entries with one route is replaced
by their join, placed in front of the first more general entry.  A join is only taken if it
catches no initial key of an entry behind it, and if no member moves behind an entry that it
shadows.
-/

namespace MulticastMesh.Tables.OrderedCovering

open Keys (Key Pattern bit freeBits)
open Routing (Route)

/-- The initial patterns that an entry with a given pattern stands for, where they differ from
the pattern itself. -/
abbrev Origins := List (Pattern × List Pattern)

namespace Origins

def of? (o : Origins) (p : Pattern) : Option (List Pattern) := o.lookup p

def of (o : Origins) (p : Pattern) : List Pattern :=
  match o.of? p with
  | none | some [] => [p]
  | some initial => initial

def take (o : Origins) (p : Pattern) : List Pattern × Origins :=
  match o.of? p with
  | none => ([p], o)
  | some initial => (initial, o.filter fun item => item.1 != p)

def takeAll : Origins → List Pattern → List Pattern × Origins
  | o, [] => ([], o)
  | o, p :: rest =>
    let (initial, o) := o.take p
    let (others, o) := takeAll o rest
    (initial ++ others, o)

def put (o : Origins) (p : Pattern) (initial : List Pattern) : Origins :=
  (p, (o.of? p).getD [] ++ initial) :: o.filter fun item => item.1 != p

end Origins

/-- A prospective replacement of some entries by their join. -/
structure Merge where
  /-- Positions of the entries, increasing. -/
  members : List Nat
  pattern : Pattern
  /-- Position that the join takes: that of the first more general entry. -/
  position : Nat
  deriving Repr

def positionOf (table : Array Entry) (p : Pattern) : Nat :=
  (table.findIdx? fun e => p.generality < e.pattern.generality).getD table.size

namespace Merge

def of (table : Array Entry) (members : List Nat) : Merge :=
  let pattern := Pattern.joinAll
    (members.filterMap fun i => (table[i]?).map fun e => e.pattern)
  { members, pattern, position := positionOf table pattern }

def empty (table : Array Entry) : Merge := of table []

def goodness (m : Merge) : Int := m.members.length - 1

def without (m : Merge) (table : Array Entry) (removed : List Nat) : Merge :=
  of table (m.members.filter fun i => !removed.contains i)

end Merge

/-- Initial patterns behind the join's position that it would catch. -/
def caught (table : Array Entry) (origins : Origins) (m : Merge) : List Pattern :=
  ((table.toList.drop m.position).flatMap fun e => origins.of e.pattern).filter fun p =>
    m.pattern.intersects p

/-- Bits that a pattern fixes and the join leaves free. -/
def settable (m : Merge) (p : Pattern) : Key := p.mask &&& ~~~m.pattern.mask

def ones (word : Key) : Nat := (freeBits (~~~word)).length

/-- The members that do not take the opposite value of a pattern's key at a bit. -/
def opponents (table : Array Entry) (m : Merge) (p : Pattern) (b : Key) : List Nat :=
  m.members.filter fun i =>
    (table[i]?).any fun e => e.pattern.key &&& b != ~~~p.key &&& b

/-- For every way to avoid one of the patterns that leave the fewest bits to set, the members
that would have to go. -/
def removals (table : Array Entry) (m : Merge) (caught : List Pattern) : List (List Nat) :=
  let fewest := (caught.map fun p => ones (settable m p)).min?.getD 0
  let stringent := caught.filter fun p => ones (settable m p) == fewest
  stringent.flatMap fun p =>
    (freeBits (~~~settable m p)).map fun i => opponents table m p (bit i)

def shortest? : List (List Nat) → Option (List Nat)
  | [] => none
  | first :: rest =>
    some (rest.foldl (fun best l => if l.length < best.length then l else best) first)

/-- Drops members until the join catches nothing behind its position. -/
def downCheck (table : Array Entry) (origins : Origins) (minGoodness : Int) : (fuel : Nat) →
    Merge → Merge
  | 0, _ => .empty table
  | fuel + 1, m =>
    if m.goodness ≤ minGoodness then .empty table
    else
      match caught table origins m with
      | [] => m
      | caught =>
        match shortest? (removals table m caught) with
        | none | some [] => .empty table
        | some removed => downCheck table origins minGoodness fuel (m.without table removed)

/-- Whether a member would move behind an entry that it shadows. -/
def shadows (table : Array Entry) (m : Merge) (i : Nat) : Bool :=
  let between := (List.range' (i + 1) (m.position - (i + 1))).filter fun j =>
    !m.members.contains j
  between.any fun j =>
    match table[i]?, table[j]? with
    | some e, some f => e.intersects f
    | _, _ => false

/-- Drops members, the last first, that would move behind an entry that they shadow. -/
def upCheck (table : Array Entry) (minGoodness : Int) : List Nat → Merge → Merge × Bool
  | [], m => (m, false)
  | i :: rest, m =>
    if i < m.position ∧ shadows table m i then
      let m := m.without table [i]
      if m.goodness ≤ minGoodness then (.empty table, true)
      else ((upCheck table minGoodness rest m).1, true)
    else
      upCheck table minGoodness rest m

def refine (table : Array Entry) (origins : Origins) (minGoodness : Int) (m : Merge) : Merge :=
  let m := downCheck table origins minGoodness (m.members.length + 1) m
  if m.goodness ≤ minGoodness then m
  else
    let (m, changed) := upCheck table minGoodness m.members.reverse m
    if changed ∧ m.goodness > minGoodness then
      -- The up-check can only move the join forwards, past entries not checked yet.
      downCheck table origins minGoodness (m.members.length + 1) m
    else
      m

def routes (table : List Entry) : List Route := (table.map fun e => e.route).eraseDups

def positionsOf (table : Array Entry) (route : Route) : List Nat :=
  (List.range table.size).filter fun i => (table[i]?).any fun e => e.route == route

/-- The merge that shortens the table most; of equals the first. -/
def bestMerge (table : Array Entry) (origins : Origins) : Merge :=
  (routes table.toList).foldl (fun best route =>
      let bound := max best.goodness 0
      let m := Merge.of table (positionsOf table route)
      if m.goodness ≤ bound then best
      else
        let m := refine table origins bound m
        if m.goodness > bound then m else best)
    (.empty table)

def Merge.entry (m : Merge) (table : Array Entry) : Entry :=
  let members := m.members.filterMap fun i => table[i]?
  { pattern := m.pattern
    route := (members.getLast?.map fun e => e.route).getD .empty
    defaultable := members.all fun e => e.defaultable }

def Merge.apply (m : Merge) (table : Array Entry) : Array Entry :=
  let kept := (List.range table.size).filter fun i => !m.members.contains i
  let entriesAt := fun positions => positions.filterMap fun i => table[i]?
  (entriesAt (kept.filter fun i => i < m.position) ++ m.entry table ::
    entriesAt (kept.filter fun i => m.position ≤ i)).toArray

def Merge.record (m : Merge) (table : Array Entry) (origins : Origins) : Origins :=
  let members := m.members.filterMap fun i => (table[i]?).map fun e => e.pattern
  let (initial, origins) := origins.takeAll members
  origins.put m.pattern initial

def mergeAll : (fuel : Nat) → Array Entry → Origins → Array Entry
  | 0, table, _ => table
  | fuel + 1, table, origins =>
    let m := bestMerge table origins
    if m.goodness ≤ 0 then table
    else mergeAll fuel (m.apply table) (m.record table origins)

def sortByGenerality (table : List Entry) : List Entry :=
  table.mergeSort fun e f => e.pattern.generality ≤ f.pattern.generality

/-- The table sorted by generality and then merged as long as a merge shortens it. -/
def minimise (table : List Entry) : List Entry :=
  (mergeAll table.length (sortByGenerality table).toArray []).toList

end MulticastMesh.Tables.OrderedCovering
