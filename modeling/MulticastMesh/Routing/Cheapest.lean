import MulticastMesh.Routing.Heap
import MulticastMesh.Routing.Tree
/-!
# Cheapest paths

A tree of cheapest paths for each partition.  The price of a link counts the hop, the scarcity of
entries in the router that it leads to, and the load that earlier partitions put on it.
-/

namespace MulticastMesh.Routing.Cheapest

open Mesh (Coord Link Machine)

structure Pricing where
  /-- Price of a hop. -/
  hop : Float := 1.0
  /-- Weight of the scarcity of routing entries. -/
  scarcity : Float := 0.0
  /-- Weight of the load on the link. -/
  load : Float := 0.0
  /-- Bandwidth that every route over a link takes. -/
  bandwidthPerRoute : Float := 0.01
  maxBandwidth : Float := 250.0
  deriving Repr

/-- What is left of the bandwidth of the links in use. -/
abbrev Loads := Std.ExtTreeMap LinkFrom Float compare

structure Router where
  pricing : Pricing
  loads : Loads

def Router.fresh (pricing : Pricing) : Router := ⟨pricing, ∅⟩

def Router.bandwidth (r : Router) (link : LinkFrom) : Float :=
  r.loads[link]?.getD r.pricing.maxBandwidth

def Router.price (r : Router) (m : Machine) (paths : PathTable) (link : LinkFrom)
    (target : Coord) : Outcome Float := do
  let price := r.pricing.hop
  let price ←
    if r.pricing.scarcity != 0.0 then do
      let chip ← m.chip target
      let available := Float.ofNat chip.routerEntries
      let free := available - Float.ofNat (paths.countOn target)
      if free <= 0.0 then
        throw ⟨[], .routing (.entriesExhausted target)⟩
      pure (price + r.pricing.scarcity * (1.0 / free - 1.0 / available))
    else
      pure price
  if r.pricing.load != 0.0 then
    let left := r.bandwidth link
    return price + r.pricing.load * (1.0 / left - 1.0 / r.pricing.maxBandwidth)
  else
    return price

structure Waiting where
  cost : Float
  chip : Coord
  deriving Repr

/-- Order of two costs; costs that can not be compared count as equal. -/
private def compareCosts (a b : Float) : Ordering :=
  if a < b then .lt else if a > b then .gt else .eq

/-- Whether one chip is settled no earlier than another: the lower cost comes first, and of equal
costs the lower chip. -/
def Waiting.atMost (a b : Waiting) : Bool :=
  ((compareCosts b.cost a.cost).then (compare b.chip a.chip)).isLE

structure Search where
  settled : Std.ExtTreeSet Coord compare
  costs : Std.ExtTreeMap Coord Float compare
  cameFrom : Std.ExtTreeMap Coord LinkFrom compare
  queue : Heap Waiting
  /-- Destinations not settled yet, in order. -/
  remaining : List Coord

def Search.ofSource (source : Coord) (destinations : List Coord) : Search where
  settled := ∅
  costs := (∅ : Std.ExtTreeMap Coord Float compare).insert source 0.0
  cameFrom := ∅
  queue := Heap.empty.push Waiting.atMost ⟨0.0, source⟩
  remaining := destinations

def Router.relax (r : Router) (m : Machine) (paths : PathTable) (item : Waiting) (s : Search)
    (link : Link) : Outcome Search := do
  match m.linkTarget? item.chip link with
  | none => return s
  | some neighbour =>
    if s.settled.contains neighbour then
      return s
    let cost := item.cost + (← r.price m paths (item.chip, link) neighbour)
    if s.costs[neighbour]?.all fun known => cost < known then
      return { s with
        costs := s.costs.insert neighbour cost
        cameFrom := s.cameFrom.insert neighbour (item.chip, link)
        queue := s.queue.push Waiting.atMost ⟨cost, neighbour⟩ }
    else
      return s

/-- Settles chips until all destinations are settled or nothing is waiting. -/
def Router.settle (r : Router) (m : Machine) (paths : PathTable) : (fuel : Nat) → Search →
    Outcome Search
  | 0, s => .ok s
  | fuel + 1, s =>
    if s.remaining.isEmpty then .ok s
    else
      match s.queue.pop? Waiting.atMost with
      | none => .ok s
      | some (next, queue) =>
        if s.settled.contains next.chip then
          r.settle m paths fuel { s with queue }
        else do
          let s := { s with
            queue
            settled := s.settled.insert next.chip
            remaining := s.remaining.erase next.chip }
          let s ← Link.all.foldlM (r.relax m paths next) s
          r.settle m paths fuel s

def Router.tree (r : Router) (m : Machine) (source : Coord) (destinations : List Coord)
    (paths : PathTable) : Outcome Tree := do
  let _ ← m.chip source
  let s ← r.settle m paths (6 * m.chipCount + 2) (.ofSource source destinations)
  match s.remaining with
  | destination :: _ => throw ⟨[], .routing (.unreachable source destination)⟩
  | [] => return ⟨source, s.cameFrom.filter fun chip _ => s.settled.contains chip⟩

/-- Takes bandwidth from links; what was taken before a failure stays taken. -/
def claim (link : LinkFrom) : ExceptT RoutingError (StateM Router) Unit := do
  let r ← get
  let left := r.bandwidth link - r.pricing.bandwidthPerRoute
  if left <= 0.0 then
    throw (.bandwidthExhausted link.1 link.2)
  set { r with loads := r.loads.insert link left }

end MulticastMesh.Routing.Cheapest
