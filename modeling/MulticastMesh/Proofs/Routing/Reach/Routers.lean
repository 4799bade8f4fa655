import MulticastMesh.Proofs.Routing.Reach.Cheapest
import MulticastMesh.Proofs.Routing.Reach.Steiner
import MulticastMesh.Routing.Router
/-!
# Trees of both routers

Both routers build sound trees, whatever the costs are.  Without a price for scarcity they also
agree on which destinations can be routed to: exactly those within reach of the source.
-/

namespace MulticastMesh.Routing

open Mesh (Coord Link Machine MachineSpec)
open Outcome

/-- A tree that holds some chips and leads along working links from its source to all of its
chips. -/
structure GrownFrom (m : Machine) (source : Coord) (destinations : Std.ExtTreeSet Coord compare)
    (t : Tree) : Prop where
  source_eq : t.source = source
  contains : ∀ c ∈ destinations, t.contains c = true
  root : t.cameFrom[source]? = none
  link : ∀ (chip previous : Coord) (l : Link), t.cameFrom[chip]? = some (previous, l) →
    m.linkTarget? previous l = some chip
  back : ∀ chip, t.contains chip = true → ∃ steps, t.Way chip steps

variable {d : MachineSpec} {m : Machine} {source : Coord} {t : Tree} {paths : PathTable}

theorem GrownFrom.of_sound {destinations : Std.ExtTreeSet Coord compare}
    (h : t.source = source ∧ t.Sound m ∧ ∀ c ∈ destinations.toList, t.contains c = true) :
    GrownFrom m source destinations t := by
  obtain ⟨rfl, hsound, hcontains⟩ := h
  exact ⟨rfl, fun c hc => hcontains c (Std.ExtTreeSet.mem_toList.2 hc), hsound.root, hsound.link,
    fun _ hchip => hsound.exists_way hchip⟩

namespace Router

/-- A router that does not look at how many entries are left. -/
def IgnoresScarcity : Router → Prop
  | cheapest r => (r.pricing.scarcity == 0.0) = true
  | steiner => True

theorem tree_grownFrom (r : Router) {destinations : Std.ExtTreeSet Coord compare}
    (hrun : r.tree m source destinations.toList paths = .ok t) :
    GrownFrom m source destinations t := by
  cases r with
  | cheapest r => exact .of_sound (Cheapest.tree_spec hrun)
  | steiner => exact .of_sound (Steiner.tree_spec hrun)

theorem tree_decides {r : Router} (hm : Machine.Fulfils d m) (hsource : (m.chip? source).isSome)
    (hr : r.IgnoresScarcity) {destinations : List Coord}
    (hsorted : destinations.Pairwise fun a b => compare a b = .lt) :
    Decides m source destinations (r.tree m source destinations paths) := by
  cases r with
  | cheapest r => exact Cheapest.tree_decides paths hm hsource hr hsorted
  | steiner => exact Steiner.tree_decides hm hsource hsorted

/-- Trees are sound and hold all destinations.  Without a price for scarcity there is a tree
exactly if all destinations are within reach of the source, and otherwise every router names the
first one that is not. -/
theorem tree_reaches (hm : Machine.ofSpec d = .ok m) (hsource : (m.chip? source).isSome)
    (destinations : Std.ExtTreeSet Coord compare) :
    (∀ (r : Router) paths t, r.tree m source destinations.toList paths = .ok t →
      GrownFrom m source destinations t) ∧
    (∀ (r : Router) paths, r.IgnoresScarcity →
      ((∃ t, r.tree m source destinations.toList paths = .ok t) ↔
        ∀ c ∈ destinations, InReach m source c)) ∧
    ((¬∀ c ∈ destinations, InReach m source c) →
      ∃ c, FirstOut m source destinations.toList c ∧ ∀ (r : Router) paths, r.IgnoresScarcity →
        r.tree m source destinations.toList paths =
          .error ⟨[], .routing (.unreachable source c)⟩) := by
  have hfulfils := Machine.ofSpec_spec hm
  have hdecides : ∀ (r : Router) paths, r.IgnoresScarcity →
      Decides m source destinations.toList (r.tree m source destinations.toList paths) :=
    fun r paths hr => tree_decides hfulfils hsource hr Std.ExtTreeSet.ordered_toList
  have hall : (∀ c ∈ destinations.toList, InReach m source c) ↔
      ∀ c ∈ destinations, InReach m source c := by simp only [Std.ExtTreeSet.mem_toList]
  refine ⟨fun r _ _ => r.tree_grownFrom, fun r paths hr => ?_, fun hout => ?_⟩
  · rw [(hdecides r paths hr).exists_ok_iff, hall]
  · have hsteiner := hdecides .steiner .empty trivial
    cases hrun : Router.tree .steiner m source destinations.toList .empty with
    | ok t => exact absurd (hall.1 (hsteiner.exists_ok_iff.1 ⟨t, hrun⟩)) hout
    | error f =>
        obtain ⟨c, -, hfirst⟩ := hsteiner.error f hrun
        exact ⟨c, hfirst, fun r paths hr => (hdecides r paths hr).eq_error hfirst⟩

/-- A row of four chips, of which the third is dead. -/
def cutRow : MachineSpec where
  width := 4
  height := 1
  deadChips := [⟨2, 0⟩]

theorem tree_reaches_cutRow : ∃ m, Machine.ofSpec cutRow = .ok m ∧ (m.chip? ⟨0, 0⟩).isSome ∧
    ∀ (r : Router) paths, r.IgnoresScarcity →
      (∃ t, r.tree m ⟨0, 0⟩ (.ofList [⟨1, 0⟩] compare : Std.ExtTreeSet Coord compare).toList paths =
        .ok t) ∧
      r.tree m ⟨0, 0⟩ (.ofList [⟨3, 0⟩, ⟨1, 0⟩] compare : Std.ExtTreeSet Coord compare).toList
        paths = .error ⟨[], .routing (.unreachable ⟨0, 0⟩ ⟨3, 0⟩)⟩ := by
  obtain ⟨m, hm⟩ := exists_of_isOk (show (Machine.ofSpec cutRow).isOk = true by decide +kernel)
  have hfulfils := Machine.ofSpec_spec hm
  have hsource : (m.chip? ⟨0, 0⟩).isSome := hfulfils.isSome_chip?_of_hasChip (by decide)
  have hnear : InReach m ⟨0, 0⟩ ⟨1, 0⟩ := by
    refine .single ⟨.east, hfulfils.linkTarget?_iff.2 ?_⟩
    constructor <;> decide
  have hfar : ¬InReach m ⟨0, 0⟩ ⟨3, 0⟩ := by
    have hleft : ∀ a ∈ cutRow.grid.coords, a.x ≤ 1 → ∀ l ∈ Link.all,
        ∀ b ∈ cutRow.grid.neighbour? a l, b ∉ cutRow.deadChips → b.x ≤ 1 := by decide
    intro hreach
    have hle : (⟨3, 0⟩ : Coord).x ≤ 1 := hreach.induction (P := fun c => c.x ≤ 1) (by decide)
      fun a b l ha hlink =>
        have hjoins := hfulfils.linkTarget?_iff.1 hlink
        hleft a (Mesh.Grid.mem_coords hjoins.start_inside) ha l (Link.mem_all l) b hjoins.neighbour
          hjoins.end_works
    exact absurd hle (by decide)
  refine ⟨m, hm, hsource, fun r paths hr => ⟨?_, ?_⟩⟩
  · obtain ⟨-, hok, -⟩ := tree_reaches hm hsource (.ofList [⟨1, 0⟩] compare)
    refine (hok r paths hr).2 fun c hc => ?_
    obtain rfl : ⟨1, 0⟩ = c := by simpa [Std.ExtTreeSet.mem_ofList] using hc
    exact hnear
  · obtain ⟨-, -, hout⟩ := tree_reaches hm hsource (.ofList [⟨3, 0⟩, ⟨1, 0⟩] compare)
    obtain ⟨c, hfirst, herror⟩ := hout fun hall =>
      hfar (hall _ (by simp [Std.ExtTreeSet.mem_ofList]))
    have hc : c = ⟨3, 0⟩ ∨ c = ⟨1, 0⟩ := by
      simpa [Std.ExtTreeSet.mem_ofList] using hfirst.mem
    obtain rfl | rfl := hc
    · exact herror r paths hr
    · exact absurd hnear hfirst.out

end Router

end MulticastMesh.Routing
