import MulticastMesh.Proofs.Mesh.Machines
import MulticastMesh.Proofs.Routing.Trees
import MulticastMesh.Proofs.Routing.Ways
/-!
# Chips within reach

A chip is within reach of another one if working links lead to it.  A router decides whether all
destinations are within reach if it builds a tree when they are, and otherwise names the first one
that is not.
-/

namespace MulticastMesh.Routing

open Mesh (Coord Link Machine MachineSpec)
open Outcome

def Linked (m : Machine) (a b : Coord) : Prop := ∃ l, m.linkTarget? a l = some b

def InReach (m : Machine) : Coord → Coord → Prop := Relation.ReflTransGen (Linked m)

variable {d : MachineSpec} {m : Machine} {source chip c : Coord} {destinations : List Coord}
  {t : Tree}

theorem InReach.step {l : Link} (h : InReach m source chip)
    (hlink : m.linkTarget? chip l = some c) : InReach m source c :=
  h.tail ⟨l, hlink⟩

theorem InReach.induction {P : Coord → Prop} (h : InReach m source c) (hsource : P source)
    (hstep : ∀ (a b : Coord) (l : Link), P a → m.linkTarget? a l = some b → P b) : P c := by
  induction h with
  | refl => exact hsource
  | tail _ hlink ih =>
      obtain ⟨l, hlink⟩ := hlink
      exact hstep _ _ l ih hlink

theorem InReach.isSome_chip? (h : InReach m source c) (hm : Machine.Fulfils d m)
    (hsource : (m.chip? source).isSome) : (m.chip? c).isSome :=
  h.induction hsource fun _ _ _ _ hlink => (hm.linkTarget?_eq_some hlink).2

theorem Tree.Sound.exists_way (ht : t.Sound m) (hchip : t.contains chip = true) :
    ∃ steps, t.Way chip steps := by
  obtain ⟨rank, hrank⟩ := ht.rank
  induction hn : rank chip using Nat.strong_induction_on generalizing chip with
  | _ n ih =>
      by_cases hsource : chip = t.source
      · exact ⟨[], hsource ▸ .source⟩
      · obtain ⟨⟨previous, l⟩, hstep⟩ := (Tree.contains_iff.1 hchip).resolve_left hsource
        obtain ⟨steps, hway⟩ := ih (rank previous) (hn ▸ hrank chip previous l hstep)
          (ht.closed chip previous l hstep) rfl
        exact ⟨_, .step hsource hstep hway⟩

theorem Tree.Way.inReach {steps : List LinkFrom} (h : t.Way chip steps)
    (hlink : ∀ (chip previous : Coord) (l : Link), t.cameFrom[chip]? = some (previous, l) →
      m.linkTarget? previous l = some chip) : InReach m t.source chip := by
  induction h with
  | source => exact .refl
  | step _ hstep _ ih => exact ih.step (hlink _ _ _ hstep)

theorem Tree.Sound.inReach (ht : t.Sound m) (hchip : t.contains chip = true) :
    InReach m t.source chip := by
  obtain ⟨_, hway⟩ := ht.exists_way hchip
  exact hway.inReach ht.link

/-! ## Deciding what is within reach -/

structure FirstOut (m : Machine) (source : Coord) (destinations : List Coord) (c : Coord) :
    Prop where
  mem : c ∈ destinations
  out : ¬InReach m source c
  first : ∀ c' ∈ destinations, ¬InReach m source c' → c' = c ∨ compare c c' = .lt

/-- A result that is a tree if all destinations are within reach, and otherwise names the first
one that is not. -/
structure Decides (m : Machine) (source : Coord) (destinations : List Coord) (x : Outcome Tree) :
    Prop where
  ok : ∀ t, x = .ok t → ∀ c ∈ destinations, InReach m source c
  error : ∀ f, x = .error f →
    ∃ c, f = ⟨[], .routing (.unreachable source c)⟩ ∧ FirstOut m source destinations c

theorem FirstOut.unique {c' : Coord} (h : FirstOut m source destinations c)
    (h' : FirstOut m source destinations c') : c = c' := by
  rcases h.first c' h'.mem h'.out with heq | hlt
  · exact heq.symm
  · rcases h'.first c h.mem h.out with heq | hlt'
    · exact heq
    · exact absurd hlt' (Std.OrientedCmp.not_lt_of_lt hlt)

theorem Decides.exists_ok_iff {x : Outcome Tree} (h : Decides m source destinations x) :
    (∃ t, x = .ok t) ↔ ∀ c ∈ destinations, InReach m source c := by
  constructor
  · rintro ⟨t, ht⟩
    exact h.ok t ht
  · intro hall
    cases hx : x with
    | ok t => exact ⟨t, rfl⟩
    | error f =>
        obtain ⟨c, -, hfirst⟩ := h.error f hx
        exact absurd (hall c hfirst.mem) hfirst.out

theorem Decides.eq_error {x : Outcome Tree} (h : Decides m source destinations x)
    (hc : FirstOut m source destinations c) :
    x = .error ⟨[], .routing (.unreachable source c)⟩ := by
  cases hx : x with
  | ok t => exact absurd (h.ok t hx c hc.mem) hc.out
  | error f =>
      obtain ⟨c', rfl, hc'⟩ := h.error f hx
      rw [hc.unique hc']

theorem firstOut_of_cons {P : Coord → Bool} {rest : List Coord}
    (hsorted : destinations.Pairwise fun a b => compare a b = .lt)
    (hrest : destinations.filter P = c :: rest)
    (hin : ∀ c ∈ destinations, P c = false → InReach m source c)
    (hout : ¬InReach m source c) : FirstOut m source destinations c := by
  have hmem : c ∈ destinations.filter P := hrest ▸ List.mem_cons_self
  refine ⟨List.mem_of_mem_filter hmem, hout, fun c' hc' hout' => ?_⟩
  have hkept : c' ∈ destinations.filter P := by
    refine List.mem_filter.2 ⟨hc', ?_⟩
    cases hP : P c' with
    | true => rfl
    | false => exact absurd (hin c' hc' hP) hout'
  have hfiltered := hsorted.filter P
  rw [hrest] at hkept hfiltered
  rcases List.mem_cons.1 hkept with heq | hkept
  · exact .inl heq
  · exact .inr ((List.pairwise_cons.1 hfiltered).1 c' hkept)

end MulticastMesh.Routing
