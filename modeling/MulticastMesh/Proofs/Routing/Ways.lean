import Mathlib.Logic.Relation
import MulticastMesh.Routing.Tree
/-!
# Ways back to the source

A map of predecessors may be anything: chips may lack one, or lead to each other in a circle.  The
way back from a chip is followed until it reaches the source, and then it meets no chip twice; if
it does not reach the source it is blocked by one of these two faults.
-/

namespace MulticastMesh.Routing.Tree

open Mesh (Coord Link)
open Relation (ReflTransGen TransGen)

def Parent (t : Tree) (chip previous : Coord) : Prop :=
  chip ≠ t.source ∧ ∃ l, t.cameFrom[chip]? = some (previous, l)

/-- The links that lead from the source to a chip, the last one first. -/
inductive Way (t : Tree) : Coord → List LinkFrom → Prop
  | source : Way t t.source []
  | step {chip previous : Coord} {l : Link} {steps : List LinkFrom} (hne : chip ≠ t.source)
      (hstep : t.cameFrom[chip]? = some (previous, l)) (way : Way t previous steps) :
      Way t chip ((previous, l) :: steps)

/-- Why the way back from a chip does not reach the source. -/
inductive Blocked (t : Tree) (chip : Coord) : RoutingError → Prop
  | noPrevious {c : Coord} (behind : ReflTransGen t.Parent chip c) (hne : c ≠ t.source)
      (hnone : t.cameFrom[c]? = none) : Blocked t chip (.unreachable t.source c)
  | cycle {c : Coord} (behind : ReflTransGen t.Parent chip c) (again : TransGen t.Parent c c) :
      Blocked t chip (.cycle c)

variable {t : Tree} {chip previous c : Coord} {steps : List LinkFrom}

theorem Blocked.of_behind {error : RoutingError} (h : t.Blocked c error)
    (hbehind : ReflTransGen t.Parent chip c) : t.Blocked chip error := by
  cases h with
  | noPrevious hfurther hne hnone => exact .noPrevious (hbehind.trans hfurther) hne hnone
  | cycle hfurther hagain => exact .cycle (hbehind.trans hfurther) hagain

theorem Way.parent (h : t.Way chip steps) (hparent : t.Parent chip previous) :
    ∃ l rest, steps = (previous, l) :: rest ∧ t.Way previous rest := by
  obtain ⟨hne, l, hstep⟩ := hparent
  cases h with
  | source => exact absurd rfl hne
  | step _ hstep' way =>
      cases hstep.symm.trans hstep'
      exact ⟨l, _, rfl, way⟩

theorem Way.behind (h : t.Way chip steps) (hbehind : ReflTransGen t.Parent chip c) :
    ∃ rest, t.Way c rest := by
  induction hbehind with
  | refl => exact ⟨steps, h⟩
  | tail _ hparent ih =>
      obtain ⟨rest, hrest⟩ := ih
      obtain ⟨_, rest', _, hway⟩ := hrest.parent hparent
      exact ⟨rest', hway⟩

theorem Way.shorter (h : t.Way chip steps) (hbehind : TransGen t.Parent chip c) :
    ∃ rest, t.Way c rest ∧ rest.length < steps.length := by
  induction hbehind with
  | single hparent =>
      obtain ⟨l, rest, rfl, hway⟩ := h.parent hparent
      exact ⟨rest, hway, Nat.lt_succ_self _⟩
  | tail _ hparent ih =>
      obtain ⟨rest, hrest, hlt⟩ := ih
      obtain ⟨l, rest', rfl, hway⟩ := hrest.parent hparent
      exact ⟨rest', hway, Nat.lt_trans (Nat.lt_succ_self _) hlt⟩

theorem Way.unique {steps' : List LinkFrom} (h : t.Way chip steps) (h' : t.Way chip steps') :
    steps = steps' := by
  induction h generalizing steps' with
  | source =>
      cases h' with
      | source => rfl
      | step hne => exact absurd rfl hne
  | step hne hstep _ ih =>
      obtain ⟨l, rest, rfl, hway⟩ := h'.parent ⟨hne, _, hstep⟩
      cases h' with
      | step _ hstep' _ =>
          cases hstep.symm.trans hstep'
          rw [ih hway]

theorem Way.not_cycle (h : t.Way chip steps) : ¬TransGen t.Parent chip chip := by
  intro hcycle
  obtain ⟨rest, hrest, hlt⟩ := h.shorter hcycle
  rw [h.unique hrest] at hlt
  exact Nat.lt_irrefl _ hlt

theorem Way.not_blocked {error : RoutingError} (h : t.Way chip steps) : ¬t.Blocked chip error := by
  intro hblocked
  cases hblocked with
  | noPrevious hbehind hne hnone =>
      obtain ⟨rest, hrest⟩ := h.behind hbehind
      cases hrest with
      | source => exact hne rfl
      | step _ hstep _ => cases hnone.symm.trans hstep
  | cycle hbehind hagain =>
      obtain ⟨rest, hrest⟩ := h.behind hbehind
      exact hrest.not_cycle hagain

theorem Way.transGen_of_mem (h : t.Way chip steps) (hc : c ∈ steps.map Prod.fst) :
    TransGen t.Parent chip c := by
  induction h with
  | source => cases hc
  | step hne hstep _ ih =>
      rcases List.mem_cons.1 hc with rfl | hc
      · exact .single ⟨hne, _, hstep⟩
      · exact .head ⟨hne, _, hstep⟩ (ih hc)

/-- A way back to the source meets no chip twice. -/
theorem Way.nodup (h : t.Way chip steps) : (chip :: steps.map Prod.fst).Nodup := by
  induction h with
  | source => simp
  | step hne hstep way ih =>
      refine List.nodup_cons.2 ⟨fun hmem => ?_, ih⟩
      have hway := Way.step hne hstep way
      exact hway.not_cycle (hway.transGen_of_mem hmem)

end MulticastMesh.Routing.Tree
