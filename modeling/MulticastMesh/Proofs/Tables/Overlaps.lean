import MulticastMesh.Proofs.Keys.Joins
import MulticastMesh.Tables.Table
/-!
# Overlaps

Entries, joins and the keys under check are compared by one test, the ranges of keys by another.
Neither looks at a key: on proper patterns both say whether some key is in the two patterns, and
the test for a cover says whether all keys of the one are in the other.
-/

namespace MulticastMesh.Tables

open Keys (KeyRange Pattern)

def Meets (p q : Pattern) : Prop := ∃ k, p.Matches k ∧ q.Matches k

/-- On proper patterns all tests for an overlap look for a common key, and the test for a cover
compares the sets of keys. -/
theorem overlapTests_exact {p q : Pattern} (hp : p.Proper) (hq : q.Proper) :
    (∀ e f : Entry, e.pattern = p → f.pattern = q → (e.intersects f = true ↔ Meets p q)) ∧
      (p.intersects q = true ↔ Meets p q) ∧
      (KeyRange.overlaps ⟨p, hp⟩ ⟨q, hq⟩ = true ↔ Meets p q) ∧
      (p.coveredBy q = true ↔ p.Within q) := by
  have hmeets := Pattern.intersects_iff hp hq
  refine ⟨?_, hmeets, Pattern.agrees_iff hp hq, (Pattern.within_iff_coveredBy hp).symm⟩
  rintro e f rfl rfl
  exact hmeets

/-- Two patterns whose masks overlap in part have a key in common; the first is apart from a
block that differs in one bit that both fix. -/
theorem overlapTests_exact_partial :
    let p : Pattern := ⟨0x1000, 0xFFFFF0F0⟩
    let q : Pattern := ⟨0x1800, 0xFFFFF800⟩
    let r : Pattern := ⟨0x2000, 0xFFFFFFF0⟩
    p.Proper ∧ q.Proper ∧ Meets p q ∧ ¬ p.Within q ∧ ¬ Meets p r := by
  intro p q r
  have hp : p.Proper := by decide
  have hq : q.Proper := by decide
  obtain ⟨_, hmeets, _, hwithin⟩ := overlapTests_exact hp hq
  obtain ⟨_, _, hoverlaps, _⟩ := overlapTests_exact (p := p) (q := r) (by decide) (by decide)
  refine ⟨hp, hq, hmeets.1 (by decide), ?_, ?_⟩
  · rw [← hwithin]
    decide
  · rw [← hoverlaps]
    decide

/-- A pattern that is not proper has no keys, but the test that compares masked keys misses that. -/
example :
    let p : Pattern := ⟨0x1, 0x0⟩
    ¬ p.Proper ∧ p.intersects ⟨0x0, 0x0⟩ = true := by
  decide

end MulticastMesh.Tables
