import MulticastMesh.Proofs.Keys.Patterns
import MulticastMesh.Tables.Table
/-!
# First match

What a table does with a key is decided by the first entry that matches.  Changes of a table are
judged by `KeepsRoutes`: every key that had a route still has it.
-/

namespace MulticastMesh.Tables

open Keys (Key Pattern)

/-- Every key that `before` routes is routed the same way by `after`. -/
def KeepsRoutes (before after : List Entry) : Prop :=
  ∀ k e, lookup? before k = some e → ∃ f, lookup? after k = some f ∧ f.route = e.route

/-- No key is matched by two entries with different routes. -/
def Unambiguous (entries : List Entry) : Prop :=
  ∀ e ∈ entries, ∀ f ∈ entries, ∀ k, e.Matches k → f.Matches k → e.route = f.route

/-- No entry has key bits outside its mask. -/
def AllProper (entries : List Entry) : Prop :=
  ∀ e ∈ entries, e.pattern.Proper

variable {entries : List Entry} {e f : Entry} {k : Key}

theorem mem_of_lookup? (h : lookup? entries k = some e) : e ∈ entries :=
  List.mem_of_find?_eq_some h

theorem matches_of_lookup? (h : lookup? entries k = some e) : e.Matches k := by
  simpa using List.find?_some h

theorem lookup?_cons : lookup? (e :: entries) k = if e.Matches k then some e
    else lookup? entries k := by
  unfold lookup?
  rw [List.find?_cons]
  by_cases he : e.Matches k <;> simp [he]

theorem lookup?_append {before after : List Entry} :
    lookup? (before ++ after) k = (lookup? before k).or (lookup? after k) :=
  List.find?_append

theorem lookup?_eq_none_iff : lookup? entries k = none ↔ ∀ e ∈ entries, ¬ e.Matches k := by
  simp [lookup?]

theorem exists_lookup? (he : e ∈ entries) (hk : e.Matches k) :
    ∃ f, lookup? entries k = some f := by
  cases h : lookup? entries k with
  | none => exact absurd hk (lookup?_eq_none_iff.1 h e he)
  | some f => exact ⟨f, rfl⟩

theorem KeepsRoutes.refl : KeepsRoutes entries entries :=
  fun _ e h => ⟨e, h, rfl⟩

theorem Unambiguous.lookup? (h : Unambiguous entries) (he : e ∈ entries) (hk : e.Matches k) :
    ∃ f, lookup? entries k = some f ∧ f.route = e.route := by
  obtain ⟨f, hf⟩ := exists_lookup? he hk
  exact ⟨f, hf, h f (mem_of_lookup? hf) e he k (matches_of_lookup? hf) hk⟩

/-! ## First match by position -/

/-- The first match among the entries at some increasing positions. -/
theorem lookup?_at_positions {table : Array Entry} {positions : List Nat}
    (hpos : positions.Pairwise (· < ·))
    (h : lookup? (positions.filterMap fun i => table[i]?) k = some e) :
    ∃ i ∈ positions, table[i]? = some e ∧ e.Matches k ∧
      ∀ j ∈ positions, j < i → ∀ f, table[j]? = some f → ¬ f.Matches k := by
  induction positions with
  | nil => simp [lookup?] at h
  | cons i rest ih =>
      obtain ⟨hleast, hrest⟩ := List.pairwise_cons.1 hpos
      have hskip : (∀ f, table[i]? = some f → ¬ f.Matches k) →
          lookup? (rest.filterMap fun i => table[i]?) k = some e →
          ∃ j ∈ i :: rest, table[j]? = some e ∧ e.Matches k ∧
            ∀ l ∈ i :: rest, l < j → ∀ f, table[l]? = some f → ¬ f.Matches k := by
        intro hmiss hrec
        obtain ⟨j, hj, hje, hjk, hfirst⟩ := ih hrest hrec
        refine ⟨j, by simp [hj], hje, hjk, ?_⟩
        intro l hl hlj f hf
        rcases List.mem_cons.1 hl with rfl | hl
        · exact hmiss f hf
        · exact hfirst l hl hlj f hf
      cases hti : table[i]? with
      | none =>
          rw [List.filterMap_cons_none hti] at h
          exact hskip (by simp [hti]) h
      | some f =>
          rw [List.filterMap_cons_some hti] at h
          unfold Tables.lookup? at h
          rw [List.find?_cons] at h
          by_cases hf : f.Matches k
          · simp only [hf, decide_true, Option.some.injEq] at h
            subst h
            refine ⟨i, by simp, hti, hf, ?_⟩
            intro l hl hli
            rcases List.mem_cons.1 hl with rfl | hl
            · omega
            · have := hleast l hl
              omega
          · simp only [hf, decide_false] at h
            refine hskip ?_ h
            intro g hg
            rw [hti] at hg
            cases hg
            exact hf

theorem lookup?_at_positions_eq_none {table : Array Entry} {positions : List Nat}
    (h : lookup? (positions.filterMap fun i => table[i]?) k = none) {i : Nat}
    (hi : i ∈ positions) (he : table[i]? = some e) : ¬ e.Matches k :=
  lookup?_eq_none_iff.1 h e (List.mem_filterMap.2 ⟨i, hi, he⟩)

theorem lookup?_toList {table : Array Entry} (h : lookup? table.toList k = some e) :
    ∃ i : Nat, table[i]? = some e ∧ e.Matches k ∧
      ∀ j < i, ∀ f : Entry, table[j]? = some f → ¬ f.Matches k := by
  obtain ⟨hk, i, hi, hie, hfirst⟩ := List.find?_eq_some_iff_getElem.1 h
  simp only [Array.length_toList, Array.getElem_toList] at hi hie hfirst
  refine ⟨i, by simp [hi, hie], by simpa using hk, ?_⟩
  intro j hj f hf
  have hjs : j < table.size := by omega
  rw [Array.getElem?_eq_getElem hjs] at hf
  cases hf
  simpa using hfirst j hj

end MulticastMesh.Tables
