import Mathlib.Tactic.IntervalCases
import MulticastMesh.Proofs.Routing.Local
/-!
# Path entries in any order

The entries of one partition on one chip combine as sets of links and processors and as what is
known of the entrance.  An entrance that is not known yet fits every other, so entries can be
added in any order, or in none if two entrances are known.
-/

namespace MulticastMesh.Routing

open Mesh (Coord Link)
open Outcome

variable {s : PartitionSource} {chip : Coord} {paths paths' : PathTable} {e e' : PathEntry}
  {l l' : List PathEntry} {x y : Entrance}

/-! ## Routes are sets -/

theorem exists_link_id {i : Nat} (hi : i < 6) : ∃ link : Link, link.id = i := by
  interval_cases i
  · exact ⟨.east, rfl⟩
  · exact ⟨.northEast, rfl⟩
  · exact ⟨.north, rfl⟩
  · exact ⟨.west, rfl⟩
  · exact ⟨.southWest, rfl⟩
  · exact ⟨.south, rfl⟩

theorem Route.ext_has {r r' : Route} (hlink : ∀ link, r.hasLink link = r'.hasLink link)
    (hprocessor : ∀ p, r.hasProcessor p = r'.hasProcessor p) : r = r' := by
  have hlinks : r.linkBits = r'.linkBits := by
    apply BitVec.eq_of_getLsbD_eq
    intro i hi
    obtain ⟨link, rfl⟩ := exists_link_id hi
    exact hlink link
  have hprocessors : r.processorBits = r'.processorBits :=
    BitVec.eq_of_getLsbD_eq fun p _ => hprocessor p
  cases r
  cases r'
  exact congrArg₂ Route.mk hlinks hprocessors

/-! ## Combined entries -/

def Knows (l : List PathEntry) (x : Entrance) : Prop := ∃ e ∈ l, e.entrance? = some x

def Conflicting (l : List PathEntry) : Prop := ∃ x y, Knows l x ∧ Knows l y ∧ x ≠ y

/-- The union of all routes of some entries, with the entrance that any of them knows. -/
structure Combines (l : List PathEntry) (e : PathEntry) : Prop where
  nonempty : l ≠ []
  hasLink : ∀ link, e.route.hasLink link = true ↔ ∃ e' ∈ l, e'.route.hasLink link = true
  hasProcessor : ∀ p, e.route.hasProcessor p = true ↔ ∃ e' ∈ l, e'.route.hasProcessor p = true
  entrance : ∀ x, e.entrance? = some x ↔ Knows l x

/-- What some entries come to on a chip; no entries leave nothing there. -/
def CombinesTo (l : List PathEntry) : Option PathEntry → Prop
  | none => l = []
  | some e => Combines l e

theorem Knows.perm (h : Knows l x) (hperm : l.Perm l') : Knows l' x := by
  obtain ⟨e, he, hx⟩ := h
  exact ⟨e, hperm.mem_iff.1 he, hx⟩

theorem Conflicting.perm (h : Conflicting l) (hperm : l.Perm l') : Conflicting l' := by
  obtain ⟨x, y, hx, hy, hne⟩ := h
  exact ⟨x, y, hx.perm hperm, hy.perm hperm, hne⟩

theorem Combines.not_conflicting (h : Combines l e) : ¬ Conflicting l := by
  rintro ⟨x, y, hx, hy, hne⟩
  have hx := (h.entrance x).2 hx
  rw [(h.entrance y).2 hy] at hx
  exact hne (Option.some.inj hx).symm

theorem Combines.self (e : PathEntry) : Combines [e] e where
  nonempty := by simp
  hasLink := by simp
  hasProcessor := by simp
  entrance := by simp [Knows]

theorem Combines.append (h : Combines l e) (h' : Combines (e :: l') e') :
    Combines (l ++ l') e' where
  nonempty := List.append_ne_nil_of_left_ne_nil h.nonempty l'
  hasLink := by
    intro link
    rw [h'.hasLink, List.exists_mem_cons_iff, h.hasLink]
    simp only [List.mem_append, or_and_right, exists_or]
  hasProcessor := by
    intro p
    rw [h'.hasProcessor, List.exists_mem_cons_iff, h.hasProcessor]
    simp only [List.mem_append, or_and_right, exists_or]
  entrance := by
    intro x
    rw [h'.entrance, Knows, List.exists_mem_cons_iff, h.entrance]
    simp only [Knows, List.mem_append, or_and_right, exists_or]

theorem Combines.knows_append (h : Combines l e) (hx : Knows (e :: l') x) : Knows (l ++ l') x := by
  obtain ⟨e', he', hx⟩ := hx
  rcases List.mem_cons.1 he' with rfl | he'
  · obtain ⟨e'', he'', hx⟩ := (h.entrance x).1 hx
    exact ⟨e'', List.mem_append_left _ he'', hx⟩
  · exact ⟨e', List.mem_append_right _ he', hx⟩

theorem Combines.eq (h : Combines l e) (h' : Combines l' e') (hperm : l.Perm l') : e = e' := by
  have hroute : e.route = e'.route := by
    apply Route.ext_has
    · intro link
      rw [Bool.eq_iff_iff, h.hasLink, h'.hasLink]
      simp only [hperm.mem_iff]
    · intro p
      rw [Bool.eq_iff_iff, h.hasProcessor, h'.hasProcessor]
      simp only [hperm.mem_iff]
  have hentrance : e.entrance? = e'.entrance? := by
    apply Option.ext
    intro x
    rw [h.entrance, h'.entrance]
    exact ⟨fun hx => hx.perm hperm, fun hx => hx.perm hperm.symm⟩
  cases e
  cases e'
  exact congrArg₂ PathEntry.mk hroute hentrance

theorem CombinesTo.eq {e? e'? : Option PathEntry} (h : CombinesTo l e?) (h' : CombinesTo l' e'?)
    (hperm : l.Perm l') : e? = e'? := by
  cases e? with
  | none =>
      cases e'? with
      | none => rfl
      | some e' =>
          subst h
          exact absurd hperm.nil_eq.symm h'.nonempty
  | some e =>
      cases e'? with
      | none =>
          subst h'
          exact absurd hperm.eq_nil h.nonempty
      | some e' => exact congrArg some (Combines.eq h h' hperm)

theorem CombinesTo.not_conflicting {e? : Option PathEntry} (h : CombinesTo l e?) :
    ¬ Conflicting l := by
  cases e? with
  | none =>
      subst h
      rintro ⟨x, _, ⟨e, he, _⟩, _⟩
      cases he
  | some e => exact Combines.not_conflicting h

/-! ## Adding one entry -/

theorem merge_spec (chip : Coord) (identifier : String) (e e' : PathEntry) :
    (∃ both, e.merge e' chip identifier = .ok both ∧ Combines [e, e'] both) ∨
      ∃ x y, Knows [e, e'] x ∧ Knows [e, e'] y ∧ x ≠ y ∧
        e.merge e' chip identifier = .error (.conflictingEntry chip identifier x y) := by
  obtain ⟨r, x?⟩ := e
  obtain ⟨r', y?⟩ := e'
  have hcombines : ∀ z?, (∀ z, z? = some z ↔ x? = some z ∨ y? = some z) →
      Combines [⟨r, x?⟩, ⟨r', y?⟩] ⟨r.union r', z?⟩ := by
    intro z? hz
    exact ⟨by simp, by simp, by simp, by simpa [Knows] using hz⟩
  unfold PathEntry.merge
  cases x? with
  | none => exact Or.inl ⟨_, rfl, hcombines y? (by simp)⟩
  | some x =>
      cases y? with
      | none => exact Or.inl ⟨_, rfl, hcombines (some x) (by simp)⟩
      | some y =>
          simp only
          by_cases hxy : x = y
          · rw [if_pos hxy]
            exact Or.inl ⟨_, rfl, hcombines (some x) (by simp [hxy])⟩
          · rw [if_neg hxy]
            exact Or.inr ⟨x, y, by simp [Knows], by simp [Knows], hxy, rfl⟩

def present (paths : PathTable) (chip : Coord) (s : PartitionSource) : List PathEntry :=
  (paths.entry? chip s).toList

/-- Only the entry of one partition on one chip may differ. -/
def SameBut (chip : Coord) (s : PartitionSource) (paths paths' : PathTable) : Prop :=
  ∀ c s', (c, s') ≠ (chip, s) → paths'.entry? c s' = paths.entry? c s'

namespace Tree

theorem addPath_eq_error {f : Failure} :
    (addPath chip s e).run.run paths = (.error f, paths') ↔
      (∃ error, merged chip s e (paths.entry? chip s) = .error error ∧
        f = ⟨[], .routing error⟩) ∧ paths' = paths := by
  unfold addPath
  rw [change_bind_run, change_get_run]
  simp only [add_eq]
  cases hmerged : merged chip s e (paths.entry? chip s) with
  | error error =>
      change ((Except.error _, paths) : Except Failure Unit × PathTable) = _ ↔ _
      simp [eq_comm]
  | ok e' =>
      change ((Except.ok (), _) : Except Failure Unit × PathTable) = _ ↔ _
      simp

/-- An entry is combined with what is there, or refused because both know an entrance. -/
theorem addPath_combines (paths : PathTable) (chip : Coord) (s : PartitionSource) (e : PathEntry) :
    (∃ paths' e', (addPath chip s e).run.run paths = (.ok (), paths') ∧
      paths'.entry? chip s = some e' ∧ Combines (present paths chip s ++ [e]) e' ∧
      SameBut chip s paths paths') ∨
    ∃ x y, Knows (present paths chip s ++ [e]) x ∧ Knows (present paths chip s ++ [e]) y ∧
      x ≠ y ∧ (addPath chip s e).run.run paths =
        (.error ⟨[], .routing (.conflictingEntry chip s.identifier x y)⟩, paths) := by
  have hok : ∀ e', merged chip s e (paths.entry? chip s) = .ok e' →
      Combines (present paths chip s ++ [e]) e' →
      ∃ paths' e', (addPath chip s e).run.run paths = (.ok (), paths') ∧
        paths'.entry? chip s = some e' ∧ Combines (present paths chip s ++ [e]) e' ∧
        SameBut chip s paths paths' := by
    intro e' hmerged hcombines
    refine ⟨_, e', addPath_eq_ok.2 ⟨e', hmerged, rfl⟩, ?_, hcombines, fun c s' hne => ?_⟩
    · rw [entry?_insert, if_pos rfl]
    · rw [entry?_insert, if_neg (Ne.symm hne)]
  unfold present at hok ⊢
  cases hpresent : paths.entry? chip s with
  | none =>
      rw [hpresent] at hok
      exact Or.inl (hok e rfl (Combines.self e))
  | some before =>
      rw [hpresent] at hok
      rcases merge_spec chip s.identifier before e with ⟨both, hboth, hcombines⟩ |
        ⟨x, y, hx, hy, hne, hclash⟩
      · exact Or.inl (hok both hboth hcombines)
      · refine Or.inr ⟨x, y, hx, hy, hne, addPath_eq_error.2 ⟨⟨_, ?_, rfl⟩, rfl⟩⟩
        rw [hpresent]
        exact hclash

/-! ## Adding many entries -/

def addPaths (chip : Coord) (s : PartitionSource) (l : List PathEntry) : Commit Unit :=
  l.forM (addPath chip s)

/-- How adding entries ends: with all of them combined, or refused because two of them clash. -/
def AddEnds (chip : Coord) (s : PartitionSource) (all : List PathEntry) (paths : PathTable) :
    Except Failure Unit × PathTable → Prop
  | (.ok (), paths') => CombinesTo all (paths'.entry? chip s) ∧ SameBut chip s paths paths'
  | (.error f, paths') =>
    (∃ x y, Knows all x ∧ Knows all y ∧ x ≠ y ∧
      f = ⟨[], .routing (.conflictingEntry chip s.identifier x y)⟩) ∧ SameBut chip s paths paths'

/-- Induction over the entries; the entry on the chip stands for all that were added so far. -/
theorem addPaths_ends (paths : PathTable) (chip : Coord) (s : PartitionSource)
    (l : List PathEntry) :
    AddEnds chip s (present paths chip s ++ l) paths ((addPaths chip s l).run.run paths) := by
  induction l generalizing paths with
  | nil =>
      refine ⟨?_, fun _ _ _ => rfl⟩
      rw [List.append_nil, present]
      cases paths.entry? chip s with
      | none => rfl
      | some e => exact Combines.self e
  | cons e l ih =>
      have hunfold : (addPaths chip s (e :: l)).run.run paths =
          ((addPath chip s e >>= fun _ => addPaths chip s l) : Commit Unit).run.run paths := rfl
      rw [hunfold, change_bind_run, List.append_cons]
      rcases addPath_combines paths chip s e with ⟨paths₁, e₁, hrun, hentry, hcombines, hsame⟩ |
        ⟨x, y, hx, hy, hne, hrun⟩
      · simp only [hrun]
        have hrest := ih paths₁
        have hpresent : present paths₁ chip s = [e₁] := by simp [present, hentry]
        rcases hends : (addPaths chip s l).run.run paths₁ with ⟨r, paths'⟩
        rw [hends] at hrest
        cases r with
        | ok u =>
            obtain ⟨hto, hsame'⟩ := hrest
            refine ⟨?_, fun c s' hc => (hsame' c s' hc).trans (hsame c s' hc)⟩
            rw [hpresent] at hto
            revert hto
            cases paths'.entry? chip s with
            | none => exact fun hto => absurd hto (List.cons_ne_nil e₁ l)
            | some e' => exact fun hto => hcombines.append hto
        | error f =>
            obtain ⟨⟨x, y, hx, hy, hne, hf⟩, hsame'⟩ := hrest
            rw [hpresent] at hx hy
            exact ⟨⟨x, y, hcombines.knows_append hx, hcombines.knows_append hy, hne, hf⟩,
              fun c s' hc => (hsame' c s' hc).trans (hsame c s' hc)⟩
      · simp only [hrun]
        have hmore : ∀ z, Knows (present paths chip s ++ [e]) z →
            Knows (present paths chip s ++ [e] ++ l) z := by
          rintro z ⟨e', he', hz⟩
          exact ⟨e', List.mem_append_left _ he', hz⟩
        exact ⟨⟨x, y, hmore x hx, hmore y hy, hne, rfl⟩, fun _ _ _ => rfl⟩

theorem AddEnds.sameBut {all : List PathEntry} {r : Except Failure Unit}
    (h : AddEnds chip s all paths (r, paths')) : SameBut chip s paths paths' := by
  cases r with
  | ok u => exact h.2
  | error f => exact h.2

theorem addPaths_refused (hconflict : Conflicting (present paths chip s ++ l)) :
    ∃ x y paths', Knows (present paths chip s ++ l) x ∧ Knows (present paths chip s ++ l) y ∧
      x ≠ y ∧ (addPaths chip s l).run.run paths =
        (.error ⟨[], .routing (.conflictingEntry chip s.identifier x y)⟩, paths') := by
  have hends := addPaths_ends paths chip s l
  rcases hrun : (addPaths chip s l).run.run paths with ⟨r, paths'⟩
  rw [hrun] at hends
  cases r with
  | ok u => exact absurd hconflict hends.1.not_conflicting
  | error f =>
      obtain ⟨⟨x, y, hx, hy, hne, rfl⟩, _⟩ := hends
      exact ⟨x, y, paths', hx, hy, hne, rfl⟩

theorem addPaths_accepted (hfree : ¬ Conflicting (present paths chip s ++ l)) :
    ∃ paths', (addPaths chip s l).run.run paths = (.ok (), paths') ∧
      CombinesTo (present paths chip s ++ l) (paths'.entry? chip s) ∧
      SameBut chip s paths paths' := by
  have hends := addPaths_ends paths chip s l
  rcases hrun : (addPaths chip s l).run.run paths with ⟨r, paths'⟩
  rw [hrun] at hends
  cases r with
  | ok u => exact ⟨paths', rfl, hends⟩
  | error f =>
      obtain ⟨⟨x, y, hx, hy, hne, _⟩, _⟩ := hends
      exact absurd ⟨x, y, hx, hy, hne⟩ hfree

theorem eq_of_combinesTo {paths'' : PathTable} (hto : CombinesTo l (paths'.entry? chip s))
    (hto' : CombinesTo l' (paths''.entry? chip s)) (hperm : l.Perm l')
    (hsame : SameBut chip s paths paths') (hsame' : SameBut chip s paths paths'') :
    paths' = paths'' := by
  apply PathTable.ext_entry?
  intro c s'
  by_cases hc : (c, s') = (chip, s)
  · obtain ⟨rfl, rfl⟩ := Prod.mk.inj hc
    exact hto.eq hto' hperm
  · rw [hsame c s' hc, hsame' c s' hc]

/-- The entries of a partition on a chip can be added in every order or in none.  In none exactly
if two of them, or one of them and what is there already, know different entrances; otherwise
every order ends in the same table, which combines them.  An entry that is refused changes
nothing, and the entries of other chips and partitions never change. -/
theorem addPaths_inAnyOrder (paths : PathTable) (chip : Coord) (s : PartitionSource)
    (l : List PathEntry) :
    (Conflicting (present paths chip s ++ l) → ∀ l', l'.Perm l →
      ∃ x y paths', Knows (present paths chip s ++ l) x ∧ Knows (present paths chip s ++ l) y ∧
        x ≠ y ∧ (addPaths chip s l').run.run paths =
          (.error ⟨[], .routing (.conflictingEntry chip s.identifier x y)⟩, paths')) ∧
    (¬ Conflicting (present paths chip s ++ l) → ∃ paths',
      (∀ l', l'.Perm l → (addPaths chip s l').run.run paths = (.ok (), paths')) ∧
        CombinesTo (present paths chip s ++ l) (paths'.entry? chip s)) ∧
    (∀ e f paths', (addPath chip s e).run.run paths = (.error f, paths') → paths' = paths) ∧
    ∀ r paths', (addPaths chip s l).run.run paths = (r, paths') → SameBut chip s paths paths' := by
  have hperm : ∀ l', l'.Perm l → (present paths chip s ++ l').Perm (present paths chip s ++ l) :=
    fun l' h => h.append_left _
  refine ⟨?_, ?_, ?_, ?_⟩
  · intro hconflict l' hl'
    obtain ⟨x, y, paths', hx, hy, hne, hrun⟩ :=
      addPaths_refused (hconflict.perm (hperm l' hl').symm)
    exact ⟨x, y, paths', hx.perm (hperm l' hl'), hy.perm (hperm l' hl'), hne, hrun⟩
  · intro hfree
    obtain ⟨paths', _, hto, hsame⟩ := addPaths_accepted hfree
    refine ⟨paths', ?_, hto⟩
    intro l' hl'
    obtain ⟨paths'', hrun, hto', hsame'⟩ :=
      addPaths_accepted fun hconflict => hfree (hconflict.perm (hperm l' hl'))
    rw [hrun, eq_of_combinesTo hto' hto (hperm l' hl') hsame' hsame]
  · intro e f paths' hrun
    exact (addPath_eq_error.1 hrun).2
  · intro r paths' hrun
    have hends := addPaths_ends paths chip s l
    rw [hrun] at hends
    exact hends.sameBut

end Tree

end MulticastMesh.Routing
