import MulticastMesh.Proofs.Routing.Trees
/-!
# Trees of different partitions

Committing a tree looks at the path entries of one partition only and leaves those of all others.
So trees of two partitions can be committed in both orders.
-/

namespace MulticastMesh.Routing

open Mesh (Coord)
open Outcome

theorem PathTable.ext_entry? {paths paths' : PathTable}
    (h : ∀ chip s, paths.entry? chip s = paths'.entry? chip s) : paths = paths' := by
  have hentries : paths.entries = paths'.entries :=
    Std.ExtTreeMap.ext_getElem? fun k => h k.1 k.2
  cases paths
  cases paths'
  exact congrArg PathTable.mk hentries

namespace Tree

variable {α β : Type} {s s' : PartitionSource} {paths paths₁ paths₂ other : PathTable}
  {x : Commit α} {a : α} {b : β}

def SameHere (s : PartitionSource) (paths paths' : PathTable) : Prop :=
  ∀ chip, paths'.entry? chip s = paths.entry? chip s

theorem SameHere.refl : SameHere s paths paths := fun _ => rfl

theorem SameElsewhere.sameHere (h : SameElsewhere s paths paths₁) (hne : s' ≠ s) :
    SameHere s' paths paths₁ :=
  fun chip => h chip s' hne

theorem SameHere.symm (h : SameHere s paths paths₁) : SameHere s paths₁ paths :=
  fun chip => (h chip).symm

/-- A change that depends on the entries of one partition only, and leaves those of the others as
they are. -/
def Local (s : PartitionSource) (x : Commit α) : Prop :=
  ∀ paths paths' other a, x.run.run paths = (.ok a, paths') → SameHere s paths other →
    ∃ other', x.run.run other = (.ok a, other') ∧ SameHere s paths' other' ∧
      SameElsewhere s other other'

theorem Local.sameElsewhere (h : Local s x) (hrun : x.run.run paths = (.ok a, paths₁)) :
    SameElsewhere s paths paths₁ := by
  obtain ⟨paths₁', hrun', _, hsame⟩ := h paths paths₁ paths a hrun SameHere.refl
  cases hrun.symm.trans hrun'
  exact hsame

theorem local_pure (a : α) : Local s (pure a : Commit α) := by
  intro paths paths' other b hrun hsame
  obtain ⟨rfl, rfl⟩ := change_pure_eq_ok.1 hrun
  exact ⟨other, change_pure_eq_ok.2 ⟨rfl, rfl⟩, hsame, SameElsewhere.refl⟩

theorem local_result (r : Except Failure α) : Local s (ExceptT.mk (pure r) : Commit α) := by
  intro paths paths' other b hrun hsame
  obtain ⟨hr, rfl⟩ := change_result_eq_ok.1 hrun
  exact ⟨other, change_result_eq_ok.2 ⟨hr, rfl⟩, hsame, SameElsewhere.refl⟩

theorem local_throw (f : Failure) : Local s (throw f : Commit α) := local_result (.error f)

theorem Local.bind {f : α → Commit β} (hx : Local s x) (hf : ∀ a, Local s (f a)) :
    Local s (x >>= f) := by
  intro paths paths₂ other b hrun hsame
  obtain ⟨a, paths₁, hfirst, hrest⟩ := change_bind_eq_ok.1 hrun
  obtain ⟨other₁, hfirst', hsame₁, helse₁⟩ := hx paths paths₁ other a hfirst hsame
  obtain ⟨other₂, hrest', hsame₂, helse₂⟩ := hf a paths₁ paths₂ other₁ b hrest hsame₁
  exact ⟨other₂, change_bind_eq_ok.2 ⟨a, other₁, hfirst', hrest'⟩, hsame₂, helse₁.trans helse₂⟩

theorem local_throw_bind (f : Failure) (g : β → Commit α) :
    Local s ((throw f : Commit β) >>= g) := by
  intro paths paths' other a hrun
  obtain ⟨_, _, hthrow, _⟩ := change_bind_eq_ok.1 hrun
  cases hthrow

theorem local_foldlM {f : β → α → Commit β} {l : List α} (h : ∀ b a, Local s (f b a)) (b : β) :
    Local s (l.foldlM f b) := by
  induction l generalizing b with
  | nil => exact local_pure b
  | cons a l ih =>
      rw [List.foldlM_cons]
      exact (h b a).bind ih

def merged (chip : Coord) (s : PartitionSource) (e : PathEntry) :
    Option PathEntry → Except RoutingError PathEntry
  | none => .ok e
  | some before => before.merge e chip s.identifier

theorem add_eq (chip : Coord) (s : PartitionSource) (e : PathEntry) (paths : PathTable) :
    paths.add chip s e = (merged chip s e (paths.entry? chip s)).map fun e' =>
      ⟨paths.entries.insert (chip, s) e'⟩ := by
  unfold PathTable.add
  cases paths.entry? chip s with
  | none => rfl
  | some before => rfl

theorem addPath_eq_ok {chip : Coord} {e : PathEntry} {u : Unit} :
    (addPath chip s e).run.run paths = (.ok u, paths₁) ↔
      ∃ e', merged chip s e (paths.entry? chip s) = .ok e' ∧
        paths₁ = ⟨paths.entries.insert (chip, s) e'⟩ := by
  unfold addPath
  rw [change_bind_eq_ok]
  simp only [change_get_eq_ok]
  constructor
  · rintro ⟨_, _, ⟨rfl, rfl⟩, hrun⟩
    rw [add_eq] at hrun
    cases hmerged : merged chip s e (paths.entry? chip s) with
    | error error =>
        rw [hmerged] at hrun
        cases hrun
    | ok e' =>
        rw [hmerged] at hrun
        exact ⟨e', rfl, (change_set_eq_ok.1 hrun).symm⟩
  · rintro ⟨e', hmerged, rfl⟩
    refine ⟨paths, paths, ⟨rfl, rfl⟩, ?_⟩
    rw [add_eq, hmerged]
    exact change_set_eq_ok.2 rfl

theorem local_addPath (chip : Coord) (e : PathEntry) : Local s (addPath chip s e) := by
  intro paths paths' other u hrun hsame
  obtain ⟨e', hmerged, rfl⟩ := addPath_eq_ok.1 hrun
  refine ⟨_, addPath_eq_ok.2 ⟨e', by rw [hsame chip, hmerged], rfl⟩, ?_, ?_⟩
  · intro c
    rw [entry?_insert, entry?_insert, hsame c]
  · intro c s' hne
    rw [entry?_insert, if_neg fun heq => hne (Prod.mk.inj heq).2.symm]

variable {t : Tree} {processor : Nat} {destinations : Destinations}

theorem local_deliver (chip : Coord) (processors : List Nat) :
    Local s (t.deliver processor s chip processors) := by
  unfold deliver
  refine Local.bind (local_result _) fun route => ?_
  exact Local.bind (local_result _) fun entrance => local_addPath chip _

theorem local_walkBack (destination : Coord) (fuel : Nat) (visited : List Coord)
    (claimed : List LinkFrom) (chip : Coord) :
    Local s (t.walkBack processor s destination fuel visited claimed chip) := by
  induction fuel generalizing visited claimed chip with
  | zero => exact local_throw _
  | succ fuel ih =>
      unfold walkBack
      split
      · exact local_pure claimed
      · simp only
        split
        · exact local_throw_bind _ _
        · split
          · exact local_throw _
          · next previous link _ =>
              refine Local.bind (local_result _) fun entrance => ?_
              exact (local_addPath previous _).bind fun _ => ih _ _ _

theorem local_commit : Local s (t.commit destinations processor s) := by
  refine local_foldlM (fun claimed stop => ?_) []
  exact (local_deliver stop.1 _).bind fun _ => local_walkBack stop.1 _ _ claimed stop.1

theorem Local.swap {y : Commit β} (hx : Local s x) (hy : Local s' y) (hne : s ≠ s')
    (hfirst : x.run.run paths = (.ok a, paths₁)) (hsecond : y.run.run paths₁ = (.ok b, paths₂)) :
    ∃ paths₁', y.run.run paths = (.ok b, paths₁') ∧ x.run.run paths₁' = (.ok a, paths₂) := by
  have hpaths₁ := hx.sameElsewhere hfirst
  have hpaths₂ := hy.sameElsewhere hsecond
  obtain ⟨paths₁', hsecond', hhere', helse'⟩ :=
    hy paths₁ paths₂ paths b hsecond (hpaths₁.sameHere hne.symm).symm
  obtain ⟨paths₂', hfirst', hhere, helse⟩ := hx paths paths₁ paths₁' a hfirst (helse'.sameHere hne)
  refine ⟨paths₁', hsecond', ?_⟩
  have hsame : paths₂' = paths₂ := by
    apply PathTable.ext_entry?
    intro chip u
    by_cases hu : u = s
    · subst hu
      exact (hhere chip).trans (hpaths₂ chip u hne).symm
    · by_cases hu' : u = s'
      · subst hu'
        exact (helse chip u hu).trans (hhere' chip)
      · calc
          paths₂'.entry? chip u = paths₁'.entry? chip u := helse chip u hu
          _ = paths.entry? chip u := helse' chip u hu'
          _ = paths₁.entry? chip u := (hpaths₁ chip u hu).symm
          _ = paths₂.entry? chip u := (hpaths₂ chip u hu').symm
  rw [← hsame]
  exact hfirst'

end Tree

end MulticastMesh.Routing
