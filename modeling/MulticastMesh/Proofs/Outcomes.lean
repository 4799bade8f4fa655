import Mathlib.Data.List.Forall2
import MulticastMesh.Failure
/-!
# Reasoning about outcomes

A computation that may fail is taken apart at its binds.  What a run returns is read off backwards
from its result; what a run can fail with is bounded by `FailsOnly`.
-/

namespace MulticastMesh.Outcome

variable {ε α β σ : Type}

/-! ## Results -/

theorem bind_eq_ok {x : Except ε α} {f : α → Except ε β} {b : β} :
    x >>= f = .ok b ↔ ∃ a, x = .ok a ∧ f a = .ok b := by
  cases x with
  | error e => simp [bind, Except.bind]
  | ok a => simp [bind, Except.bind]

theorem bind_eq_error {x : Except ε α} {f : α → Except ε β} {e : ε} :
    x >>= f = .error e ↔ x = .error e ∨ ∃ a, x = .ok a ∧ f a = .error e := by
  cases x with
  | error e' => simp [bind, Except.bind]
  | ok a => simp [bind, Except.bind]

theorem ok_bind (a : α) (f : α → Except ε β) : (.ok a >>= f) = f a := rfl

theorem pure_eq_ok {a b : α} : (pure a : Except ε α) = .ok b ↔ a = b := by
  simp [pure, Except.pure]

theorem bind_congr_ok {x : Except ε α} {f f' : α → Except ε β}
    (h : ∀ a, x = .ok a → f a = f' a) : x >>= f = x >>= f' := by
  cases x with
  | error e => rfl
  | ok a => exact h a rfl

theorem exists_of_isOk {x : Except ε α} (h : x.isOk = true) : ∃ a, x = .ok a := by
  cases x with
  | error e => cases h
  | ok a => exact ⟨a, rfl⟩

theorem during_eq_ok {activity : Activity} {x : Outcome α} {a : α} :
    during activity x = .ok a ↔ x = .ok a := by
  cases x <;> simp [during]

theorem during_eq_error {activity : Activity} {x : Outcome α} {f : Failure} :
    during activity x = .error f ↔
      ∃ f', x = .error f' ∧ { f' with during := activity :: f'.during } = f := by
  cases x <;> simp [during]

theorem lift_eq_ok {cause : ε → Cause} {x : Except ε α} {a : α} :
    lift cause x = .ok a ↔ x = .ok a := by
  cases x <;> simp [lift, fail]

theorem lift_eq_error {cause : ε → Cause} {x : Except ε α} {f : Failure} :
    lift cause x = .error f ↔ ∃ e, x = .error e ∧ ⟨[], cause e⟩ = f := by
  cases x <;> simp [lift, fail]

theorem mapM_eq_ok {f : α → Except ε β} {l : List α} {l' : List β} :
    l.mapM f = .ok l' ↔ List.Forall₂ (fun a b => f a = .ok b) l l' := by
  induction l generalizing l' with
  | nil =>
      rw [List.mapM_nil, pure_eq_ok, List.forall₂_nil_left_iff, eq_comm]
  | cons a l ih =>
      rw [List.mapM_cons, bind_eq_ok]
      simp only [bind_eq_ok, pure_eq_ok]
      constructor
      · rintro ⟨b, hb, l', hl', rfl⟩
        exact List.Forall₂.cons hb (ih.1 hl')
      · rintro (_ | ⟨hb, hl'⟩)
        exact ⟨_, hb, _, ih.2 hl', rfl⟩

theorem forM_eq_ok {f : α → Except ε Unit} {l : List α} {u : Unit} :
    l.forM f = .ok u ↔ ∀ a ∈ l, f a = .ok () := by
  induction l with
  | nil => simp [pure, Except.pure]
  | cons a l ih =>
      change forM (a :: l) f = _ ↔ _
      rw [List.forM_cons, bind_eq_ok, List.forall_mem_cons]
      constructor
      · rintro ⟨_, ha, hl⟩
        exact ⟨ha, ih.1 hl⟩
      · rintro ⟨ha, hl⟩
        exact ⟨(), ha, ih.2 hl⟩

theorem exists_mapM_eq_ok {f : α → Except ε β} {l : List α} (h : ∀ a ∈ l, ∃ b, f a = .ok b) :
    ∃ l', l.mapM f = .ok l' := by
  induction l with
  | nil => exact ⟨[], rfl⟩
  | cons a l ih =>
      obtain ⟨⟨b, hb⟩, hl⟩ := List.forall_mem_cons.1 h
      obtain ⟨l', hl'⟩ := ih hl
      exact ⟨b :: l', mapM_eq_ok.2 (.cons hb (mapM_eq_ok.1 hl'))⟩

theorem forM_eq_error {f : α → Except ε Unit} {l : List α} {e : ε} (h : l.forM f = .error e) :
    ∃ a ∈ l, f a = .error e := by
  induction l with
  | nil => cases h
  | cons a l ih =>
      rcases bind_eq_error.1 h with ha | ⟨_, _, hl⟩
      · exact ⟨a, List.mem_cons_self, ha⟩
      · obtain ⟨b, hb, hfails⟩ := ih hl
        exact ⟨b, List.mem_cons_of_mem a hb, hfails⟩

theorem mem_of_mapM_eq_ok {f : α → Except ε β} {l : List α} {l' : List β} {b : β}
    (h : l.mapM f = .ok l') : b ∈ l' ↔ ∃ a ∈ l, f a = .ok b := by
  induction l generalizing l' with
  | nil =>
      rw [List.mapM_nil, pure_eq_ok] at h
      simp [← h]
  | cons a l ih =>
      rw [List.mapM_cons] at h
      obtain ⟨c, hc, h⟩ := bind_eq_ok.1 h
      obtain ⟨rest, hrest, h⟩ := bind_eq_ok.1 h
      cases pure_eq_ok.1 h
      simp [ih hrest, hc, eq_comm]

theorem exists_ok_of_mapM_eq_ok {f : α → Except ε β} {l : List α} {l' : List β} {a : α}
    (h : l.mapM f = .ok l') (ha : a ∈ l) : ∃ b ∈ l', f a = .ok b := by
  cases hb : f a with
  | ok b => exact ⟨b, (mem_of_mapM_eq_ok h).2 ⟨a, ha, hb⟩, rfl⟩
  | error e =>
      obtain ⟨i, hi, rfl⟩ := List.getElem_of_mem ha
      have hall := mapM_eq_ok.1 h
      have hstep := hall.get hi (hall.length_eq ▸ hi)
      cases hb.symm.trans hstep

/-- A loop that only ever goes on ran every one of its steps. -/
theorem forIn_eq_ok {f : α → Unit → Except ε (ForInStep Unit)} {l : List α} {u u' : Unit}
    (hyield : ∀ a r, f a u = .ok r → r = .yield u) (h : forIn l u f = .ok u') :
    ∀ a ∈ l, f a u = .ok (.yield u) := by
  induction l with
  | nil => simp
  | cons a l ih =>
      rw [List.forIn_cons] at h
      obtain ⟨r, hr, h⟩ := bind_eq_ok.1 h
      cases hyield a r hr
      rw [List.forall_mem_cons]
      exact ⟨hr, ih h⟩

theorem forIn_eq_error {f : α → Unit → Except ε (ForInStep Unit)} {l : List α} {u : Unit} {e : ε}
    (hyield : ∀ a r, f a u = .ok r → r = .yield u) (h : forIn l u f = .error e) :
    ∃ a ∈ l, f a u = .error e := by
  induction l with
  | nil => cases h
  | cons a l ih =>
      rw [List.forIn_cons] at h
      rcases bind_eq_error.1 h with ha | ⟨r, hr, hl⟩
      · exact ⟨a, List.mem_cons_self, ha⟩
      · cases hyield a r hr
        obtain ⟨b, hb, hfails⟩ := ih hl
        exact ⟨b, List.mem_cons_of_mem a hb, hfails⟩

theorem forIn_eq_forM (l : List α) (f : α → Except ε β) :
    (forIn l PUnit.unit fun a _ => do
      let _ ← f a
      pure (ForInStep.yield PUnit.unit)) = (l.forM fun a => do let _ ← f a) := by
  induction l with
  | nil => rfl
  | cons a l ih =>
      rw [List.forIn_cons]
      change _ = ((f a >>= fun _ => pure ()) >>= fun _ => l.forM fun a => do let _ ← f a)
      rw [← ih]
      cases f a <;> rfl

/-- What holds at the start and is kept by every step holds at the end; the steps know what
went before them. -/
theorem foldlM_induction {motive : List α → β → Prop} {f : β → α → Except ε β} {l : List α}
    {b b' : β} (h : l.foldlM f b = .ok b') (hstart : motive [] b)
    (hstep : ∀ before a after, l = before ++ a :: after → ∀ c c', motive before c →
      f c a = .ok c' → motive (before ++ [a]) c') : motive l b' := by
  suffices hgen : ∀ before after, l = before ++ after → ∀ c, motive before c →
      after.foldlM f c = .ok b' → motive l b' from hgen [] l rfl b hstart h
  intro before after hl
  induction after generalizing before with
  | nil =>
      intro c hc hfold
      rw [List.foldlM_nil, pure_eq_ok] at hfold
      rw [hl, List.append_nil, ← hfold]
      exact hc
  | cons a after ih =>
      intro c hc hfold
      rw [List.foldlM_cons, bind_eq_ok] at hfold
      obtain ⟨c', hc', hrest⟩ := hfold
      exact ih (before ++ [a]) (by simp [hl]) c' (hstep before a after hl c c' hc hc') hrest

theorem foldlM_invariant {P : β → Prop} {f : β → α → Except ε β} {l : List α} {b b' : β}
    (h : l.foldlM f b = .ok b') (hstart : P b)
    (hstep : ∀ a ∈ l, ∀ c c', P c → f c a = .ok c' → P c') : P b' :=
  foldlM_induction (motive := fun _ => P) h hstart
    fun before a after hl c c' hc => hstep a (by simp [hl]) c c' hc

/-! ## Runs with a state -/

theorem runState_bind_eq_ok {x : StateT σ (Except ε) α} {f : α → StateT σ (Except ε) β} {s : σ}
    {r : β × σ} : (x >>= f) s = .ok r ↔ ∃ a s', x s = .ok (a, s') ∧ f a s' = .ok r := by
  change (x s >>= fun r => f r.1 r.2) = _ ↔ _
  rw [bind_eq_ok]
  constructor
  · rintro ⟨⟨a, s'⟩, hx, hf⟩
    exact ⟨a, s', hx, hf⟩
  · rintro ⟨a, s', hx, hf⟩
    exact ⟨(a, s'), hx, hf⟩

theorem runState_bind_eq_error {x : StateT σ (Except ε) α} {f : α → StateT σ (Except ε) β} {s : σ}
    {e : ε} : (x >>= f) s = .error e ↔
      x s = .error e ∨ ∃ a s', x s = .ok (a, s') ∧ f a s' = .error e := by
  change (x s >>= fun r => f r.1 r.2) = _ ↔ _
  rw [bind_eq_error]
  constructor
  · rintro (hx | ⟨⟨a, s'⟩, hx, hf⟩)
    · exact Or.inl hx
    · exact Or.inr ⟨a, s', hx, hf⟩
  · rintro (hx | ⟨a, s', hx, hf⟩)
    · exact Or.inl hx
    · exact Or.inr ⟨(a, s'), hx, hf⟩

theorem runState_pure_eq_ok {a : α} {s : σ} {r : α × σ} :
    (pure a : StateT σ (Except ε) α) s = .ok r ↔ (a, s) = r := by
  change Except.ok (a, s) = Except.ok r ↔ _
  simp

theorem runState_get_eq_ok {s : σ} {r : σ × σ} :
    (get : StateT σ (Except ε) σ) s = .ok r ↔ (s, s) = r := by
  change Except.ok (s, s) = Except.ok r ↔ _
  simp

theorem runState_set_eq_ok {s s' : σ} {r : Unit × σ} :
    (set s' : StateT σ (Except ε) Unit) s = .ok r ↔ ((), s') = r := by
  change Except.ok ((), s') = Except.ok r ↔ _
  simp

theorem runState_modify_eq_ok {f : σ → σ} {s : σ} {r : Unit × σ} :
    (modify f : StateT σ (Except ε) Unit) s = .ok r ↔ ((), f s) = r := by
  change Except.ok ((), f s) = Except.ok r ↔ _
  simp

theorem runState_lift_eq_ok {x : Except ε α} {s : σ} {r : α × σ} :
    (liftM x : StateT σ (Except ε) α) s = .ok r ↔ ∃ a, x = .ok a ∧ (a, s) = r := by
  change (x >>= fun a => pure (a, s)) = _ ↔ _
  rw [bind_eq_ok]
  simp only [pure_eq_ok]

theorem runState_lift_eq_error {x : Except ε α} {s : σ} {e : ε} :
    (liftM x : StateT σ (Except ε) α) s = .error e ↔ x = .error e := by
  change (x >>= fun a => pure (a, s)) = _ ↔ _
  rw [bind_eq_error]
  simp only [pure, Except.pure, reduceCtorEq, and_false, exists_false, or_false]

theorem runState_get_bind {f : σ → StateT σ (Except ε) α} {s : σ} :
    ((get : StateT σ (Except ε) σ) >>= f) s = f s s := rfl

/-- What holds at the start and is kept by every step holds after all of them. -/
theorem runState_forM_induction {motive : List α → σ → Prop} {f : α → StateT σ (Except ε) Unit}
    {l : List α} {s s' : σ} (h : l.forM f s = .ok ((), s')) (hstart : motive [] s)
    (hstep : ∀ before a after, l = before ++ a :: after → ∀ t t', motive before t →
      f a t = .ok ((), t') → motive (before ++ [a]) t') : motive l s' := by
  suffices hgen : ∀ before after, l = before ++ after → ∀ t, motive before t →
      after.forM f t = .ok ((), s') → motive l s' from hgen [] l rfl s hstart h
  intro before after hl
  induction after generalizing before with
  | nil =>
      intro t ht hrun
      cases hrun
      rw [hl, List.append_nil]
      exact ht
  | cons a after ih =>
      intro t ht hrun
      obtain ⟨_, t', ht', hrest⟩ := runState_bind_eq_ok.1 hrun
      exact ih (before ++ [a]) (by simp [hl]) t' (hstep before a after hl t t' ht ht') hrest

theorem runState_forM_eq_error {f : α → StateT σ (Except ε) Unit} {l : List α} {s : σ} {e : ε} :
    l.forM f s = .error e ↔ ∃ before a after s', l = before ++ a :: after ∧
      before.forM f s = .ok ((), s') ∧ f a s' = .error e := by
  constructor
  · intro h
    induction l generalizing s with
    | nil => cases h
    | cons a l ih =>
        rcases runState_bind_eq_error.1 h with hfirst | ⟨_, t, ha, hrest⟩
        · exact ⟨[], a, l, s, rfl, rfl, hfirst⟩
        · obtain ⟨before, b, after, s', rfl, hbefore, hb⟩ := ih hrest
          exact ⟨a :: before, b, after, s', rfl,
            runState_bind_eq_ok.2 ⟨(), t, ha, hbefore⟩, hb⟩
  · rintro ⟨before, a, after, s', rfl, hbefore, ha⟩
    induction before generalizing s with
    | nil =>
        cases hbefore
        exact runState_bind_eq_error.2 (Or.inl ha)
    | cons b before ih =>
        obtain ⟨_, t, hb, hrest⟩ := runState_bind_eq_ok.1 hbefore
        exact runState_bind_eq_error.2 (Or.inr ⟨(), t, hb, ih hrest⟩)

/-! ## Changes that may fail on the way -/

theorem change_bind_run (x : ExceptT ε (StateM σ) α) (f : α → ExceptT ε (StateM σ) β) (s : σ) :
    (x >>= f).run.run s = match x.run.run s with
      | (.ok a, s') => (f a).run.run s'
      | (.error e, s') => (.error e, s') := by
  change ((x.run >>= ExceptT.bindCont f) : StateM σ (Except ε β)).run s = _
  rw [StateT.run_bind]
  rcases hx : x.run.run s with ⟨r, s'⟩
  cases r <;> rfl

theorem change_get_run (s : σ) : (get : ExceptT ε (StateM σ) σ).run.run s = (.ok s, s) := rfl

theorem change_bind_eq_ok {x : ExceptT ε (StateM σ) α} {f : α → ExceptT ε (StateM σ) β}
    {s s'' : σ} {b : β} : (x >>= f).run.run s = (.ok b, s'') ↔
      ∃ a s', x.run.run s = (.ok a, s') ∧ (f a).run.run s' = (.ok b, s'') := by
  rw [change_bind_run]
  rcases hx : x.run.run s with ⟨r, s'⟩
  cases r with
  | ok a =>
      constructor
      · intro h
        exact ⟨a, s', rfl, h⟩
      · rintro ⟨_, _, heq, h⟩
        cases heq
        exact h
  | error e =>
      constructor
      · intro h
        cases h
      · rintro ⟨_, _, heq, _⟩
        cases heq

theorem change_bind_eq_error {x : ExceptT ε (StateM σ) α} {f : α → ExceptT ε (StateM σ) β}
    {s s'' : σ} {e : ε} (h : (x >>= f).run.run s = (.error e, s'')) :
    x.run.run s = (.error e, s'') ∨
      ∃ a s', x.run.run s = (.ok a, s') ∧ (f a).run.run s' = (.error e, s'') := by
  rw [change_bind_run] at h
  rcases hx : x.run.run s with ⟨r, s'⟩
  rw [hx] at h
  cases r with
  | ok a => exact Or.inr ⟨a, s', rfl, h⟩
  | error e' =>
      cases h
      exact Or.inl rfl

theorem change_pure_eq_ok {a b : α} {s s' : σ} :
    (pure a : ExceptT ε (StateM σ) α).run.run s = (.ok b, s') ↔ a = b ∧ s = s' := by
  change ((Except.ok a, s) : Except ε α × σ) = _ ↔ _
  simp

theorem change_get_eq_ok {s s' t : σ} :
    (get : ExceptT ε (StateM σ) σ).run.run s = (.ok t, s') ↔ s = t ∧ s = s' := by
  change ((Except.ok s, s) : Except ε σ × σ) = _ ↔ _
  simp

theorem change_set_eq_ok {s s' t : σ} {u : Unit} :
    (set t : ExceptT ε (StateM σ) Unit).run.run s = (.ok u, s') ↔ t = s' := by
  change ((Except.ok (), t) : Except ε Unit × σ) = _ ↔ _
  simp

theorem change_result_eq_ok {x : Except ε α} {s s' : σ} {a : α} :
    (ExceptT.mk (pure x) : ExceptT ε (StateM σ) α).run.run s = (.ok a, s') ↔
      x = .ok a ∧ s = s' := by
  change ((x, s) : Except ε α × σ) = _ ↔ _
  simp

theorem change_adapt_eq_ok {ε' : Type} {f : ε → ε'} {x : ExceptT ε (StateM σ) α} {s s' : σ}
    {a : α} : (ExceptT.adapt f x).run.run s = (.ok a, s') ↔ x.run.run s = (.ok a, s') := by
  change ((x.run.run s).1.mapError f, (x.run.run s).2) = _ ↔ _
  rcases x.run.run s with ⟨r, t⟩
  cases r with
  | error e => exact ⟨nofun, nofun⟩
  | ok b =>
      constructor
      · intro h
        cases h
        rfl
      · intro h
        cases h
        rfl

theorem change_forM_invariant {P : σ → Prop} {f : α → ExceptT ε (StateM σ) Unit} {l : List α}
    {s s' : σ} {u : Unit} (h : (l.forM f).run.run s = (.ok u, s')) (hstart : P s)
    (hstep : ∀ a ∈ l, ∀ t t', P t → (f a).run.run t = (.ok (), t') → P t') : P s' := by
  induction l generalizing s with
  | nil =>
      cases h
      exact hstart
  | cons a l ih =>
      obtain ⟨_, t, ht, hrest⟩ := change_bind_eq_ok.1 h
      exact ih hrest (hstep a (by simp) s t hstart ht) fun b hb => hstep b (by simp [hb])

theorem change_forM_ran {P : σ → Prop} {f : α → ExceptT ε (StateM σ) Unit} {l : List α}
    {s s' : σ} {u : Unit} (h : (l.forM f).run.run s = (.ok u, s')) (hstart : P s)
    (hstep : ∀ a ∈ l, ∀ t t', P t → (f a).run.run t = (.ok (), t') → P t') :
    ∀ a ∈ l, ∃ t t', P t ∧ (f a).run.run t = (.ok (), t') := by
  induction l generalizing s with
  | nil => simp
  | cons a l ih =>
      obtain ⟨_, t, ht, hrest⟩ := change_bind_eq_ok.1 h
      rw [List.forall_mem_cons]
      exact ⟨⟨s, t, hstart, ht⟩, ih hrest (hstep a (by simp) s t hstart ht)
        fun b hb => hstep b (by simp [hb])⟩

theorem change_forM_fixed {f : α → ExceptT ε (StateM σ) Unit} {l : List α} {s : σ}
    (h : ∀ a ∈ l, (f a).run.run s = (.ok (), s)) : (l.forM f).run.run s = (.ok (), s) := by
  induction l with
  | nil => rfl
  | cons a l ih =>
      rw [List.forall_mem_cons] at h
      exact change_bind_eq_ok.2 ⟨(), s, h.1, ih h.2⟩

theorem change_forM_eq_error {f : α → ExceptT ε (StateM σ) Unit} {l : List α} {s s' : σ} {e : ε}
    (h : (l.forM f).run.run s = (.error e, s')) :
    ∃ a ∈ l, ∃ t t', (f a).run.run t = (.error e, t') := by
  induction l generalizing s with
  | nil => cases h
  | cons a l ih =>
      rcases change_bind_eq_error h with hfirst | ⟨_, t, _, hrest⟩
      · exact ⟨a, by simp, s, s', hfirst⟩
      · obtain ⟨b, hb, hfails⟩ := ih hrest
        exact ⟨b, List.mem_cons_of_mem a hb, hfails⟩

theorem change_foldlM_ok {motive : List α → β → σ → Prop}
    {f : β → α → ExceptT ε (StateM σ) β} {l : List α} {b : β} {s : σ} (hstart : motive [] b s)
    (hstep : ∀ before a after, l = before ++ a :: after → ∀ c t, motive before c t →
      ∃ c' t', (f c a).run.run t = (.ok c', t') ∧ motive (before ++ [a]) c' t') :
    ∃ b' s', (l.foldlM f b).run.run s = (.ok b', s') ∧ motive l b' s' := by
  suffices hgen : ∀ before after, l = before ++ after → ∀ c t, motive before c t →
      ∃ b' s', (after.foldlM f c).run.run t = (.ok b', s') ∧ motive l b' s' from
    hgen [] l rfl b s hstart
  intro before after hl
  induction after generalizing before with
  | nil =>
      intro c t hc
      rw [hl, List.append_nil]
      exact ⟨c, t, rfl, hc⟩
  | cons a after ih =>
      intro c t hc
      obtain ⟨c', t', hrun, hc'⟩ := hstep before a after hl c t hc
      obtain ⟨b', s', hrest, hb'⟩ := ih (before ++ [a]) (by simp [hl]) c' t' hc'
      rw [List.foldlM_cons]
      exact ⟨b', s', change_bind_eq_ok.2 ⟨c', t', hrun, hrest⟩, hb'⟩

/-! ## Failures -/

def FailsOnly (P : Cause → Prop) (x : Outcome α) : Prop := ∀ f, x = .error f → P f.cause

variable {P Q : Cause → Prop}

theorem FailsOnly.ok (a : α) : FailsOnly P (.ok a) := by
  intro f h
  cases h

theorem FailsOnly.pure (a : α) : FailsOnly P (pure a) := FailsOnly.ok a

theorem FailsOnly.of_eq_ok {x : Outcome α} {a : α} (h : x = .ok a) : FailsOnly P x :=
  h ▸ FailsOnly.ok a

theorem FailsOnly.error {f : Failure} (h : P f.cause) : FailsOnly P (.error f : Outcome α) := by
  intro f' h'
  cases h'
  exact h

theorem FailsOnly.mono {x : Outcome α} (h : FailsOnly P x) (hPQ : ∀ c, P c → Q c) :
    FailsOnly Q x :=
  fun f hf => hPQ _ (h f hf)

theorem FailsOnly.bind {x : Outcome α} {f : α → Outcome β} (hx : FailsOnly P x)
    (hf : ∀ a, x = .ok a → FailsOnly P (f a)) : FailsOnly P (x >>= f) := by
  cases x with
  | error e =>
      intro e' he'
      cases he'
      exact hx e rfl
  | ok a => exact hf a rfl

theorem FailsOnly.during {activity : Activity} {x : Outcome α} (h : FailsOnly P x) :
    FailsOnly P (during activity x) := by
  cases x with
  | error e =>
      intro e' he'
      cases he'
      exact h e rfl
  | ok a => exact FailsOnly.ok a

theorem FailsOnly.lift {cause : ε → Cause} {x : Except ε α} (h : ∀ e, x = .error e → P (cause e)) :
    FailsOnly P (Outcome.lift cause x) := by
  cases x with
  | error e => exact FailsOnly.error (h e rfl)
  | ok a => exact FailsOnly.ok a

theorem FailsOnly.mapM {f : α → Outcome β} {l : List α} (h : ∀ a ∈ l, FailsOnly P (f a)) :
    FailsOnly P (l.mapM f) := by
  induction l with
  | nil => exact FailsOnly.ok []
  | cons a l ih =>
      rw [List.mapM_cons]
      obtain ⟨ha, hl⟩ := List.forall_mem_cons.1 h
      exact ha.bind fun b _ => (ih hl).bind fun bs _ => FailsOnly.ok _

theorem FailsOnly.foldlM {motive : List α → β → Prop} {f : β → α → Outcome β} {l : List α}
    {b : β} (hstart : motive [] b)
    (hstep : ∀ before a after, l = before ++ a :: after → ∀ c, motive before c →
      FailsOnly P (f c a) ∧ ∀ c', f c a = .ok c' → motive (before ++ [a]) c') :
    FailsOnly P (l.foldlM f b) := by
  suffices hgen : ∀ before after, l = before ++ after → ∀ c, motive before c →
      FailsOnly P (after.foldlM f c) from hgen [] l rfl b hstart
  intro before after hl
  induction after generalizing before with
  | nil =>
      intro c _
      exact FailsOnly.ok c
  | cons a after ih =>
      intro c hc
      obtain ⟨hfails, hkeeps⟩ := hstep before a after hl c hc
      rw [List.foldlM_cons]
      exact hfails.bind fun c' hc' => ih (before ++ [a]) (by simp [hl]) c' (hkeeps c' hc')

theorem exists_ok_of_failsOnly {x : Outcome α} (h : FailsOnly (fun _ => False) x) :
    ∃ a, x = .ok a := by
  cases x with
  | error e => exact absurd rfl fun hx => h e hx
  | ok a => exact ⟨a, rfl⟩

end MulticastMesh.Outcome
