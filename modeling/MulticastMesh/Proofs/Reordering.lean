import MulticastMesh.Proofs.Outcomes
/-!
# Runs in another order

Steps commute if one after the other they succeed in both orders or in none, and lead to states
that are alike.  A run of steps that commute succeeds in any order or in none.  Which states are
alike is a relation that need not be reflexive: a state that is not alike itself is one that no
run comes to.
-/

namespace MulticastMesh.Outcome

variable {ε α β : Type} {R : β → β → Prop} {f : β → α → Except ε β} {l l' : List α}
  {s s' t : β}

/-- From states that are alike a step leads to states that are alike. -/
def Respects (R : β → β → Prop) (step : β → Except ε β) : Prop :=
  ∀ s t s', R s t → step s = .ok s' → ∃ t', step t = .ok t' ∧ R s' t'

/-- Two steps can also be taken the other way round. -/
def Swaps (R : β → β → Prop) (first second : β → Except ε β) : Prop :=
  ∀ s s', R s s → first s >>= second = .ok s' → ∃ t', second s >>= first = .ok t' ∧ R s' t'

theorem Respects.bind {first second : β → Except ε β} (h : Respects R first)
    (h' : Respects R second) : Respects R fun s => first s >>= second := by
  intro s t s' hst hrun
  obtain ⟨u, hu, hrun⟩ := bind_eq_ok.1 hrun
  obtain ⟨u', hu', huu'⟩ := h s t u hst hu
  obtain ⟨t', ht', hst'⟩ := h' u u' s' huu' hrun
  exact ⟨t', bind_eq_ok.2 ⟨u', hu', ht'⟩, hst'⟩

theorem Respects.swaps_self {step : β → Except ε β} (h : Respects R step) : Swaps R step step :=
  fun s s' hs hrun => h.bind h s s s' hs hrun

theorem respects_foldlM (h : ∀ a ∈ l, Respects R fun s => f s a) :
    Respects R fun s => l.foldlM f s := by
  induction l with
  | nil =>
      intro s t s' hst hrun
      cases pure_eq_ok.1 hrun
      exact ⟨t, rfl, hst⟩
  | cons a l ih =>
      obtain ⟨ha, hl⟩ := List.forall_mem_cons.1 h
      simp only [List.foldlM_cons]
      exact ha.bind (ih hl)

structure Commuting (R : β → β → Prop) (f : β → α → Except ε β) (l : List α) : Prop where
  respects : ∀ a ∈ l, Respects R fun s => f s a
  swaps : ∀ a ∈ l, ∀ b ∈ l, Swaps R (fun s => f s a) fun s => f s b

theorem Commuting.subset (h : Commuting R f l) (hsub : ∀ a ∈ l', a ∈ l) : Commuting R f l' where
  respects := fun a ha => h.respects a (hsub a ha)
  swaps := fun a ha b hb => h.swaps a (hsub a ha) b (hsub b hb)

theorem Commuting.foldlM_perm (hf : Commuting R f l) (hsymm : ∀ s t, R s t → R t s)
    (htrans : ∀ s t u, R s t → R t u → R s u) (hperm : l.Perm l') (hst : R s t)
    (h : l.foldlM f s = .ok s') : ∃ t', l'.foldlM f t = .ok t' ∧ R s' t' := by
  induction hperm generalizing s t s' with
  | nil => exact respects_foldlM hf.respects s t s' hst h
  | @cons a l l' _ ih =>
      rw [List.foldlM_cons] at h
      obtain ⟨u, hu, hrest⟩ := bind_eq_ok.1 h
      obtain ⟨u', hu', huu'⟩ := hf.respects a (by simp) s t u hst hu
      obtain ⟨t', ht', hst'⟩ := ih (hf.subset fun b hb => List.mem_cons_of_mem a hb) huu' hrest
      rw [List.foldlM_cons]
      exact ⟨t', bind_eq_ok.2 ⟨u', hu', ht'⟩, hst'⟩
  | swap a b l =>
      simp only [List.foldlM_cons, ← bind_assoc] at h ⊢
      obtain ⟨u, hu, hrest⟩ := bind_eq_ok.1 h
      have hs : R s s := htrans s t s hst (hsymm s t hst)
      have hrespects := (hf.respects a (by simp)).bind (hf.respects b (by simp))
      obtain ⟨v, hv, huv⟩ := hf.swaps b (by simp) a (by simp) s u hs hu
      obtain ⟨v', hv', hvv'⟩ := hrespects s t v hst hv
      obtain ⟨t', ht', hst'⟩ := respects_foldlM (fun c hc => hf.respects c (by simp [hc])) u v' s'
        (htrans u v v' huv hvv') hrest
      exact ⟨t', bind_eq_ok.2 ⟨v', hv', ht'⟩, hst'⟩
  | @trans l₁ l₂ l₃ hfirst _ ihfirst ihsecond =>
      have hs : R s s := htrans s t s hst (hsymm s t hst)
      obtain ⟨u, hu, hsu⟩ := ihfirst hf hs h
      obtain ⟨t', ht', hut'⟩ := ihsecond (hf.subset fun a ha => hfirst.mem_iff.2 ha) hst hu
      exact ⟨t', ht', htrans s' u t' hsu hut'⟩

/-- Steps that keep an invariant and can be swapped wherever it holds lead to the same state in
any order. -/
theorem foldlM_perm_eq_ok {P : β → Prop} (hperm : l.Perm l') (hs : P s)
    (hkeep : ∀ a ∈ l, ∀ s s', P s → f s a = .ok s' → P s')
    (hswap : ∀ a ∈ l, ∀ b ∈ l, a ≠ b → ∀ s s', P s →
      (f s a >>= fun u => f u b) = .ok s' → (f s b >>= fun u => f u a) = .ok s') :
    l.foldlM f s = .ok s' ↔ l'.foldlM f s = .ok s' := by
  -- states are alike if they are the same one, and the invariant holds
  have hsymm : ∀ s t, s = t ∧ P s → t = s ∧ P t := by
    rintro s _ ⟨rfl, hs⟩
    exact ⟨rfl, hs⟩
  have htrans : ∀ s t u, s = t ∧ P s → t = u ∧ P t → s = u ∧ P s := by
    rintro s _ _ ⟨rfl, hs⟩ ⟨rfl, _⟩
    exact ⟨rfl, hs⟩
  have hrespects : ∀ a ∈ l, Respects (fun s t => s = t ∧ P s) fun s => f s a := by
    rintro a ha s _ s' ⟨rfl, hs⟩ hrun
    exact ⟨s', hrun, rfl, hkeep a ha s s' hs hrun⟩
  have hf : Commuting (fun s t => s = t ∧ P s) f l := by
    refine ⟨hrespects, fun a ha b hb => ?_⟩
    by_cases hab : a = b
    · subst hab
      exact (hrespects a ha).swaps_self
    · intro s s' hs hrun
      obtain ⟨_, _, _, hs'⟩ := (hrespects a ha).bind (hrespects b hb) s s s' hs hrun
      exact ⟨s', hswap a ha b hb hab s s' hs.2 hrun, rfl, hs'⟩
  constructor
  · intro h
    obtain ⟨t', ht', rfl, _⟩ := hf.foldlM_perm hsymm htrans hperm ⟨rfl, hs⟩ h
    exact ht'
  · intro h
    obtain ⟨t', ht', rfl, _⟩ := (hf.subset fun a ha => hperm.mem_iff.2 ha).foldlM_perm hsymm htrans
      hperm.symm ⟨rfl, hs⟩ h
    exact ht'

theorem foldlM_congr_ok {α' : Type} {f' : β → α' → Except ε β} {l' : List α'}
    (h : List.Forall₂ (fun a a' => ∀ s s', f s a = .ok s' ↔ f' s a' = .ok s') l l') :
    l.foldlM f s = .ok s' ↔ l'.foldlM f' s = .ok s' := by
  induction h generalizing s with
  | nil => rfl
  | cons ha _ ih => simp only [List.foldlM_cons, bind_eq_ok, ha, ih]

/-! ## Changes in another order -/

variable {σ : Type} {x y : ExceptT ε (StateM σ) Unit} {change : α → ExceptT ε (StateM σ) Unit}

def changed (x : ExceptT ε (StateM σ) Unit) (s : σ) : Except ε σ :=
  match x.run.run s with
  | (.ok _, s') => .ok s'
  | (.error e, _) => .error e

theorem changed_eq_ok {s s' : σ} : changed x s = .ok s' ↔ x.run.run s = (.ok (), s') := by
  unfold changed
  rcases hx : x.run.run s with ⟨r, t⟩
  cases r with
  | ok u =>
      constructor
      · rintro ⟨⟩
        rfl
      · rintro ⟨⟩
        rfl
  | error e => exact ⟨nofun, nofun⟩

theorem change_forM_eq_ok {s s' : σ} : (l.forM change).run.run s = (.ok (), s') ↔
    l.foldlM (fun s a => changed (change a) s) s = .ok s' := by
  induction l generalizing s with
  | nil => exact change_pure_eq_ok.trans (by simp [pure, Except.pure])
  | cons a l ih =>
      rw [List.foldlM_cons, bind_eq_ok]
      refine change_bind_eq_ok.trans ?_
      simp only [changed_eq_ok, ih]
      exact ⟨fun ⟨_, h⟩ => h, fun h => ⟨(), h⟩⟩

theorem change_forM_swap (hswap : ∀ a b, a ≠ b → ∀ s s' : σ,
      (changed (change a) s >>= fun u => changed (change b) u) = .ok s' →
      (changed (change b) s >>= fun u => changed (change a) u) = .ok s') {s t s' : σ}
    (hfirst : (l.forM change).run.run s = (.ok (), t))
    (hsecond : (l'.forM change).run.run t = (.ok (), s')) :
    ∃ t', (l'.forM change).run.run s = (.ok (), t') ∧
      (l.forM change).run.run t' = (.ok (), s') := by
  simp only [change_forM_eq_ok] at hfirst hsecond ⊢
  have hboth : (l ++ l').foldlM (fun s a => changed (change a) s) s = .ok s' := by
    rw [List.foldlM_append]
    exact bind_eq_ok.2 ⟨t, hfirst, hsecond⟩
  rw [foldlM_perm_eq_ok List.perm_append_comm (P := fun _ => True) trivial
    (fun _ _ _ _ _ _ => trivial) (fun a _ b _ hab u u' _ => hswap a b hab u u'),
    List.foldlM_append] at hboth
  exact bind_eq_ok.1 hboth

end MulticastMesh.Outcome
