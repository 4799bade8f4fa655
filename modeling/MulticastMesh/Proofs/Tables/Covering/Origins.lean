import MulticastMesh.Proofs.Keys.Patterns
import MulticastMesh.Tables.OrderedCovering
/-!
# Initial patterns

Bookkeeping of a merge: the initial patterns of its members become those of the join, and a
pattern whose list was taken away stands for itself again.
-/

namespace MulticastMesh.Tables.OrderedCovering.Origins

open Keys (Pattern)

variable {o : Origins} {p q x : Pattern}

/-- No pattern has an empty list of initial patterns. -/
def Filled (o : Origins) : Prop := ∀ p l, o.of? p = some l → l ≠ []

theorem of_eq_of_some {l : List Pattern} (ho : o.Filled) (h : o.of? p = some l) :
    o.of p = l := by
  unfold Origins.of
  rw [h]
  cases l with
  | nil => exact absurd rfl (ho p [] h)
  | cons _ _ => rfl

theorem of_eq_of_none (h : o.of? p = none) : o.of p = [p] := by
  unfold Origins.of
  rw [h]

theorem of_ne_nil (ho : o.Filled) : o.of p ≠ [] := by
  cases h : o.of? p with
  | none => simp [of_eq_of_none h]
  | some l =>
      rw [of_eq_of_some ho h]
      exact ho p l h

theorem of_congr {o' : Origins} (h : o'.of? p = o.of? p) : o'.of p = o.of p := by
  unfold Origins.of
  rw [h]

private theorem lookup_filter_ne (o : Origins) :
    (o.filter fun item => item.1 != p).lookup q = if q = p then none else o.lookup q := by
  induction o with
  | nil => simp
  | cons item o ih =>
      obtain ⟨r, l⟩ := item
      by_cases hr : r = p
      · subst hr
        simp only [List.filter_cons, bne_self_eq_false, Bool.false_eq_true, if_false, ih,
          List.lookup_cons]
        by_cases hq : q = r
        · simp [hq]
        · have hbeq : (q == r) = false := by simpa using hq
          simp [hq, hbeq]
      · simp only [List.filter_cons, bne_iff_ne, ne_eq, hr, not_false_eq_true, if_true,
          List.lookup_cons, ih]
        by_cases hq : q = r
        · subst hq
          simp [hr]
        · have hbeq : (q == r) = false := by simpa using hq
          simp [hbeq]

theorem of?_take : (o.take p).2.of? q = if q = p then none else o.of? q := by
  unfold take
  cases h : o.of? p with
  | none =>
      by_cases hq : q = p
      · subst hq
        simp [h]
      · simp [hq]
  | some l => exact lookup_filter_ne o

theorem take_fst (ho : o.Filled) : (o.take p).1 = o.of p := by
  unfold take
  cases h : o.of? p with
  | none => exact (of_eq_of_none h).symm
  | some l => exact (of_eq_of_some ho h).symm

theorem Filled.take (ho : o.Filled) : (o.take p).2.Filled := by
  intro q l h
  rw [of?_take] at h
  split at h
  · cases h
  · exact ho q l h

theorem of?_takeAll {ps : List Pattern} :
    (takeAll o ps).2.of? q = if q ∈ ps then none else o.of? q := by
  induction ps generalizing o with
  | nil => simp [takeAll]
  | cons p ps ih =>
      have hstep : (takeAll o (p :: ps)).2 = (takeAll (o.take p).2 ps).2 := rfl
      rw [hstep, ih, of?_take]
      by_cases hq : q ∈ ps <;> by_cases hp : q = p <;> simp [hq, hp]

theorem Filled.takeAll (ho : o.Filled) {ps : List Pattern} : (takeAll o ps).2.Filled := by
  intro q l h
  rw [of?_takeAll] at h
  split at h
  · cases h
  · exact ho q l h

theorem mem_takeAll (ho : o.Filled) {ps : List Pattern} (hp : p ∈ ps) (hx : x ∈ o.of p) :
    x ∈ (takeAll o ps).1 := by
  induction ps generalizing o with
  | nil => cases hp
  | cons r ps ih =>
      have hstep : (Origins.takeAll o (r :: ps)).1 =
          (o.take r).1 ++ (Origins.takeAll (o.take r).2 ps).1 := rfl
      rw [hstep, List.mem_append]
      by_cases hpr : p = r
      · left
        rw [take_fst ho, ← hpr]
        exact hx
      · right
        apply ih ho.take (by simpa [hpr] using hp)
        have hsame : (o.take r).2.of p = o.of p :=
          of_congr (by rw [of?_take, if_neg hpr])
        rw [hsame]
        exact hx

theorem takeAll_ne_nil (ho : o.Filled) {ps : List Pattern} (hne : ps ≠ []) :
    (takeAll o ps).1 ≠ [] := by
  obtain ⟨p, hp⟩ := List.exists_mem_of_ne_nil _ hne
  obtain ⟨x, hx⟩ := List.exists_mem_of_ne_nil _ (of_ne_nil ho (p := p))
  exact List.ne_nil_of_mem (mem_takeAll ho hp hx)

theorem of?_put {l : List Pattern} : (o.put p l).of? q =
    if q = p then some ((o.of? p).getD [] ++ l) else o.of? q := by
  unfold put of?
  rw [List.lookup_cons]
  by_cases hq : q = p
  · simp [hq]
  · have hbeq : (q == p) = false := by simpa using hq
    rw [hbeq, if_neg hq]
    exact (lookup_filter_ne o).trans (if_neg hq)

theorem Filled.put (ho : o.Filled) {l : List Pattern} (hl : l ≠ []) :
    (o.put p l).Filled := by
  intro q l' h
  rw [of?_put] at h
  split at h
  · cases h
    simp [hl]
  · exact ho q l' h

theorem of_put_self (ho : o.Filled) {l : List Pattern} (hl : l ≠ []) :
    (o.put p l).of p = (o.of? p).getD [] ++ l :=
  of_eq_of_some (ho.put hl) (by rw [of?_put, if_pos rfl])

theorem of_put_of_ne {l : List Pattern} (hq : q ≠ p) : (o.put p l).of q = o.of q :=
  of_congr (by rw [of?_put, if_neg hq])

end MulticastMesh.Tables.OrderedCovering.Origins
