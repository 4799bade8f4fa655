import Mathlib.Data.List.Perm.Basic
import Mathlib.Order.Nat
import MulticastMesh.Proofs.Keys.Patterns
/-!
# Joins in any order

Joining is commutative and associative, also for patterns that ask for a bit which their mask
leaves free.  The join of several patterns therefore depends neither on their order nor on how
they are grouped.  A pattern that has grown by joining has a key in common with whatever it had
one with before.  Among all patterns with the keys of two others their join is the narrowest.
-/

namespace MulticastMesh.Keys.Pattern

variable {p p' q q' r : Pattern} {l l' : List Pattern}

theorem ext_getLsbD (hmask : ∀ i < 32, p.mask.getLsbD i = q.mask.getLsbD i)
    (hkey : ∀ i < 32, p.key.getLsbD i = q.key.getLsbD i) : p = q := by
  cases p
  cases q
  rw [mk.injEq]
  exact ⟨BitVec.eq_of_getLsbD_eq hkey, BitVec.eq_of_getLsbD_eq hmask⟩

/-- Where one of three patterns leaves a bit free or two of them differ, both ways of joining them
leave the bit free. -/
theorem join_assoc : (p.join q).join r = p.join (q.join r) := by
  apply ext_getLsbD
  · intro i hi
    simp only [getLsbD_mask_join hi, getLsbD_key_join hi]
    cases p.mask.getLsbD i <;> cases q.mask.getLsbD i <;> cases r.mask.getLsbD i <;> simp
    cases p.key.getLsbD i <;> cases q.key.getLsbD i <;> cases r.key.getLsbD i <;> rfl
  · intro i hi
    simp only [getLsbD_mask_join hi, getLsbD_key_join hi]
    cases p.mask.getLsbD i <;> cases q.mask.getLsbD i <;> cases r.mask.getLsbD i <;> simp
    cases p.key.getLsbD i <;> cases q.key.getLsbD i <;> cases r.key.getLsbD i <;> rfl

instance : Std.Commutative join := ⟨fun _ _ => join_comm⟩

instance : Std.Associative join := ⟨fun _ _ _ => join_assoc⟩

/-! ## Joins of several patterns -/

theorem joinAll_cons (h : l ≠ []) : joinAll (p :: l) = p.join (joinAll l) := by
  cases l with
  | nil => exact absurd rfl h
  | cons q l =>
      show l.foldl join (p.join q) = p.join (l.foldl join q)
      exact List.foldl_assoc

theorem joinAll_append (h : l ≠ []) (h' : l' ≠ []) :
    joinAll (l ++ l') = (joinAll l).join (joinAll l') := by
  induction l with
  | nil => exact absurd rfl h
  | cons p l ih =>
      cases l with
      | nil => exact joinAll_cons h'
      | cons q l =>
          have hrest : q :: l ≠ [] := List.cons_ne_nil q l
          have hboth : q :: l ++ l' ≠ [] := List.cons_ne_nil q (l ++ l')
          rw [List.cons_append, joinAll_cons hboth, ih hrest, joinAll_cons hrest, join_assoc]

theorem joinAll_perm (h : l.Perm l') : joinAll l = joinAll l' := by
  induction h with
  | nil => rfl
  | cons p h => exact h.foldl_op_eq
  | swap p q l =>
      show l.foldl join (q.join p) = l.foldl join (p.join q)
      rw [join_comm]
  | trans _ _ ih ih' => exact ih.trans ih'

theorem joinAll_flatten {groups : List (List Pattern)} (h : ∀ group ∈ groups, group ≠ []) :
    joinAll groups.flatten = joinAll (groups.map joinAll) := by
  induction groups with
  | nil => rfl
  | cons group groups ih =>
      obtain ⟨hgroup, hgroups⟩ := List.forall_mem_cons.1 h
      cases groups with
      | nil => simp [joinAll]
      | cons next groups =>
          have hflat : (next :: groups).flatten ≠ [] := by simp [hgroups next (by simp)]
          have hjoins : (next :: groups).map joinAll ≠ [] := by simp
          rw [List.flatten_cons, joinAll_append hgroup hflat, ih hgroups]
          exact (joinAll_cons hjoins).symm

/-! ## Growth -/

/-- A pattern has been joined with others, or stayed as it was. -/
def GrowsTo (p q : Pattern) : Prop := p = q ∨ p.coveredBy q = true

theorem GrowsTo.refl : p.GrowsTo p := Or.inl rfl

theorem GrowsTo.trans (h : p.GrowsTo q) (h' : q.GrowsTo r) : p.GrowsTo r := by
  rcases h with rfl | h
  · exact h'
  · rcases h' with rfl | h'
    · exact Or.inr h
    · exact Or.inr (coveredBy_trans h h')

theorem growsTo_join_left : p.GrowsTo (p.join q) := Or.inr coveredBy_join_left

theorem growsTo_join_right : q.GrowsTo (p.join q) := Or.inr coveredBy_join_right

theorem GrowsTo.coveredBy_join (h : p.GrowsTo p') : p.coveredBy (p'.join q) = true := by
  rcases h with rfl | h
  · exact coveredBy_join_left
  · exact coveredBy_trans h coveredBy_join_left

theorem GrowsTo.join (h : p.GrowsTo p') (h' : q.GrowsTo q') :
    (p.join q).GrowsTo (p'.join q') := by
  refine Or.inr (join_coveredBy h.coveredBy_join ?_)
  rw [join_comm]
  exact h'.coveredBy_join

theorem growsTo_foldl_join : p.GrowsTo (l.foldl join p) := by
  induction l generalizing p with
  | nil => exact .refl
  | cons q l ih => exact growsTo_join_left.trans ih

theorem growsTo_joinAll (h : p ∈ l) : p.GrowsTo (joinAll l) := by
  induction l with
  | nil => cases h
  | cons q l ih =>
      rcases List.mem_cons.1 h with rfl | h
      · exact growsTo_foldl_join
      · rw [joinAll_cons (List.ne_nil_of_mem h)]
        exact (ih h).trans growsTo_join_right

theorem generality_le_joinAll (h : p ∈ l) : p.generality ≤ (joinAll l).generality := by
  rcases growsTo_joinAll h with heq | hcovered
  · rw [← heq]
  · exact generality_le_of_coveredBy hcovered

theorem intersects_comm : p.intersects q = q.intersects p := by
  unfold intersects
  exact BEq.comm

theorem GrowsTo.intersects (h : p.GrowsTo p') (hi : p.intersects q = true) :
    p'.intersects q = true := by
  rcases h with rfl | h
  · exact hi
  · obtain ⟨hmask, hkey⟩ := coveredBy_eq_true.1 h
    unfold Pattern.intersects at hi ⊢
    rw [beq_iff_eq] at hi ⊢
    apply BitVec.eq_of_getLsbD_eq
    intro i hlt
    have hbit := congrArg (fun w : Key => w.getLsbD i) hi
    have h1 := hmask i hlt
    have h2 := hkey i hlt
    simp only [BitVec.getLsbD_and] at hbit ⊢
    grind

theorem intersects_of_growsTo (h : p.GrowsTo p') (h' : q.GrowsTo q')
    (hi : p.intersects q = true) : p'.intersects q' = true := by
  rw [intersects_comm]
  apply h'.intersects
  rw [intersects_comm]
  exact h.intersects hi

/-! ## The narrowest cover -/

/-- Whether all keys of a proper pattern are in another can be read off keys and masks. -/
theorem within_iff_coveredBy (hp : p.Proper) : p.Within q ↔ p.coveredBy q = true := by
  constructor
  · intro hwithin
    have hkey : q.Matches p.key := hwithin p.key hp.matches_key
    rw [coveredBy_eq_true]
    refine ⟨fun i hi hfixed => ?_, matches_iff.1 hkey⟩
    -- Were the bit free in `p`, both of its values would occur among the keys of `q`.
    by_contra hfree
    have hunset : p.key.getLsbD i = false := by
      have hbit := proper_iff.1 hp i hi
      cases h : p.key.getLsbD i <;> simp_all
    have hother : p.Matches (p.key ||| bit i) := by
      rw [matches_iff]
      intro j hj
      have hbit := matches_iff.1 hp.matches_key j hj
      rw [BitVec.getLsbD_or, getLsbD_bit hi]
      by_cases hji : j = i
      · subst hji
        simp_all
      · simpa [hji] using hbit
    have hset := matches_iff.1 (hwithin _ hother) i hi
    have hclear := matches_iff.1 hkey i hi
    rw [BitVec.getLsbD_or, getLsbD_bit hi] at hset
    simp_all
  · intro hcovered k
    exact Matches.of_coveredBy hcovered

theorem Proper.eq_of_within (hp : p.Proper) (hq : q.Proper) (hpq : p.Within q)
    (hqp : q.Within p) : p = q := by
  rw [within_iff_coveredBy hp] at hpq
  rw [within_iff_coveredBy hq] at hqp
  exact eq_of_coveredBy hp hpq (generality_le_of_coveredBy hqp)

/-- The narrowest proper pattern with all keys of two others. -/
structure NarrowestCover (p q r : Pattern) : Prop where
  proper : r.Proper
  left : p.Within r
  right : q.Within r
  least : ∀ s : Pattern, p.Within s → q.Within s → r.Within s

theorem NarrowestCover.eq {s : Pattern} (hr : NarrowestCover p q r)
    (hs : NarrowestCover p q s) : r = s :=
  hr.proper.eq_of_within hs.proper (hr.least s hs.left hs.right) (hs.least r hr.left hr.right)

theorem narrowestCover_join (hp : p.Proper) (hq : q.Proper) :
    NarrowestCover p q (p.join q) where
  proper := proper_join
  left := fun _ => Matches.of_coveredBy coveredBy_join_left
  right := fun _ => Matches.of_coveredBy coveredBy_join_right
  least s hps hqs := by
    rw [within_iff_coveredBy hp] at hps
    rw [within_iff_coveredBy hq] at hqs
    exact fun _ => Matches.of_coveredBy (join_coveredBy hps hqs)

/-- On proper patterns the join is the least upper bound: it is the narrowest cover of its two
patterns and the only one, and joining is commutative, associative and idempotent. -/
theorem join_leastUpperBound (hp : p.Proper) (hq : q.Proper) :
    NarrowestCover p q (p.join q) ∧ (∀ s, NarrowestCover p q s → s = p.join q) ∧
      p.join q = q.join p ∧ (p.join q).join r = p.join (q.join r) ∧ p.join p = p := by
  have hjoin := narrowestCover_join hp hq
  have hself : NarrowestCover p p p := ⟨hp, fun _ h => h, fun _ h => h, fun _ h _ => h⟩
  exact ⟨hjoin, fun s hs => hs.eq hjoin, join_comm, join_assoc,
    (narrowestCover_join hp hp).eq hself⟩

/-- Three patterns whose masks overlap in part.  Where two of them fix a bit to different values
or one leaves it free, their join leaves it free. -/
theorem join_leastUpperBound_overlapping :
    let p : Pattern := ⟨0x4, 0xFFFFFFFE⟩
    let q : Pattern := ⟨0x6, 0xFFFFFFF6⟩
    let r : Pattern := ⟨0x15, 0x1F⟩
    NarrowestCover p q ⟨0x4, 0xFFFFFFF4⟩ ∧ (p.join q).join r = ⟨0x4, 0x4⟩ ∧
      p.join (q.join r) = ⟨0x4, 0x4⟩ := by
  intro p q r
  obtain ⟨hcover, _, _, hassoc, _⟩ := join_leastUpperBound (p := p) (q := q) (r := r)
    (by decide) (by decide)
  have hjoin : p.join q = ⟨0x4, 0xFFFFFFF4⟩ := by decide
  have hall : (p.join q).join r = ⟨0x4, 0x4⟩ := by decide
  exact ⟨hjoin ▸ hcover, hall, hassoc ▸ hall⟩

end MulticastMesh.Keys.Pattern
