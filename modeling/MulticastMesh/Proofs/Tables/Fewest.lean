import MulticastMesh.Proofs.Tables.Merged
/-!
# As few entries as possible

Every entry for sibling slices stands for an aligned power of two of their indices.  No cover of
the same slices by such groups is shorter: no group that stays clear of the other slices has the
first indices of two entries, so every cover has a group of its own for each entry.
-/

namespace MulticastMesh.Tables

open Keys (VertexBlock bitsNeeded)

/-- Every point lies in a group, but no two points in the same one. -/
theorem length_le_of_separate {α β : Type} {r : β → α → Prop} {points : List α} {groups : List β}
    (hcover : ∀ p ∈ points, ∃ c ∈ groups, r c p)
    (hseparate : points.Pairwise fun p q => ∀ c ∈ groups, r c p → ¬ r c q) :
    points.length ≤ groups.length := by
  induction points generalizing groups with
  | nil => exact Nat.zero_le _
  | cons p points ih =>
      obtain ⟨⟨c, hc, hcp⟩, hrest⟩ := List.forall_mem_cons.1 hcover
      obtain ⟨hfirst, hpoints⟩ := List.pairwise_cons.1 hseparate
      obtain ⟨before, after, rfl⟩ := List.append_of_mem hc
      -- the other points do without the group of the first one
      have hle : points.length ≤ (before ++ after).length := by
        apply ih
        · intro q hq
          obtain ⟨d, hd, hdq⟩ := hrest q hq
          have hne : d ≠ c := by
            rintro rfl
            exact hfirst q hq d hc hcp hdq
          refine ⟨d, ?_, hdq⟩
          simpa [hne] using hd
        · refine hpoints.imp fun hpq d hd => hpq d ?_
          simp only [List.mem_append, List.mem_cons] at hd ⊢
          tauto
      simp only [List.length_append, List.length_cons] at hle ⊢
      omega

/-! ## Powers of two -/

theorem add_le_of_dvd {d a b : Nat} (ha : d ∣ a) (hb : d ∣ b) (hlt : a < b) : a + d ≤ b := by
  by_contra hgt
  have hle := Nat.le_of_lt_add_of_dvd (Nat.not_le.1 hgt) hb ha
  omega

/-- The greatest power of two that divides a number. -/
structure LowestPower (j n : Nat) : Prop where
  dvd : 2 ^ j ∣ n
  not_dvd : ¬ 2 ^ (j + 1) ∣ n

theorem lowestPower_spec {fuel n : Nat} (hpos : 0 < n) (hlt : n < 2 ^ fuel) :
    ∃ j, lowestPower fuel n = 2 ^ j ∧ LowestPower j n := by
  induction fuel generalizing n with
  | zero => omega
  | succ fuel ih =>
      unfold lowestPower
      split
      · next heven =>
          have hn : n = 2 * (n / 2) := by omega
          rw [Nat.pow_succ] at hlt
          obtain ⟨j, hj, hdvd, hnot⟩ := ih (n := n / 2) (by omega) (by omega)
          refine ⟨j + 1, by rw [hj, Nat.pow_succ, Nat.mul_comm], ?_, ?_⟩
          · rw [hn, Nat.pow_succ, Nat.mul_comm]
            exact Nat.mul_dvd_mul_left 2 hdvd
          · intro hodd
            rw [hn, Nat.pow_succ, Nat.mul_comm] at hodd
            exact hnot (Nat.dvd_of_mul_dvd_mul_left Nat.two_pos hodd)
      · next hodd => exact ⟨0, rfl, one_dvd n, by rw [Nat.zero_add, Nat.pow_one]; omega⟩

theorem LowestPower.lt_of_add {i j n : Nat} (h : LowestPower j n)
    (h' : LowestPower i (n + 2 ^ j)) : j < i := by
  by_contra hle
  apply h'.not_dvd
  refine dvd_trans (pow_dvd_pow 2 (by omega : i + 1 ≤ j + 1)) ?_
  obtain ⟨q, hq⟩ := h.dvd
  have hodd : q % 2 = 1 := by
    by_contra heven
    apply h.not_dvd
    rw [hq, Nat.pow_succ]
    exact Nat.mul_dvd_mul_left _ (by omega)
  have hnext : n + 2 ^ j = 2 ^ (j + 1) * ((q + 1) / 2) := by
    have hhalf : 2 * ((q + 1) / 2) = q + 1 := by omega
    rw [Nat.pow_succ, Nat.mul_assoc, hhalf, hq, Nat.mul_add, Nat.mul_one]
  rw [hnext]
  exact Nat.dvd_mul_right _ _

/-- The first index lies less than the lowest power of two of another one below it. -/
def RisesFrom (first n : Nat) : Prop := ∀ j, LowestPower j n → n < first + 2 ^ j

theorem risesFrom_self (n : Nat) : RisesFrom n n := fun j _ => by
  have := Nat.two_pow_pos j
  omega

theorem RisesFrom.add {first j n : Nat} (h : RisesFrom first n) (hlow : LowestPower j n) :
    RisesFrom first (n + 2 ^ j) := by
  intro i hi
  have hhere := h j hlow
  have hgrown : 2 ^ (j + 1) ≤ 2 ^ i := Nat.pow_le_pow_right (by omega) (hlow.lt_of_add hi)
  rw [Nat.pow_succ] at hgrown
  omega

/-- A shared pattern takes in a whole run that starts at zero, and otherwise the lowest power of
two of its first index. -/
theorem alignedRun_spec {index length bits : Nat} (hlength : length ≤ 2 ^ bits)
    (hindex : index < 2 ^ bits) (hword : index < 2 ^ 32) :
    ∃ j, alignedRun index length = 2 ^ j ∧ 2 ^ j ∣ index ∧ index + 2 ^ j ≤ 2 ^ bits ∧
      (index = 0 ∧ length ≤ 2 ^ j ∨ LowestPower j index) := by
  obtain ⟨j, hj, hdvd, hle⟩ := alignedRun_eq hlength hindex
  refine ⟨j, hj, hdvd, hle, ?_⟩
  unfold alignedRun at hj
  split at hj
  · next hzero =>
      refine Or.inl ⟨hzero, ?_⟩
      rw [← hj]
      exact Keys.le_two_pow_bitsNeeded length
  · next hpos =>
      obtain ⟨i, hi, hlow⟩ := lowestPower_spec (by omega) hword
      rw [hi] at hj
      cases Nat.pow_right_injective le_rfl hj
      exact Or.inr hlow

/-! ## Groups of indices -/

/-- An aligned power of two of indices. -/
structure IndexGroup where
  start : Nat
  bits : Nat
  deriving DecidableEq, Repr

namespace IndexGroup

def Holds (c : IndexGroup) (i : Nat) : Prop := c.start ≤ i ∧ i < c.start + 2 ^ c.bits

/-- A group inside a block that, up to the last index of the block, holds listed slices only. -/
structure Allowed (block : VertexBlock) (l : List Sender) (c : IndexGroup) : Prop where
  dvd : 2 ^ c.bits ∣ c.start
  inside : c.start + 2 ^ c.bits ≤ 2 ^ bitsNeeded (block.lastIndex + 1)
  listed : ∀ i, c.Holds i → i ≤ block.lastIndex → ∃ s ∈ l, s.keys.index = i

variable {c : IndexGroup} {i j m t u : Nat}

/-- A small group does not reach beyond a greater power of two of indices. -/
theorem not_holds_of_le (ht : c.Holds t) (hbits : c.bits ≤ j) (hu : t + 2 ^ j ≤ u) :
    ¬ c.Holds u := by
  intro hholds
  have hpow : 2 ^ c.bits ≤ 2 ^ j := Nat.pow_le_pow_right (by omega) hbits
  have hstart := ht.1
  have hend := hholds.2
  omega

theorem holds_of_le (hdvd : 2 ^ c.bits ∣ c.start) (ht : c.Holds t) (htdvd : 2 ^ m ∣ t)
    (hbits : m ≤ c.bits) (hle : t ≤ i) (hlt : i < t + 2 ^ m) : c.Holds i := by
  have hend : t + 2 ^ m ≤ c.start + 2 ^ c.bits :=
    add_le_of_dvd htdvd (Nat.dvd_add (dvd_trans (pow_dvd_pow 2 hbits) hdvd) (pow_dvd_pow 2 hbits))
      ht.2
  exact ⟨ht.1.trans hle, by omega⟩

/-- A large group that has an index which only a small power of two divides starts before it. -/
theorem start_add_le (hdvd : 2 ^ c.bits ∣ c.start) (ht : c.Holds t) (hlow : LowestPower j t)
    (hbits : j < c.bits) : c.start + 2 ^ j ≤ t := by
  have hcdvd : 2 ^ (j + 1) ∣ c.start := dvd_trans (pow_dvd_pow 2 hbits) hdvd
  have hne : c.start ≠ t := by
    rintro rfl
    exact hlow.not_dvd hcdvd
  have hlt := Nat.lt_of_le_of_ne ht.1 hne
  exact add_le_of_dvd (dvd_trans (pow_dvd_pow 2 (Nat.le_succ j)) hcdvd) hlow.dvd hlt

end IndexGroup

variable {block : VertexBlock} {all part part' : List Sender} {s : Sender}
  {entries entries' : List Entry} {groups groups' : List IndexGroup} {c d : IndexGroup}
  {first i j m : Nat}

/-- An entry shared by the slices of a group, the first of which is one of some slices. -/
def SharedBy (block : VertexBlock) (part : List Sender) (e : Entry) (c : IndexGroup) : Prop :=
  ∃ s ∈ part, s.keys.index = c.start ∧ e = groupEntry block s (2 ^ c.bits)

/-- No allowed group has the first indices of both groups. -/
def Unjoinable (block : VertexBlock) (all : List Sender) (c d : IndexGroup) : Prop :=
  ∀ b : IndexGroup, b.Allowed block all → b.Holds c.start → ¬ b.Holds d.start

/-- The groups that entries for some of the listed slices stand for. -/
structure Grouping (block : VertexBlock) (all part : List Sender) (entries : List Entry)
    (groups : List IndexGroup) : Prop where
  shared : List.Forall₂ (SharedBy block part) entries groups
  allowed : ∀ c ∈ groups, c.Allowed block all
  complete : ∀ s ∈ part, ∃ c ∈ groups, c.Holds s.keys.index
  unjoinable : groups.Pairwise (Unjoinable block all)

theorem grouping_nil : Grouping block all [] [] [] :=
  ⟨List.Forall₂.nil, by simp, by simp, List.Pairwise.nil⟩

theorem SharedBy.mono {e : Entry} (h : SharedBy block part e c) (hpart : ∀ s ∈ part, s ∈ part') :
    SharedBy block part' e c := by
  obtain ⟨s, hs, hshared⟩ := h
  exact ⟨s, hpart s hs, hshared⟩

theorem Grouping.exists_start (h : Grouping block all part entries groups) (hc : c ∈ groups) :
    ∃ s ∈ part, s.keys.index = c.start := by
  obtain ⟨n, hn, rfl⟩ := List.getElem_of_mem hc
  obtain ⟨s, hs, hstart, _⟩ := h.shared.get (h.shared.length_eq ▸ hn) hn
  exact ⟨s, hs, hstart⟩

theorem Grouping.append (h : Grouping block all part entries groups)
    (h' : Grouping block all part' entries' groups')
    (hcross : ∀ c ∈ groups, ∀ d ∈ groups', Unjoinable block all c d) :
    Grouping block all (part ++ part') (entries ++ entries') (groups ++ groups') where
  shared := List.rel_append
    (h.shared.imp fun _ _ hs => hs.mono fun _ => List.mem_append_left _)
    (h'.shared.imp fun _ _ hs => hs.mono fun _ => List.mem_append_right _)
  allowed := List.forall_mem_append.2 ⟨h.allowed, h'.allowed⟩
  complete := by
    intro s hs
    rcases List.mem_append.1 hs with hs | hs
    · obtain ⟨c, hc, hholds⟩ := h.complete s hs
      exact ⟨c, List.mem_append_left _ hc, hholds⟩
    · obtain ⟨c, hc, hholds⟩ := h'.complete s hs
      exact ⟨c, List.mem_append_right _ hc, hholds⟩
  unjoinable := List.pairwise_append.2 ⟨h.unjoinable, h'.unjoinable, hcross⟩

/-- The first slices of a row share one entry, and no allowed group has the first one together
with a later one: the rest of the row is grouped on its own. -/
theorem Grouping.cons {rest : List Sender} (hrow : Consecutive i (s :: rest))
    (hallowed : (IndexGroup.mk i j).Allowed block all)
    (happart : ∀ b : IndexGroup, b.Allowed block all → b.Holds i →
      ∀ u, i + 2 ^ j ≤ u → u < i + (s :: rest).length → ¬ b.Holds u)
    (h : Grouping block all ((s :: rest).drop (2 ^ j)) entries groups) :
    Grouping block all (s :: rest) (groupEntry block s (2 ^ j) :: entries) (⟨i, j⟩ :: groups) := by
  have hindex : s.keys.index = i := hrow 0 s rfl
  have hfirst : s ∈ (s :: rest).take (2 ^ j) := by
    obtain ⟨n, hn⟩ := Nat.exists_eq_succ_of_ne_zero (Nat.two_pow_pos j).ne'
    rw [hn, List.take_succ_cons]
    exact List.mem_cons_self
  have hgroup : Grouping block all ((s :: rest).take (2 ^ j)) [groupEntry block s (2 ^ j)]
      [⟨i, j⟩] := by
    refine ⟨List.Forall₂.cons ⟨s, hfirst, hindex, rfl⟩ .nil, by simpa using hallowed, ?_,
      List.pairwise_singleton _ _⟩
    intro t ht
    exact ⟨_, List.mem_singleton_self _, hrow.index_of_mem_take ht⟩
  have hall := hgroup.append h ?_
  · rwa [List.take_append_drop] at hall
  · intro c hc d hd b hb hholds
    cases List.mem_singleton.1 hc
    obtain ⟨t, ht, hstart⟩ := h.exists_start hd
    obtain ⟨n, hn⟩ := List.getElem?_of_mem ht
    have hlt : n < ((s :: rest).drop (2 ^ j)).length := (List.getElem?_eq_some_iff.1 hn).1
    have hlater := hrow.drop (2 ^ j) n t hn
    rw [List.length_drop] at hlt
    rw [← hstart]
    exact happart b hb hholds t.keys.index (by omega) (by omega)

/-! ## The groups of a row -/

/-- A row of listed slices between two indices that are not listed. -/
structure Row (block : VertexBlock) (all : List Sender) (first stop : Nat) : Prop where
  before : ∀ s ∈ all, s.keys.index + 1 ≠ first
  behind : ∀ s ∈ all, s.keys.index ≠ stop
  stop_le : stop ≤ block.lastIndex + 1

variable {stop : Nat}

/-- A group that the rest of its row fills, or that reaches beyond the last slice. -/
theorem Consecutive.allowed (hrow : Consecutive i part) (hpart : ∀ s ∈ part, s ∈ all)
    (hdvd : 2 ^ j ∣ i) (hinside : i + 2 ^ j ≤ 2 ^ bitsNeeded (block.lastIndex + 1))
    (hfull : 2 ^ j ≤ part.length ∨ i + part.length = block.lastIndex + 1) :
    (IndexGroup.mk i j).Allowed block all where
  dvd := hdvd
  inside := hinside
  listed := by
    intro k hk hle
    have hfrom : i ≤ k := hk.1
    have hto : k < i + 2 ^ j := hk.2
    obtain ⟨s, hs, hindex⟩ := hrow.exists_mem_take hfrom (by omega) hto
    exact ⟨s, hpart s (List.mem_of_mem_take hs), hindex⟩

/-- A group that holds an index behind which the row ends too soon for it would hold the end of
the row as well. -/
theorem Row.not_holds_of_tail (hall : Row block all first stop) (hstop : stop ≤ block.lastIndex)
    (hdvd : 2 ^ (j + 1) ∣ i) (hle : i ≤ stop) (hlt : stop < i + 2 ^ (j + 1))
    (hc : c.Allowed block all) (hi : c.Holds i) {u : Nat} (hu : i + 2 ^ j ≤ u) :
    ¬ c.Holds u := by
  rcases Nat.lt_or_ge j c.bits with hlarge | hsmall
  · have hend := IndexGroup.holds_of_le hc.dvd hi hdvd hlarge hle hlt
    obtain ⟨s, hs, hindex⟩ := hc.listed stop hend hstop
    exact absurd hindex (hall.behind s hs)
  · exact IndexGroup.not_holds_of_le hi hsmall hu

/-- A group that holds an index and more than its lowest power of two of others would hold the
index in front of the row. -/
theorem Row.not_holds_of_rise (hall : Row block all first stop) (hlow : LowestPower j i)
    (hfirst : first ≤ i) (hrise : RisesFrom first i) (hle : i ≤ block.lastIndex)
    (hc : c.Allowed block all) (hi : c.Holds i) {u : Nat} (hu : i + 2 ^ j ≤ u) :
    ¬ c.Holds u := by
  rcases Nat.lt_or_ge j c.bits with hlarge | hsmall
  · have hstart := IndexGroup.start_add_le hc.dvd hi hlow hlarge
    have hnear := hrise j hlow
    have hend := hi.2
    have hbefore : c.Holds (first - 1) := ⟨by omega, by omega⟩
    obtain ⟨s, hs, hindex⟩ := hc.listed (first - 1) hbefore (by omega)
    exact absurd (by omega) (hall.before s hs)
  · exact IndexGroup.not_holds_of_le hi hsmall hu

theorem grouping_coverTail {fuel : Nat} (hall : Row block all first stop)
    (hstop : stop ≤ block.lastIndex) (hrow : Consecutive i part) (hpart : ∀ s ∈ part, s ∈ all)
    (hend : i + part.length = stop) (hfuel : part.length ≤ fuel) (hdvd : 2 ^ m ∣ i)
    (hlength : part.length < 2 ^ m) :
    ∃ groups, Grouping block all part (coverTail block fuel part) groups := by
  induction fuel generalizing part i m with
  | zero =>
      cases List.eq_nil_of_length_eq_zero (Nat.le_zero.1 hfuel)
      exact ⟨[], grouping_nil⟩
  | succ fuel ih =>
      cases part with
      | nil => exact ⟨[], grouping_nil⟩
      | cons s rest =>
          have hpow : powerBelow (rest.length + 1) = 2 ^ (rest.length + 1).log2 := rfl
          have hpos : 0 < 2 ^ (rest.length + 1).log2 := by positivity
          have hle : 2 ^ (rest.length + 1).log2 ≤ rest.length + 1 :=
            Nat.log2_self_le (Nat.succ_ne_zero _)
          have hlt : rest.length + 1 < 2 ^ ((rest.length + 1).log2 + 1) := Nat.lt_log2_self
          rw [List.length_cons] at hend hfuel hlength
          have hsmaller : (rest.length + 1).log2 + 1 ≤ m := by
            have hbits := hle.trans_lt hlength
            rwa [Nat.pow_lt_pow_iff_right (by omega : 1 < 2)] at hbits
          have hdvd' : 2 ^ ((rest.length + 1).log2 + 1) ∣ i :=
            dvd_trans (pow_dvd_pow 2 hsmaller) hdvd
          have hdvd'' : 2 ^ (rest.length + 1).log2 ∣ i :=
            dvd_trans (pow_dvd_pow 2 (Nat.le_succ _)) hdvd'
          have hblock := Keys.le_two_pow_bitsNeeded (block.lastIndex + 1)
          obtain ⟨groups, hgroups⟩ := ih (hrow.drop (2 ^ (rest.length + 1).log2))
            (fun t ht => hpart t (List.mem_of_mem_drop ht))
            (by rw [List.length_drop, List.length_cons]; omega)
            (by rw [List.length_drop, List.length_cons]; omega)
            (Nat.dvd_add hdvd'' (dvd_refl _))
            (by rw [List.length_drop, List.length_cons]; omega)
          unfold coverTail
          rw [hpow]
          refine ⟨_, hgroups.cons hrow ?_ ?_⟩
          · exact hrow.allowed hpart hdvd'' (by omega) (Or.inl hle)
          · intro c hc hi u hu _
            exact hall.not_holds_of_tail hstop hdvd' (by omega) (by omega) hc hi hu

theorem coverRun_nil {fuel length : Nat} {isLast : Bool} :
    coverRun block length isLast fuel [] = [] := by
  cases fuel <;> rfl

theorem grouping_coverRun {fuel length : Nat} {isLast : Bool} (hall : Row block all first stop)
    (hlast : isLast = decide (stop = block.lastIndex + 1)) (hbound : block.lastIndex < 2 ^ 32)
    (hrow : Consecutive i part) (hpart : ∀ s ∈ part, s ∈ all)
    (hend : part ≠ [] → i + part.length = stop) (hfuel : part.length ≤ fuel)
    (hlength : part.length ≤ length) (hfits : length ≤ block.lastIndex + 1) (hfirst : first ≤ i)
    (hrise : RisesFrom first i) :
    ∃ groups, Grouping block all part (coverRun block length isLast fuel part) groups := by
  induction fuel generalizing part i with
  | zero =>
      cases List.eq_nil_of_length_eq_zero (Nat.le_zero.1 hfuel)
      exact ⟨[], grouping_nil⟩
  | succ fuel ih =>
      cases part with
      | nil => exact ⟨[], grouping_nil⟩
      | cons s rest =>
          have hindex : s.keys.index = i := hrow 0 s rfl
          have hstop := hend (List.cons_ne_nil _ _)
          have hstop_le := hall.stop_le
          have hblock := Keys.le_two_pow_bitsNeeded (block.lastIndex + 1)
          rw [List.length_cons] at hstop hfuel hlength
          obtain ⟨j, hcount, hdvd, hinside, hcase⟩ := alignedRun_spec (hfits.trans hblock)
            (show i < 2 ^ Keys.bitsNeeded (block.lastIndex + 1) by omega) (by omega)
          have hpos := Nat.two_pow_pos j
          unfold coverRun
          simp only [hindex, hcount]
          split
          · next hshared =>
              have hfull : 2 ^ j ≤ (s :: rest).length ∨
                  i + (s :: rest).length = block.lastIndex + 1 := by
                rw [hlast, decide_eq_true_eq] at hshared
                rw [List.length_cons]
                omega
              have hallowed := hrow.allowed hpart hdvd hinside hfull
              rcases hcase with ⟨hzero, hwhole⟩ | hlow
              · -- nothing of the row is left
                have hdrop : (s :: rest).drop (2 ^ j) = [] :=
                  List.drop_eq_nil_of_le (by rw [List.length_cons]; omega)
                rw [hdrop, coverRun_nil]
                refine ⟨[⟨i, j⟩], Grouping.cons hrow hallowed ?_ (hdrop ▸ grouping_nil)⟩
                intro c _ _ u hu hlt
                rw [List.length_cons] at hlt
                omega
              · have hleft : ((s :: rest).drop (2 ^ j)).length = rest.length + 1 - 2 ^ j := by
                  rw [List.length_drop, List.length_cons]
                obtain ⟨groups, hgroups⟩ := ih (hrow.drop _)
                  (fun t ht => hpart t (List.mem_of_mem_drop ht))
                  (fun hne => by have := List.length_pos_of_ne_nil hne; omega)
                  (by omega) (by omega) (by omega) (hrise.add hlow)
                refine ⟨_, hgroups.cons hrow hallowed ?_⟩
                intro c hc hi u hu _
                exact hall.not_holds_of_rise hlow hfirst hrise (by omega) hc hi hu
          · next hshared =>
              rw [not_or, hlast, decide_eq_true_eq] at hshared
              exact grouping_coverTail hall (by omega) hrow hpart (by rw [List.length_cons]; omega)
                le_rfl hdvd (by rw [List.length_cons]; omega)

/-! ## All rows -/

variable {rows : List (List Sender)} {row row' l : List Sender}

def Increasing (l : List Sender) : Prop := l.Pairwise fun s t => s.keys.index < t.keys.index

/-- An index that is not listed lies between two rows. -/
def Split (row row' : List Sender) : Prop :=
  ∀ s ∈ row, ∀ t ∈ row', s.keys.index + 1 < t.keys.index

theorem split_of_isChain (hne : ∀ row ∈ rows, row ≠ []) (horder : Increasing rows.flatten)
    (hchain : rows.IsChain fun row row' => ∃ h h',
      ((row'.head h').keys.index == (row.getLast h).keys.index + 1) = false) :
    rows.Pairwise Split := by
  induction rows with
  | nil => exact List.Pairwise.nil
  | cons row rows ih =>
      obtain ⟨hrow, hrows⟩ := List.forall_mem_cons.1 hne
      unfold Increasing at horder
      rw [List.flatten_cons, List.pairwise_append] at horder
      obtain ⟨hin, hout, hcross⟩ := horder
      refine List.pairwise_cons.2 ⟨?_, ih hrows hout hchain.tail⟩
      intro later hlater s hs t ht
      obtain ⟨next, rest, rfl⟩ := List.exists_cons_of_ne_nil (List.ne_nil_of_mem hlater)
      obtain ⟨u, tail, rfl⟩ := List.exists_cons_of_ne_nil (hrows next (by simp))
      obtain rfl | ⟨init, v, rfl⟩ := List.eq_nil_or_concat' row
      · exact absurd rfl hrow
      · obtain ⟨_, _, hapart⟩ := hchain.rel_head? rfl
        rw [List.getLast_concat, List.head_cons, beq_eq_false_iff_ne] at hapart
        have hgap : v.keys.index < u.keys.index := hcross v (by simp) u (by simp)
        have hlast : s.keys.index ≤ v.keys.index := by
          rcases List.mem_append.1 hs with hs | hs
          · exact (List.pairwise_append.1 hin).2.2 s hs v (by simp) |>.le
          · rw [List.mem_singleton.1 hs]
        have hhead : u.keys.index ≤ t.keys.index := by
          have ht' : t ∈ u :: (tail ++ rest.flatten) := List.mem_flatten_of_mem hlater ht
          rcases List.mem_cons.1 ht' with rfl | ht'
          · exact le_rfl
          · exact ((List.pairwise_cons.1 hout).1 t ht').le
        omega

theorem split_runs (horder : Increasing l) : (runs l).Pairwise Split := by
  refine split_of_isChain (fun row hrow => List.ne_nil_of_mem_splitBy hrow) ?_
    (List.isChain_getLast_head_splitBy (fun a b => b.keys.index == a.keys.index + 1) l)
  unfold runs
  rwa [List.flatten_splitBy]

/-- Every listed slice comes before a run, with an index between them, belongs to it, or comes
behind it in the same way. -/
theorem mem_or_apart_of_run (horder : Increasing l) (hrow : Consecutive i (s :: part))
    (hrun : s :: part ∈ runs l) {t : Sender} (ht : t ∈ l) : t.keys.index + 1 < i ∨
      i ≤ t.keys.index ∧ t.keys.index < i + (s :: part).length ∨
      i + (s :: part).length < t.keys.index := by
  have hflatten : (runs l).flatten = l := List.flatten_splitBy _ l
  have hfirst : s.keys.index = i := hrow 0 s rfl
  have hsplit := split_runs horder
  obtain ⟨before, after, hruns⟩ := List.append_of_mem hrun
  rw [hruns] at hflatten hsplit
  rw [List.pairwise_append, List.pairwise_cons] at hsplit
  obtain ⟨_, ⟨hafter, _⟩, hbefore⟩ := hsplit
  rw [← hflatten, List.mem_flatten] at ht
  obtain ⟨row, hmem, ht⟩ := ht
  rcases List.mem_append.1 hmem with hmem | hmem
  · have := hbefore row hmem (s :: part) (by simp) t ht s (by simp)
    omega
  · rcases List.mem_cons.1 hmem with rfl | hmem
    · rw [← List.take_length (l := s :: part)] at ht
      exact Or.inr (Or.inl (hrow.index_of_mem_take ht))
    · have hlast : (s :: part)[part.length]? = some (s :: part)[part.length] :=
        List.getElem?_eq_getElem (by simp)
      have hindex := hrow _ _ hlast
      have := hafter row hmem _ (List.mem_of_getElem? hlast) t ht
      rw [List.length_cons]
      omega

theorem row_of_run (horder : Increasing l) (hle : ∀ s ∈ l, s.keys.index ≤ block.lastIndex)
    (hrow : Consecutive i (s :: part)) (hrun : s :: part ∈ runs l) :
    Row block l i (i + (s :: part).length) where
  before := fun t ht => by
    have := mem_or_apart_of_run horder hrow hrun ht
    omega
  behind := fun t ht => by
    have := mem_or_apart_of_run horder hrow hrun ht
    omega
  stop_le := by
    have hflatten : (runs l).flatten = l := List.flatten_splitBy _ l
    have hlast : (s :: part)[part.length]? = some (s :: part)[part.length] :=
      List.getElem?_eq_getElem (by simp)
    have hindex := hrow _ _ hlast
    have hmem := List.mem_flatten_of_mem hrun (List.mem_of_getElem? hlast)
    rw [hflatten] at hmem
    have := hle _ hmem
    rw [List.length_cons]
    omega

theorem grouping_run (horder : Increasing l) (hle : ∀ s ∈ l, s.keys.index ≤ block.lastIndex)
    (hbound : block.lastIndex < 2 ^ 32) (hrun : row ∈ runs l) :
    ∃ groups, Grouping block l row (coverRun block row.length
      (row.getLast?.any fun s => s.keys.index == block.lastIndex) row.length row) groups := by
  have hflatten : (runs l).flatten = l := List.flatten_splitBy _ l
  have hmem : ∀ s ∈ row, s ∈ l := by
    intro s hs
    rw [← hflatten]
    exact List.mem_flatten_of_mem hrun hs
  obtain ⟨s, rest, rfl⟩ := List.exists_cons_of_ne_nil (List.ne_nil_of_mem_splitBy hrun)
  have hrow := consecutive_of_isChain (List.isChain_of_mem_splitBy hrun)
  have hall := row_of_run horder hle hrow hrun
  have hstop := hall.stop_le
  exact grouping_coverRun hall (hrow.any_getLast? (List.cons_ne_nil _ _) _) hbound hrow hmem
    (fun _ => rfl) le_rfl le_rfl (by omega) le_rfl (risesFrom_self _)

/-- An index of the block that is not listed lies between two rows. -/
def Parted (block : VertexBlock) (all row row' : List Sender) : Prop :=
  ∃ stop ≤ block.lastIndex, (∀ s ∈ all, s.keys.index ≠ stop) ∧
    (∀ s ∈ row, s.keys.index < stop) ∧ ∀ t ∈ row', stop < t.keys.index

theorem parted_runs (horder : Increasing l) (hle : ∀ s ∈ l, s.keys.index ≤ block.lastIndex) :
    (runs l).Pairwise (Parted block l) := by
  have hflatten : (runs l).flatten = l := List.flatten_splitBy _ l
  refine (split_runs horder).imp_of_mem fun {row row'} hrun hrun' hsplit => ?_
  obtain ⟨s, rest, rfl⟩ := List.exists_cons_of_ne_nil (List.ne_nil_of_mem_splitBy hrun)
  obtain ⟨t, rest', rfl⟩ := List.exists_cons_of_ne_nil (List.ne_nil_of_mem_splitBy hrun')
  have hrow := consecutive_of_isChain (List.isChain_of_mem_splitBy hrun)
  have hlast : (s :: rest)[rest.length]? = some (s :: rest)[rest.length] :=
    List.getElem?_eq_getElem (by simp)
  have hindex := hrow _ _ hlast
  have hbehind : ∀ u ∈ t :: rest', s.keys.index + (s :: rest).length < u.keys.index := by
    intro u hu
    have := hsplit _ (List.mem_of_getElem? hlast) u hu
    rw [List.length_cons]
    omega
  refine ⟨_, ?_, (row_of_run horder hle hrow hrun).behind, ?_, hbehind⟩
  · have hmem := List.mem_flatten_of_mem hrun' (List.mem_cons_self (a := t) (l := rest'))
    rw [hflatten] at hmem
    have := hle t hmem
    have := hbehind t (by simp)
    omega
  · intro u hu
    rw [← List.take_length (l := s :: rest)] at hu
    exact (hrow.index_of_mem_take hu).2

theorem grouping_flatMap {f : List Sender → List Entry}
    (hrows : ∀ row ∈ rows, ∃ groups, Grouping block all row (f row) groups)
    (hparted : rows.Pairwise (Parted block all)) :
    ∃ groups, Grouping block all rows.flatten (rows.flatMap f) groups := by
  induction rows with
  | nil => exact ⟨[], grouping_nil⟩
  | cons row rows ih =>
      obtain ⟨⟨groups, hgroups⟩, hrest⟩ := List.forall_mem_cons.1 hrows
      obtain ⟨hfirst, hothers⟩ := List.pairwise_cons.1 hparted
      obtain ⟨groups', hgroups'⟩ := ih hrest hothers
      rw [List.flatten_cons, List.flatMap_cons]
      refine ⟨groups ++ groups', hgroups.append hgroups' ?_⟩
      intro c hc d hd b hb hbc hbd
      obtain ⟨s, hs, hstart⟩ := hgroups.exists_start hc
      obtain ⟨t, ht, hstart'⟩ := hgroups'.exists_start hd
      obtain ⟨row', hrow', ht⟩ := List.mem_flatten.1 ht
      obtain ⟨stop, hstop, hunlisted, hbefore, hbehind⟩ := hfirst row' hrow'
      -- a group with indices of two rows has the one between them
      have hholds : b.Holds stop := by
        have hlo := hbefore s hs
        have hhi := hbehind t ht
        rw [hstart] at hlo
        rw [hstart'] at hhi
        exact ⟨hbc.1.trans hlo.le, hhi.trans hbd.2⟩
      obtain ⟨u, hu, hindex⟩ := hb.listed stop hholds hstop
      exact hunlisted u hu hindex

/-- Groups of indices inside a block that hold all listed slices and, up to the last index of the
block, no others. -/
structure CoversIndices (block : VertexBlock) (l : List Sender) (groups : List IndexGroup) :
    Prop where
  allowed : ∀ c ∈ groups, c.Allowed block l
  complete : ∀ s ∈ l, ∃ c ∈ groups, c.Holds s.keys.index

/-- The entries for sibling slices, whose indices are words of 32 bits, stand for a shortest cover
of the indices. -/
theorem coverSiblings_fewest (horder : Increasing l)
    (hle : ∀ s ∈ l, s.keys.index ≤ block.lastIndex) (hbound : block.lastIndex < 2 ^ 32) :
    ∃ groups, CoversIndices block l groups ∧
      List.Forall₂ (SharedBy block l) (coverSiblings block l) groups ∧
      ∀ others, CoversIndices block l others → (coverSiblings block l).length ≤ others.length := by
  have hflatten : (runs l).flatten = l := List.flatten_splitBy _ l
  obtain ⟨groups, hgroups⟩ := grouping_flatMap (fun _ hrun => grouping_run horder hle hbound hrun)
    (parted_runs horder hle)
  rw [hflatten] at hgroups
  refine ⟨groups, ⟨hgroups.allowed, hgroups.complete⟩, hgroups.shared, fun others hothers => ?_⟩
  rw [show (coverSiblings block l).length = groups.length from hgroups.shared.length_eq]
  refine length_le_of_separate (r := fun b c => b.Holds c.start) ?_ ?_
  · intro c hc
    obtain ⟨s, hs, hstart⟩ := hgroups.exists_start hc
    rw [← hstart]
    exact hothers.complete s hs
  · exact hgroups.unjoinable.imp fun hcd b hb => hcd b (hothers.allowed b hb)

/-- A block for thirteen slices, which leaves three indices unused. -/
def thirteenSlices : VertexBlock := { sevenSlices with lastIndex := 12 }

def twoRuns : List Sender := [1, 2, 3, 4, 5, 6, 8, 9, 10, 11, 12].map eastward

theorem coverSiblings_fewest_twoRuns : Increasing twoRuns ∧
    (∀ s ∈ twoRuns, s.keys.index ≤ thirteenSlices.lastIndex) ∧ thirteenSlices.lastIndex < 2 ^ 32 ∧
      (coverSiblings thirteenSlices twoRuns).length = 5 ∧
      ∃ groups, CoversIndices thirteenSlices twoRuns groups ∧
        List.Forall₂ (SharedBy thirteenSlices twoRuns) (coverSiblings thirteenSlices twoRuns)
          groups ∧
        ∀ others, CoversIndices thirteenSlices twoRuns others →
          (coverSiblings thirteenSlices twoRuns).length ≤ others.length := by
  have horder : Increasing twoRuns := by
    unfold Increasing
    decide
  have hle : ∀ s ∈ twoRuns, s.keys.index ≤ thirteenSlices.lastIndex := by decide
  have hbound : thirteenSlices.lastIndex < 2 ^ 32 := by decide
  exact ⟨horder, hle, hbound, by decide, coverSiblings_fewest horder hle hbound⟩

end MulticastMesh.Tables
