import Mathlib.Data.Int.Order.Basic
import Mathlib.Order.Nat
import Mathlib.Tactic.ByContra
import MulticastMesh.Proofs.Tables.FirstMatch
import MulticastMesh.Tables.OrderedCovering
/-!
# What the checks of a merge establish

A merge that passes both checks catches no initial key at or behind its position, moves none of
its members behind an entry of another route that the member shadows, and has the pattern of an
entry that it leaves alone only if all of its members have that pattern.
-/

namespace MulticastMesh.Tables.OrderedCovering

open Keys (Key Pattern bit freeBits)
open Routing (Route)

def Sorted (table : Array Entry) : Prop :=
  table.toList.Pairwise fun e f => e.pattern.generality ≤ f.pattern.generality

theorem Sorted.le {table : Array Entry} (h : Sorted table) {i j : Nat} {e f : Entry}
    (hij : i < j) (he : table[i]? = some e) (hf : table[j]? = some f) :
    e.pattern.generality ≤ f.pattern.generality := by
  obtain ⟨hi, rfl⟩ := Array.getElem?_eq_some_iff.1 he
  obtain ⟨hj, rfl⟩ := Array.getElem?_eq_some_iff.1 hf
  have hpair := List.pairwise_iff_getElem.1 h i j (by simpa using hi) (by simpa using hj) hij
  simpa using hpair

theorem lt_positionOf_iff {table : Array Entry} (hs : Sorted table) {p : Pattern} {i : Nat}
    {e : Entry} (he : table[i]? = some e) :
    i < positionOf table p ↔ e.pattern.generality ≤ p.generality := by
  obtain ⟨hi, hie⟩ := Array.getElem?_eq_some_iff.1 he
  unfold positionOf
  cases hfind : table.findIdx? fun e => decide (p.generality < e.pattern.generality) with
  | none =>
      have hall := Array.findIdx?_eq_none_iff.1 hfind e (Array.mem_of_getElem? he)
      simp only [decide_eq_false_iff_not, not_lt] at hall
      simp [hi, hall]
  | some n =>
      obtain ⟨hn, hpn, hbefore⟩ := Array.findIdx?_eq_some_iff_getElem.1 hfind
      simp only [Option.getD_some]
      simp only [decide_eq_true_eq] at hpn
      constructor
      · intro hin
        have hlow := hbefore i hin
        rw [hie] at hlow
        simpa using hlow
      · intro hle
        by_contra hge
        rcases Nat.lt_or_eq_of_le (Nat.le_of_not_lt hge) with hni | rfl
        · have hord := hs.le hni (Array.getElem?_eq_getElem hn) he
          omega
        · rw [hie] at hpn
          omega

/-! ## Merges -/

def patternsAt (table : Array Entry) (positions : List Nat) : List Pattern :=
  positions.filterMap fun i => (table[i]?).map fun e => e.pattern

/-- A merge of entries of one route, each taken once. -/
structure MergeOf (table : Array Entry) (route : Route) (m : Merge) : Prop where
  eq_of : m = .of table m.members
  increasing : m.members.Pairwise (· < ·)
  entry : ∀ i ∈ m.members, ∃ e, table[i]? = some e ∧ e.route = route

section

variable {table : Array Entry} {route : Route} {m n : Merge} {i : Nat} {e : Entry}

theorem mem_patternsAt {positions : List Nat} (hi : i ∈ positions)
    (he : table[i]? = some e) : e.pattern ∈ patternsAt table positions :=
  List.mem_filterMap.2 ⟨i, hi, by simp [he]⟩

theorem exists_of_mem_patternsAt {positions : List Nat} {p : Pattern}
    (h : p ∈ patternsAt table positions) :
    ∃ i ∈ positions, ∃ e, table[i]? = some e ∧ e.pattern = p := by
  obtain ⟨i, hi, hp⟩ := List.mem_filterMap.1 h
  obtain ⟨e, he, rfl⟩ := Option.map_eq_some_iff.1 hp
  exact ⟨i, hi, e, he, rfl⟩

theorem proper_patternsAt (hproper : AllProper table.toList) {positions : List Nat} :
    ∀ p ∈ patternsAt table positions, p.Proper := by
  intro p hp
  obtain ⟨i, _, e, he, rfl⟩ := exists_of_mem_patternsAt hp
  exact hproper e (Array.mem_toList_iff.2 (Array.mem_of_getElem? he))

theorem MergeOf.pattern_eq (h : MergeOf table route m) :
    m.pattern = Pattern.joinAll (patternsAt table m.members) := by
  rw [h.eq_of]
  rfl

theorem MergeOf.position_eq (h : MergeOf table route m) :
    m.position = positionOf table m.pattern := by
  rw [h.eq_of]
  rfl

theorem MergeOf.proper (h : MergeOf table route m) (hproper : AllProper table.toList) :
    m.pattern.Proper := by
  rw [h.pattern_eq]
  exact Pattern.proper_joinAll (proper_patternsAt hproper)

theorem MergeOf.coveredBy (h : MergeOf table route m) (hproper : AllProper table.toList)
    (hi : i ∈ m.members) (he : table[i]? = some e) :
    e.pattern.coveredBy m.pattern = true := by
  rw [h.pattern_eq]
  exact Pattern.coveredBy_joinAll (proper_patternsAt hproper) (mem_patternsAt hi he)

theorem MergeOf.lt_position_iff (h : MergeOf table route m) (hs : Sorted table)
    (he : table[i]? = some e) :
    i < m.position ↔ e.pattern.generality ≤ m.pattern.generality := by
  rw [h.position_eq]
  exact lt_positionOf_iff hs he

theorem MergeOf.of_sublist (h : MergeOf table route m) {members : List Nat}
    (hsub : members.Sublist m.members) : MergeOf table route (.of table members) where
  eq_of := rfl
  increasing := h.increasing.sublist hsub
  entry := fun i hi => h.entry i (hsub.subset hi)

theorem MergeOf.patternsAt_ne_nil (h : MergeOf table route m) (hne : m.members ≠ []) :
    patternsAt table m.members ≠ [] := by
  obtain ⟨i, hi⟩ := List.exists_mem_of_ne_nil _ hne
  obtain ⟨e, he, _⟩ := h.entry i hi
  exact List.ne_nil_of_mem (mem_patternsAt hi he)

/-- Leaving members out narrows the join. -/
theorem MergeOf.pattern_coveredBy (hm : MergeOf table route m) (hn : MergeOf table route n)
    (hproper : AllProper table.toList) (hsub : n.members.Sublist m.members)
    (hne : n.members ≠ []) : n.pattern.coveredBy m.pattern = true := by
  rw [hn.pattern_eq]
  apply Pattern.joinAll_coveredBy (hn.patternsAt_ne_nil hne)
  intro p hp
  obtain ⟨i, hi, e, he, rfl⟩ := exists_of_mem_patternsAt hp
  exact hm.coveredBy hproper (hsub.subset hi) he

theorem MergeOf.lt_position_of_sublist (hm : MergeOf table route m)
    (hn : MergeOf table route n) (hs : Sorted table) (hproper : AllProper table.toList)
    (hsub : n.members.Sublist m.members) (hne : n.members ≠ []) (he : table[i]? = some e)
    (hi : i < n.position) : i < m.position := by
  rw [hm.lt_position_iff hs he]
  rw [hn.lt_position_iff hs he] at hi
  exact hi.trans (Pattern.generality_le_of_coveredBy (hm.pattern_coveredBy hn hproper hsub hne))

theorem Merge.without_sublist (m : Merge) (table : Array Entry) (removed : List Nat) :
    (m.without table removed).members.Sublist m.members :=
  List.filter_sublist

theorem MergeOf.without (h : MergeOf table route m) (removed : List Nat) :
    MergeOf table route (m.without table removed) :=
  h.of_sublist (m.without_sublist table removed)

theorem Merge.goodness_empty (table : Array Entry) : (Merge.empty table).goodness = -1 := rfl

theorem Merge.members_ne_nil (h : 0 < m.goodness) : m.members ≠ [] := by
  intro hnil
  simp [goodness, hnil] at h

end

/-! ## The down-check -/

section

variable {table : Array Entry} {route : Route} {m n : Merge} {origins : Origins} {i : Nat}
  {e : Entry}

theorem and_bit_eq_iff {i : Nat} (hi : i < 32) {a b : Key} :
    a &&& bit i = b &&& bit i ↔ a.getLsbD i = b.getLsbD i := by
  constructor
  · intro h
    have hbit := congrArg (fun w : Key => w.getLsbD i) h
    simpa [Keys.getLsbD_bit hi] using hbit
  · intro h
    apply BitVec.eq_of_getLsbD_eq
    intro j _
    rw [BitVec.getLsbD_and, BitVec.getLsbD_and, Keys.getLsbD_bit hi]
    by_cases hj : j = i
    · rw [hj, h]
    · simp [hj]

/-- A step of the down-check picks a bit and keeps the members with one value of it. -/
theorem exists_bit_of_mem_removals {caught : List Pattern} {removed : List Nat}
    (h : removed ∈ removals table m caught) :
    ∃ b < 32, ∃ v : Bool, ∀ i ∈ m.members, ∀ e, table[i]? = some e →
      (i ∈ removed ↔ e.pattern.key.getLsbD b ≠ v) := by
  unfold removals at h
  obtain ⟨p, _, hp⟩ := List.mem_flatMap.1 h
  obtain ⟨b, hb, rfl⟩ := List.mem_map.1 hp
  have hb32 : b < 32 := (Pattern.mem_freeBits.1 hb).1
  refine ⟨b, hb32, !p.key.getLsbD b, ?_⟩
  intro i hi e he
  unfold opponents
  rw [List.mem_filter, he]
  simp only [hi, true_and, Option.any_some, bne_iff_ne, ne_eq]
  rw [and_bit_eq_iff hb32, BitVec.getLsbD_not]
  simp [hb32]

private theorem foldl_shorter_mem (lists : List (List Nat)) (best : List Nat) :
    lists.foldl (fun best l => if l.length < best.length then l else best) best
      ∈ best :: lists := by
  induction lists generalizing best with
  | nil => simp
  | cons l lists ih =>
      rw [List.foldl_cons]
      by_cases hl : l.length < best.length
      · rw [if_pos hl]
        exact List.mem_cons_of_mem _ (ih l)
      · rw [if_neg hl]
        rcases List.mem_cons.1 (ih best) with h | h
        · rw [h]
          simp
        · simp [h]

theorem mem_of_shortest? {lists : List (List Nat)} {l : List Nat}
    (h : shortest? lists = some l) : l ∈ lists := by
  cases lists with
  | nil => cases h
  | cons first rest =>
      simp only [shortest?, Option.some.injEq] at h
      subst h
      exact foldl_shorter_mem rest first

structure Narrowed (table : Array Entry) (m n : Merge) : Prop where
  sublist : n.members.Sublist m.members
  differs : ∀ i ∈ m.members, i ∉ n.members → ∀ e, table[i]? = some e → e.pattern ≠ n.pattern

/-- All members that stay agree on the bit that drove the others out, so the join has the same
value there and none of the others is the join. -/
private theorem pattern_ne_of_bit (hproper : AllProper table.toList) {b : Nat} {v : Bool}
    (hb : b < 32) (hn : MergeOf table route n) (hne : n.members ≠ [])
    (hstay : ∀ i ∈ n.members, ∀ e, table[i]? = some e → e.pattern.key.getLsbD b = v)
    (he : e.pattern.key.getLsbD b ≠ v) : e.pattern ≠ n.pattern := by
  intro heq
  apply he
  rw [heq, hn.pattern_eq]
  apply Pattern.getLsbD_key_joinAll hb (proper_patternsAt hproper)
    (hn.patternsAt_ne_nil hne)
  intro p hp
  obtain ⟨i, hi, f, hf, rfl⟩ := exists_of_mem_patternsAt hp
  exact hstay i hi f hf

theorem downCheck_spec (origins : Origins) (minGoodness : Int) (fuel : Nat)
    (hproper : AllProper table.toList) (hm : MergeOf table route m)
    (hgood : 0 < (downCheck table origins minGoodness fuel m).goodness) :
    MergeOf table route (downCheck table origins minGoodness fuel m) ∧
      Narrowed table m (downCheck table origins minGoodness fuel m) ∧
      caught table origins (downCheck table origins minGoodness fuel m) = [] := by
  induction fuel generalizing m with
  | zero => simp [downCheck, Merge.goodness_empty] at hgood
  | succ fuel ih =>
      rw [downCheck] at hgood ⊢
      by_cases hmin : m.goodness ≤ minGoodness
      · simp [hmin, Merge.goodness_empty] at hgood
      rw [if_neg hmin] at hgood ⊢
      cases hcaught : caught table origins m with
      | nil => exact ⟨hm, ⟨List.Sublist.refl _, fun i hi hn => absurd hi hn⟩, hcaught⟩
      | cons p ps =>
          rw [hcaught] at hgood
          simp only at hgood ⊢
          split at hgood
          · simp [Merge.goodness_empty] at hgood
          · simp [Merge.goodness_empty] at hgood
          next removed _ hremoved =>
            obtain ⟨hn, hnarrow, hnone⟩ := ih (hm.without removed) hgood
            refine ⟨hn, ⟨hnarrow.sublist.trans (m.without_sublist table removed), ?_⟩, hnone⟩
            intro i hi hout e he
            by_cases hkept : i ∈ (m.without table removed).members
            · exact hnarrow.differs i hkept hout e he
            · obtain ⟨b, hb, v, hbit⟩ :=
                exists_bit_of_mem_removals (mem_of_shortest? hremoved)
              have hdropped : i ∈ removed := by
                by_contra hnot
                exact hkept (List.mem_filter.2 ⟨hi, by simpa using hnot⟩)
              refine pattern_ne_of_bit hproper hb hn (Merge.members_ne_nil hgood) ?_
                ((hbit i hi e he).1 hdropped)
              intro j hj f hf
              obtain ⟨hjm, hjr⟩ := List.mem_filter.1 (hnarrow.sublist.subset hj)
              by_contra hne
              simp [(hbit j hjm f hf).2 hne] at hjr

/-! ## The up-check -/

/-- No member moves behind an entry of another merge that it shadows. -/
def Unshadowed (table : Array Entry) (m : Merge) (i : Nat) : Prop :=
  ∀ j, i < j → j < m.position → j ∉ m.members →
    ∀ e f, table[i]? = some e → table[j]? = some f → e.intersects f = false

theorem unshadowed_of_shadows_eq_false (h : i < m.position → shadows table m i = false) :
    Unshadowed table m i := by
  intro j hij hj hjm e f he hf
  have hshadow := h (hij.trans hj)
  unfold shadows at hshadow
  simp only [List.any_eq_false, List.mem_filter, List.mem_range'_1] at hshadow
  have hjf := hshadow j ⟨⟨by omega, by omega⟩, by simpa using hjm⟩
  simpa [he, hf] using hjf

/-- What is known of a merge after the up-check went through some of its members, which it does
from the last on.  A member is looked at after all later ones, so members dropped afterwards do
not lie between it and the join. -/
structure UpChecked (table : Array Entry) (looked : List Nat) (m n : Merge) : Prop where
  sublist : n.members.Sublist m.members
  dropped : ∀ i ∈ m.members, i ∉ n.members → i ∈ looked
  unshadowed : ∀ i ∈ looked, i ∈ n.members → Unshadowed table n i

theorem upCheck_spec (minGoodness : Int) (hs : Sorted table)
    (hproper : AllProper table.toList) {looked : List Nat} (hdown : looked.Pairwise (· > ·))
    (hm : MergeOf table route m)
    (hgood : 0 < (upCheck table minGoodness looked m).1.goodness) :
    MergeOf table route (upCheck table minGoodness looked m).1 ∧
      UpChecked table looked m (upCheck table minGoodness looked m).1 := by
  induction looked generalizing m with
  | nil =>
      exact ⟨hm, List.Sublist.refl _, fun i hi hn => absurd hi hn, by simp⟩
  | cons i rest ih =>
      obtain ⟨hlater, hdown⟩ := List.pairwise_cons.1 hdown
      rw [upCheck] at hgood ⊢
      by_cases hshadow : i < m.position ∧ shadows table m i = true
      · rw [if_pos hshadow] at hgood ⊢
        by_cases hmin : (m.without table [i]).goodness ≤ minGoodness
        · simp [hmin, Merge.goodness_empty] at hgood
        simp only [hmin, if_false] at hgood ⊢
        obtain ⟨hn, hup⟩ := ih hdown (hm.without [i]) hgood
        have hsub := m.without_sublist table [i]
        refine ⟨hn, hup.sublist.trans hsub, ?_, ?_⟩
        · intro j hj hout
          by_cases hji : j = i
          · simp [hji]
          · have hjkept : j ∈ (m.without table [i]).members :=
              List.mem_filter.2 ⟨hj, by simpa using hji⟩
            exact List.mem_cons_of_mem _ (hup.dropped j hjkept hout)
        · intro j hj hin
          rcases List.mem_cons.1 hj with rfl | hj
          · have hself := (List.mem_filter.1 (hup.sublist.subset hin)).2
            simp at hself
          · exact hup.unshadowed j hj hin
      · rw [if_neg hshadow] at hgood ⊢
        obtain ⟨hn, hup⟩ := ih hdown hm hgood
        refine ⟨hn, hup.sublist,
          fun j hj hout => List.mem_cons_of_mem _ (hup.dropped j hj hout), ?_⟩
        intro j hj hin
        rcases List.mem_cons.1 hj with rfl | hj
        · have hold : Unshadowed table m j := by
            apply unshadowed_of_shadows_eq_false
            intro hpos
            by_contra hsh
            exact hshadow ⟨hpos, by simpa using hsh⟩
          intro l hjl hl hlout e f he hf
          apply hold l hjl _ _ e f he hf
          · exact hm.lt_position_of_sublist hn hs hproper hup.sublist
              (Merge.members_ne_nil hgood) hf hl
          · intro hlm
            have := hlater l (hup.dropped l hlm hlout)
            omega
        · exact hup.unshadowed j hj hin

theorem upCheck_unchanged {minGoodness : Int} {looked : List Nat}
    (h : (upCheck table minGoodness looked m).2 = false) :
    (upCheck table minGoodness looked m).1 = m := by
  induction looked with
  | nil => rfl
  | cons i rest ih =>
      rw [upCheck] at h ⊢
      by_cases hshadow : i < m.position ∧ shadows table m i = true
      · rw [if_pos hshadow] at h
        by_cases hmin : (m.without table [i]).goodness ≤ minGoodness <;> simp [hmin] at h
      · rw [if_neg hshadow] at h ⊢
        exact ih h

/-! ## Accepted merges -/

structure Accepted (table : Array Entry) (origins : Origins) (route : Route) (m : Merge) :
    Prop where
  merge : MergeOf table route m
  several : 0 < m.goodness
  catchesNothing : caught table origins m = []
  /-- An entry that a member shadows and that the join goes behind has the same route. -/
  shadowsOwn : ∀ i ∈ m.members, ∀ j, i < j → j < m.position → j ∉ m.members →
    ∀ e f, table[i]? = some e → table[j]? = some f →
      f.route = route ∨ e.intersects f = false
  /-- An entry with the join's pattern is left alone only if all members have that pattern. -/
  alone : ∀ j, j ∉ m.members → ∀ f, table[j]? = some f → f.pattern = m.pattern →
    ∀ i ∈ m.members, ∀ e, table[i]? = some e → e.pattern = m.pattern

theorem mergeOf_positionsOf (table : Array Entry) (route : Route) :
    MergeOf table route (.of table (positionsOf table route)) where
  eq_of := rfl
  increasing := List.pairwise_lt_range.sublist List.filter_sublist
  entry := by
    intro i hi
    have hany := (List.mem_filter.1 hi).2
    cases he : table[i]? with
    | none => simp [he] at hany
    | some e => exact ⟨e, rfl, by simpa [he] using hany⟩

private theorem accepted_of_checks (hs : Sorted table) (hproper : AllProper table.toList)
    {checked narrowed : Merge} (hc : MergeOf table route checked)
    (hn : MergeOf table route narrowed) (hgood : 0 < narrowed.goodness)
    (hcaught : caught table origins narrowed = [])
    (hunshadowed : ∀ i ∈ checked.members, Unshadowed table checked i)
    (hnarrow : Narrowed table checked narrowed) : Accepted table origins route narrowed where
  merge := hn
  several := hgood
  catchesNothing := hcaught
  shadowsOwn := by
    intro i hi j hij hj hout e f he hf
    by_cases hjc : j ∈ checked.members
    · left
      obtain ⟨g, hg, hroute⟩ := hc.entry j hjc
      rw [hf] at hg
      cases hg
      exact hroute
    · right
      have hjpos : j < checked.position :=
        hc.lt_position_of_sublist hn hs hproper hnarrow.sublist
          (Merge.members_ne_nil hgood) hf hj
      exact hunshadowed i (hnarrow.sublist.subset hi) j hij hjpos hjc e f he hf
  alone := by
    intro j hout f hf hpattern i hi e he
    have hcover := hn.coveredBy hproper hi he
    have hjc : j ∉ checked.members := fun hjc => hnarrow.differs j hjc hout f hf hpattern
    have hjpos : j < narrowed.position := by
      rw [hn.lt_position_iff hs hf, hpattern]
    rcases Nat.lt_trichotomy i j with hij | rfl | hji
    · have hjpos' : j < checked.position :=
        hc.lt_position_of_sublist hn hs hproper hnarrow.sublist
          (Merge.members_ne_nil hgood) hf hjpos
      have hmiss := hunshadowed i (hnarrow.sublist.subset hi) j hij hjpos' hjc e f he hf
      have hhit : e.intersects f = true := by
        unfold Entry.intersects
        rw [hpattern]
        exact Pattern.intersects_of_coveredBy hcover
      rw [hmiss] at hhit
      cases hhit
    · exact absurd hi hout
    · have hle := hs.le hji hf he
      rw [hpattern] at hle
      exact Pattern.eq_of_coveredBy
        (hproper e (Array.mem_toList_iff.2 (Array.mem_of_getElem? he))) hcover hle

theorem refine_spec (hs : Sorted table) (hproper : AllProper table.toList)
    {minGoodness : Int} (hmin : 0 ≤ minGoodness) (hm : MergeOf table route m)
    (hgood : minGoodness < (refine table origins minGoodness m).goodness) :
    Accepted table origins route (refine table origins minGoodness m) := by
  unfold refine at hgood ⊢
  simp only at hgood ⊢
  generalize hdown : downCheck table origins minGoodness (m.members.length + 1) m = d
    at hgood ⊢
  by_cases hlow : d.goodness ≤ minGoodness
  · rw [if_pos hlow] at hgood
    omega
  rw [if_neg hlow] at hgood ⊢
  obtain ⟨hd, -, hdcaught⟩ := downCheck_spec origins minGoodness (m.members.length + 1) hproper hm
    (by rw [hdown]; omega)
  rw [hdown] at hd hdcaught
  have hreverse : d.members.reverse.Pairwise (· > ·) :=
    List.pairwise_reverse.2 hd.increasing
  generalize hup : upCheck table minGoodness d.members.reverse d = u at hgood ⊢
  have hugood : minGoodness < u.1.goodness := by
    by_contra hle
    have hneg : ¬ (u.2 = true ∧ u.1.goodness > minGoodness) := fun h => hle h.2
    rw [if_neg hneg] at hgood
    exact hle hgood
  obtain ⟨hu, hchecked⟩ := upCheck_spec minGoodness hs hproper hreverse hd
    (by rw [hup]; omega)
  rw [hup] at hu hchecked
  have hunshadowed : ∀ i ∈ u.1.members, Unshadowed table u.1 i := by
    intro i hi
    exact hchecked.unshadowed i (by simpa using hchecked.sublist.subset hi) hi
  by_cases hchanged : u.2 = true ∧ u.1.goodness > minGoodness
  · rw [if_pos hchanged] at hgood ⊢
    obtain ⟨hn, hnarrow, hncaught⟩ :=
      downCheck_spec origins minGoodness _ hproper hu (hmin.trans_lt hgood)
    exact accepted_of_checks hs hproper hu hn (hmin.trans_lt hgood) hncaught hunshadowed hnarrow
  · rw [if_neg hchanged] at hgood ⊢
    have hsame : u.1 = d := by
      rw [← hup]
      apply upCheck_unchanged
      rw [hup]
      simpa [hugood] using hchanged
    refine accepted_of_checks hs hproper hu hu (hmin.trans_lt hgood) (hsame ▸ hdcaught)
      hunshadowed ⟨List.Sublist.refl _, fun i hi hout => absurd hi hout⟩

theorem bestMerge_spec (hs : Sorted table) (hproper : AllProper table.toList)
    (hgood : 0 < (bestMerge table origins).goodness) :
    ∃ route, Accepted table origins route (bestMerge table origins) := by
  revert hgood
  unfold bestMerge
  refine List.foldlRecOn (motive := fun best => 0 < best.goodness →
    ∃ route, Accepted table origins route best) _ _ ?_ ?_
  · simp [Merge.goodness_empty]
  · intro best hbest route _ hpos
    simp only at hpos ⊢
    split at hpos
    · next hle =>
        rw [if_pos hle]
        exact hbest hpos
    · next hle =>
        rw [if_neg hle]
        split at hpos
        · next hgt =>
            rw [if_pos hgt]
            exact ⟨route, refine_spec hs hproper (le_max_right _ _)
              (mergeOf_positionsOf table route) hgt⟩
        · next hgt =>
            rw [if_neg hgt]
            exact hbest hpos

end

end MulticastMesh.Tables.OrderedCovering
