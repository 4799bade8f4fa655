import Mathlib.Tactic.Ring
import MulticastMesh.Proofs.Keys.Allocation
/-!
# Lowest bases

The cursor never goes back to a gap that it left before a fixed range.  Where such a gap could hold
a later block, that block is not given the lowest base, or none at all.  Where no fixed range is
smaller than a block that smaller ones follow, the cursor only leaves gaps that are of no use, and
every block is given the lowest base that is left.
-/

namespace MulticastMesh.Keys

open MulticastMesh.Graph (AppVertexId ApplicationGraph EdgePartition MachineGraph MachineVertexId)
open Outcome

variable {app : ApplicationGraph} {g : MachineGraph} {a : Assignment} {r : BlockRequest}
  {reserved : List KeyRange} {grants : List Grant} {requests : List BlockRequest} {x : Grant}
  {cursor bits base n m : Nat} {fixed taken : List Pattern} {label identifier : String}

/-! ## Multiples of block sizes -/

def alignDown (n bits : Nat) : Nat := n / 2 ^ bits * 2 ^ bits

theorem dvd_alignDown (n bits : Nat) : 2 ^ bits ∣ alignDown n bits := Nat.dvd_mul_left _ _

theorem alignDown_le (n bits : Nat) : alignDown n bits ≤ n := Nat.div_mul_le_self _ _

theorem alignDown_of_dvd (h : 2 ^ bits ∣ n) : alignDown n bits = n := Nat.div_mul_cancel h

/-- No multiple of the block size lies between a number and what it is rounded down to. -/
theorem le_alignDown (hdvd : 2 ^ bits ∣ m) (hle : m ≤ n) : m ≤ alignDown n bits := by
  calc m = m / 2 ^ bits * 2 ^ bits := (Nat.div_mul_cancel hdvd).symm
    _ ≤ n / 2 ^ bits * 2 ^ bits := Nat.mul_le_mul_right _ (Nat.div_le_div_right hle)

theorem alignDown_add_le (hdvd : 2 ^ bits ∣ m) (hlt : n < m) :
    alignDown n bits + 2 ^ bits ≤ m := by
  obtain ⟨q, rfl⟩ := hdvd
  have hdiv : n / 2 ^ bits < q := Nat.div_lt_of_lt_mul hlt
  calc alignDown n bits + 2 ^ bits = (n / 2 ^ bits + 1) * 2 ^ bits := by
        unfold alignDown
        ring
    _ ≤ q * 2 ^ bits := Nat.mul_le_mul_right _ hdiv
    _ = 2 ^ bits * q := Nat.mul_comm _ _

/-! ## Gaps -/

def AllBlocks (fixed : List Pattern) : Prop :=
  ∀ p ∈ fixed, ∃ start, Aligned start p.generality ∧ p = blockAt start p.generality

/-- A size and a later one: no fixed range is smaller than a block that a smaller one follows. -/
def StepsDown (fixed : List Pattern) (size next : Nat) : Prop :=
  next ≤ size ∧ (next < size → ∀ p ∈ fixed, size ≤ p.generality)

/-- A gap that is too small for one block has no room for a block that follows it. -/
theorem usable_alignDown (hfixed : AllBlocks fixed) {size : Nat} (hstep : StepsDown fixed size bits)
    (h : Usable fixed bits n) (hle : alignDown n size + 2 ^ size ≤ 2 ^ 32) :
    Usable fixed size (alignDown n size) := by
  have haligned : Aligned (alignDown n size) size := ⟨dvd_alignDown n size, hle⟩
  rcases hstep.1.eq_or_lt with rfl | hlt
  · rwa [alignDown_of_dvd h.aligned.dvd]
  refine ⟨haligned, fun p hp => ?_⟩
  obtain ⟨start, hstart, hp'⟩ := hfixed p hp
  have hsize : 2 ^ size ∣ 2 ^ p.generality := pow_dvd_pow 2 (hstep.2 hlt p hp)
  have hdvd : 2 ^ size ∣ start := hsize.trans hstart.dvd
  have hapart := h.apart p hp
  have hpos : 0 < 2 ^ bits := by positivity
  rw [hp', hstart.apart_iff h.aligned] at hapart
  rw [hp', hstart.apart_iff haligned]
  rcases hapart with hends | hstarts
  · exact Or.inl (le_alignDown (Nat.dvd_add hdvd hsize) hends)
  · exact Or.inr (alignDown_add_le hdvd (by omega))

/-- No block of a size is usable below the cursor, which is a multiple of the size. -/
structure Passed (taken : List Pattern) (cursor bits : Nat) : Prop where
  dvd : 2 ^ bits ∣ cursor
  le : ∀ b, Usable taken bits b → cursor ≤ b

theorem Usable.of_append {more : List Pattern} (h : Usable (taken ++ more) bits base) :
    Usable taken bits base ∧ Usable more bits base :=
  ⟨⟨h.aligned, fun p hp => h.apart p (List.mem_append_left _ hp)⟩,
    ⟨h.aligned, fun p hp => h.apart p (List.mem_append_right _ hp)⟩⟩

theorem Passed.next {given : List Pattern} (hfixed : AllBlocks fixed)
    (hstep : StepsDown fixed x.width bits) (h : Passed (fixed ++ given) cursor bits)
    (hdvd : 2 ^ x.width ∣ cursor) (hleast : IsLeast (usableFrom fixed x.width cursor) x.base) :
    Passed (fixed ++ (given ++ [blockAt x.base x.width])) (x.base + 2 ^ x.width) bits := by
  obtain ⟨⟨_, husable⟩, hlower⟩ := hleast
  have hsize : 2 ^ bits ∣ 2 ^ x.width := pow_dvd_pow 2 hstep.1
  refine ⟨Nat.dvd_add (hsize.trans husable.aligned.dvd) hsize, fun b hb => ?_⟩
  rw [← List.append_assoc] at hb
  obtain ⟨hbefore, hblock⟩ := hb.of_append
  have hapart := hblock.apart _ (List.mem_singleton_self _)
  rw [husable.aligned.apart_iff hb.aligned] at hapart
  rcases hapart with hends | hstarts
  · exact hends
  · -- a block before `x` would have made room for `x` itself
    have hpos : 0 < 2 ^ bits := by positivity
    have hlt : b < x.base := by omega
    have hroom := alignDown_add_le husable.aligned.dvd hlt
    have hend : alignDown b x.width + 2 ^ x.width ≤ 2 ^ 32 :=
      hroom.trans ((Nat.le_add_right _ _).trans husable.aligned.le)
    have hdown := usable_alignDown hfixed hstep hbefore.of_append.1 hend
    have hcursor : cursor ≤ alignDown b x.width := le_alignDown hdvd (h.le b hbefore)
    have hmin : x.base ≤ alignDown b x.width := hlower ⟨hcursor, hdown⟩
    have := alignDown_le b x.width
    omega

def blocksOf (grants : List Grant) : List Pattern := grants.map fun x => blockAt x.base x.width

theorem cursorAfter_snoc : cursorAfter cursor (grants ++ [x]) = x.base + 2 ^ x.width := by
  unfold cursorAfter
  rw [List.foldl_append]
  rfl

/-- Blocks that come down in size leave nothing usable below the cursor. -/
theorem FromCursor.passed (hfixed : AllBlocks fixed) (h : FromCursor fixed 0 grants)
    (hdown : grants.Pairwise fun x y => StepsDown fixed x.width y.width)
    (hbits : ∀ x ∈ grants, StepsDown fixed x.width bits) :
    Passed (fixed ++ blocksOf grants) (cursorAfter 0 grants) bits := by
  induction grants using List.reverseRecOn generalizing bits with
  | nil => exact ⟨Nat.dvd_zero _, fun _ _ => Nat.zero_le _⟩
  | append_singleton grants x ih =>
      obtain ⟨hbefore, _, _, hleast, _⟩ := fromCursor_append.1 h
      rw [List.pairwise_append] at hdown
      obtain ⟨hdown, _, hlast⟩ := hdown
      have hx : StepsDown fixed x.width bits := hbits x (by simp)
      have hpassed := ih hbefore hdown fun y hy => hbits y (by simp [hy])
      have hsize := ih hbefore hdown fun y hy => hlast y hy x (by simp)
      rw [cursorAfter_snoc, blocksOf, List.map_append]
      exact hpassed.next hfixed hx hsize.dvd hleast

theorem FromCursor.le_cursorAfter (h : FromCursor fixed cursor grants) :
    cursor ≤ cursorAfter cursor grants ∧
      ∀ x ∈ grants, x.base + 2 ^ x.width ≤ cursorAfter cursor grants := by
  induction grants generalizing cursor with
  | nil => exact ⟨le_rfl, by simp⟩
  | cons x grants ih =>
      obtain ⟨_, _, ⟨⟨hle, _⟩, _⟩, hrest⟩ := h
      obtain ⟨hcursor, hall⟩ := ih hrest
      exact ⟨hle.trans ((Nat.le_add_right _ _).trans hcursor),
        List.forall_mem_cons.2 ⟨hcursor, hall⟩⟩

/-- Each block is at the lowest base that is aligned and free of fixed ranges and of the blocks
given before. -/
def LowestBases (fixed : List Pattern) (grants : List Grant) : Prop :=
  ∀ before x after, grants = before ++ x :: after →
    IsLeast {b | Usable (fixed ++ blocksOf before) x.width b} x.base

theorem FromCursor.lowestBases (hfixed : AllBlocks fixed) (h : FromCursor fixed 0 grants)
    (hdown : grants.Pairwise fun x y => StepsDown fixed x.width y.width) :
    LowestBases fixed grants := by
  rintro before x after rfl
  obtain ⟨hbefore, _, _, ⟨⟨hle, husable⟩, hlower⟩, _⟩ := fromCursor_append.1 h
  rw [List.pairwise_append] at hdown
  obtain ⟨hdown, _, hx⟩ := hdown
  have hpassed := hbefore.passed hfixed hdown fun y hy => hx y hy x (by simp)
  refine ⟨⟨husable.aligned, fun p hp => ?_⟩, ?_⟩
  · rcases List.mem_append.1 hp with hp | hp
    · exact husable.apart p hp
    · obtain ⟨y, hy, rfl⟩ := List.mem_map.1 hp
      obtain ⟨hy', _⟩ := hbefore.forall y hy
      rw [hy'.aligned.apart_iff husable.aligned]
      exact Or.inl ((hbefore.le_cursorAfter.2 y hy).trans hle)
  · intro b hb
    exact hlower ⟨hpassed.le b hb, hb.of_append.1⟩

/-! ## Running out of keys -/

def Spares {α : Type} (x : Except KeyError α) : Prop :=
  ∀ label identifier bits, x ≠ .error (.spaceExhausted label identifier bits)

theorem Spares.ok {α : Type} (v : α) : Spares (.ok v) := nofun

theorem Spares.bind {α β : Type} {x : Except KeyError α} {f : α → Except KeyError β}
    (hx : Spares x) (hf : ∀ v, Spares (f v)) : Spares (x >>= f) := by
  intro label identifier bits h
  rcases bind_eq_error.1 h with hfails | ⟨v, _, hfails⟩
  · exact hx label identifier bits hfails
  · exact hf v label identifier bits hfails

theorem Spares.foldlM {α β : Type} {f : β → α → Except KeyError β} (hf : ∀ b v, Spares (f b v))
    (l : List α) (b : β) : Spares (l.foldlM f b) := by
  induction l generalizing b with
  | nil => exact Spares.ok b
  | cons v l ih =>
      rw [List.foldlM_cons]
      exact (hf b v).bind ih

theorem spares_ofPattern (p : Pattern) : Spares (KeyRange.ofPattern p) := by
  intro label identifier bits h
  unfold KeyRange.ofPattern at h
  split at h
  · cases h
  · cases h

theorem spares_assignBlock (a : Assignment) (r : BlockRequest) (base : Key) :
    Spares (assignBlock a r base) := by
  unfold assignBlock
  refine Spares.bind (Spares.foldlM (fun _ _ => ?_) _ _) fun b => ?_
  · exact (spares_ofPattern _).bind fun _ => Spares.ok _
  · split
    · exact Spares.ok _
    · simp only
      split
      · exact Spares.ok _
      · exact (spares_ofPattern _).bind fun _ => Spares.ok _

theorem spares_reserveFixed (a : Assignment) (items : List (KeyRange × BlockRequest))
    (requests : List BlockRequest) : Spares (reserveFixed a items requests) := by
  induction requests generalizing a items with
  | nil => exact Spares.ok _
  | cons r rest ih =>
      intro label identifier bits h
      unfold reserveFixed at h
      cases hfixed : r.fixed? with
      | none =>
          simp only [hfixed] at h
          exact ih a items label identifier bits h
      | some range =>
          simp only [hfixed] at h
          split at h
          · cases h
          · split at h
            · cases h
            · exact (spares_assignBlock _ _ _).bind (fun b => ih b _) label identifier bits h

def NotExhausted (c : Cause) : Prop :=
  ∀ label identifier bits, c ≠ .keys (.spaceExhausted label identifier bits)

theorem requestOfApp_spares (id : AppVertexId) :
    FailsOnly NotExhausted (requestOfApp app g id identifier) := by
  have hgraph : ∀ {α : Type} (x : Except Graph.GraphError α),
      FailsOnly NotExhausted (liftM x : Outcome α) := fun _ => FailsOnly.lift fun _ _ => nofun
  refine (hgraph _).bind fun vertex _ => ?_
  refine FailsOnly.bind (FailsOnly.mapM fun id _ => ?_) fun atoms _ => ?_
  · exact (hgraph _).bind fun _ _ => FailsOnly.pure _
  · split
    · exact FailsOnly.bind (FailsOnly.pure _) fun _ _ => FailsOnly.pure _
    · refine FailsOnly.bind (FailsOnly.during ?_) fun _ _ => FailsOnly.pure _
      refine FailsOnly.bind (FailsOnly.lift fun e he => ?_) fun _ _ => FailsOnly.pure _
      intro label identifier bits heq
      cases heq
      exact spares_ofPattern _ _ _ _ he

theorem blockRequests_spares : FailsOnly NotExhausted (blockRequests app g) := by
  refine FailsOnly.bind ?_ fun _ _ => FailsOnly.pure _
  refine FailsOnly.foldlM (motive := fun _ _ => True) trivial ?_
  intro before p after _ requests _
  refine ⟨?_, fun _ _ => trivial⟩
  refine FailsOnly.bind (FailsOnly.lift fun _ _ => nofun) fun v _ => ?_
  simp only
  split
  · exact FailsOnly.pure _
  · split
    · exact (requestOfApp_spares _).bind fun _ _ => FailsOnly.pure _
    · exact FailsOnly.pure _

/-- Free blocks run out of keys where nothing usable is left from the cursor on. -/
theorem assignFree_eq_exhausted (hblocks : ∀ range ∈ reserved, IsBlock range)
    (hnone : ∀ r ∈ requests, r.fixed? = none)
    (hrun : assignFree reserved a cursor requests =
      .error (.spaceExhausted label identifier bits)) :
    ∃ (grants : List Grant) (r : BlockRequest) (rest : List BlockRequest),
      requests = grants.map Grant.request ++ r :: rest ∧
      FromCursor (reserved.map KeyRange.pattern) cursor grants ∧
      (r.label = label ∧ r.identifier = identifier ∧ r.bits = bits) ∧
      usableFrom (reserved.map KeyRange.pattern) bits (cursorAfter cursor grants) = ∅ := by
  induction requests generalizing a cursor with
  | nil => cases hrun
  | cons r rest ih =>
      obtain ⟨hr, hrest⟩ := List.forall_mem_cons.1 hnone
      rcases assignFree_cons hblocks a cursor r rest with ⟨base, hleast, hstep⟩ | ⟨hempty, hstep⟩
      · rcases bind_eq_error.1 (hstep.symm.trans hrun) with hfails | ⟨b, hb, hrun⟩
        · exact absurd hfails (spares_assignBlock _ _ _ _ _ _)
        · obtain ⟨grants, s, rest', rfl, hfrom, hnames, hempty⟩ := ih hrest hrun
          exact ⟨⟨r, base, r.bits⟩ :: grants, s, rest', rfl, ⟨hr, rfl, hleast, hfrom⟩, hnames,
            hempty⟩
      · cases hstep.symm.trans hrun
        exact ⟨[], r, rest, rfl, trivial, ⟨rfl, rfl, rfl⟩, hempty⟩

def fixedPatterns (requests : List BlockRequest) : List Pattern :=
  (fixedRanges requests).map KeyRange.pattern

theorem allocate_eq_exhausted {f : Failure} (h : allocate app g = .error f)
    (hf : f.cause = .keys (.spaceExhausted label identifier bits)) :
    ∃ requests grants r rest, blockRequests app g = .ok requests ∧
      Reservable (fixedItems requests) ∧
      freeRequests requests = grants.map Grant.request ++ r :: rest ∧
      FromCursor (fixedPatterns requests) 0 grants ∧
      (r.label = label ∧ r.identifier = identifier ∧ r.bits = bits) ∧
      usableFrom (fixedPatterns requests) bits (cursorAfter 0 grants) = ∅ := by
  rcases bind_eq_error.1 h with hfails | ⟨requests, hrequests, h⟩
  · exact absurd hf (blockRequests_spares f hfails _ _ _)
  rcases bind_eq_error.1 h with hfails | ⟨⟨b, items⟩, hreserve, h⟩
  · obtain ⟨e, he, rfl⟩ := lift_eq_error.1 hfails
    cases hf
    exact absurd he (spares_reserveFixed _ _ _ _ _ _)
  obtain ⟨hitems, hreservable, _⟩ := reserveFixed_eq_ok reservable_nil (lift_eq_ok.1 hreserve)
  rw [List.nil_append] at hitems
  subst hitems
  obtain ⟨e, he, rfl⟩ := lift_eq_error.1 h
  cases hf
  obtain ⟨grants, r, rest, hsplit, hfrom, hnames, hempty⟩ :=
    assignFree_eq_exhausted hreservable.isBlock (fun r hr => (mem_freeRequests.1 hr).2) he
  exact ⟨requests, grants, r, rest, hrequests, hreservable, hsplit, hfrom, hnames, hempty⟩

/-! ## All blocks without fixed ranges -/

/-- The requests without fixed ranges, largest first and otherwise in the order of the graph. -/
structure LargestFirst (requests sorted : List BlockRequest) : Prop where
  perm : sorted.Perm (requests.filter fun r => r.fixed?.isNone)
  descending : sorted.Pairwise fun r s => s.bits ≤ r.bits
  stable : ∀ l : List BlockRequest, l.Pairwise (fun r s => s.bits ≤ r.bits) →
    l.Sublist (requests.filter fun r => r.fixed?.isNone) → l.Sublist sorted

theorem largestFirst_freeRequests (requests : List BlockRequest) :
    LargestFirst requests (freeRequests requests) where
  perm := List.mergeSort_perm _ _
  descending := by
    have hsorted : (freeRequests requests).Pairwise fun r s => decide (s.bits ≤ r.bits) = true :=
      List.pairwise_mergeSort (by intro r s t; simp only [decide_eq_true_eq]; omega)
        (by intro r s; simp only [Bool.or_eq_true, decide_eq_true_eq]; omega) _
    exact hsorted.imp fun h => by simpa using h
  stable := by
    intro l hl hsub
    exact List.sublist_mergeSort (by intro r s t; simp only [decide_eq_true_eq]; omega)
      (by intro r s; simp only [Bool.or_eq_true, decide_eq_true_eq]; omega)
      (hl.imp fun h => by simpa using h) hsub

/-- No fixed range is smaller than a block that smaller ones follow. -/
def Graded (requests : List BlockRequest) : Prop :=
  ∀ p ∈ fixedPatterns requests, ∀ r ∈ requests, ∀ s ∈ requests, r.fixed? = none →
    s.fixed? = none → s.bits < r.bits → r.bits ≤ p.generality

instance (requests : List BlockRequest) : Decidable (Graded requests) :=
  inferInstanceAs (Decidable (∀ p ∈ fixedPatterns requests, ∀ r ∈ requests, ∀ s ∈ requests,
    _ → _ → _ → _))

theorem Graded.stepsDown (h : Graded requests) : (freeRequests requests).Pairwise fun r s =>
    StepsDown (fixedPatterns requests) r.bits s.bits := by
  refine List.Pairwise.imp_of_mem ?_ (largestFirst_freeRequests requests).descending
  intro r s hr hs hle
  obtain ⟨hr, hrnone⟩ := mem_freeRequests.1 hr
  obtain ⟨hs, hsnone⟩ := mem_freeRequests.1 hs
  exact ⟨hle, fun hlt p hp => h p hp r hr s hs hrnone hsnone hlt⟩

theorem FromCursor.stepsDown (h : FromCursor fixed cursor grants)
    (hdown : (grants.map Grant.request).Pairwise fun r s => StepsDown fixed r.bits s.bits) :
    grants.Pairwise fun x y => StepsDown fixed x.width y.width := by
  rw [List.pairwise_map] at hdown
  refine List.Pairwise.imp_of_mem ?_ hdown
  intro x y hx hy hstep
  rwa [(h.forall x hx).2.1, (h.forall y hy).2.1]

theorem Reservable.allBlocks (h : Reservable (fixedItems requests)) :
    AllBlocks (fixedPatterns requests) := by
  intro p hp
  obtain ⟨range, hrange, rfl⟩ := List.mem_map.1 hp
  have hblock := h.isBlock range hrange
  exact ⟨_, hblock.aligned, hblock.pattern_eq⟩

/-- The blocks without fixed ranges are given largest first, each at the lowest base that is left,
and keys run out for a block only where no base is left. -/
structure GivesLowest (app : ApplicationGraph) (g : MachineGraph) : Prop where
  given : ∀ a, allocate app g = .ok a → ∃ requests grants, blockRequests app g = .ok requests ∧
    LargestFirst requests (grants.map Grant.request) ∧
    (∀ x ∈ grants, x.width = x.request.bits ∧ Carries a x) ∧
    LowestBases (fixedPatterns requests) grants
  exhausted : ∀ f label identifier bits, allocate app g = .error f →
    f.cause = .keys (.spaceExhausted label identifier bits) →
    ∃ requests grants r rest, blockRequests app g = .ok requests ∧
      LargestFirst requests (grants.map Grant.request ++ r :: rest) ∧
      (∀ x ∈ grants, x.width = x.request.bits) ∧
      LowestBases (fixedPatterns requests) grants ∧
      (r.label = label ∧ r.identifier = identifier ∧ r.bits = bits) ∧
      ∀ base, ¬ Usable (fixedPatterns requests ++ blocksOf grants) bits base

/-- Where a fixed range may be smaller than a block that smaller ones follow, the cursor can leave
usable bases behind. -/
theorem allocate_givesLowest
    (hgraded : ∀ requests, blockRequests app g = .ok requests → Graded requests) :
    GivesLowest app g where
  given := by
    intro a h
    obtain ⟨requests, grants, hrequests, hhanded, hassign⟩ := allocate_handed h
    have hdown := (hgraded requests hrequests).stepsDown
    rw [← hhanded.requests_eq] at hdown
    have hsorted := largestFirst_freeRequests requests
    rw [← hhanded.requests_eq] at hsorted
    have hsent := (blockRequests_attributed hrequests).perm hhanded.perm
    have hgranted := hhanded.granted hassign
    refine ⟨requests, grants, hrequests, hsorted, fun x hx => ⟨?_, ?_⟩, ?_⟩
    · exact (hhanded.fromCursor.forall x hx).2.1
    · exact hgranted.carries hsent (List.mem_append_right _ hx)
    · exact hhanded.fromCursor.lowestBases hhanded.reservable.allBlocks
        (hhanded.fromCursor.stepsDown hdown)
  exhausted := by
    intro f label identifier bits h hf
    obtain ⟨requests, grants, r, rest, hrequests, hreservable, hsplit, hfrom, hnames, hempty⟩ :=
      allocate_eq_exhausted h hf
    have hdown := (hgraded requests hrequests).stepsDown
    have hsorted := largestFirst_freeRequests requests
    rw [hsplit] at hdown hsorted
    rw [List.pairwise_append] at hdown
    obtain ⟨hdown, _, hlast⟩ := hdown
    have hgrants := hfrom.stepsDown hdown
    have hstep : ∀ x ∈ grants, StepsDown (fixedPatterns requests) x.width bits := by
      intro x hx
      rw [(hfrom.forall x hx).2.1, ← hnames.2.2]
      exact hlast x.request (List.mem_map_of_mem hx) r (by simp)
    refine ⟨requests, grants, r, rest, hrequests, hsorted,
      fun x hx => (hfrom.forall x hx).2.1, hfrom.lowestBases hreservable.allBlocks hgrants, hnames,
      fun base husable => ?_⟩
    have hcursor := (hfrom.passed hreservable.allBlocks hgrants hstep).le base husable
    have hmem : base ∈ usableFrom (fixedPatterns requests) bits (cursorAfter 0 grants) :=
      ⟨hcursor, husable.of_append.1⟩
    rw [hempty] at hmem
    exact hmem

/-! ## Stacked blocks -/

/-- A vertex with a range from key zero on, a vertex of two atoms and a vertex of one. -/
def stackedApp (range : KeyRange) : ApplicationGraph where
  vertices := #[
    { label := "fixed", atoms := 1, constraints := [.fixedKeyAndMask range.key range.mask none] },
    { label := "pair", atoms := 2 },
    { label := "single", atoms := 1 }]

def stackedGraph : MachineGraph where
  code := 0
  vertices := #[
    ⟨"fixed", some ⟨0⟩, 0, .ofLength 0 1, ⟨1, 0, 0⟩, none⟩,
    ⟨"pair", some ⟨1⟩, 0, .ofLength 0 2, ⟨1, 0, 0⟩, none⟩,
    ⟨"single", some ⟨2⟩, 0, .ofLength 0 1, ⟨1, 0, 0⟩, none⟩]
  byApp := #[[⟨0⟩], [⟨1⟩], [⟨2⟩]]
  partitions := #[
    ⟨⟨0⟩, "spikes", .multicast, [⟨⟨0⟩, ⟨0⟩⟩], some 0⟩,
    ⟨⟨1⟩, "spikes", .multicast, [⟨⟨1⟩, ⟨0⟩⟩], some 0⟩,
    ⟨⟨2⟩, "spikes", .multicast, [⟨⟨2⟩, ⟨0⟩⟩], some 0⟩]
  outgoing := #[[0], [1], [2]]

def pairRequest : BlockRequest :=
  ⟨.application ⟨1⟩, "pair", "spikes", [(0, ⟨1⟩)], 1, 1, 0, none⟩

def singleRequest : BlockRequest :=
  ⟨.application ⟨2⟩, "single", "spikes", [(0, ⟨2⟩)], 1, 0, 0, none⟩

def stackedRequests (range : KeyRange) : List BlockRequest :=
  [⟨.application ⟨0⟩, "fixed", "spikes", [(0, ⟨0⟩)], 1, 0, 0, some range⟩, pairRequest,
    singleRequest]

def onlyZero : KeyRange := ⟨⟨0, 0xffffffff⟩, by decide⟩

def zeroAndOne : KeyRange := ⟨⟨0, 0xfffffffe⟩, by decide⟩

def stacked (range : KeyRange) : Except KeyError Assignment := do
  let (a, reserved) ← reserveFixed .empty [] (stackedRequests range)
  assignFree (reserved.map Prod.fst) a 0 [pairRequest, singleRequest]

theorem allocate_stacked {range : KeyRange} (h : blockRequests (stackedApp range) stackedGraph =
    .ok (stackedRequests range)) :
    allocate (stackedApp range) stackedGraph = Outcome.lift .keys (stacked range) :=
  allocate_of_descending h
    (by simp [stackedRequests, pairRequest, singleRequest, BlockRequest.bits])

theorem allocate_givesLowest_stacked :
    (∀ requests, blockRequests (stackedApp zeroAndOne) stackedGraph = .ok requests →
      Graded requests) ∧
    (∃ a, allocate (stackedApp zeroAndOne) stackedGraph = .ok a) ∧
    GivesLowest (stackedApp zeroAndOne) stackedGraph := by
  have hrequests : blockRequests (stackedApp zeroAndOne) stackedGraph =
      .ok (stackedRequests zeroAndOne) := by decide +kernel
  have hgraded : ∀ requests, blockRequests (stackedApp zeroAndOne) stackedGraph = .ok requests →
      Graded requests := by
    intro requests h
    cases hrequests.symm.trans h
    decide
  obtain ⟨a, ha⟩ := exists_of_isOk
    (show (stacked zeroAndOne).isOk = true by decide +kernel)
  refine ⟨hgraded, ⟨a, ?_⟩, allocate_givesLowest hgraded⟩
  rw [allocate_stacked hrequests]
  exact lift_eq_ok.2 ha

theorem Carries.base_eq (h : Carries a x) (hx : Aligned x.base x.width) (id : MachineVertexId)
    (key : Key) (hsender : (0, id) ∈ x.request.senders)
    (hkey : (a.keys? id x.request.identifier).map (fun k => k.range.key) = some key) :
    x.base = key.toNat := by
  obtain ⟨k, hk, _, hpattern⟩ := h.keys 0 id hsender
  rw [hk, Option.map_some, Option.some.injEq] at hkey
  have hshift : shiftUp (BitVec.ofNat 32 0) x.request.atomBits = 0 := by simp [shiftUp]
  have hbase : key = BitVec.ofNat 32 x.base := by
    calc key = (x.slicePattern 0).key := by rw [← hkey, ← hpattern]; rfl
      _ = BitVec.ofNat 32 x.base := by simp [Grant.slicePattern, hshift]
  rw [hbase, hx.toNat_start]

theorem LowestBases.aligned (h : LowestBases fixed grants) (hx : x ∈ grants) :
    Aligned x.base x.width := by
  obtain ⟨before, after, hsplit⟩ := List.append_of_mem hx
  exact (h before x after hsplit).1.aligned

/-- Between the range of one key and the pair, a key is left that the single vertex could have. -/
theorem allocate_leaves_gap : ¬ GivesLowest (stackedApp onlyZero) stackedGraph := by
  intro h
  have hrequests : blockRequests (stackedApp onlyZero) stackedGraph =
      .ok (stackedRequests onlyZero) := by decide +kernel
  obtain ⟨a, ha⟩ := exists_of_isOk (show (stacked onlyZero).isOk = true by decide +kernel)
  have hkey : ∀ id key, (stacked onlyZero).toOption.bind (fun a =>
      (a.keys? id "spikes").map fun k => k.range.key) = some key →
      (a.keys? id "spikes").map (fun k => k.range.key) = some key := by
    intro id key hkey
    rwa [ha] at hkey
  have hrun : allocate (stackedApp onlyZero) stackedGraph = .ok a := by
    rw [allocate_stacked hrequests]
    exact lift_eq_ok.2 ha
  obtain ⟨requests, grants, hrequests', hfirst, hcarries, hlowest⟩ := h.given a hrun
  cases hrequests.symm.trans hrequests'
  have hmem : ∀ r, r ∈ grants.map Grant.request ↔ r = pairRequest ∨ r = singleRequest := by
    intro r
    rw [hfirst.perm.mem_iff]
    simp [stackedRequests, pairRequest, singleRequest]
  have hbase : ∀ x ∈ grants, x.request = pairRequest ∧ x.base = 2 ∨
      x.request = singleRequest ∧ x.base = 4 := by
    intro x hx
    have hplaced := (hcarries x hx).2.base_eq (hlowest.aligned hx)
    rcases (hmem x.request).1 (List.mem_map_of_mem hx) with hr | hr
    · rw [hr] at hplaced
      exact Or.inl ⟨hr, hplaced ⟨1⟩ 2 (by decide) (hkey _ _ (by decide +kernel))⟩
    · rw [hr] at hplaced
      exact Or.inr ⟨hr, hplaced ⟨2⟩ 4 (by decide) (hkey _ _ (by decide +kernel))⟩
  obtain ⟨x, hx, hr⟩ := List.mem_map.1 ((hmem singleRequest).2 (Or.inr rfl))
  have hwidth : x.width = 0 := by
    rw [(hcarries x hx).1, hr]
    rfl
  obtain ⟨before, after, rfl⟩ := List.append_of_mem hx
  have hone : Aligned 1 0 := ⟨by decide, by decide⟩
  have hzero : Aligned 0 0 := ⟨by decide, by decide⟩
  have hfixed : fixedPatterns (stackedRequests onlyZero) = [blockAt 0 0] := by decide
  have hgap : Usable (fixedPatterns (stackedRequests onlyZero) ++ blocksOf before) x.width 1 := by
    rw [hwidth, hfixed]
    refine ⟨hone, fun p hp => ?_⟩
    rcases List.mem_cons.1 hp with rfl | hp
    · rw [hzero.apart_iff hone]
      decide
    · obtain ⟨y, hy, rfl⟩ := List.mem_map.1 hp
      have hy : y ∈ before ++ x :: after := List.mem_append_left _ hy
      rw [(hlowest.aligned hy).apart_iff hone]
      rcases hbase y hy with ⟨_, hy⟩ | ⟨_, hy⟩ <;> omega
  have hle := (hlowest before x after rfl).2 hgap
  rcases hbase x hx with ⟨hr', _⟩ | ⟨_, hx⟩
  · rw [hr] at hr'
    exact absurd hr' (by decide)
  · omega

end MulticastMesh.Keys
