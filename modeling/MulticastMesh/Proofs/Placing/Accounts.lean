import Mathlib.Data.List.TakeWhile
import Mathlib.Data.Nat.ModEq
import MulticastMesh.Proofs.Placing.Pools
/-!
# No chip gets lost

A working chip is in use, among the restored chips, or still to come at the cursor, whatever the
pool goes through.  No chip stands on two of the first two lists, and none is in use twice, so the
pool can hand out no more chips than the machine has.
-/

namespace MulticastMesh.Placing

open Mesh (Coord Machine)

/-! ## The order of the cursor -/

theorem add_mod_inj {size turn x y : Nat} (hx : x < size) (hy : y < size)
    (h : (x + turn) % size = (y + turn) % size) : x = y :=
  (Nat.ModEq.add_right_cancel' turn h).eq_of_lt_of_lt hx hy

theorem exists_add_mod {size : Nat} (turn : Nat) {x : Nat} (hx : x < size) :
    ∃ y < size, (y + turn) % size = x := by
  have hpos : 0 < size := by omega
  refine ⟨(x + (size - turn % size)) % size, Nat.mod_lt _ hpos, ?_⟩
  have hturn := Nat.div_add_mod turn size
  have hlt := Nat.mod_lt turn hpos
  have hround : x + (size - turn % size) + turn = x + size * (turn / size + 1) := by
    rw [Nat.mul_add, Nat.mul_one]
    omega
  rw [Nat.mod_add_mod, hround, Nat.add_mul_mod_self_left, Nat.mod_eq_of_lt hx]

theorem nodup_cursorOrder (m : Machine) (start : Coord) :
    (ChipPool.cursorOrder m start).Nodup := by
  have hplaces : ((List.range m.width).flatMap fun x => (List.range m.height).map fun y =>
        (⟨(x + start.x) % m.width, (y + start.y) % m.height⟩ : Coord)) =
      ((List.range m.width).product (List.range m.height)).map fun place =>
        ⟨(place.1 + start.x) % m.width, (place.2 + start.y) % m.height⟩ := by
    simp [List.product, List.map_flatMap, Function.comp_def]
  unfold ChipPool.cursorOrder
  rw [hplaces]
  refine List.Nodup.filter _ (List.Nodup.map_on ?_ (List.nodup_range.product List.nodup_range))
  rintro ⟨x, y⟩ hplace ⟨x', y'⟩ hplace' heq
  simp only [List.pair_mem_product, List.mem_range] at hplace hplace'
  obtain ⟨hx, hy⟩ := Coord.mk.inj heq
  rw [add_mod_inj hplace.1 hplace'.1 hx, add_mod_inj hplace.2 hplace'.2 hy]

theorem mem_cursorOrder {m : Machine} {start c : Coord} :
    c ∈ ChipPool.cursorOrder m start ↔ (m.chip? c).isSome := by
  unfold ChipPool.cursorOrder
  simp only [List.mem_filter, List.mem_flatMap, List.mem_map, List.mem_range, and_iff_right_iff_imp]
  intro hc
  have hinside : m.grid.Contains c := by
    by_contra hout
    simp [Machine.chip?, hout] at hc
  obtain ⟨x, hx, hxc⟩ := exists_add_mod start.x hinside.1
  obtain ⟨y, hy, hyc⟩ := exists_add_mod start.y hinside.2
  exact ⟨x, hx, y, hy, congrArg₂ Coord.mk hxc hyc⟩

/-! ## Lists of chips without repetition -/

def addNew (chips more : List Coord) : List Coord :=
  more.foldl (fun chips c => if chips.contains c then chips else chips ++ [c]) chips

section

variable {chips more : List Coord} {c : Coord}

theorem mem_addNew : c ∈ addNew chips more ↔ c ∈ chips ∨ c ∈ more := by
  unfold addNew
  induction more generalizing chips with
  | nil => simp
  | cons d more ih =>
      rw [List.foldl_cons, ih, List.mem_cons]
      split
      · next hd =>
          have hd : d ∈ chips := by simpa using hd
          constructor
          · rintro (hc | hc)
            · exact Or.inl hc
            · exact Or.inr (Or.inr hc)
          · rintro (hc | rfl | hc)
            · exact Or.inl hc
            · exact Or.inl hd
            · exact Or.inr hc
      · rw [List.mem_append, List.mem_singleton, or_assoc]

theorem nodup_addNew (h : chips.Nodup) : (addNew chips more).Nodup := by
  unfold addNew
  induction more generalizing chips with
  | nil => exact h
  | cons d more ih =>
      rw [List.foldl_cons]
      split
      · exact ih h
      · next hd =>
          refine ih (h.append (List.nodup_singleton d) ?_)
          simpa using hd

end

namespace ChipPool

variable {pool pool' : ChipPool} {chip : Coord}

theorem abandon_saved (pool : ChipPool) :
    pool.abandon.saved = addNew pool.saved pool.handedOut := rfl

theorem restore_eq (pool : ChipPool) : pool.restore = { pool with
    used := pool.used.filter fun c => !pool.saved.contains c
    saved := []
    restored := addNew pool.restored pool.saved } := by
  suffices hgen : ∀ (l : List Coord) (q : ChipPool), l.foldl (fun (q : ChipPool) c => { q with
      used := q.used.filter fun d => d != c
      restored := if q.restored.contains c then q.restored else q.restored ++ [c] }) q =
      { q with
        used := q.used.filter fun c => !l.contains c
        restored := addNew q.restored l } from hgen pool.saved _
  intro l
  induction l with
  | nil => simp [addNew]
  | cons c l ih =>
      intro q
      rw [List.foldl_cons, ih]
      simp only [List.filter_filter, addNew, List.foldl_cons, List.contains_cons]
      congr 2
      funext d
      rw [Bool.not_or, Bool.and_comm]
      rfl

/-- A chip at the front is restored, or comes from the cursor once no restored chip is left. -/
theorem next?_cases (h : pool.next? = (some chip, pool')) :
    (∃ rest, pool.restored.dropWhile pool.isUsed = chip :: rest ∧
      pool' = { pool with restored := rest }) ∨
    (pool.restored.dropWhile pool.isUsed = [] ∧
      (pool.upcoming.dropWhile pool.isUsed).head? = some chip ∧
      pool' = { pool with
        restored := []
        upcoming := pool.upcoming.dropWhile pool.isUsed }) := by
  unfold next? at h
  split at h
  · next rest hrest =>
      cases h
      exact Or.inl ⟨rest, hrest, rfl⟩
  · next hnone =>
      obtain ⟨hhead, rfl⟩ := Prod.mk.inj h
      exact Or.inr ⟨hnone, hhead, rfl⟩

theorem next?_eq_none (h : pool.next?.1 = none) :
    pool.restored.dropWhile pool.isUsed = [] ∧ pool.upcoming.dropWhile pool.isUsed = [] := by
  unfold next? at h
  split at h
  · cases h
  · next hnone => exact ⟨hnone, List.head?_eq_none_iff.1 h⟩

/-- Chips that are passed over are in use. -/
theorem mem_used_or_mem_dropWhile {chips : List Coord} (h : chip ∈ chips) :
    chip ∈ pool.used ∨ chip ∈ chips.dropWhile pool.isUsed := by
  rw [← List.takeWhile_append_dropWhile (p := pool.isUsed) (l := chips)] at h
  rcases List.mem_append.1 h with hpassed | hleft
  · exact Or.inl (by simpa [isUsed] using List.mem_takeWhile_imp hpassed)
  · exact Or.inr hleft

end ChipPool

/-! ## What the pool accounts for -/

/-- A pool that has every working chip, and no chip in use or restored twice. -/
structure Accounted (m : Machine) (start : Coord) (pool : ChipPool) : Prop where
  tracked : Tracked pool
  working : ∀ c ∈ pool.used, (m.chip? c).isSome
  usedOnce : pool.used.Nodup
  restoredOnce : pool.restored.Nodup
  free : ∀ c ∈ pool.restored, c ∉ pool.used
  kept : ∀ c, (m.chip? c).isSome → c ∈ pool.used ∨ c ∈ pool.restored ∨ c ∈ pool.upcoming
  order : pool.upcoming <:+ ChipPool.cursorOrder m start

namespace Accounted

variable {m : Machine} {start chip : Coord} {pool pool' : ChipPool} {room : ChipRoom}

theorem ofMachine (m : Machine) (start : Coord) : Accounted m start (.ofMachine m start) where
  tracked := .ofMachine m start
  working := by simp [ChipPool.ofMachine]
  usedOnce := by simp [ChipPool.ofMachine]
  restoredOnce := by simp [ChipPool.ofMachine]
  free := by simp [ChipPool.ofMachine]
  kept := fun c hc => Or.inr (Or.inr (mem_cursorOrder.2 hc))
  order := List.suffix_rfl

theorem kept_dropWhile (h : Accounted m start pool) {c : Coord} (hc : (m.chip? c).isSome) :
    c ∈ pool.used ∨ c ∈ pool.restored.dropWhile pool.isUsed ∨
      c ∈ pool.upcoming.dropWhile pool.isUsed := by
  rcases h.kept c hc with hmem | hmem | hmem
  · exact Or.inl hmem
  · exact (ChipPool.mem_used_or_mem_dropWhile hmem).imp_right Or.inl
  · exact (ChipPool.mem_used_or_mem_dropWhile hmem).imp_right Or.inr

theorem take (h : Accounted m start pool) (hnext : pool.next? = (some chip, pool'))
    (hworks : (m.chip? chip).isSome) (hroom : room.chip = chip) :
    Accounted m start (({ pool' with used := chip :: pool'.used } : ChipPool).beginWith room) := by
  obtain ⟨hfree, hused, _⟩ := Tracked.not_mem_of_next? hnext
  have htracked := h.tracked.take hnext hroom
  have hworking : ∀ c ∈ chip :: pool.used, (m.chip? c).isSome :=
    List.forall_mem_cons.2 ⟨hworks, h.working⟩
  have honce : (chip :: pool.used).Nodup := List.nodup_cons.2 ⟨hfree, h.usedOnce⟩
  -- What was passed over in front of the chip is in use, so it is not lost.
  rcases ChipPool.next?_cases hnext with ⟨rest, hrest, rfl⟩ | ⟨hnone, hhead, rfl⟩
  · have hsub : (chip :: rest).Sublist pool.restored := hrest ▸ List.dropWhile_sublist _
    have hleft := h.restoredOnce.sublist hsub
    rw [List.nodup_cons] at hleft
    refine ⟨htracked, hworking, honce, hleft.2, ?_, ?_, h.order⟩
    · intro c hc hmem
      rcases List.mem_cons.1 hmem with rfl | hmem
      · exact hleft.1 hc
      · exact h.free c (hsub.subset (List.mem_cons_of_mem _ hc)) hmem
    · intro c hc
      rcases h.kept_dropWhile hc with hmem | hmem | hmem
      · exact Or.inl (List.mem_cons_of_mem _ hmem)
      · rw [hrest] at hmem
        rcases List.mem_cons.1 hmem with rfl | hmem
        · exact Or.inl List.mem_cons_self
        · exact Or.inr (Or.inl hmem)
      · exact Or.inr (Or.inr ((List.dropWhile_sublist _).subset hmem))
  · refine ⟨htracked, hworking, honce, List.nodup_nil, by simp [ChipPool.beginWith], ?_,
      (List.dropWhile_suffix _).trans h.order⟩
    intro c hc
    rcases h.kept_dropWhile hc with hmem | hmem | hmem
    · exact Or.inl (List.mem_cons_of_mem _ hmem)
    · rw [hnone] at hmem
      cases hmem
    · exact Or.inr (Or.inr hmem)

theorem continue_ (h : Accounted m start pool) (hroom : pool.current? = some room) :
    Accounted m start (pool.beginWith room) :=
  { h with tracked := h.tracked.continue_ hroom }

theorem moveTo (h : Accounted m start pool) (hfree : room.chip ∉ pool.used)
    (hworks : (m.chip? room.chip).isSome) : Accounted m start (pool.moveTo room) where
  tracked := h.tracked.moveTo hfree
  working := List.forall_mem_cons.2 ⟨hworks, h.working⟩
  usedOnce := List.nodup_cons.2 ⟨hfree, h.usedOnce⟩
  restoredOnce := h.restoredOnce.filter _
  free := by
    intro c hc hmem
    obtain ⟨hc, hne⟩ := List.mem_filter.1 hc
    rcases List.mem_cons.1 hmem with rfl | hmem
    · simp at hne
    · exact h.free c hc hmem
  kept := by
    intro c hc
    by_cases heq : c = room.chip
    · exact Or.inl (heq ▸ List.mem_cons_self)
    · rcases h.kept c hc with hmem | hmem | hmem
      · exact Or.inl (List.mem_cons_of_mem _ hmem)
      · exact Or.inr (Or.inl (List.mem_filter.2 ⟨hmem, by simpa using heq⟩))
      · exact Or.inr (Or.inr hmem)
  order := h.order

theorem refill (h : Accounted m start pool) {current? : Option ChipRoom}
    (hsame : ∀ r, current? = some r → ∃ r', pool.current? = some r' ∧ r'.chip = r.chip) :
    Accounted m start { pool with current? } :=
  { h with tracked := h.tracked.refill hsame }

theorem abandon (h : Accounted m start pool) : Accounted m start pool.abandon :=
  { h with tracked := h.tracked.abandon }

theorem finish (h : Accounted m start pool) : Accounted m start pool.finish :=
  { h with tracked := h.tracked.finish }

theorem restore (h : Accounted m start pool) (hidle : pool.handedOut = []) :
    Accounted m start pool.restore := by
  have htracked := (h.tracked.restore hidle).1
  rw [ChipPool.restore_eq] at htracked ⊢
  refine ⟨htracked, ?_, h.usedOnce.filter _, nodup_addNew h.restoredOnce, ?_, ?_, h.order⟩
  · intro c hc
    exact h.working c (List.mem_of_mem_filter hc)
  · intro c hc hmem
    obtain ⟨hused, hsaved⟩ := List.mem_filter.1 hmem
    rcases mem_addNew.1 hc with hc | hc
    · exact h.free c hc hused
    · simp [hc] at hsaved
  · intro c hc
    by_cases hsaved : c ∈ pool.saved
    · exact Or.inr (Or.inl (mem_addNew.2 (Or.inr hsaved)))
    · rcases h.kept c hc with hmem | hmem | hmem
      · exact Or.inl (List.mem_filter.2 ⟨hmem, by simpa using hsaved⟩)
      · exact Or.inr (Or.inl (mem_addNew.2 (Or.inl hmem)))
      · exact Or.inr (Or.inr hmem)

theorem next?_of_restored (h : Accounted m start pool) {rest : List Coord}
    (hrestored : pool.restored = chip :: rest) :
    pool.next? = (some chip, { pool with restored := rest }) := by
  have hfree : pool.isUsed chip = false := by
    simpa [ChipPool.isUsed] using h.free chip (by simp [hrestored])
  simp [ChipPool.next?, hrestored, hfree]

theorem mem_used_of_next?_eq_none (h : Accounted m start pool) (hnone : pool.next?.1 = none)
    {c : Coord} (hc : (m.chip? c).isSome) : c ∈ pool.used := by
  obtain ⟨hrestored, hupcoming⟩ := ChipPool.next?_eq_none hnone
  have hkept := h.kept_dropWhile hc
  rw [hrestored, hupcoming] at hkept
  simpa using hkept

end Accounted

end MulticastMesh.Placing
