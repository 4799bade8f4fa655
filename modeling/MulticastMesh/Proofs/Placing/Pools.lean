import MulticastMesh.Proofs.Placing.Rooms
/-!
# The pool keeps track of its chips

Chips that an attempt touches, saves or fills are in use, and the chip being filled is not among
those that go back on offer.  So a chip that the pool hands out holds nothing of the attempt under
way.
-/

namespace MulticastMesh.Placing

open Mesh (Coord Machine)
open Outcome

structure Tracked (pool : ChipPool) : Prop where
  saved : ∀ c ∈ pool.saved, c ∈ pool.used
  handedOut : ∀ c ∈ pool.handedOut, c ∈ pool.used
  current : ∀ room, pool.current? = some room → room.chip ∈ pool.used ∧ room.chip ∉ pool.saved

namespace Tracked

variable {pool pool' : ChipPool} {room : ChipRoom} {chip : Coord}

theorem ofMachine (m : Machine) (start : Coord) : Tracked (.ofMachine m start) where
  saved := by simp [ChipPool.ofMachine]
  handedOut := by simp [ChipPool.ofMachine]
  current := by simp [ChipPool.ofMachine]

theorem not_mem_of_next? (h : pool.next? = (some chip, pool')) :
    chip ∉ pool.used ∧ pool'.used = pool.used ∧ pool'.saved = pool.saved := by
  unfold ChipPool.next? at h
  split at h
  · next rest hrest =>
      cases h
      have hhead := List.head?_dropWhile_not pool.isUsed pool.restored
      rw [hrest] at hhead
      exact ⟨by simpa [ChipPool.isUsed] using hhead, rfl, rfl⟩
  · obtain ⟨hhead, rfl⟩ := Prod.mk.inj h
    have hnot := List.head?_dropWhile_not pool.isUsed pool.upcoming
    rw [hhead] at hnot
    exact ⟨by simpa [ChipPool.isUsed] using hnot, rfl, rfl⟩

theorem take (h : Tracked pool) (hnext : pool.next? = (some chip, pool'))
    (hroom : room.chip = chip) :
    Tracked (({ pool' with used := chip :: pool'.used } : ChipPool).beginWith room) := by
  obtain ⟨hfree, hused, hsaved⟩ := not_mem_of_next? hnext
  refine ⟨?_, ?_, ?_⟩
  · intro c hc
    simp only [ChipPool.beginWith, hsaved] at hc
    simp [ChipPool.beginWith, hused, h.saved c hc]
  · simp [ChipPool.beginWith, hroom]
  · intro r hr
    cases hr
    simp only [ChipPool.beginWith, hroom, hsaved]
    exact ⟨by simp, fun hmem => hfree (h.saved chip hmem)⟩

theorem continue_ (h : Tracked pool) (hroom : pool.current? = some room) :
    Tracked (pool.beginWith room) := by
  obtain ⟨hused, hsaved⟩ := h.current room hroom
  refine ⟨h.saved, ?_, ?_⟩
  · simp [ChipPool.beginWith, hused]
  · intro r hr
    cases hr
    exact ⟨hused, hsaved⟩

theorem moveTo (h : Tracked pool) (hroom : room.chip ∉ pool.used) :
    Tracked (pool.moveTo room) := by
  refine ⟨?_, ?_, ?_⟩
  · intro c hc
    exact List.mem_cons_of_mem _ (h.saved c hc)
  · intro c hc
    simp only [ChipPool.moveTo, List.mem_append, List.mem_singleton] at hc
    rcases hc with hc | rfl
    · exact List.mem_cons_of_mem _ (h.handedOut c hc)
    · exact List.mem_cons_self
  · intro r hr
    cases hr
    exact ⟨List.mem_cons_self, fun hmem => hroom (h.saved _ hmem)⟩

theorem refill (h : Tracked pool) {current? : Option ChipRoom}
    (hsame : ∀ r, current? = some r → ∃ r', pool.current? = some r' ∧ r'.chip = r.chip) :
    Tracked { pool with current? } where
  saved := h.saved
  handedOut := h.handedOut
  current := by
    intro r hr
    obtain ⟨r', hr', hchip⟩ := hsame r hr
    rw [← hchip]
    exact h.current r' hr'

private theorem mem_of_mem_saved (handedOut saved : List Coord) (c : Coord)
    (h : c ∈ handedOut.foldl
      (fun saved c => if saved.contains c then saved else saved ++ [c]) saved) :
    c ∈ handedOut ∨ c ∈ saved := by
  induction handedOut generalizing saved with
  | nil => exact Or.inr h
  | cons d handedOut ih =>
      rw [List.foldl_cons] at h
      rcases ih _ h with h | h
      · exact Or.inl (List.mem_cons_of_mem _ h)
      · split at h
        · exact Or.inr h
        · rcases List.mem_append.1 h with h | h
          · exact Or.inr h
          · exact Or.inl (by simp_all)

theorem abandon (h : Tracked pool) : Tracked pool.abandon where
  saved := by
    intro c hc
    rcases mem_of_mem_saved _ _ c hc with hc | hc
    · exact h.handedOut c hc
    · exact h.saved c hc
  handedOut := by simp [ChipPool.abandon]
  current := by simp [ChipPool.abandon]

theorem finish (h : Tracked pool) : Tracked pool.finish where
  saved := h.saved
  handedOut := by simp [ChipPool.finish]
  current := h.current

theorem restore (h : Tracked pool) (hidle : pool.handedOut = []) :
    Tracked pool.restore ∧ pool.restore.handedOut = [] ∧
      pool.restore.current? = pool.current? := by
  have hkept : pool.restore.saved = [] ∧ pool.restore.handedOut = [] ∧
      pool.restore.current? = pool.current? ∧
      ∀ room, pool.current? = some room → room.chip ∈ pool.restore.used := by
    unfold ChipPool.restore
    refine List.foldlRecOn (motive := fun q : ChipPool => q.saved = [] ∧ q.handedOut = [] ∧
      q.current? = pool.current? ∧ ∀ room, pool.current? = some room → room.chip ∈ q.used)
      pool.saved _ ?_ ?_
    · exact ⟨rfl, hidle, rfl, fun room hroom => (h.current room hroom).1⟩
    · rintro q ⟨hsaved, hhanded, hcurrent, hused⟩ c hc
      refine ⟨hsaved, hhanded, hcurrent, fun room hroom => List.mem_filter.2 ⟨hused room hroom, ?_⟩⟩
      rw [bne_iff_ne]
      rintro rfl
      exact (h.current room hroom).2 hc
  obtain ⟨hsaved, hhanded, hcurrent, hused⟩ := hkept
  refine ⟨⟨?_, ?_, ?_⟩, hhanded, hcurrent⟩
  · intro c hc
    rw [hsaved] at hc
    cases hc
  · intro c hc
    rw [hhanded] at hc
    cases hc
  · intro room hroom
    rw [hcurrent] at hroom
    rw [hsaved]
    exact ⟨hused room hroom, by simp⟩

end Tracked

theorem popUnused?_spec {m : Machine} {used : List Coord} {fuel : Nat} {f f' : Frontier}
    {chip : Coord} (h : f.popUnused? m used fuel = some (chip, f')) : chip ∉ used := by
  induction fuel generalizing f with
  | zero => cases h
  | succ fuel ih =>
      unfold Frontier.popUnused? at h
      split at h
      · cases h
      · split at h
        · exact ih h
        · next hfree =>
            cases h
            simpa using hfree

end MulticastMesh.Placing
