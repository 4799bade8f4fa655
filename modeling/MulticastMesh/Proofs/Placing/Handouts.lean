import MulticastMesh.Proofs.Placing.Runs
/-!
# No chip is handed out twice

While one vertex is placed, the chips that its attempts are given are all different: those of
abandoned attempts are saved and stay in use until the next vertex is taken up, and only chips that
are not in use are handed out.  So there are no more abandoned attempts than working chips.
-/

namespace MulticastMesh.Placing

open Mesh (Coord Machine)

def Control.UnderWay : Control → Prop
  | .place .. => True
  | _ => False

/-- What every step of a run keeps of the chips that were handed out. -/
structure Orderly (s : Setting) (start : Coord) (stage : Stage) : Prop where
  accounted : Accounted s.machine start stage.progress.pool
  once : (stage.failed.flatten ++ stage.given).Nodup
  saved : ∀ c ∈ stage.failed.flatten, c ∈ stage.progress.pool.saved
  tried : ∀ chips ∈ stage.failed, chips ≠ []
  underWay : stage.control.UnderWay →
    stage.given ≠ [] ∧ stage.progress.pool.handedOut = stage.given
  idle : ¬stage.control.UnderWay → stage.progress.pool.handedOut = []

namespace Orderly

variable {d : Mesh.MachineSpec} {s : Setting} {start : Coord} {stage stage' : Stage}

theorem initial (s : Setting) (start : Coord) : Orderly s start (.initial s start) where
  accounted := .ofMachine s.machine start
  once := List.nodup_nil
  saved := by simp [Stage.initial]
  tried := by simp [Stage.initial]
  underWay := False.elim
  idle := fun _ => rfl

/-- An attempt begins on a chip that no earlier attempt at the vertex was given. -/
theorem of_startPatch (hm : Machine.Fulfils d s.machine) (h : Orderly s start stage)
    {frontier : Frontier} {p : Progress} {room : ChipRoom}
    (hstart : s.startPatch stage.progress = .ok (frontier, p))
    (hroom : p.pool.current? = some room) :
    Accounted s.machine start p.pool ∧ p.pool.handedOut = [room.chip] ∧
      p.pool.saved = stage.progress.pool.saved ∧ room.chip ∉ stage.progress.pool.saved := by
  obtain ⟨_, room', _, _, hcurrent, hhanded, hcases⟩ := startPatch_cases hstart
  cases hroom.symm.trans hcurrent
  rcases hcases with ⟨hold, hpool⟩ | ⟨chip, pool, _, hnext, hroomOn, hpool⟩
  · rw [hpool]
    exact ⟨h.accounted.continue_ hold, rfl, rfl, (h.accounted.tracked.current room hold).2⟩
  · obtain ⟨hchip, hworks⟩ := roomOn_chip hm hroomOn
    obtain ⟨hfree, _, hsaved⟩ := Tracked.not_mem_of_next? hnext
    rw [hpool]
    refine ⟨h.accounted.take hnext hworks hchip, rfl, hsaved, ?_⟩
    rw [hchip]
    exact fun hmem => hfree (h.accounted.tracked.saved chip hmem)

theorem step (hm : Machine.Fulfils d s.machine) (h : Orderly s start stage)
    (hstep : Step s stage stage') : Orderly s start stage' := by
  have hplacing : ∀ {job patch left}, stage.control = .place job patch left →
      stage.given ≠ [] ∧ stage.progress.pool.handedOut = stage.given := by
    intro job patch left hcontrol
    exact h.underWay (hcontrol ▸ trivial)
  cases hstep with
  | takeUp hcontrol htodo hgroups =>
      have hidle := h.idle (hcontrol ▸ id)
      refine ⟨h.accounted.restore hidle, List.nodup_nil, by simp, by simp, False.elim, ?_⟩
      intro _
      rw [ChipPool.restore_eq]
      exact hidle
  | pass hcontrol =>
      exact { h with
        underWay := False.elim
        idle := fun _ => h.idle (hcontrol ▸ id) }
  | start hcontrol hgroups hstart hroom =>
      obtain ⟨haccounted, hhanded, hsaved, hnew⟩ := h.of_startPatch hm hstart hroom
      refine ⟨haccounted, ?_, ?_, h.tried, ?_, absurd trivial⟩
      · refine h.once.of_append_left.append (List.nodup_singleton _) ?_
        rw [List.disjoint_singleton]
        exact fun hmem => hnew (h.saved _ hmem)
      · rw [hsaved]
        exact h.saved
      · exact fun _ => ⟨by simp, hhanded⟩
  | skip hcontrol hplaced =>
      exact { h with
        underWay := fun _ => hplacing hcontrol
        idle := absurd trivial }
  | fix hcontrol hvertices hfixed =>
      obtain ⟨_, chip, made, _, _, _, _, rfl⟩ | ⟨hfalse, _⟩ := placeFixed_cases hfixed
      · exact { h with
          accounted := h.accounted.refill (takeFromCurrent_chip _ _ _ _)
          underWay := fun _ => hplacing hcontrol
          idle := absurd trivial }
      · cases hfalse
  | give hcontrol hloose hroom hgive =>
      obtain ⟨_, hchip, _⟩ := giveCores_spec hgive
      refine { h with
        accounted := h.accounted.refill ?_
        underWay := fun _ => hplacing hcontrol
        idle := absurd trivial }
      intro r hr
      cases hr
      exact ⟨_, hroom.1, hchip.symm⟩
  | grow hcontrol hloose hfull hgrow hroom =>
      obtain ⟨hnone, _⟩ | ⟨chip, rest, room', _, hpop, hroomOn, rfl⟩ := grow_cases hgrow
      · cases hnone
      have hfree := popUnused?_spec hpop
      cases hroom
      obtain ⟨rfl, hworks⟩ := roomOn_chip hm hroomOn
      obtain ⟨hgiven, hhanded⟩ := hplacing hcontrol
      have htracked := h.accounted.tracked
      refine ⟨h.accounted.moveTo hfree hworks, ?_, h.saved, h.tried, ?_, absurd trivial⟩
      · rw [← List.append_assoc]
        refine h.once.append (List.nodup_singleton _) ?_
        -- All chips that the vertex was given are in use, and this one is not.
        rw [List.disjoint_singleton, List.mem_append]
        rintro (hmem | hmem)
        · exact hfree (htracked.saved _ (h.saved _ hmem))
        · exact hfree (htracked.handedOut _ (hhanded ▸ hmem))
      · intro _
        exact ⟨by simp, congrArg (· ++ [_]) hhanded⟩
  | abandon hcontrol hloose hfull hgrow =>
      obtain ⟨_, rfl⟩ | ⟨_, _, _, hsome, _⟩ := grow_cases hgrow
      · obtain ⟨hgiven, hhanded⟩ := hplacing hcontrol
        refine ⟨h.accounted.abandon, ?_, ?_, ?_, False.elim, fun _ => rfl⟩
        · simpa using h.once
        · intro c hc
          -- The chips of the attempt are exactly those that are saved now.
          rw [ChipPool.abandon_saved, mem_addNew, hhanded]
          simp only [List.flatten_append, List.flatten_singleton, List.mem_append] at hc
          exact hc.imp_left (h.saved c)
        · rw [List.forall_mem_append, List.forall_mem_singleton]
          exact ⟨h.tried, hgiven⟩
      · cases hsome
  | again hcontrol hfits =>
      exact { h with
        underWay := False.elim
        idle := fun _ => h.idle (hcontrol ▸ id) }
  | commit hcontrol hadd =>
      exact { h with
        accounted := h.accounted.finish
        underWay := False.elim
        idle := fun _ => rfl }

theorem of_reached (hm : Machine.Fulfils d s.machine) (h : Reached s start stage) :
    Orderly s start stage := by
  induction h with
  | refl => exact initial s start
  | tail _ hstep ih => exact ih.step hm hstep

/-! ## How long a run can go on -/

theorem length_used_le (hm : Machine.Fulfils d s.machine) (h : Orderly s start stage) :
    stage.progress.pool.used.length ≤ s.machine.chipCount :=
  hm.length_le_chipCount h.accounted.usedOnce h.accounted.working

theorem length_failed_le (hm : Machine.Fulfils d s.machine) (h : Orderly s start stage) :
    stage.failed.length ≤ s.machine.chipCount := by
  have hworking : ∀ c ∈ stage.failed.flatten, (s.machine.chip? c).isSome := fun c hc =>
    h.accounted.working c (h.accounted.tracked.saved c (h.saved c hc))
  have hall := hm.length_le_chipCount h.once.of_append_left hworking
  rw [List.length_flatten] at hall
  refine le_trans ?_ hall
  have hsum := List.card_nsmul_le_sum (stage.failed.map List.length) 1 (by
    intro n hn
    obtain ⟨chips, hchips, rfl⟩ := List.mem_map.1 hn
    exact List.length_pos_iff.2 (h.tried chips hchips))
  simpa using hsum

/-! ## The next vertex -/

/-- Chips of abandoned attempts are no longer in use but restored when the next vertex is taken
up. -/
theorem restored_of_failed (h : Orderly s start stage) (hcontrol : stage.control = .next)
    (hstep : Step s stage stage') {c : Coord} (hc : c ∈ stage.failed.flatten) :
    c ∉ stage'.progress.pool.used ∧ c ∈ stage'.progress.pool.restored := by
  have hsaved := h.saved c hc
  cases hstep with
  | takeUp _ htodo hgroups =>
      simp only [ChipPool.restore_eq]
      exact ⟨by simp [hsaved], mem_addNew.2 (Or.inr hsaved)⟩
  | _ hother => cases hcontrol.symm.trans hother

end Orderly

end MulticastMesh.Placing
