import MulticastMesh.Placing.Frontier
/-!
# Frontiers return what was queued

Whatever chips are queued, and however often a chip is taken out in between, a frontier holds no
chip twice, returns each chip once for every time that it was queued, turns to another board only
when nothing of the current one is left, and returns the chips of a board in the order in which
they were queued.
-/

namespace MulticastMesh.Placing

open Mesh (Coord Machine)

def boardOf? (m : Machine) (chip : Coord) : Option Coord :=
  (m.chip? chip).map fun c => c.ethernet

def onBoard (m : Machine) (board chip : Coord) : Bool := boardOf? m chip == some board

theorem onBoard_iff {m : Machine} {board chip : Coord} :
    onBoard m board chip = true ↔ boardOf? m chip = some board := by
  simp [onBoard]

namespace Frontier

variable {m : Machine} {f f' : Frontier} {chip board c : Coord}

/-- The queued chips, those of the current board first. -/
def chips (f : Frontier) : List Coord := f.sameBoard ++ f.otherBoards

theorem contains_iff : f.contains chip = true ↔ chip ∈ f.chips := by
  simp [contains, chips]

theorem size_eq (f : Frontier) : f.size = f.chips.length := by
  simp [size, chips]

/-! ## The two queues -/

/-- No chip is queued twice, and the two queues hold chips of the current board and of others. -/
structure Parted (m : Machine) (f : Frontier) : Prop where
  distinct : f.chips.Nodup
  near : ∀ c ∈ f.sameBoard, boardOf? m c = some f.board
  far : ∀ c ∈ f.otherBoards, ∃ board, boardOf? m c = some board ∧ board ≠ f.board

theorem parted_new (m : Machine) (board : Coord) : Parted m { board } where
  distinct := List.nodup_nil
  near := by simp
  far := by simp

theorem Parted.filter_near (h : Parted m f) :
    f.otherBoards.filter (onBoard m f.board) = [] := by
  rw [List.filter_eq_nil_iff]
  intro c hc hnear
  obtain ⟨board, hboard, hne⟩ := h.far c hc
  rw [onBoard_iff, hboard] at hnear
  exact hne (Option.some.inj hnear)

/-! ## Queueing -/

theorem push_of_mem (h : chip ∈ f.chips) : f.push chip board = f := by
  unfold push
  rw [if_pos (contains_iff.2 h)]

theorem push_cases (board : Coord) (h : chip ∉ f.chips) :
    (board = f.board ∧ f.push chip board = { f with sameBoard := f.sameBoard ++ [chip] }) ∨
      (board ≠ f.board ∧
        f.push chip board = { f with otherBoards := f.otherBoards ++ [chip] }) := by
  unfold push
  rw [if_neg (fun hc => h (contains_iff.1 hc))]
  by_cases hboard : board = f.board
  · exact Or.inl ⟨hboard, by rw [if_pos hboard]⟩
  · exact Or.inr ⟨hboard, by rw [if_neg hboard]⟩

theorem push_perm (board : Coord) (h : chip ∉ f.chips) :
    (f.push chip board).chips.Perm (chip :: f.chips) := by
  obtain ⟨_, hpush⟩ | ⟨_, hpush⟩ := push_cases board h
  · rw [hpush]
    simp [chips, List.perm_middle]
  · rw [hpush]
    simpa [chips] using List.perm_append_singleton chip f.chips

theorem mem_push : c ∈ (f.push chip board).chips ↔ c = chip ∨ c ∈ f.chips := by
  by_cases h : chip ∈ f.chips
  · rw [push_of_mem h, eq_comm]
    exact ⟨Or.inr, fun hc => hc.elim (fun heq => heq ▸ h) id⟩
  · rw [(push_perm _ h).mem_iff, List.mem_cons]

theorem mem_pushAll {more : List (Coord × Coord)} :
    c ∈ (f.pushAll more).chips ↔ c ∈ f.chips ∨ c ∈ more.map Prod.fst := by
  unfold pushAll
  induction more generalizing f with
  | nil => simp
  | cons chip more ih =>
      rw [List.foldl_cons, ih, mem_push, List.map_cons, List.mem_cons, or_left_comm, or_assoc]

theorem Parted.push (h : Parted m f) (hchip : boardOf? m chip = some board) :
    Parted m (f.push chip board) := by
  by_cases hqueued : chip ∈ f.chips
  · rw [push_of_mem hqueued]
    exact h
  have hdistinct := (push_perm board hqueued).nodup_iff.2
    (List.nodup_cons.2 ⟨hqueued, h.distinct⟩)
  obtain ⟨hboard, hpush⟩ | ⟨hboard, hpush⟩ := push_cases board hqueued
  · rw [hpush] at hdistinct ⊢
    refine ⟨hdistinct, ?_, h.far⟩
    rw [List.forall_mem_append, List.forall_mem_singleton]
    exact ⟨h.near, hboard ▸ hchip⟩
  · rw [hpush] at hdistinct ⊢
    refine ⟨hdistinct, h.near, ?_⟩
    rw [List.forall_mem_append, List.forall_mem_singleton]
    exact ⟨h.far, board, hchip, hboard⟩

theorem Parted.filter_push (h : Parted m f) (hchip : boardOf? m chip = some board)
    (hnew : chip ∉ f.chips) (b : Coord) :
    (f.push chip board).chips.filter (onBoard m b) = (f.chips ++ [chip]).filter (onBoard m b) := by
  obtain ⟨hboard, hpush⟩ | ⟨_, hpush⟩ := push_cases board hnew
  · rw [hpush]
    simp only [chips, List.filter_append]
    by_cases hb : b = f.board
    · rw [hb, h.filter_near, List.append_nil, List.append_nil]
    · have hother : [chip].filter (onBoard m b) = [] := by
        rw [List.filter_eq_nil_iff]
        simpa [onBoard, hchip, hboard] using fun heq => hb heq.symm
      rw [hother, List.append_nil, List.append_nil]
  · rw [hpush]
    simp [chips]

/-! ## Taking out -/

/-- The next chip is the first of the current board, or the first of all when the current board
has none; its board becomes current and takes its chips from the others. -/
theorem pop?_cases (h : f.pop? m = some (chip, f')) :
    (∃ rest, f.sameBoard = chip :: rest ∧ f' = { f with sameBoard := rest }) ∨
      ∃ rest, f.sameBoard = [] ∧ f.otherBoards = chip :: rest ∧ f' = {
        board := f.boardAfter m chip
        sameBoard := rest.filter (onBoard m (f.boardAfter m chip))
        otherBoards := rest.filter fun c => !onBoard m (f.boardAfter m chip) c } := by
  have hnear : ∀ b c, (m.chip? c).any (fun chip => chip.ethernet == b) = onBoard m b c := by
    intro b c
    unfold onBoard boardOf?
    cases m.chip? c <;> simp
  unfold pop? at h
  split at h
  · next rest hsame =>
      cases h
      exact Or.inl ⟨rest, hsame, rfl⟩
  · cases h
  · next rest hsame hother =>
      simp only [hnear] at h
      cases h
      exact Or.inr ⟨rest, hsame, hother, rfl⟩

theorem pop?_eq_none_iff : f.pop? m = none ↔ f.chips = [] := by
  unfold pop? chips
  split
  · next hsame => simp [hsame]
  · next hsame hother => simp [hsame, hother]
  · next hsame hother => simp [hsame, hother]

theorem boardAfter_eq (h : boardOf? m chip = some board) : f.boardAfter m chip = board := by
  unfold boardOf? at h
  unfold boardAfter
  obtain ⟨c, hc, rfl⟩ := Option.map_eq_some_iff.1 h
  rw [hc]

theorem perm_of_pop? (h : f.pop? m = some (chip, f')) : f.chips.Perm (chip :: f'.chips) := by
  obtain ⟨rest, hsame, rfl⟩ | ⟨rest, hsame, hother, rfl⟩ := pop?_cases h
  · simp [chips, hsame]
  · simp only [chips, hsame, hother, List.nil_append]
    exact (List.filter_append_perm _ _).symm.cons chip

theorem Parted.pop? (h : Parted m f) (hpop : f.pop? m = some (chip, f')) :
    Parted m f' ∧ boardOf? m chip = some f'.board := by
  have hdistinct := (perm_of_pop? hpop).nodup_iff.1 h.distinct
  rw [List.nodup_cons] at hdistinct
  obtain ⟨rest, hsame, rfl⟩ | ⟨rest, _, hother, rfl⟩ := pop?_cases hpop
  · have hnear := h.near
    rw [hsame, List.forall_mem_cons] at hnear
    exact ⟨⟨hdistinct.2, hnear.2, h.far⟩, hnear.1⟩
  · have hfar := h.far
    rw [hother, List.forall_mem_cons] at hfar
    obtain ⟨⟨board, hboard, _⟩, hrest⟩ := hfar
    rw [boardAfter_eq hboard] at hdistinct ⊢
    refine ⟨⟨hdistinct.2, ?_, ?_⟩, hboard⟩
    · intro c hc
      exact onBoard_iff.1 (List.mem_filter.1 hc).2
    · intro c hc
      obtain ⟨hc, hnot⟩ := List.mem_filter.1 hc
      obtain ⟨b, hb, _⟩ := hrest c hc
      refine ⟨b, hb, ?_⟩
      rintro rfl
      rw [onBoard_iff.2 hb] at hnot
      cases hnot

/-- A chip of another board comes out only when none of the current board is queued. -/
theorem Parted.of_board_ne (h : Parted m f) (hpop : f.pop? m = some (chip, f'))
    (hne : f'.board ≠ f.board) : ∀ c ∈ f.chips, boardOf? m c ≠ some f.board := by
  obtain ⟨rest, _, rfl⟩ | ⟨rest, hsame, _, _⟩ := pop?_cases hpop
  · exact absurd rfl hne
  · intro c hc hboard
    simp only [chips, hsame, List.nil_append] at hc
    obtain ⟨b, hb, hother⟩ := h.far c hc
    rw [hboard] at hb
    exact hother (Option.some.inj hb).symm

/-- The chip that is taken out was in front of all queued chips of its board. -/
theorem filter_of_pop? (hpop : f.pop? m = some (chip, f')) (b : Coord) :
    f.chips.filter (onBoard m b) = (chip :: f'.chips).filter (onBoard m b) := by
  obtain ⟨rest, hsame, rfl⟩ | ⟨rest, hsame, hother, rfl⟩ := pop?_cases hpop
  · simp [chips, hsame]
  · simp only [chips, hsame, hother, List.nil_append]
    rw [List.filter_cons, List.filter_cons]
    suffices hrest : (rest.filter (onBoard m (f.boardAfter m chip)) ++
        rest.filter fun c => !onBoard m (f.boardAfter m chip) c).filter (onBoard m b) =
        rest.filter (onBoard m b) by rw [hrest]
    rw [List.filter_append, List.filter_filter, List.filter_filter]
    by_cases hb : b = f.boardAfter m chip
    · simp [hb]
    · -- A chip is on one board at most, so only the second part has chips of this one.
      have hapart : ∀ c, onBoard m b c = true → onBoard m (f.boardAfter m chip) c = false := by
        intro c hc
        rw [onBoard_iff] at hc
        simpa [onBoard, hc] using hb
      have hnone : (rest.filter fun c =>
          onBoard m b c && onBoard m (f.boardAfter m chip) c) = [] := by
        rw [List.filter_eq_nil_iff]
        intro c _ hboth
        rw [Bool.and_eq_true] at hboth
        simp [hapart c hboth.1] at hboth
      rw [hnone, List.nil_append]
      refine List.filter_congr fun c _ => ?_
      cases hc : onBoard m b c with
      | false => rfl
      | true => simp [hapart c hc]

/-! ## Calls -/

inductive Call where
  /-- Queues chips, each given with a board. -/
  | pushAll (chips : List (Coord × Coord))
  | pop

/-- Chips are given with the boards that they are on. -/
def Call.Fits (m : Machine) : Call → Prop
  | .pushAll chips => ∀ given ∈ chips, boardOf? m given.1 = some given.2
  | .pop => True

instance (m : Machine) : (call : Call) → Decidable (call.Fits m)
  | .pushAll chips =>
    inferInstanceAs (Decidable (∀ given ∈ chips, boardOf? m given.1 = some given.2))
  | .pop => inferInstanceAs (Decidable True)

/-- Those of some chips that are not queued when their turn comes. -/
def admitted (f : Frontier) : List (Coord × Coord) → List Coord
  | [] => []
  | (chip, board) :: more =>
    if f.contains chip then f.admitted more else chip :: (f.push chip board).admitted more

/-- A frontier with a record of the chips that went in and out. -/
structure Log where
  frontier : Frontier
  /-- The chips that were given while they were not queued, in order. -/
  queued : List Coord := []
  /-- The chips that were taken out, in order. -/
  returned : List Coord := []

namespace Log

variable {log : Log} {call : Call} {calls : List Call}

def step (m : Machine) (log : Log) : Call → Log
  | .pushAll chips => { log with
      frontier := log.frontier.pushAll chips
      queued := log.queued ++ log.frontier.admitted chips }
  | .pop =>
    match log.frontier.pop? m with
    | none => log
    | some (chip, frontier) =>
      { log with frontier, returned := log.returned ++ [chip] }

def after (m : Machine) (log : Log) (calls : List Call) : Log := calls.foldl (step m) log

theorem after_cons (m : Machine) (log : Log) (call : Call) (calls : List Call) :
    log.after m (call :: calls) = (log.step m call).after m calls := rfl

theorem step_pop_of_none (h : log.frontier.pop? m = none) : log.step m .pop = log := by
  simp only [step, h]

theorem step_pop_of_some {frontier : Frontier} (h : log.frontier.pop? m = some (chip, frontier)) :
    log.step m .pop = { log with frontier, returned := log.returned ++ [chip] } := by
  simp only [step, h]

structure Kept (m : Machine) (log : Log) : Prop where
  parted : Parted m log.frontier
  perm : log.queued.Perm (log.returned ++ log.frontier.chips)
  ordered : ∀ board, log.queued.filter (onBoard m board) =
    (log.returned ++ log.frontier.chips).filter (onBoard m board)

theorem Kept.queue (h : Kept m log) (hchip : boardOf? m chip = some board)
    (hnew : chip ∉ log.frontier.chips) :
    Kept m { log with
      frontier := log.frontier.push chip board
      queued := log.queued ++ [chip] } where
  parted := h.parted.push hchip
  perm := by
    refine (h.perm.append_right _).trans ?_
    rw [List.append_assoc]
    refine List.Perm.append_left _ ?_
    exact (List.perm_append_singleton _ _).trans (push_perm _ hnew).symm
  ordered := by
    intro b
    rw [List.filter_append, h.ordered, List.filter_append, List.filter_append,
      h.parted.filter_push hchip hnew, List.filter_append, List.append_assoc]

/-- Induction over the chips that are given. -/
theorem Kept.pushAll (h : Kept m log) {given : List (Coord × Coord)}
    (hgiven : ∀ c ∈ given, boardOf? m c.1 = some c.2) : Kept m (log.step m (.pushAll given)) := by
  induction given generalizing log with
  | nil => simpa [step, admitted, Frontier.pushAll] using h
  | cons first given ih =>
      obtain ⟨chip, board⟩ := first
      obtain ⟨hchip, hgiven⟩ := List.forall_mem_cons.1 hgiven
      by_cases hqueued : chip ∈ log.frontier.chips
      · have hsame : log.step m (.pushAll ((chip, board) :: given)) =
            log.step m (.pushAll given) := by
          simp [step, admitted, Frontier.pushAll, contains_iff.2 hqueued, push_of_mem hqueued]
        rw [hsame]
        exact ih h hgiven
      · have hnot : log.frontier.contains chip = false := by
          rw [← Bool.not_eq_true, contains_iff]
          exact hqueued
        have hlater := ih (h.queue hchip hqueued) hgiven
        simpa [step, admitted, Frontier.pushAll, hnot] using hlater

theorem Kept.pop (h : Kept m log) : Kept m (log.step m .pop) := by
  cases hpop : log.frontier.pop? m with
  | none =>
      rw [step_pop_of_none hpop]
      exact h
  | some next =>
      obtain ⟨chip, frontier⟩ := next
      rw [step_pop_of_some hpop]
      refine ⟨(h.parted.pop? hpop).1, ?_, ?_⟩
      · refine h.perm.trans ?_
        rw [List.append_assoc]
        exact (perm_of_pop? hpop).append_left _
      · intro board
        rw [h.ordered, List.append_assoc, List.filter_append, List.filter_append,
          filter_of_pop? hpop]
        rfl

theorem Kept.step (h : Kept m log) (hcall : call.Fits m) : Kept m (log.step m call) := by
  cases call with
  | pushAll given => exact h.pushAll hcall
  | pop => exact h.pop

theorem Kept.after (h : Kept m log) (hcalls : ∀ call ∈ calls, call.Fits m) :
    Kept m (log.after m calls) :=
  List.foldlRecOn calls (Log.step m) h fun _ h call hmem => h.step (hcalls call hmem)

/-- Enough pops take out everything that is queued.  Induction on the number of pops; each takes
a chip out, or there is none left. -/
theorem after_pops (m : Machine) {n : Nat} (h : log.frontier.size ≤ n) :
    (log.after m (List.replicate n .pop)).frontier.chips = [] ∧
      ∃ rest, (log.after m (List.replicate n .pop)).returned = log.returned ++ rest ∧
        rest.Perm log.frontier.chips := by
  induction n generalizing log with
  | zero =>
      rw [size_eq] at h
      have hnone := List.length_eq_zero_iff.1 (Nat.le_zero.1 h)
      exact ⟨hnone, [], (List.append_nil _).symm, by rw [hnone]⟩
  | succ n ih =>
      rw [List.replicate_succ, after_cons]
      cases hpop : log.frontier.pop? m with
      | none =>
          rw [step_pop_of_none hpop]
          exact ih (by simp [size_eq, pop?_eq_none_iff.1 hpop])
      | some next =>
          obtain ⟨chip, frontier⟩ := next
          have hperm := perm_of_pop? hpop
          have hsize : frontier.size ≤ n := by
            have hlength := hperm.length_eq
            rw [List.length_cons] at hlength
            rw [size_eq] at h ⊢
            omega
          rw [step_pop_of_some hpop]
          obtain ⟨hnone, rest, hreturned, hrest⟩ :=
            @ih { log with frontier, returned := log.returned ++ [chip] } hsize
          refine ⟨hnone, chip :: rest, ?_, (hrest.cons chip).trans hperm.symm⟩
          rw [hreturned, List.append_assoc, List.singleton_append]

structure Fair (m : Machine) (log : Log) : Prop where
  /-- No chip is queued twice. -/
  distinct : log.frontier.chips.Nodup
  /-- A chip was returned as often as it was queued, but for the time that it still waits. -/
  once : ∀ chip, log.queued.count chip =
    log.returned.count chip + log.frontier.chips.count chip
  /-- Chips of one board are returned in the order in which they were queued. -/
  ordered : ∀ board, log.returned.filter (onBoard m board) ++
    log.frontier.chips.filter (onBoard m board) = log.queued.filter (onBoard m board)
  /-- A pop returns nothing only from an empty frontier. -/
  empty : log.frontier.pop? m = none ↔ log.frontier.chips = []
  /-- A pop returns a queued chip and makes its board current; it leaves a board only when no
  chip of that board is queued. -/
  turns : ∀ chip frontier, log.frontier.pop? m = some (chip, frontier) →
    chip ∈ log.frontier.chips ∧ boardOf? m chip = some frontier.board ∧
    (frontier.board ≠ log.frontier.board →
      ∀ other ∈ log.frontier.chips, boardOf? m other ≠ some log.frontier.board)
  /-- As many pops as chips are queued return each of them, and nothing else. -/
  drained : ∀ n, log.frontier.size ≤ n →
    (log.after m (List.replicate n .pop)).frontier.chips = [] ∧
    ∃ rest, (log.after m (List.replicate n .pop)).returned = log.returned ++ rest ∧
      rest.Perm log.frontier.chips

theorem Kept.fair (h : Kept m log) : Fair m log where
  distinct := h.parted.distinct
  once := by
    intro chip
    rw [h.perm.count_eq, List.count_append]
  ordered := by
    intro board
    rw [h.ordered, List.filter_append]
  empty := pop?_eq_none_iff
  turns := by
    intro chip frontier hpop
    refine ⟨?_, (h.parted.pop? hpop).2, h.parted.of_board_ne hpop⟩
    exact (perm_of_pop? hpop).mem_iff.2 List.mem_cons_self
  drained := fun _ => after_pops m

end Log

/-- Whatever is called on a new frontier, it returns every chip that it was given once for every
time that it was queued, board by board and in order. -/
theorem calls_keep_fair (m : Machine) (board : Coord) (calls : List Call)
    (h : ∀ call ∈ calls, call.Fits m) :
    Log.Fair m (Log.after m { frontier := { board } } calls) := by
  have hnew : Log.Kept m { frontier := { board } } :=
    ⟨parted_new m board, .refl _, fun _ => rfl⟩
  exact (hnew.after h).fair

/-- Two boards in a row, of two chips each. -/
def twoBoards : Machine := .faultless { width := 4, height := 1, boardWidth := 2, boardHeight := 1 }

/-- Chips of both boards in turn; one comes back after it was taken out, one is given twice. -/
def mixedCalls : List Call :=
  [.pushAll [(⟨2, 0⟩, ⟨2, 0⟩), (⟨1, 0⟩, ⟨0, 0⟩), (⟨3, 0⟩, ⟨2, 0⟩), (⟨1, 0⟩, ⟨0, 0⟩)], .pop, .pop,
    .pushAll [(⟨1, 0⟩, ⟨0, 0⟩), (⟨2, 0⟩, ⟨2, 0⟩)], .pop]

theorem calls_keep_fair_mixed : (∀ call ∈ mixedCalls, call.Fits twoBoards) ∧
    (Log.after twoBoards { frontier := { board := ⟨0, 0⟩ } } mixedCalls).returned =
      [⟨1, 0⟩, ⟨2, 0⟩, ⟨3, 0⟩] ∧
    Log.Fair twoBoards (Log.after twoBoards { frontier := { board := ⟨0, 0⟩ } } mixedCalls) := by
  have hfits : ∀ call ∈ mixedCalls, call.Fits twoBoards := by decide +kernel
  exact ⟨hfits, by decide +kernel, calls_keep_fair twoBoards ⟨0, 0⟩ mixedCalls hfits⟩

end Frontier

end MulticastMesh.Placing
