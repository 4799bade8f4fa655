import MulticastMesh.Proofs.Routing.Trees
import MulticastMesh.Proofs.Routing.Ways
/-!
# What commitment records

Any map of predecessors can be committed, whether it is a tree or not.  Commitment succeeds exactly
if the way back from every destination reaches the source, and then the path entries of the
partition hold these ways and nothing else.  It fails only where a way back is blocked.
-/

namespace MulticastMesh.Routing.Tree

open Mesh (Coord Link)
open Outcome
open Relation (ReflTransGen TransGen)

/-! ## How a change ends -/

section

variable {α β : Type} {x : Commit α} {f : α → Commit β} {a : α} {paths paths' : PathTable}
  {P : α → PathTable → Prop} {Q : β → PathTable → Prop} {E : Failure → Prop}

/-- A change that succeeds ends in a state of one kind, and one that fails does so for a reason of
one kind. -/
def Ends (x : Commit α) (paths : PathTable) (P : α → PathTable → Prop) (E : Failure → Prop) :
    Prop :=
  match x.run.run paths with
  | (.ok a, paths') => P a paths'
  | (.error f, _) => E f

theorem Ends.ok (h : Ends x paths P E) (hrun : x.run.run paths = (.ok a, paths')) :
    P a paths' := by
  unfold Ends at h
  rwa [hrun] at h

theorem Ends.error {f : Failure} (h : Ends x paths P E)
    (hrun : x.run.run paths = (.error f, paths')) : E f := by
  unfold Ends at h
  rwa [hrun] at h

theorem ends_of_run (hrun : x.run.run paths = (.ok a, paths')) (h : P a paths') :
    Ends x paths P E := by
  unfold Ends
  rwa [hrun]

theorem ends_pure (h : P a paths) : Ends (pure a) paths P E := h

theorem ends_throw {f : Failure} (h : E f) : Ends (throw f) paths P E := h

theorem Ends.bind (hx : Ends x paths P E)
    (hf : ∀ a paths', P a paths' → Ends (f a) paths' Q E) : Ends (x >>= f) paths Q E := by
  unfold Ends
  rw [change_bind_run]
  rcases hrun : x.run.run paths with ⟨r, paths'⟩
  cases r with
  | error e => exact hx.error hrun
  | ok a => exact hf a paths' (hx.ok hrun)

theorem ends_check {ε : Type} {cause : ε → Cause} {r : Except ε α}
    (hok : ∀ a, r = .ok a → P a paths) (herror : ∀ e, r = .error e → E ⟨[], cause e⟩) :
    Ends (ExceptT.mk (pure (Outcome.lift cause r))) paths P E := by
  cases r with
  | error e => exact herror e rfl
  | ok a => exact hok a rfl

theorem Ends.mono {Q : α → PathTable → Prop} {E' : Failure → Prop} (h : Ends x paths P E)
    (hPQ : ∀ a paths', P a paths' → Q a paths') (hE : ∀ f, E f → E' f) : Ends x paths Q E' := by
  unfold Ends
  rcases hrun : x.run.run paths with ⟨r, paths'⟩
  cases r with
  | error e => exact hE e (h.error hrun)
  | ok a => exact hPQ a paths' (h.ok hrun)

end

/-! ## What is recorded -/

/-- The path entries of a partition hold some links and deliver to some destinations. -/
structure Recorded (t : Tree) (processor : Nat) (s : PartitionSource) (before : PathTable)
    (stops : Stops) (claimed : List LinkFrom) (paths : PathTable) : Prop where
  nodup : claimed.Nodup
  entrance : ∀ chip e, paths.entry? chip s = some e →
    ∃ x, t.entrance processor chip = .ok x ∧ e.entrance? = some x
  uses : ∀ chip, paths.Uses s chip ↔ (∃ l, (chip, l) ∈ claimed) ∨ ∃ set, (chip, set) ∈ stops
  leaves : ∀ (chip : Coord) (l : Link), paths.Leaves s chip l ↔ (chip, l) ∈ claimed
  delivers : ∀ chip p, paths.Delivers s chip p ↔ ∃ set, (chip, set) ∈ stops ∧ p ∈ set
  elsewhere : SameElsewhere s before paths

variable {t : Tree} {processor fuel : Nat} {s : PartitionSource} {before paths : PathTable}
  {stops rest : Stops} {claimed : List LinkFrom} {chip destination previous : Coord} {l : Link}
  {x : Entrance}

theorem recorded_nil (processor : Nat) (h : ∀ chip, before.entry? chip s = none) :
    Recorded t processor s before [] [] before := by
  refine ⟨.nil, ?_, ?_, ?_, ?_, .refl⟩ <;>
    simp [h, PathTable.Uses, PathTable.Leaves, PathTable.Delivers]

theorem Recorded.entrance_eq (h : Recorded t processor s before stops claimed paths)
    (hx : t.entrance processor chip = .ok x) :
    ∀ e₀, paths.entry? chip s = some e₀ → e₀.entrance? = some x := by
  intro e₀ he₀
  obtain ⟨y, hy, hentrance⟩ := h.entrance chip e₀ he₀
  cases hx.symm.trans hy
  exact hentrance

theorem Recorded.entrance_add {e : PathEntry} {paths' : PathTable}
    (h : Recorded t processor s before stops claimed paths)
    (hadd : Added chip s e x paths paths') (hx : t.entrance processor chip = .ok x) :
    ∀ c e', paths'.entry? c s = some e' →
      ∃ y, t.entrance processor c = .ok y ∧ e'.entrance? = some y := by
  intro c e' he'
  by_cases hc : c = chip
  · subst hc
    obtain ⟨e₁, he₁, hentrance⟩ := hadd.here
    cases he₁.symm.trans he'
    exact ⟨x, hx, hentrance⟩
  · rw [hadd.entry_eq hc] at he'
    exact h.entrance c e' he'

theorem Recorded.deliver {set : Std.ExtTreeSet Nat compare} {r : Route} {paths' : PathTable}
    (h : Recorded t processor s before stops claimed paths)
    (hadd : Added chip s ⟨r, some x⟩ x paths paths') (hx : t.entrance processor chip = .ok x)
    (hlinks : ∀ l, r.hasLink l = false) (hprocessors : ∀ p, r.hasProcessor p = true ↔ p ∈ set) :
    Recorded t processor s before (stops ++ [(chip, set)]) claimed paths' where
  nodup := h.nodup
  entrance := h.entrance_add hadd hx
  uses := by
    intro c
    rw [hadd.uses_iff, h.uses]
    simp only [List.mem_append, List.mem_singleton, Prod.mk.injEq, exists_or, exists_and_left,
      exists_eq, and_true]
    tauto
  leaves := by
    intro c l
    rw [hadd.leaves_iff, h.leaves]
    simp [hlinks]
  delivers := by
    intro c p
    rw [hadd.delivers_iff, h.delivers]
    simp only [List.mem_append, List.mem_singleton, Prod.mk.injEq, hprocessors]
    constructor
    · rintro (⟨rfl, hp⟩ | ⟨set', hmem, hp⟩)
      · exact ⟨set, .inr ⟨rfl, rfl⟩, hp⟩
      · exact ⟨set', .inl hmem, hp⟩
    · rintro ⟨set', hmem | ⟨rfl, rfl⟩, hp⟩
      · exact .inr ⟨set', hmem, hp⟩
      · exact .inl ⟨rfl, hp⟩
  elsewhere := h.elsewhere.trans hadd.sameElsewhere

def claim (claimed : List LinkFrom) (link : LinkFrom) : List LinkFrom :=
  if claimed.contains link then claimed else claimed ++ [link]

theorem mem_claim {link link' : LinkFrom} :
    link' ∈ claim claimed link ↔ link' ∈ claimed ∨ link' = link := by
  unfold claim
  split
  · next h =>
      rw [List.contains_iff_mem] at h
      constructor
      · exact .inl
      · rintro (hmem | rfl)
        · exact hmem
        · exact h
  · simp

theorem nodup_claim {link : LinkFrom} (h : claimed.Nodup) : (claim claimed link).Nodup := by
  unfold claim
  split
  · exact h
  · next hnew =>
      rw [List.contains_iff_mem] at hnew
      refine List.nodup_append.2 ⟨h, by simp, ?_⟩
      rintro a ha _ hb rfl
      exact hnew (List.mem_singleton.1 hb ▸ ha)

theorem Recorded.stepBack {paths' : PathTable}
    (h : Recorded t processor s before stops claimed paths)
    (hadd : Added previous s ⟨.overLinks [l], some x⟩ x paths paths')
    (hx : t.entrance processor previous = .ok x) :
    Recorded t processor s before stops (claim claimed (previous, l)) paths' where
  nodup := nodup_claim h.nodup
  entrance := h.entrance_add hadd hx
  uses := by
    intro c
    rw [hadd.uses_iff, h.uses]
    simp only [mem_claim, Prod.mk.injEq, exists_or, exists_and_left, exists_eq, and_true]
    tauto
  leaves := by
    intro c l'
    rw [hadd.leaves_iff, h.leaves, mem_claim, Route.hasLink_overLink, decide_eq_true_eq,
      Prod.mk.injEq]
    tauto
  delivers := by
    intro c p
    rw [hadd.delivers_iff, h.delivers]
    simp [Route.hasProcessor_overLink]
  elsewhere := h.elsewhere.trans hadd.sameElsewhere

/-! ## Walking back -/

/-- A failure that names a fault on the way back from a chip. -/
def IsBlocked (t : Tree) (chip : Coord) (f : Failure) : Prop :=
  ∃ error, f = ⟨[], .routing error⟩ ∧ t.Blocked chip error

theorem entrance_eq_error {error : RoutingError} (h : t.entrance processor chip = .error error) :
    error = .unreachable t.source chip ∧ chip ≠ t.source ∧ t.cameFrom[chip]? = none := by
  unfold entrance at h
  split at h
  · cases h
  · next hne =>
      split at h
      · cases h
      · next hnone =>
          cases h
          exact ⟨rfl, hne, hnone⟩

theorem exists_step_of_entrance (hx : t.entrance processor chip = .ok x) (hne : chip ≠ t.source) :
    ∃ previous l, t.cameFrom[chip]? = some (previous, l) ∧ x = .link l.opposite := by
  unfold entrance at hx
  rw [if_neg hne] at hx
  split at hx
  · next previous l hstep =>
      cases hx
      exact ⟨previous, l, hstep, rfl⟩
  · cases hx

theorem entrance_ends {E : Failure → Prop}
    (hE : ∀ error, t.Blocked chip error → E ⟨[], .routing error⟩) :
    Ends (ExceptT.mk (pure (Outcome.lift .routing (t.entrance processor chip)))) paths
      (fun x paths' => t.entrance processor chip = .ok x ∧ paths = paths') E := by
  refine ends_check (fun x hx => ⟨hx, rfl⟩) fun error herror => hE error ?_
  obtain ⟨rfl, hne, hnone⟩ := entrance_eq_error herror
  exact .noPrevious .refl hne hnone

theorem exists_step_of_parent {c : Coord} (h : TransGen t.Parent c chip) :
    ∃ step, t.cameFrom[c]? = some step := by
  obtain ⟨_, ⟨_, l, hstep⟩, _⟩ := TransGen.head'_iff.1 h
  exact ⟨_, hstep⟩

theorem deliver_ends {set : Std.ExtTreeSet Nat compare}
    (h : Recorded t processor s before stops claimed paths)
    (hset : ∀ p ∈ set, p < Mesh.maxProcessors) :
    Ends (t.deliver processor s chip set.toList) paths
      (fun _ paths' => Recorded t processor s before (stops ++ [(chip, set)]) claimed paths' ∧
        ∃ x, t.entrance processor chip = .ok x)
      (t.IsBlocked chip) := by
  obtain ⟨r, hr, hlinks, hprocessors⟩ :=
    Route.ofParts_spec fun p hp => hset p (Std.ExtTreeSet.mem_toList.1 hp)
  simp only [Std.ExtTreeSet.mem_toList] at hprocessors
  refine Ends.bind (P := fun r' paths' => r = r' ∧ paths = paths') (ends_check ?_ ?_) ?_
  · intro r' hr'
    cases hr.symm.trans hr'
    exact ⟨rfl, rfl⟩
  · intro e he
    cases hr.symm.trans he
  rintro _ _ ⟨rfl, rfl⟩
  refine Ends.bind (entrance_ends fun error hblocked => ⟨error, rfl, hblocked⟩) ?_
  rintro x _ ⟨hx, rfl⟩
  obtain ⟨paths', hrun, hadd⟩ := addPath_spec (e := ⟨r, some x⟩) rfl (h.entrance_eq hx)
  exact ends_of_run hrun ⟨h.deliver hadd hx hlinks hprocessors, x, hx⟩

theorem walkBack_ends (h : Recorded t processor s before stops claimed paths)
    (hx : t.entrance processor chip = .ok x) (hbehind : ReflTransGen t.Parent destination chip)
    {visited : List Coord} (hnodup : visited.Nodup)
    (hvisited : ∀ c ∈ visited, TransGen t.Parent c chip)
    (hfuel : t.cameFrom.size < fuel + visited.length) :
    Ends (t.walkBack processor s destination fuel visited claimed chip) paths
      (fun claimed' paths' => Recorded t processor s before stops claimed' paths' ∧
        ∃ steps, t.Way chip steps ∧ ∀ link, link ∈ claimed' ↔ link ∈ claimed ∨ link ∈ steps)
      (t.IsBlocked destination) := by
  induction fuel generalizing chip visited claimed paths x with
  | zero =>
      have hsize := length_le_size hnodup fun c hc => exists_step_of_parent (hvisited c hc)
      omega
  | succ fuel ih =>
      unfold walkBack
      by_cases hsource : chip = t.source
      · subst hsource
        rw [if_pos rfl]
        exact ends_pure ⟨h, [], .source, by simp⟩
      rw [if_neg hsource]
      by_cases hmem : chip ∈ visited
      · rw [if_pos (List.contains_iff_mem.2 hmem)]
        exact ends_throw ⟨_, rfl, .cycle hbehind (hvisited chip hmem)⟩
      rw [if_neg fun hcontains => hmem (List.contains_iff_mem.1 hcontains)]
      obtain ⟨previous, l, hstep, -⟩ := exists_step_of_entrance hx hsource
      have hparent : t.Parent chip previous := ⟨hsource, l, hstep⟩
      simp only [hstep]
      refine Ends.bind (entrance_ends fun error hblocked =>
        ⟨error, rfl, hblocked.of_behind (hbehind.tail hparent)⟩) ?_
      rintro x _ ⟨hx', rfl⟩
      obtain ⟨paths', hrun, hadd⟩ :=
        addPath_spec (e := ⟨.overLinks [l], some x⟩) rfl (h.entrance_eq hx')
      refine Ends.bind (P := fun _ after => after = paths') (ends_of_run hrun rfl) ?_
      rintro _ _ rfl
      have hvisited' : ∀ c ∈ chip :: visited, TransGen t.Parent c previous := by
        intro c hc
        rcases List.mem_cons.1 hc with rfl | hc
        · exact .single hparent
        · exact (hvisited c hc).tail hparent
      have hrest := ih (h.stepBack hadd hx') hx' (hbehind.tail hparent)
        (List.nodup_cons.2 ⟨hmem, hnodup⟩) hvisited' (by rw [List.length_cons]; omega)
      refine hrest.mono ?_ fun _ hf => hf
      rintro claimed' paths'' ⟨hrecorded, steps, hway, hclaimed⟩
      refine ⟨hrecorded, (previous, l) :: steps, .step hsource hstep hway, fun link => ?_⟩
      rw [hclaimed, mem_claim, List.mem_cons, or_assoc]

/-! ## Whole maps -/

theorem stop_ends {stop : Coord × Std.ExtTreeSet Nat compare}
    (h : Recorded t processor s before stops claimed paths)
    (hset : ∀ p ∈ stop.2, p < Mesh.maxProcessors) :
    Ends (do
        t.deliver processor s stop.1 stop.2.toList
        t.walkBack processor s stop.1 (t.cameFrom.size + 2) [] claimed stop.1) paths
      (fun claimed' paths' => Recorded t processor s before (stops ++ [stop]) claimed' paths' ∧
        ∃ steps, t.Way stop.1 steps ∧ ∀ link, link ∈ claimed' ↔ link ∈ claimed ∨ link ∈ steps)
      (t.IsBlocked stop.1) := by
  refine Ends.bind (deliver_ends h hset) ?_
  rintro _ paths' ⟨hdelivered, x, hx⟩
  exact walkBack_ends hdelivered hx .refl .nil (by simp) (by simp)

def OnWays (t : Tree) (stops : Stops) (link : LinkFrom) : Prop :=
  ∃ stop ∈ stops, ∃ steps, t.Way stop.1 steps ∧ link ∈ steps

theorem stops_ends (rest : Stops)
    (h : Recorded t processor s before stops claimed paths)
    (hrest : ∀ stop ∈ rest, ∀ p ∈ stop.2, p < Mesh.maxProcessors) :
    Ends (rest.foldlM (fun claimed (chip, processors) => do
        t.deliver processor s chip processors.toList
        t.walkBack processor s chip (t.cameFrom.size + 2) [] claimed chip) claimed) paths
      (fun claimed' paths' => Recorded t processor s before (stops ++ rest) claimed' paths' ∧
        (∀ stop ∈ rest, ∃ steps, t.Way stop.1 steps) ∧
        ∀ link, link ∈ claimed' ↔ link ∈ claimed ∨ t.OnWays rest link)
      (fun f => ∃ stop ∈ rest, t.IsBlocked stop.1 f) := by
  induction rest generalizing stops claimed paths with
  | nil => exact ends_pure ⟨by rwa [List.append_nil], by simp, by simp [OnWays]⟩
  | cons stop rest ih =>
      obtain ⟨hset, hrest⟩ := List.forall_mem_cons.1 hrest
      rw [List.foldlM_cons]
      refine Ends.bind ((stop_ends h hset).mono (fun _ _ h => h)
        fun f hf => ⟨stop, List.mem_cons_self, hf⟩) ?_
      rintro claimed₁ paths₁ ⟨hrecorded, steps, hway, hclaimed⟩
      refine (ih hrecorded hrest).mono ?_ ?_
      · rintro claimed₂ paths₂ ⟨hall, hways, hclaimed'⟩
        refine ⟨by rwa [List.append_assoc, List.singleton_append] at hall,
          List.forall_mem_cons.2 ⟨⟨steps, hway⟩, hways⟩, fun link => ?_⟩
        have hfirst : (∃ steps, t.Way stop.1 steps ∧ link ∈ steps) ↔ link ∈ steps :=
          ⟨fun ⟨_, hway', hmem⟩ => hway.unique hway' ▸ hmem, fun hmem => ⟨steps, hway, hmem⟩⟩
        unfold OnWays
        rw [hclaimed', hclaimed, List.exists_mem_cons_iff, hfirst, or_assoc]
        rfl
      · rintro f ⟨stop', hmem, hf⟩
        exact ⟨stop', List.mem_cons_of_mem _ hmem, hf⟩

/-- The predecessors of a chip lead back to the source and repeat no chip. -/
def LeadsBack (t : Tree) (chip : Coord) : Prop :=
  ∃ steps, t.Way chip steps ∧ (chip :: steps.map Prod.fst).Nodup

/-- The links on the ways back from some destinations, and what the path entries say about the
chips on these ways. -/
structure Committed (t : Tree) (destinations : Destinations) (processor : Nat)
    (s : PartitionSource) (before : PathTable) (claimed : List LinkFrom) (paths : PathTable) :
    Prop where
  nodup : claimed.Nodup
  claimed_iff : ∀ link, link ∈ claimed ↔
    ∃ chip ∈ destinations.chips, ∃ steps, t.Way chip steps ∧ link ∈ steps
  uses_iff : ∀ c, paths.Uses s c ↔
    ∃ chip ∈ destinations.chips, ∃ steps, t.Way chip steps ∧ c ∈ chip :: steps.map Prod.fst
  links : ∀ c e, paths.entry? c s = some e →
    ∀ l, e.route.hasLink l = true ↔ (c, l) ∈ claimed
  processors : ∀ c e, paths.entry? c s = some e →
    ∀ p, e.route.hasProcessor p = true ↔ ∃ set, destinations[c]? = some set ∧ p ∈ set
  fromCore : ∀ e, paths.entry? t.source s = some e → e.entrance? = some (.processor processor)
  fromLink : ∀ c e, c ≠ t.source → paths.entry? c s = some e →
    ∃ previous l, t.cameFrom[c]? = some (previous, l) ∧ e.entrance? = some (.link l.opposite)
  elsewhere : SameElsewhere s before paths

variable {destinations : Destinations} {n : Nat}

theorem mem_chips : chip ∈ destinations.chips ↔ ∃ set, (chip, set) ∈ destinations.toList := by
  unfold Destinations.chips
  rw [List.mem_map]
  exact ⟨fun ⟨stop, hstop, heq⟩ => ⟨stop.2, heq ▸ hstop⟩, fun ⟨set, hset⟩ => ⟨_, hset, rfl⟩⟩

theorem onWays_toList {link : LinkFrom} : t.OnWays destinations.toList link ↔
    ∃ chip ∈ destinations.chips, ∃ steps, t.Way chip steps ∧ link ∈ steps := by
  unfold OnWays Destinations.chips
  simp only [List.mem_map, exists_exists_and_eq_and]

theorem Recorded.committed (h : Recorded t processor s before destinations.toList claimed paths)
    (hways : ∀ stop ∈ destinations.toList, ∃ steps, t.Way stop.1 steps)
    (hclaimed : ∀ link, link ∈ claimed ↔ t.OnWays destinations.toList link) :
    Committed t destinations processor s before claimed paths where
  nodup := h.nodup
  claimed_iff := fun link => (hclaimed link).trans onWays_toList
  uses_iff := by
    intro c
    simp only [h.uses, hclaimed, onWays_toList, ← mem_chips]
    constructor
    · rintro (⟨l, chip, hchip, steps, hway, hmem⟩ | hc)
      · exact ⟨chip, hchip, steps, hway, List.mem_cons_of_mem _ (List.mem_map_of_mem hmem)⟩
      · obtain ⟨set, hset⟩ := mem_chips.1 hc
        obtain ⟨steps, hway⟩ := hways _ hset
        exact ⟨c, hc, steps, hway, List.mem_cons_self⟩
    · rintro ⟨chip, hchip, steps, hway, hmem⟩
      rcases List.mem_cons.1 hmem with rfl | hmem
      · exact .inr hchip
      · obtain ⟨⟨_, l⟩, hlink, rfl⟩ := List.mem_map.1 hmem
        exact .inl ⟨l, chip, hchip, steps, hway, hlink⟩
  links := fun c e he l => by rw [← PathTable.leaves_iff he, h.leaves]
  processors := fun c e he p => by
    rw [← PathTable.delivers_iff he, h.delivers]
    simp only [Std.ExtTreeMap.mem_toList_iff_getElem?_eq_some]
  fromCore := by
    intro e he
    exact h.entrance_eq (x := .processor processor) (if_pos rfl) e he
  fromLink := by
    intro c e hne he
    obtain ⟨x, hx, hentrance⟩ := h.entrance c e he
    obtain ⟨previous, l, hstep, rfl⟩ := exists_step_of_entrance hx hne
    exact ⟨previous, l, hstep, hentrance⟩
  elsewhere := h.elsewhere

/-- Commitment succeeds exactly if the predecessors lead from every destination back to the source.
Then it records the ways back and nothing else, and otherwise it names a fault on such a way. -/
theorem commit_records (t : Tree) (destinations : Destinations) (processor : Nat)
    (hfresh : ∀ chip, before.entry? chip s = none)
    (hprocessors : ∀ (chip : Coord) set, destinations[chip]? = some set →
      ∀ p ∈ set, p < Mesh.maxProcessors) :
    ((∃ claimed paths, (t.commit destinations processor s).run.run before = (.ok claimed, paths)) ↔
        ∀ chip ∈ destinations.chips, t.LeadsBack chip) ∧
      (∀ claimed paths, (t.commit destinations processor s).run.run before = (.ok claimed, paths) →
        Committed t destinations processor s before claimed paths) ∧
      ∀ f paths, (t.commit destinations processor s).run.run before = (.error f, paths) →
        ∃ chip ∈ destinations.chips, t.IsBlocked chip f := by
  have hends := stops_ends (t := t) destinations.toList (recorded_nil processor hfresh)
    fun stop hstop => hprocessors stop.1 stop.2
      (Std.ExtTreeMap.mem_toList_iff_getElem?_eq_some.1 hstop)
  have herror : ∀ f paths,
      (t.commit destinations processor s).run.run before = (.error f, paths) →
      ∃ chip ∈ destinations.chips, t.IsBlocked chip f := by
    intro f paths hrun
    obtain ⟨stop, hstop, hblocked⟩ := hends.error hrun
    exact ⟨stop.1, List.mem_map_of_mem hstop, hblocked⟩
  refine ⟨⟨?_, ?_⟩, ?_, herror⟩
  · rintro ⟨claimed, paths, hrun⟩ chip hchip
    obtain ⟨-, hways, -⟩ := hends.ok hrun
    obtain ⟨set, hset⟩ := mem_chips.1 hchip
    obtain ⟨steps, hway⟩ := hways _ hset
    exact ⟨steps, hway, hway.nodup⟩
  · intro hback
    rcases hrun : (t.commit destinations processor s).run.run before with ⟨r, paths⟩
    cases r with
    | ok claimed => exact ⟨claimed, paths, rfl⟩
    | error f =>
        obtain ⟨chip, hchip, error, -, hblocked⟩ := herror f paths hrun
        obtain ⟨steps, hway, -⟩ := hback chip hchip
        exact absurd hblocked hway.not_blocked
  · intro claimed paths hrun
    obtain ⟨hrecorded, hways, hclaimed⟩ := hends.ok hrun
    exact hrecorded.committed hways fun link => by simpa using hclaimed link

/-- Two chips in a row behind the source, which has a predecessor itself, and two that lead to each
other. -/
def looped : Tree where
  source := ⟨0, 0⟩
  cameFrom := .ofList [(⟨0, 0⟩, (⟨2, 0⟩, .east)), (⟨1, 0⟩, (⟨0, 0⟩, .east)),
    (⟨2, 0⟩, (⟨1, 0⟩, .east)), (⟨5, 5⟩, (⟨6, 6⟩, .southWest)),
    (⟨6, 6⟩, (⟨5, 5⟩, .northEast))] compare

def spikes : PartitionSource := ⟨none, "spikes", ⟨0⟩⟩

def otherPaths : PathTable where
  entries := PathTable.empty.entries.insert (⟨1, 0⟩, ⟨none, "spikes", ⟨1⟩⟩)
    ⟨.overLinks [.north], none⟩

def inRow : Destinations := .ofList [(⟨1, 0⟩, [3]), (⟨2, 0⟩, [1, 2])]

def inLoop : Destinations := .ofList [(⟨5, 5⟩, [1])]

theorem entry?_otherPaths (chip : Coord) : otherPaths.entry? chip spikes = none := by
  unfold otherPaths
  rw [entry?_insert, if_neg]
  · rfl
  · intro heq
    simp [spikes] at heq

theorem lt_of_toList (h : ∀ stop ∈ destinations.toList, ∀ p ∈ stop.2.toList, p < n) :
    ∀ (chip : Coord) set, destinations[chip]? = some set → ∀ p ∈ set, p < n :=
  fun _ _ hset p hp => h _ (Std.ExtTreeMap.mem_toList_iff_getElem?_eq_some.2 hset) p
    (Std.ExtTreeSet.mem_toList.2 hp)

theorem commit_records_looped :
    (∃ claimed paths,
      (looped.commit inRow 4 spikes).run.run otherPaths = (.ok claimed, paths) ∧
      Committed looped inRow 4 spikes otherPaths claimed paths) ∧
    ¬∃ claimed paths,
      (looped.commit inLoop 4 spikes).run.run otherPaths = (.ok claimed, paths) := by
  have hfirst : looped.Way ⟨1, 0⟩ [(⟨0, 0⟩, .east)] :=
    .step (by decide) (by decide +kernel) .source
  have hsecond : looped.Way ⟨2, 0⟩ [(⟨1, 0⟩, .east), (⟨0, 0⟩, .east)] :=
    .step (by decide) (by decide +kernel) hfirst
  have hback : ∀ chip ∈ inRow.chips, looped.LeadsBack chip := by
    rw [show inRow.chips = [⟨1, 0⟩, ⟨2, 0⟩] by decide +kernel, List.forall_mem_cons,
      List.forall_mem_singleton]
    exact ⟨⟨_, hfirst, hfirst.nodup⟩, _, hsecond, hsecond.nodup⟩
  have hthere : looped.Parent ⟨5, 5⟩ ⟨6, 6⟩ := ⟨by decide, .southWest, by decide +kernel⟩
  have hbackAgain : looped.Parent ⟨6, 6⟩ ⟨5, 5⟩ := ⟨by decide, .northEast, by decide +kernel⟩
  have hloop : TransGen looped.Parent ⟨5, 5⟩ ⟨5, 5⟩ := .tail (.single hthere) hbackAgain
  obtain ⟨hiff, hrecords, -⟩ := commit_records looped inRow 4
    entry?_otherPaths (lt_of_toList (by decide +kernel))
  obtain ⟨hiff', -, -⟩ := commit_records looped inLoop 4
    entry?_otherPaths (lt_of_toList (by decide +kernel))
  obtain ⟨claimed, paths, hrun⟩ := hiff.2 hback
  refine ⟨⟨claimed, paths, hrun, hrecords claimed paths hrun⟩, fun hok => ?_⟩
  obtain ⟨steps, hway, -⟩ := hiff'.1 hok ⟨5, 5⟩ (by decide +kernel)
  exact hway.not_cycle hloop

end MulticastMesh.Routing.Tree
