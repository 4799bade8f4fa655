import MulticastMesh.Proofs.Tables.Journeys
import MulticastMesh.Tables.Delivery
/-!
# Following packets

The check of deliveries walks the chips that packets of a key reach and stops at the first fault.
The chips that it has visited or still has to visit are the source and the ends of all links over
which packets leave a visited chip, each as often as there are such links.  So a chip comes up
twice just when packets enter it in two ways.
-/

namespace MulticastMesh.Tables

open Keys (Key)
open Mesh (Coord Link Machine)
open Outcome
open Routing (LinkFrom Route)

/-! ## Where packets go -/

/-- Packets of a key come to a chip. -/
def Reaches (m : Machine) (tables : TableSet) (k : Key) (source chip : Coord) : Prop :=
  ∃ hops, Journey m tables k source hops chip

/-- Packets of a key that are on the chip of a link leave it over the link and enter the next
chip. -/
def Enters (m : Machine) (tables : TableSet) (k : Key) (link : LinkFrom) (next : Coord) : Prop :=
  ∃ e, tables.lookup? link.1 k = some e ∧ link.2 ∈ e.route.links ∧
    m.linkTarget? link.1 link.2 = some next

def HandsOver (m : Machine) (tables : TableSet) (k : Key) (source chip : Coord)
    (processor : Nat) : Prop :=
  Reaches m tables k source chip ∧
    ∃ e, tables.lookup? chip k = some e ∧ processor ∈ e.route.processors

/-- Packets of a key are routed on every chip that they reach, over working links only, and enter
every chip in one way and the source in none. -/
structure OneWay (m : Machine) (tables : TableSet) (k : Key) (source : Coord) : Prop where
  matched : ∀ chip, Reaches m tables k source chip → ∃ e, tables.lookup? chip k = some e
  alive : ∀ chip e l, Reaches m tables k source chip → tables.lookup? chip k = some e →
    l ∈ e.route.links → ∃ next, m.linkTarget? chip l = some next
  entered : ∀ chip, Reaches m tables k source chip → chip ≠ source →
    ∃! link : LinkFrom, Reaches m tables k source link.1 ∧ Enters m tables k link chip
  source_left : ∀ link : LinkFrom, Reaches m tables k source link.1 →
    ¬ Enters m tables k link source

/-- On every chip that packets of a key reach, packets of another key take the same route. -/
def Alike (m : Machine) (tables : TableSet) (source : Coord) (k other : Key) : Prop :=
  ∀ chip e, Reaches m tables k source chip → tables.lookup? chip k = some e →
    ∃ f, tables.lookup? chip other = some f ∧ f.route = e.route

def InOrder (m : Machine) (tables : TableSet) (first : Key) (others : List Key)
    (chip : Coord) : Prop :=
  ∃ e, tables.lookup? chip first = some e ∧
    (∀ l ∈ e.route.links, ∃ next, m.linkTarget? chip l = some next) ∧
    ∀ k ∈ others, ∃ f, tables.lookup? chip k = some f ∧ f.route = e.route

def onward (m : Machine) (tables : TableSet) (k : Key) (chip : Coord) : List Coord :=
  match tables.lookup? chip k with
  | some e => e.route.links.filterMap (m.linkTarget? chip)
  | none => []

/-- Visits a chip: the route of the first key there, and where it leads. -/
def visitChip (m : Machine) (tables : TableSet) (first : Key) (others : List Key)
    (chip : Coord) : Except Misdelivery (Route × List Coord) := do
  let route ← routeOn tables chip first
  checkAlike tables chip first route others
  let next ← targets m chip route
  return (route, next)

def handOver (chip : Coord) (route : Route) (reached : Cores) : Cores :=
  route.processors.foldl (fun reached n => reached.insert (chip, n)) reached

/-- A finite walk over pending chips, with what it returns. -/
inductive FollowRun (m : Machine) (tables : TableSet) (first : Key) (others : List Key) :
    List Coord → List Coord → Cores → Except Misdelivery Cores → Prop where
  | done {visited : List Coord} {reached : Cores} :
      FollowRun m tables first others visited [] reached (.ok reached)
  | again {visited pending : List Coord} {reached : Cores} {chip : Coord}
      (hagain : chip ∈ visited) :
      FollowRun m tables first others visited (chip :: pending) reached
        (.error (.cycle chip first))
  | failed {visited pending : List Coord} {reached : Cores} {chip : Coord} {fault : Misdelivery}
      (hnew : chip ∉ visited) (hvisit : visitChip m tables first others chip = .error fault) :
      FollowRun m tables first others visited (chip :: pending) reached (.error fault)
  | visited {visited pending next : List Coord} {reached : Cores} {chip : Coord} {route : Route}
      {result : Except Misdelivery Cores} (hnew : chip ∉ visited)
      (hvisit : visitChip m tables first others chip = .ok (route, next))
      (hrest : FollowRun m tables first others (chip :: visited) (next.reverse ++ pending)
        (handOver chip route reached) result) :
      FollowRun m tables first others visited (chip :: pending) reached result

variable {m : Machine} {tables : TableSet} {first k : Key} {others : List Key}
  {source chip next : Coord} {visited pending after : List Coord} {reached : Cores}
  {route : Route} {l : Link} {e : Entry} {link link' : LinkFrom} {fuel : Nat}
  {result result' : Except Misdelivery Cores}

theorem reaches_source : Reaches m tables k source source :=
  ⟨[], .start⟩

theorem Enters.reaches (h : Enters m tables k link next)
    (hreaches : Reaches m tables k source link.1) : Reaches m tables k source next := by
  obtain ⟨e, hmatch, hl, htarget⟩ := h
  obtain ⟨hops, hj⟩ := hreaches
  exact ⟨_, hj.hop hmatch hl htarget⟩

theorem Reaches.induction {P : Coord → Prop} (h : Reaches m tables k source chip)
    (hsource : P source) (hstep : ∀ (link : LinkFrom) next, Enters m tables k link next →
      P link.1 → P next) : P chip := by
  obtain ⟨hops, hj⟩ := h
  induction hj with
  | start => exact hsource
  | @hop hops chip next e l _ hmatch hl htarget ih =>
      exact hstep (chip, l) next ⟨e, hmatch, hl, htarget⟩ ih

theorem mem_onward : next ∈ onward m tables k chip ↔ ∃ l, Enters m tables k (chip, l) next := by
  unfold onward Enters
  cases h : tables.lookup? chip k <;> simp [h]

/-! ## A visit -/

theorem routeOn_eq_ok : routeOn tables chip k = .ok route ↔
    ∃ e, tables.lookup? chip k = some e ∧ e.route = route := by
  unfold routeOn
  cases tables.lookup? chip k <;> simp

theorem checkAlike_cons : checkAlike tables chip first route (k :: others) =
    routeOn tables chip k >>= fun route' =>
      if route' = route then checkAlike tables chip first route others
      else .error (.partialCoverage chip k first) := by
  rw [checkAlike]
  refine bind_congr_ok fun route' _ => ?_
  by_cases h : route' = route
  · rw [if_pos h, if_neg (not_not.2 h)]
  · rw [if_neg h, if_pos h]
    rfl

theorem checkAlike_eq_ok {u : Unit} : checkAlike tables chip first route others = .ok u ↔
    ∀ k ∈ others, ∃ f, tables.lookup? chip k = some f ∧ f.route = route := by
  induction others with
  | nil => simp [checkAlike]
  | cons k rest ih =>
      rw [List.forall_mem_cons, ← ih, ← routeOn_eq_ok, checkAlike_cons, bind_eq_ok]
      constructor
      · rintro ⟨route', hk, hrest⟩
        split at hrest
        · next hroute =>
            subst hroute
            exact ⟨hk, hrest⟩
        · cases hrest
      · rintro ⟨hk, hrest⟩
        refine ⟨route, hk, ?_⟩
        rw [if_pos rfl]
        exact hrest

theorem targets_eq_ok : targets m chip route = .ok after ↔
    (∀ l ∈ route.links, ∃ c, m.linkTarget? chip l = some c) ∧
      after = route.links.filterMap (m.linkTarget? chip) := by
  unfold targets
  generalize route.links = links
  induction links generalizing after with
  | nil => simp [pure, Except.pure, eq_comm]
  | cons l rest ih =>
      rw [List.mapM_cons, List.forall_mem_cons, List.filterMap_cons]
      cases htarget : m.linkTarget? chip l with
      | none => simp [bind, Except.bind]
      | some c =>
          simp only [ok_bind, bind_eq_ok, ih, pure_eq_ok, Option.some.injEq, exists_eq',
            true_and, and_assoc, exists_and_left]
          constructor
          · rintro ⟨hrest, _, rfl, rfl⟩
            exact ⟨hrest, rfl⟩
          · rintro ⟨hrest, rfl⟩
            exact ⟨hrest, _, rfl, rfl⟩

theorem visitChip_eq_ok : visitChip m tables first others chip = .ok (route, after) ↔
    InOrder m tables first others chip ∧ after = onward m tables first chip ∧
      ∃ e, tables.lookup? chip first = some e ∧ e.route = route := by
  unfold visitChip InOrder onward
  simp only [bind_eq_ok, pure_eq_ok, routeOn_eq_ok, checkAlike_eq_ok, targets_eq_ok,
    Prod.mk.injEq]
  constructor
  · rintro ⟨_, ⟨e, he, rfl⟩, ⟨_, halike, _, ⟨hlive, rfl⟩, rfl, rfl⟩⟩
    refine ⟨⟨e, he, hlive, halike⟩, ?_, e, he, rfl⟩
    rw [he]
  · rintro ⟨⟨e, he, hlive, halike⟩, rfl, e', he', rfl⟩
    cases he.symm.trans he'
    refine ⟨_, ⟨e, he, rfl⟩, (), halike, _, ⟨hlive, rfl⟩, rfl, ?_⟩
    rw [he]

theorem exists_visitChip (h : InOrder m tables first others chip) :
    ∃ route, visitChip m tables first others chip = .ok (route, onward m tables first chip) := by
  obtain ⟨e, he, _⟩ := id h
  exact ⟨e.route, visitChip_eq_ok.2 ⟨h, rfl, e, he, rfl⟩⟩

theorem OneWay.inOrder (h : OneWay m tables first source)
    (halike : ∀ k ∈ others, Alike m tables source first k)
    (hreaches : Reaches m tables first source chip) : InOrder m tables first others chip := by
  obtain ⟨e, he⟩ := h.matched chip hreaches
  exact ⟨e, he, fun l hl => h.alive chip e l hreaches he hl,
    fun k hk => halike k hk chip e hreaches he⟩

theorem mem_handOver {core : Coord × Nat} : core ∈ handOver chip route reached ↔
    core ∈ reached ∨ ∃ n ∈ route.processors, (chip, n) = core := by
  unfold handOver
  induction route.processors generalizing reached with
  | nil => simp
  | cons n rest ih =>
      rw [List.foldl_cons, ih, Std.ExtTreeSet.mem_insert, Std.LawfulEqCmp.compare_eq_iff_eq,
        List.exists_mem_cons_iff, or_assoc, or_left_comm]

/-! ## Runs of the check -/

theorem follow_cons : follow m tables first others (fuel + 1) visited (chip :: pending) reached =
    if chip ∈ visited then .error (.cycle chip first)
    else visitChip m tables first others chip >>= fun (route, next) =>
      follow m tables first others fuel (chip :: visited) (next.reverse ++ pending)
        (handOver chip route reached) := by
  rw [follow, visitChip]
  by_cases hvisited : chip ∈ visited
  · simp only [List.contains_eq_mem, hvisited, decide_true, if_true]
    rfl
  · simp only [List.contains_eq_mem, hvisited, decide_false, Bool.false_eq_true, if_false,
      bind_assoc, pure_bind]
    rfl

theorem length_visited_le (hnodup : visited.Nodup)
    (hmatched : ∀ c ∈ visited, ∃ e, tables.lookup? c k = some e) :
    visited.length ≤ tables.size := by
  -- visited chips are keys of the map of tables
  have hsub : visited ⊆ tables.byChip.keys := by
    intro c hc
    obtain ⟨e, he⟩ := hmatched c hc
    obtain ⟨entries, hentries, _⟩ := lookup?_eq_some_iff.1 he
    rw [Std.ExtTreeMap.mem_keys, ← Std.ExtTreeMap.isSome_getElem?_iff_mem]
    exact Option.isSome_iff_exists.2 ⟨entries, hentries⟩
  unfold TableSet.size
  rw [← Std.ExtTreeMap.length_keys]
  exact (hnodup.subperm hsub).length_le

/-- Every walk ends: each step but the last visits a new chip with a table. -/
theorem followRun_follow (hnodup : visited.Nodup)
    (hmatched : ∀ c ∈ visited, ∃ e, tables.lookup? c first = some e)
    (hfuel : tables.size < fuel + visited.length) :
    FollowRun m tables first others visited pending reached
      (follow m tables first others fuel visited pending reached) := by
  induction fuel generalizing visited pending reached with
  | zero =>
      have hlength := length_visited_le hnodup hmatched
      omega
  | succ fuel ih =>
      cases pending with
      | nil => exact .done
      | cons chip pending =>
          rw [follow_cons]
          split
          · next hagain => exact .again hagain
          · next hnew =>
              cases hvisit : visitChip m tables first others chip with
              | error fault => exact .failed hnew hvisit
              | ok visit =>
                  obtain ⟨_, _, e, he, _⟩ := visitChip_eq_ok.1 hvisit
                  refine .visited hnew hvisit (ih (hnodup.cons hnew) ?_ ?_)
                  · rw [List.forall_mem_cons]
                    exact ⟨⟨e, he⟩, hmatched⟩
                  · rw [List.length_cons]
                    omega

theorem FollowRun.unique (h : FollowRun m tables first others visited pending reached result)
    (h' : FollowRun m tables first others visited pending reached result') : result = result' := by
  induction h with
  | done =>
      cases h' with
      | done => rfl
  | again hagain =>
      cases h' with
      | again _ => rfl
      | failed hnew _ => exact absurd hagain hnew
      | visited hnew _ _ => exact absurd hagain hnew
  | failed hnew hvisit =>
      cases h' with
      | again hagain => exact absurd hagain hnew
      | failed _ hvisit' =>
          cases hvisit.symm.trans hvisit'
          rfl
      | visited _ hvisit' _ => cases hvisit.symm.trans hvisit'
  | visited hnew hvisit _ ih =>
      cases h' with
      | again hagain => exact absurd hagain hnew
      | failed _ hvisit' => cases hvisit.symm.trans hvisit'
      | visited _ hvisit' hrest' =>
          cases hvisit.symm.trans hvisit'
          exact ih hrest'

theorem followRun_iff : FollowRun m tables first others [] [source] ∅ result ↔
    trace m tables source (first :: others) = result := by
  have hrun : FollowRun m tables first others [] [source] ∅
      (trace m tables source (first :: others)) :=
    followRun_follow .nil (by simp) (by simp)
  exact ⟨hrun.unique, fun h => h ▸ hrun⟩

theorem nodup_links (route : Route) : route.links.Nodup := by
  have hall : Link.all.Nodup := by decide
  exact hall.filter _

/-! ## What a walk finds -/

theorem OneWay.unique (h : OneWay m tables k source) (hreaches : Reaches m tables k source link.1)
    (henters : Enters m tables k link next) (hreaches' : Reaches m tables k source link'.1)
    (henters' : Enters m tables k link' next) : link = link' := by
  by_cases hnext : next = source
  · subst hnext
    exact absurd henters (h.source_left link hreaches)
  · exact (h.entered next (henters.reaches hreaches) hnext).unique ⟨hreaches, henters⟩
      ⟨hreaches', henters'⟩

theorem nodup_onward_iff : (onward m tables k chip).Nodup ↔
    ∀ l l' next, Enters m tables k (chip, l) next → Enters m tables k (chip, l') next → l = l' := by
  unfold onward Enters
  cases hmatch : tables.lookup? chip k with
  | none => simp [hmatch]
  | some e =>
      simp only [hmatch, Option.some.injEq, exists_eq_left']
      unfold List.Nodup
      rw [List.pairwise_filterMap]
      constructor
      · rintro hapart l l' next ⟨hl, htarget⟩ ⟨hl', htarget'⟩
        have : Std.Symm fun l l' => ∀ c, m.linkTarget? chip l = some c →
            ∀ c', m.linkTarget? chip l' = some c' → c ≠ c' :=
          ⟨fun l l' h c hc c' hc' heq => h c' hc' c hc heq.symm⟩
        by_contra hne
        exact hapart.forall hl hl' hne next htarget next htarget' rfl
      · intro hunique
        refine (nodup_links e.route).imp_of_mem fun {l l'} hl hl' hne c hc c' hc' heq => ?_
        subst heq
        exact hne (hunique l l' c ⟨hl, hc⟩ ⟨hl', hc'⟩)

/-- Where packets have one way, no link leads into the source or where another one leads. -/
theorem OneWay.nodup_onward (h : OneWay m tables k source) (hnodup : visited.Nodup)
    (hreaches : ∀ c ∈ visited, Reaches m tables k source c) :
    (source :: visited.flatMap (onward m tables k)).Nodup := by
  rw [List.nodup_cons, List.nodup_flatMap]
  refine ⟨?_, ?_, ?_⟩
  · intro hsource
    obtain ⟨c, hc, hnext⟩ := List.mem_flatMap.1 hsource
    obtain ⟨l, henters⟩ := mem_onward.1 hnext
    exact h.source_left (c, l) (hreaches c hc) henters
  · intro c hc
    rw [nodup_onward_iff]
    intro l l' next henters henters'
    have hsame := h.unique (hreaches c hc) henters (hreaches c hc) henters'
    exact congrArg Prod.snd hsame
  · refine hnodup.imp_of_mem fun {c c'} hc hc' hne next hnext hnext' => ?_
    obtain ⟨l, henters⟩ := mem_onward.1 hnext
    obtain ⟨l', henters'⟩ := mem_onward.1 hnext'
    have hsame := h.unique (hreaches c hc) henters (hreaches c' hc') henters'
    exact hne (congrArg Prod.fst hsame)

/-- The visited chips are in order, each was visited once, and the chips that came up so far are
the source and the chips that packets enter from visited ones. -/
structure Followed (m : Machine) (tables : TableSet) (first : Key) (others : List Key)
    (source : Coord) (visited pending : List Coord) (reached : Cores) : Prop where
  inOrder : ∀ c ∈ visited, InOrder m tables first others c
  nodup : visited.Nodup
  reaches : ∀ c ∈ visited ++ pending, Reaches m tables first source c
  cameUp : (visited ++ pending).Perm (source :: visited.flatMap (onward m tables first))
  reached : ∀ c n, (c, n) ∈ reached ↔
    c ∈ visited ∧ ∃ e, tables.lookup? c first = some e ∧ n ∈ e.route.processors

theorem followed_start : Followed m tables first others source [] [source] ∅ where
  inOrder := by simp
  nodup := .nil
  reaches := by simpa using reaches_source
  cameUp := .refl _
  reached := by simp

theorem Followed.visit
    (hf : Followed m tables first others source visited (chip :: pending) reached)
    (hnew : chip ∉ visited) (hvisit : visitChip m tables first others chip = .ok (route, after)) :
    Followed m tables first others source (chip :: visited) (after.reverse ++ pending)
      (handOver chip route reached) := by
  obtain ⟨hchip, rfl, e, he, rfl⟩ := visitChip_eq_ok.1 hvisit
  have hreaches : Reaches m tables first source chip := hf.reaches chip (by simp)
  refine ⟨?_, hf.nodup.cons hnew, ?_, ?_, ?_⟩
  · rw [List.forall_mem_cons]
    exact ⟨hchip, hf.inOrder⟩
  · intro c hc
    simp only [List.cons_append, List.mem_cons, List.mem_append, List.mem_reverse] at hc
    rcases hc with rfl | hc | hc | hc
    · exact hreaches
    · exact hf.reaches c (by simp [hc])
    · obtain ⟨l, henters⟩ := mem_onward.1 hc
      exact henters.reaches hreaches
    · exact hf.reaches c (by simp [hc])
  · -- the chip moves from pending to visited, and what it leads to comes up
    have hold := hf.cameUp
    rw [List.perm_iff_count] at hold ⊢
    intro c
    have hcount := hold c
    simp only [List.flatMap_cons, List.count_append, List.count_cons, List.count_reverse,
      List.cons_append] at hcount ⊢
    omega
  · intro c n
    rw [mem_handOver, hf.reached, List.mem_cons]
    constructor
    · rintro (⟨hc, hn⟩ | ⟨n', hn', heq⟩)
      · exact ⟨.inr hc, hn⟩
      · cases heq
        exact ⟨.inl rfl, e, he, hn'⟩
    · rintro ⟨rfl | hc, f, hf', hn⟩
      · cases he.symm.trans hf'
        exact .inr ⟨n, hn, rfl⟩
      · exact .inl ⟨hc, f, hf', hn⟩

theorem Followed.visited_of_reaches
    (hf : Followed m tables first others source visited [] reached)
    (h : Reaches m tables first source chip) : chip ∈ visited := by
  have hcameUp : ∀ c, c ∈ visited ↔ c = source ∨ c ∈ visited.flatMap (onward m tables first) := by
    intro c
    rw [← List.mem_cons, ← hf.cameUp.mem_iff, List.append_nil]
  refine h.induction ((hcameUp source).2 (.inl rfl)) fun link next henters hlink => ?_
  exact (hcameUp next).2 (.inr (List.mem_flatMap.2 ⟨link.1, hlink, mem_onward.2 ⟨_, henters⟩⟩))

/-- When nothing is pending, packets had one way only. -/
theorem Followed.oneWay (hf : Followed m tables first others source visited [] reached) :
    OneWay m tables first source := by
  have hcameUp : (source :: visited.flatMap (onward m tables first)).Nodup := by
    rw [← hf.cameUp.nodup_iff, List.append_nil]
    exact hf.nodup
  rw [List.nodup_cons, List.nodup_flatMap] at hcameUp
  obtain ⟨hsource, honward, hapart⟩ := hcameUp
  refine ⟨?_, ?_, ?_, ?_⟩
  · intro chip hreaches
    obtain ⟨e, he, _⟩ := hf.inOrder chip (hf.visited_of_reaches hreaches)
    exact ⟨e, he⟩
  · intro chip e l hreaches hmatch hl
    obtain ⟨e', he, hlive, _⟩ := hf.inOrder chip (hf.visited_of_reaches hreaches)
    cases hmatch.symm.trans he
    exact hlive l hl
  · intro chip hreaches hne
    have hentered : chip ∈ visited.flatMap (onward m tables first) := by
      have hmem := hf.cameUp.mem_iff.1 (by simpa using hf.visited_of_reaches hreaches)
      exact (List.mem_cons.1 hmem).resolve_left hne
    obtain ⟨c, hc, hchip⟩ := List.mem_flatMap.1 hentered
    obtain ⟨l, henters⟩ := mem_onward.1 hchip
    refine ⟨(c, l), ⟨hf.reaches c (by simpa using hc), henters⟩, ?_⟩
    rintro ⟨c', l'⟩ ⟨hreaches', henters'⟩
    have hc' := hf.visited_of_reaches hreaches'
    by_cases hsame : c' = c
    · subst hsame
      rw [nodup_onward_iff.1 (honward c' hc) l' l chip henters' henters]
    · -- two chips that lead to one would list it twice
      have : Std.Symm (Function.onFun List.Disjoint (onward m tables first)) :=
        ⟨fun _ _ h => h.symm⟩
      have hdisjoint := hapart.forall hc' hc hsame
      exact absurd hchip (hdisjoint (mem_onward.2 ⟨l', henters'⟩))
  · intro link hreaches henters
    apply hsource
    exact List.mem_flatMap.2
      ⟨link.1, hf.visited_of_reaches hreaches, mem_onward.2 ⟨_, henters⟩⟩

/-- What the result of a walk says: packets have one way and the cores are those that they are
handed to, or something is wrong with their way. -/
def Traces (m : Machine) (tables : TableSet) (first : Key) (others : List Key) (source : Coord) :
    Except Misdelivery Cores → Prop
  | .ok cores => OneWay m tables first source ∧ (∀ k ∈ others, Alike m tables source first k) ∧
      ∀ c n, (c, n) ∈ cores ↔ HandsOver m tables first source c n
  | .error _ => ¬ (OneWay m tables first source ∧ ∀ k ∈ others, Alike m tables source first k)

theorem FollowRun.traces (h : FollowRun m tables first others visited pending reached result)
    (hf : Followed m tables first others source visited pending reached) :
    Traces m tables first others source result := by
  induction h with
  | @done visited reached =>
      refine ⟨hf.oneWay, fun k hk chip e hreaches he => ?_, fun c n => ?_⟩
      · obtain ⟨e', he', _, halike⟩ := hf.inOrder chip (hf.visited_of_reaches hreaches)
        cases he.symm.trans he'
        exact halike k hk
      · rw [hf.reached]
        have hvisited : c ∈ visited ↔ Reaches m tables first source c :=
          ⟨fun hc => hf.reaches c (by simpa using hc), hf.visited_of_reaches⟩
        rw [hvisited]
        rfl
  | @again visited pending reached chip hagain =>
      -- the chip has come up twice
      rintro ⟨hway, _⟩
      have hnodup := hway.nodup_onward hf.nodup fun c hc => hf.reaches c (by simp [hc])
      rw [← hf.cameUp.nodup_iff, List.nodup_append] at hnodup
      exact hnodup.2.2 chip hagain chip (by simp) rfl
  | @failed visited pending reached chip fault hnew hvisit =>
      rintro ⟨hway, halike⟩
      obtain ⟨route, hroute⟩ :=
        exists_visitChip (hway.inOrder halike (hf.reaches chip (by simp)))
      cases hvisit.symm.trans hroute
  | visited hnew hvisit _ ih => exact ih (hf.visit hnew hvisit)

theorem trace_traces : Traces m tables first others source
    (trace m tables source (first :: others)) :=
  (followRun_iff.2 rfl).traces followed_start

end MulticastMesh.Tables
