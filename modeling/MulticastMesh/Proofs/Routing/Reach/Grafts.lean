import MulticastMesh.Proofs.Routing.Reach.Breadth
/-!
# Shortest grafts

Every round of growing a tree adds a path of new chips that is no longer than any path from the
tree to a chip that is still pending.  Nothing but these paths is ever added: every chip of the
tree lies on the way to a destination, and the tree has no more links than separate shortest paths
to all destinations would have.
-/

namespace MulticastMesh.Routing

open Mesh (Coord Link Machine MachineSpec)
open Outcome
open Relation (ReflTransGen)

namespace Tree

variable {t : Tree} {chip c a b : Coord} {steps hops : List LinkFrom}

def OnWay (t : Tree) (chip c : Coord) : Prop :=
  ∃ steps, t.Way chip steps ∧ (c = chip ∨ c ∈ steps.map Prod.fst)

theorem Way.onWay (h : t.Way chip steps) (hbehind : ReflTransGen t.Parent chip c) :
    t.OnWay chip c := by
  refine ⟨steps, h, ?_⟩
  induction hbehind using ReflTransGen.head_induction_on generalizing steps with
  | refl => exact .inl rfl
  | head hparent _ ih =>
      obtain ⟨l, rest, rfl, hway⟩ := h.parent hparent
      rcases ih hway with rfl | hmem
      · exact .inr (by simp)
      · exact .inr (by simp [hmem])

theorem Way.onWay_source (h : t.Way chip steps) : t.OnWay chip t.source := by
  refine ⟨steps, h, ?_⟩
  induction h with
  | source => exact .inl rfl
  | step _ _ _ ih =>
      rcases ih with heq | hmem
      · exact .inr (by simp [heq])
      · exact .inr (by simp [hmem])

/-! ## Attaching a path -/

def addHop (t : Tree) (chip : Coord) (hop : LinkFrom) : Tree :=
  { t with cameFrom := t.cameFrom.insert chip hop }

theorem getElem?_addHop {hop : LinkFrom} :
    (t.addHop chip hop).cameFrom[c]? = if chip = c then some hop else t.cameFrom[c]? :=
  Maps.getElem?_insert_eq_ite

theorem contains_addHop {hop : LinkFrom} :
    (t.addHop chip hop).contains c = true ↔ chip = c ∨ t.contains c = true := by
  rw [contains_iff, contains_iff, getElem?_addHop]
  by_cases hc : chip = c
  · simp [hc]
  · simp [hc, addHop]

/-- The tree with the hops of a path to a chip, the last one first. -/
def attach (t : Tree) : Coord → List LinkFrom → Tree
  | _, [] => t
  | chip, hop :: hops => (t.addHop chip hop).attach hop.1 hops

theorem attach_source : (t.attach chip hops).source = t.source := by
  induction hops generalizing t chip with
  | nil => rfl
  | cons hop hops ih => exact ih

theorem getElem?_attach (h : c ∉ Steiner.entered chip hops) :
    (t.attach chip hops).cameFrom[c]? = t.cameFrom[c]? := by
  induction hops generalizing t chip with
  | nil => rfl
  | cons hop hops ih =>
      obtain ⟨hne, hrest⟩ := not_or.1 (List.mem_cons.not.1 h)
      refine (ih hrest).trans ?_
      rw [getElem?_addHop, if_neg (Ne.symm hne)]

theorem parent_attach (h : t.Parent a b) (ha : a ∉ Steiner.entered chip hops) :
    (t.attach chip hops).Parent a b := by
  obtain ⟨hne, l, hstep⟩ := h
  refine ⟨?_, l, ?_⟩
  · rw [attach_source]
    exact hne
  · rw [getElem?_attach ha]
    exact hstep

/-- All chips entered lie behind the end of the path. -/
theorem behind_attach (hnodup : (Steiner.entered chip hops).Nodup)
    (hsource : t.source ∉ Steiner.entered chip hops) :
    ∀ c ∈ Steiner.entered chip hops, ReflTransGen (t.attach chip hops).Parent chip c := by
  induction hops generalizing t chip with
  | nil => simp [Steiner.entered]
  | cons hop hops ih =>
      obtain ⟨hnew, hrest⟩ := List.nodup_cons.1 hnodup
      obtain ⟨hne, hsource'⟩ := not_or.1 (List.mem_cons.not.1 hsource)
      have hparent : (t.addHop chip hop).Parent chip hop.1 :=
        ⟨Ne.symm hne, hop.2, by rw [getElem?_addHop, if_pos rfl]⟩
      have hattached := parent_attach hparent hnew
      have hbehind := ih (t := t.addHop chip hop) hrest hsource'
      exact List.forall_mem_cons.2 ⟨.refl, fun c hc => .head hattached (hbehind c hc)⟩

theorem size_addHop {hop : LinkFrom} (h : t.cameFrom[chip]? = none) :
    (t.addHop chip hop).cameFrom.size = t.cameFrom.size + 1 := by
  unfold addHop
  rw [Std.ExtTreeMap.size_insert, if_neg]
  rw [Std.ExtTreeMap.contains_eq_isSome_getElem?, h]
  simp

/-- A path of new chips adds as many links as it has hops. -/
theorem size_attach (hnodup : (Steiner.entered chip hops).Nodup)
    (hnew : ∀ c ∈ Steiner.entered chip hops, t.cameFrom[c]? = none) :
    (t.attach chip hops).cameFrom.size = t.cameFrom.size + hops.length := by
  induction hops generalizing t chip with
  | nil => rfl
  | cons hop hops ih =>
      obtain ⟨hfresh, hrest⟩ := List.nodup_cons.1 hnodup
      obtain ⟨hchip, hnew'⟩ := List.forall_mem_cons.1 hnew
      have hlater : ∀ c ∈ Steiner.entered hop.1 hops,
          (t.addHop chip hop).cameFrom[c]? = none := by
        intro c hc
        rw [getElem?_addHop, if_neg]
        · exact hnew' c hc
        · rintro rfl
          exact hfresh hc
      have hsize := ih hrest hlater
      rw [size_addHop hchip] at hsize
      rw [attach, hsize, List.length_cons]
      omega

end Tree

namespace Steiner

variable {d : MachineSpec} {m : Machine} {t t' : Tree} {reached : Reached}
  {seeds pending rest destinations : List Coord} {source chip found first c : Coord}
  {hops : List LinkFrom} {fuel : Nat}

theorem eq_attach_of_graft (hback : Back reached seeds chip hops)
    (hold : ∀ c ∈ seeds, t.contains c = true) (hnodup : (entered chip hops).Nodup)
    (hnew : ∀ c ∈ entered chip hops, t.contains c = false)
    (hrun : graft reached fuel t chip = .ok t') : t' = t.attach chip hops := by
  induction hback generalizing t fuel with
  | seed hseed =>
      cases fuel with
      | zero => cases hrun
      | succ fuel =>
          rw [graft, if_pos (hold _ hseed)] at hrun
          cases hrun
          rfl
  | @step chip previous l hops _ hstep _ ih =>
      obtain ⟨hfresh, hrest⟩ := List.nodup_cons.1 hnodup
      obtain ⟨hchip, hnew'⟩ := List.forall_mem_cons.1 hnew
      cases fuel with
      | zero => cases hrun
      | succ fuel =>
          rw [graft, if_neg (by simp [hchip]), hstep] at hrun
          -- the chip added last is not met again further back
          have hlater : ∀ c ∈ entered previous hops,
              (t.addHop chip (previous, l)).contains c = false := by
            intro c hc
            rw [Bool.eq_false_iff, Ne, Tree.contains_addHop, hnew' c hc]
            rintro (rfl | hfalse)
            · exact hfresh hc
            · cases hfalse
          exact ih (fun c hc => Tree.contains_addHop.2 (.inr (hold c hc))) hrest hlater hrun

/-! ## One round -/

/-- A round of growing a tree: the search for a pending chip and the graft of the way back. -/
def round (m : Machine) (t : Tree) (first : Coord) (rest : List Coord) : Outcome Tree :=
  let seeds := t.source :: t.cameFrom.keys
  match nearest? m (first :: rest) (m.chipCount + seeds.length + 1) seeds ∅ seeds with
  | none => .error ⟨[], .routing (.unreachable t.source first)⟩
  | some (found, reached) => graft reached (reached.size + 1) t found

theorem grow_cons : grow m (fuel + 1) t (first :: rest) = round m t first rest >>= fun t' =>
    grow m fuel t' ((first :: rest).filter fun c => !t'.contains c) := by
  unfold round
  rw [grow]
  simp only
  cases nearest? m (first :: rest) (m.chipCount + (t.source :: t.cameFrom.keys).length + 1)
      (t.source :: t.cameFrom.keys) ∅ (t.source :: t.cameFrom.keys) with
  | none => rfl
  | some result => rfl

/-- A path of new chips from a tree to a pending chip, and no path from the tree to any pending
chip is shorter. -/
structure ShortestGraft (m : Machine) (t : Tree) (pending : List Coord) (found : Coord)
    (hops : List LinkFrom) (t' : Tree) : Prop where
  mem : found ∈ pending
  path : ∃ start, t.contains start = true ∧ Leads m start found hops
  nodup : (entered found hops).Nodup
  new : ∀ c ∈ entered found hops, t.contains c = false
  attached : t' = t.attach found hops
  shortest : ∀ start, t.contains start = true → ∀ c ∈ pending, ∀ hops',
    Leads m start c hops' → hops.length ≤ hops'.length

section

variable (h : ShortestGraft m t pending found hops t')

include h

theorem ShortestGraft.not_stepped (hc : c ∈ entered found hops) : t.cameFrom[c]? = none := by
  have hout := h.new c hc
  cases hstep : t.cameFrom[c]? with
  | none => rfl
  | some step =>
      rw [Tree.contains_iff.2 (.inr ⟨step, hstep⟩)] at hout
      cases hout

theorem ShortestGraft.source_eq : t'.source = t.source := by
  rw [h.attached, Tree.attach_source]

theorem ShortestGraft.parent {a b : Coord} (hparent : t.Parent a b) : t'.Parent a b := by
  rw [h.attached]
  refine Tree.parent_attach hparent fun hmem => ?_
  obtain ⟨_, l, hstep⟩ := hparent
  cases (h.not_stepped hmem).symm.trans hstep

/-- A step of the larger tree is one of the path or was there before. -/
theorem ShortestGraft.step {step : LinkFrom} (hstep : t'.cameFrom[c]? = some step) :
    ReflTransGen t'.Parent found c ∨ t.cameFrom[c]? = some step := by
  rw [h.attached] at hstep ⊢
  by_cases hc : c ∈ entered found hops
  · have hsource : t.source ∉ entered found hops := by
      intro hmem
      have hout := h.new t.source hmem
      rw [Tree.contains_iff.2 (.inl rfl)] at hout
      cases hout
    exact .inl (Tree.behind_attach h.nodup hsource c hc)
  · rw [Tree.getElem?_attach hc] at hstep
    exact .inr hstep

theorem ShortestGraft.size_eq : t'.cameFrom.size = t.cameFrom.size + hops.length := by
  rw [h.attached]
  exact Tree.size_attach h.nodup fun c hc => h.not_stepped hc

end

theorem round_spec (rest : List Coord) (hm : Machine.Fulfils d m) (ht : t.Sound m)
    (hreach : InReach m t.source first) :
    ∃ t' found hops, round m t first rest = .ok t' ∧
      ShortestGraft m t (first :: rest) found hops t' ∧ t'.Sound m ∧
      t'.contains found = true ∧ ∀ c, t.contains c = true → t'.contains c = true := by
  unfold round
  simp only
  split
  · next hnone => exact absurd hreach (not_inReach_of_none hm hnone first List.mem_cons_self)
  · next found reached hfound =>
      obtain ⟨_, t', hrun, ht', _, hmono, hcontains⟩ := graft_found ht hfound
      obtain ⟨hpending, hops, hback, hnodup, ⟨start, hstart, hpath⟩, hshortest⟩ :=
        nearest?_shortest hfound
      have hnew : ∀ c ∈ entered found hops, t.contains c = false :=
        fun c hc => Bool.eq_false_iff.2 fun hold => hback.entered_new c hc (mem_seeds.2 hold)
      have hattached := eq_attach_of_graft hback (fun c hc => mem_seeds.1 hc) hnodup hnew hrun
      refine ⟨t', found, hops, hrun, ?_, ht', hcontains, hmono⟩
      exact {
        mem := hpending
        path := ⟨start, mem_seeds.1 hstart, hpath⟩
        nodup := hnodup
        new := hnew
        attached := hattached
        shortest := fun start hstart c hc hops' hpath' =>
          hshortest start (mem_seeds.2 hstart) c hc hops' hpath' }

/-! ## All rounds -/

def pendingIn (destinations : List Coord) (t : Tree) : List Coord :=
  destinations.filter fun c => !t.contains c

def Next (m : Machine) (destinations : List Coord) (t t' : Tree) : Prop :=
  ∃ first rest, pendingIn destinations t = first :: rest ∧ round m t first rest = .ok t'

/-- The trees that growing goes through, from the source alone on. -/
def Grown (m : Machine) (source : Coord) (destinations : List Coord) : Tree → Prop :=
  ReflTransGen (Next m destinations) (.root source)

theorem mem_pendingIn : c ∈ pendingIn destinations t ↔ c ∈ destinations ∧ t.contains c = false := by
  simp [pendingIn]

theorem pendingIn_later (hmono : ∀ c, t.contains c = true → t'.contains c = true) :
    (pendingIn destinations t).filter (fun c => !t'.contains c) = pendingIn destinations t' := by
  unfold pendingIn
  rw [List.filter_filter]
  refine List.filter_congr fun c _ => ?_
  cases hc : t.contains c with
  | true => simp [hmono c hc]
  | false => simp

/-- Shortest paths that are needed for the destinations in a tree, if none share a link. -/
noncomputable def separateHops (m : Machine) (source : Coord) (destinations : List Coord)
    (t : Tree) : Nat :=
  (destinations.map fun c => if t.contains c then distance m source c else 0).sum

/-- A tree of which every chip is needed for a destination. -/
structure Thrifty (m : Machine) (source : Coord) (destinations : List Coord) (t : Tree) :
    Prop where
  sound : t.Sound m
  source_eq : t.source = source
  needed : ∀ (chip : Coord) step, t.cameFrom[chip]? = some step →
    ∃ c ∈ destinations, t.contains c = true ∧ ReflTransGen t.Parent c chip
  size_le : t.cameFrom.size ≤ separateHops m source destinations t

theorem thrifty_root : Thrifty m source destinations (.root source) where
  sound := sound_root m source
  source_eq := rfl
  needed := by simp [Tree.root]
  size_le := by simp [Tree.root]

theorem le_separateHops (hfound : found ∈ destinations) (hnew : t.contains found = false)
    (hcontains : t'.contains found = true)
    (hmono : ∀ c, t.contains c = true → t'.contains c = true) :
    separateHops m source destinations t + distance m source found ≤
      separateHops m source destinations t' := by
  unfold separateHops
  have hle : ∀ c, (if t.contains c then distance m source c else 0) ≤
      if t'.contains c then distance m source c else 0 := by
    intro c
    split
    · next hc => rw [if_pos (hmono c hc)]
    · exact Nat.zero_le _
  induction destinations with
  | nil => cases hfound
  | cons c destinations ih =>
      rw [List.map_cons, List.map_cons, List.sum_cons, List.sum_cons]
      rcases List.mem_cons.1 hfound with rfl | hfound
      · have hrest := List.sum_le_sum fun c (_ : c ∈ destinations) => hle c
        rw [if_pos hcontains, if_neg (by simp [hnew])]
        omega
      · have := hle c
        have := ih hfound
        omega

/-- A shortest graft keeps a tree thrifty: its path is no longer than a path from the source. -/
theorem Thrifty.graft (h : Thrifty m source destinations t)
    (hg : ShortestGraft m t (pendingIn destinations t) found hops t') (hsound : t'.Sound m)
    (hcontains : t'.contains found = true)
    (hmono : ∀ c, t.contains c = true → t'.contains c = true)
    (hreach : InReach m source found) : Thrifty m source destinations t' := by
  obtain ⟨hfound, hnew⟩ := mem_pendingIn.1 hg.mem
  constructor
  case sound => exact hsound
  case source_eq => exact hg.source_eq.trans h.source_eq
  case needed =>
    intro chip step hstep
    rcases hg.step hstep with hbehind | hold
    · exact ⟨found, hfound, hcontains, hbehind⟩
    · obtain ⟨c, hc, hin, hbehind⟩ := h.needed chip step hold
      exact ⟨c, hc, hmono c hin, ReflTransGen.mono (fun _ _ => hg.parent) c chip hbehind⟩
  case size_le =>
    have hstart : t.contains source = true := Tree.contains_iff.2 (.inl h.source_eq.symm)
    have hshort : hops.length ≤ distance m source found := by
      obtain ⟨hops', hpath, hlength⟩ := hreach.exists_shortest
      rw [← hlength]
      exact hg.shortest source hstart found hg.mem hops' hpath
    calc t'.cameFrom.size = t.cameFrom.size + hops.length := hg.size_eq
      _ ≤ separateHops m source destinations t + distance m source found :=
        Nat.add_le_add h.size_le hshort
      _ ≤ separateHops m source destinations t' := le_separateHops hfound hnew hcontains hmono

section

variable (hm : Machine.Fulfils d m) (hreach : ∀ c ∈ destinations, InReach m source c)

include hm hreach

theorem Thrifty.round (h : Thrifty m source destinations t)
    (hpending : pendingIn destinations t = first :: rest) :
    ∃ t' found hops, Steiner.round m t first rest = .ok t' ∧
      ShortestGraft m t (first :: rest) found hops t' ∧ Thrifty m source destinations t' ∧
      t'.contains found = true ∧ ∀ c, t.contains c = true → t'.contains c = true := by
  have hin : ∀ c ∈ first :: rest, InReach m source c := by
    intro c hc
    rw [← hpending] at hc
    exact hreach c (mem_pendingIn.1 hc).1
  obtain ⟨t', found, hops, hrun, hg, hsound, hcontains, hmono⟩ :=
    round_spec rest hm h.sound (h.source_eq ▸ hin first List.mem_cons_self)
  refine ⟨t', found, hops, hrun, hg, ?_, hcontains, hmono⟩
  have hfound := hin found hg.mem
  rw [← hpending] at hg
  exact h.graft hg hsound hcontains hmono hfound

theorem Grown.thrifty (h : Grown m source destinations t) : Thrifty m source destinations t := by
  induction h with
  | refl => exact thrifty_root
  | tail _ hnext ih =>
      obtain ⟨first, rest, hpending, hrun⟩ := hnext
      obtain ⟨t', _, _, hrun', _, ht', _⟩ := ih.round hm hreach hpending
      cases hrun.symm.trans hrun'
      exact ht'

theorem grow_grown (h : Grown m source destinations t)
    (hfuel : (pendingIn destinations t).length ≤ fuel) :
    ∃ t', grow m fuel t (pendingIn destinations t) = .ok t' ∧ Grown m source destinations t' ∧
      pendingIn destinations t' = [] := by
  induction fuel generalizing t with
  | zero =>
      have hnil := List.length_eq_zero_iff.1 (Nat.le_zero.1 hfuel)
      exact ⟨t, rfl, h, hnil⟩
  | succ fuel ih =>
      cases hpending : pendingIn destinations t with
      | nil => exact ⟨t, rfl, h, hpending⟩
      | cons first rest =>
          obtain ⟨t', found, _, hrun, hg, _, hcontains, hmono⟩ :=
            (h.thrifty hm hreach).round hm hreach hpending
          have hnext : Grown m source destinations t' := h.tail ⟨first, rest, hpending, hrun⟩
          have hfilter : (first :: rest).filter (fun c => !t'.contains c) =
              pendingIn destinations t' := by
            rw [← hpending]
            exact pendingIn_later hmono
          have hless : (pendingIn destinations t').length < (first :: rest).length := by
            rw [← hfilter]
            exact List.length_filter_lt_length_iff_exists.2
              ⟨found, hg.mem, by simp [hcontains]⟩
          rw [grow_cons, hrun, ok_bind, hfilter]
          rw [hpending] at hfuel
          exact ih hnext (by omega)

end

theorem Thrifty.onWay (h : Thrifty m source destinations t)
    (hall : ∀ c ∈ destinations, t.contains c = true) (hchip : t.contains chip = true) :
    (∃ c ∈ destinations, t.OnWay c chip) ∨ chip = source ∧ destinations = [] := by
  rcases Tree.contains_iff.1 hchip with rfl | ⟨step, hstep⟩
  · rw [← h.source_eq]
    cases hdestinations : destinations with
    | nil => exact .inr ⟨rfl, rfl⟩
    | cons c rest =>
        have hc : c ∈ destinations := hdestinations ▸ List.mem_cons_self
        obtain ⟨_, hway⟩ := h.sound.exists_way (hall c hc)
        exact .inl ⟨c, List.mem_cons_self, hway.onWay_source⟩
  · obtain ⟨c, hc, hin, hbehind⟩ := h.needed chip step hstep
    obtain ⟨_, hway⟩ := h.sound.exists_way hin
    exact .inl ⟨c, hc, hway.onWay hbehind⟩

theorem separateHops_le : separateHops m source destinations t ≤
    (destinations.map (distance m source)).sum := by
  unfold separateHops
  refine List.sum_le_sum fun c _ => ?_
  split
  · exact le_rfl
  · exact Nat.zero_le _

/-- If all destinations are within reach, every round on the way grafts a shortest path, and the
rounds end in a tree that holds all destinations, no chip that is not on the way to one of them,
and no more links than all shortest paths have hops. -/
theorem tree_shortestGrafts (hm : Machine.ofSpec d = .ok m) (hsource : (m.chip? source).isSome)
    (destinations : Std.ExtTreeSet Coord compare)
    (hreach : ∀ c ∈ destinations, InReach m source c) :
    (∀ t, Grown m source destinations.toList t →
      ∀ first rest, pendingIn destinations.toList t = first :: rest →
        ∃ t' found hops, round m t first rest = .ok t' ∧
          ShortestGraft m t (first :: rest) found hops t') ∧
    ∃ t, tree m source destinations.toList = .ok t ∧ Grown m source destinations.toList t ∧
      (∀ c ∈ destinations, t.contains c = true) ∧
      (∀ chip, t.contains chip = true →
        (∃ c ∈ destinations, t.OnWay c chip) ∨ chip = source ∧ destinations.toList = []) ∧
      t.cameFrom.size ≤ (destinations.toList.map (distance m source)).sum := by
  have hfulfils := Machine.ofSpec_spec hm
  have hall : ∀ c ∈ destinations.toList, InReach m source c :=
    fun c hc => hreach c (Std.ExtTreeSet.mem_toList.1 hc)
  refine ⟨?_, ?_⟩
  · intro t ht first rest hpending
    obtain ⟨t', found, hops, hrun, hg, _⟩ := (ht.thrifty hfulfils hall).round hfulfils hall hpending
    exact ⟨t', found, hops, hrun, hg⟩
  · obtain ⟨t, hrun, hgrown, hpending⟩ := grow_grown hfulfils hall .refl le_rfl
    obtain ⟨working, hworking⟩ := Cheapest.exists_chip hsource
    have htree : tree m source destinations.toList = .ok t := by
      rw [← hrun, tree, hworking]
      rfl
    have hcontains : ∀ c ∈ destinations.toList, t.contains c = true := by
      simpa [pendingIn] using hpending
    have ht := hgrown.thrifty hfulfils hall
    refine ⟨t, htree, hgrown, fun c hc => hcontains c (Std.ExtTreeSet.mem_toList.2 hc), ?_,
      ht.size_le.trans separateHops_le⟩
    intro chip hchip
    rcases ht.onWay hcontains hchip with ⟨c, hc, hway⟩ | hroot
    · exact .inl ⟨c, Std.ExtTreeSet.mem_toList.1 hc, hway⟩
    · exact .inr hroot

/-- Two rows of three chips, of which the lower one is cut. -/
def cutField : MachineSpec where
  width := 3
  height := 2
  deadChips := [⟨1, 0⟩]

def farEnds : Std.ExtTreeSet Coord compare := .ofList [⟨2, 0⟩, ⟨2, 1⟩] compare

theorem tree_shortestGrafts_cutField : ∃ m, Machine.ofSpec cutField = .ok m ∧
    ∃ t, tree m ⟨0, 0⟩ farEnds.toList = .ok t ∧
      t.contains ⟨2, 0⟩ = true ∧ t.contains ⟨2, 1⟩ = true ∧
      (∀ chip, t.contains chip = true → t.OnWay ⟨2, 0⟩ chip ∨ t.OnWay ⟨2, 1⟩ chip) ∧
      t.cameFrom.size ≤ (farEnds.toList.map (distance m ⟨0, 0⟩)).sum := by
  obtain ⟨m, hm⟩ := exists_of_isOk (show (Machine.ofSpec cutField).isOk = true by decide +kernel)
  have hfulfils := Machine.ofSpec_spec hm
  have hsource : (m.chip? ⟨0, 0⟩).isSome := hfulfils.isSome_chip?_of_hasChip (by decide)
  have hup : m.linkTarget? ⟨0, 0⟩ .northEast = some ⟨1, 1⟩ := by
    refine hfulfils.linkTarget?_iff.2 ?_
    constructor <;> decide
  have halong : m.linkTarget? ⟨1, 1⟩ .east = some ⟨2, 1⟩ := by
    refine hfulfils.linkTarget?_iff.2 ?_
    constructor <;> decide
  have hdown : m.linkTarget? ⟨2, 1⟩ .south = some ⟨2, 0⟩ := by
    refine hfulfils.linkTarget?_iff.2 ?_
    constructor <;> decide
  have hupper : InReach m ⟨0, 0⟩ ⟨2, 1⟩ := InReach.step (.single ⟨_, hup⟩) halong
  have hends : ∀ c, c ∈ farEnds ↔ c = ⟨2, 0⟩ ∨ c = ⟨2, 1⟩ := by
    simp [farEnds, Std.ExtTreeSet.mem_ofList]
  have hreach : ∀ c ∈ farEnds, InReach m ⟨0, 0⟩ c := by
    intro c hc
    obtain rfl | rfl := (hends c).1 hc
    · exact hupper.step hdown
    · exact hupper
  have hlower := (hends ⟨2, 0⟩).2 (.inl rfl)
  obtain ⟨-, t, htree, -, hcontains, hway, hsize⟩ := tree_shortestGrafts hm hsource farEnds hreach
  refine ⟨m, hm, t, htree, hcontains _ hlower, hcontains _ ((hends _).2 (.inr rfl)),
    fun chip hchip => ?_, hsize⟩
  rcases hway chip hchip with ⟨c, hc, hon⟩ | ⟨-, hnil⟩
  · obtain rfl | rfl := (hends c).1 hc
    · exact .inl hon
    · exact .inr hon
  · have hmem := Std.ExtTreeSet.mem_toList.2 hlower
    rw [hnil] at hmem
    cases hmem

end Steiner

end MulticastMesh.Routing
