import MulticastMesh.Proofs.Maps
import MulticastMesh.Proofs.Outcomes
import MulticastMesh.Proofs.Graph.Vertices
import MulticastMesh.Proofs.Keys.Blocks
/-!
# Requests for blocks of keys

Every multicast partition is a sender of exactly one request, whose block is large enough for the
indices and the atoms of all its senders.
-/

namespace MulticastMesh.Keys

open MulticastMesh.Graph (AppVertexId ApplicationGraph EdgePartition MachineGraph MachineVertex
  MachineVertexId)
open Outcome

theorem le_two_pow_bitsNeeded (n : Nat) : n ≤ 2 ^ bitsNeeded n := by
  unfold bitsNeeded
  split
  · next h => simpa using h
  · have := Nat.lt_log2_self (n := n - 1)
    omega

theorem le_foldl_max {l : List Nat} {n b : Nat} (h : n ∈ l) : n ≤ l.foldl max b := by
  have hstart : ∀ (l : List Nat) (b : Nat), b ≤ l.foldl max b := by
    intro l
    induction l with
    | nil => simp
    | cons m l ih => exact fun b => (le_max_left b m).trans (ih _)
  induction l generalizing b with
  | nil => cases h
  | cons m l ih =>
      rw [List.foldl_cons]
      rcases List.mem_cons.1 h with rfl | h
      · exact (le_max_right b n).trans (hstart l _)
      · exact ih h

def ownerOf (id : MachineVertexId) (v : MachineVertex) : BlockOwner :=
  match v.app? with
  | some a => .application a
  | none => .machine id

/-- Machine vertices know their position among those of their application vertex. -/
def Listed (g : MachineGraph) : Prop :=
  ∀ id v a, g.HasVertex id v → v.app? = some a → (g.verticesOf a)[v.index]? = some id

/-- Machine vertices know their position among those of their application vertex, and are
number zero if they stand for themselves. -/
structure Indexed (g : MachineGraph) : Prop where
  listed : ∀ id v a, g.HasVertex id v → v.app? = some a → (g.verticesOf a)[v.index]? = some id
  alone : ∀ id v, g.HasVertex id v → v.app? = none → v.index = 0

theorem indexed_iff {g : MachineGraph} : Indexed g ↔ ∀ item ∈ g.toList,
    match item.2.app? with
    | some a => (g.verticesOf a)[item.2.index]? = some item.1
    | none => item.2.index = 0 := by
  constructor
  · rintro h ⟨id, v⟩ hitem
    have hv := MachineGraph.mem_toList.1 hitem
    cases happ : v.app? with
    | some a => exact h.listed id v a hv happ
    | none => exact h.alone id v hv happ
  · intro h
    refine ⟨fun id v a hv happ => ?_, fun id v hv happ => ?_⟩
    · simpa [happ] using h (id, v) (MachineGraph.mem_toList.2 hv)
    · simpa [happ] using h (id, v) (MachineGraph.mem_toList.2 hv)

instance (g : MachineGraph) : Decidable (Indexed g) :=
  have (item : MachineVertexId × MachineVertex) : Decidable (
      match item.2.app? with
      | some a => (g.verticesOf a)[item.2.index]? = some item.1
      | none => item.2.index = 0) :=
    match item.2.app? with
    | some _ => inferInstanceAs (Decidable (_ = _))
    | none => inferInstanceAs (Decidable (_ = _))
  decidable_of_iff _ indexed_iff.symm

/-- Besides, every application vertex lists only machine vertices of its own. -/
structure Numbered (g : MachineGraph) : Prop where
  wellIndexed : g.WellIndexed
  alone : ∀ id v, g.HasVertex id v → v.app? = none → v.index = 0

theorem Numbered.indexed {g : MachineGraph} (h : Numbered g) : Indexed g where
  listed := fun id v a hv happ => (h.wellIndexed a v.index id).2 ⟨v, hv, happ, rfl⟩
  alone := h.alone

variable {app : ApplicationGraph} {g : MachineGraph} {r : BlockRequest} {owner : BlockOwner}
  {identifier : String} {id id' : MachineVertexId} {v v' : MachineVertex} {p : EdgePartition}

theorem Indexed.eq_of_index_eq (hg : Indexed g) (hv : g.HasVertex id v)
    (hv' : g.HasVertex id' v') (howner : ownerOf id v = ownerOf id' v')
    (hindex : v.index = v'.index) : id = id' := by
  unfold ownerOf at howner
  cases ha : v.app? with
  | none =>
      cases ha' : v'.app? with
      | none => simpa [ha, ha'] using howner
      | some a' => simp [ha, ha'] at howner
  | some a =>
      cases ha' : v'.app? with
      | none => simp [ha, ha'] at howner
      | some a' =>
          simp only [ha, ha', BlockOwner.application.injEq] at howner
          subst howner
          have h1 := hg.listed id v a hv ha
          have h2 := hg.listed id' v' a hv' ha'
          rw [← hindex] at h2
          exact Option.some.inj (h1.symm.trans h2)

/-- A request whose block has room for all vertices of its owner. -/
structure Fitting (g : MachineGraph) (owner : BlockOwner) (identifier : String)
    (r : BlockRequest) : Prop where
  owner_eq : r.owner = owner
  identifier_eq : r.identifier = identifier
  slices_le : r.slices ≤ 2 ^ r.sliceBits
  fits : ∀ id v, g.HasVertex id v → ownerOf id v = owner →
    v.slice.count ≤ 2 ^ r.atomBits ∧ v.index < r.slices

theorem ofPattern_eq_ok {p : Pattern} {range : KeyRange} (h : KeyRange.ofPattern p = .ok range) :
    range.pattern = p := by
  unfold KeyRange.ofPattern at h
  split at h
  · cases h
    rfl
  · cases h

theorem requestOfApp_spec {a : AppVertexId} (h : requestOfApp app g a identifier = .ok r) :
    ∃ vertex atoms fixed?, app.vertex a = .ok vertex ∧
      List.Forall₂ (fun id n => ∃ v, g.HasVertex id v ∧ v.slice.count = n)
        (g.verticesOf a) atoms ∧
      fixed?.map KeyRange.pattern =
        (vertex.fixedKeyAndMask? identifier).map (fun fixed => ⟨fixed.1, fixed.2⟩) ∧
      r = {
        owner := .application a
        label := vertex.label
        identifier
        senders := []
        slices := (g.verticesOf a).length
        atomBits := bitsNeeded (atoms.foldl max 0)
        sliceBits := bitsNeeded (g.verticesOf a).length
        fixed? } := by
  unfold requestOfApp at h
  obtain ⟨vertex, hvertex, h⟩ := bind_eq_ok.1 h
  obtain ⟨atoms, hatoms, h⟩ := bind_eq_ok.1 h
  have hall : List.Forall₂ (fun id n => ∃ v, g.HasVertex id v ∧ v.slice.count = n)
      (g.verticesOf a) atoms := by
    refine (mapM_eq_ok.1 hatoms).imp fun id n hn => ?_
    obtain ⟨v, hv, hreturn⟩ := bind_eq_ok.1 hn
    exact ⟨v, MachineGraph.vertex_eq_ok.1 (lift_eq_ok.1 hv), pure_eq_ok.1 hreturn⟩
  split at h
  · next hnone =>
      obtain ⟨fixed?, hfixed, h⟩ := bind_eq_ok.1 h
      cases pure_eq_ok.1 hfixed
      exact ⟨vertex, atoms, none, lift_eq_ok.1 hvertex, hall, by simp [hnone],
        (pure_eq_ok.1 h).symm⟩
  · next key mask hsome =>
      obtain ⟨fixed?, hfixed, h⟩ := bind_eq_ok.1 h
      obtain ⟨range, hrange, hreturn⟩ := bind_eq_ok.1 (during_eq_ok.1 hfixed)
      cases pure_eq_ok.1 hreturn
      have hpattern := ofPattern_eq_ok (lift_eq_ok.1 hrange)
      exact ⟨vertex, atoms, some range, lift_eq_ok.1 hvertex, hall, by simp [hsome, hpattern],
        (pure_eq_ok.1 h).symm⟩

theorem fitting_requestOfApp (hg : Listed g) {a : AppVertexId}
    (h : requestOfApp app g a identifier = .ok r) : Fitting g (.application a) identifier r := by
  obtain ⟨vertex, atoms, fixed?, _, hall, _, rfl⟩ := requestOfApp_spec h
  refine ⟨rfl, rfl, le_two_pow_bitsNeeded _, ?_⟩
  intro id v hv howner
  have happ : v.app? = some a := by
    unfold ownerOf at howner
    cases ha : v.app? with
    | none => simp [ha] at howner
    | some b => simpa [ha] using howner
  obtain ⟨hlt, hget⟩ := List.getElem?_eq_some_iff.1 (hg id v a hv happ)
  refine ⟨?_, hlt⟩
  obtain ⟨w, hw, hatoms⟩ := hall.get hlt (hall.length_eq ▸ hlt)
  rw [List.get_eq_getElem, hget] at hw
  cases hw.eq hv
  have hmem : v.slice.count ∈ atoms := by
    rw [hatoms]
    exact List.getElem_mem _
  exact (le_foldl_max hmem).trans (le_two_pow_bitsNeeded _)

theorem fitting_requestOfMachine (hg : Indexed g) (hv : g.HasVertex id v) :
    Fitting g (.machine id) identifier (requestOfMachine id v identifier) where
  owner_eq := rfl
  identifier_eq := rfl
  slices_le := le_rfl
  fits := by
    intro id' v' hv' howner
    have hsame : id' = id ∧ v'.app? = none := by
      unfold ownerOf at howner
      cases ha : v'.app? with
      | none => simpa [ha] using howner
      | some b => simp [ha] at howner
    obtain ⟨rfl, hnone⟩ := hsame
    cases hv'.eq hv
    rw [hg.alone id' v hv hnone]
    exact ⟨le_two_pow_bitsNeeded _, Nat.one_pos⟩

def requestFor (app : ApplicationGraph) (g : MachineGraph) (owner : BlockOwner)
    (identifier : String) : Outcome BlockRequest :=
  match owner with
  | .application a => requestOfApp app g a identifier
  | .machine id => do
    let v ← g.vertex id
    return requestOfMachine id v identifier

theorem requestFor_machine_eq_ok :
    requestFor app g (.machine id) identifier = .ok r ↔
      ∃ v, g.HasVertex id v ∧ requestOfMachine id v identifier = r := by
  unfold requestFor
  simp only [bind_eq_ok, pure_eq_ok]
  constructor
  · rintro ⟨v, hv, heq⟩
    exact ⟨v, MachineGraph.vertex_eq_ok.1 (lift_eq_ok.1 hv), heq⟩
  · rintro ⟨v, hv, heq⟩
    exact ⟨v, lift_eq_ok.2 (MachineGraph.vertex_eq_ok.2 hv), heq⟩

/-- A request starts without senders and carries the names that it was made under. -/
theorem requestFor_names (h : requestFor app g owner identifier = .ok r) :
    r.owner = owner ∧ r.identifier = identifier ∧ r.senders = [] := by
  cases owner with
  | application a =>
      obtain ⟨_, _, _, _, _, _, rfl⟩ := requestOfApp_spec h
      exact ⟨rfl, rfl, rfl⟩
  | machine id =>
      obtain ⟨v, _, rfl⟩ := requestFor_machine_eq_ok.1 h
      exact ⟨rfl, rfl, rfl⟩

theorem fitting_requestFor (hg : Indexed g) (h : requestFor app g owner identifier = .ok r) :
    Fitting g owner identifier r := by
  cases owner with
  | application a => exact fitting_requestOfApp hg.listed h
  | machine id =>
      obtain ⟨v, hv, rfl⟩ := requestFor_machine_eq_ok.1 h
      exact fitting_requestOfMachine hg hv

/-! ## All requests -/

structure RequestsOf (g : MachineGraph) (partitions : List EdgePartition)
    (requests : Requests) : Prop where
  names : ∀ owner identifier (r : BlockRequest), requests[(owner, identifier)]? = some r →
    r.owner = owner ∧ r.identifier = identifier
  sent : ∀ owner identifier r, requests[(owner, identifier)]? = some r → ∀ i id,
    (i, id) ∈ r.senders → ∃ p ∈ partitions, p.pre = id ∧ p.identifier = identifier ∧
      ∃ v, g.HasVertex id v ∧ ownerOf id v = owner ∧ v.index = i
  sends : ∀ p ∈ partitions, ∃ v r, g.HasVertex p.pre v ∧
    requests[(ownerOf p.pre v, p.identifier)]? = some r ∧ (v.index, p.pre) ∈ r.senders

def withSender (r : BlockRequest) (x : Nat × MachineVertexId) : BlockRequest :=
  { r with senders := r.senders ++ [x] }

/-- The request that a sender joins: the one of its owner so far, or a new one. -/
def requestSoFar (app : ApplicationGraph) (g : MachineGraph) (requests : Requests)
    (k : BlockOwner × String) : Outcome BlockRequest :=
  match requests[k]? with
  | some r => .ok r
  | none => requestFor app g k.1 k.2

/-- A request is the one so far, or there is none yet and its owner makes it. -/
def Asked (app : ApplicationGraph) (g : MachineGraph) (requests : Requests)
    (k : BlockOwner × String) (r : BlockRequest) : Prop :=
  requests[k]? = some r ∨ requests[k]? = none ∧ requestFor app g k.1 k.2 = .ok r

theorem requestSoFar_eq_ok {requests : Requests} {k : BlockOwner × String} :
    requestSoFar app g requests k = .ok r ↔ Asked app g requests k r := by
  unfold requestSoFar Asked
  cases requests[k]? with
  | some r' => simp
  | none => simp

theorem addSender_eq (hv : g.HasVertex p.pre v) (requests : Requests) :
    addSender app g requests p = (do
      let r ← requestSoFar app g requests (ownerOf p.pre v, p.identifier)
      return requests.insert (ownerOf p.pre v, p.identifier) (withSender r (v.index, p.pre))) := by
  have hvertex : (liftM (g.vertex p.pre) : Outcome MachineVertex) = .ok v :=
    lift_eq_ok.2 (MachineGraph.vertex_eq_ok.2 hv)
  unfold addSender requestSoFar
  rw [hvertex, ok_bind]
  cases happ : v.app? with
  | some a =>
      have howner : ownerOf p.pre v = .application a := by simp [ownerOf, happ]
      rw [howner]
      dsimp only
      cases requests[(BlockOwner.application a, p.identifier)]? with
      | some r => rfl
      | none => rfl
  | none =>
      have howner : ownerOf p.pre v = .machine p.pre := by simp [ownerOf, happ]
      rw [howner]
      dsimp only
      cases requests[(BlockOwner.machine p.pre, p.identifier)]? with
      | some r => rfl
      | none =>
          unfold requestFor
          simp only [hvertex, ok_bind]
          rfl

theorem addSender_eq_ok {requests requests' : Requests} :
    addSender app g requests p = .ok requests' ↔ ∃ v r, g.HasVertex p.pre v ∧
      Asked app g requests (ownerOf p.pre v, p.identifier) r ∧
        requests' = requests.insert (ownerOf p.pre v, p.identifier)
          (withSender r (v.index, p.pre)) := by
  constructor
  · intro h
    obtain ⟨v, hvertex, _⟩ := bind_eq_ok.1 h
    have hv := MachineGraph.vertex_eq_ok.1 (lift_eq_ok.1 hvertex)
    rw [addSender_eq hv] at h
    obtain ⟨r, hr, hreturn⟩ := bind_eq_ok.1 h
    exact ⟨v, r, hv, requestSoFar_eq_ok.1 hr, (pure_eq_ok.1 hreturn).symm⟩
  · rintro ⟨v, r, hv, hr, rfl⟩
    rw [addSender_eq hv]
    exact bind_eq_ok.2 ⟨r, requestSoFar_eq_ok.2 hr, rfl⟩

theorem RequestsOf.addSender {before : List EdgePartition} {requests requests' : Requests}
    (h : RequestsOf g before requests) (hrun : addSender app g requests p = .ok requests') :
    RequestsOf g (before ++ [p]) requests' := by
  obtain ⟨v, r, hv, hr, rfl⟩ := addSender_eq_ok.1 hrun
  have hnames : r.owner = ownerOf p.pre v ∧ r.identifier = p.identifier := by
    rcases hr with hfound | ⟨_, hasked⟩
    · exact h.names _ _ r hfound
    · exact ⟨(requestFor_names hasked).1, (requestFor_names hasked).2.1⟩
  refine ⟨?_, ?_, ?_⟩
  · intro owner identifier r' hr'
    rw [Maps.getElem?_insert_eq_ite] at hr'
    split at hr'
    · next heq =>
        cases heq
        cases hr'
        exact hnames
    · exact h.names owner identifier r' hr'
  · intro owner identifier r' hr' i id hsender
    rw [Maps.getElem?_insert_eq_ite] at hr'
    have hold : ∀ r₀, requests[(owner, identifier)]? = some r₀ → (i, id) ∈ r₀.senders →
        ∃ q ∈ before ++ [p], q.pre = id ∧ q.identifier = identifier ∧
          ∃ v, g.HasVertex id v ∧ ownerOf id v = owner ∧ v.index = i := by
      intro r₀ hr₀ hmem
      obtain ⟨q, hq, hrest⟩ := h.sent owner identifier r₀ hr₀ i id hmem
      exact ⟨q, List.mem_append_left _ hq, hrest⟩
    split at hr'
    · next heq =>
        cases heq
        cases hr'
        rcases List.mem_append.1 hsender with hmem | hmem
        · rcases hr with hfound | ⟨_, hasked⟩
          · exact hold r hfound hmem
          · rw [(requestFor_names hasked).2.2] at hmem
            cases hmem
        · cases List.mem_singleton.1 hmem
          exact ⟨p, by simp, rfl, rfl, v, hv, rfl, rfl⟩
    · exact hold r' hr' hsender
  · intro q hq
    rcases List.mem_append.1 hq with hq | hq
    · obtain ⟨w, r', hw, hr', hmem⟩ := h.sends q hq
      by_cases hsame : (ownerOf p.pre v, p.identifier) = (ownerOf q.pre w, q.identifier)
      · rw [← hsame] at hr'
        rcases hr with hfound | ⟨hnone, _⟩
        · cases hfound.symm.trans hr'
          refine ⟨w, withSender r (v.index, p.pre), hw, ?_,
            List.mem_append_left _ hmem⟩
          rw [Maps.getElem?_insert_eq_ite, if_pos hsame]
        · rw [hnone] at hr'
          cases hr'
      · exact ⟨w, r', hw, by rw [Maps.getElem?_insert_of_ne hsame, hr'], hmem⟩
    · cases List.mem_singleton.1 hq
      refine ⟨v, withSender r (v.index, p.pre), hv, ?_, by simp [withSender]⟩
      rw [Maps.getElem?_insert_eq_ite, if_pos rfl]

/-- The list of requests, one for each owner and identifier, with the vertices that send on it. -/
structure Attributed (g : MachineGraph) (requests : List BlockRequest) : Prop where
  sent : ∀ r ∈ requests, ∀ i id, (i, id) ∈ r.senders → ∃ p ∈ g.multicastPartitions,
    p.pre = id ∧ p.identifier = r.identifier ∧
      ∃ v, g.HasVertex id v ∧ ownerOf id v = r.owner ∧ v.index = i
  sends : ∀ p ∈ g.multicastPartitions, ∃ r ∈ requests, ∃ v, g.HasVertex p.pre v ∧
    r.owner = ownerOf p.pre v ∧ r.identifier = p.identifier ∧ (v.index, p.pre) ∈ r.senders
  distinct : requests.Pairwise fun r s => (r.owner, r.identifier) ≠ (s.owner, s.identifier)

theorem blockRequests_attributed {requests : List BlockRequest}
    (h : blockRequests app g = .ok requests) : Attributed g requests := by
  obtain ⟨map, hfold, hreturn⟩ := bind_eq_ok.1 h
  cases pure_eq_ok.1 hreturn
  have hmap : RequestsOf g g.multicastPartitions map := by
    refine foldlM_induction hfold ⟨by simp, by simp, by simp⟩ ?_
    intro before p after _ c c' hc hstep
    exact hc.addSender hstep
  have hlookup : ∀ owner identifier r, ((owner, identifier), r) ∈ map.toList ↔
      map[(owner, identifier)]? = some r := fun _ _ _ =>
    Std.ExtTreeMap.mem_toList_iff_getElem?_eq_some
  have hkey : ∀ item ∈ map.toList, item.1 = (item.2.owner, item.2.identifier) := by
    rintro ⟨⟨owner, identifier⟩, r⟩ hitem
    obtain ⟨rfl, rfl⟩ := hmap.names owner identifier r ((hlookup _ _ _).1 hitem)
    rfl
  have hitem : ∀ r ∈ map.toList.map Prod.snd, map[(r.owner, r.identifier)]? = some r := by
    intro r hr
    obtain ⟨item, hmem, rfl⟩ := List.mem_map.1 hr
    rw [← hlookup, ← hkey item hmem]
    exact hmem
  refine ⟨?_, ?_, ?_⟩
  · exact fun r hr => hmap.sent _ _ r (hitem r hr)
  · intro p hp
    obtain ⟨v, r, hv, hr, hsends⟩ := hmap.sends p hp
    obtain ⟨howner, hidentifier⟩ := hmap.names _ _ r hr
    exact ⟨r, List.mem_map.2 ⟨_, (hlookup _ _ _).2 hr, rfl⟩, v, hv, howner, hidentifier, hsends⟩
  · rw [List.pairwise_map]
    have hdistinct := map.distinct_keys_toList
    refine List.Pairwise.imp_of_mem ?_ hdistinct
    intro a b ha hb hne
    rw [Std.LawfulEqCmp.compare_eq_iff_eq, hkey a ha, hkey b hb] at hne
    exact hne

/-- What new requests have and what more senders do not change, all requests have. -/
theorem blockRequests_forall {P : BlockRequest → Prop} {requests : List BlockRequest}
    (h : blockRequests app g = .ok requests)
    (hnew : ∀ owner identifier r, requestFor app g owner identifier = .ok r → P r)
    (hsender : ∀ r id v, P r → g.HasVertex id v → P (withSender r (v.index, id))) :
    ∀ r ∈ requests, P r := by
  obtain ⟨map, hfold, hreturn⟩ := bind_eq_ok.1 h
  cases pure_eq_ok.1 hreturn
  have hmap : ∀ (k : BlockOwner × String) (r : BlockRequest), map[k]? = some r → P r := by
    refine foldlM_invariant (P := fun (requests : Requests) => ∀ (k : BlockOwner × String)
      (r : BlockRequest), requests[k]? = some r → P r) hfold (by simp) ?_
    intro p _ requests requests' hbefore hstep k r hr
    obtain ⟨v, r₀, hv, hasked, rfl⟩ := addSender_eq_ok.1 hstep
    rw [Maps.getElem?_insert_eq_ite] at hr
    split at hr
    · cases hr
      refine hsender r₀ p.pre v ?_ hv
      rcases hasked with hfound | ⟨_, hmade⟩
      · exact hbefore _ r₀ hfound
      · exact hnew _ _ r₀ hmade
    · exact hbefore k r hr
  intro r hr
  obtain ⟨⟨k, _⟩, hmem, rfl⟩ := List.mem_map.1 hr
  exact hmap k _ (Std.ExtTreeMap.mem_toList_iff_getElem?_eq_some.1 hmem)

/-- Besides, every block has room for all vertices of its owner. -/
structure Requested (g : MachineGraph) (requests : List BlockRequest) : Prop
    extends Attributed g requests where
  fitting : ∀ r ∈ requests, Fitting g r.owner r.identifier r

theorem blockRequests_spec (hg : Indexed g) {requests : List BlockRequest}
    (h : blockRequests app g = .ok requests) : Requested g requests := by
  refine ⟨blockRequests_attributed h, blockRequests_forall h ?_ ?_⟩
  · intro owner identifier r hr
    have hfit := fitting_requestFor hg hr
    rwa [← hfit.owner_eq, ← hfit.identifier_eq] at hfit
  · intro r id v hfit _
    exact ⟨hfit.owner_eq, hfit.identifier_eq, hfit.slices_le, hfit.fits⟩

/-- A request that, its senders apart, is the one that its owner makes. -/
def AsAsked (app : ApplicationGraph) (g : MachineGraph) (r : BlockRequest) : Prop :=
  requestFor app g r.owner r.identifier = .ok { r with senders := [] }

theorem asAsked_of_requestFor (h : requestFor app g owner identifier = .ok r) :
    AsAsked app g r := by
  obtain ⟨rfl, rfl, hnil⟩ := requestFor_names h
  unfold AsAsked
  rw [← hnil]
  exact h

theorem blockRequests_asAsked {requests : List BlockRequest}
    (h : blockRequests app g = .ok requests) : ∀ r ∈ requests, AsAsked app g r :=
  blockRequests_forall h (fun _ _ _ => asAsked_of_requestFor) fun _ _ _ hr _ => hr

/-! ## Failures -/

def IsKeyError (c : Cause) : Prop := ∃ e, c = .keys e

/-- The sources of partitions exist, and so do the application vertices that vertices name. -/
structure Rooted (app : ApplicationGraph) (g : MachineGraph) : Prop where
  source : ∀ p ∈ g.multicastPartitions, ∃ v, g.HasVertex p.pre v
  app : ∀ id v a, g.HasVertex id v → v.app? = some a → ∃ w, app.vertex a = .ok w

theorem requestOfApp_fails (hg : Numbered g) {a : AppVertexId} (ha : ∃ w, app.vertex a = .ok w) :
    FailsOnly IsKeyError (requestOfApp app g a identifier) := by
  obtain ⟨w, hw⟩ := ha
  unfold requestOfApp
  refine FailsOnly.bind (FailsOnly.of_eq_ok (lift_eq_ok.2 hw)) fun vertex _ => ?_
  refine FailsOnly.bind (FailsOnly.mapM ?_) fun atoms _ => ?_
  · intro id hid
    obtain ⟨v, hv, _⟩ := hg.wellIndexed.mem_verticesOf.1 hid
    have hvertex := MachineGraph.vertex_eq_ok.2 hv
    exact FailsOnly.bind (FailsOnly.of_eq_ok (lift_eq_ok.2 hvertex)) fun _ _ => FailsOnly.pure _
  · split
    · exact FailsOnly.bind (FailsOnly.pure _) fun _ _ => FailsOnly.pure _
    · refine FailsOnly.bind (FailsOnly.during ?_) fun _ _ => FailsOnly.pure _
      refine FailsOnly.bind (FailsOnly.lift fun e _ => ⟨e, rfl⟩) fun _ _ => FailsOnly.pure _

theorem addSender_fails (hg : Numbered g) (hv : g.HasVertex p.pre v)
    (happ : ∀ a, v.app? = some a → ∃ w, app.vertex a = .ok w) (requests : Requests) :
    FailsOnly IsKeyError (addSender app g requests p) := by
  unfold addSender
  refine FailsOnly.bind (FailsOnly.of_eq_ok (lift_eq_ok.2 (MachineGraph.vertex_eq_ok.2 hv))) ?_
  intro w hw
  cases (MachineGraph.vertex_eq_ok.1 (lift_eq_ok.1 hw)).eq hv
  simp only
  split
  · exact FailsOnly.pure _
  · split
    · next a ha =>
        exact FailsOnly.bind (requestOfApp_fails hg (happ a ha)) fun _ _ => FailsOnly.pure _
    · exact FailsOnly.pure _

theorem blockRequests_fails (hg : Numbered g) (hroot : Rooted app g) :
    FailsOnly IsKeyError (blockRequests app g) := by
  refine FailsOnly.bind ?_ fun _ _ => FailsOnly.pure _
  refine FailsOnly.foldlM (motive := fun _ _ => True) trivial ?_
  intro before p after hl requests _
  obtain ⟨v, hv⟩ := hroot.source p (by simp [hl])
  exact ⟨addSender_fails hg hv (fun a ha => hroot.app p.pre v a hv ha) requests, fun _ _ => trivial⟩

end MulticastMesh.Keys
