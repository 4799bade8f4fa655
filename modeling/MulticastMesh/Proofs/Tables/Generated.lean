import MulticastMesh.Proofs.Tables.FirstMatch
import MulticastMesh.Proofs.Tables.Siblings
import MulticastMesh.Tables.Generate
/-!
# Generated tables

The table of a chip sends the keys of every partition that passes through as its path entry says,
and matches no key outside the shares of those partitions and no key twice.  So its order does not
matter.
-/

namespace MulticastMesh.Tables

open MulticastMesh.Graph (AppVertexId EdgePartition MachineGraph MachineVertex)
open Keys (Allotted Assignment BlockOwner Grant InShare Key PartitionKeys Share VertexBlock
  sourceOf)
open Mesh (Coord)
open Outcome
open Routing (PartitionSource PathEntry PathTable Route)

variable {g : MachineGraph} {a : Assignment} {grants : List Grant} {paths : PathTable}
  {items bundle : List (PartitionSource × PathEntry)} {entries : List Entry} {chip : Coord}
  {s t : PartitionSource} {x y : Grant} {i j : Nat} {k : Key}

/-! ## Path tables -/

theorem mem_entriesOn {e : PathEntry} :
    (s, e) ∈ paths.entriesOn chip ↔ paths.entry? chip s = some e := by
  unfold PathTable.entriesOn PathTable.toList PathTable.entry?
  rw [List.mem_map, ← Std.ExtTreeMap.mem_toList_iff_getElem?_eq_some]
  constructor
  · rintro ⟨⟨⟨c, s'⟩, e'⟩, hmem, heq⟩
    obtain ⟨hlisted, hchip⟩ := List.mem_filter.1 hmem
    cases heq
    cases beq_iff_eq.1 hchip
    exact hlisted
  · intro hmem
    exact ⟨((chip, s), e), List.mem_filter.2 ⟨hmem, beq_iff_eq.2 rfl⟩, rfl⟩

theorem pairwise_entriesOn : (paths.entriesOn chip).Pairwise fun a b => a.1 ≠ b.1 := by
  unfold PathTable.entriesOn PathTable.toList
  rw [List.pairwise_map]
  refine (Std.ExtTreeMap.distinct_keys_toList.filter _).imp_of_mem fun {a b} ha hb hne heq => hne ?_
  have hchip := beq_iff_eq.1 (List.mem_filter.1 ha).2
  have hchip' := beq_iff_eq.1 (List.mem_filter.1 hb).2
  rw [Std.LawfulEqCmp.compare_eq_iff_eq]
  exact Prod.ext (hchip.trans hchip'.symm) heq

theorem mem_chips : chip ∈ paths.chips ↔ ∃ s e, paths.entry? chip s = some e := by
  unfold PathTable.chips
  rw [List.mem_eraseDups, List.mem_map]
  constructor
  · rintro ⟨⟨⟨c, s⟩, e⟩, hmem, rfl⟩
    exact ⟨s, e, Std.ExtTreeMap.mem_toList_iff_getElem?_eq_some.1 hmem⟩
  · rintro ⟨s, e, hentry⟩
    exact ⟨((chip, s), e), Std.ExtTreeMap.mem_toList_iff_getElem?_eq_some.2 hentry, rfl⟩

/-- All entries belong to multicast partitions of the graph. -/
def SourcedBy (g : MachineGraph) (paths : PathTable) : Prop :=
  ∀ chip s e, paths.entry? chip s = some e →
    ∃ p ∈ g.multicastPartitions, ∃ v, g.HasVertex p.pre v ∧ s = sourceOf v p

theorem keysOf_eq_ok {vertex : Graph.MachineVertexId} {identifier : String}
    {keys : PartitionKeys} :
    a.keysOf vertex identifier = .ok keys ↔ a.keys? vertex identifier = some keys := by
  unfold Assignment.keysOf
  split
  · next h => simp [h]
  · next h => simp [h]

/-! ## Bundles -/

/-- Entries that send the keys of some partitions as their path entries say, each key by one
entry. -/
structure Tabulates (g : MachineGraph) (a : Assignment) (grants : List Grant)
    (items : List (PartitionSource × PathEntry)) (entries : List Entry) : Prop where
  proper : AllProper entries
  sound : ∀ e ∈ entries, ∀ k, e.Matches k →
    ∃ item ∈ items, InShare g grants item.1 k ∧ Follows e item.2
  complete : ∀ item ∈ items, ∀ keys, a.keys? item.1.vertex item.1.identifier = some keys →
    ∀ k, keys.range.pattern.Matches k → ∃ e ∈ entries, e.Matches k
  apart : entries.Pairwise fun e f => e.pattern.Apart f.pattern

theorem tabulates_flatten {bundles : List (List (PartitionSource × PathEntry))}
    {tables : List (List Entry)} (h : Allotted g a grants)
    (htab : List.Forall₂ (Tabulates g a grants) bundles tables)
    (hdistinct : bundles.flatten.Pairwise fun a b => a.1 ≠ b.1) :
    Tabulates g a grants bundles.flatten tables.flatten := by
  induction htab with
  | nil => exact ⟨by simp [AllProper], by simp, by simp, .nil⟩
  | cons hfirst _ ih =>
      rw [List.flatten_cons, List.pairwise_append] at hdistinct
      have hrest := ih hdistinct.2.1
      rw [List.flatten_cons, List.flatten_cons]
      refine ⟨List.forall_mem_append.2 ⟨hfirst.proper, hrest.proper⟩, ?_, ?_, ?_⟩
      · intro e he k hk
        rcases List.mem_append.1 he with he | he
        · obtain ⟨item, hitem, hsent⟩ := hfirst.sound e he k hk
          exact ⟨item, List.mem_append_left _ hitem, hsent⟩
        · obtain ⟨item, hitem, hsent⟩ := hrest.sound e he k hk
          exact ⟨item, List.mem_append_right _ hitem, hsent⟩
      · intro item hitem keys hkeys k hk
        rcases List.mem_append.1 hitem with hitem | hitem
        · obtain ⟨e, he, hmatch⟩ := hfirst.complete item hitem keys hkeys k hk
          exact ⟨e, List.mem_append_left _ he, hmatch⟩
        · obtain ⟨e, he, hmatch⟩ := hrest.complete item hitem keys hkeys k hk
          exact ⟨e, List.mem_append_right _ he, hmatch⟩
      · refine List.pairwise_append.2 ⟨hfirst.apart, hrest.apart, fun e he f hf k hk hk' => ?_⟩
        obtain ⟨item, hitem, hshare, _⟩ := hfirst.sound e he k hk
        obtain ⟨item', hitem', hshare', _⟩ := hrest.sound f hf k hk'
        exact hdistinct.2.2 item hitem item' hitem' (hshare.source_eq h hshare')

theorem eq_of_sameOwner (h : Allotted g a grants) (hs : Share g grants s x i)
    (ht : Share g grants t y j) (happ : s.app? = t.app?) (hidentifier : s.identifier = t.identifier)
    (hvertex : s.app?.isSome ∨ s.vertex = t.vertex) : x = y := by
  refine h.eq_of_owner hs.mem ht.mem ?_
    (hs.identifier_eq.trans (hidentifier.trans ht.identifier_eq.symm))
  rw [hs.owner_eq, ht.owner_eq, ← happ]
  cases hsapp : s.app? with
  | some app => rfl
  | none =>
      rcases hvertex with hsome | hsame
      · simp [hsapp] at hsome
      · rw [hsame]

structure LikeFirst (first item : PartitionSource × PathEntry) : Prop where
  app_eq : first.1.app? = item.1.app?
  identifier_eq : first.1.identifier = item.1.identifier
  vertex : first.1.app?.isSome ∨ first.1.vertex = item.1.vertex
  route_eq : item.2.route = first.2.route
  defaultable_eq : item.2.defaultable = first.2.defaultable

theorem likeFirst_of_isChain {first : PartitionSource × PathEntry}
    (h : (first :: bundle).IsChain fun a b => sameBundle a b = true) :
    ∀ item ∈ first :: bundle, LikeFirst first item := by
  refine List.IsChain.induction _ _ h ?_ fun _ => ⟨rfl, rfl, Or.inr rfl, rfl, rfl⟩
  intro b c hsame hb
  unfold sameBundle at hsame
  simp only [Bool.and_eq_true, Bool.or_eq_true, beq_iff_eq] at hsame
  obtain ⟨⟨⟨⟨happ, hidentifier⟩, hvertex⟩, hroute⟩, hdefaultable⟩ := hsame
  refine ⟨hb.app_eq.trans happ, hb.identifier_eq.trans hidentifier, ?_,
    hroute.symm.trans hb.route_eq, hdefaultable.symm.trans hb.defaultable_eq⟩
  rcases hb.vertex with hsome | heq
  · exact Or.inl hsome
  · rcases hvertex with hsome | hnext
    · exact Or.inl (hb.app_eq ▸ hsome)
    · exact Or.inr (heq.trans hnext)

theorem senders_of_bundle {senders : List Sender}
    (h : (bundle.mapM fun item => senderOf a item.1 item.2) = .ok senders) :
    List.Forall₂ (fun item sender => a.keys? item.1.vertex item.1.identifier = some sender.keys ∧
      sender.path = item.2) bundle senders := by
  refine (mapM_eq_ok.1 h).imp fun item sender hsender => ?_
  obtain ⟨keys, hkeys, hreturn⟩ := bind_eq_ok.1 hsender
  cases pure_eq_ok.1 hreturn
  exact ⟨keysOf_eq_ok.1 hkeys, rfl⟩

theorem tabulates_of_represents {senders : List Sender} {path : PathEntry}
    (h : Allotted g a grants)
    (hsenders : List.Forall₂ (fun item sender =>
      a.keys? item.1.vertex item.1.identifier = some sender.keys ∧ sender.path = item.2)
      bundle senders)
    (hshares : ∀ item ∈ bundle, ∃ i, Share g grants item.1 x i)
    (hway : ∀ item ∈ bundle, item.2.route = path.route ∧ item.2.defaultable = path.defaultable)
    (hpattern : ∀ s ∈ senders, s.keys.range.pattern = sliceKeys x s)
    (hrep : Represents x path senders entries) : Tabulates g a grants bundle entries where
  proper := hrep.proper
  sound := by
    intro e he k hk
    obtain ⟨hcovers, sender, hsender, hslot⟩ := hrep.sound e he k hk
    obtain ⟨n, hn, rfl⟩ := List.getElem_of_mem hsender
    have hlt : n < bundle.length := hsenders.length_eq ▸ hn
    have hitem := List.getElem_mem hlt
    obtain ⟨hkeys, _⟩ := hsenders.get hlt hn
    obtain ⟨i, hshare⟩ := hshares _ hitem
    have hindex := (hshare.keys_eq h hkeys).1
    rw [List.get_eq_getElem, hslot] at hindex
    obtain ⟨hroute, hdefaultable⟩ := hway _ hitem
    have hfollows := hrep.follows e he
    exact ⟨bundle[n], hitem, ⟨x, hindex ▸ hshare, hcovers⟩,
      hfollows.route_eq.trans hroute.symm, hfollows.defaultable_eq.trans hdefaultable.symm⟩
  complete := by
    intro item hitem keys hkeys k hk
    obtain ⟨n, hn, rfl⟩ := List.getElem_of_mem hitem
    have hlt : n < senders.length := hsenders.length_eq ▸ hn
    obtain ⟨hkeys', _⟩ := hsenders.get hn hlt
    rw [List.get_eq_getElem, hkeys, List.get_eq_getElem, Option.some.injEq] at hkeys'
    subst hkeys'
    have hmem := List.getElem_mem hlt
    exact hrep.complete _ hmem k (hpattern _ hmem ▸ hk)
  apart := hrep.apart

theorem distinct_senders {senders : List Sender} (h : Allotted g a grants)
    (hsenders : List.Forall₂ (fun item sender =>
      a.keys? item.1.vertex item.1.identifier = some sender.keys ∧ sender.path = item.2)
      bundle senders)
    (hshares : ∀ item ∈ bundle, ∃ i, Share g grants item.1 x i)
    (hdistinct : bundle.Pairwise fun a b => a.1 ≠ b.1) : senders.Pairwise Distinct := by
  rw [List.pairwise_iff_getElem] at hdistinct ⊢
  intro n n' hn hn' hlt heq
  have hm : n < bundle.length := hsenders.length_eq ▸ hn
  have hm' : n' < bundle.length := hsenders.length_eq ▸ hn'
  obtain ⟨i, hshare⟩ := hshares _ (List.getElem_mem hm)
  obtain ⟨i', hshare'⟩ := hshares _ (List.getElem_mem hm')
  have hindex := (hshare.keys_eq h (hsenders.get hm hn).1).1
  have hindex' := (hshare'.keys_eq h (hsenders.get hm' hn').1).1
  rw [List.get_eq_getElem] at hindex hindex'
  rw [heq, hindex'] at hindex
  subst hindex
  exact hdistinct n n' hm hm' hlt (hshare.source_eq h hshare')

theorem tabulates_bundleEntries (h : Allotted g a grants) (hne : bundle ≠ [])
    (hchain : bundle.IsChain fun a b => sameBundle a b = true)
    (hshares : ∀ item ∈ bundle, ∃ x i, Share g grants item.1 x i)
    (hdistinct : bundle.Pairwise fun a b => a.1 ≠ b.1)
    (hrun : bundleEntries a bundle = .ok entries) : Tabulates g a grants bundle entries := by
  obtain ⟨first, rest, rfl⟩ := List.exists_cons_of_ne_nil hne
  obtain ⟨x, i, hfirst⟩ := hshares first (by simp)
  have hlike := likeFirst_of_isChain hchain
  have hone : ∀ item ∈ first :: rest, ∃ i, Share g grants item.1 x i := by
    intro item hitem
    obtain ⟨y, j, hitemShare⟩ := hshares item hitem
    have hlikeItem := hlike item hitem
    cases eq_of_sameOwner h hfirst hitemShare hlikeItem.app_eq hlikeItem.identifier_eq
      hlikeItem.vertex
    exact ⟨j, hitemShare⟩
  have hway : ∀ item ∈ first :: rest, item.2.route = first.2.route ∧
      item.2.defaultable = first.2.defaultable :=
    fun item hitem => ⟨(hlike item hitem).route_eq, (hlike item hitem).defaultable_eq⟩
  obtain ⟨senders, hmap, hrun⟩ := bind_eq_ok.1 hrun
  have hsenders := senders_of_bundle hmap
  have hindices := distinct_senders h hsenders hone hdistinct
  have hplaced : ∀ s ∈ senders, Seated x first.2 s ∧ s.keys.range.pattern = sliceKeys x s := by
    intro s hs
    obtain ⟨n, hn, rfl⟩ := List.getElem_of_mem hs
    have hlt : n < (first :: rest).length := hsenders.length_eq ▸ hn
    have hitem := List.getElem_mem hlt
    obtain ⟨hkeys, hpath⟩ := hsenders.get hlt hn
    obtain ⟨j, hshare⟩ := hone _ hitem
    obtain ⟨hindex, hpattern⟩ := hshare.keys_eq h hkeys
    rw [List.get_eq_getElem] at hindex hpattern hpath
    obtain ⟨hroute, hdefaultable⟩ := hway _ hitem
    have hkeysOf : senders[n].keys.range.pattern = sliceKeys x senders[n] := by
      rw [hpattern, ← hindex]
      rfl
    exact ⟨⟨congrArg Keys.Pattern.key hkeysOf, hindex ▸ hshare.index_lt,
      (congrArg PathEntry.route hpath).trans hroute,
      (congrArg PathEntry.defaultable hpath).trans hdefaultable⟩, hkeysOf⟩
  have hseated := fun s hs => (hplaced s hs).1
  have hx := h.granted.sufficient x hfirst.mem
  have hslices := (h.requested.fitting _ (List.mem_map_of_mem hfirst.mem)).slices_le
  refine tabulates_of_represents h hsenders hone hway (fun s hs => (hplaced s hs).2) ?_
  simp only at hrun
  split at hrun
  · next block hblock =>
      cases pure_eq_ok.1 hrun
      split at hblock
      · next source path second more heq =>
          obtain ⟨rfl, _⟩ := List.cons.inj heq
          obtain ⟨app, happ, hblock⟩ := Option.bind_eq_some_iff.1 hblock
          obtain ⟨y, hy, howner, hidentifier, hmask, hbits, hlast, _⟩ :=
            h.granted.realises.blocks_sound app _ block hblock
          have howner' : x.request.owner = .application app := by
            rw [hfirst.owner_eq, happ]
          cases h.eq_of_owner hfirst.mem hy (howner'.trans howner.symm)
            (hfirst.identifier_eq.trans hidentifier.symm)
          exact (merges_coverSiblings ⟨hx, hslices, hmask, hbits⟩ hlast hseated
            hindices).toRepresents
      · cases hblock
  · cases pure_eq_ok.1 hrun
    exact represents_singles hx hslices hseated (fun s hs => (hplaced s hs).2) hindices

/-! ## Tables of chips -/

theorem SourcedBy.exists_share (h : Allotted g a grants) (hp : SourcedBy g paths)
    {e : PathEntry} (he : paths.entry? chip s = some e) : ∃ x i, Share g grants s x i := by
  obtain ⟨p, hmem, v, hv, rfl⟩ := hp chip s e he
  obtain ⟨x, hx⟩ := h.exists_share hmem hv
  exact ⟨x, v.index, hx⟩

theorem tabulates_tableOf (h : Allotted g a grants) (hp : SourcedBy g paths) {table : Table}
    (hrun : tableOf a paths chip = .ok table) :
    table.chip = chip ∧ Tabulates g a grants (paths.entriesOn chip) table.entries := by
  obtain ⟨tables, hmap, hreturn⟩ := bind_eq_ok.1 hrun
  cases pure_eq_ok.1 hreturn
  refine ⟨rfl, ?_⟩
  have hflatten := List.flatten_splitBy sameBundle (paths.entriesOn chip)
  have hdistinct : ((paths.entriesOn chip).splitBy sameBundle).flatten.Pairwise
      fun a b => a.1 ≠ b.1 := by
    rw [hflatten]
    exact pairwise_entriesOn
  have hbundles : List.Forall₂ (Tabulates g a grants)
      ((paths.entriesOn chip).splitBy sameBundle) tables := by
    have hall := mapM_eq_ok.1 hmap
    rw [List.forall₂_iff_get] at hall ⊢
    refine ⟨hall.1, fun n hn hn' => ?_⟩
    have hbundle := List.get_mem ((paths.entriesOn chip).splitBy sameBundle) ⟨n, hn⟩
    refine tabulates_bundleEntries h (List.ne_nil_of_mem_splitBy hbundle)
      (List.isChain_of_mem_splitBy hbundle) ?_ ((List.pairwise_flatten.1 hdistinct).1 _ hbundle)
      (hall.2 n hn hn')
    rintro ⟨s, e⟩ hitem
    have hmem : (s, e) ∈ paths.entriesOn chip := by
      rw [← hflatten]
      exact List.mem_flatten_of_mem hbundle hitem
    exact hp.exists_share h (mem_entriesOn.1 hmem)
  have hflat := tabulates_flatten h hbundles hdistinct
  rwa [hflatten] at hflat

/-- Tables of all chips that some partition passes through, and of no others. -/
structure Tabulated (g : MachineGraph) (a : Assignment) (grants : List Grant) (paths : PathTable)
    (chips : List Coord) (tables : TableSet) : Prop where
  sound : ∀ chip entries, tables.entries? chip = some entries →
    chip ∈ chips ∧ Tabulates g a grants (paths.entriesOn chip) entries
  complete : ∀ chip ∈ chips, ∃ entries, tables.entries? chip = some entries

theorem insert_eq_ok {tables tables' : TableSet} {t : Table} :
    tables.insert t = .ok tables' ↔
      tables.entries? t.chip = none ∧ tables' = ⟨tables.byChip.insert t.chip t.entries⟩ := by
  unfold TableSet.insert
  cases hfound : tables.entries? t.chip with
  | none => simp [eq_comm]
  | some entries => simp

theorem entries?_insert {tables : TableSet} {t : Table} :
    (⟨tables.byChip.insert t.chip t.entries⟩ : TableSet).entries? chip =
      if t.chip = chip then some t.entries else tables.entries? chip :=
  Maps.getElem?_insert_eq_ite

theorem Tabulated.insert {tables tables' : TableSet} {chips : List Coord} {t : Table}
    (h : Tabulated g a grants paths chips tables)
    (ht : Tabulates g a grants (paths.entriesOn t.chip) t.entries)
    (hrun : tables.insert t = .ok tables') :
    Tabulated g a grants paths (chips ++ [t.chip]) tables' := by
  obtain ⟨_, rfl⟩ := insert_eq_ok.1 hrun
  refine ⟨?_, ?_⟩
  · intro chip entries hentries
    rw [entries?_insert] at hentries
    split at hentries
    · next heq =>
        cases heq
        cases hentries
        exact ⟨by simp, ht⟩
    · obtain ⟨hmem, htab⟩ := h.sound chip entries hentries
      exact ⟨List.mem_append_left _ hmem, htab⟩
  · intro chip hchip
    rw [entries?_insert]
    split
    · exact ⟨_, rfl⟩
    · next hne =>
        rcases List.mem_append.1 hchip with hchip | hchip
        · exact h.complete chip hchip
        · exact absurd (List.mem_singleton.1 hchip).symm hne

theorem tabulated_empty : Tabulated g a grants paths [] .empty :=
  ⟨by simp [TableSet.empty, TableSet.entries?], by simp⟩

theorem tabulated_generate (h : Allotted g a grants) (hp : SourcedBy g paths)
    {tables : TableSet} (hrun : generate a paths = .ok tables) :
    Tabulated g a grants paths paths.chips tables := by
  refine foldlM_induction hrun tabulated_empty ?_
  intro before chip after _ c c' hc hstep
  obtain ⟨table, htable, hinsert⟩ := bind_eq_ok.1 hstep
  obtain ⟨rfl, htab⟩ := tabulates_tableOf h hp (during_eq_ok.1 htable)
  exact hc.insert htab (lift_eq_ok.1 hinsert)

/-! ## What the tables do -/

theorem Tabulates.unambiguous (h : Allotted g a grants)
    (ht : Tabulates g a grants (paths.entriesOn chip) entries) : Unambiguous entries := by
  intro e he f hf k hek hfk
  obtain ⟨⟨s, b⟩, hb, hs, heb⟩ := ht.sound e he k hek
  obtain ⟨⟨t, c⟩, hc, ht, hfc⟩ := ht.sound f hf k hfk
  cases hs.source_eq h ht
  have hbc := (mem_entriesOn.1 hb).symm.trans (mem_entriesOn.1 hc)
  rw [heb.route_eq, hfc.route_eq, Option.some.inj hbc]

def Orderless (tables : TableSet) : Prop :=
  ∀ chip entries, tables.entries? chip = some entries → Unambiguous entries ∧ AllProper entries

theorem Tabulated.orderless (h : Allotted g a grants) {tables : TableSet} {chips : List Coord}
    (ht : Tabulated g a grants paths chips tables) : Orderless tables := by
  intro chip entries hentries
  have htab := (ht.sound chip entries hentries).2
  exact ⟨htab.unambiguous h, htab.proper⟩

/-- Tables that send a key of a partition as the path entries of the partition say. -/
def Carries (tables : TableSet) (paths : PathTable) (s : PartitionSource) (k : Key) : Prop :=
  ∀ chip e, paths.entry? chip s = some e →
    ∃ f, tables.lookup? chip k = some f ∧ f.route = e.route

theorem lookup?_eq_some_iff {tables : TableSet} {e : Entry} :
    tables.lookup? chip k = some e ↔
      ∃ entries, tables.entries? chip = some entries ∧ lookup? entries k = some e :=
  Option.bind_eq_some_iff

theorem Tabulated.exists_follows (h : Allotted g a grants) {tables : TableSet}
    (ht : Tabulated g a grants paths paths.chips tables) {keys : PartitionKeys}
    (hshare : Share g grants s x i) (hkeys : a.keys? s.vertex s.identifier = some keys)
    (hk : keys.range.pattern.Matches k) {path : PathEntry}
    (hpath : paths.entry? chip s = some path) :
    ∃ e, tables.lookup? chip k = some e ∧ Follows e path := by
  obtain ⟨entries, hentries⟩ := ht.complete chip (mem_chips.2 ⟨s, path, hpath⟩)
  have htab := (ht.sound chip entries hentries).2
  obtain ⟨f, hf, hfk⟩ := htab.complete (s, path) (mem_entriesOn.2 hpath) keys hkeys k hk
  obtain ⟨e, he⟩ := exists_lookup? hf hfk
  obtain ⟨⟨t, other⟩, hother, hshare', hfollows⟩ :=
    htab.sound e (mem_of_lookup? he) k (matches_of_lookup? he)
  have hinShare : InShare g grants s k := by
    refine hshare.inShare h ?_
    rw [← (hshare.keys_eq h hkeys).2]
    exact hk
  cases hinShare.source_eq h hshare'
  cases Option.some.inj (hpath.symm.trans (mem_entriesOn.1 hother))
  exact ⟨e, lookup?_eq_some_iff.2 ⟨entries, hentries, he⟩, hfollows⟩

theorem Tabulated.carries (h : Allotted g a grants) {tables : TableSet}
    (ht : Tabulated g a grants paths paths.chips tables) {keys : PartitionKeys}
    (hshare : ∃ x i, Share g grants s x i) (hkeys : a.keys? s.vertex s.identifier = some keys)
    (hk : keys.range.pattern.Matches k) : Carries tables paths s k := by
  intro chip path hpath
  obtain ⟨x, i, hshare⟩ := hshare
  obtain ⟨e, he, hfollows⟩ := ht.exists_follows h hshare hkeys hk hpath
  exact ⟨e, he, hfollows.route_eq⟩

/-! ## Failures -/

theorem exists_tableOf (hkeys : ∀ s e, paths.entry? chip s = some e →
      ∃ keys, a.keys? s.vertex s.identifier = some keys) :
    ∃ table, tableOf a paths chip = .ok table := by
  apply exists_ok_of_failsOnly
  refine FailsOnly.bind (FailsOnly.mapM fun bundle hbundle => ?_) fun _ _ => FailsOnly.pure _
  refine FailsOnly.bind (FailsOnly.mapM fun item hitem => ?_) fun senders _ => ?_
  · have hmem : item ∈ paths.entriesOn chip := by
      rw [← List.flatten_splitBy sameBundle (paths.entriesOn chip)]
      exact List.mem_flatten_of_mem hbundle hitem
    obtain ⟨keys, hfound⟩ := hkeys item.1 item.2 (mem_entriesOn.1 hmem)
    exact FailsOnly.bind (FailsOnly.of_eq_ok (keysOf_eq_ok.2 hfound)) fun _ _ => FailsOnly.pure _
  · simp only
    split
    · exact FailsOnly.pure _
    · exact FailsOnly.pure _

theorem exists_generate (h : Allotted g a grants) (hp : SourcedBy g paths) :
    ∃ tables, generate a paths = .ok tables := by
  apply exists_ok_of_failsOnly
  refine FailsOnly.foldlM (motive := Tabulated g a grants paths) tabulated_empty ?_
  intro before chip after hsplit tables hbefore
  have hkeys : ∀ s e, paths.entry? chip s = some e →
      ∃ keys, a.keys? s.vertex s.identifier = some keys := by
    intro s e he
    obtain ⟨p, hmem, v, _, rfl⟩ := hp chip s e he
    exact h.exists_keys hmem
  obtain ⟨table, htable⟩ := exists_tableOf hkeys
  obtain ⟨rfl, htab⟩ := tabulates_tableOf h hp htable
  have hfresh : tables.entries? table.chip = none := by
    cases hfound : tables.entries? table.chip with
    | none => rfl
    | some entries =>
        have hnodup := Maps.nodup_eraseDups (paths.toList.map fun item => item.1.1)
        rw [show (paths.toList.map fun item => item.1.1).eraseDups = paths.chips from rfl, hsplit,
          List.nodup_append] at hnodup
        have hmem := (hbefore.sound _ _ hfound).1
        exact absurd rfl (hnodup.2.2 _ hmem _ (by simp))
  have hinsert := insert_eq_ok.2 ⟨hfresh, rfl⟩
  refine ⟨?_, ?_⟩
  · refine FailsOnly.bind (FailsOnly.during (FailsOnly.of_eq_ok htable)) fun t ht => ?_
    cases htable.symm.trans (during_eq_ok.1 ht)
    exact FailsOnly.of_eq_ok (lift_eq_ok.2 hinsert)
  · intro c hstep
    obtain ⟨t, ht, hrest⟩ := bind_eq_ok.1 hstep
    cases htable.symm.trans (during_eq_ok.1 ht)
    exact hbefore.insert htab (lift_eq_ok.1 hrest)

end MulticastMesh.Tables
