import MulticastMesh.Proofs.Keys.Apart
import MulticastMesh.Proofs.Tables.Generated
/-!
# Generated tables mean the routing trees

On every chip the keys of a partition are sent as its path entry there says, and keys without a
path entry match nothing: neither those of partitions that do not pass through nor those that
nobody was given.
-/

namespace MulticastMesh.Tables

open MulticastMesh.Graph (ApplicationGraph MachineGraph)
open Keys (Allotted AsAsked Assignment Grant HasBlock InShare Indexed Key allocate blockAt sourceOf)
open Mesh (Coord)
open Outcome
open Routing (PartitionSource PathEntry PathTable)

/-- The tables match the keys of the partitions that pass through a chip and no others, each by one
entry that does what the path entry of the partition says. -/
structure Exact (g : MachineGraph) (a : Assignment) (paths : PathTable) (tables : TableSet) :
    Prop where
  apart : ∀ chip entries, tables.entries? chip = some entries →
    entries.Pairwise fun e f => e.pattern.Apart f.pattern
  sent : ∀ chip s path, paths.entry? chip s = some path →
    ∃ keys, a.keys? s.vertex s.identifier = some keys ∧ ∀ k, keys.range.pattern.Matches k →
      ∃ e, tables.lookup? chip k = some e ∧ Follows e path
  absent : ∀ chip, ∀ p ∈ g.multicastPartitions, ∀ v keys, g.HasVertex p.pre v →
    paths.entry? chip (sourceOf v p) = none → a.keys? p.pre p.identifier = some keys →
    ∀ k, keys.range.pattern.Matches k → tables.lookup? chip k = none
  unassigned : ∀ k, (∀ owner identifier block, HasBlock g a identifier block owner →
    ¬ block.Matches k) → ∀ chip, tables.lookup? chip k = none

variable {app : ApplicationGraph} {g : MachineGraph} {a : Assignment} {grants : List Grant}
  {paths : PathTable} {tables : TableSet} {chip : Coord} {k : Key}

theorem Tabulated.inShare (ht : Tabulated g a grants paths paths.chips tables) {e : Entry}
    (he : tables.lookup? chip k = some e) :
    ∃ s path, paths.entry? chip s = some path ∧ InShare g grants s k := by
  obtain ⟨entries, hentries, he⟩ := lookup?_eq_some_iff.1 he
  obtain ⟨⟨s, path⟩, hitem, hshare, _⟩ :=
    (ht.sound chip entries hentries).2.sound e (mem_of_lookup? he) k (matches_of_lookup? he)
  exact ⟨s, path, mem_entriesOn.1 hitem, hshare⟩

theorem SourcedBy.exists_block (h : Allotted g a grants)
    (hasked : ∀ x ∈ grants, AsAsked app g x.request) (hp : SourcedBy g paths)
    {s : PartitionSource} {path : PathEntry} (hpath : paths.entry? chip s = some path)
    (hk : InShare g grants s k) :
    ∃ owner block, HasBlock g a s.identifier block owner ∧ block.Matches k := by
  obtain ⟨p, hmem, v, _, rfl⟩ := hp chip s path hpath
  obtain ⟨keys, hkeys⟩ := h.exists_keys hmem
  obtain ⟨x, hshare, hcovers⟩ := hk
  have hblock := hshare.hasBlock h hasked hkeys
  exact ⟨_, _, hblock, (h.granted.sufficient x hshare.mem).aligned.matches_iff.2 hcovers⟩

theorem Tabulated.absent (h : Allotted g a grants)
    (ht : Tabulated g a grants paths paths.chips tables) {s : PartitionSource}
    (hk : InShare g grants s k) (hnone : paths.entry? chip s = none) :
    tables.lookup? chip k = none := by
  cases he : tables.lookup? chip k with
  | none => rfl
  | some e =>
      obtain ⟨t, path, hpath, hshare⟩ := ht.inShare he
      rw [hk.source_eq h hshare, hpath] at hnone
      cases hnone

/-- Tables can be generated from all paths of a graph with keys, and mean exactly these paths. -/
theorem generate_exact (hg : Indexed g) (h : allocate app g = .ok a) (hp : SourcedBy g paths) :
    ∃ tables, generate a paths = .ok tables ∧ Exact g a paths tables := by
  obtain ⟨grants, hgrants, hasked⟩ := Keys.exists_allotted hg h
  obtain ⟨tables, hrun⟩ := exists_generate hgrants hp
  have ht := tabulated_generate hgrants hp hrun
  refine ⟨tables, hrun, ?_, ?_, ?_, ?_⟩
  · intro chip entries hentries
    exact (ht.sound chip entries hentries).2.apart
  · intro chip s path hpath
    obtain ⟨x, i, hshare⟩ := hp.exists_share hgrants hpath
    obtain ⟨p, hmem, v, _, rfl⟩ := hp chip s path hpath
    obtain ⟨keys, hkeys⟩ := hgrants.exists_keys hmem
    exact ⟨keys, hkeys, fun k hk => ht.exists_follows hgrants hshare hkeys hk hpath⟩
  · intro chip p hmem v keys hv hnone hkeys k hk
    obtain ⟨x, hshare⟩ := hgrants.exists_share hmem hv
    have hpattern := (hshare.keys_eq hgrants hkeys).2
    exact ht.absent hgrants (hshare.inShare hgrants (hpattern ▸ hk)) hnone
  · intro k houtside chip
    cases he : tables.lookup? chip k with
    | none => rfl
    | some e =>
        obtain ⟨s, path, hpath, hshare⟩ := ht.inShare he
        obtain ⟨owner, block, hblock, hk⟩ := hp.exists_block hgrants hasked hpath hshare
        exact absurd hk (houtside owner s.identifier block hblock)

/-- Two siblings that leave a chip over one link and are delivered on the next chip. -/
def siblingPaths : PathTable where
  entries := .ofList [
    ((⟨0, 0⟩, ⟨some ⟨0⟩, "spikes", ⟨0⟩⟩), ⟨.overLinks [.east], none⟩),
    ((⟨0, 0⟩, ⟨some ⟨0⟩, "spikes", ⟨1⟩⟩), ⟨.overLinks [.east], none⟩),
    ((⟨1, 0⟩, ⟨some ⟨0⟩, "spikes", ⟨0⟩⟩), ⟨⟨0, 2⟩, some (.link .east)⟩)] compare

theorem generate_exact_siblings : Indexed Keys.tappedGraph ∧
    SourcedBy Keys.tappedGraph siblingPaths ∧ ∃ a tables,
      allocate Keys.tappedApp Keys.tappedGraph = .ok a ∧ generate a siblingPaths = .ok tables ∧
        Exact Keys.tappedGraph a siblingPaths tables := by
  have hg : Indexed Keys.tappedGraph := by decide
  have hpaths : SourcedBy Keys.tappedGraph siblingPaths := by
    intro chip s e he
    have hlist : siblingPaths.toList = [
        ((⟨0, 0⟩, ⟨some ⟨0⟩, "spikes", ⟨0⟩⟩), ⟨.overLinks [.east], none⟩),
        ((⟨0, 0⟩, ⟨some ⟨0⟩, "spikes", ⟨1⟩⟩), ⟨.overLinks [.east], none⟩),
        ((⟨1, 0⟩, ⟨some ⟨0⟩, "spikes", ⟨0⟩⟩), ⟨⟨0, 2⟩, some (.link .east)⟩)] := by
      decide +kernel
    have hmem : ((chip, s), e) ∈ siblingPaths.toList :=
      Std.ExtTreeMap.mem_toList_iff_getElem?_eq_some.2 he
    rw [hlist] at hmem
    simp only [List.mem_cons, List.not_mem_nil, or_false, Prod.mk.injEq] at hmem
    rcases hmem with ⟨⟨_, rfl⟩, _⟩ | ⟨⟨_, rfl⟩, _⟩ | ⟨⟨_, rfl⟩, _⟩
    · exact ⟨Keys.tappedGraph.partitions[0], by decide, _, rfl, rfl⟩
    · exact ⟨Keys.tappedGraph.partitions[1], by decide, _, rfl, rfl⟩
    · exact ⟨Keys.tappedGraph.partitions[0], by decide, _, rfl, rfl⟩
  obtain ⟨a, h⟩ := exists_of_isOk
    (show (allocate Keys.tappedApp Keys.tappedGraph).isOk = true by decide +kernel)
  obtain ⟨tables, hrun, hexact⟩ := generate_exact hg h hpaths
  exact ⟨hg, hpaths, a, tables, h, hrun, hexact⟩

end MulticastMesh.Tables
