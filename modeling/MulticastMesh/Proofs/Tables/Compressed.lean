import MulticastMesh.Proofs.Tables.Covering.Routes
import MulticastMesh.Proofs.Tables.Generated
import MulticastMesh.Proofs.Tables.Preservation
import MulticastMesh.Proofs.Tables.Unordered
import MulticastMesh.Tables.Compress
/-!
# Compressed tables

Every compressor keeps the routes of a table in which no key is matched by entries with different
routes.  Tables are compressed one by one, and the only thing that can go wrong is their size.
-/

namespace MulticastMesh.Tables

open Keys (Key)
open Mesh (Coord)
open Outcome
open Routing (PartitionSource PathTable)

variable {c : Compressor} {maxEntries : Nat} {tables tables' : TableSet} {entries : List Entry}
  {chip : Coord} {k : Key}

theorem specificFirst_of_unambiguous (h : Unambiguous entries) :
    OrderedCovering.SpecificFirst entries := by
  refine List.pairwise_of_forall_mem_list fun e he f hf hne hcommon => ?_
  obtain ⟨k, hek, hfk⟩ := hcommon
  exact absurd (h e he f hf k hek hfk) hne

theorem keepsRoutes_compressor (c : Compressor) (h : Unambiguous entries)
    (hproper : AllProper entries) :
    KeepsRoutes entries (c.minimise entries) ∧ AllProper (c.minimise entries) := by
  cases c with
  | orderedCovering =>
      exact OrderedCovering.faithful_minimise (specificFirst_of_unambiguous h) hproper
  | unordered => exact Unordered.keepsRoutes_minimise h hproper
  | none => exact ⟨KeepsRoutes.refl, hproper⟩

/-! ## Sets of tables -/

/-- Every table is replaced by a shorter one. -/
structure Compressed (c : Compressor) (before : List Table) (tables : TableSet) : Prop where
  sound : ∀ chip entries, tables.entries? chip = some entries → ∃ t ∈ before, t.chip = chip
  complete : ∀ t ∈ before, tables.entries? t.chip = some (c.minimise t.entries)

theorem mem_toList_tables {t : Table} :
    t ∈ tables.toList ↔ tables.entries? t.chip = some t.entries := by
  unfold TableSet.toList TableSet.entries?
  rw [← Std.ExtTreeMap.mem_toList_iff_getElem?_eq_some, List.mem_map]
  constructor
  · rintro ⟨⟨chip, entries⟩, hmem, rfl⟩
    exact hmem
  · intro hmem
    exact ⟨(t.chip, t.entries), hmem, rfl⟩

theorem nodup_toList_chips (tables : TableSet) : (tables.toList.map Table.chip).Nodup := by
  unfold TableSet.toList List.Nodup
  rw [List.map_map, List.pairwise_map]
  refine List.Pairwise.imp ?_ tables.byChip.distinct_keys_toList
  intro a b hne heq
  rw [Std.LawfulEqCmp.compare_eq_iff_eq] at hne
  exact hne heq

theorem compress_eq_ok {t t' : Table} (h : compress c maxEntries t = .ok t') :
    t'.chip = t.chip ∧ t'.entries = c.minimise t.entries := by
  unfold compress at h
  simp only at h
  split at h
  · cases h
  · cases h
    exact ⟨rfl, rfl⟩

theorem Compressed.insert {before : List Table} {t t' : Table} (h : Compressed c before tables)
    (hfresh : ∀ u ∈ before, u.chip ≠ t.chip) (ht : compress c maxEntries t = .ok t')
    (hrun : tables.insert t' = .ok tables') : Compressed c (before ++ [t]) tables' := by
  obtain ⟨hchip, hentries⟩ := compress_eq_ok ht
  obtain ⟨_, rfl⟩ := insert_eq_ok.1 hrun
  refine ⟨?_, ?_⟩
  · intro chip entries hfound
    rw [entries?_insert] at hfound
    split at hfound
    · next heq => exact ⟨t, by simp, hchip.symm.trans heq⟩
    · obtain ⟨u, hu, huchip⟩ := h.sound chip entries hfound
      exact ⟨u, List.mem_append_left _ hu, huchip⟩
  · intro u hu
    rw [entries?_insert]
    rcases List.mem_append.1 hu with hu | hu
    · rw [if_neg fun heq => hfresh u hu (heq.symm.trans hchip)]
      exact h.complete u hu
    · cases List.mem_singleton.1 hu
      rw [if_pos hchip, hentries]

theorem compressed_empty : Compressed c [] .empty :=
  ⟨by simp [TableSet.empty, TableSet.entries?], by simp⟩

theorem chip_ne_of_before {before after : List Table} {t : Table}
    (h : tables.toList = before ++ t :: after) : ∀ u ∈ before, u.chip ≠ t.chip := by
  intro u hu
  have hnodup := nodup_toList_chips tables
  rw [h, List.map_append, List.nodup_append] at hnodup
  exact hnodup.2.2 _ (List.mem_map_of_mem hu) _ (by simp)

theorem compressed_compressAll (h : compressAll c maxEntries tables = .ok tables') :
    Compressed c tables.toList tables' := by
  refine foldlM_induction h compressed_empty ?_
  intro before t after hsplit done done' hdone hstep
  obtain ⟨t', ht', hinsert⟩ := bind_eq_ok.1 hstep
  exact hdone.insert (chip_ne_of_before hsplit) (lift_eq_ok.1 (during_eq_ok.1 ht'))
    (lift_eq_ok.1 hinsert)

theorem Compressed.carries (h : Compressed c tables.toList tables') (horder : Orderless tables)
    {paths : PathTable} {s : PartitionSource} (hk : Carries tables paths s k) :
    Carries tables' paths s k := by
  intro chip e he
  obtain ⟨f, hf, hroute⟩ := hk chip e he
  obtain ⟨entries, hentries, hlookup⟩ := lookup?_eq_some_iff.1 hf
  obtain ⟨hunambiguous, hproper⟩ := horder chip entries hentries
  obtain ⟨hkeeps, _⟩ := keepsRoutes_compressor c hunambiguous hproper
  obtain ⟨f', hf', hroute'⟩ := hkeeps k f hlookup
  have hnew := h.complete ⟨chip, entries⟩ (mem_toList_tables.2 hentries)
  exact ⟨f', lookup?_eq_some_iff.2 ⟨_, hnew, hf'⟩, hroute'.trans hroute⟩

theorem Compressed.checkTables_ok (h : Compressed c tables.toList tables')
    (horder : Orderless tables) : checkTables tables tables' = .ok () := by
  refine forM_eq_ok.2 fun t ht => ?_
  have hnew := h.complete t ht
  obtain ⟨hunambiguous, hproper⟩ := horder t.chip t.entries (mem_toList_tables.1 ht)
  obtain ⟨hkeeps, hproper'⟩ := keepsRoutes_compressor c hunambiguous hproper
  unfold TableSet.table?
  simp only [hnew, Option.map_some]
  exact during_eq_ok.2 (lift_eq_ok.2 (checkTable_ok hkeeps hproper hproper'))

/-! ## Failures -/

def IsTooManyEntries (cause : Cause) : Prop := ∃ e, cause = .tooManyEntries e

theorem compressAll_fails : FailsOnly IsTooManyEntries (compressAll c maxEntries tables) := by
  refine FailsOnly.foldlM (motive := Compressed c) compressed_empty ?_
  intro before t after hsplit done hdone
  have hfresh := chip_ne_of_before hsplit
  refine ⟨?_, ?_⟩
  · refine FailsOnly.bind (FailsOnly.during (FailsOnly.lift fun e _ => ⟨e, rfl⟩)) fun t' ht' => ?_
    have hchip := (compress_eq_ok (lift_eq_ok.1 (during_eq_ok.1 ht'))).1
    have hnone : done.entries? t'.chip = none := by
      cases hfound : done.entries? t'.chip with
      | none => rfl
      | some entries =>
          obtain ⟨u, hu, huchip⟩ := hdone.sound _ _ hfound
          exact absurd (huchip.trans hchip) (hfresh u hu)
    exact FailsOnly.of_eq_ok (lift_eq_ok.2 (insert_eq_ok.2 ⟨hnone, rfl⟩))
  · intro done' hstep
    obtain ⟨t', ht', hinsert⟩ := bind_eq_ok.1 hstep
    exact hdone.insert hfresh (lift_eq_ok.1 (during_eq_ok.1 ht')) (lift_eq_ok.1 hinsert)

end MulticastMesh.Tables
