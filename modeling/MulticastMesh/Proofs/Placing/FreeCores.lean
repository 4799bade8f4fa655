import MulticastMesh.Proofs.Placing.Rooms
/-!
# What placements leave of a chip

The room that the search works out for a chip offers exactly the cores and the memory that the
placements leave, also after those of the attempt under way are taken from it.
-/

namespace MulticastMesh.Placing

open MulticastMesh.Graph (MachineGraph MachineVertexId)
open Mesh (Chip Coord Machine)
open Layout (Placement Placements)
open Outcome

/-- User cores of a chip that are neither reserved nor taken, in order. -/
def freeCores (s : Setting) (chip : Chip) (taken : List Placement) : List Nat :=
  (ChipRoom.unreserved chip s.config.reserved).filter fun core =>
    !(taken.map Placement.core).contains (chip.coord, core)

def roomLeft (s : Setting) (chip : Chip) (taken : List Placement) : ChipRoom where
  chip := chip.coord
  cores := freeCores s chip taken
  sdram := chip.sdram - memoryOn s.graph chip.coord taken

def Known (g : MachineGraph) (l : List Placement) : Prop :=
  ∀ q ∈ l, ∃ w, g.HasVertex q.vertex w

variable {s : Setting} {chip : Chip} {taken pending : List Placement} {q : Placement} {c : Coord}
  {placements : Placements} {room : ChipRoom}

/-! ## Free cores -/

theorem mem_freeCores {core : Nat} : core ∈ freeCores s chip taken ↔
    core ∈ ChipRoom.unreserved chip s.config.reserved ∧
      ∀ q ∈ taken, q.core ≠ (chip.coord, core) := by
  unfold freeCores
  rw [List.mem_filter, Bool.not_eq_true', ← Bool.not_eq_true, List.contains_iff_mem, List.mem_map]
  simp only [not_exists, not_and, ne_eq]

theorem freeCores_sorted : (freeCores s chip taken).Pairwise (· < ·) :=
  List.Pairwise.filter _ (List.Pairwise.filter _ List.pairwise_lt_range')

theorem nodup_freeCores : (freeCores s chip taken).Nodup :=
  freeCores_sorted.imp Nat.ne_of_lt

theorem freeCores_append_of_ne (h : q.chip ≠ chip.coord) :
    freeCores s chip (taken ++ [q]) = freeCores s chip taken := by
  apply List.filter_congr
  intro core _
  have hne : (chip.coord, core) ≠ q.core := fun heq => h (congrArg Prod.fst heq).symm
  simp [hne]

theorem freeCores_append_of_eq (h : q.chip = chip.coord) :
    freeCores s chip (taken ++ [q]) = (freeCores s chip taken).erase q.processor := by
  rw [nodup_freeCores.erase_eq_filter]
  unfold freeCores
  rw [List.filter_filter]
  apply List.filter_congr
  intro core _
  rw [List.map_append, List.contains_append, Bool.not_or, Bool.and_comm]
  congr 1
  by_cases hcore : core = q.processor
  · simp [Placement.core, h, hcore]
  · simp [Placement.core, hcore]

/-! ## Rooms -/

theorem roomLeft_append_of_ne (h : q.chip ≠ chip.coord) :
    roomLeft s chip (taken ++ [q]) = roomLeft s chip taken := by
  simp [roomLeft, freeCores_append_of_ne h, memoryOn, h]

theorem roomLeft_append_of_eq (h : q.chip = chip.coord) : roomLeft s chip (taken ++ [q]) =
    ((roomLeft s chip taken).useCore q.processor).useSdram (memoryOf s.graph q.vertex) := by
  have hmemory : memoryOn s.graph chip.coord [q] = memoryOf s.graph q.vertex := by
    simp [memoryOn, h]
  simp only [roomLeft, freeCores_append_of_eq h, memoryOn_append, hmemory, Nat.sub_add_eq]
  rfl

theorem roomLeft_of_residents {memory : List Nat}
    (h : (placements.onChip chip.coord).mapM (fun p => do
      return (← s.graph.vertex p.vertex).resources.sdram) = .ok memory) :
    roomLeft s chip placements.toList = {
      chip := chip.coord
      cores := (ChipRoom.unreserved chip s.config.reserved).filter fun p =>
        !((placements.onChip chip.coord).map fun q => q.processor).contains p
      sdram := chip.sdram - memory.foldr (· + ·) 0 } := by
  unfold roomLeft
  rw [sum_of_residents h]
  congr 1
  apply List.filter_congr
  intro core _
  congr 1
  rw [Bool.eq_iff_iff, List.contains_iff_mem, List.contains_iff_mem, List.mem_map, List.mem_map]
  refine exists_congr fun q => ?_
  rw [(placements.onChip_perm chip.coord).mem_iff, List.mem_filter]
  simp [Placement.core, and_assoc]

theorem roomOn_eq (h : s.roomOn placements c = .ok room) :
    ∃ chip, s.machine.chip? c = some chip ∧ room = roomLeft s chip placements.toList := by
  obtain ⟨chip, hchip, h⟩ := bind_eq_ok.1 h
  obtain ⟨memory, hmemory, h⟩ := bind_eq_ok.1 (lift_eq_ok.1 h)
  refine ⟨chip, chip_eq_ok.1 (lift_eq_ok.1 hchip), ?_⟩
  rw [roomLeft_of_residents hmemory]
  exact (pure_eq_ok.1 h).symm

theorem Known.residents (h : Known s.graph placements.toList) (c : Coord) :
    ∀ q ∈ placements.onChip c, ∃ w, s.graph.HasVertex q.vertex w := by
  intro q hq
  exact h q (List.mem_of_mem_filter ((placements.onChip_perm c).mem_iff.1 hq))

theorem roomOn_of_known (hchip : s.machine.chip? c = some chip)
    (hknown : Known s.graph placements.toList) :
    s.roomOn placements c = .ok (roomLeft s chip placements.toList) := by
  obtain ⟨memory, hmemory⟩ : ∃ memory, (placements.onChip chip.coord).mapM (fun p => do
      return (← s.graph.vertex p.vertex).resources.sdram : Placement → _) = .ok memory := by
    refine exists_mapM_eq_ok fun q hq => ?_
    obtain ⟨w, hw⟩ := hknown.residents _ q hq
    exact ⟨_, bind_eq_ok.2 ⟨w, MachineGraph.vertex_eq_ok.2 hw, rfl⟩⟩
  refine bind_eq_ok.2 ⟨chip, lift_eq_ok.2 (chip_eq_ok.2 hchip), lift_eq_ok.2 ?_⟩
  refine bind_eq_ok.2 ⟨memory, hmemory, ?_⟩
  rw [roomLeft_of_residents hmemory]
  rfl

theorem takePending_of_known (taken : List Placement) (hknown : Known s.graph pending) : ∃ labels,
    s.takePending (roomLeft s chip taken) pending =
      .ok (roomLeft s chip (taken ++ pending), labels) := by
  induction pending generalizing taken with
  | nil => exact ⟨[], by rw [List.append_nil]; rfl⟩
  | cons q pending ih =>
      obtain ⟨⟨w, hw⟩, hknown⟩ := List.forall_mem_cons.1 hknown
      obtain ⟨labels, hrest⟩ := ih (taken ++ [q]) hknown
      rw [List.append_assoc, List.singleton_append] at hrest
      unfold Setting.takePending
      by_cases hchip : q.chip = chip.coord
      · rw [roomLeft_append_of_eq hchip, memoryOf_eq hw] at hrest
        refine ⟨w.label :: labels, ?_⟩
        rw [if_pos (show q.chip = (roomLeft s chip taken).chip from hchip)]
        exact bind_eq_ok.2 ⟨w, lift_eq_ok.2 (MachineGraph.vertex_eq_ok.2 hw),
          bind_eq_ok.2 ⟨_, hrest, rfl⟩⟩
      · rw [roomLeft_append_of_ne hchip] at hrest
        refine ⟨labels, ?_⟩
        rw [if_neg (show ¬q.chip = (roomLeft s chip taken).chip from hchip)]
        exact hrest

end MulticastMesh.Placing
