import Std.Data.ExtTreeMap
/-!
# Sorted maps and lists without repetition

Look-ups in sorted maps whose order tells equal keys apart from all others, and lists that hold
every element once.
-/

namespace MulticastMesh.Maps

open Std ExtTreeMap

variable {α β : Type} {cmp : α → α → Ordering} [TransCmp cmp] [LawfulEqCmp cmp]
  {t : ExtTreeMap α β cmp}

theorem getElem?_insert_eq_ite [DecidableEq α] {k a : α} {v : β} :
    (t.insert k v)[a]? = if k = a then some v else t[a]? := by
  rw [getElem?_insert]
  simp only [LawfulEqCmp.compare_eq_iff_eq]

theorem getElem?_insert_of_ne {k a : α} {v : β} (h : k ≠ a) : (t.insert k v)[a]? = t[a]? := by
  classical
  rw [getElem?_insert_eq_ite, if_neg h]

theorem insert_insert_self {k : α} {v v' : β} : (t.insert k v).insert k v' = t.insert k v' := by
  classical
  apply ext_getElem?
  intro a
  simp only [getElem?_insert_eq_ite]
  split
  · rfl
  · rfl

theorem insert_comm {k k' : α} {v v' : β} (h : k ≠ k') :
    (t.insert k v).insert k' v' = (t.insert k' v').insert k v := by
  classical
  apply ext_getElem?
  intro a
  simp only [getElem?_insert_eq_ite]
  split
  · next heq => rw [if_neg fun heq' => h (heq'.trans heq.symm)]
  · rfl

theorem nodup_eraseDups {α : Type} [DecidableEq α] : ∀ l : List α, l.eraseDups.Nodup
  | [] => List.nodup_nil
  | b :: l => by
      have hrest := nodup_eraseDups (l.filter fun c => !c == b)
      rw [List.eraseDups_cons, List.nodup_cons, List.mem_eraseDups]
      exact ⟨by simp, hrest⟩
  termination_by l => l.length
  decreasing_by exact Nat.lt_succ_of_le (List.length_filter_le _ _)

end MulticastMesh.Maps
