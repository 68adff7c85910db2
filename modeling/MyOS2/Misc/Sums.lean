import Mathlib.Algebra.BigOperators.Group.List.Basic
import Mathlib.Data.List.Nodup

/-!
# Totals over a list when one entry changes

The components count over all workers, tables or slots, and one call changes one
of them.
-/

namespace MyOS2

open Function

variable {α β M : Type*} [DecidableEq α]

theorem map_update_of_notMem {l : List α} {a : α} (ha : a ∉ l) (g : β → M) (f : α → β) (v : β) :
    (l.map fun x => g (update f a v x)) = l.map fun x => g (f x) := by
  apply List.map_congr_left
  intro x hx
  rw [update_of_ne]
  rintro rfl
  exact ha hx

theorem sum_map_update [AddCommMonoid M] {l : List α} {a : α} (hnodup : l.Nodup) (ha : a ∈ l)
    (g : β → M) (f : α → β) (v : β) :
    (l.map fun x => g (update f a v x)).sum + g (f a) = (l.map fun x => g (f x)).sum + g v := by
  have hnotMem : a ∉ l.erase a := hnodup.not_mem_erase
  have hnew := List.sum_map_erase (fun x => g (update f a v x)) ha
  have hold := List.sum_map_erase (fun x => g (f x)) ha
  rw [← hnew, ← hold, map_update_of_notMem hnotMem, update_self]
  ac_rfl

/-- One entry of a list changes: what that does to the number of those equal to `b`. -/
theorem count_set_add {γ : Type*} [BEq γ] [LawfulBEq γ] {l : List γ} {i : Nat} {x : γ}
    (h : l[i]? = some x) (y b : γ) :
    (l.set i y).count b + (if x == b then 1 else 0) = l.count b + if y == b then 1 else 0 := by
  obtain ⟨hi, rfl⟩ := List.getElem?_eq_some_iff.mp h
  have hle : (if l[i] == b then 1 else 0) ≤ l.count b := by
    split
    · rename_i hb
      exact List.count_pos_iff.mpr (eq_of_beq hb ▸ List.getElem_mem hi)
    · exact Nat.zero_le _
  rw [List.count_set hi]
  omega

end MyOS2
