import Mathlib.Tactic.Common

/-!
# Overwriting a range

A flat store is a function on positions. `overwrite f lo hi g` is the store `f`
after the positions from `lo` up to `hi` took the values of `g`.
-/

namespace MyOS2

variable {β : Type*} {f g : Nat → β} {lo mid hi : Nat}

def overwrite (f : Nat → β) (lo hi : Nat) (g : Nat → β) : Nat → β :=
  fun i => if lo ≤ i ∧ i < hi then g i else f i

theorem overwrite_of_mem {i : Nat} (hlo : lo ≤ i) (hhi : i < hi) :
    overwrite f lo hi g i = g i := if_pos ⟨hlo, hhi⟩

theorem overwrite_of_not_mem {i : Nat} (h : ¬ (lo ≤ i ∧ i < hi)) :
    overwrite f lo hi g i = f i := if_neg h

theorem overwrite_of_le (h : hi ≤ lo) : overwrite f lo hi g = f := by
  funext i
  apply overwrite_of_not_mem
  omega

theorem overwrite_append (h₁ : lo ≤ mid) (h₂ : mid ≤ hi) :
    overwrite (overwrite f lo mid g) mid hi g = overwrite f lo hi g := by
  funext i
  by_cases hmid : mid ≤ i ∧ i < hi
  · rw [overwrite_of_mem hmid.1 hmid.2, overwrite_of_mem (by omega) hmid.2]
  · rw [overwrite_of_not_mem hmid]
    by_cases hlow : lo ≤ i ∧ i < mid
    · rw [overwrite_of_mem hlow.1 hlow.2, overwrite_of_mem hlow.1 (by omega)]
    · rw [overwrite_of_not_mem hlow, overwrite_of_not_mem (by omega)]

theorem overwrite_congr {g' : Nat → β} (h : ∀ i, lo ≤ i → i < hi → g i = g' i) :
    overwrite f lo hi g = overwrite f lo hi g' := by
  funext i
  by_cases hi : lo ≤ i ∧ i < hi
  · rw [overwrite_of_mem hi.1 hi.2, overwrite_of_mem hi.1 hi.2, h i hi.1 hi.2]
  · rw [overwrite_of_not_mem hi, overwrite_of_not_mem hi]

end MyOS2
