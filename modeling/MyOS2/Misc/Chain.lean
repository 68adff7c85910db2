import Mathlib.Logic.Function.Basic

/-!
# Chains through one field

Cells name the next one in a field; a chain is the list of cells one meets
before the end mark.
-/

namespace MyOS2

variable {α : Type*} {next next' : α → α} {nil x y : α} {l : List α}

/-- The chain that starts at `x` leads through the cells of a list to the end. -/
def Chained (next : α → α) (nil : α) : α → List α → Prop
  | x, [] => x = nil
  | x, y :: l => x = y ∧ Chained next nil (next y) l

theorem Chained.congr (h : Chained next nil x l) (hnext : ∀ y ∈ l, next' y = next y) :
    Chained next' nil x l := by
  induction l generalizing x with
  | nil => exact h
  | cons y l ih =>
    obtain ⟨rfl, hrest⟩ := h
    refine ⟨rfl, ?_⟩
    rw [hnext x (List.mem_cons_self ..)]
    apply ih hrest
    intro z hz
    exact hnext z (List.mem_cons_of_mem _ hz)

theorem Chained.push [DecidableEq α] (h : Chained next nil x l) (hy : y ∉ l) :
    Chained (Function.update next y x) nil y (y :: l) := by
  refine ⟨rfl, ?_⟩
  rw [Function.update_self]
  apply h.congr
  intro z hz
  have hne : z ≠ y := fun heq => hy (heq ▸ hz)
  rw [Function.update_of_ne hne]

theorem chained_range' (f : Nat → α) (n k : Nat) (hnext : ∀ i < n, next (f (k + i)) = f (k + i + 1))
    (hlast : next (f (k + n)) = nil) :
    Chained next nil (f k) ((List.range' k (n + 1)).map f) := by
  induction n generalizing k with
  | zero => exact ⟨rfl, hlast⟩
  | succ n ih =>
    refine ⟨rfl, ?_⟩
    rw [show next (f k) = f (k + 1) from hnext 0 (Nat.succ_pos n)]
    apply ih (k + 1)
    · intro i hi
      have hstep := hnext (i + 1) (Nat.succ_lt_succ hi)
      rwa [Nat.add_right_comm k 1 i]
    · rwa [Nat.add_right_comm k 1 n]

end MyOS2
