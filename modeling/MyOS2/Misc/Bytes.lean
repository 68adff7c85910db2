import Mathlib.Data.List.Basic

/-!
# Bytes in a flat memory

A memory is a function on addresses. `Holds mem a l` says that the bytes `l` are
found from the address `a` on, and `putBytes mem a l` is the memory after they were
stored there.
-/

namespace MyOS2

variable {β : Type*} {mem : Nat → β} {a b x : Nat} {l l₁ l₂ : List β}

def Holds (mem : Nat → β) (a : Nat) (l : List β) : Prop :=
  ∀ i v, l[i]? = some v → mem (a + i) = v

def putBytes (mem : Nat → β) (a : Nat) (l : List β) : Nat → β :=
  fun x => if a ≤ x then l[x - a]?.getD (mem x) else mem x

theorem Holds.congr {mem' : Nat → β} (h : Holds mem a l)
    (hsame : ∀ x, a ≤ x → x < a + l.length → mem' x = mem x) : Holds mem' a l := by
  intro i v hi
  have hlt := (List.getElem?_eq_some_iff.mp hi).1
  rw [hsame (a + i) (Nat.le_add_right ..) (Nat.add_lt_add_left hlt a)]
  exact h i v hi

theorem putBytes_of_lt (h : x < a) : putBytes mem a l x = mem x := if_neg (Nat.not_le_of_lt h)

theorem putBytes_of_le (h : a + l.length ≤ x) : putBytes mem a l x = mem x := by
  rw [putBytes, if_pos (by omega), List.getElem?_eq_none (by omega)]
  rfl

theorem holds_putBytes : Holds (putBytes mem a l) a l := by
  intro i v hi
  rw [putBytes, if_pos (Nat.le_add_right ..), Nat.add_sub_cancel_left, hi]
  rfl

@[simp] theorem putBytes_nil : putBytes mem a [] = mem := by
  funext x
  rw [putBytes]
  split <;> simp

section

variable (mem : Nat → β) (a : Nat) (l₁ l₂ : List β)

theorem putBytes_append' :
    putBytes (putBytes mem a l₁) (a + l₁.length) l₂ = putBytes mem a (l₁ ++ l₂) := by
  funext x
  by_cases hmid : a + l₁.length ≤ x
  · have hle : l₁.length ≤ x - a := by omega
    have hlo : a ≤ x := by omega
    simp only [putBytes, hlo, if_true, hmid, List.getElem?_append_right hle, Nat.sub_sub,
      List.getElem?_eq_none hle, Option.getD_none]
  · rw [putBytes_of_lt (by omega)]
    by_cases hlo : a ≤ x
    · have hlt : x - a < l₁.length := by omega
      simp [putBytes, hlo, List.getElem?_append_left hlt, List.getElem?_eq_getElem hlt]
    · rw [putBytes_of_lt (by omega), putBytes_of_lt (by omega)]

end

theorem Holds.putBytes (h : Holds mem a l) (hbeside : a + l.length ≤ b ∨ b + l₁.length ≤ a) :
    Holds (putBytes mem b l₁) a l := by
  refine h.congr fun x hlo hhi => ?_
  rcases hbeside with hle | hle
  · exact putBytes_of_lt (by omega)
  · exact putBytes_of_le (by omega)

end MyOS2
