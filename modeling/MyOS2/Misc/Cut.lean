import Mathlib.Data.List.Basic

/-!
# Lists cut at a threshold

A list whose order carries a predicate downwards splits into the elements that have it
and those that do not. A search from either end stops at the cut.
-/

namespace MyOS2.Cut

open List

variable {α : Type}

/-- Where `R x y` lets `p` pass from `y` to `x`, the elements with `p` come first. -/
theorem exists_cut {R : α → α → Prop} (p : α → Prop) [DecidablePred p] {l : List α}
    (hl : l.Pairwise R) (hp : ∀ x, ∀ y ∈ l, R x y → p y → p x) :
    ∃ low high, l = low ++ high ∧ (∀ x ∈ low, p x) ∧ ∀ x ∈ high, ¬ p x := by
  induction l with
  | nil => exact ⟨[], [], rfl, nofun, nofun⟩
  | cons a l ih =>
    obtain ⟨ha, hl⟩ := pairwise_cons.1 hl
    by_cases hpa : p a
    · obtain ⟨low, high, rfl, hlow, hhigh⟩ :=
        ih hl fun x y hy => hp x y (mem_cons_of_mem _ hy)
      exact ⟨a :: low, high, rfl, forall_mem_cons.2 ⟨hpa, hlow⟩, hhigh⟩
    · refine ⟨[], a :: l, rfl, nofun, forall_mem_cons.2 ⟨hpa, fun x hx h => ?_⟩⟩
      exact hpa (hp a x (mem_cons_of_mem _ hx) (ha x hx) h)

variable {p : α → Bool} {low high : List α}

section

variable (hlow : ∀ x ∈ low, p x = true)
include hlow

theorem find?_reverse_append (hhigh : ∀ x ∈ high, p x = false) :
    (low ++ high).reverse.find? p = low.getLast? := by
  rw [reverse_append, find?_append,
    find?_eq_none.2 fun x hx => by simp [hhigh x (mem_reverse.1 hx)], Option.none_or]
  cases hr : low.reverse with
  | nil => simp [reverse_eq_nil_iff.1 hr]
  | cons a r =>
    have ha : a ∈ low := mem_reverse.1 (hr ▸ mem_cons_self)
    rw [find?_cons_of_pos (hlow a ha), ← head?_reverse, hr, head?_cons]

/-- A loop from the front that stops at the first element without `p` stops at the cut. -/
theorem dropWhile_append (hhigh : ∀ x ∈ high.head?, p x = false) :
    (low ++ high).dropWhile p = high := by
  rw [dropWhile_append_of_pos hlow]
  cases high with
  | nil => rfl
  | cons a r => exact dropWhile_cons_of_neg (by simp [hhigh a rfl])

theorem takeWhile_append (hhigh : ∀ x ∈ high.head?, p x = false) :
    (low ++ high).takeWhile p = low := by
  rw [takeWhile_append_of_pos hlow]
  cases high with
  | nil => simp
  | cons a r => rw [takeWhile_cons_of_neg (by simp [hhigh a rfl]), append_nil]

end

theorem filter_middle {mid : List α} (hlow : ∀ x ∈ low, p x = false)
    (hmid : ∀ x ∈ mid, p x = true) (hhigh : ∀ x ∈ high, p x = false) :
    (low ++ (mid ++ high)).filter p = mid ∧
      (low ++ (mid ++ high)).filter (fun x => !p x) = low ++ high := by
  have hno : ∀ l : List α, (∀ x ∈ l, p x = false) →
      l.filter p = [] ∧ l.filter (fun x => !p x) = l := fun l hl =>
    ⟨filter_eq_nil_iff.2 fun x hx => by simp [hl x hx],
      filter_eq_self.2 fun x hx => by simp [hl x hx]⟩
  have hyes : mid.filter p = mid ∧ mid.filter (fun x => !p x) = [] :=
    ⟨filter_eq_self.2 hmid, filter_eq_nil_iff.2 fun x hx => by simp [hmid x hx]⟩
  simp [hno low hlow, hno high hhigh, hyes]

end MyOS2.Cut
