import Mathlib.Data.List.Basic
import Mathlib.Tactic.Tauto

/-!
# Ordered lists of spans

A span is a pair of a start and an end, the end excluded. In an ordered list the spans
are not empty and each lies below the ones that follow.
-/

namespace MyOS2.Spans

/-- No span is empty, and each ends before the ones behind it start. -/
def Ordered (l : List (Nat × Nat)) : Prop :=
  l.Pairwise (fun x y => x.2 ≤ y.1) ∧ ∀ x ∈ l, x.1 < x.2

/-- The address lies in one of the spans. -/
def Covered (l : List (Nat × Nat)) (a : Nat) : Prop := ∃ x ∈ l, x.1 ≤ a ∧ a < x.2

variable {A B : List (Nat × Nat)} {x : Nat × Nat} {lo mid hi : Nat}

theorem ordered_append :
    Ordered (A ++ B) ↔ Ordered A ∧ Ordered B ∧ ∀ x ∈ A, ∀ y ∈ B, x.2 ≤ y.1 := by
  simp only [Ordered, List.pairwise_append, List.forall_mem_append]
  exact ⟨fun ⟨⟨hA, hB, hAB⟩, hA', hB'⟩ => ⟨⟨hA, hA'⟩, ⟨hB, hB'⟩, hAB⟩,
    fun ⟨⟨hA, hA'⟩, ⟨hB, hB'⟩, hAB⟩ => ⟨⟨hA, hB, hAB⟩, hA', hB'⟩⟩

theorem ordered_cons : Ordered (x :: B) ↔ x.1 < x.2 ∧ Ordered B ∧ ∀ y ∈ B, x.2 ≤ y.1 := by
  simp only [Ordered, List.pairwise_cons, List.forall_mem_cons]
  exact ⟨fun ⟨⟨hxB, hB⟩, hx, hB'⟩ => ⟨hx, ⟨hB, hB'⟩, hxB⟩,
    fun ⟨hx, ⟨hB, hB'⟩, hxB⟩ => ⟨⟨hxB, hB⟩, hx, hB'⟩⟩

theorem ordered_middle : Ordered (A ++ (lo, hi) :: B) ↔
    Ordered (A ++ B) ∧ lo < hi ∧ (∀ x ∈ A, x.2 ≤ lo) ∧ ∀ y ∈ B, hi ≤ y.1 := by
  simp only [ordered_append, ordered_cons, List.forall_mem_cons]
  exact ⟨fun ⟨hA, ⟨hlt, hB, hhi⟩, hAB⟩ =>
      ⟨⟨hA, hB, fun x hx => (hAB x hx).2⟩, hlt, fun x hx => (hAB x hx).1, hhi⟩,
    fun ⟨⟨hA, hB, hAB⟩, hlt, hlo, hhi⟩ =>
      ⟨hA, ⟨hlt, hB, hhi⟩, fun x hx => ⟨hlo x hx, hAB x hx⟩⟩⟩

theorem Ordered.split (h : Ordered (A ++ (lo, hi) :: B)) (hlo : lo < mid) (hhi : mid < hi) :
    Ordered (A ++ (lo, mid) :: (mid, hi) :: B) := by
  obtain ⟨hAB, -, hA, hB⟩ := ordered_middle.1 h
  refine ordered_middle.2 ⟨ordered_middle.2 ⟨hAB, hhi, fun x hx => ?_, hB⟩, hlo, hA,
    List.forall_mem_cons.2 ⟨Nat.le_refl _, fun y hy => ?_⟩⟩
  · exact Nat.le_trans (hA x hx) (Nat.le_of_lt hlo)
  · exact Nat.le_trans (Nat.le_of_lt hhi) (hB y hy)

variable {a : Nat}

theorem covered_append : Covered (A ++ B) a ↔ Covered A a ∨ Covered B a := by
  simp only [Covered, List.mem_append, or_and_right, exists_or]

theorem covered_cons : Covered (x :: B) a ↔ (x.1 ≤ a ∧ a < x.2) ∨ Covered B a := by
  simp [Covered]

theorem covered_split (hlo : lo < mid) (hhi : mid < hi) :
    Covered (A ++ (lo, mid) :: (mid, hi) :: B) a ↔ Covered (A ++ (lo, hi) :: B) a := by
  have hone : (lo ≤ a ∧ a < mid ∨ mid ≤ a ∧ a < hi) ↔ lo ≤ a ∧ a < hi := by omega
  simp only [covered_append, covered_cons, ← hone, or_assoc]

variable {hi' lo' : Nat}

theorem Ordered.join (h : Ordered (A ++ (lo, hi) :: (lo', hi') :: B)) :
    Ordered (A ++ (lo, hi') :: B) := by
  obtain ⟨hAB, hlt, hA, hB⟩ := ordered_middle.1 h
  obtain ⟨hAB, hlt', -, hB'⟩ := ordered_middle.1 hAB
  have := (List.forall_mem_cons.1 hB).1
  exact ordered_middle.2 ⟨hAB, by simp only at this; omega, hA, hB'⟩

theorem Ordered.covered_join (h : Ordered (A ++ (lo, hi) :: (lo', hi') :: B)) :
    Covered (A ++ (lo, hi') :: B) a ↔
      Covered (A ++ (lo, hi) :: (lo', hi') :: B) a ∨ hi ≤ a ∧ a < lo' := by
  obtain ⟨hAB, hlt, -, hB⟩ := ordered_middle.1 h
  obtain ⟨-, hlt', -, -⟩ := ordered_middle.1 hAB
  have := (List.forall_mem_cons.1 hB).1
  have hone : (lo ≤ a ∧ a < hi') ↔ (lo ≤ a ∧ a < hi) ∨ (lo' ≤ a ∧ a < hi') ∨ hi ≤ a ∧ a < lo' := by
    omega
  simp only [covered_append, covered_cons, hone, or_assoc, or_comm, or_left_comm]

theorem covered_grow (hlo : lo' ≤ lo) (hlt : lo < hi) (hhi : hi ≤ hi') :
    Covered (A ++ (lo', hi') :: B) a ↔
      Covered (A ++ (lo, hi) :: B) a ∨ lo' ≤ a ∧ a < lo ∨ hi ≤ a ∧ a < hi' := by
  have hone : (lo' ≤ a ∧ a < hi') ↔ (lo ≤ a ∧ a < hi) ∨ (lo' ≤ a ∧ a < lo) ∨ hi ≤ a ∧ a < hi' := by
    omega
  simp only [covered_append, covered_cons, hone, or_assoc, or_comm, or_left_comm]

end MyOS2.Spans
