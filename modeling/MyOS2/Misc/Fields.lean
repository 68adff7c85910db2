import Mathlib.Data.List.TakeWhile

/-!
# Fields between separators

The non-empty pieces of a list between the occurrences of a separator, and how a
scan from the left meets them: it skips separators, takes a piece, and goes on
behind the separators that follow.
-/

namespace MyOS2

open List

variable {α : Type*} [BEq α] {sep : α} {l : List α}

/-- The non-empty pieces of `l` between the occurrences of `sep`. -/
def fields (sep : α) (l : List α) : List (List α) :=
  (l.splitOn sep).filter fun piece => !piece.isEmpty

@[simp] theorem fields_nil : fields sep [] = [] := by
  simp [fields, splitOn_nil]

variable [LawfulBEq α]

@[simp] theorem fields_cons_sep : fields sep (sep :: l) = fields sep l := by
  have hsplit : (sep :: l).splitOn sep = [] :: l.splitOn sep :=
    splitOnP_append_cons_of_forall_mem
      (by simp : ∀ x ∈ ([] : List α), (x == sep) = false) sep (by simp) l
  simp [fields, hsplit]

theorem fields_dropWhile : fields sep (l.dropWhile (· == sep)) = fields sep l := by
  induction l with
  | nil => rfl
  | cons a l ih =>
    by_cases ha : a = sep
    · subst ha
      simpa using ih
    · simp [ha]

theorem length_rest_lt (hl : l ≠ []) (hhead : l.head? ≠ some sep) :
    ((l.dropWhile (· != sep)).dropWhile (· == sep)).length < l.length := by
  cases l with
  | nil => exact absurd rfl hl
  | cons a l =>
    have ha : a ≠ sep := fun heq => hhead (by simp [heq])
    rw [dropWhile_cons_of_pos (by simpa using ha)]
    exact Nat.lt_succ_of_le ((dropWhile_suffix _).trans (dropWhile_suffix _)).length_le

theorem head?_dropWhile_sep (sep : α) (l : List α) : (l.dropWhile (· == sep)).head? ≠ some sep := by
  intro hhead
  have hno := head?_dropWhile_not (· == sep) l
  rw [hhead] at hno
  simp at hno

/-- A scan that starts on a piece takes it off and goes on with the rest. -/
theorem fields_eq_cons (hl : l ≠ []) (hhead : l.head? ≠ some sep) :
    fields sep l = l.takeWhile (· != sep) ::
      fields sep ((l.dropWhile (· != sep)).dropWhile (· == sep)) := by
  have hpiece : l.takeWhile (· != sep) ≠ [] := by
    cases l with
    | nil => exact absurd rfl hl
    | cons a l =>
      have ha : a ≠ sep := fun heq => hhead (by simp [heq])
      simp [ha]
  have hclean : ∀ x ∈ l.takeWhile (· != sep), (x == sep) = false := by
    intro x hx
    simpa using mem_takeWhile_imp hx
  rw [fields_dropWhile]
  rcases hrest : l.dropWhile (· != sep) with _ | ⟨a, rest⟩
  · have hall : l.takeWhile (· != sep) = l := by
      simpa [hrest] using takeWhile_append_dropWhile (p := (· != sep)) (l := l)
    rw [hall] at hclean hpiece ⊢
    have hsplit : l.splitOn sep = [l] := splitOnP_eq_singleton hclean
    simp [fields, hsplit, hpiece]
  · have ha : a = sep := by
      have hfirst := head_dropWhile_not (· != sep) (l := l) (by simp [hrest])
      simpa [hrest] using hfirst
    subst ha
    have hsplit : l.splitOn a = l.takeWhile (· != a) :: rest.splitOn a := by
      have hfirst := splitOnP_append_cons_of_forall_mem hclean a (by simp) rest
      rwa [← hrest, takeWhile_append_dropWhile] at hfirst
    rw [fields_cons_sep, fields, hsplit, filter_cons_of_pos (by simpa using hpiece), fields]

theorem fields_flatMap {pieces : List (List α)} (h : ∀ p ∈ pieces, p ≠ [] ∧ sep ∉ p) :
    fields sep (pieces.flatMap (· ++ [sep])) = pieces := by
  induction pieces with
  | nil => rfl
  | cons p pieces ih =>
    obtain ⟨hp, hsep⟩ := h p mem_cons_self
    have hclean : ∀ a ∈ p, (a != sep) = true := by
      intro a ha
      simpa using fun heq : a = sep => hsep (heq ▸ ha)
    have hhead : (p ++ sep :: pieces.flatMap (· ++ [sep])).head? ≠ some sep := by
      obtain ⟨a, p, rfl⟩ := exists_cons_of_ne_nil hp
      simpa using fun heq : a = sep => hsep (heq ▸ mem_cons_self)
    rw [flatMap_cons, append_assoc, singleton_append,
      fields_eq_cons (by simp) hhead, takeWhile_append_of_pos hclean,
      dropWhile_append_of_pos hclean, takeWhile_cons_of_neg (by simp),
      dropWhile_cons_of_neg (by simp), append_nil, fields_dropWhile, fields_cons_sep,
      ih fun q hq => h q (mem_cons_of_mem _ hq)]

theorem of_mem_fields {p : List α} (hp : p ∈ fields sep l) : p ≠ [] ∧ sep ∉ p := by
  refine ⟨by simpa using (mem_filter.mp hp).2, ?_⟩
  -- the scan takes the fields off one by one, and each is taken up to a separator
  induction hn : l.length using Nat.strong_induction_on generalizing l with
  | h n ih =>
    have hhead := head?_dropWhile_sep sep l
    have hle : (l.dropWhile (· == sep)).length ≤ n := hn ▸ (dropWhile_suffix _).length_le
    rw [← fields_dropWhile] at hp
    by_cases hnil : l.dropWhile (· == sep) = []
    · simp [hnil] at hp
    · have hlt := length_rest_lt hnil hhead
      rw [fields_eq_cons hnil hhead] at hp
      rcases mem_cons.mp hp with rfl | hp
      · intro hsep
        simpa using mem_takeWhile_imp hsep
      · exact ih _ (Nat.lt_of_lt_of_le hlt hle) hp rfl

end MyOS2
