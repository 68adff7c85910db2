import Mathlib.Data.List.Perm.Basic
import Mathlib.Data.List.Nodup
import Mathlib.Data.List.Flatten
import Mathlib.Data.List.Pairwise
import Mathlib.Logic.Function.Basic

/-!
# Tilings

A list of blocks tiles a set when no two of the blocks share a point and
together they make up the set. What an allocator does is moving blocks about,
cutting one in two, and taking new ones in; none of this disturbs a tiling.
-/

namespace MyOS2

open Function

variable {α β : Type} {mem : α → β → Prop} {P Q : α → Prop} {b c d : β} {bs cs : List β}

theorem forall_of_pairwise {R : β → β → Prop} (h : bs.Pairwise R)
    (hsymm : ∀ b c, R b c → R c b) (hb : b ∈ bs) (hc : c ∈ bs) (hne : b ≠ c) : R b c := by
  have : Std.Symm R := ⟨hsymm⟩
  exact h.forall hb hc hne

/-- The blocks `bs` share no point, and their points are those of `P`. -/
structure Tiles (mem : α → β → Prop) (P : α → Prop) (bs : List β) : Prop where
  apart : bs.Pairwise fun b c => ∀ a, mem a b → ¬ mem a c
  covers : ∀ a, (∃ b ∈ bs, mem a b) ↔ P a

namespace Tiles

theorem perm (h : Tiles mem P bs) (hp : bs.Perm cs) : Tiles mem P cs := by
  refine ⟨?_, ?_⟩
  · refine (hp.pairwise_iff ?_).1 h.apart
    intro b c hbc a hc hb
    exact hbc a hb hc
  · intro a
    rw [← h.covers a]
    simp only [hp.mem_iff]

theorem split (h : Tiles mem P (b :: bs)) (hcut : ∀ a, mem a b ↔ mem a c ∨ mem a d)
    (hcd : ∀ a, mem a c → ¬ mem a d) : Tiles mem P (c :: d :: bs) := by
  obtain ⟨hb, hbs⟩ := List.pairwise_cons.1 h.apart
  refine ⟨?_, ?_⟩
  · refine List.pairwise_cons.2 ⟨?_, List.pairwise_cons.2 ⟨?_, hbs⟩⟩
    · intro e he a hc
      rcases List.mem_cons.1 he with rfl | he
      · exact hcd a hc
      · exact hb e he a ((hcut a).2 (.inl hc))
    · intro e he a hd
      exact hb e he a ((hcut a).2 (.inr hd))
  · intro a
    rw [← h.covers a]
    simp only [List.mem_cons, exists_eq_or_imp, hcut a, or_assoc]

theorem insert (h : Tiles mem P bs) (hnew : ∀ a, mem a b → ¬ P a) :
    Tiles mem (fun a => mem a b ∨ P a) (b :: bs) := by
  refine ⟨List.pairwise_cons.2 ⟨?_, h.apart⟩, ?_⟩
  · intro c hc a hb ha
    exact hnew a hb ((h.covers a).1 ⟨c, hc, ha⟩)
  · intro a
    simp [h.covers a]

theorem not_mem (h : Tiles mem P (b :: bs)) {a : α} (ha : mem a b) (hc : c ∈ bs) : ¬ mem a c :=
  (List.pairwise_cons.1 h.apart).1 c hc a ha

end Tiles

/-! ## Blocks on several lists -/

section flatMap

variable {ι : Type} [DecidableEq ι] {l : List ι} {g : ι → List β} {i : ι} {x : β}

theorem flatMap_update_of_not_mem {ys : List β} (hi : i ∉ l) :
    l.flatMap (update g i ys) = l.flatMap g := by
  apply List.flatMap_congr
  intro j hj
  rw [update_of_ne]
  rintro rfl
  exact hi hj

theorem flatMap_update_cons (hl : l.Nodup) (hi : i ∈ l) :
    (l.flatMap (update g i (x :: g i))).Perm (x :: l.flatMap g) := by
  induction l with
  | nil => cases hi
  | cons j l ih =>
    obtain ⟨hj, hl⟩ := List.nodup_cons.1 hl
    by_cases hij : i = j
    · subst hij
      simp only [List.flatMap_cons, update_self, List.cons_append, flatMap_update_of_not_mem hj]
      exact List.Perm.refl _
    · have hmem : i ∈ l := (List.mem_cons.1 hi).resolve_left hij
      simp only [List.flatMap_cons, update_of_ne (Ne.symm hij)]
      refine ((ih hl hmem).append_left (g j)).trans ?_
      exact List.perm_middle

end flatMap

end MyOS2
