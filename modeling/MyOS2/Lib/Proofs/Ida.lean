import MyOS2.Misc.Runs
import MyOS2.Lib.Ida
import Mathlib.Tactic.Common

/-!
# Which ids the allocator hands out

`ida_alloc_range` records nothing, so the bitmap stays clear for ever and the
search stops at the first bit of the word it starts with: the id returned is
`8 * min` whenever there is a word `min`.
-/

namespace MyOS2.Ida

open Function

def IdaS.Clear (ida : IdaS) : Prop := ∀ i, ida.bitmap i = 0

variable {ida : IdaS}

theorem idaAllocRange_of_lt (h : ida.Clear) {min : Nat} (max : Nat)
    (hmin : min < idaBitmapLongs) : idaAllocRange ida min max = min * sizeofLong := by
  cases hn : idaBitmapLongs - min with
  | zero => omega
  | succ n =>
    rw [idaAllocRange, hn, scanSlots]
    simp [h min, firstClear, sizeofLong]

theorem idaAllocRange_of_ge (ida : IdaS) {min : Nat} (max : Nat) (hmin : idaBitmapLongs ≤ min) :
    idaAllocRange ida min max = -1 := by
  rw [idaAllocRange, Nat.sub_eq_zero_of_le hmin, scanSlots]

theorem idaFree_of_clear (h : ida.Clear) {id : Nat} (hid : Representable id) :
    ∃ ida', idaFree ida id = some ida' ∧ ida'.Clear := by
  refine ⟨_, if_pos hid, ?_⟩
  intro i
  by_cases hi : i = id / sizeofLong
  · subst hi
    simp [h (id / sizeofLong)]
  · simp [update_of_ne hi, h i]

theorem IdaS.Clear.holds (h : ida.Clear) (id : Nat) : ida.holds id = false := by
  simp [IdaS.holds, h (id / sizeofLong)]

variable {s : Clients}

/-! ## Runs -/

namespace Clients

/-- What every run keeps: the bitmap is clear, and allocated ids are ids of it. -/
structure Inv (s : Clients) : Prop where
  clear : s.ida.Clear
  representable : ∀ id, s.allocated id = true → Representable id

/-- What the clients expect of one call: an id in range that is not allocated, no failure while one
is left, and no effect of a free on other ids. -/
def Kept (s : Clients) : Op → Int → Clients → Prop
  | .allocRange min max, r, _ =>
    if 0 ≤ r then s.allocated r.toNat = false ∧ min ≤ r.toNat ∧ r.toNat ≤ max
    else ∀ x, min ≤ x → x ≤ max → Representable x → s.allocated x = true
  | .free id, _, s' =>
    ∀ x, x ≠ id → s'.ida.holds x = s.ida.holds x ∧ (s.allocated x = true → s'.allocated x = true)

/-- The first id of word `min` is free and in range; where there is no such word, the range has no
id left. -/
def FirstOfWordFree (s : Clients) : Op → Prop
  | .allocRange min max =>
    if min < idaBitmapLongs then
      s.allocated (min * sizeofLong) = false ∧ min * sizeofLong ≤ max
    else ∀ x, min ≤ x → x ≤ max → Representable x → s.allocated x = true
  | .free _ => True

theorem Inv.alloc (h : s.Inv) {id : Nat} (hid : Representable id) :
    Inv { s with allocated := update s.allocated id true } where
  clear := h.clear
  representable x hx := by
    by_cases hxid : x = id
    · exact hxid ▸ hid
    · exact h.representable x (by simpa [update_of_ne hxid] using hx)

theorem Inv.free (h : s.Inv) (hclear : ida.Clear) (id : Nat) :
    Inv { ida := ida, allocated := update s.allocated id false } where
  clear := hclear
  representable x hx := by
    by_cases hxid : x = id
    · subst hxid
      simp at hx
    · exact h.representable x (by simpa [update_of_ne hxid] using hx)

/-- Every permitted call returns, keeps the invariant, and does what is expected of it exactly when
the first id of its word may be handed out. -/
theorem Inv.step (h : s.Inv) {op : Op} (hok : s.Ok op) :
    ∃ r s', s.step op = some (r, s') ∧ s'.Inv ∧ (s.Kept op r s' ↔ s.FirstOfWordFree op) := by
  cases op with
  | allocRange min max =>
    by_cases hmin : min < idaBitmapLongs
    · have hret : idaAllocRange s.ida min max = ((min * sizeofLong : Nat) : Int) := by
        rw [idaAllocRange_of_lt h.clear max hmin, Int.natCast_mul]
      have hrep : Representable (min * sizeofLong) := by
        rw [Representable, Nat.mul_div_cancel _ (by decide)]
        exact hmin
      have hle : min ≤ min * sizeofLong := Nat.le_mul_of_pos_right _ (by decide)
      refine ⟨((min * sizeofLong : Nat) : Int), _, ?_, h.alloc hrep, ?_⟩
      · simp only [Clients.step, hret, Int.natCast_nonneg, if_true, Int.toNat_natCast]
      · simp only [Kept, FirstOfWordFree, if_pos hmin, Int.natCast_nonneg, if_true,
          Int.toNat_natCast, hle, true_and]
    · have hret := idaAllocRange_of_ge s.ida max (Nat.le_of_not_lt hmin)
      refine ⟨-1, s, ?_, h, ?_⟩
      · simp [Clients.step, hret]
      · simp [Kept, FirstOfWordFree, if_neg hmin]
  | free id =>
    obtain ⟨ida', hfree, hclear⟩ := idaFree_of_clear h.clear (h.representable id hok)
    refine ⟨0, _, ?_, h.free hclear id, ?_⟩
    · simp [Clients.step, hfree]
    · simp only [Kept, FirstOfWordFree, iff_true]
      intro x hx
      constructor
      · rw [hclear.holds, h.clear.holds]
      · intro hall
        rw [update_of_ne hx]
        exact hall

theorem inv_init : init.Inv where
  clear _ := rfl
  representable id h := by simp [init] at h

theorem reachable_inv (h : Reachable Clients.step Clients.Ok (· = init) s) : s.Inv := by
  refine h.invariant_of_returns (fun s hs => hs ▸ inv_init) fun s op hinv hok => ?_
  obtain ⟨r, s', hstep, hinv', -⟩ := hinv.step hok
  exact ⟨r, s', hstep, hinv'⟩

/-- In every run every call returns, and it keeps ids unique, in range and available exactly when
the first id of the word it starts at may be handed out. -/
theorem kept_iff_firstOfWordFree {s : Clients} {op : Op}
    (h : Reachable Clients.step Clients.Ok (· = init) s) (hok : s.Ok op) :
    ∃ r s', s.step op = some (r, s') ∧ (s.Kept op r s' ↔ s.FirstOfWordFree op) := by
  obtain ⟨r, s', hstep, -, hiff⟩ := (reachable_inv h).step hok
  exact ⟨r, s', hstep, hiff⟩

instance (s : Clients) (op : Op) : Decidable (s.Ok op) := by
  cases op <;> (unfold Clients.Ok; infer_instance)

/-- The ids 8 and 16 were handed out, and 16 was given back. -/
theorem kept_iff_firstOfWordFree_used : ∃ s : Clients, s.allocated 8 = true ∧ s.allocated 16 = false ∧
    ∃ r s', s.step (.allocRange 2 20) = some (r, s') ∧ s.Kept (.allocRange 2 20) r s' := by
  have hrun : ∃ s, Reachable Clients.step Clients.Ok (· = init) s ∧
      decide (s.allocated 8 = true ∧ s.allocated 16 = false) = true :=
    Reachable.exists_of_run rfl [.allocRange 1 9, .allocRange 2 20, .free 16] (by decide +kernel)
  obtain ⟨s, hs, hlast⟩ := hrun
  obtain ⟨h8, h16⟩ := of_decide_eq_true hlast
  obtain ⟨r, s', hstep, hiff⟩ := kept_iff_firstOfWordFree hs
    (show s.Ok (.allocRange 2 20) by simp [Clients.Ok])
  exact ⟨s, h8, h16, r, s', hstep, hiff.mpr ⟨h16, by decide⟩⟩

/-- Two allocations from the same range return the same id. -/
theorem same_id_allocated_twice :
    ∃ s s', init.step (.allocRange 0 7) = some (0, s) ∧
      s.step (.allocRange 0 7) = some (0, s') ∧ ¬ s.Kept (.allocRange 0 7) 0 s' :=
  ⟨_, _, rfl, rfl, fun h => absurd h.1 (by decide)⟩

end Clients

end MyOS2.Ida
