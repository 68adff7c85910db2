import MyOS2.Misc.Runs
import MyOS2.Lib.Idr
import Mathlib.Tactic.Common

/-!
# Which ids the table hands out

The table takes a slot holding `NULL` for a free id, and `idr_alloc_u32` does not read its
bound. So the id an allocation returns is really free, and below `end`, exactly when the lowest
empty slot the search meets is. `SearchOk` says this about the slots before the call.
-/

namespace MyOS2.Idr

open Function Option

/-! ## The search loop -/

def LowestNull (rt : Nat → Nat) (from_ x : Nat) : Prop :=
  (from_ ≤ x ∧ x < myosIdrBufSize ∧ rt x = 0) ∧ ∀ y, from_ ≤ y → y < x → rt y ≠ 0

variable {x : Nat} {rt : Nat → Nat}

theorem firstNull_eq_some {n i : Nat} (h : firstNull rt n i = some x) :
    (i ≤ x ∧ x < i + n ∧ rt x = 0) ∧ ∀ y, i ≤ y → y < x → rt y ≠ 0 := by
  induction n generalizing i with
  | zero => simp [firstNull] at h
  | succ n ih =>
    rw [firstNull] at h
    split at h
    · next h0 =>
      cases h
      exact ⟨⟨Nat.le_refl _, by omega, h0⟩, fun y hy hlt => absurd hlt (by omega)⟩
    · next h0 =>
      obtain ⟨⟨hle, hlt, hx⟩, hbefore⟩ := ih h
      refine ⟨⟨by omega, by omega, hx⟩, fun y hy hyx => ?_⟩
      rcases Nat.eq_or_lt_of_le hy with rfl | hy
      · exact h0
      · exact hbefore y hy hyx

theorem firstNull_eq_none {n i : Nat} (h : firstNull rt n i = none) :
    ∀ y, i ≤ y → y < i + n → rt y ≠ 0 := by
  induction n generalizing i with
  | zero => intro y h1 h2; omega
  | succ n ih =>
    rw [firstNull] at h
    split at h
    · cases h
    · next h0 =>
      intro y h1 h2
      rcases Nat.eq_or_lt_of_le h1 with rfl | h1
      · exact h0
      · exact ih h y h1 (by omega)

/-- The two outcomes of `idr_alloc_u32`: the lowest empty slot takes the pointer, or there is none.
-/
theorem idrAllocU32_cases (idr : IdrS) (ptr nextid max : Nat)
    (hid : nextid < 2 ^ 31) :
    (∃ x, LowestNull idr.idrRt nextid x ∧
      idrAllocU32 idr ptr nextid max = some (0, x, { idr with idrRt := update idr.idrRt x ptr })) ∨
    ((∀ x, ¬ LowestNull idr.idrRt nextid x) ∧
      idrAllocU32 idr ptr nextid max = some (-enospc, nextid, idr)) := by
  have hnot : ¬ 2 ^ 31 ≤ nextid := by omega
  cases hf : firstNull idr.idrRt (myosIdrBufSize - nextid) nextid with
  | some x =>
    obtain ⟨⟨hle, hlt, hx⟩, hbefore⟩ := firstNull_eq_some hf
    exact .inl ⟨x, ⟨⟨hle, by omega, hx⟩, hbefore⟩, by rw [idrAllocU32, if_neg hnot, hf]⟩
  | none =>
    refine .inr ⟨?_, by rw [idrAllocU32, if_neg hnot, hf]⟩
    rintro x ⟨⟨hle, hlt, hx⟩, -⟩
    exact firstNull_eq_none hf x hle (by omega) hx

theorem LowestNull.unique {i y : Nat} (hx : LowestNull rt i x)
    (hy : LowestNull rt i y) : x = y := by
  obtain ⟨⟨hx1, -, hx0⟩, hxb⟩ := hx
  obtain ⟨⟨hy1, -, hy0⟩, hyb⟩ := hy
  rcases Nat.lt_trichotomy x y with h | h | h
  · exact absurd hx0 (hyb x hx1 h)
  · exact h
  · exact absurd hy0 (hxb y hy1 h)

/-! ## The two allocation functions -/

theorem u32OfInt_of_nonneg {i : Int} (h0 : 0 ≤ i) (h1 : i < 2 ^ 31) : u32OfInt i = i.toNat := by
  unfold u32OfInt
  rw [Int.emod_eq_of_lt h0 (by omega)]

theorem intOfU32_of_lt {n : Nat} (h : n < 2 ^ 31) : intOfU32 n = n := if_pos h

def cyclicFrom (idr : IdrS) (start : Int) : Nat :=
  if (idr.idrNext : Int) < start then start.toNat else idr.idrNext

variable {start : Int}

/-- `idr_alloc` with a non-negative `start` returns the lowest empty slot, if there is one. -/
theorem idrAlloc_cases (idr : IdrS) (ptr : Nat) (end_ : Int) (h0 : 0 ≤ start)
    (h1 : start < 2 ^ 31) :
    (∃ x : Nat, LowestNull idr.idrRt start.toNat x ∧
      idrAlloc idr ptr start end_ =
        some ((x : Int), { idr with idrRt := update idr.idrRt x ptr })) ∨
    ((∀ x, ¬ LowestNull idr.idrRt start.toNat x) ∧
      idrAlloc idr ptr start end_ = some (-enospc, idr)) := by
  have hneg : ¬ start < 0 := by omega
  rcases idrAllocU32_cases idr ptr start.toNat (maxOfEnd end_) (by omega) with
    ⟨x, hx, he⟩ | ⟨hn, he⟩
  · have hlt : x < 2 ^ 31 := by have := hx.1.2.1; simp [myosIdrBufSize] at this; omega
    refine .inl ⟨x, hx, ?_⟩
    simp [idrAlloc, hneg, u32OfInt_of_nonneg h0 h1, he, intOfU32_of_lt hlt]
  · exact .inr ⟨hn, by simp [idrAlloc, hneg, u32OfInt_of_nonneg h0 h1, he, enospc]⟩

variable {end_ : Int} {idr : IdrS}

theorem idrAllocCyclic_of_u32 {idr' : IdrS} {ptr id : Nat} {err : Int}
    (hfrom : (if intOfU32 idr.idrNext < start then u32OfInt start else idr.idrNext) = id)
    (h : idrAllocU32 idr ptr id (maxOfEnd end_) = some (err, x, idr'))
    (hdone : ¬ (err = -enospc ∧ u32OfInt start < x)) :
    idrAllocCyclic idr ptr start end_ =
      if err ≠ 0 then some (err, idr')
      else some (intOfU32 x, { idr' with idrNext := (x + 1) % 2 ^ 32 }) := by
  simp [idrAllocCyclic, hfrom, h, if_neg hdone]

theorem idrAllocCyclic_of_retry {idr₁ idr₂ : IdrS} {ptr id x₁ x₂ : Nat} {err : Int}
    (hfrom : (if intOfU32 idr.idrNext < start then u32OfInt start else idr.idrNext) = id)
    (h₁ : idrAllocU32 idr ptr id (maxOfEnd end_) = some (-enospc, x₁, idr₁))
    (hgt : u32OfInt start < x₁)
    (h₂ : idrAllocU32 idr₁ ptr (u32OfInt start) (maxOfEnd end_) = some (err, x₂, idr₂)) :
    idrAllocCyclic idr ptr start end_ =
      if err ≠ 0 then some (err, idr₂)
      else some (intOfU32 x₂, { idr₂ with idrNext := (x₂ + 1) % 2 ^ 32 }) := by
  simp [idrAllocCyclic, hfrom, h₁, if_pos hgt, h₂]

/-- The id `x` that `idr_alloc_cyclic` settles on: the lowest empty slot from the cursor on, or else
the lowest one from `start` on. -/
def CyclicPick (idr : IdrS) (start : Int) (x : Nat) : Prop :=
  LowestNull idr.idrRt (cyclicFrom idr start) x ∨
    ((∀ y, ¬ LowestNull idr.idrRt (cyclicFrom idr start) y) ∧ 0 ≤ start ∧
      LowestNull idr.idrRt start.toNat x)

section

variable {idr : IdrS} {start : Int} {x : Nat} (h : CyclicPick idr start x)
include h

theorem CyclicPick.lt : x < myosIdrBufSize := by
  rcases h with h | ⟨-, -, h⟩ <;> exact h.1.2.1

theorem CyclicPick.null : idr.idrRt x = 0 := by
  rcases h with h | ⟨-, -, h⟩ <;> exact h.1.2.2

end

theorem idrAllocCyclic_cases (idr : IdrS) (ptr : Nat) (end_ : Int)
    (hnext : idr.idrNext ≤ myosIdrBufSize) (h0 : -2 ^ 31 ≤ start) (h1 : start < 2 ^ 31) :
    (∃ x : Nat, CyclicPick idr start x ∧
      idrAllocCyclic idr ptr start end_ =
        some ((x : Int), { idr with
          idrRt := update idr.idrRt x ptr, idrNext := x + 1 })) ∨
    ((∀ x, ¬ CyclicPick idr start x) ∧
      idrAllocCyclic idr ptr start end_ = some (-enospc, idr)) := by
  have hsize : myosIdrBufSize = 32768 := rfl
  have hcast : intOfU32 idr.idrNext = idr.idrNext := intOfU32_of_lt (by omega)
  have hfrom : (if intOfU32 idr.idrNext < start then u32OfInt start else idr.idrNext) =
      cyclicFrom idr start := by
    rw [hcast, cyclicFrom]
    split
    · exact u32OfInt_of_nonneg (by omega) h1
    · rfl
  have hbound : cyclicFrom idr start < 2 ^ 31 := by unfold cyclicFrom; split <;> omega
  -- what a successful inner call turns into
  have hret : ∀ x, x < myosIdrBufSize →
      intOfU32 x = (x : Int) ∧ (x + 1) % 2 ^ 32 = x + 1 := fun x hx =>
    ⟨intOfU32_of_lt (by omega), Nat.mod_eq_of_lt (by omega)⟩
  rcases idrAllocU32_cases idr ptr _ (maxOfEnd end_) hbound with ⟨x, hx, he⟩ | ⟨hn, he⟩
  · refine .inl ⟨x, .inl hx, ?_⟩
    rw [idrAllocCyclic_of_u32 hfrom he (by simp [enospc])]
    obtain ⟨e1, e2⟩ := hret x hx.1.2.1
    rw [if_neg (by simp), e1, e2]
  · by_cases hretry : u32OfInt start < cyclicFrom idr start
    · have hs0 : 0 ≤ start := by
        by_contra hneg
        have : u32OfInt start = (start + 2 ^ 32).toNat := by
          unfold u32OfInt
          omega
        omega
      have hs := u32OfInt_of_nonneg hs0 h1
      rcases idrAllocU32_cases idr ptr (u32OfInt start) (maxOfEnd end_) (by omega) with
        ⟨x, hx, he'⟩ | ⟨hn', he'⟩
      · refine .inl ⟨x, .inr ⟨hn, hs0, hs ▸ hx⟩, ?_⟩
        rw [idrAllocCyclic_of_retry hfrom he hretry he']
        obtain ⟨e1, e2⟩ := hret x hx.1.2.1
        rw [if_neg (by simp), e1, e2]
      · refine .inr ⟨?_, ?_⟩
        · rintro x (hx | ⟨-, -, hx⟩)
          · exact hn x hx
          · exact hn' x (hs ▸ hx)
        · rw [idrAllocCyclic_of_retry hfrom he hretry he']
          simp [enospc]
    · refine .inr ⟨?_, ?_⟩
      · rintro x (hx | ⟨-, hs0, hx⟩)
        · exact hn x hx
        · have hs := u32OfInt_of_nonneg hs0 h1
          -- the search never starts below `start`, so both searches are the same one
          have hge : start.toNat ≤ cyclicFrom idr start := by unfold cyclicFrom; split <;> omega
          have heq : cyclicFrom idr start = start.toNat := by omega
          exact hn x (heq ▸ hx)
      · rw [idrAllocCyclic_of_u32 hfrom he (fun h => hretry h.2)]
        simp [enospc]

/-! ## Runs -/

/-- What every run keeps: an allocated id holds the pointer last stored for it, ids lie inside the
array, and so does the cursor. -/
structure Clients.Inv (s : Clients) : Prop where
  stored : ∀ id p, s.allocated id = some p → s.idr.idrRt id = p
  inside : ∀ id p, s.allocated id = some p → id < myosIdrBufSize
  obtained : ∀ id ∈ s.obtained, id < myosIdrBufSize
  cursor : s.idr.idrNext ≤ myosIdrBufSize

theorem Clients.inv_init : Clients.init.Inv where
  stored id p h := by simp [Clients.init] at h
  inside id p h := by simp [Clients.init] at h
  obtained id h := by simp [Clients.init] at h
  cursor := by simp [Clients.init, idrInit, idrInitBase]

namespace Clients.Inv

variable {s : Clients}

theorem store (h : s.Inv) {next : Nat} (ptr : Nat) (o : Option Nat) (hx : x < myosIdrBufSize)
    (hnext : next ≤ myosIdrBufSize) (ho : ∀ p, o = some p → ptr = p) {ids : List Nat}
    (hids : ∀ id ∈ ids, id < myosIdrBufSize) :
    Clients.Inv
      { idr := { s.idr with idrRt := update s.idr.idrRt x ptr, idrNext := next }
        allocated := update s.allocated x o
        obtained := ids } where
  stored id p hp := by
    by_cases hid : id = x
    · subst hid
      simp only [update_self] at hp ⊢
      exact ho p hp
    · simp only [update_of_ne hid] at hp ⊢
      exact h.stored id p hp
  inside id p hp := by
    by_cases hid : id = x
    · exact hid ▸ hx
    · simp only [update_of_ne hid] at hp
      exact h.inside id p hp
  obtained := hids
  cursor := hnext

theorem alloc (h : s.Inv) {next : Nat} (ptr : Nat) (hx : x < myosIdrBufSize)
    (hnext : next ≤ myosIdrBufSize) :
    (s.allocReturned ptr (x : Int)
      { s.idr with idrRt := update s.idr.idrRt x ptr, idrNext := next }).Inv := by
  refine h.store ptr (some ptr) hx hnext (fun p hp => some.inj hp) fun id hid => ?_
  rcases List.mem_cons.1 hid with rfl | hid
  · exact hx
  · exact h.obtained id hid

end Clients.Inv

/-- What an allocation promises about the id `r` it returns. -/
def Clients.FreshId (s : Clients) : Op → Int → Prop
  | .alloc _ start end_, r | .allocCyclic _ start end_, r =>
    0 ≤ r → s.allocated r.toNat = none ∧ (0 < end_ → start ≤ r ∧ r < end_) ∧ r < myosIdrBufSize
  | .replace _ _, _ | .remove _, _ => True

/-- `idr_find` of an allocated id returns the pointer last stored for it. -/
def Clients.FindsStored (s : Clients) : Prop :=
  ∀ id p, s.allocated id = some p → idrFind s.idr id = some p

/-- The slot `x` may be handed out: no id is allocated there, and it is below `end`. -/
def Clients.MayPick (s : Clients) (end_ : Int) (x : Nat) : Prop :=
  s.allocated x = none ∧ (0 < end_ → (x : Int) < end_)

/-- The lowest slot holding `NULL` that the search of an allocation meets, if there is one, may be
handed out. -/
def Clients.SearchOk (s : Clients) : Op → Prop
  | .alloc _ start end_ => 0 ≤ start → ∀ x, LowestNull s.idr.idrRt start.toNat x → s.MayPick end_ x
  | .allocCyclic _ start end_ => ∀ x, CyclicPick s.idr start x → s.MayPick end_ x
  | .replace _ _ | .remove _ => True

variable {s : Clients}

theorem Clients.Inv.findsStored (h : s.Inv) : s.FindsStored := by
  intro id p hp
  rw [idrFind, if_pos (h.inside id p hp), h.stored id p hp]

theorem CyclicPick.start_le (h : CyclicPick idr start x) : start ≤ x := by
  rcases h with h | ⟨-, h0, h⟩
  · have hle := h.1.1
    unfold cyclicFrom at hle
    split at hle <;> omega
  · have hle := h.1.1
    omega

theorem CyclicPick.unique {y : Nat} (hx : CyclicPick idr start x)
    (hy : CyclicPick idr start y) : x = y := by
  rcases hx with hx | ⟨hnx, -, hx⟩ <;> rcases hy with hy | ⟨hny, -, hy⟩
  · exact hx.unique hy
  · exact absurd hx (hny x)
  · exact absurd hy (hnx y)
  · exact hx.unique hy

namespace Clients

theorem freshId_iff (hstart : start ≤ x)
    (hx : x < myosIdrBufSize) {Pick : Nat → Prop} (hpick : Pick x)
    (huniq : ∀ y, Pick y → y = x) :
    (0 ≤ (x : Int) → s.allocated (x : Int).toNat = none ∧
      (0 < end_ → start ≤ (x : Int) ∧ (x : Int) < end_) ∧ (x : Int) < myosIdrBufSize) ↔
    ∀ y, Pick y → s.MayPick end_ y := by
  constructor
  · intro h y hy
    obtain rfl := huniq y hy
    obtain ⟨h1, h2, -⟩ := h (by omega)
    exact ⟨h1, fun he => (h2 he).2⟩
  · intro h _
    obtain ⟨h1, h2⟩ := h x hpick
    exact ⟨h1, fun he => ⟨hstart, h2 he⟩, by omega⟩

/-- Every permitted call returns, keeps the invariant, and hands out a free id exactly when its
search meets one first. -/
theorem Inv.step (h : s.Inv) {op : Op} (hok : s.Ok op) :
    ∃ r s', s.step op = some (r, s') ∧ s'.Inv ∧ (s.FreshId op r ↔ s.SearchOk op) := by
  cases op with
  | alloc ptr start end_ =>
    obtain ⟨⟨-, hlt⟩, -⟩ := hok
    by_cases hneg : start < 0
    · refine ⟨-einval, s, by simp [Clients.step, idrAlloc, hneg, allocReturned, einval], h, ?_⟩
      simp only [FreshId, SearchOk, einval]
      exact ⟨fun _ h0 => absurd h0 (by omega), fun _ h0 => absurd h0 (by omega)⟩
    · have h0 : 0 ≤ start := by omega
      rcases idrAlloc_cases s.idr ptr end_ h0 hlt with ⟨x, hx, he⟩ | ⟨hn, he⟩
      · refine ⟨x, _, by simp only [Clients.step, he, bind_eq_bind, bind_some],
          h.alloc ptr hx.1.2.1 h.cursor, ?_⟩
        rw [FreshId, SearchOk, imp_iff_right h0]
        exact freshId_iff (by have := hx.1.1; omega) hx.1.2.1 hx fun y hy => hy.unique hx
      · refine ⟨-enospc, s, by simp [Clients.step, he, allocReturned, enospc], h, ?_⟩
        simp only [FreshId, SearchOk, enospc]
        exact ⟨fun _ _ x hx => absurd hx (hn x), fun _ h0 => absurd h0 (by omega)⟩
  | allocCyclic ptr start end_ =>
    obtain ⟨⟨hge, hlt⟩, -⟩ := hok
    rcases idrAllocCyclic_cases s.idr ptr end_ h.cursor hge hlt with ⟨x, hx, he⟩ | ⟨hn, he⟩
    · have hinv := h.alloc ptr hx.lt (Nat.succ_le_of_lt hx.lt)
      refine ⟨x, _, by simp only [Clients.step, he, bind_eq_bind, bind_some], hinv, ?_⟩
      exact freshId_iff hx.start_le hx.lt hx fun y hy => hy.unique hx
    · refine ⟨-enospc, s, by simp [Clients.step, he, allocReturned, enospc], h, ?_⟩
      simp only [FreshId, SearchOk, enospc]
      exact ⟨fun _ x hx => absurd hx (hn x), fun _ h0 => absurd h0 (by omega)⟩
  | replace ptr id =>
    have hid := h.obtained id hok
    have hinv := h.store ptr ((s.allocated id).map fun _ => ptr) hid h.cursor (fun p hp => by
        obtain ⟨q, -, hq⟩ := map_eq_some_iff.1 hp
        exact hq) h.obtained
    exact ⟨(s.idr.idrRt id : Int), _, by simp only [Clients.step, idrReplace, if_pos hid, bind_eq_bind,
      bind_some], hinv, Iff.rfl⟩
  | remove id =>
    have hid := h.obtained id hok
    have hinv := h.store 0 none hid h.cursor (fun p hp => by cases hp) h.obtained
    exact ⟨(s.idr.idrRt id : Int), _, by simp only [Clients.step, idrRemove, if_pos hid, bind_eq_bind,
      bind_some], hinv, Iff.rfl⟩

theorem reachable_inv (h : Reachable Clients.step Clients.Ok (· = init) s) : s.Inv := by
  refine h.invariant_of_returns (fun s hs => hs ▸ inv_init) fun s op hinv hok => ?_
  obtain ⟨r, s', hstep, hinv', -⟩ := hinv.step hok
  exact ⟨r, s', hstep, hinv'⟩

/-- In every run every call returns, `idr_find` finds what was stored, and the call hands out a
fresh id in its range exactly when the first empty slot it meets is one. -/
theorem freshId_iff_searchOk {s : Clients} {op : Op}
    (h : Reachable Clients.step Clients.Ok (· = init) s) (hok : s.Ok op) :
    ∃ r s', s.step op = some (r, s') ∧
      (s.FreshId op r ∧ s.FindsStored ∧ s'.FindsStored ↔ s.SearchOk op) := by
  have hinv := reachable_inv h
  obtain ⟨r, s', hstep, hinv', hiff⟩ := hinv.step hok
  exact ⟨r, s', hstep, by simp [hiff, hinv.findsStored, hinv'.findsStored]⟩

instance (s : Clients) (op : Op) : Decidable (s.Ok op) := by
  cases op <;> (unfold Clients.Ok; infer_instance)

/-- Id 0 was given back, and id 1 is in use. -/
theorem freshId_iff_searchOk_used : ∃ s : Clients, s.allocated 0 = none ∧ s.allocated 1 = some 6 ∧
    ∃ r s', s.step (.alloc 7 0 0) = some (r, s') ∧ s.FreshId (.alloc 7 0 0) r ∧ s'.FindsStored := by
  have hrun : ∃ s, Reachable Clients.step Clients.Ok (· = init) s ∧
      decide ((s.allocated 0 = none ∧ s.allocated 1 = some 6) ∧ s.idr.idrRt 0 = 0) = true :=
    Reachable.exists_of_run rfl [.alloc 5 0 0, .alloc 6 0 0, .remove 0] (by decide +kernel)
  obtain ⟨s, hs, hlast⟩ := hrun
  obtain ⟨⟨hfree, hused⟩, hnull⟩ := of_decide_eq_true hlast
  obtain ⟨r, s', hstep, hiff⟩ := freshId_iff_searchOk hs (show s.Ok (.alloc 7 0 0) by simp [Clients.Ok])
  have hsearch : s.SearchOk (.alloc 7 0 0) := by
    intro _ x hx
    obtain rfl : x = 0 := Nat.eq_zero_of_not_pos fun hpos => hx.2 0 (Nat.zero_le _) hpos hnull
    exact ⟨hfree, fun h => absurd h (by decide)⟩
  obtain ⟨hfresh, -, hfinds⟩ := hiff.mpr hsearch
  exact ⟨s, hfree, hused, r, s', hstep, hfresh, hfinds⟩

/-- An id that was handed out with `NULL` stored for it, as `alloc_pid` does, is handed out again by
the next allocation. -/
theorem null_id_allocated_twice :
    ∃ s s', init.step (.alloc 0 0 0) = some (0, s) ∧
      s.step (.alloc 0 0 0) = some (0, s') ∧ ¬ s.FreshId (.alloc 0 0 0) 0 :=
  ⟨_, _, rfl, rfl, fun h => absurd (h (by decide)).1 (by decide)⟩

end Clients

end MyOS2.Idr
