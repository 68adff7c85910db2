import MyOS2.Mm.Early.FreeAll
import MyOS2.Mm.Early.Proofs.AllocRange

/-!
# What `memblock_free_all` hands over

The cutting loop tiles every free range with aligned blocks. Two things keep
the hand-over from being what it is meant to be: the walk over the reserved
regions visits the entry behind the last one, and a frame that lies across two
memory regions is not part of any free range.
-/

namespace MyOS2.Memblock

open List Nat

/-! ## Tilings by aligned blocks -/

def InBlocks (blocks : List (Nat × Nat)) (f : Nat) : Prop :=
  ∃ b ∈ blocks, b.1 ≤ f ∧ f < b.1 + 2 ^ b.2

/-- Aligned blocks in order whose frames are those of `P`. -/
structure Tiling (P : Nat → Prop) (blocks : List (Nat × Nat)) : Prop where
  aligned : ∀ b ∈ blocks, b.2 ≤ maxOrder ∧ 2 ^ b.2 ∣ b.1
  sorted : blocks.Pairwise fun p q => p.1 + 2 ^ p.2 ≤ q.1
  covers : ∀ f, InBlocks blocks f ↔ P f

namespace Tiling

variable {P Q : Nat → Prop} {blocks blocks' : List (Nat × Nat)}

theorem nil (h : ∀ f, ¬ P f) : Tiling P [] := by
  refine ⟨by simp, by simp, ?_⟩
  intro f
  simp [InBlocks, h f]

theorem congr (h : Tiling P blocks) (hPQ : ∀ f, P f ↔ Q f) : Tiling Q blocks :=
  ⟨h.aligned, h.sorted, fun f => (h.covers f).trans (hPQ f)⟩

theorem append (h : Tiling P blocks) (h' : Tiling Q blocks') (hlt : ∀ f g, P f → Q g → f < g) :
    Tiling (fun f => P f ∨ Q f) (blocks ++ blocks') := by
  refine ⟨?_, ?_, ?_⟩
  · exact forall_mem_append.2 ⟨h.aligned, h'.aligned⟩
  · rw [pairwise_append]
    refine ⟨h.sorted, h'.sorted, ?_⟩
    intro b hb b' hb'
    have hpos := Nat.two_pow_pos b.2
    have hpos' := Nat.two_pow_pos b'.2
    have hlast : P (b.1 + 2 ^ b.2 - 1) := (h.covers _).1 ⟨b, hb, by omega, by omega⟩
    have hfirst : Q b'.1 := (h'.covers _).1 ⟨b', hb', by omega, by omega⟩
    have := hlt _ _ hlast hfirst
    omega
  · intro f
    rw [← h.covers f, ← h'.covers f]
    simp only [InBlocks, mem_append, or_and_right, exists_or]

theorem singleton {pfn order : Nat} (horder : order ≤ maxOrder) (hdvd : 2 ^ order ∣ pfn) :
    Tiling (fun f => pfn ≤ f ∧ f < pfn + 2 ^ order) [(pfn, order)] := by
  refine ⟨by simpa using ⟨horder, hdvd⟩, by simp, ?_⟩
  intro f
  simp [InBlocks]

end Tiling

/-! ## The cutting loop -/

theorem two_pow_lowestBit_dvd (n word : Nat) : 2 ^ lowestBit n word ∣ word := by
  induction n generalizing word with
  | zero => simp [lowestBit]
  | succ n ih =>
    rw [lowestBit]
    split
    · simp
    · next heven =>
      have hhalf : word = word / 2 * 2 := by omega
      nth_rewrite 2 [hhalf]
      exact mul_dvd_mul_right (ih (word / 2)) 2

theorem lowerOrder_spec {startPfn endPfn : Nat} (hlt : startPfn < endPfn) (order : Nat) :
    ∃ o, lowerOrder startPfn endPfn order = some o ∧ o ≤ order ∧ startPfn + 2 ^ o ≤ endPfn := by
  induction order with
  | zero =>
    refine ⟨0, ?_, le_rfl, ?_⟩
    · rw [lowerOrder, if_neg (by omega)]
    · exact hlt
  | succ order ih =>
    rw [lowerOrder]
    split
    · obtain ⟨o, ho, hle, hfit⟩ := ih
      exact ⟨o, ho, by omega, hfit⟩
    · next hfit => exact ⟨order + 1, rfl, le_rfl, by omega⟩

def Handover.releaseAll (s : Handover) (blocks : List (Nat × Nat)) : Handover :=
  blocks.foldl (fun s b => memblockFreePages s b.1 b.2) s

theorem Handover.releaseAll_append (s : Handover) (blocks blocks' : List (Nat × Nat)) :
    s.releaseAll (blocks ++ blocks') = (s.releaseAll blocks).releaseAll blocks' :=
  foldl_append

theorem Handover.released_releaseAll (s : Handover) (blocks : List (Nat × Nat)) :
    (s.releaseAll blocks).released = s.released ++ blocks := by
  induction blocks generalizing s with
  | nil => simp [releaseAll]
  | cons b blocks ih =>
    have := ih (memblockFreePages s b.1 b.2)
    simpa [releaseAll, memblockFreePages] using this

theorem Handover.reserved_releaseAll (s : Handover) (blocks : List (Nat × Nat)) (f : Nat) :
    (s.releaseAll blocks).reserved f = true ↔ s.reserved f = true ∧ ¬ InBlocks blocks f := by
  induction blocks generalizing s with
  | nil => simp [releaseAll, InBlocks]
  | cons b blocks ih =>
    have := ih (memblockFreePages s b.1 b.2)
    simp only [releaseAll, foldl_cons] at this ⊢
    rw [this]
    simp only [memblockFreePages, InBlocks, mem_cons, exists_eq_or_imp]
    by_cases hin : b.1 ≤ f ∧ f < b.1 + 2 ^ b.2
    · simp [hin]
    · simp [hin]

theorem cutRange_spec {fuel startPfn endPfn : Nat} (hstart : 0 < startPfn)
    (hle : startPfn ≤ endPfn) (hfuel : endPfn - startPfn ≤ fuel) (s : Handover) :
    ∃ blocks, cutRange fuel startPfn endPfn s = some (s.releaseAll blocks) ∧
      Tiling (fun f => startPfn ≤ f ∧ f < endPfn) blocks := by
  induction fuel generalizing startPfn s with
  | zero =>
    refine ⟨[], ?_, .nil (by omega)⟩
    rw [cutRange, if_neg (by omega)]
    rfl
  | succ fuel ih =>
    rw [cutRange]
    by_cases hlt : startPfn < endPfn
    · rw [if_pos hlt]
      obtain ⟨order, horder, hlow, hfit⟩ :=
        lowerOrder_spec hlt (min maxOrder (lowestBit 64 startPfn))
      have hffs : ffs startPfn = some (lowestBit 64 startPfn) := if_neg hstart.ne'
      have hpos := Nat.two_pow_pos order
      have hnext : 0 < startPfn + 2 ^ order := by omega
      obtain ⟨blocks, hcut, htile⟩ := ih hnext hfit (by omega) (memblockFreePages s startPfn order)
      have hdvd : 2 ^ order ∣ startPfn :=
        (pow_dvd_pow 2 (hlow.trans (min_le_right _ _))).trans (two_pow_lowestBit_dvd _ _)
      refine ⟨(startPfn, order) :: blocks, ?_, ?_⟩
      · simp only [hffs, horder, Option.bind_eq_bind, Option.bind_some, hcut]
        rfl
      · have hfirst := Tiling.singleton (hlow.trans (min_le_left _ _)) hdvd
        refine (hfirst.append htile ?_).congr ?_
        · intro f g hf hg
          omega
        · intro f
          omega
    · refine ⟨[], ?_, .nil (by omega)⟩
      rw [if_neg hlt]
      rfl

/-! ## The marking loop -/

/-- The frames `reserve_bootmem_region` passes for an entry of the array. -/
def MmblkRgn.Marks (r : MmblkRgn) (f : Nat) : Prop := pfnDown r.base ≤ f ∧ f < pfnUp r.end_

theorem reserveLoop_spec (maxPfn n pfn : Nat) (reserved : Nat → Bool) (f : Nat) :
    reserveLoop maxPfn n pfn reserved f = true ↔
      reserved f = true ∨ (f < maxPfn ∧ pfn ≤ f ∧ f < pfn + n) := by
  induction n generalizing pfn reserved with
  | zero =>
    rw [reserveLoop]
    simp
  | succ n ih =>
    rw [reserveLoop, ih]
    by_cases hvalid : pfn < maxPfn
    · rw [if_pos hvalid]
      by_cases hf : f = pfn
      · subst hf
        simp [hvalid]
      · rw [Function.update_of_ne hf]
        have : pfn + 1 ≤ f ∧ f < pfn + 1 + n ↔ pfn ≤ f ∧ f < pfn + (n + 1) := by omega
        rw [this]
    · rw [if_neg hvalid]
      have : f < maxPfn ∧ pfn + 1 ≤ f ∧ f < pfn + 1 + n ↔
          f < maxPfn ∧ pfn ≤ f ∧ f < pfn + (n + 1) := by omega
      rw [this]

theorem reserveBootmemRegion_spec (maxPfn : Nat) (r : MmblkRgn) (reserved : Nat → Bool) (f : Nat) :
    reserveBootmemRegion maxPfn r.base r.end_ reserved f = true ↔
      reserved f = true ∨ (f < maxPfn ∧ r.Marks f) := by
  rw [reserveBootmemRegion, reserveLoop_spec, MmblkRgn.Marks]
  have : ∀ a b : Nat, a ≤ f ∧ f < a + (b - a) ↔ a ≤ f ∧ f < b := by omega
  rw [this]

theorem memmapInitLoop_spec (maxPfn : Nat) {n i : Nat} {t : MmblkType} (hn : i + n ≤ t.max)
    (reserved : Nat → Bool) :
    ∃ reserved', memmapInitLoop maxPfn t n i reserved = some reserved' ∧
      ∀ f, reserved' f = true ↔ reserved f = true ∨
        (f < maxPfn ∧ ∃ j e, (i ≤ j ∧ j < i + n) ∧ t.entry j = some e ∧ e.Marks f) := by
  induction n generalizing i reserved with
  | zero =>
    refine ⟨reserved, rfl, ?_⟩
    intro f
    constructor
    · exact .inl
    · rintro (h | ⟨-, j, e, hj, -⟩)
      · exact h
      · omega
  | succ n ih =>
    have hlen : i < (t.regions ++ t.stale).length := by
      rw [length_append]
      unfold MmblkType.max at hn
      omega
    have hentry : t.entry i = some (t.regions ++ t.stale)[i] := getElem?_eq_getElem hlen
    generalize (t.regions ++ t.stale)[i] = e at hentry
    obtain ⟨reserved', hloop, hmark⟩ :=
      ih (i := i + 1) (by omega) (reserveBootmemRegion maxPfn e.base e.end_ reserved)
    refine ⟨reserved', ?_, ?_⟩
    · rw [memmapInitLoop]
      simp [hentry, hloop]
    · intro f
      rw [hmark f, reserveBootmemRegion_spec, or_assoc, ← and_or_left]
      refine or_congr_right (and_congr_right fun _ => ?_)
      constructor
      · rintro (h | ⟨j, e', hj, he'⟩)
        · exact ⟨i, e, by omega, hentry, h⟩
        · exact ⟨j, e', by omega, he'⟩
      · rintro ⟨j, e', hj, he', hm⟩
        rcases eq_or_lt_of_le hj.1 with rfl | hlt
        · left
          rw [hentry] at he'
          cases he'
          exact hm
        · exact .inr ⟨j, e', by omega, he', hm⟩

theorem memmapInitLoop_eq_none {maxPfn n i : Nat} {t : MmblkType} (hi : i ≤ t.max)
    (hn : t.max < i + n) (reserved : Nat → Bool) :
    memmapInitLoop maxPfn t n i reserved = none := by
  induction n generalizing i reserved with
  | zero => omega
  | succ n ih =>
    rw [memmapInitLoop]
    cases hentry : t.entry i with
    | none => rfl
    | some e =>
      have hlt := (List.getElem?_eq_some_iff.1 hentry).1
      rw [List.length_append] at hlt
      exact ih hlt (by omega) _

/-! ## The hand-over -/

/-- The region and the frame share an address. -/
def MmblkRgn.Touches (r : MmblkRgn) (f : Nat) : Prop :=
  r.base < (f + 1) * pageSize ∧ f * pageSize < r.base + r.size

/-- Every address of the frame lies in a memory region that is not skipped. -/
def MemblockS.InMemory (mb : MemblockS) (f : Nat) : Prop :=
  ∀ a, f * pageSize ≤ a → a < (f + 1) * pageSize → ∃ m ∈ mb.memory.regions,
    shouldSkipRegion true m memblockNone = false ∧ m.base ≤ a ∧ a < m.base + m.size

/-- What `memblock_free_all` is meant to do. -/
structure HandedOver (maxPfn maxLowPfn : Nat) (mb : MemblockS) (s : Handover) : Prop where
  aligned : ∀ b ∈ s.released, b.2 ≤ maxOrder ∧ 2 ^ b.2 ∣ b.1
  disjoint : s.released.Pairwise fun p q => p.1 + 2 ^ p.2 ≤ q.1 ∨ q.1 + 2 ^ q.2 ≤ p.1
  union : ∀ f, InBlocks s.released f ↔
    f < maxLowPfn ∧ mb.InMemory f ∧ ∀ r ∈ mb.reserved.regions, ¬ r.Touches f
  reserved : ∀ f, s.reserved f = true ↔ f < maxPfn ∧ ∃ r ∈ mb.reserved.regions, r.Touches f

/-- The arrays are well formed, their regions end below the last page of the address space, and
frame `0` is not free. -/
structure MemblockS.Ready (mb : MemblockS) : Prop where
  memory : WellFormed mb.memory
  reserved : WellFormed mb.reserved
  bound : ∀ r ∈ mb.memory.regions ++ mb.reserved.regions, r.base + r.size ≤ 2 ^ 64 - pageSize
  frameZero : ¬ FreeBlock mb memblockNone 0 pageSize

/-- There is an entry behind the last reserved region, and every frame it marks is touched by a
reserved region or free. -/
def StaleHarmless (maxPfn maxLowPfn : Nat) (mb : MemblockS) : Prop :=
  ∃ e, mb.reserved.entry mb.reserved.cnt = some e ∧ ∀ f, f < maxPfn → e.Marks f →
    (∃ r ∈ mb.reserved.regions, r.Touches f) ∨
      (f < maxLowPfn ∧ FreeBlock mb memblockNone (f * pageSize) pageSize)

/-- No frame that should be released lies across two memory regions. -/
def NoneAcross (maxLowPfn : Nat) (mb : MemblockS) : Prop :=
  ∀ f, f < maxLowPfn → mb.InMemory f → (∀ r ∈ mb.reserved.regions, ¬ r.Touches f) →
    ∃ m ∈ mb.memory.regions, shouldSkipRegion true m memblockNone = false ∧
      m.base ≤ f * pageSize ∧ (f + 1) * pageSize ≤ m.base + m.size

theorem pfnDown_le_iff (a f : Nat) : pfnDown a ≤ f ↔ a < (f + 1) * pageSize := by
  unfold pfnDown pageSize pageShift
  omega

theorem lt_pfnDown_iff (a f : Nat) : f < pfnDown a ↔ (f + 1) * pageSize ≤ a := by
  unfold pfnDown pageSize pageShift
  omega

theorem lt_pfnUp_iff {a : Nat} (ha : a ≤ 2 ^ 64 - pageSize) (f : Nat) :
    f < pfnUp a ↔ f * pageSize < a := by
  unfold pfnUp pageSize pageShift at *
  rw [u64_of_lt (by omega)]
  omega

namespace MemblockS.Ready

variable {mb : MemblockS} (h : mb.Ready)

include h

theorem ordered : mb.Ordered := ⟨h.memory.inOrder, h.reserved.inOrder, h.memory.max, h.reserved.max⟩

theorem marks_iff {r : MmblkRgn} (hr : r ∈ mb.reserved.regions) (f : Nat) :
    r.Marks f ↔ r.Touches f := by
  have hbound := h.bound r (mem_append_right _ hr)
  rw [MmblkRgn.Marks, MmblkRgn.Touches, pfnDown_le_iff,
    MmblkRgn.end_of_le (h.reserved.inOrder.bounded r hr), lt_pfnUp_iff hbound]

/-- The walk over the reserved array marks the current regions and the entry behind them. -/
theorem memmapInit_spec (maxPfn : Nat) {e : MmblkRgn}
    (he : mb.reserved.entry mb.reserved.cnt = some e) :
    ∃ reserved, memmapInitReservedPages maxPfn mb.reserved (fun _ => false) = some reserved ∧
      ∀ f, reserved f = true ↔
        f < maxPfn ∧ ((∃ r ∈ mb.reserved.regions, r.Touches f) ∨ e.Marks f) := by
  have hlt := (List.getElem?_eq_some_iff.1 he).1
  rw [List.length_append] at hlt
  obtain ⟨reserved, hinit, hmark⟩ := memmapInitLoop_spec maxPfn (i := 0)
    (n := mb.reserved.cnt + 1) (t := mb.reserved) (by unfold MmblkType.max; omega) fun _ => false
  refine ⟨reserved, hinit, ?_⟩
  intro f
  rw [hmark f]
  simp only [Bool.false_eq_true, false_or]
  refine and_congr_right fun _ => ?_
  constructor
  · rintro ⟨j, e', hj, he', hm⟩
    rcases eq_or_lt_of_le (le_of_lt_succ (by omega : j < mb.reserved.cnt + 1)) with rfl | hj'
    · right
      rw [he] at he'
      cases he'
      exact hm
    · left
      unfold MmblkType.entry at he'
      rw [getElem?_append_left hj'] at he'
      have hmem := mem_of_getElem? he'
      exact ⟨e', hmem, (h.marks_iff hmem f).1 hm⟩
  · rintro (⟨r, hr, ht⟩ | hm)
    · obtain ⟨j, hj⟩ := getElem?_of_mem hr
      have hjlt := (List.getElem?_eq_some_iff.1 hj).1
      refine ⟨j, r, ⟨zero_le _, ?_⟩, ?_, (h.marks_iff hr f).2 ht⟩
      · unfold MmblkType.cnt
        omega
      · unfold MmblkType.entry
        rw [getElem?_append_left hjlt]
        exact hj
    · exact ⟨mb.reserved.cnt, e, by omega, he, hm⟩

theorem freeRange_spec {range : Nat × Nat} (hr : range ∈ freeMemRanges mb memblockNone)
    (maxLowPfn : Nat) (s : Handover) :
    ∃ blocks, freeRange maxLowPfn s range = some (s.releaseAll blocks) ∧
      Tiling (fun f => f < maxLowPfn ∧ range.1 ≤ f * pageSize ∧ (f + 1) * pageSize ≤ range.2)
        blocks := by
  obtain ⟨⟨m, hm, htaken, hlo, hhi⟩, hclear⟩ := freeMemRanges_sound h.ordered hr
  have hbound := h.bound m (mem_append_left _ hm)
  have hle := freeMemRanges_start_le h.ordered hr
  have hstart : range.1 ≤ 2 ^ 64 - pageSize := by omega
  have hframes : ∀ f, (pfnUp range.1 ≤ f ∧ f < min (pfnDown range.2) maxLowPfn) ↔
      f < maxLowPfn ∧ range.1 ≤ f * pageSize ∧ (f + 1) * pageSize ≤ range.2 := by
    intro f
    rw [← not_lt, lt_pfnUp_iff hstart, lt_min_iff, lt_pfnDown_iff, not_lt]
    tauto
  rw [freeRange]
  by_cases hempty : min (pfnDown range.2) maxLowPfn ≤ pfnUp range.1
  · refine ⟨[], ?_, .nil ?_⟩
    · simp only [hempty, if_true]
      rfl
    · intro f hf
      have := (hframes f).2 hf
      omega
  · have hpos : 0 < pfnUp range.1 := by
      by_contra hzero
      obtain ⟨-, h1, h2⟩ := (hframes 0).1 (by omega)
      apply h.frameZero
      refine ⟨⟨m, hm, htaken, by omega, by omega⟩, ?_⟩
      intro r hr
      have := hclear r hr
      omega
    obtain ⟨blocks, hcut, htile⟩ := cutRange_spec hpos (Nat.le_of_not_le hempty) le_rfl s
    refine ⟨blocks, ?_, htile.congr hframes⟩
    simp only [hempty, if_false, hcut]

theorem freeRanges_spec (maxLowPfn : Nat) {ranges : List (Nat × Nat)}
    (hsub : ∀ range ∈ ranges, range ∈ freeMemRanges mb memblockNone)
    (hsorted : ranges.Pairwise fun p q => p.2 ≤ q.1) (s : Handover) :
    ∃ blocks, ranges.foldlM (freeRange maxLowPfn) s = some (s.releaseAll blocks) ∧
      Tiling (fun f => ∃ range ∈ ranges,
        f < maxLowPfn ∧ range.1 ≤ f * pageSize ∧ (f + 1) * pageSize ≤ range.2) blocks := by
  induction ranges generalizing s with
  | nil => exact ⟨[], rfl, .nil (by simp)⟩
  | cons range ranges ih =>
    rw [forall_mem_cons] at hsub
    rw [pairwise_cons] at hsorted
    obtain ⟨blocks, hfree, htile⟩ := h.freeRange_spec hsub.1 maxLowPfn s
    obtain ⟨blocks', hrest, htile'⟩ := ih hsub.2 hsorted.2 (s.releaseAll blocks)
    refine ⟨blocks ++ blocks', ?_, (htile.append htile' ?_).congr ?_⟩
    · rw [foldlM_cons, hfree, Handover.releaseAll_append]
      exact hrest
    · rintro f g ⟨-, -, hf⟩ ⟨range', hr', -, hg, -⟩
      have hle := hsorted.1 range' hr'
      have hlt : (f + 1) * pageSize ≤ g * pageSize := by omega
      exact le_of_mul_le_mul_right hlt (by decide)
    · intro f
      simp

theorem exists_range_iff {maxLowPfn f : Nat} :
    (∃ range ∈ freeMemRanges mb memblockNone,
      f < maxLowPfn ∧ range.1 ≤ f * pageSize ∧ (f + 1) * pageSize ≤ range.2) ↔
    f < maxLowPfn ∧ FreeBlock mb memblockNone (f * pageSize) pageSize := by
  have hsucc : (f + 1) * pageSize = f * pageSize + pageSize := succ_mul f pageSize
  rw [hsucc]
  constructor
  · rintro ⟨range, hr, hlow, h1, h2⟩
    obtain ⟨⟨m, hm, htaken, hlo, hhi⟩, hclear⟩ := freeMemRanges_sound h.ordered hr
    refine ⟨hlow, ⟨m, hm, htaken, by omega, by omega⟩, ?_⟩
    intro r hr
    have := hclear r hr
    omega
  · rintro ⟨hlow, ⟨m, hm, htaken, hlo, hhi⟩, hclear⟩
    obtain ⟨range, hr, h1, h2⟩ := freeMemRanges_complete h.ordered hm htaken
      (Nat.lt_add_of_pos_right (by decide)) hlo hhi hclear
    exact ⟨range, hr, hlow, h1, h2⟩

theorem memblockFreeAll_spec {e : MmblkRgn} (he : mb.reserved.entry mb.reserved.cnt = some e)
    (maxPfn maxLowPfn : Nat) :
    ∃ s, memblockFreeAll maxPfn maxLowPfn mb = some s ∧
      Tiling (fun f => f < maxLowPfn ∧ FreeBlock mb memblockNone (f * pageSize) pageSize)
        s.released ∧
      ∀ f, s.reserved f = true ↔
        (f < maxPfn ∧ ((∃ r ∈ mb.reserved.regions, r.Touches f) ∨ e.Marks f)) ∧
        ¬ (f < maxLowPfn ∧ FreeBlock mb memblockNone (f * pageSize) pageSize) := by
  obtain ⟨reserved, hinit, hmark⟩ := h.memmapInit_spec maxPfn he
  obtain ⟨blocks, hfree, htile⟩ := h.freeRanges_spec maxLowPfn (fun _ hr => hr)
    (freeMemRanges_walked h.ordered memblockNone).sorted ⟨reserved, []⟩
  have htile' := htile.congr fun f => h.exists_range_iff
  refine ⟨Handover.releaseAll ⟨reserved, []⟩ blocks, ?_, ?_, ?_⟩
  · rw [memblockFreeAll, hinit]
    exact hfree
  · rw [Handover.released_releaseAll]
    exact htile'
  · intro f
    rw [Handover.reserved_releaseAll, hmark f, htile'.covers f]

end MemblockS.Ready

variable {mb : MemblockS}

theorem FreeBlock.not_touches {flags f : Nat}
    (h : FreeBlock mb flags (f * pageSize) pageSize) : ∀ r ∈ mb.reserved.regions, ¬ r.Touches f := by
  rintro r hr ⟨h1, h2⟩
  have := h.2 r hr
  rw [succ_mul] at h1
  omega

theorem FreeBlock.inMemory {f : Nat}
    (h : FreeBlock mb memblockNone (f * pageSize) pageSize) : mb.InMemory f := by
  obtain ⟨⟨m, hm, htaken, hlo, hhi⟩, -⟩ := h
  intro a h1 h2
  rw [succ_mul] at h2
  exact ⟨m, hm, htaken, by omega, by omega⟩

/-- No frame that should be released is missed exactly when none lies across two regions. -/
theorem noneAcross_iff {maxLowPfn : Nat} : NoneAcross maxLowPfn mb ↔
      ∀ f, (f < maxLowPfn ∧ FreeBlock mb memblockNone (f * pageSize) pageSize) ↔
        f < maxLowPfn ∧ mb.InMemory f ∧ ∀ r ∈ mb.reserved.regions, ¬ r.Touches f := by
  constructor
  · intro hnone f
    constructor
    · rintro ⟨hlow, hfree⟩
      exact ⟨hlow, hfree.inMemory, hfree.not_touches⟩
    · rintro ⟨hlow, hmem, hclear⟩
      obtain ⟨m, hm, htaken, hlo, hhi⟩ := hnone f hlow hmem hclear
      rw [succ_mul] at hhi
      refine ⟨hlow, ⟨m, hm, htaken, hlo, hhi⟩, ?_⟩
      intro r hr
      by_contra hover
      apply hclear r hr
      rw [MmblkRgn.Touches, succ_mul]
      omega
  · intro hiff f hlow hmem hclear
    obtain ⟨-, ⟨m, hm, htaken, hlo, hhi⟩, -⟩ := (hiff f).2 ⟨hlow, hmem, hclear⟩
    rw [succ_mul]
    exact ⟨m, hm, htaken, hlo, hhi⟩

/-- The hand-over is as meant exactly when the entry behind the last reserved region does no harm
and no frame lies across two memory regions. -/
theorem handedOver_iff {mb : MemblockS} (h : mb.Ready) (maxPfn maxLowPfn : Nat) :
    (∃ s, memblockFreeAll maxPfn maxLowPfn mb = some s ∧ HandedOver maxPfn maxLowPfn mb s) ↔
      StaleHarmless maxPfn maxLowPfn mb ∧ NoneAcross maxLowPfn mb := by
  cases he : mb.reserved.entry mb.reserved.cnt with
  | none =>
    have hmax : mb.reserved.max ≤ mb.reserved.cnt := by
      have := getElem?_eq_none_iff.1 he
      rwa [length_append] at this
    have hnone : memblockFreeAll maxPfn maxLowPfn mb = none := by
      rw [memblockFreeAll, memmapInitReservedPages, memmapInitLoop_eq_none (zero_le _) (by omega)]
      rfl
    constructor
    · rintro ⟨s, hs, -⟩
      rw [hnone] at hs
      cases hs
    · rintro ⟨⟨e, he', -⟩, -⟩
      rw [he] at he'
      cases he'
  | some e =>
    obtain ⟨s, hs, htile, hmark⟩ := h.memblockFreeAll_spec he maxPfn maxLowPfn
    rw [noneAcross_iff]
    constructor
    · rintro ⟨s', hs', hhand⟩
      obtain rfl := Option.some.inj (hs.symm.trans hs')
      refine ⟨⟨e, he, ?_⟩, fun f => (htile.covers f).symm.trans (hhand.union f)⟩
      intro f hf hm
      by_contra hbad
      rw [not_or] at hbad
      have := (hhand.reserved f).1 ((hmark f).2 ⟨⟨hf, .inr hm⟩, hbad.2⟩)
      exact hbad.1 this.2
    · rintro ⟨⟨e', he', hharmless⟩, hiff⟩
      obtain rfl := Option.some.inj (he.symm.trans he')
      refine ⟨s, hs, htile.aligned, htile.sorted.imp .inl,
        fun f => (htile.covers f).trans (hiff f), ?_⟩
      intro f
      rw [hmark f]
      constructor
      · rintro ⟨⟨hf, hr | hm⟩, hfree⟩
        · exact ⟨hf, hr⟩
        · exact ⟨hf, (hharmless f hf hm).resolve_right hfree⟩
      · rintro ⟨hf, r, hr, ht⟩
        exact ⟨⟨hf, .inl ⟨r, hr, ht⟩⟩, fun hfree => hfree.2.not_touches r hr ht⟩

/-- Memory with a hole at the frames 7 and 8, four reserved regions and the entry `stale` behind
them. -/
def holed (stale : MmblkRgn) : MemblockS :=
  { memory := ⟨[⟨0x1000, 0x6000, 0⟩, ⟨0x9000, 0x7000, 0⟩], [⟨0, 0, 0⟩], 0xd000⟩
    reserved := ⟨[⟨0x2000, 0x1000, 0⟩, ⟨0x3000, 0x2000, 0⟩, ⟨0x9000, 0x3000, 0⟩, ⟨0xd000, 0x2000, 0⟩],
      stale :: replicate 3 ⟨0, 0, 0⟩, 0x8000⟩
    currentLimit := physAddrMax }

theorem holed_ready (stale : MmblkRgn) : (holed stale).Ready := by
  refine ⟨⟨⟨?_, ?_⟩, ?_, ?_, ?_⟩, ⟨⟨?_, ?_⟩, ?_, ?_, ?_⟩, ?_, ?_⟩ <;>
    simp [holed, physAddrMax, pageSize, pageShift, MmblkType.max, FreeBlock]

/-- Memory with a hole, and an empty entry behind the reserved regions. -/
theorem handedOver_iff_holed : ∃ s, memblockFreeAll 16 16 (holed ⟨0, 0, 0⟩) = some s ∧
    HandedOver 16 16 (holed ⟨0, 0, 0⟩) s := by
  refine (handedOver_iff (holed_ready _) 16 16).mpr ⟨⟨⟨0, 0, 0⟩, rfl, fun f _ hmarks => ?_⟩, ?_⟩
  · have hup : pfnUp (MmblkRgn.end_ ⟨0, 0, 0⟩) = 0 := by decide +kernel
    exact absurd (hup ▸ hmarks.2) (Nat.not_lt_zero f)
  · -- the regions of the memory begin and end with a frame
    intro f _ hin _
    obtain ⟨m, hm, hskip, hlo, hhi⟩ := hin (f * pageSize) (le_refl _) (by simp [pageSize, pageShift])
    refine ⟨m, hm, hskip, hlo, ?_⟩
    simp only [holed, mem_cons, not_mem_nil, or_false] at hm
    rcases hm with rfl | rfl <;> simp only [pageSize, pageShift] at * <;> omega

/-- Six calls of `simple_mmblk_reserve` leave an old region behind the last one, and the frames of
the hole that it holds are marked. -/
theorem leftover_marks_hole :
    ([(7, 5), (9, 3), (1, 3), (3, 2), (13, 2), (2, 3)].foldlM (fun mb r =>
      simpleMmblkReserve mb (r.1 * pageSize) (r.2 * pageSize))
      { holed ⟨0, 0, 0⟩ with reserved := .empty 8 }) = some (holed ⟨0x7000, 0x5000, 0⟩) ∧
    (holed ⟨0x7000, 0x5000, 0⟩).Ready ∧
    ∃ s, memblockFreeAll 16 16 (holed ⟨0x7000, 0x5000, 0⟩) = some s ∧
      ¬ HandedOver 16 16 (holed ⟨0x7000, 0x5000, 0⟩) s := by
  refine ⟨by decide +kernel, holed_ready _, ?_⟩
  have hmarked : (memblockFreeAll 16 16 (holed ⟨0x7000, 0x5000, 0⟩)).map
      (fun s => s.reserved 7) = some true := by decide +kernel
  obtain ⟨s, hs, hres⟩ := Option.map_eq_some_iff.1 hmarked
  refine ⟨s, hs, fun hhand => ?_⟩
  obtain ⟨-, r, hr, htouch⟩ := (hhand.reserved 7).1 hres
  simp [holed] at hr
  rcases hr with rfl | rfl | rfl | rfl <;> simp [MmblkRgn.Touches, pageSize, pageShift] at htouch

end MyOS2.Memblock
