import MyOS2.Mm.Early.Proofs.NextMemRange

/-!
# Boot allocations

`memblock_alloc_range` takes the first free range that holds an aligned block of
the wanted size inside the window, and reserves the block. The block lies in a
gap of the reserved array, so reserving it is the simple case of
`simple_mmblk_add_range`: one insertion between the regions around it.
-/

namespace MyOS2.Memblock

open Option List

/-! ## The candidate of one free range -/

section candidate

variable {start end_ size k c : Nat} {range : Nat × Nat}

theorem candidate_eq_some_iff {align : Nat} :
    candidate start end_ size align range = some c ↔
      roundUp (clamp range.1 start end_) align = c ∧ c < clamp range.2 start end_ ∧
        size ≤ clamp range.2 start end_ - c := by
  rw [candidate]
  constructor
  · intro h
    split at h
    · next hfit =>
      cases h
      exact ⟨rfl, hfit⟩
    · cases h
  · rintro ⟨rfl, hfit⟩
    rw [if_pos hfit]

section

variable (hk : k < 64) (hstart : 0 < start)
include hk hstart

/-- A candidate other than `0` is aligned, and the block behind it fits into the range and into the
window. -/
theorem candidate_sound (hle : start ≤ end_)
    (hend : end_ < 2 ^ 64) (h : candidate start end_ size (2 ^ k) range = some c) (hc : c ≠ 0) :
    2 ^ k ∣ c ∧ (start ≤ c ∧ c + size ≤ end_) ∧ (range.1 ≤ c ∧ c + size ≤ range.2) := by
  obtain ⟨rfl, hlt, hfit⟩ := candidate_eq_some_iff.1 h
  unfold clamp at *
  rcases roundUp_cases (x := min (max range.1 start) end_) (by omega) (by omega) hk with
    ⟨h1, h2, -⟩ | ⟨h0, -⟩
  · refine ⟨h2, ?_, ?_⟩ <;> omega
  · exact absurd h0 hc

theorem candidate_complete (hend : end_ < 2 ^ 64)
    (hsize : 0 < size) (hdvd : 2 ^ k ∣ c) (hc : start ≤ c) (hc' : c + size ≤ end_)
    (hr : range.1 ≤ c) (hr' : c + size ≤ range.2) :
    ∃ v, candidate start end_ size (2 ^ k) range = some v ∧ v ≠ 0 := by
  have hthis : clamp range.1 start end_ ≤ c := by unfold clamp; omega
  have hpos : 0 < clamp range.1 start end_ := by unfold clamp; omega
  rcases roundUp_cases hpos (by omega) hk with ⟨h1, -, h3⟩ | ⟨-, hnone⟩
  · have hle := h3 c hthis hdvd
    refine ⟨roundUp (clamp range.1 start end_) (2 ^ k),
      candidate_eq_some_iff.2 ⟨rfl, ?_, ?_⟩, by omega⟩ <;> unfold clamp at * <;> omega
  · have := hnone c hthis hdvd
    omega

/-- A candidate of `0` comes from rounding up past the last word: no aligned address is left at or
above the range. -/
theorem candidate_zero (hle : start ≤ end_)
    (hend : end_ < 2 ^ 64) (h : candidate start end_ size (2 ^ k) range = some 0) (hdvd : 2 ^ k ∣ c)
    (hc : start ≤ c) (hr : range.1 ≤ c) : 2 ^ 64 ≤ c := by
  have h0 := (candidate_eq_some_iff.1 h).1
  have hpos : 0 < clamp range.1 start end_ := by unfold clamp; omega
  have hlt : clamp range.1 start end_ < 2 ^ 64 := by unfold clamp; omega
  rcases roundUp_cases hpos hlt hk with ⟨h1, -, -⟩ | ⟨-, hnone⟩
  · omega
  · exact hnone c (by unfold clamp; omega) hdvd

end

end candidate

/-! ## Finding a block -/

section find

variable {mb : MemblockS} {start end_ size k flags : Nat}

/-- `[c, c + size)` is free for the taking: inside a memory region that is not skipped, and outside
every reserved region. -/
def FreeBlock (mb : MemblockS) (flags c size : Nat) : Prop :=
  (∃ m ∈ mb.memory.regions, shouldSkipRegion true m flags = false ∧
    m.base ≤ c ∧ c + size ≤ m.base + m.size) ∧
  ∀ r ∈ mb.reserved.regions, r.base + r.size ≤ c ∨ c + size ≤ r.base

theorem memblockFindRangeBottomUp_sound (h : mb.Ordered) (hk : k < 64) (hstart : 0 < start)
    (hle : start ≤ end_) (hend : end_ < 2 ^ 64)
    (hfound : memblockFindRangeBottomUp mb start end_ size (2 ^ k) flags ≠ 0) :
    let found := memblockFindRangeBottomUp mb start end_ size (2 ^ k) flags
    2 ^ k ∣ found ∧ (start ≤ found ∧ found + size ≤ end_) ∧ FreeBlock mb flags found size := by
  unfold memblockFindRangeBottomUp at hfound ⊢
  cases hfind : (freeMemRanges mb flags).findSome? (candidate start end_ size (2 ^ k)) with
  | none => simp [hfind] at hfound
  | some c =>
    simp only [hfind, getD_some] at hfound ⊢
    obtain ⟨l₁, range, l₂, hl, hcand, -⟩ := findSome?_eq_some_iff.1 hfind
    have hmem : range ∈ freeMemRanges mb flags := by simp [hl]
    obtain ⟨hdvd, hwin, hlo, hhi⟩ := candidate_sound hk hstart hle hend hcand hfound
    obtain ⟨⟨m, hm, htaken, hmlo, hmhi⟩, hclear⟩ := freeMemRanges_sound h hmem
    refine ⟨hdvd, hwin, ⟨m, hm, htaken, by omega, by omega⟩, fun r hr => ?_⟩
    have := hclear r hr
    omega

theorem freeMemRanges_start_le (h : mb.Ordered) {range : Nat × Nat}
    (hr : range ∈ freeMemRanges mb flags) : range.1 ≤ range.2 := by
  obtain ⟨a, b, m, -, -, hm, rfl⟩ := (freeMemRanges_walked h flags).sound range hr
  have h1 := h.memory.base_le_end hm.region
  have h2 := h.reserved.rGapStart_le_rGapEnd hm.gap
  have h3 := hm.above
  have h4 := hm.below
  simp only [meetRange]
  omega

theorem memblockFindRangeBottomUp_complete (h : mb.Ordered) (hk : k < 64) (hstart : 0 < start)
    (hend : end_ < 2 ^ 64) (hsize : 0 < size)
    (hfound : memblockFindRangeBottomUp mb start end_ size (2 ^ k) flags = 0) {c : Nat}
    (hdvd : 2 ^ k ∣ c) (hc : start ≤ c) (hc' : c + size ≤ end_) : ¬ FreeBlock mb flags c size := by
  rintro ⟨⟨m, hm, htaken, hmlo, hmhi⟩, hclear⟩
  obtain ⟨range, hmem, hlo, hhi⟩ :=
    freeMemRanges_complete h hm htaken (by omega : c < c + size) hmlo hmhi hclear
  obtain ⟨v, hv, hv0⟩ := candidate_complete hk hstart hend hsize hdvd hc hc' hlo hhi
  unfold memblockFindRangeBottomUp at hfound
  cases hfind : (freeMemRanges mb flags).findSome? (candidate start end_ size (2 ^ k)) with
  | none =>
    rw [findSome?_eq_none_iff.1 hfind range hmem] at hv
    cases hv
  | some w =>
    rw [hfind, getD_some] at hfound
    subst hfound
    obtain ⟨l₁, range', l₂, hl, hcand, hbefore⟩ := findSome?_eq_some_iff.1 hfind
    -- `range'` wrapped around; `range` comes behind it, where nothing is aligned any more
    have hlater : range ∈ l₂ := by
      rw [hl] at hmem
      rcases mem_append.1 hmem with hm1 | hm2
      · rw [hbefore range hm1] at hv
        cases hv
      · rcases mem_cons.1 hm2 with rfl | hm2
        · rw [hcand] at hv
          exact absurd (some.inj hv).symm hv0
        · exact hm2
    have hsorted := (freeMemRanges_walked h flags).sorted
    have hle' := freeMemRanges_start_le h (show range' ∈ freeMemRanges mb flags by simp [hl])
    rw [hl] at hsorted
    have horder := (pairwise_cons.1 (pairwise_append.1 hsorted).2.1).1 range hlater
    have := candidate_zero hk hstart (by omega) hend hcand hdvd hc (by omega)
    omega

end find

/-! ## Reserving a block -/

/-- An array as `memblock` keeps it: in order, without empty regions, its sizes 64-bit words and its
indices small enough for an `int`. -/
structure WellFormed (t : MmblkType) : Prop where
  inOrder : InOrder t
  nonempty : ∀ r ∈ t.regions, 0 < r.size
  total : t.totalSize < 2 ^ 64
  max : t.max < 2 ^ 31

theorem WellFormed.valid {t : MmblkType} (h : WellFormed t) : t.Valid fun _ => True := by
  have hmax : physAddrMax = 2 ^ 64 - 1 := rfl
  refine ⟨h.max, ⟨h.total, fun r hr => ?_⟩, fun _ _ => trivial⟩
  have := h.inOrder.bounded r hr
  omega

variable {cov : Nat → Prop}

theorem Fits.mergeList_nonempty {A l : List MmblkRgn} (n : Nat)
    (h : Fits cov (A ++ l)) (hl : ∀ r ∈ l, 0 < r.size) :
    ∀ r ∈ Memblock.mergeList n l, 0 < r.size := by
  induction n generalizing A l with
  | zero => simpa [Memblock.mergeList] using hl
  | succ n ih =>
    rcases l with _ | ⟨p, _ | ⟨q, l⟩⟩
    · simp [Memblock.mergeList]
    · simpa [Memblock.mergeList] using hl
    · simp only [forall_mem_cons] at hl
      rw [Memblock.mergeList]
      split
      · next hg =>
        refine ih (h.glue hg) (forall_mem_cons.2 ⟨?_, hl.2.2⟩)
        rw [(h.glue_eq hg).2]
        exact Nat.add_pos_left hl.1 _
      · refine forall_mem_cons.2 ⟨hl.1, ?_⟩
        exact ih (A := A ++ [p]) (l := q :: l) (by simpa using h) (forall_mem_cons.2 hl.2)

theorem Fits.left {l R : List MmblkRgn} (h : Fits cov (l ++ R)) : Fits (Covers l) l :=
  ⟨fun r hr => h.bounded r (mem_append_left _ hr), (pairwise_append.1 h.sorted).1, fun _ => Iff.rfl⟩

theorem Fits.pushMerge_nonempty {P : List MmblkRgn} {x : MmblkRgn}
    (h : Fits cov (P ++ [x])) (hP : ∀ r ∈ P, 0 < r.size) (hx : 0 < x.size) :
    ∀ r ∈ Memblock.pushMerge P x, 0 < r.size := by
  have hsplit : P ++ [x] = P.take (P.length - 2) ++ (P.drop (P.length - 2) ++ [x]) := by
    rw [← append_assoc, take_append_drop]
  refine forall_mem_append.2 ⟨fun r hr => hP r (mem_of_mem_take hr), ?_⟩
  rw [hsplit] at h
  refine h.mergeList_nonempty _ (forall_mem_append.2 ⟨fun r hr => ?_, by simpa using hx⟩)
  exact hP r (mem_of_mem_drop hr)

/-- Reserving a block that no region reaches into: it is inserted in one piece. -/
theorem simpleMmblkAddRange_clear {t : MmblkType} {base size : Nat} (h : WellFormed t)
    (hsize : 0 < size) (hend : base + size ≤ physAddrMax)
    (hclear : ∀ r ∈ t.regions, r.base + r.size ≤ base ∨ base + size ≤ r.base) :
    (t.cnt < t.max → (simpleMmblkAddRange t base size).isSome) ∧
    ∀ t', simpleMmblkAddRange t base size = some t' → WellFormed t' ∧
      ∀ a, Covers t'.regions a ↔ Covers t.regions a ∨ (base ≤ a ∧ a < base + size) := by
  have hsplit := (endedBy_append_endingAfter base t.regions).symm
  have hP := end_le_of_mem_endedBy base t.regions
  have hR := lt_end_of_mem_head_endingAfter base t.regions
  have hcall := simpleMmblkAddRange_skip hsize hend hsplit hP
  generalize endedBy base t.regions = P at *
  generalize endingAfter base t.regions = R at *
  have hgap : ∀ r ∈ R.head?, base < r.end_ ∧ base + size ≤ r.base := by
    intro r hr
    have hmem : r ∈ t.regions := hsplit ▸ mem_append_right _ (mem_of_mem_head? hr)
    have hlt := hR r hr
    refine ⟨hlt, (hclear r hmem).resolve_left ?_⟩
    rw [← MmblkRgn.end_of_le (h.inOrder.bounded r hmem)]
    omega
  have key : t.cnt < t.max → ∃ t', simpleMmblkAddRange t base size = some t' ∧ WellFormed t' ∧
      ∀ a, Covers t'.regions a ↔ Covers t.regions a ∨ (base ≤ a ∧ a < base + size) := by
    intro hroom
    obtain ⟨t', flags, hloop, -, hrep⟩ := addRangeLoop_last (R.length + t.stale.length + 1)
      h.valid hroom hsplit hgap
    have hfit := h.inOrder.fits
    rw [hsplit] at hfit
    have hpush := hfit.pushMerge_piece flags (Nat.le_add_right base size) hend hP
      fun r hr => (hgap r hr).2
    have hsub : u64Sub (base + size) base = size := by
      have hmax : physAddrMax = 2 ^ 64 - 1 := rfl
      rw [u64Sub_of_le (by omega) (by omega), Nat.add_sub_cancel_left]
    have hne := h.nonempty
    rw [hsplit] at hne
    have hP' : ∀ p ∈ P, p.base + p.size ≤ base := fun p hp => by
      rw [← MmblkRgn.end_of_le (hfit.bounded p (by simp [hp]))]
      exact hP p hp
    have hleft : Fits (Covers P) (P ++ []) := by simpa using hfit.left
    have hne' := (hleft.insert (x := ⟨base, size, flags⟩) hend hP' (by simp)).pushMerge_nonempty (fun r hr => hne r (by simp [hr])) hsize
    rw [hsub] at hpush hrep
    refine ⟨t', hcall.trans hloop, ⟨⟨?_, ?_⟩, ?_, hrep.words.1, hrep.max ▸ h.max⟩, ?_⟩
    · rw [hrep.regions]
      exact hpush.bounded
    · rw [hrep.regions]
      exact hpush.sorted
    · rw [hrep.regions]
      exact forall_mem_append.2 ⟨hne', fun r hr => hne r (by simp [hr])⟩
    · rw [hrep.regions, hsplit]
      exact hpush.covers
  refine ⟨fun hroom => ?_, fun t' ht' => ?_⟩
  · obtain ⟨t', ht', -⟩ := key hroom
    simp [ht']
  · obtain ⟨t₁, ht₁, hres⟩ := key (addRangeLoop_room hsplit hR (hcall ▸ ht'))
    exact some.inj (ht₁.symm.trans ht') ▸ hres

/-! ## Runs of allocations -/

/-- `memblock` together with the blocks `(address, size)` it has returned. -/
structure BootRun where
  mb : MemblockS
  returned : List (Nat × Nat)
  deriving DecidableEq

/-- The arguments of a call of `memblock_alloc_range`. -/
structure AllocReq where
  size : Nat
  align : Nat
  start : Nat
  end_ : Nat

variable {s : BootRun}

namespace BootRun

def step (s : BootRun) (q : AllocReq) : Option (Nat × BootRun) := do
  let (found, mb) ← memblockAllocRange s.mb q.size q.align q.start q.end_
  some (found, { mb := mb, returned := if found = 0 then s.returned else (found, q.size) :: s.returned })

/-- Both arrays are well formed, nothing was returned yet. -/
def Start (s : BootRun) : Prop :=
  WellFormed s.mb.memory ∧ WellFormed s.mb.reserved ∧ s.mb.currentLimit ≤ physAddrMax ∧
    s.returned = []

/-- The arguments are 64-bit words, the size is not `0`, the alignment a power of two. -/
def Ok (_s : BootRun) (q : AllocReq) : Prop :=
  0 < q.size ∧ q.size ≤ physAddrMax ∧ (∃ k, k < 64 ∧ q.align = 2 ^ k) ∧ q.start ≤ physAddrMax ∧
    q.end_ ≤ physAddrMax

/-- What a block returned at `found` must be. -/
structure Legal (s : BootRun) (q : AllocReq) (found : Nat) (s' : BootRun) : Prop where
  aligned : q.align ∣ found
  window : max q.start pageSize ≤ found ∧ found + q.size ≤ pumpedEnd s.mb q.end_
  inMemory : ∃ m ∈ s.mb.memory.regions, m.base ≤ found ∧ found + q.size ≤ m.base + m.size
  clear : ∀ r ∈ s.mb.reserved.regions, r.base + r.size ≤ found ∨ found + q.size ≤ r.base
  fresh : ∀ blk ∈ s.returned, blk.1 + blk.2 ≤ found ∨ found + q.size ≤ blk.1
  reserved : ∀ a, found ≤ a → a < found + q.size → Covers s'.mb.reserved.regions a

/-- No aligned block of the wanted size in the window is free. -/
def NoneFits (s : BootRun) (q : AllocReq) : Prop :=
  ∀ c, q.align ∣ c → max q.start pageSize ≤ c → c + q.size ≤ pumpedEnd s.mb q.end_ →
    ¬ FreeBlock s.mb memblockNone c q.size

/-- What every run keeps: the arrays stay well formed, and what was returned stays reserved. -/
structure Inv (s : BootRun) : Prop where
  memory : WellFormed s.mb.memory
  reserved : WellFormed s.mb.reserved
  limit : s.mb.currentLimit ≤ physAddrMax
  returned : ∀ blk ∈ s.returned, 0 < blk.2 ∧
    ∀ a, blk.1 ≤ a → a < blk.1 + blk.2 → Covers s.mb.reserved.regions a

theorem Inv.ordered (h : s.Inv) : s.mb.Ordered :=
  ⟨h.memory.inOrder, h.reserved.inOrder, h.memory.max, h.reserved.max⟩

theorem Inv.fresh (h : s.Inv) {found size : Nat} (hsize : 0 < size)
    (hclear : ∀ r ∈ s.mb.reserved.regions, r.base + r.size ≤ found ∨ found + size ≤ r.base) :
    ∀ blk ∈ s.returned, blk.1 + blk.2 ≤ found ∨ found + size ≤ blk.1 := by
  intro blk hblk
  obtain ⟨hpos, hcov⟩ := h.returned blk hblk
  by_contra hover
  -- an address both blocks share is reserved, and yet clear
  obtain ⟨r, hr, hlo, hhi⟩ := hcov (max blk.1 found) (le_max_left _ _) (by omega)
  have := hclear r hr
  omega

theorem pumpedEnd_le {mb : MemblockS} (hlimit : mb.currentLimit ≤ physAddrMax) {end_ : Nat}
    (hend : end_ ≤ physAddrMax) : pumpedEnd mb end_ ≤ physAddrMax := by
  unfold pumpedEnd
  split
  · exact hlimit
  · exact hend

def found (s : BootRun) (q : AllocReq) : Nat :=
  memblockFindRangeBottomUp s.mb (max q.start pageSize)
    (max (max q.start pageSize) (pumpedEnd s.mb q.end_)) q.size q.align memblockNone

theorem step_of_not_found {q : AllocReq} (halign : q.align ≠ 0)
    (h : s.found q = 0) : s.step q = some (0, s) := by
  unfold found at h
  simp only [BootRun.step, memblockAllocRange, halign, if_false, h, if_true, bind_eq_bind,
    bind_some]

theorem step_of_found {q : AllocReq} (halign : q.align ≠ 0) (h : s.found q ≠ 0) :
    s.step q = (simpleMmblkAddRange s.mb.reserved (s.found q) q.size).map fun reserved =>
      (s.found q, { mb := { s.mb with reserved := reserved }
                    returned := (s.found q, q.size) :: s.returned }) := by
  unfold found at h ⊢
  simp only [BootRun.step, memblockAllocRange, halign, if_false, h, simpleMmblkReserve]
  cases simpleMmblkAddRange s.mb.reserved _ q.size with
  | none => rfl
  | some reserved =>
    simp only [bind_eq_bind, bind_some, map_some, h, if_false]

section step

variable {s : BootRun} {q : AllocReq} (h : s.Inv) (hok : s.Ok q)

include h hok

theorem Inv.found_sound (hf : s.found q ≠ 0) :
    q.align ∣ s.found q ∧
      (max q.start pageSize ≤ s.found q ∧ s.found q + q.size ≤ pumpedEnd s.mb q.end_) ∧
      FreeBlock s.mb memblockNone (s.found q) q.size := by
  obtain ⟨hsize, -, ⟨k, hk, halign⟩, hstart, hend⟩ := hok
  have hmax : physAddrMax = 2 ^ 64 - 1 := rfl
  have hpage : pageSize = 4096 := rfl
  have hpump := pumpedEnd_le h.limit hend
  unfold found at hf ⊢
  rw [halign] at hf ⊢
  obtain ⟨h1, h2, h3⟩ :=
    memblockFindRangeBottomUp_sound h.ordered hk (by omega) (le_max_left _ _) (by omega) hf
  exact ⟨h1, ⟨h2.1, by omega⟩, h3⟩

theorem Inv.found_complete (hf : s.found q = 0) : s.NoneFits q := by
  obtain ⟨hsize, -, ⟨k, hk, halign⟩, hstart, hend⟩ := hok
  have hmax : physAddrMax = 2 ^ 64 - 1 := rfl
  have hpage : pageSize = 4096 := rfl
  have hpump := pumpedEnd_le h.limit hend
  unfold found at hf
  rw [halign] at hf
  intro c hdvd hlo hhi
  rw [halign] at hdvd
  exact memblockFindRangeBottomUp_complete h.ordered hk (by omega) (by omega) hsize hf hdvd hlo
    (by omega)

theorem Inv.step :
    (s.mb.reserved.cnt < s.mb.reserved.max → (s.step q).isSome) ∧
    ∀ found s', s.step q = some (found, s') →
      s'.Inv ∧ (found ≠ 0 → s.Legal q found s') ∧ (found = 0 → s.NoneFits q) := by
  have halign : q.align ≠ 0 := by
    obtain ⟨-, -, ⟨k, -, hk⟩, -⟩ := hok
    rw [hk]
    positivity
  by_cases hf : s.found q = 0
  · rw [step_of_not_found halign hf]
    refine ⟨fun _ => rfl, fun found s' hs' => ?_⟩
    cases hs'
    exact ⟨h, fun hne => absurd rfl hne, fun _ => h.found_complete hok hf⟩
  obtain ⟨hdvd, hwin, ⟨m, hm, -, hmlo, hmhi⟩, hclear⟩ := h.found_sound hok hf
  have hpump := pumpedEnd_le h.limit hok.2.2.2.2
  obtain ⟨hsome, hres⟩ := simpleMmblkAddRange_clear h.reserved hok.1 (hwin.2.trans hpump) hclear
  rw [step_of_found halign hf]
  refine ⟨fun hroom => by simpa using hsome hroom, fun found s' hs' => ?_⟩
  obtain ⟨reserved, hcall, he⟩ := map_eq_some_iff.1 hs'
  cases he
  obtain ⟨hwf, hcov⟩ := hres reserved hcall
  refine ⟨⟨h.memory, hwf, h.limit, ?_⟩, fun _ => ?_, fun h0 => absurd h0 hf⟩
  · refine forall_mem_cons.2 ⟨⟨hok.1, fun a hlo hhi => (hcov a).2 (.inr ⟨hlo, hhi⟩)⟩, ?_⟩
    intro blk hblk
    obtain ⟨hpos, hold⟩ := h.returned blk hblk
    exact ⟨hpos, fun a hlo hhi => (hcov a).2 (.inl (hold a hlo hhi))⟩
  · exact ⟨hdvd, hwin, ⟨m, hm, hmlo, hmhi⟩, hclear, h.fresh hok.1 hclear,
      fun a hlo hhi => (hcov a).2 (.inr ⟨hlo, hhi⟩)⟩

end step

/-- From well-formed arrays, a call that finds the reserved array not full returns, a block it
returns is legal, and it returns none only when none fits. -/
theorem alloc_legal {s : BootRun} (h : Reachable BootRun.step BootRun.Ok BootRun.Start s)
    {q : AllocReq} (hok : s.Ok q) :
    (s.mb.reserved.cnt < s.mb.reserved.max → (s.step q).isSome) ∧
    ∀ found s', s.step q = some (found, s') →
      (found ≠ 0 → s.Legal q found s') ∧ (found = 0 → s.NoneFits q) := by
  have hinv : s.Inv := h.invariant
    (fun s hs => ⟨hs.1, hs.2.1, hs.2.2.1, by simp [hs.2.2.2]⟩)
    fun s q found s' hinv hok hstep => ((hinv.step hok).2 found s' hstep).1
  obtain ⟨hsome, hres⟩ := hinv.step hok
  exact ⟨hsome, fun found s' hs' => (hres found s' hs').2⟩

/-- Memory at `[0x1000, 0x9000)` of which the first page is reserved. -/
def small : BootRun :=
  { mb := { memory := ⟨[⟨0x1000, 0x8000, 0⟩], [⟨0, 0, 0⟩], 0x8000⟩
            reserved := ⟨[⟨0x1000, 0x1000, 0⟩], [⟨0, 0, 0⟩, ⟨0, 0, 0⟩, ⟨0, 0, 0⟩], 0x1000⟩
            currentLimit := physAddrMax }
    returned := [] }

theorem small_start : small.Start := by
  refine ⟨⟨⟨?_, ?_⟩, ?_, ?_, ?_⟩, ⟨⟨?_, ?_⟩, ?_, ?_, ?_⟩, ?_, ?_⟩ <;>
    simp [small, physAddrMax, MmblkType.max]

/-- Half a page, aligned to a page. -/
theorem alloc_legal_small :
    let q : AllocReq := ⟨0x800, 0x1000, 0, 0⟩
    small.Ok q ∧ (small.mb.reserved.cnt < small.mb.reserved.max → (small.step q).isSome) ∧
    ∀ found s', small.step q = some (found, s') →
      (found ≠ 0 → small.Legal q found s') ∧ (found = 0 → small.NoneFits q) := by
  intro q
  have hok : small.Ok q :=
    ⟨by norm_num [q], by norm_num [q, physAddrMax], ⟨12, by norm_num, rfl⟩,
      by norm_num [q], by norm_num [q]⟩
  exact ⟨hok, alloc_legal (.start small_start) hok⟩

end BootRun

end MyOS2.Memblock
