import Mathlib.Data.List.Chain
import MyOS2.Mm.Early.Proofs.Coverage

/-!
# Trimming the memory regions (`memblock_trim_memory`)

Every region should keep the part between the first and the last multiple of `align` in it, and
go if there is none. The loop comes from above. When it takes a region out it steps over the
one below, which is then left as it is. A region without a byte whose address is a multiple
stays, and the start of one at the top of the address space is rounded to zero.
-/

namespace MyOS2.Memblock

open List

/-! ## A pass that steps over elements -/

section

variable {α : Type} {f g : α → Option α} {l : List α}

/-- Each element is replaced or taken out, but the one behind an element that is taken out is left
as it is. -/
def stepOver (g : α → Option α) : Bool → List α → List α
  | _, [] => []
  | true, p :: l => p :: stepOver g false l
  | false, r :: l =>
    match g r with
    | some r' => r' :: stepOver g false l
    | none => stepOver g true l

section

variable (h : ∀ r ∈ l, ∀ r', f r = some r' → g r = some r') (skip : Bool)
include h

/-- If it leaves what it should leave, it leaves no less. -/
theorem length_filterMap_le_stepOver : (l.filterMap f).length ≤ (stepOver g skip l).length := by
  induction l generalizing skip with
  | nil => simp
  | cons r l ih =>
    have ih := ih fun q hq => h q (mem_cons_of_mem _ hq)
    have hfalse := ih false
    cases hf : f r with
    | some r' =>
      rw [filterMap_cons_some hf, length_cons]
      cases skip with
      | true => simpa [stepOver] using hfalse
      | false => simpa [stepOver, h r mem_cons_self r' hf] using hfalse
    | none =>
      rw [filterMap_cons_none hf]
      cases skip with
      | true =>
        simp only [stepOver, length_cons]
        omega
      | false =>
        rw [stepOver]
        split
        · rw [length_cons]
          omega
        · exact ih true

/-- It is right exactly if it takes out what is to go, and every element behind one of those was
right before. -/
theorem stepOver_eq_filterMap_iff :
    stepOver g skip l = l.filterMap f ↔ (skip = true → ∀ p ∈ l.head?, f p = some p) ∧
      (∀ r ∈ l, f r = none → g r = none) ∧ l.IsChain fun q p => f q = none → f p = some p := by
  induction l generalizing skip with
  | nil => simp [stepOver]
  | cons r l ih =>
    have h' : ∀ q ∈ l, ∀ q', f q = some q' → g q = some q' := fun q hq => h q (mem_cons_of_mem _ hq)
    have ih := ih h'
    rw [isChain_cons, forall_mem_cons, head?_cons]
    cases hf : f r with
    | some r' =>
      rw [filterMap_cons_some hf]
      have hfalse := ih false
      cases skip with
      | true => simp [stepOver, hfalse, hf, @eq_comm _ r]
      | false => simp [stepOver, h r mem_cons_self r' hf, hfalse]
    | none =>
      rw [filterMap_cons_none hf]
      have hlong : ∀ q, q :: stepOver g false l ≠ l.filterMap f := fun q heq => by
        have := length_filterMap_le_stepOver h' false
        rw [← heq, length_cons] at this
        omega
      cases skip with
      | true => simp [stepOver, hlong, hf]
      | false =>
        cases hg : g r with
        | some q => simp [stepOver, hg, hlong]
        | none =>
          simp only [stepOver, hg, ih true]
          simp only [forall_const, true_and]
          constructor
          · rintro ⟨ha, hb, hc⟩
            exact ⟨by simp, hb, ha, hc⟩
          · rintro ⟨-, hb, ha, hc⟩
            exact ⟨ha, hb, hc⟩

end

end

/-- What is to be left of a region. -/
def trimmed (align : Nat) (r : MmblkRgn) : Option MmblkRgn :=
  let start := (r.base + (align - 1)) / align * align
  let end_ := (r.base + r.size) / align * align
  if start < end_ then some { r with base := start, size := end_ - start } else none

/-- What the body of the loop makes of a region; `none` if it takes it out. -/
def trimRegion (align : Nat) (r : MmblkRgn) : Option MmblkRgn :=
  let start := roundUp r.base align
  let end_ := roundDown r.end_ align
  if start = r.base ∧ end_ = r.end_ then some r
  else if start < end_ then some { r with base := start, size := end_ - start }
  else none

theorem trimmed_aligned {align : Nat} {r r' : MmblkRgn} (h : trimmed align r = some r') :
    align ∣ r'.base ∧ align ∣ r'.base + r'.size := by
  simp only [trimmed] at h
  split at h
  · rename_i hlt
    cases h
    refine ⟨dvd_mul_left _ _, ?_⟩
    simp only [Nat.add_sub_cancel' hlt.le, dvd_mul_left]
  · contradiction

section

variable {k : Nat} (hk : k < 64)

include hk

theorem trimRegion_of_trimmed {r r' : MmblkRgn} (hr : r.base + r.size ≤ physAddrMax)
    (h : trimmed (2 ^ k) r = some r') : trimRegion (2 ^ k) r = some r' := by
  have hmax : physAddrMax = 2 ^ 64 - 1 := rfl
  have hend : r.end_ = r.base + r.size := MmblkRgn.end_of_le hr
  have hle : (r.base + r.size) / 2 ^ k * 2 ^ k ≤ r.base + r.size := Nat.div_mul_le_self _ _
  rw [trimRegion, hend, roundUp_eq (by omega) hk, roundDown_eq (by omega) hk]
  simp only [trimmed] at h
  generalize (r.base + (2 ^ k - 1)) / 2 ^ k * 2 ^ k = start at h ⊢
  generalize (r.base + r.size) / 2 ^ k * 2 ^ k = stop at h hle ⊢
  by_cases hlt : start < stop
  · rw [if_pos hlt] at h
    cases h
    simp only [u64_of_lt (show start < 2 ^ 64 by omega), if_pos hlt]
    split
    · rename_i heq
      obtain ⟨rfl, rfl⟩ := heq
      rw [Nat.add_sub_cancel_left]
    · rfl
  · rw [if_neg hlt] at h
    contradiction

end

/-! ## The loop -/

theorem simpleMmblkRemoveRgn_regions {t : MmblkType} {P S : List MmblkRgn} {r : MmblkRgn}
    (ht : t.regions = P ++ r :: S) : (simpleMmblkRemoveRgn t P.length).regions = P ++ S := by
  have hr : t.regions[P.length]? = some r := by simp [ht]
  have herase : t.regions.eraseIdx P.length = P ++ S := by
    simp [ht, eraseIdx_append_of_length_le]
  obtain ⟨last, hlast⟩ : ∃ last, t.regions.getLast? = some last :=
    Option.isSome_iff_exists.1 (by simp [ht])
  simp only [simpleMmblkRemoveRgn, hr, hlast, herase]

/-- The loop with the cursor above the regions `l`, given from the last one downwards. -/
theorem trimLoop_regions (align : Nat) {n : Nat} (l S : List MmblkRgn) (t : MmblkType)
    (hn : l.length ≤ n) (ht : t.regions = l.reverse ++ S) :
    (trimLoop align n l.length t).regions = (stepOver (trimRegion align) false l).reverse ++ S := by
  induction n generalizing l t S with
  | zero =>
    obtain rfl := eq_nil_of_length_eq_zero (Nat.le_zero.1 hn)
    simpa [trimLoop, stepOver] using ht
  | succ n ih =>
    cases l with
    | nil => simpa [trimLoop, stepOver] using ht
    | cons r l =>
      have ht' : t.regions = l.reverse ++ r :: S := by simpa using ht
      have hget : t.regions[l.length]? = some r := by simp [ht']
      have hrem : (simpleMmblkRemoveRgn t l.length).regions = l.reverse ++ S := by
        simpa using simpleMmblkRemoveRgn_regions ht'
      rw [length_cons] at hn ⊢
      rw [trimLoop, hget, stepOver, trimRegion]
      simp only
      split
      · rw [ih l (r :: S) t (by omega) ht']
        simp
      split
      · generalize MmblkRgn.mk (roundUp r.base align) _ r.flags = r'
        rw [ih l (r' :: S) _ (by omega) (by simp [ht'])]
        simp
      · -- the cursor steps over the region below
        cases l with
        | nil => exact ih [] S _ (Nat.zero_le _) hrem
        | cons p l =>
          simp only [length_cons, Nat.add_sub_cancel] at hn ⊢
          rw [ih l (p :: S) _ (by omega) (by simpa using hrem)]
          simp [stepOver]

/-- The regions are the parts that are to be left of the old ones, in order. -/
def TrimsExactly (align : Nat) (regions regions' : List MmblkRgn) : Prop :=
  (∀ r ∈ regions', align ∣ r.base ∧ align ∣ r.base + r.size) ∧
    regions' = regions.filterMap (trimmed align)

/-- Trimming is exact if and only if each region of which nothing is to be left is taken out by the
body of the loop, and the region before it is already what it should be. -/
theorem memblockTrimMemory_exact_iff (mb : MemblockS) (k : Nat) (hk : k < 64)
    (hmem : ∀ r ∈ mb.memory.regions, r.base + r.size ≤ physAddrMax) :
    TrimsExactly (2 ^ k) mb.memory.regions (memblockTrimMemory mb (2 ^ k)).memory.regions ↔
      (∀ r ∈ mb.memory.regions, trimmed (2 ^ k) r = none → trimRegion (2 ^ k) r = none) ∧
      mb.memory.regions.IsChain fun p q => trimmed (2 ^ k) q = none → trimmed (2 ^ k) p = some p := by
  have hloop := trimLoop_regions (2 ^ k) (n := mb.memory.cnt) mb.memory.regions.reverse [] mb.memory
    (by simp [MmblkType.cnt]) (by simp)
  rw [length_reverse, append_nil] at hloop
  change (memblockTrimMemory mb (2 ^ k)).memory.regions = _ at hloop
  have hstep := stepOver_eq_filterMap_iff (f := trimmed (2 ^ k)) (g := trimRegion (2 ^ k))
    (l := mb.memory.regions.reverse)
    (fun r hr r' => trimRegion_of_trimmed hk (hmem r (mem_reverse.1 hr))) false
  simp only [Bool.false_eq_true, false_implies, true_and, mem_reverse, isChain_reverse,
    filterMap_reverse] at hstep
  rw [← hstep, ← reverse_eq_iff, ← hloop]
  refine ⟨fun h => h.2, fun h => ⟨fun r hr => ?_, h⟩⟩
  rw [h, mem_filterMap] at hr
  obtain ⟨q, -, hq⟩ := hr
  exact trimmed_aligned hq

def shortAbove : MemblockS where
  memory := ⟨[⟨0x1800, 0x2000, 0⟩, ⟨0x5800, 0x400, 0⟩], [⟨0, 0, 0⟩], 0x2400⟩
  reserved := .empty 1
  currentLimit := physAddrMax

/-- The regions begin and end at multiples of the alignment. -/
theorem memblockTrimMemory_exact_iff_shortAbove :
    TrimsExactly (2 ^ 10) shortAbove.memory.regions
        (memblockTrimMemory shortAbove (2 ^ 10)).memory.regions ↔
      (∀ r ∈ shortAbove.memory.regions, trimmed (2 ^ 10) r = none → trimRegion (2 ^ 10) r = none) ∧
      shortAbove.memory.regions.IsChain
        fun p q => trimmed (2 ^ 10) q = none → trimmed (2 ^ 10) p = some p :=
  memblockTrimMemory_exact_iff shortAbove 10 (by decide) (by simp [shortAbove, physAddrMax])

/-- The upper region goes, and the lower one is not trimmed. -/
theorem lower_region_skipped :
    ¬ TrimsExactly (2 ^ 12) shortAbove.memory.regions
      (memblockTrimMemory shortAbove (2 ^ 12)).memory.regions := by
  have hleft : (memblockTrimMemory shortAbove (2 ^ 12)).memory.regions = [⟨0x1800, 0x2000, 0⟩] := by
    decide +kernel
  intro h
  rw [hleft] at h
  exact absurd (h.1 ⟨0x1800, 0x2000, 0⟩ (mem_singleton_self _)) (by decide)

end MyOS2.Memblock
