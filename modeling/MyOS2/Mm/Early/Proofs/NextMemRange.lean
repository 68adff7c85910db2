import MyOS2.Mm.Early.Proofs.Coverage

/-!
# The free ranges

`__simple_next_mem_range` walks the memory regions and the gaps between the
reserved regions in lockstep. For arrays in order it visits every pair of a
region and a gap that meet, once and in order, so every range that is free lies
inside one it visits.
-/

namespace MyOS2.Memblock

open Option List Nat

/-- An array whose regions are in order, disjoint and below `PHYS_ADDR_MAX`. -/
structure InOrder (t : MmblkType) : Prop where
  bounded : ∀ r ∈ t.regions, r.base + r.size ≤ physAddrMax
  sorted : t.regions.Pairwise fun p q => p.base + p.size ≤ q.base

variable {r : MmblkRgn} {b i b' : Nat}

namespace InOrder

variable {t : MmblkType} (h : InOrder t)

include h

theorem fits : Fits (Covers t.regions) t.regions := ⟨h.bounded, h.sorted, fun _ => Iff.rfl⟩

theorem end_eq (hr : t.regions[i]? = some r) : r.end_ = r.base + r.size :=
  MmblkRgn.end_of_le (h.bounded r (mem_of_getElem? hr))

theorem end_le_base {j : Nat} {p q : MmblkRgn} (hij : i < j) (hp : t.regions[i]? = some p)
    (hq : t.regions[j]? = some q) : p.end_ ≤ q.base := by
  obtain ⟨hi, rfl⟩ := List.getElem?_eq_some_iff.1 hp
  obtain ⟨hj, rfl⟩ := List.getElem?_eq_some_iff.1 hq
  rw [h.end_eq hp]
  exact pairwise_iff_getElem.1 h.sorted i j hi hj hij

theorem base_le_end (hr : t.regions[i]? = some r) : r.base ≤ r.end_ := by
  rw [h.end_eq hr]
  omega

theorem base_mono {j : Nat} {p q : MmblkRgn} (hij : i ≤ j) (hp : t.regions[i]? = some p)
    (hq : t.regions[j]? = some q) : p.base ≤ q.base := by
  rcases eq_or_lt_of_le hij with rfl | hlt
  · rw [some.inj (hp.symm.trans hq)]
  · exact (h.base_le_end hp).trans (h.end_le_base hlt hp hq)

/-! ## The gaps -/

theorem rGapEnd_le_rGapStart (hlt : b < b') (hb' : b' ≤ t.cnt) : rGapEnd t b ≤ rGapStart t b' := by
  obtain ⟨c, rfl⟩ : ∃ c, b' = c + 1 := ⟨b' - 1, by omega⟩
  have hc : t.regions[c]? = some (t.regions.get ⟨c, hb'⟩) := getElem?_eq_getElem hb'
  have hb : t.regions[b]? = some (t.regions.get ⟨b, by unfold MmblkType.cnt at hb'; omega⟩) :=
    getElem?_eq_getElem _
  simp only [rGapEnd, rGapStart, hc, hb, map_some, getD_some]
  exact (h.base_mono (by omega) hb hc).trans (h.base_le_end hc)

theorem rGapStart_le_rGapEnd (hb : b ≤ t.cnt) : rGapStart t b ≤ rGapEnd t b := by
  cases b with
  | zero => exact zero_le _
  | succ c =>
    have hc : t.regions[c]? = some (t.regions.get ⟨c, hb⟩) := getElem?_eq_getElem hb
    cases hnext : t.regions[c + 1]? with
    | none =>
      simp only [rGapEnd, rGapStart, hc, hnext, map_some, map_none, getD_some, getD_none]
      rw [h.end_eq hc]
      exact h.bounded _ (mem_of_getElem? hc)
    | some r =>
      simp only [rGapEnd, rGapStart, hc, hnext, map_some, getD_some]
      exact h.end_le_base (lt_succ_self c) hc hnext

theorem rGapStart_mono (hle : b ≤ b') (hb' : b' ≤ t.cnt) : rGapStart t b ≤ rGapStart t b' := by
  rcases eq_or_lt_of_le hle with rfl | hlt
  · exact le_rfl
  · exact (h.rGapStart_le_rGapEnd (by omega)).trans (h.rGapEnd_le_rGapStart hlt hb')

end InOrder

/-! ## One step of the walk -/

def GapScan.Spec (exclude : MmblkType) (mStart mEnd b : Nat) : GapScan → Prop
  | .found b₀ outStart outEnd =>
    (b ≤ b₀ ∧ b₀ ≤ exclude.cnt ∧ rGapStart exclude b₀ < mEnd ∧ mStart < rGapEnd exclude b₀) ∧
    (outStart = max mStart (rGapStart exclude b₀) ∧ outEnd = min mEnd (rGapEnd exclude b₀)) ∧
    ∀ b', b ≤ b' → b' < b₀ → rGapEnd exclude b' ≤ mStart
  | .passed b₀ =>
    (b ≤ b₀ ∧ b₀ ≤ exclude.cnt + 1 ∧ (b₀ ≤ exclude.cnt → mEnd ≤ rGapStart exclude b₀)) ∧
    ∀ b', b ≤ b' → b' < b₀ → rGapEnd exclude b' ≤ mStart

variable {n : Nat}

theorem scanGaps_spec (exclude : MmblkType) (mStart mEnd : Nat) (hn : b + n = exclude.cnt + 1) :
    (scanGaps exclude mStart mEnd n b).Spec exclude mStart mEnd b := by
  induction n generalizing b with
  | zero => exact ⟨⟨le_rfl, by omega, fun h => by omega⟩, fun b' h1 h2 => by omega⟩
  | succ n ih =>
    rw [scanGaps]
    by_cases hend : mEnd ≤ rGapStart exclude b
    · rw [if_pos hend]
      exact ⟨⟨le_rfl, by omega, fun _ => hend⟩, fun b' h1 h2 => by omega⟩
    rw [if_neg hend]
    by_cases hstart : mStart < rGapEnd exclude b
    · rw [if_pos hstart]
      exact ⟨⟨le_rfl, by omega, by omega, hstart⟩, ⟨rfl, rfl⟩, fun b' h1 h2 => by omega⟩
    rw [if_neg hstart]
    -- the gap `b` lies below the region, and so it does for what follows
    have hbelow : ∀ b₀, (∀ b', b + 1 ≤ b' → b' < b₀ → rGapEnd exclude b' ≤ mStart) →
        ∀ b', b ≤ b' → b' < b₀ → rGapEnd exclude b' ≤ mStart := by
      intro b₀ hrest b' h1 h2
      rcases eq_or_lt_of_le h1 with rfl | h1
      · omega
      · exact hrest b' h1 h2
    have := ih (b := b + 1) (by omega)
    cases hscan : scanGaps exclude mStart mEnd n (b + 1) with
    | found b₀ outStart outEnd =>
      rw [hscan] at this
      obtain ⟨⟨h1, h2⟩, h3, h4⟩ := this
      exact ⟨⟨by omega, h2⟩, h3, hbelow b₀ h4⟩
    | passed b₀ =>
      rw [hscan] at this
      obtain ⟨⟨h1, h2⟩, h3⟩ := this
      exact ⟨⟨by omega, h2⟩, hbelow b₀ h3⟩

variable {m : MmblkRgn} {a : Nat}

section walk

variable {isMemory : Bool} {within exclude : MmblkType} {flags : Nat}

/-- The region `m` with index `a`, which is not skipped, meets the gap `b`. -/
structure Meets (isMemory : Bool) (within exclude : MmblkType) (flags a b : Nat) (m : MmblkRgn) :
    Prop where
  region : within.regions[a]? = some m
  taken : shouldSkipRegion isMemory m flags = false
  gap : b ≤ exclude.cnt
  above : rGapStart exclude b < m.end_
  below : m.base < rGapEnd exclude b

def meetRange (exclude : MmblkType) (m : MmblkRgn) (b : Nat) : Nat × Nat :=
  (max m.base (rGapStart exclude b), min m.end_ (rGapEnd exclude b))

/-- The pair that ends first is the one to move on from. -/
def MovesOn (exclude : MmblkType) (m : MmblkRgn) (a₀ b₀ a₁ b₁ : Nat) : Prop :=
  (m.end_ ≤ rGapEnd exclude b₀ ∧ a₁ = a₀ + 1 ∧ b₁ = b₀) ∨
    (rGapEnd exclude b₀ < m.end_ ∧ a₁ = a₀ ∧ b₁ = b₀ + 1)

/-- The outer loop from `(a, b)` on finds the first pair that meets, and goes on behind it without
missing any other. -/
def NextSpec (isMemory : Bool) (within exclude : MmblkType) (flags a b : Nat) :
    Option ((Nat × Nat) × (Nat × Nat)) → Prop
  | none => ∀ a' b' m, a ≤ a' → b ≤ b' → ¬ Meets isMemory within exclude flags a' b' m
  | some ((a₁, b₁), range) =>
    ∃ a₀ b₀ m, (a ≤ a₀ ∧ b ≤ b₀ ∧ Meets isMemory within exclude flags a₀ b₀ m) ∧
      range = meetRange exclude m b₀ ∧ MovesOn exclude m a₀ b₀ a₁ b₁ ∧
      ∀ a' b' m', a ≤ a' → b ≤ b' → Meets isMemory within exclude flags a' b' m' →
        (a' = a₀ ∧ b' = b₀) ∨ (a₁ ≤ a' ∧ b₁ ≤ b')

theorem NextSpec.mono {a' : Nat} {res : Option ((Nat × Nat) × (Nat × Nat))}
    (h : NextSpec isMemory within exclude flags a' b' res) (ha : a ≤ a') (hb : b ≤ b')
    (hskip : ∀ i j m, a ≤ i → b ≤ j → Meets isMemory within exclude flags i j m →
      a' ≤ i ∧ b' ≤ j) : NextSpec isMemory within exclude flags a b res := by
  match res, h with
  | none, h =>
    intro i j m hi hj hm
    obtain ⟨hi', hj'⟩ := hskip i j m hi hj hm
    exact h i j m hi' hj' hm
  | some ((a₁, b₁), range), ⟨a₀, b₀, m, ⟨h1, h2, h3⟩, h4, h5, h6⟩ =>
    refine ⟨a₀, b₀, m, ⟨by omega, by omega, h3⟩, h4, h5, fun i j m' hi hj hm => ?_⟩
    obtain ⟨hi', hj'⟩ := hskip i j m' hi hj hm
    exact h6 i j m' hi' hj' hm

theorem scanRegions_spec (isMemory : Bool) (flags : Nat) (hw : InOrder within)
    (he : InOrder exclude) (hn : within.cnt ≤ a + n) (hb : b ≤ exclude.cnt + 1) :
    NextSpec isMemory within exclude flags a b
      (scanRegions isMemory within exclude flags n a b) := by
  induction n generalizing a b with
  | zero =>
    rintro a' b' m ha - hm
    have := getElem?_eq_none (l := within.regions) (i := a') (by unfold MmblkType.cnt at hn; omega)
    rw [hm.region] at this
    cases this
  | succ n ih =>
    rw [scanRegions]
    cases hreg : within.regions[a]? with
    | none =>
      rintro a' b' m ha - hm
      have hlen := getElem?_eq_none_iff.1 hreg
      have := (List.getElem?_eq_some_iff.1 hm.region).1
      omega
    | some m =>
      simp only
      by_cases hskip : shouldSkipRegion isMemory m flags = true
      · rw [if_pos hskip]
        refine (ih (a := a + 1) (by omega) hb).mono (le_succ a) le_rfl fun i j m' hi hj hm => ?_
        refine ⟨lt_of_le_of_ne hi ?_, hj⟩
        rintro rfl
        rw [hm.region] at hreg
        cases hreg
        simp [hm.taken] at hskip
      rw [if_neg hskip]
      have hscan := scanGaps_spec exclude m.base m.end_ (n := exclude.cnt + 1 - b) (b := b) (by omega)
      -- gaps below the region `a` lie below all later regions
      have hbelow : ∀ b₀, (∀ b', b ≤ b' → b' < b₀ → rGapEnd exclude b' ≤ m.base) →
          ∀ i j m', a ≤ i → b ≤ j → Meets isMemory within exclude flags i j m' → b₀ ≤ j := by
        intro b₀ hgaps i j m' hi hj hm
        by_contra hlt
        have h1 := hgaps j hj (by omega)
        have h2 := hw.base_mono hi hreg hm.region
        have h3 := hm.below
        omega
      cases hres : scanGaps exclude m.base m.end_ (exclude.cnt + 1 - b) b with
      | passed b₀ =>
        rw [hres] at hscan
        obtain ⟨⟨hb₀, hb₀', hend⟩, hgaps⟩ := hscan
        refine (ih (a := a + 1) (by omega) hb₀').mono (le_succ a) hb₀ fun i j m' hi hj hm => ?_
        have hj' := hbelow b₀ hgaps i j m' hi hj hm
        refine ⟨lt_of_le_of_ne hi ?_, hj'⟩
        rintro rfl
        obtain rfl := some.inj (hreg.symm.trans hm.region)
        have h1 := hend (by have := hm.gap; omega)
        have h2 := he.rGapStart_mono hj' hm.gap
        have h3 := hm.above
        omega
      | found b₀ outStart outEnd =>
        rw [hres] at hscan
        obtain ⟨⟨hb₀, hb₀', hgs, hge⟩, ⟨rfl, rfl⟩, hgaps⟩ := hscan
        have hmeet : Meets isMemory within exclude flags a b₀ m :=
          ⟨hreg, by simpa using hskip, hb₀', hgs, hge⟩
        have hj := hbelow b₀ hgaps
        simp only
        by_cases hadv : m.end_ ≤ rGapEnd exclude b₀
        · rw [if_pos hadv]
          refine ⟨a, b₀, m, ⟨le_rfl, hb₀, hmeet⟩, rfl, .inl ⟨hadv, rfl, rfl⟩, ?_⟩
          intro i j m' hi hj' hm
          have hjb := hj i j m' hi hj' hm
          rcases eq_or_lt_of_le hi with rfl | hi
          · -- the later gaps start behind the end of the region
            left
            refine ⟨rfl, le_antisymm (Nat.le_of_not_lt fun hlt => ?_) hjb⟩
            obtain rfl := some.inj (hreg.symm.trans hm.region)
            have h1 := he.rGapEnd_le_rGapStart hlt hm.gap
            have h2 := hm.above
            omega
          · exact .inr ⟨hi, hjb⟩
        · rw [if_neg hadv]
          refine ⟨a, b₀, m, ⟨le_rfl, hb₀, hmeet⟩, rfl, .inr ⟨by omega, rfl, rfl⟩, ?_⟩
          intro i j m' hi hj' hm
          have hjb := hj i j m' hi hj' hm
          rcases eq_or_lt_of_le hjb with rfl | hjb
          · -- the later regions start behind the end of the gap
            left
            refine ⟨le_antisymm (Nat.le_of_not_lt fun hlt => ?_) hi, rfl⟩
            have h1 := hw.end_le_base hlt hreg hm.region
            have h2 := hm.below
            omega
          · exact .inr ⟨hi, hjb⟩

/-! ## The whole walk -/

def packIdx (a b : Nat) : Nat := a + b * 2 ^ 32

theorem simpleNextMemRange_packIdx (ha : a < 2 ^ 32) :
    simpleNextMemRange isMemory within exclude flags (packIdx a b) =
      (scanRegions isMemory within exclude flags (within.cnt - a) a b).map
        fun p => (p.1.1 % 2 ^ 32 + u64 (p.1.2 * 2 ^ 32), p.2) := by
  have hmod : packIdx a b % 2 ^ 32 = a := by unfold packIdx; omega
  have hdiv : packIdx a b / 2 ^ 32 = b := by unfold packIdx; omega
  rw [simpleNextMemRange]
  simp only [hmod, hdiv]

/-- What a walk from `(a, b)` on visits: exactly the pairs that meet, in order. -/
structure Walked (isMemory : Bool) (within exclude : MmblkType) (flags a b : Nat)
    (ranges : List (Nat × Nat)) : Prop where
  sound : ∀ range ∈ ranges, ∃ a' b' m, a ≤ a' ∧ b ≤ b' ∧
    Meets isMemory within exclude flags a' b' m ∧ range = meetRange exclude m b'
  complete : ∀ a' b' m, a ≤ a' → b ≤ b' → Meets isMemory within exclude flags a' b' m →
    meetRange exclude m b' ∈ ranges
  sorted : ranges.Pairwise fun p q => p.2 ≤ q.1

section

variable (hw : InOrder within) (he : InOrder exclude) {a₀ b₀ a₁ b₁ : Nat} {m' : MmblkRgn}
  (h : MovesOn exclude m a₀ b₀ a₁ b₁) (hm : Meets isMemory within exclude flags a₀ b₀ m)
  (ha : a₁ ≤ a) (hb : b₁ ≤ b) (hm' : Meets isMemory within exclude flags a b m')
include hw he h hm ha hb hm'

theorem MovesOn.le_start : (meetRange exclude m b₀).2 ≤ (meetRange exclude m' b).1 := by
  simp only [meetRange]
  rcases h with ⟨-, rfl, rfl⟩ | ⟨-, rfl, rfl⟩
  · have := hw.end_le_base ha hm.region hm'.region
    omega
  · have := he.rGapEnd_le_rGapStart hb hm'.gap
    omega

/-- If no region is empty, it starts behind the start of the one before it in any case. -/
theorem MovesOn.start_lt (hwne : ∀ r ∈ within.regions, 0 < r.size)
    (hene : ∀ r ∈ exclude.regions, 0 < r.size) :
    (meetRange exclude m b₀).1 < (meetRange exclude m' b).1 := by
  have habove := hm.above
  have hbelow := hm.below
  simp only [meetRange]
  rcases h with ⟨-, rfl, rfl⟩ | ⟨-, rfl, rfl⟩
  · have := hw.end_le_base ha hm.region hm'.region
    have := hwne m (mem_of_getElem? hm.region)
    have := hw.end_eq hm.region
    omega
  · -- the region between the two gaps is not empty
    have hgap := hm'.gap
    have := he.rGapStart_le_rGapEnd hm.gap
    have hlt : b₀ < exclude.regions.length := lt_of_lt_of_le hb hgap
    obtain ⟨r, hr⟩ : ∃ r, exclude.regions[b₀]? = some r := ⟨_, getElem?_eq_getElem hlt⟩
    have hend : rGapEnd exclude b₀ = r.base := by rw [rGapEnd, hr]; rfl
    have hstart : rGapStart exclude (b₀ + 1) = r.end_ := by rw [rGapStart, hr]; rfl
    have := he.rGapStart_mono hb hgap
    have := hene r (mem_of_getElem? hr)
    have := he.end_eq hr
    omega

end

/-- How many moves a walk from `(a, b)` on can make at most. -/
def movesLeft (within exclude : MmblkType) (a b : Nat) : Nat :=
  (within.cnt - a) + (exclude.cnt + 1 - b)

section

variable (isMemory : Bool) (flags : Nat) (hw : InOrder within) (he : InOrder exclude)
  (hwmax : within.max < 2 ^ 31) (hemax : exclude.max < 2 ^ 31) (ha : a ≤ within.cnt)
  (hb : b ≤ exclude.cnt + 1)

include hw he hwmax hemax ha hb

/-- One round of the walk: it ends, or visits the first pair that meets and moves on. -/
theorem forEachMemRange_succ :
    (NextSpec isMemory within exclude flags a b none ∧
      ∀ n, forEachMemRange isMemory within exclude flags (n + 1) (packIdx a b) = []) ∨
    ∃ a₁ b₁ range, a₁ ≤ within.cnt ∧ b₁ ≤ exclude.cnt + 1 ∧
      movesLeft within exclude a₁ b₁ < movesLeft within exclude a b ∧
      NextSpec isMemory within exclude flags a b (some ((a₁, b₁), range)) ∧
      ∀ n, forEachMemRange isMemory within exclude flags (n + 1) (packIdx a b) =
        range :: forEachMemRange isMemory within exclude flags n (packIdx a₁ b₁) := by
  have hwcnt : within.cnt ≤ within.max := by simp [MmblkType.cnt, MmblkType.max]
  have hecnt : exclude.cnt ≤ exclude.max := by simp [MmblkType.cnt, MmblkType.max]
  have hspec := scanRegions_spec isMemory flags hw he (n := within.cnt - a) (a := a) (by omega) hb
  cases hscan : scanRegions isMemory within exclude flags (within.cnt - a) a b with
  | none =>
    rw [hscan] at hspec
    refine .inl ⟨hspec, fun n => ?_⟩
    rw [forEachMemRange, simpleNextMemRange_packIdx (by omega), hscan, map_none]
  | some p =>
    obtain ⟨⟨a₁, b₁⟩, range⟩ := p
    rw [hscan] at hspec
    obtain ⟨a₀, b₀, m, ⟨h1, h2, hm⟩, -, hmov, -⟩ := id hspec
    -- the indices the walk moves on to stay within the arrays
    have hlt : a₀ < within.cnt := (List.getElem?_eq_some_iff.1 hm.region).1
    have hgap := hm.gap
    have hnext : a₁ ≤ within.cnt ∧ b₁ ≤ exclude.cnt + 1 ∧
        movesLeft within exclude a₁ b₁ < movesLeft within exclude a b := by
      unfold movesLeft
      rcases hmov with ⟨-, rfl, rfl⟩ | ⟨-, rfl, rfl⟩ <;> omega
    refine .inr ⟨a₁, b₁, range, hnext.1, hnext.2.1, hnext.2.2, hspec, fun n => ?_⟩
    have hpack : a₁ % 2 ^ 32 + u64 (b₁ * 2 ^ 32) = packIdx a₁ b₁ := by
      rw [mod_eq_of_lt (by omega), u64_of_lt (by omega), packIdx]
    rw [forEachMemRange, simpleNextMemRange_packIdx (by omega), hscan, map_some, hpack]

theorem forEachMemRange_walked (hn : movesLeft within exclude a b < n) :
    Walked isMemory within exclude flags a b
      (forEachMemRange isMemory within exclude flags n (packIdx a b)) := by
  induction n generalizing a b with
  | zero => omega
  | succ n ih =>
    obtain ⟨hspec, hnil⟩ | ⟨a₁, b₁, range, ha₁, hb₁, hlt, hspec, hcons⟩ :=
      forEachMemRange_succ isMemory flags hw he hwmax hemax ha hb
    · rw [hnil]
      exact ⟨by simp, fun a' b' m h1 h2 hm => absurd hm (hspec a' b' m h1 h2), by simp⟩
    rw [hcons]
    obtain ⟨a₀, b₀, m, ⟨h1, h2, hm⟩, rfl, hmov, hrest⟩ := hspec
    obtain ⟨hsound, hcomplete, hsorted⟩ := ih ha₁ hb₁ (by omega)
    have hle : a ≤ a₁ ∧ b ≤ b₁ := by
      rcases hmov with ⟨-, rfl, rfl⟩ | ⟨-, rfl, rfl⟩ <;> omega
    refine ⟨forall_mem_cons.2 ⟨⟨a₀, b₀, m, h1, h2, hm, rfl⟩, fun range hr => ?_⟩, ?_, ?_⟩
    · obtain ⟨a', b', m', ha', hb', hm', he'⟩ := hsound range hr
      exact ⟨a', b', m', by omega, by omega, hm', he'⟩
    · intro a' b' m' ha' hb' hm'
      rcases hrest a' b' m' ha' hb' hm' with ⟨rfl, rfl⟩ | ⟨ha', hb'⟩
      · rw [some.inj (hm'.region.symm.trans hm.region)]
        exact mem_cons_self
      · exact mem_cons_of_mem _ (hcomplete a' b' m' ha' hb' hm')
    · refine pairwise_cons.2 ⟨fun range hr => ?_, hsorted⟩
      obtain ⟨a', b', m', ha', hb', hm', rfl⟩ := hsound range hr
      exact hmov.le_start hw he hm ha' hb' hm'

theorem forEachMemRange_increasing (hwne : ∀ r ∈ within.regions, 0 < r.size)
    (hene : ∀ r ∈ exclude.regions, 0 < r.size) (hn : movesLeft within exclude a b < n) :
    (forEachMemRange isMemory within exclude flags n (packIdx a b)).Pairwise
      fun p q => p.1 < q.1 := by
  induction n generalizing a b with
  | zero => omega
  | succ n ih =>
    obtain ⟨-, hnil⟩ | ⟨a₁, b₁, range, ha₁, hb₁, hlt, hspec, hcons⟩ :=
      forEachMemRange_succ isMemory flags hw he hwmax hemax ha hb
    · rw [hnil]
      exact List.Pairwise.nil
    rw [hcons]
    refine pairwise_cons.2 ⟨fun range' hr => ?_, ih ha₁ hb₁ (by omega)⟩
    obtain ⟨a', b', m', ha', hb', hm', rfl⟩ :=
      (forEachMemRange_walked isMemory flags hw he hwmax hemax ha₁ hb₁ (by omega)).sound range' hr
    obtain ⟨a₀, b₀, m, ⟨-, -, hm⟩, rfl, hmov, -⟩ := hspec
    exact hmov.start_lt hw he hm ha' hb' hm' hwne hene

theorem forEachMemRange_of_movesLeft {k : Nat} (hn : movesLeft within exclude a b < n) (hk : n ≤ k) :
    forEachMemRange isMemory within exclude flags k (packIdx a b) =
      forEachMemRange isMemory within exclude flags n (packIdx a b) := by
  induction n generalizing a b k with
  | zero => omega
  | succ n ih =>
    obtain ⟨k, rfl⟩ : ∃ j, k = j + 1 := ⟨k - 1, by omega⟩
    obtain ⟨-, hnil⟩ | ⟨a₁, b₁, range, ha₁, hb₁, hlt, -, hcons⟩ :=
      forEachMemRange_succ isMemory flags hw he hwmax hemax ha hb
    · rw [hnil, hnil]
    · rw [hcons, hcons, ih ha₁ hb₁ (by omega) (by omega)]

end

end walk

/-! ## The free ranges of `memblock` -/

/-- Both arrays are in order, and their indices fit an `int`. -/
structure MemblockS.Ordered (mb : MemblockS) : Prop where
  memory : InOrder mb.memory
  reserved : InOrder mb.reserved
  memoryMax : mb.memory.max < 2 ^ 31
  reservedMax : mb.reserved.max < 2 ^ 31

section free

variable {mb : MemblockS} {flags : Nat}

theorem freeMemRanges_walked (h : mb.Ordered) (flags : Nat) :
    Walked true mb.memory mb.reserved flags 0 0 (freeMemRanges mb flags) := by
  have hwalk := forEachMemRange_walked true flags h.memory h.reserved
    h.memoryMax h.reservedMax (n := mb.memory.cnt + mb.reserved.cnt + 2) (a := 0) (b := 0)
    (zero_le _) (zero_le _) (by unfold movesLeft; omega)
  exact hwalk

theorem InOrder.apart_of_gap {t : MmblkType} (h : InOrder t)
    (hb : b ≤ t.cnt) (hr : t.regions[i]? = some r) :
    r.end_ ≤ rGapStart t b ∨ rGapEnd t b ≤ r.base := by
  rcases lt_or_ge i b with hlt | hge
  · left
    obtain ⟨c, rfl⟩ : ∃ c, b = c + 1 := ⟨b - 1, by omega⟩
    have hc : t.regions[c]? = some (t.regions.get ⟨c, hb⟩) := getElem?_eq_getElem hb
    simp only [rGapStart, hc, map_some, getD_some]
    rcases eq_or_lt_of_le (le_of_lt_succ hlt) with rfl | hlt
    · rw [some.inj (hr.symm.trans hc)]
    · exact (h.end_le_base hlt hr hc).trans (h.base_le_end hc)
  · right
    have hlen := (List.getElem?_eq_some_iff.1 hr).1
    have hbb : t.regions[b]? = some (t.regions.get ⟨b, by omega⟩) := List.getElem?_eq_getElem _
    simp only [rGapEnd, hbb, map_some, getD_some]
    exact h.base_mono hge hbb hr

theorem exists_gap_of_clear {t : MmblkType} {c d : Nat}
    (hd : d ≤ physAddrMax) (hclear : ∀ r ∈ t.regions, r.end_ ≤ c ∨ d ≤ r.base) :
    ∃ b, b ≤ t.cnt ∧ rGapStart t b ≤ c ∧ d ≤ rGapEnd t b := by
  have hsplit := endedBy_append_endingAfter c t.regions
  have hP := end_le_of_mem_endedBy c t.regions
  have hR := lt_end_of_mem_head_endingAfter c t.regions
  generalize endedBy c t.regions = P at *
  generalize endingAfter c t.regions = R at *
  refine ⟨P.length, ?_, ?_, ?_⟩
  · simp [MmblkType.cnt, ← hsplit]
  · rcases P.eq_nil_or_concat' with rfl | ⟨A, p, rfl⟩
    · exact zero_le _
    · have hp : t.regions[A.length]? = some p := by simp [← hsplit]
      simp only [length_append, length_singleton, rGapStart, hp, map_some, getD_some]
      exact hP p (by simp)
  · cases R with
    | nil =>
      have : t.regions[P.length]? = none := by simp [← hsplit]
      simpa only [rGapEnd, this, map_none, getD_none] using hd
    | cons r R =>
      have hr : t.regions[P.length]? = some r := by simp [← hsplit]
      simp only [rGapEnd, hr, map_some, getD_some]
      exact (hclear r (mem_of_getElem? hr)).resolve_left (Nat.not_le_of_lt (hR r rfl))

/-- A visited range lies in one memory region that is not skipped, and outside every reserved
region. -/
theorem freeMemRanges_sound (h : mb.Ordered) {range : Nat × Nat}
    (hr : range ∈ freeMemRanges mb flags) :
    (∃ m ∈ mb.memory.regions, shouldSkipRegion true m flags = false ∧
      m.base ≤ range.1 ∧ range.2 ≤ m.base + m.size) ∧
    ∀ r ∈ mb.reserved.regions, r.base + r.size ≤ range.1 ∨ range.2 ≤ r.base := by
  obtain ⟨a, b, m, -, -, hm, rfl⟩ := (freeMemRanges_walked h flags).sound range hr
  refine ⟨⟨m, mem_of_getElem? hm.region, hm.taken, le_max_left _ _, ?_⟩, fun r hr => ?_⟩
  · rw [← h.memory.end_eq hm.region]
    exact min_le_left _ _
  · obtain ⟨i, hi⟩ := getElem?_of_mem hr
    rw [← h.reserved.end_eq hi]
    exact (h.reserved.apart_of_gap hm.gap hi).imp (·.trans (le_max_right _ _))
      ((min_le_right _ _).trans ·)

/-- A range inside a memory region that is not skipped, outside every reserved region, lies inside a
visited one. -/
theorem freeMemRanges_complete (h : mb.Ordered) (hm : m ∈ mb.memory.regions)
    (htaken : shouldSkipRegion true m flags = false) {c d : Nat} (hcd : c < d) (hc : m.base ≤ c)
    (hd : d ≤ m.base + m.size)
    (hclear : ∀ r ∈ mb.reserved.regions, r.base + r.size ≤ c ∨ d ≤ r.base) :
    ∃ range ∈ freeMemRanges mb flags, range.1 ≤ c ∧ d ≤ range.2 := by
  obtain ⟨a, ha⟩ := getElem?_of_mem hm
  have hend := h.memory.end_eq ha
  obtain ⟨b, hb, hgs, hge⟩ := exists_gap_of_clear (hd.trans (h.memory.bounded m hm)) fun r hr => by
      obtain ⟨i, hi⟩ := getElem?_of_mem hr
      rw [h.reserved.end_eq hi]
      exact hclear r hr
  refine ⟨meetRange mb.reserved m b, (freeMemRanges_walked h flags).complete a b m
    (zero_le _) (zero_le _) ⟨ha, htaken, hb, by omega, by omega⟩, ?_, ?_⟩
  · exact max_le hc hgs
  · exact le_min (hd.trans hend.ge) hge

def Touch (rs : List MmblkRgn) (a : Nat) : Prop :=
  ∃ p ∈ rs, ∃ q ∈ rs, p.base + p.size = a ∧ q.base = a

instance (rs : List MmblkRgn) (a : Nat) : Decidable (Touch rs a) :=
  inferInstanceAs (Decidable (∃ _ ∈ _, ∃ _ ∈ _, _ ∧ _))

/-- A visited range is empty only where two reserved regions touch. -/
theorem freeMemRanges_empty_iff (h : mb.Ordered) (hmem : ∀ r ∈ mb.memory.regions, 0 < r.size)
    (hres : ∀ r ∈ mb.reserved.regions, 0 < r.size) {range : Nat × Nat}
    (hr : range ∈ freeMemRanges mb flags) :
    range.1 ≤ range.2 ∧ (range.1 = range.2 ↔ Touch mb.reserved.regions range.1) := by
  obtain ⟨a, b, m, -, -, hm, rfl⟩ := (freeMemRanges_walked h flags).sound range hr
  have hgap := h.reserved.rGapStart_le_rGapEnd hm.gap
  have habove := hm.above
  have hbelow := hm.below
  have hpos := hmem m (mem_of_getElem? hm.region)
  have hmend := h.memory.end_eq hm.region
  have hmax := h.memory.bounded m (mem_of_getElem? hm.region)
  have hiff : (meetRange mb.reserved m b).1 = (meetRange mb.reserved m b).2 ↔
      rGapStart mb.reserved b = rGapEnd mb.reserved b := by
    simp only [meetRange]
    omega
  refine ⟨by simp only [meetRange]; omega, fun heq => ?_, ?_⟩
  · have hgeq := hiff.1 heq
    have hstart : (meetRange mb.reserved m b).1 = rGapStart mb.reserved b := by
      simp only [meetRange]
      omega
    rw [hstart]
    -- an empty gap lies between two regions
    cases b with
    | zero =>
      rw [rGapStart] at hgeq
      omega
    | succ c =>
      obtain ⟨p, hp⟩ : ∃ p, mb.reserved.regions[c]? = some p :=
        ⟨_, getElem?_eq_getElem (lt_of_lt_of_le (lt_succ_self c) hm.gap)⟩
      have hps : rGapStart mb.reserved (c + 1) = p.end_ := by rw [rGapStart, hp]; rfl
      cases hq : mb.reserved.regions[c + 1]? with
      | none =>
        have : rGapEnd mb.reserved (c + 1) = physAddrMax := by rw [rGapEnd, hq]; rfl
        omega
      | some q =>
        have hqs : rGapEnd mb.reserved (c + 1) = q.base := by rw [rGapEnd, hq]; rfl
        refine ⟨p, mem_of_getElem? hp, q, mem_of_getElem? hq, ?_, ?_⟩
        · rw [← h.reserved.end_eq hp, hps]
        · rw [← hqs, hgeq]
  · rintro ⟨-, -, q, hq, -, hqs⟩
    have := hres q hq
    rcases (freeMemRanges_sound h hr).2 q hq with hend | hbase <;>
    · simp only [meetRange] at *
      omega

/-- The walk over the free ranges ends; it visits disjoint ranges in increasing order that make up
the memory that is not reserved, none of them empty but where two reserved regions touch. -/
theorem freeMemRanges_exact (mb : MemblockS) (flags : Nat) (h : mb.Ordered)
    (hmem : ∀ r ∈ mb.memory.regions, 0 < r.size) (hres : ∀ r ∈ mb.reserved.regions, 0 < r.size)
    (hskip : ∀ r ∈ mb.memory.regions, shouldSkipRegion true r flags = false) :
    (∀ n, mb.memory.cnt + mb.reserved.cnt + 2 ≤ n →
      forEachMemRange true mb.memory mb.reserved flags n 0 = freeMemRanges mb flags) ∧
    ((freeMemRanges mb flags).Pairwise fun p q => p.1 < q.1 ∧ p.2 ≤ q.1) ∧
    (∀ a, (∃ range ∈ freeMemRanges mb flags, range.1 ≤ a ∧ a < range.2) ↔
      Covers mb.memory.regions a ∧ ¬ Covers mb.reserved.regions a) ∧
    ∀ range ∈ freeMemRanges mb flags,
      range.1 ≤ range.2 ∧ (range.1 = range.2 ↔ Touch mb.reserved.regions range.1) := by
  have hzero : packIdx 0 0 = 0 := by rw [packIdx, Nat.zero_mul]
  have hfuel : movesLeft mb.memory mb.reserved 0 0 < mb.memory.cnt + mb.reserved.cnt + 2 := by
    unfold movesLeft
    omega
  refine ⟨fun n hn => ?_, ?_, fun a => ⟨?_, ?_⟩, fun range hr =>
    freeMemRanges_empty_iff h hmem hres hr⟩
  · have hend := forEachMemRange_of_movesLeft true flags h.memory h.reserved h.memoryMax
      h.reservedMax (zero_le _) (zero_le _) hfuel hn
    rwa [hzero] at hend
  · have hincr := forEachMemRange_increasing true flags h.memory h.reserved h.memoryMax
      h.reservedMax (zero_le _) (zero_le _) hmem hres hfuel
    exact hincr.and (freeMemRanges_walked h flags).sorted
  · rintro ⟨range, hr, hle, hlt⟩
    obtain ⟨⟨m, hm, -, hms, hme⟩, hout⟩ := freeMemRanges_sound h hr
    refine ⟨⟨m, hm, hms.trans hle, hlt.trans_le hme⟩, ?_⟩
    rintro ⟨r, hr', hrs, hre⟩
    have := hout r hr'
    omega
  · rintro ⟨⟨m, hm, hms, hme⟩, hout⟩
    obtain ⟨range, hr, hle, hge⟩ := freeMemRanges_complete h hm (hskip m hm) (lt_succ_self a)
      hms hme fun r hr => by
        have : ¬ (r.base ≤ a ∧ a < r.base + r.size) := fun hra => hout ⟨r, hr, hra⟩
        omega
    exact ⟨range, hr, hle, hge⟩

def touching : MemblockS where
  memory := ⟨[⟨0, 0x4000, 0⟩], [⟨0, 0, 0⟩], 0x4000⟩
  reserved := ⟨[⟨0x1000, 0x1000, 0⟩, ⟨0x2000, 0x1000, 1⟩], [⟨0, 0, 0⟩], 0x2000⟩
  currentLimit := physAddrMax

theorem touching_ordered : touching.Ordered := by
  refine ⟨⟨?_, ?_⟩, ⟨?_, ?_⟩, ?_, ?_⟩ <;> simp [touching, physAddrMax, MmblkType.max]

/-- Two reserved regions that touch. -/
theorem freeMemRanges_exact_touching :
    (∀ a, (∃ range ∈ freeMemRanges touching 0, range.1 ≤ a ∧ a < range.2) ↔
      Covers touching.memory.regions a ∧ ¬ Covers touching.reserved.regions a) ∧
    ∀ range ∈ freeMemRanges touching 0,
      range.1 ≤ range.2 ∧ (range.1 = range.2 ↔ Touch touching.reserved.regions range.1) :=
  (freeMemRanges_exact touching 0 touching_ordered (by decide) (by decide) (by decide)).2.2

/-- The walk visits the empty range between the two reserved pages. -/
theorem empty_range_visited :
    touching.Ordered ∧ (∀ r ∈ touching.memory.regions, 0 < r.size) ∧
    (∀ r ∈ touching.reserved.regions, 0 < r.size) ∧
    (∀ r ∈ touching.memory.regions, shouldSkipRegion true r 0 = false) ∧
    ¬ ∀ range ∈ freeMemRanges touching 0, range.1 < range.2 :=
  ⟨touching_ordered, by decide, by decide, by decide, by decide +kernel⟩

end free

end MyOS2.Memblock
