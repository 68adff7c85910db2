import MyOS2.Mm.Early.Memblock
import Mathlib.Data.List.Basic
import Mathlib.Tactic.Tauto
import Mathlib.Tactic.IntervalCases

/-!
# What one round of `simple_mmblk_add_range` does to the region list

The array operations of the source become operations on the list of regions:
merging is `mergeList` on the suffix the loop starts at, and inserting a piece
behind the prefix `P` turns `P` into `pushMerge P x`.
-/

namespace MyOS2.Memblock

open List MmblkType

/-! ## Merging neighbours -/

/-- The test of `simple_mmblk_merge_rgn`: the two neighbours become one region. -/
def Gluable (p q : MmblkRgn) : Prop := p.end_ = q.base ∧ p.flags = q.flags

instance (p q : MmblkRgn) : Decidable (Gluable p q) := instDecidableAnd

/-- The region two neighbours become. -/
def glue (p q : MmblkRgn) : MmblkRgn := { p with size := u64 (p.size + q.size) }

/-- `n` rounds of the merging loop on the regions from its index on. -/
def mergeList : Nat → List MmblkRgn → List MmblkRgn
  | n + 1, p :: q :: l => if Gluable p q then mergeList n (glue p q :: l) else p :: mergeList n (q :: l)
  | _, l => l

/-- Every entry of the array, in use or not, has flags in `F`. -/
def MmblkType.FlagsIn (F : Nat → Prop) (t : MmblkType) : Prop :=
  ∀ e ∈ t.regions ++ t.stale, F e.flags

theorem u64Sub_u64_add {n s : Nat} (hn : n < 2 ^ 64) (hs : s < 2 ^ 64) :
    u64Sub (u64 (n + s)) s = n := by
  unfold u64Sub u64
  omega

/-- The sizes an array stores are 64-bit words. -/
def MmblkType.Words (t : MmblkType) : Prop :=
  t.totalSize < 2 ^ 64 ∧ ∀ r ∈ t.regions, r.size < 2 ^ 64

section mergeLoop

variable {t : MmblkType} {A l : List MmblkRgn} {p q : MmblkRgn} {n : Nat}

theorem mergeLoop_succ_of_not_gluable (h : t.regions = A ++ p :: q :: l) (hg : ¬ Gluable p q) :
    mergeLoop (n + 1) t A.length = mergeLoop n t (A.length + 1) := by
  have hp : t.regions[A.length]? = some p := by simp [h]
  have hq : t.regions[A.length + 1]? = some q := by simp [h]
  have hg : p.end_ ≠ q.base ∨ p.flags ≠ q.flags := not_and_or.1 hg
  simp only [mergeLoop, hp, hq, if_pos hg]

/-- The state after the neighbours `p` and `q` behind `A` were merged. -/
theorem mergeLoop_succ_of_gluable (h : t.regions = A ++ p :: q :: l) (hg : Gluable p q)
    (hw : t.Words) :
    ∃ last ∈ A ++ glue p q :: q :: l, mergeLoop (n + 1) t A.length =
      mergeLoop n { t with regions := A ++ glue p q :: l, stale := last :: t.stale } A.length := by
  have hp : t.regions[A.length]? = some p := by simp [h]
  have hq : t.regions[A.length + 1]? = some q := by simp [h]
  have hg : ¬ (p.end_ ≠ q.base ∨ p.flags ≠ q.flags) := by
    rw [not_or, not_not, not_not]
    exact hg
  have hset : t.regions.set A.length { p with size := u64 (p.size + q.size) } =
      A ++ glue p q :: q :: l := by simp [h, glue]
  have hsize : q.size < 2 ^ 64 := hw.2 q (by simp [h])
  obtain ⟨last, hlast⟩ : ∃ last, (A ++ glue p q :: q :: l).getLast? = some last := by
    cases hl : (A ++ glue p q :: q :: l).getLast? with
    | none => simp at hl
    | some last => exact ⟨last, rfl⟩
  have hmem : (A ++ glue p q :: q :: l)[A.length + 1]? = some q := by simp
  have herase : (A ++ glue p q :: q :: l).eraseIdx (A.length + 1) = A ++ glue p q :: l := by
    simp [eraseIdx_append_of_length_le]
  refine ⟨last, mem_of_getLast? hlast, ?_⟩
  simp only [mergeLoop, hp, hq, if_neg hg, hset, simpleMmblkRemoveRgn, hmem, hlast, herase,
    u64Sub_u64_add hw.1 hsize]

end mergeLoop

variable {t : MmblkType} {F : Nat → Prop} {l : List MmblkRgn}

theorem mergeLoop_spec (n : Nat) {A : List MmblkRgn}
    (h : t.regions = A ++ l) (hn : n < l.length) (hw : t.Words) (hF : t.FlagsIn F) :
    (mergeLoop n t A.length).regions = A ++ mergeList n l ∧
      (mergeLoop n t A.length).max = t.max ∧
      (mergeLoop n t A.length).totalSize = t.totalSize ∧
      (mergeLoop n t A.length).FlagsIn F := by
  induction n generalizing t A l with
  | zero => exact ⟨by simp [mergeLoop, mergeList, h], rfl, rfl, hF⟩
  | succ n ih =>
    obtain ⟨p, q, l, rfl⟩ : ∃ p q l', l = p :: q :: l' := by
      match l, hn with
      | p :: q :: l', _ => exact ⟨p, q, l', rfl⟩
    by_cases hg : Gluable p q
    · obtain ⟨last, hlast, he⟩ := mergeLoop_succ_of_gluable (n := n) h hg hw
      set t' : MmblkType := { t with regions := A ++ glue p q :: l, stale := last :: t.stale }
      have hpF : F p.flags := hF p (by simp [h])
      have hlF : ∀ e ∈ A ++ q :: l, F e.flags := fun e he => hF e (by
        simp only [h, mem_append, mem_cons] at he ⊢
        tauto)
      have hF' : t'.FlagsIn F := by
        intro e he
        simp only [t', mem_append, mem_cons] at he hlast hlF
        rcases he with (hA | rfl | hl) | rfl | hs
        · exact hlF e (.inl hA)
        · exact hpF
        · exact hlF e (.inr (.inr hl))
        · rcases hlast with hA | rfl | hl
          · exact hlF _ (.inl hA)
          · exact hpF
          · exact hlF _ (.inr hl)
        · exact hF e (by simp [hs])
      have hw' : t'.Words := by
        refine ⟨hw.1, fun r hr => ?_⟩
        simp only [t', mem_append, mem_cons] at hr
        rcases hr with hA | rfl | hl
        · exact hw.2 r (by simp [h, hA])
        · exact u64_lt _
        · exact hw.2 r (by simp [h, hl])
      obtain ⟨h1, h2, h3, h4⟩ := ih (t := t') rfl (by simpa using hn) hw' hF'
      rw [he, mergeList, if_pos hg]
      refine ⟨h1, ?_, h3, h4⟩
      rw [h2]
      simp only [t', MmblkType.max, h, length_append, length_cons]
      omega
    · rw [mergeLoop_succ_of_not_gluable h hg, mergeList, if_neg hg]
      have := ih (A := A ++ [p]) (l := q :: l) (by simp [h]) (by simpa using hn) hw hF
      simpa using this

/-! ## Inserting a piece and merging around it -/

/-- The regions before the insertion point, once `x` is inserted behind them and the window of its
two predecessors is merged. -/
def pushMerge (P : List MmblkRgn) (x : MmblkRgn) : List MmblkRgn :=
  P.take (P.length - 2) ++ mergeList (min P.length 2) (P.drop (P.length - 2) ++ [x])

theorem mergeList_append {n : Nat} (R : List MmblkRgn) (h : n < l.length) :
    mergeList n (l ++ R) = mergeList n l ++ R := by
  induction n generalizing l with
  | zero => simp [mergeList]
  | succ n ih =>
    match l, h with
    | p :: q :: l, h =>
      simp only [cons_append, mergeList]
      split
      · exact ih (l := glue p q :: l) (by simpa using h)
      · rw [← cons_append, ih (l := q :: l) (by simpa using h), cons_append]

theorem simpleMmblkMergeRgn_window {idx : Nat} (hidx : idx < t.cnt) (hmax : t.max < 2 ^ 31) :
    simpleMmblkMergeRgn t (u64Sub idx 1) idx = mergeLoop (min idx 2) t (idx - 2) := by
  have hcnt : t.cnt ≤ t.max := by simp [MmblkType.cnt, MmblkType.max]
  have hlast : u64Sub t.cnt 1 = t.cnt - 1 := u64Sub_of_le (by omega) (by omega)
  unfold simpleMmblkMergeRgn
  simp only [hlast]
  rcases Nat.lt_or_ge idx 2 with h | h
  · interval_cases idx
    · -- `start_rgn` is `-1`, so the loop does not run
      simp [mergeLoop]
    · have : u64Sub 1 1 = 0 := u64Sub_of_le (by norm_num) le_rfl
      have hmin : min 1 (t.cnt - 1) = 1 := by omega
      simp [this, hmin]
  · have h1 : u64Sub idx 1 = idx - 1 := u64Sub_of_le (by omega) (by omega)
    have h2 : wordOfInt (idx - 1 - 1) = idx - 2 := by
      rw [wordOfInt, if_pos (by omega)]
      omega
    have hmin : min idx (t.cnt - 1) - (idx - 2) = min idx 2 := by omega
    have hne : idx - 1 ≠ 0 := by omega
    simp [h1, h2, hne, hmin]

theorem mergeList_words {n : Nat} (h : ∀ r ∈ l, r.size < 2 ^ 64) :
    ∀ r ∈ mergeList n l, r.size < 2 ^ 64 := by
  induction n generalizing l with
  | zero => simpa [mergeList] using h
  | succ n ih =>
    match l, h with
    | [], _ => simp [mergeList]
    | [p], h => simpa [mergeList] using h
    | p :: q :: l, h =>
      simp only [forall_mem_cons] at h
      rw [mergeList]
      split
      · exact ih (forall_mem_cons.2 ⟨u64_lt _, h.2.2⟩)
      · exact forall_mem_cons.2 ⟨h.1, ih (forall_mem_cons.2 h.2)⟩

/-- `t'` is `t` with the regions `rs` instead, `size` bytes accounted on top. -/
structure Replaced (F : Nat → Prop) (t t' : MmblkType) (rs : List MmblkRgn) (size : Nat) :
    Prop where
  regions : t'.regions = rs
  max : t'.max = t.max
  totalSize : t'.totalSize = u64 (t.totalSize + size)
  flags : t'.FlagsIn F
  words : t'.Words

/-- What every round of the loop needs of the array: indices that fit an `int`, 64-bit sizes, and
flags in `F`. -/
structure MmblkType.Valid (F : Nat → Prop) (t : MmblkType) : Prop where
  max : t.max < 2 ^ 31
  words : t.Words
  flags : t.FlagsIn F

theorem Replaced.valid {t' : MmblkType} {rs : List MmblkRgn} {size : Nat}
    (h : Replaced F t t' rs size) (ht : t.Valid F) : t'.Valid F :=
  ⟨h.max ▸ ht.max, h.words, h.flags⟩

/-- One insertion of the loop: the new entry goes behind `P` with the flags of its slot, and the two
regions before it are merged with it where they touch. -/
theorem insert_merge_spec {P R : List MmblkRgn}
    {size : Nat} (base : Nat) (ht : t.Valid F) (hroom : t.cnt < t.max)
    (h : t.regions = P ++ R) (hsize : size < 2 ^ 64) :
    ∃ t₁ flags, memblockInsertRegion t P.length base size = some t₁ ∧ F flags ∧
      Replaced F t (simpleMmblkMergeRgn t₁ (u64Sub P.length 1) P.length)
        (pushMerge P ⟨base, size, flags⟩ ++ R) size := by
  obtain ⟨hmax, hw, hF⟩ := ht
  obtain ⟨e, stale, hstale⟩ : ∃ e stale, t.stale = e :: stale := by
    cases hs : t.stale with
    | nil => simp [MmblkType.cnt, MmblkType.max, hs] at hroom
    | cons e stale => exact ⟨e, stale, rfl⟩
  obtain ⟨slot, hslot, hslotF⟩ : ∃ slot, t.entry P.length = some slot ∧ F slot.flags := by
    have hlt : P.length < (t.regions ++ t.stale).length := by
      simp only [h, hstale, length_append, length_cons]
      omega
    exact ⟨_, getElem?_eq_getElem hlt, hF _ (getElem_mem hlt)⟩
  set x : MmblkRgn := ⟨base, size, slot.flags⟩
  set t₁ : MmblkType :=
    { regions := P ++ x :: R, stale := stale, totalSize := u64 (t.totalSize + size) }
  have hins : memblockInsertRegion t P.length base size = some t₁ := by
    simp [memblockInsertRegion, hstale, hslot, h, t₁, x]
  have hmax₁ : t₁.max = t.max := by
    simp only [MmblkType.max, t₁, h, hstale, length_append, length_cons]
    omega
  have hw₁ : t₁.Words := by
    refine ⟨u64_lt _, fun r hr => ?_⟩
    simp only [t₁, mem_append, mem_cons] at hr
    rcases hr with hP | rfl | hR
    · exact hw.2 r (by simp [h, hP])
    · exact hsize
    · exact hw.2 r (by simp [h, hR])
  have hF₁ : t₁.FlagsIn F := by
    intro e' he'
    simp only [t₁, mem_append, mem_cons] at he'
    rcases he' with (hP | rfl | hR) | hs
    · exact hF e' (by simp [h, hP])
    · exact hslotF
    · exact hF e' (by simp [h, hR])
    · exact hF e' (by simp [hstale, hs])
  -- split the list where the window starts
  have hsplit : t₁.regions = P.take (P.length - 2) ++ ((P.drop (P.length - 2) ++ [x]) ++ R) := by
    simp only [t₁, append_assoc, cons_append, nil_append]
    rw [← append_assoc, take_append_drop]
  have hlen : (P.take (P.length - 2)).length = P.length - 2 := by simp
  have hn : min P.length 2 < (P.drop (P.length - 2) ++ [x]).length := by simp; omega
  have hcnt : P.length < t₁.cnt := by simp [cnt, t₁]
  obtain ⟨h1, h2, h3, h4⟩ := mergeLoop_spec (min P.length 2) hsplit
    (by rw [length_append]; omega) hw₁ hF₁
  refine ⟨t₁, slot.flags, hins, hslotF, ?_⟩
  rw [simpleMmblkMergeRgn_window hcnt (hmax₁ ▸ hmax)]
  rw [hlen] at h1 h2 h3 h4
  refine ⟨?_, h2.trans hmax₁, h3, h4, ?_⟩
  · rw [h1, mergeList_append R hn, ← append_assoc]
    rfl
  · refine ⟨h3 ▸ u64_lt _, ?_⟩
    rw [h1]
    have hall := hw₁.2
    rw [hsplit] at hall
    exact forall_mem_append.2 ⟨(forall_mem_append.1 hall).1,
      mergeList_words (forall_mem_append.1 hall).2⟩

/-! ## The rounds of the loop -/

section addRangeLoop

variable {F : Nat → Prop} {t : MmblkType} {P R : List MmblkRgn} {r : MmblkRgn}
  {base end_ fuel : Nat}

theorem addRangeLoop_skip (base end_ fuel : Nat) {A : List MmblkRgn} (h : t.regions = A ++ (P ++ R))
    (hP : ∀ p ∈ P, p.end_ ≤ base) :
    addRangeLoop (P.length + fuel) t A.length base end_ =
      addRangeLoop fuel t (A.length + P.length) base end_ := by
  induction P generalizing A with
  | nil => simp
  | cons p P ih =>
    rw [forall_mem_cons] at hP
    have hentry : t.entry A.length = some p := by simp [entry, h]
    have hcnt : t.cnt = A.length + (P.length + R.length + 1) := by simp [cnt, h]
    have hlt : A.length < t.cnt + 1 := by omega
    have hne : A.length ≠ t.cnt := by omega
    have hrec := ih (A := A ++ [p]) (by simp [h]) hP.2
    rw [length_append, length_singleton] at hrec
    rw [length_cons, Nat.add_right_comm, addRangeLoop, if_neg (not_not.2 hlt), hentry]
    simp only [Option.bind_eq_bind, Option.bind_some, hP.1, hne, ne_eq, not_false_iff, and_self,
      if_true]
    rw [hrec]
    congr 1
    omega

/-- The range, or what is left of it, ends before the next region: it is inserted whole and the loop
is done. -/
theorem addRangeLoop_last (fuel : Nat) (ht : t.Valid F) (hroom : t.cnt < t.max) (h : t.regions = P ++ R)
    (hR : ∀ r ∈ R.head?, base < r.end_ ∧ end_ ≤ r.base) :
    ∃ t' flags, addRangeLoop (fuel + 1) t P.length base end_ = some t' ∧ F flags ∧
      Replaced F t t' (pushMerge P ⟨base, u64Sub end_ base, flags⟩ ++ R) (u64Sub end_ base) := by
  obtain ⟨t₁, flags, hins, hflags, hrep⟩ := insert_merge_spec base ht hroom h (u64Sub_lt end_ base)
  refine ⟨_, flags, ?_, hflags, hrep⟩
  have hcnt : t.cnt = P.length + R.length := by simp [cnt, h]
  have hlt : P.length < t.cnt + 1 := by omega
  obtain ⟨e, hentry, hnot, hlast⟩ : ∃ e, t.entry P.length = some e ∧
      ¬ (e.end_ ≤ base ∧ P.length ≠ t.cnt) ∧ (P.length = t.cnt ∨ end_ ≤ e.base) := by
    cases R with
    | nil =>
      have hlt' : P.length < (t.regions ++ t.stale).length := by
        simp only [MmblkType.cnt, MmblkType.max, h, length_append] at hroom ⊢
        omega
      have hidx : P.length = t.cnt := by simpa using hcnt.symm
      exact ⟨_, getElem?_eq_getElem hlt', fun hc => hc.2 hidx, .inl hidx⟩
    | cons r R =>
      obtain ⟨h1, h2⟩ := hR r rfl
      exact ⟨r, by simp [entry, h], fun hc => by omega, .inr h2⟩
  simp only [addRangeLoop, not_not.2 hlt, if_false, hentry, Option.bind_eq_bind, Option.bind_some,
    hnot, if_pos hlast, hins, Nat.le_refl, if_true]

/-- The next region `r` reaches into the range: the part below it is inserted, and the loop goes on
behind `r` unless `r` covers the rest. -/
theorem addRangeLoop_cut (fuel : Nat) (ht : t.Valid F) (hroom : t.cnt < t.max)
    (h : t.regions = P ++ r :: R) (hr : base < r.end_) (hb : r.base < end_) :
    ∃ t' flags, F flags ∧
      Replaced F t t' (pushMerge P ⟨base, u64Sub r.base base, flags⟩ ++ r :: R)
        (u64Sub r.base base) ∧
      addRangeLoop (fuel + 1) t P.length base end_ =
        if end_ ≤ r.end_ then some t'
        else addRangeLoop fuel t' (P.length + 1) r.end_ end_ := by
  obtain ⟨t₁, flags, hins, hflags, hrep⟩ :=
    insert_merge_spec base ht hroom h (u64Sub_lt r.base base)
  refine ⟨_, flags, hflags, hrep, ?_⟩
  have hcnt : t.cnt = P.length + (R.length + 1) := by simp [cnt, h]
  have hlt : P.length < t.cnt + 1 := by omega
  have hentry : t.entry P.length = some r := by simp [entry, h]
  have hnot : ¬ (r.end_ ≤ base ∧ P.length ≠ t.cnt) := fun hc => by omega
  have hlast : ¬ (P.length = t.cnt ∨ end_ ≤ r.base) := by omega
  simp only [addRangeLoop, not_not.2 hlt, if_false, hentry, Option.bind_eq_bind, Option.bind_some,
    hnot, if_neg hlast, hins]

theorem addRangeLoop_room {t' : MmblkType} (h : t.regions = P ++ R)
    (hR : ∀ r ∈ R.head?, base < r.end_)
    (hsome : addRangeLoop (fuel + 1) t P.length base end_ = some t') : t.cnt < t.max := by
  by_contra hfull
  have hstale : t.stale = [] := by
    simp only [MmblkType.cnt, MmblkType.max] at hfull
    exact eq_nil_of_length_eq_zero (by omega)
  have hcnt : t.cnt = P.length + R.length := by simp [MmblkType.cnt, h]
  have hlt : P.length < t.cnt + 1 := by omega
  cases R with
  | nil =>
    have hentry : t.entry P.length = none := by simp [entry, h, hstale]
    simp [addRangeLoop, hlt, hentry] at hsome
  | cons r R =>
    have hentry : t.entry P.length = some r := by simp [entry, h]
    have hnot : ¬ (r.end_ ≤ base ∧ P.length ≠ t.cnt) := fun hc => by
      have := hR r rfl
      omega
    simp [addRangeLoop, hlt, hentry, hnot, memblockInsertRegion, hstale] at hsome

end addRangeLoop

/-! ## The whole call -/

theorem length_mergeList_le (n : Nat) (l : List MmblkRgn) : (mergeList n l).length ≤ l.length := by
  induction n generalizing l with
  | zero => simp [mergeList]
  | succ n ih =>
    rcases l with _ | ⟨p, _ | ⟨q, l⟩⟩
    · simp [mergeList]
    · simp [mergeList]
    · rw [mergeList]
      split
      · exact (ih _).trans (by simp)
      · simpa using ih (q :: l)

theorem length_pushMerge_le (P : List MmblkRgn) (x : MmblkRgn) :
    (pushMerge P x).length ≤ P.length + 1 := by
  have := length_mergeList_le (min P.length 2) (P.drop (P.length - 2) ++ [x])
  simp only [pushMerge, length_append, length_take, length_drop, length_singleton] at this ⊢
  omega

section addRange

variable {F : Nat → Prop} {t t' : MmblkType} {P R : List MmblkRgn} {r : MmblkRgn}
  {base size : Nat}

/-- The call enters the loop at the first region that ends above `base`. -/
theorem simpleMmblkAddRange_skip (hsize : 0 < size) (hend : base + size ≤ physAddrMax)
    (h : t.regions = P ++ R) (hP : ∀ p ∈ P, p.end_ ≤ base) :
    simpleMmblkAddRange t base size =
      addRangeLoop (R.length + t.stale.length + 2) t P.length base (base + size) := by
  have hmax : physAddrMax = 2 ^ 64 - 1 := rfl
  have hcap : memblockCapSize base size = size := by
    rw [memblockCapSize, u64Sub_of_le (by omega) (by omega)]
    omega
  have hfuel : t.max + 2 = P.length + (R.length + t.stale.length + 2) := by
    simp only [MmblkType.max, h, length_append]
    omega
  have hskip := addRangeLoop_skip base (base + size) (R.length + t.stale.length + 2)
    (A := []) (by simpa using h) hP
  simp only [simpleMmblkAddRange, hcap, Nat.ne_of_gt hsize, if_false,
    u64_of_lt (show base + size < 2 ^ 64 by omega), hfuel]
  simpa using hskip

/-- The call when the range reaches behind the first region `r` that ends above `base`, and the
first merge took away at most one region: the loop goes on behind `r`. -/
theorem simpleMmblkAddRange_pass (hsize : 0 < size) (hend : base + size ≤ physAddrMax)
    (ht : t.Valid F) (hroom : t.cnt < t.max) (h : t.regions = P ++ r :: R)
    (hP : ∀ p ∈ P, p.end_ ≤ base) (hr : base < r.end_) (hb : r.base < base + size)
    (hgo : r.end_ < base + size)
    (hlen : ∀ flags, F flags → P.length ≤ (pushMerge P ⟨base, u64Sub r.base base, flags⟩).length) :
    ∃ t₁ flags fuel, F flags ∧ R.length ≤ fuel ∧
      Replaced F t t₁ (pushMerge P ⟨base, u64Sub r.base base, flags⟩ ++ r :: R)
        (u64Sub r.base base) ∧
      simpleMmblkAddRange t base size = addRangeLoop (fuel + 1) t₁
        (pushMerge P ⟨base, u64Sub r.base base, flags⟩ ++ [r]).length r.end_ (base + size) := by
  obtain ⟨t₁, flags, hflags, hrep, hloop⟩ := addRangeLoop_cut
    (R.length + t.stale.length + 2) ht hroom h hr hb
  have hcall := simpleMmblkAddRange_skip hsize hend h hP
  rw [length_cons, show R.length + 1 + t.stale.length + 2 = R.length + t.stale.length + 2 + 1
    by omega, hloop, if_neg (Nat.not_le_of_lt hgo)] at hcall
  specialize hlen flags hflags
  have hle := length_pushMerge_le P ⟨base, u64Sub r.base base, flags⟩
  set Q := pushMerge P ⟨base, u64Sub r.base base, flags⟩
  rcases Nat.lt_or_ge P.length Q.length with hlt | hge
  · -- nothing was merged, the index points at `r` itself
    have hidx : P.length + 1 = Q.length := by omega
    have hskip := addRangeLoop_skip r.end_ (base + size) (R.length + t.stale.length + 1)
      (t := t₁) (A := Q) (P := [r]) (R := R) (by simp [hrep.regions]) (by simp)
    refine ⟨t₁, flags, R.length + t.stale.length, hflags, by omega, hrep, ?_⟩
    rw [hcall, hidx, length_append, ← hskip]
    congr 1
    simp only [length_singleton]
    omega
  · refine ⟨t₁, flags, R.length + t.stale.length + 1, hflags, by omega, hrep, ?_⟩
    have hidx : P.length = Q.length := by omega
    rw [hcall, length_append, length_singleton, hidx]

end addRange

end MyOS2.Memblock
