import MyOS2.Misc.Runs
import MyOS2.Mm.Early.Proofs.AddRange
import Mathlib.Data.List.TakeWhile

/-!
# Which addresses the regions cover

Merging neighbours changes neither the covered addresses nor the order of the regions, and
inserting a piece into a gap adds exactly that piece. So a call covers the union whenever its
pieces lie in gaps and make up the missing part of the range. That fails in two ways: when the
range starts inside a region the size of the first piece wraps, and when merging has moved the
array under the loop index the rest of the range can be skipped.
-/

namespace MyOS2.Memblock

open List

/-- The address `a` lies in one of the regions. -/
def Covers (rs : List MmblkRgn) (a : Nat) : Prop := ∃ r ∈ rs, r.base ≤ a ∧ a < r.base + r.size

/-- Regions below `PHYS_ADDR_MAX`, in order and disjoint, that cover exactly the addresses in `cov`.
-/
structure Fits (cov : Nat → Prop) (rs : List MmblkRgn) : Prop where
  bounded : ∀ r ∈ rs, r.base + r.size ≤ physAddrMax
  sorted : rs.Pairwise fun p q => p.base + p.size ≤ q.base
  covers : ∀ a, Covers rs a ↔ cov a

theorem MmblkRgn.end_of_le {r : MmblkRgn} (h : r.base + r.size ≤ physAddrMax) :
    r.end_ = r.base + r.size :=
  u64_of_lt (Nat.lt_of_le_of_lt h (by norm_num [physAddrMax]))

@[simp] theorem covers_append {l₁ l₂ : List MmblkRgn} {a : Nat} :
    Covers (l₁ ++ l₂) a ↔ Covers l₁ a ∨ Covers l₂ a := by
  simp only [Covers, mem_append, or_and_right, exists_or]

@[simp] theorem covers_cons {r : MmblkRgn} {l : List MmblkRgn} {a : Nat} :
    Covers (r :: l) a ↔ (r.base ≤ a ∧ a < r.base + r.size) ∨ Covers l a := by
  simp [Covers]

namespace Fits

variable {cov : Nat → Prop} {A P R l : List MmblkRgn} {p q x : MmblkRgn}

theorem glue_eq (h : Fits cov (A ++ p :: q :: l)) (hg : Gluable p q) :
    p.base + p.size = q.base ∧ glue p q = ⟨p.base, p.size + q.size, p.flags⟩ := by
  have hp := h.bounded p (by simp)
  have hq := h.bounded q (by simp)
  have htouch : p.base + p.size = q.base := (MmblkRgn.end_of_le hp).symm.trans hg.1
  refine ⟨htouch, ?_⟩
  have hmax : physAddrMax = 2 ^ 64 - 1 := rfl
  rw [glue, u64_of_lt (by omega)]

theorem glue (h : Fits cov (A ++ p :: q :: l)) (hg : Gluable p q) :
    Fits cov (A ++ glue p q :: l) := by
  obtain ⟨htouch, he⟩ := h.glue_eq hg
  have hb := h.bounded
  have hs := h.sorted
  rw [he]
  refine ⟨?_, ?_, fun a => ?_⟩
  · simp only [forall_mem_append, forall_mem_cons] at hb ⊢
    exact ⟨hb.1, by omega, hb.2.2.2⟩
  · simp only [pairwise_append, pairwise_cons, forall_mem_cons] at hs ⊢
    obtain ⟨hA, ⟨⟨-, hpl⟩, hql, hl⟩, hcross⟩ := hs
    refine ⟨hA, ⟨fun r hr => ?_, hl⟩, fun r hr => ⟨(hcross r hr).1, (hcross r hr).2.2⟩⟩
    have := hql r hr
    omega
  · rw [← h.covers a]
    simp only [covers_append, covers_cons]
    have hsplit : (p.base ≤ a ∧ a < p.base + (p.size + q.size)) ↔
        (p.base ≤ a ∧ a < p.base + p.size) ∨ (q.base ≤ a ∧ a < q.base + q.size) := by omega
    rw [hsplit, or_assoc]

theorem mergeList {n : Nat} (h : Fits cov (A ++ l)) : Fits cov (A ++ mergeList n l) := by
  induction n generalizing A l with
  | zero => simpa [Memblock.mergeList] using h
  | succ n ih =>
    rcases l with _ | ⟨p, _ | ⟨q, l⟩⟩
    · simpa [Memblock.mergeList] using h
    · simpa [Memblock.mergeList] using h
    · rw [Memblock.mergeList]
      split
      · next hg => exact ih (h.glue hg)
      · have := ih (A := A ++ [p]) (l := q :: l) (by simpa using h)
        simpa using this

section

variable (h : Fits cov (P ++ R))
include h

section

variable (hx : x.base + x.size ≤ physAddrMax) (hP : ∀ p ∈ P, p.base + p.size ≤ x.base)
  (hR : ∀ r ∈ R, x.base + x.size ≤ r.base)
include hx hP hR

theorem insert : Fits (fun a => cov a ∨ (x.base ≤ a ∧ a < x.base + x.size)) (P ++ x :: R) := by
  have hb := h.bounded
  have hs := h.sorted
  refine ⟨?_, ?_, fun a => ?_⟩
  · simp only [forall_mem_append, forall_mem_cons] at hb ⊢
    exact ⟨hb.1, hx, hb.2⟩
  · simp only [pairwise_append, pairwise_cons, forall_mem_cons] at hs ⊢
    exact ⟨hs.1, ⟨hR, hs.2.1⟩, fun p hp => ⟨hP p hp, hs.2.2 p hp⟩⟩
  · rw [← h.covers a]
    simp only [covers_append, covers_cons]
    tauto

theorem pushMerge :
    Fits (fun a => cov a ∨ (x.base ≤ a ∧ a < x.base + x.size)) (pushMerge P x ++ R) := by
  have hins := h.insert hx hP hR
  have hsplit : P ++ x :: R = P.take (P.length - 2) ++ ((P.drop (P.length - 2) ++ [x]) ++ R) := by
    rw [← append_assoc, ← append_assoc, take_append_drop]
    simp
  rw [hsplit] at hins
  have hn : min P.length 2 < (P.drop (P.length - 2) ++ [x]).length := by simp; omega
  have := hins.mergeList (n := min P.length 2)
  rwa [mergeList_append R hn, ← append_assoc] at this

end

theorem le_base_of_head {e : Nat} (hR : ∀ r ∈ R.head?, e ≤ r.base) : ∀ r ∈ R, e ≤ r.base := by
  cases R with
  | nil => simp
  | cons r R =>
    have hr : e ≤ r.base := hR r rfl
    have hs := (pairwise_append.1 h.sorted).2.1
    rw [pairwise_cons] at hs
    refine forall_mem_cons.2 ⟨hr, fun r' hr' => ?_⟩
    have := hs.1 r' hr'
    omega

/-- Inserting the piece `[base, e)` behind `P`, with the size the code computes. -/
theorem pushMerge_piece {base e : Nat} (flags : Nat) (hle : base ≤ e)
    (he : e ≤ physAddrMax) (hP : ∀ p ∈ P, p.end_ ≤ base) (hR : ∀ r ∈ R.head?, e ≤ r.base) :
    Fits (fun a => cov a ∨ (base ≤ a ∧ a < e))
      (Memblock.pushMerge P ⟨base, u64Sub e base, flags⟩ ++ R) := by
  have hmax : physAddrMax = 2 ^ 64 - 1 := rfl
  have hsub : u64Sub e base = e - base := u64Sub_of_le (by omega) hle
  have hsum : base + (e - base) = e := Nat.add_sub_of_le hle
  have hP' : ∀ p ∈ P, p.base + p.size ≤ base := fun p hp => by
    rw [← MmblkRgn.end_of_le (h.bounded p (by simp [hp]))]
    exact hP p hp
  have hpush := h.pushMerge (x := ⟨base, e - base, flags⟩) (by simpa only [hsum] using he) hP'
    (by simpa only [hsum] using h.le_base_of_head hR)
  simp only [hsum] at hpush
  rwa [hsub]

end

theorem congr {cov' : Nat → Prop} (h : Fits cov l) (hc : ∀ a, cov a ↔ cov' a) : Fits cov' l :=
  ⟨h.bounded, h.sorted, fun a => (h.covers a).trans (hc a)⟩

end Fits

/-! ## When a call covers the union -/

theorem glue_end {p q : MmblkRgn} (h : Gluable p q) : (glue p q).end_ = q.end_ := by
  have h1 : u64 (p.base + p.size) = q.base := h.1
  unfold MmblkRgn.end_ glue
  unfold u64 at *
  simp only
  omega

theorem length_le_mergeList (n : Nat) (l : List MmblkRgn) :
    l.length ≤ (mergeList n l).length + n := by
  induction n generalizing l with
  | zero => simp [mergeList]
  | succ n ih =>
    rcases l with _ | ⟨p, _ | ⟨q, l⟩⟩
    · simp [mergeList]
    · simp [mergeList]
    · rw [mergeList]
      split
      · have := ih (glue p q :: l)
        simp only [length_cons] at this ⊢
        omega
      · have := ih (q :: l)
        simp only [length_cons] at this ⊢
        omega

/-- The last two regions of `P` touch each other and the second ends at `base`. -/
def ChainTo (P : List MmblkRgn) (base : Nat) : Prop :=
  ∃ A p q, P = A ++ [p, q] ∧ p.end_ = q.base ∧ q.end_ = base

/-- Inserting behind `P` merges away at most one region, unless `P` ends in a chain of two that
reaches up to the new one. -/
theorem length_le_pushMerge {P : List MmblkRgn} {x : MmblkRgn} (h : ¬ ChainTo P x.base) :
    P.length ≤ (pushMerge P x).length := by
  rcases P.eq_nil_or_concat' with rfl | ⟨P, q, rfl⟩
  · simp
  rcases P.eq_nil_or_concat' with rfl | ⟨A, p, rfl⟩
  · have := length_le_mergeList 1 [q, x]
    simp only [pushMerge, nil_append, length_singleton] at this ⊢
    simpa using this
  · have hwin : pushMerge (A ++ [p] ++ [q]) x = A ++ mergeList 2 [p, q, x] := by
      simp [pushMerge]
    have hlen : 2 ≤ (mergeList 2 [p, q, x]).length := by
      by_cases hpq : Gluable p q
      · have hx : ¬ Gluable (glue p q) x := fun hg =>
          h ⟨A, p, q, by simp, hpq.1, (glue_end hpq).symm.trans hg.1⟩
        simp [mergeList, hpq, hx]
      · have := length_le_mergeList 1 [q, x]
        rw [mergeList, if_neg hpq]
        simpa using this
    rw [hwin]
    simp only [length_append, length_singleton]
    omega

/-- The regions that end at or below `base`, which the loop passes over. -/
def endedBy (base : Nat) (rs : List MmblkRgn) : List MmblkRgn :=
  rs.takeWhile fun r => r.end_ ≤ base

def endingAfter (base : Nat) (rs : List MmblkRgn) : List MmblkRgn :=
  rs.dropWhile fun r => r.end_ ≤ base

/-- The range `[base, end)` ends before the first region `r` that ends above `base`, or it does not
start inside `r`, and if it reaches behind `r` the loop index stays right: the first insertion
merges away at most one region, and the range does not reach behind the next one. -/
def CoverOk (rs : List MmblkRgn) (base end_ : Nat) : Prop :=
  match endingAfter base rs with
  | [] => True
  | r :: R =>
    end_ ≤ r.base ∨
    (base ≤ r.base ∧
      (end_ ≤ r.end_ ∨
        (¬ ChainTo (endedBy base rs) base ∧
          ∀ r' ∈ (endingAfter r.end_ R).head?, end_ ≤ r'.base ∨ end_ ≤ r'.end_)))

section

variable (base : Nat) (rs : List MmblkRgn)

theorem endedBy_append_endingAfter : endedBy base rs ++ endingAfter base rs = rs :=
  takeWhile_append_dropWhile ..

theorem end_le_of_mem_endedBy : ∀ p ∈ endedBy base rs, p.end_ ≤ base := fun p hp => by
  simpa using mem_takeWhile_imp hp

theorem lt_end_of_mem_head_endingAfter :
    ∀ r ∈ (endingAfter base rs).head?, base < r.end_ := fun r hr => by
  have := head?_dropWhile_not (fun r : MmblkRgn => decide (r.end_ ≤ base)) rs
  rw [endingAfter] at hr
  rw [Option.mem_def.1 hr] at this
  simpa using this

end

section addRange

variable {F : Nat → Prop} {cov : Nat → Prop} {t t' : MmblkType} {P R : List MmblkRgn}
  {r : MmblkRgn} {base size end_ fuel : Nat}

/-- What a finished call leaves: the same array, covering the range as well. -/
structure Covered (F : Nat → Prop) (cov : Nat → Prop) (t t' : MmblkType) : Prop where
  valid : t'.Valid F
  fits : Fits cov t'.regions
  max : t'.max = t.max

/-- The loop stands behind `P`, and what is left of the range ends below the next region. -/
theorem addRangeLoop_covered_gap (hv : t.Valid F) (hroom : t.cnt < t.max)
    (h : t.regions = P ++ R) (hfit : Fits cov (P ++ R)) (hle : base ≤ end_)
    (hend : end_ ≤ physAddrMax) (hP : ∀ p ∈ P, p.end_ ≤ base)
    (hR : ∀ r ∈ R.head?, base < r.end_ ∧ end_ ≤ r.base) :
    ∃ t', addRangeLoop (fuel + 1) t P.length base end_ = some t' ∧
      Covered F (fun a => cov a ∨ (base ≤ a ∧ a < end_)) t t' := by
  obtain ⟨t', flags, hloop, -, hrep⟩ := addRangeLoop_last fuel hv hroom h hR
  refine ⟨t', hloop, hrep.valid hv, ?_, hrep.max⟩
  rw [hrep.regions]
  exact hfit.pushMerge_piece flags hle hend hP fun r hr => (hR r hr).2

/-- The loop stands behind `P`, and the next region starts inside what is left of the range and
covers the rest of it. -/
theorem addRangeLoop_covered_cut (hv : t.Valid F) (hroom : t.cnt < t.max)
    (h : t.regions = P ++ r :: R) (hfit : Fits cov (P ++ r :: R)) (hle : base ≤ r.base)
    (hP : ∀ p ∈ P, p.end_ ≤ base) (hr : base < r.end_) (hb : r.base < end_)
    (he : end_ ≤ r.end_) :
    ∃ t', addRangeLoop (fuel + 1) t P.length base end_ = some t' ∧
      Covered F (fun a => cov a ∨ (base ≤ a ∧ a < end_)) t t' := by
  obtain ⟨t', flags, -, hrep, hloop⟩ := addRangeLoop_cut fuel hv hroom h hr hb
  rw [if_pos he] at hloop
  refine ⟨t', hloop, hrep.valid hv, ?_, hrep.max⟩
  have hbound := hfit.bounded r (by simp)
  rw [MmblkRgn.end_of_le hbound] at he
  rw [hrep.regions]
  refine (hfit.pushMerge_piece flags hle (by omega) hP (by simp)).congr fun a => ?_
  have hcov : r.base ≤ a ∧ a < r.base + r.size → cov a := fun ha =>
    (hfit.covers a).1 ⟨r, by simp, ha⟩
  constructor
  · rintro (hc | hc)
    · exact .inl hc
    · exact .inr (by omega)
  · rintro (hc | hc)
    · exact .inl hc
    · rcases Nat.lt_or_ge a r.base with hlt | hge
      · exact .inr (by omega)
      · exact .inl (hcov (by omega))

/-- The loop stands behind `P`, and what is left of the range neither starts inside the next region
nor reaches behind it. -/
theorem addRangeLoop_covered (fuel : Nat) (hv : t.Valid F) (h : t.regions = P ++ R)
    (hfit : Fits cov t.regions) (hle : base ≤ end_) (hend : end_ ≤ physAddrMax)
    (hP : ∀ p ∈ P, p.end_ ≤ base) (hR : ∀ r ∈ R.head?, base < r.end_)
    (hok : ∀ r ∈ R.head?, end_ ≤ r.base ∨ (base ≤ r.base ∧ end_ ≤ r.end_)) :
    (t.cnt < t.max → (addRangeLoop (fuel + 1) t P.length base end_).isSome) ∧
    ∀ t', addRangeLoop (fuel + 1) t P.length base end_ = some t' →
      Covered F (fun a => cov a ∨ (base ≤ a ∧ a < end_)) t t' := by
  rw [h] at hfit
  have key : t.cnt < t.max → ∃ t', addRangeLoop (fuel + 1) t P.length base end_ = some t' ∧
      Covered F (fun a => cov a ∨ (base ≤ a ∧ a < end_)) t t' := by
    intro hroom
    cases R with
    | nil => exact addRangeLoop_covered_gap hv hroom h hfit hle hend hP (by simp)
    | cons r R =>
      simp only [head?_cons, Option.mem_some_iff, forall_eq'] at hR hok
      by_cases hb : r.base < end_
      · obtain ⟨hbase, he⟩ := hok.resolve_left (Nat.not_le_of_lt hb)
        exact addRangeLoop_covered_cut hv hroom h hfit hbase hP hR hb he
      · exact addRangeLoop_covered_gap hv hroom h hfit hle hend hP (by simpa using ⟨hR, by omega⟩)
  refine ⟨fun hroom => ?_, fun t' ht' => ?_⟩
  · obtain ⟨t', ht', -⟩ := key hroom
    simp [ht']
  · obtain ⟨t₁, ht₁, hcov⟩ := key (addRangeLoop_room h hR ht')
    rw [ht₁] at ht'
    exact Option.some.inj ht' ▸ hcov

section

variable (hv : t.Valid F) (h : t.regions = P ++ r :: R) (hfit : Fits cov (P ++ r :: R))
include hv h hfit

/-- The loop stands right behind the region `r`, at whose end the rest of the range starts. Empty
regions there are passed over. -/
theorem addRangeLoop_covered_behind (hfuel : R.length ≤ fuel) (hle : r.end_ ≤ end_)
    (hend : end_ ≤ physAddrMax)
    (hnext : ∀ r' ∈ (endingAfter r.end_ R).head?, end_ ≤ r'.base ∨ end_ ≤ r'.end_) :
    (t.cnt < t.max → (addRangeLoop (fuel + 1) t (P.length + 1) r.end_ end_).isSome) ∧
    ∀ t', addRangeLoop (fuel + 1) t (P.length + 1) r.end_ end_ = some t' →
      Covered F (fun a => cov a ∨ (r.end_ ≤ a ∧ a < end_)) t t' := by
  have hR := (endedBy_append_endingAfter r.end_ R).symm
  have hZ := end_le_of_mem_endedBy r.end_ R
  have hR' := lt_end_of_mem_head_endingAfter r.end_ R
  generalize endedBy r.end_ R = Z at *
  generalize endingAfter r.end_ R = R' at *
  have hlen : R.length = Z.length + R'.length := by rw [hR, length_append]
  have hreg : t.regions = (P ++ [r] ++ Z) ++ R' := by rw [h, hR]; simp
  have hskip := addRangeLoop_skip r.end_ end_ (fuel - Z.length + 1) (A := P ++ [r])
    (by rw [hreg, append_assoc]) hZ
  rw [show Z.length + (fuel - Z.length + 1) = fuel + 1 by omega,
    ← length_append, length_append, length_singleton] at hskip
  have hre : r.end_ = r.base + r.size := MmblkRgn.end_of_le (hfit.bounded r (by simp))
  obtain ⟨-, hsR, hcross⟩ := pairwise_append.1 hfit.sorted
  rw [pairwise_cons] at hsR
  have hended : ∀ p ∈ P ++ [r] ++ Z, p.end_ ≤ r.end_ := by
    simp only [forall_mem_append, forall_mem_singleton, Nat.le_refl]
    refine ⟨⟨fun p hp => ?_, trivial⟩, hZ⟩
    have := hcross p hp r (by simp)
    rw [MmblkRgn.end_of_le (hfit.bounded p (by simp [hp]))]
    omega
  have hbase : ∀ r' ∈ R'.head?, r.end_ ≤ r'.base := fun r' hr' => by
    rw [hre]
    exact hsR.1 r' (hR ▸ mem_append_right _ (mem_of_mem_head? hr'))
  rw [hskip]
  exact addRangeLoop_covered (fuel - Z.length) hv hreg (h ▸ hfit) hle hend hended hR' fun r' hr' =>
      (hnext r' hr').imp_right fun he => ⟨hbase r' hr', he⟩

/-- A call whose range reaches behind the region `r`: the part below `r` is inserted first, the part
behind `r` next. -/
theorem addRange_covered_pass (hsize : 0 < size) (hend : base + size ≤ physAddrMax)
    (hP : ∀ p ∈ P, p.end_ ≤ base) (hr : base < r.end_) (hle : base ≤ r.base)
    (hgo : r.end_ < base + size) (hchain : ¬ ChainTo P base)
    (hnext : ∀ r' ∈ (endingAfter r.end_ R).head?, base + size ≤ r'.base ∨ base + size ≤ r'.end_)
    (hroom : t.cnt < t.max) :
    (t.cnt + 2 ≤ t.max → (simpleMmblkAddRange t base size).isSome) ∧
    ∀ t', simpleMmblkAddRange t base size = some t' →
      Covered F (fun a => cov a ∨ (base ≤ a ∧ a < base + size)) t t' := by
  have hbound := hfit.bounded r (by simp)
  have hre : r.end_ = r.base + r.size := MmblkRgn.end_of_le hbound
  obtain ⟨t₁, flags, fuel, -, hfuel, hrep, hloop⟩ :=
    simpleMmblkAddRange_pass hsize hend hv hroom h hP hr (by omega) hgo
      fun flags _ => length_le_pushMerge (by exact hchain)
  have hfit₁ := hfit.pushMerge_piece flags hle (by omega) hP (by simp)
  have hlen := length_pushMerge_le P ⟨base, u64Sub r.base base, flags⟩
  set Q := pushMerge P ⟨base, u64Sub r.base base, flags⟩
  rw [length_append, length_singleton] at hloop
  rw [hloop]
  obtain ⟨hsome, hcov⟩ :=
    addRangeLoop_covered_behind (hrep.valid hv) hrep.regions hfit₁ hfuel hgo.le hend hnext
  refine ⟨fun hroom₂ => hsome ?_, fun t' ht' => ?_⟩
  · have hcnt : t.cnt = P.length + (R.length + 1) := by simp [MmblkType.cnt, h]
    have hcnt₁ : t₁.cnt = Q.length + (R.length + 1) := by simp [MmblkType.cnt, hrep.regions]
    rw [hrep.max]
    omega
  · obtain ⟨hv', hfit', hmax'⟩ := hcov t' ht'
    refine ⟨hv', hfit'.congr fun a => ?_, hmax'.trans hrep.max⟩
    -- `r` itself covers what lies between the two parts
    have hrcov : r.base ≤ a ∧ a < r.base + r.size → cov a := fun ha =>
      (hfit.covers a).1 ⟨r, by simp, ha⟩
    constructor
    · rintro ((hc | hc) | hc)
      · exact .inl hc
      · exact .inr (by omega)
      · exact .inr (by omega)
    · rintro (hc | hc)
      · exact .inl (.inl hc)
      · by_cases h1 : a < r.base
        · exact .inl (.inr (by omega))
        · by_cases h2 : a < r.end_
          · exact .inl (.inl (hrcov (by omega)))
          · exact .inr (by omega)

end

/-- A call that meets `CoverOk` adds exactly its range to the covered addresses. It returns when the
array has room for two more regions. -/
theorem simpleMmblkAddRange_covered (hv : t.Valid F) (hfit : Fits cov t.regions)
    (hsize : 0 < size) (hend : base + size ≤ physAddrMax)
    (hok : CoverOk t.regions base (base + size)) :
    (t.cnt + 2 ≤ t.max → (simpleMmblkAddRange t base size).isSome) ∧
    ∀ t', simpleMmblkAddRange t base size = some t' →
      Covered F (fun a => cov a ∨ (base ≤ a ∧ a < base + size)) t t' := by
  have h := (endedBy_append_endingAfter base t.regions).symm
  have hP := end_le_of_mem_endedBy base t.regions
  have hR := lt_end_of_mem_head_endingAfter base t.regions
  have hcall := simpleMmblkAddRange_skip hsize hend h hP
  unfold CoverOk at hok
  generalize endedBy base t.regions = P at *
  generalize endingAfter base t.regions = R at *
  by_cases hstop : ∀ r ∈ R.head?, base + size ≤ r.base ∨ (base ≤ r.base ∧ base + size ≤ r.end_)
  · obtain ⟨hsome, hcov⟩ := addRangeLoop_covered (R.length + t.stale.length + 1) hv h hfit
      (by omega) hend hP hR hstop
    rw [hcall]
    exact ⟨fun hroom => hsome (by omega), hcov⟩
  · -- the range reaches behind the first region above `base`
    obtain ⟨r, R, rfl⟩ : ∃ r R', R = r :: R' := by
      cases R with
      | nil => simp at hstop
      | cons r R' => exact ⟨r, R', rfl⟩
    simp only [head?_cons, Option.mem_some_iff, forall_eq'] at hR hstop
    simp only [not_or, not_and, Nat.not_le] at hstop
    obtain ⟨hle, hpass⟩ := hok.resolve_left (by omega)
    have hgo := hstop.2 hle
    obtain ⟨hchain, hnext⟩ := hpass.resolve_left (by omega)
    have hpass := addRange_covered_pass hv h (h ▸ hfit) hsize hend hP hR hle hgo hchain hnext
    refine ⟨fun hroom => (hpass (by omega)).1 hroom, fun t' ht' => ?_⟩
    have hroom : t.cnt < t.max := by
      rw [hcall, length_cons] at ht'
      exact addRangeLoop_room h (by simpa using hR) ht'
    exact (hpass hroom).2 t' ht'

end addRange

/-! ## Runs of additions -/

/-- A type together with the ranges `(base, size)` that were added to it. -/
structure AddRun where
  type : MmblkType
  added : List (Nat × Nat)
  deriving DecidableEq

namespace AddRun

def step (s : AddRun) (range : Nat × Nat) : Option (Unit × AddRun) := do
  let type ← simpleMmblkAddRange s.type range.1 range.2
  some ((), { type := type, added := range :: s.added })

def Start (s : AddRun) : Prop := ∃ max, max < 2 ^ 31 ∧ s = ⟨MmblkType.empty max, []⟩

def Ok (_s : AddRun) (range : Nat × Nat) : Prop := range.1 + range.2 ≤ physAddrMax

def CoversUnion (s : AddRun) : Prop :=
  ∀ a, Covers s.type.regions a ↔ ∃ range ∈ s.added, range.1 ≤ a ∧ a < range.1 + range.2

/-- The call stays clear of the wrapping difference and of the shifted index. -/
def KeepsCover (s : AddRun) (range : Nat × Nat) : Prop :=
  range.2 = 0 ∨ CoverOk s.type.regions range.1 (range.1 + range.2)

/-- The regions are valid and cover what was added. -/
structure CoverInv (s : AddRun) : Prop where
  valid : s.type.Valid (· = 0)
  fits : Fits (fun a => ∃ range ∈ s.added, range.1 ≤ a ∧ a < range.1 + range.2) s.type.regions

theorem CoverInv.start {s : AddRun} (h : s.Start) : s.CoverInv := by
  obtain ⟨max, hmax, rfl⟩ := h
  refine ⟨⟨by simpa [MmblkType.empty, MmblkType.max] using hmax, ⟨by norm_num [MmblkType.empty],
    by simp [MmblkType.empty]⟩, ?_⟩, ?_⟩
  · intro e he
    rw [eq_of_mem_replicate he]
  · constructor <;> simp [MmblkType.empty, Covers]

theorem CoverInv.step {s : AddRun} (h : s.CoverInv) {range : Nat × Nat} (hok : s.Ok range)
    (hkeep : s.KeepsCover range) :
    (s.type.cnt + 2 ≤ s.type.max → (s.step range).isSome) ∧
    ∀ r s', s.step range = some (r, s') → s'.CoverInv := by
  obtain ⟨base, size⟩ := range
  rcases Nat.eq_zero_or_pos size with rfl | hsize
  · -- an empty range changes nothing
    have hcall : simpleMmblkAddRange s.type base 0 = some s.type := by
      simp [simpleMmblkAddRange, memblockCapSize]
    refine ⟨fun _ => rfl, ?_⟩
    rintro _ _ ⟨⟩
    refine ⟨h.valid, h.fits.congr fun a => ?_⟩
    simp only [mem_cons, exists_eq_or_imp]
    exact ⟨.inr, fun hc => hc.resolve_left (by omega)⟩
  · obtain ⟨hsome, hcov⟩ := simpleMmblkAddRange_covered h.valid h.fits hsize hok
      (hkeep.resolve_left hsize.ne')
    refine ⟨fun hroom => ?_, fun r s' hs' => ?_⟩
    · obtain ⟨t', ht'⟩ := Option.isSome_iff_exists.1 (hsome hroom)
      simp [AddRun.step, ht']
    · cases ht : simpleMmblkAddRange s.type base size with
      | none => simp [AddRun.step, ht] at hs'
      | some t' =>
        simp only [AddRun.step, ht, Option.bind_eq_bind, Option.bind_some] at hs'
        obtain ⟨⟩ := hs'
        obtain ⟨hv, hfit, -⟩ := hcov t' ht
        refine ⟨hv, hfit.congr fun a => ?_⟩
        simp only [mem_cons, exists_eq_or_imp]
        exact or_comm

/-- In every run whose calls all meet `KeepsCover`, the regions cover exactly what was added, and a
call that finds room for two more regions returns. -/
theorem covers_union {s : AddRun}
    (h : Reachable AddRun.step (fun s range => s.Ok range ∧ s.KeepsCover range) AddRun.Start s) :
    s.CoversUnion ∧ ∀ range, s.Ok range → s.KeepsCover range →
      s.type.cnt + 2 ≤ s.type.max → (s.step range).isSome := by
  have hinv : s.CoverInv := h.invariant (fun _ => CoverInv.start)
    fun s range r s' hinv hok hstep => (hinv.step hok.1 hok.2).2 r s' hstep
  exact ⟨hinv.fits.covers, fun range hok hkeep => (hinv.step hok hkeep).1⟩

/-- Three ranges, the last of them added below the others. -/
theorem covers_union_three_ranges : ∃ s : AddRun,
    s.added = [(0x4000, 0x2000), (0x8000, 0x1000), (0x1000, 0x2000)] ∧ s.CoversUnion := by
  have hfirst : AddRun.step ⟨.empty 6, []⟩ (0x1000, 0x2000) =
      some ((), ⟨⟨[⟨0x1000, 0x2000, 0⟩], replicate 5 ⟨0, 0, 0⟩, 0x2000⟩, [(0x1000, 0x2000)]⟩) := by
    decide +kernel
  have hsecond : AddRun.step ⟨⟨[⟨0x1000, 0x2000, 0⟩], replicate 5 ⟨0, 0, 0⟩, 0x2000⟩,
      [(0x1000, 0x2000)]⟩ (0x8000, 0x1000) = some ((), ⟨⟨[⟨0x1000, 0x2000, 0⟩, ⟨0x8000, 0x1000, 0⟩],
        replicate 4 ⟨0, 0, 0⟩, 0x3000⟩, [(0x8000, 0x1000), (0x1000, 0x2000)]⟩) := by
    decide +kernel
  have hthird : AddRun.step ⟨⟨[⟨0x1000, 0x2000, 0⟩, ⟨0x8000, 0x1000, 0⟩], replicate 4 ⟨0, 0, 0⟩,
      0x3000⟩, [(0x8000, 0x1000), (0x1000, 0x2000)]⟩ (0x4000, 0x2000) = some ((),
        ⟨⟨[⟨0x1000, 0x2000, 0⟩, ⟨0x4000, 0x2000, 0⟩, ⟨0x8000, 0x1000, 0⟩], replicate 3 ⟨0, 0, 0⟩,
          0x5000⟩, [(0x4000, 0x2000), (0x8000, 0x1000), (0x1000, 0x2000)]⟩) := by
    decide +kernel
  have hstart : Reachable AddRun.step (fun s range => s.Ok range ∧ s.KeepsCover range) AddRun.Start
      ⟨.empty 6, []⟩ := .start ⟨6, by norm_num, rfl⟩
  have h₁ := hstart.call ⟨by norm_num [Ok, physAddrMax], .inr trivial⟩ hfirst
  have h₂ := h₁.call ⟨by norm_num [Ok, physAddrMax], .inr (by simp [CoverOk, endingAfter, MmblkRgn.end_, u64])⟩ hsecond
  have h₃ := h₂.call ⟨by norm_num [Ok, physAddrMax], .inr (by simp [CoverOk, endingAfter, MmblkRgn.end_, u64])⟩ hthird
  exact ⟨_, rfl, (covers_union h₃).1⟩

/-- A range that starts inside a region loses the part of the region below it. -/
theorem overlap_loses_head :
    ∃ s₁ s₂, AddRun.step ⟨MmblkType.empty 5, []⟩ (0x1000, 0x2000) = some ((), s₁) ∧
      s₁.step (0x2000, 0x2000) = some ((), s₂) ∧ ¬ s₂.CoversUnion := by
  refine ⟨⟨⟨[⟨0x1000, 0x2000, 0⟩], replicate 4 ⟨0, 0, 0⟩, 0x2000⟩, [(0x1000, 0x2000)]⟩,
    ⟨⟨[⟨0x2000, 0x2000, 0⟩], [⟨0x3000, 0x1000, 0⟩, ⟨0x3000, 0x1000, 0⟩, ⟨0, 0, 0⟩, ⟨0, 0, 0⟩],
      0x2000⟩, [(0x2000, 0x2000), (0x1000, 0x2000)]⟩, by decide +kernel, by decide +kernel,
    fun h => ?_⟩
  have hcov := (h 0x1000).2 ⟨(0x1000, 0x2000), by decide, by decide⟩
  simp [Covers] at hcov

end AddRun

end MyOS2.Memblock
