import MyOS2.Mm.Early.Proofs.Coverage

/-!
# When the regions stay minimal

`simple_mmblk_add_range` is documented to keep the regions minimal. Its merging
window reaches from the inserted piece to the two regions before it and never to
the region behind it, so a range that ends at or inside a region leaves two
neighbours that touch. `MinimalOk` is what remains, and it is exact.
-/

namespace MyOS2.Memblock

open Option List MmblkType Nat

/-- The bytes the regions account for. -/
def sizeSum (rs : List MmblkRgn) : Nat := (rs.map MmblkRgn.size).sum

/-- The documented representation: regions are non-empty, sorted by base, disjoint and do not touch,
and `total_size` is the sum of their sizes. -/
structure Minimal (t : MmblkType) : Prop where
  nonempty : ∀ r ∈ t.regions, 0 < r.size
  apart : t.regions.Pairwise fun p q => p.base + p.size < q.base
  total : t.totalSize = sizeSum t.regions

/-- The range ends below the first region `r` that ends above `base`, or it reaches behind `r` and
ends below the region that follows. -/
def MinimalOk (rs : List MmblkRgn) (base end_ : Nat) : Prop :=
  match endingAfter base rs with
  | [] => True
  | r :: R => end_ < r.base ∨ (r.end_ < end_ ∧ ∀ r' ∈ R.head?, end_ < r'.base)

/-! ## The ends of what is inserted -/

theorem mergeList_head (n : Nat) (r : MmblkRgn) (l : List MmblkRgn) :
    ∃ r' l', mergeList n (r :: l) = r' :: l' ∧ r'.base = r.base := by
  induction n generalizing r l with
  | zero => exact ⟨r, l, rfl, rfl⟩
  | succ n ih =>
    cases l with
    | nil => exact ⟨r, [], rfl, rfl⟩
    | cons q l =>
      rw [mergeList]
      split
      · obtain ⟨r', l', he, hb⟩ := ih (glue r q) l
        exact ⟨r', l', he, hb⟩
      · exact ⟨r, _, rfl, rfl⟩

theorem mergeList_last (n : Nat) (l : List MmblkRgn) (x : MmblkRgn) :
    ∃ l' q, mergeList n (l ++ [x]) = l' ++ [q] ∧ q.end_ = x.end_ := by
  induction n generalizing l x with
  | zero => exact ⟨l, x, by simp [mergeList], rfl⟩
  | succ n ih =>
    rcases l with _ | ⟨p, _ | ⟨p', l⟩⟩
    · exact ⟨[], x, rfl, rfl⟩
    · by_cases hg : Gluable p x
      · obtain ⟨l', q, he, hq⟩ := ih [] (glue p x)
        exact ⟨l', q, by simpa [mergeList, hg] using he, hq.trans (glue_end hg)⟩
      · obtain ⟨l', q, he, hq⟩ := ih [] x
        exact ⟨p :: l', q, by simpa [mergeList, hg] using he, hq⟩
    · by_cases hg : Gluable p p'
      · obtain ⟨l', q, he, hq⟩ := ih (glue p p' :: l) x
        exact ⟨l', q, by simpa [mergeList, hg] using he, hq⟩
      · obtain ⟨l', q, he, hq⟩ := ih (p' :: l) x
        exact ⟨p :: l', q, by simpa [mergeList, hg] using he, hq⟩

theorem pushMerge_last (P : List MmblkRgn) (x : MmblkRgn) :
    ∃ A q, pushMerge P x = A ++ [q] ∧ q.end_ = x.end_ := by
  obtain ⟨l', q, he, hq⟩ := mergeList_last (min P.length 2) (P.drop (P.length - 2)) x
  exact ⟨P.take (P.length - 2) ++ l', q, by rw [pushMerge, he, append_assoc], hq⟩

theorem pushMerge_nil (x : MmblkRgn) : pushMerge [] x = [x] := rfl

theorem pushMerge_append (A : List MmblkRgn) {P : List MmblkRgn} (x : MmblkRgn)
    (h : 2 ≤ P.length) : pushMerge (A ++ P) x = A ++ pushMerge P x := by
  have hmin : min (A.length + P.length) 2 = min P.length 2 := by omega
  have htake : (A ++ P).take (A.length + P.length - 2) = A ++ P.take (P.length - 2) := by
    rw [show A.length + P.length - 2 = A.length + (P.length - 2) by omega, take_length_add_append]
  have hdrop : (A ++ P).drop (A.length + P.length - 2) = P.drop (P.length - 2) := by
    rw [show A.length + P.length - 2 = A.length + (P.length - 2) by omega, drop_length_add_append]
  simp [pushMerge, hmin, htake, hdrop]

theorem pushMerge_head (r : MmblkRgn) (P : List MmblkRgn) (x : MmblkRgn) :
    ∃ r' l', pushMerge (r :: P) x = r' :: l' ∧ r'.base = r.base := by
  rcases lt_or_ge P.length 2 with h | h
  · have htake : (r :: P).length - 2 = 0 := by simp only [length_cons]; omega
    obtain ⟨r', l', he, hb⟩ := mergeList_head (min (r :: P).length 2) r (P ++ [x])
    exact ⟨r', l', by rw [pushMerge, htake]; simpa using he, hb⟩
  · exact ⟨r, _, pushMerge_append [r] x h, rfl⟩

variable {base : Nat}

theorem end_of_piece {e : Nat} (flags : Nat) (hb : base < 2 ^ 64) (he : e < 2 ^ 64) :
    MmblkRgn.end_ ⟨base, u64Sub e base, flags⟩ = e := by
  simp only [MmblkRgn.end_, u64Sub, u64]
  omega

/-- The sizes of the piece `[base, rbase)`, of a region `[rbase, rbase + rsize)` and of the piece
from there to `e` add up, wrapping or not. -/
theorem u64_pieces (s : Nat) {rbase : Nat} (rsize e : Nat) (hbase : base < 2 ^ 64)
    (hrbase : rbase < 2 ^ 64) :
    u64 (u64 (u64 (s + u64Sub rbase base) + rsize) + u64Sub e (u64 (rbase + rsize))) =
      u64 (s + u64Sub e base) := by
  have hlt := u64_lt (rbase + rsize)
  obtain ⟨k, hk⟩ : ∃ k, rbase + rsize = u64 (rbase + rsize) + 2 ^ 64 * k :=
    ⟨(rbase + rsize) / 2 ^ 64, by unfold u64; omega⟩
  simp only [u64Sub, u64_add_u64, u64_u64_add]
  generalize u64 (rbase + rsize) = rend at *
  unfold u64
  omega

variable {B : List MmblkRgn}

/-! ## Inserting behind regions that are apart -/

section apart

variable {A P : List MmblkRgn} {p r x : MmblkRgn}

/-- Regions below `PHYS_ADDR_MAX`, with equal flags, no two of which touch. -/
structure Apart (rs : List MmblkRgn) : Prop where
  bounded : ∀ r ∈ rs, r.base + r.size ≤ physAddrMax
  nonempty : ∀ r ∈ rs, 0 < r.size
  apart : rs.Pairwise fun p q => p.base + p.size < q.base

theorem apart_append :
    Apart (A ++ B) ↔ Apart A ∧ Apart B ∧ ∀ p ∈ A, ∀ q ∈ B, p.base + p.size < q.base := by
  constructor
  · rintro ⟨hb, hn, hap⟩
    rw [forall_mem_append] at hb hn
    obtain ⟨hA, hB, hcross⟩ := pairwise_append.1 hap
    exact ⟨⟨hb.1, hn.1, hA⟩, ⟨hb.2, hn.2, hB⟩, hcross⟩
  · rintro ⟨hA, hB, hcross⟩
    exact ⟨forall_mem_append.2 ⟨hA.bounded, hB.bounded⟩,
      forall_mem_append.2 ⟨hA.nonempty, hB.nonempty⟩,
      pairwise_append.2 ⟨hA.apart, hB.apart, hcross⟩⟩

theorem apart_singleton : Apart [x] ↔ x.base + x.size ≤ physAddrMax ∧ 0 < x.size :=
  ⟨fun h => ⟨h.bounded x mem_cons_self, h.nonempty x mem_cons_self⟩, fun h =>
    ⟨forall_mem_singleton.2 h.1, forall_mem_singleton.2 h.2, pairwise_singleton ..⟩⟩

theorem Apart.end_lt (h : Apart (A ++ [p, r])) : p.end_ < r.base := by
  rw [MmblkRgn.end_of_le (h.bounded p (by simp))]
  exact (pairwise_cons.1 (pairwise_append.1 h.apart).2.1).1 r mem_cons_self

theorem Apart.pushMerge_concat (h : Apart (A ++ [p])) :
    pushMerge (A ++ [p]) x = A ++ (if Gluable p x then [glue p x] else [p, x]) := by
  have hone : mergeList 1 [p, x] = if Gluable p x then [glue p x] else [p, x] := by
    simp [mergeList]
  rcases A.eq_nil_or_concat' with rfl | ⟨A, p₀, rfl⟩
  · simpa [pushMerge] using hone
  · have hp₀ : ¬ Gluable p₀ p := fun hg =>
      Nat.ne_of_lt (Apart.end_lt (A := A) (by simpa using h)) hg.1
    rw [append_assoc, pushMerge_append A x (by simp), append_assoc]
    congr 1
    have : pushMerge [p₀, p] x = mergeList 2 [p₀, p, x] := by simp [pushMerge]
    rw [cons_append, nil_append, this, mergeList, if_neg hp₀, hone]
    rfl

theorem Apart.length_pushMerge_congr (h : Apart P) {x z : MmblkRgn} (hb : x.base = z.base)
    (hf : x.flags = z.flags) : (pushMerge P x).length = (pushMerge P z).length := by
  rcases P.eq_nil_or_concat' with rfl | ⟨A, p, rfl⟩
  · rfl
  · have hg : Gluable p x ↔ Gluable p z := by simp only [Gluable, hb, hf]
    rw [h.pushMerge_concat, h.pushMerge_concat]
    by_cases hx : Gluable p x
    · rw [if_pos hx, if_pos (hg.1 hx)]
      simp
    · rw [if_neg hx, if_neg fun hz => hx (hg.2 hz)]
      simp

theorem Apart.not_chainTo (h : Apart P) (base : Nat) : ¬ ChainTo P base := by
  rintro ⟨A, p, q, rfl, htouch, -⟩
  exact Nat.ne_of_lt h.end_lt htouch

/-- The two pieces inserted around `r` are merged with it, as if the whole range had been inserted
at once, even if the size of the first wraps: the wrap is undone when `r` is merged. -/
theorem Apart.pushMerge_around (h : Apart P) (base e : Nat) (hP : ∀ p ∈ P, p.flags = 0)
    (hr : r.flags = 0) (hbase : base < 2 ^ 64) (hrbase : r.base < 2 ^ 64) :
    pushMerge (pushMerge P ⟨base, u64Sub r.base base, 0⟩ ++ [r]) ⟨r.end_, u64Sub e r.end_, 0⟩ =
      pushMerge P ⟨base, u64Sub e base, 0⟩ := by
  set x : MmblkRgn := ⟨base, u64Sub r.base base, 0⟩ with hx
  set y : MmblkRgn := ⟨r.end_, u64Sub e r.end_, 0⟩ with hy
  set z : MmblkRgn := ⟨base, u64Sub e base, 0⟩ with hz
  -- a region that ends where `r` starts takes in `r` and `y`
  have hwin : ∀ (A : List MmblkRgn) (q : MmblkRgn), q.end_ = r.base → q.flags = 0 →
      pushMerge (A ++ [q] ++ [r]) y = A ++ [glue (glue q r) y] := by
    intro A q hq hqf
    have hqr : Gluable q r := ⟨hq, hqf.trans hr.symm⟩
    have hqry : Gluable (glue q r) y := ⟨glue_end hqr, hqf⟩
    rw [append_assoc, pushMerge_append A y (by simp)]
    congr 1
    have : pushMerge [q, r] y = mergeList 2 [q, r, y] := by simp [pushMerge]
    rw [cons_append, nil_append, this, mergeList, if_pos hqr, mergeList, if_pos hqry]
    rfl
  have hsize : ∀ s, u64 (u64 (u64 (s + x.size) + r.size) + y.size) = u64 (s + z.size) :=
    fun s => u64_pieces s r.size e hbase hrbase
  have hxend : x.end_ = r.base := end_of_piece 0 hbase hrbase
  have hxyz : glue (glue x r) y = z := by
    have h0 : u64 (u64 (x.size + r.size) + y.size) = z.size := by
      have hz' := hsize 0
      rwa [zero_add, zero_add, u64_of_lt (n := x.size) (u64Sub_lt r.base base),
        u64_of_lt (n := z.size) (u64Sub_lt e base)] at hz'
    rw [glue, glue, h0]
  rcases P.eq_nil_or_concat' with rfl | ⟨A, p, rfl⟩
  · rw [pushMerge_nil, pushMerge_nil, ← hxyz]
    exact hwin [] x hxend rfl
  · have hpz : Gluable p z ↔ Gluable p x := by simp only [Gluable, hx, hz]
    rw [h.pushMerge_concat, h.pushMerge_concat]
    by_cases hg : Gluable p x
    · have hflags : (glue p x).flags = 0 := by
        rw [glue]
        exact hP p (by simp)
      have he : glue (glue (glue p x) r) y = glue p z := by
        rw [glue, glue, glue, hsize p.size, glue]
      rw [if_pos hg, if_pos (hpz.2 hg), hwin A (glue p x) ((glue_end hg).trans hxend) hflags, he]
    · rw [if_neg hg, if_neg (fun hc => hg (hpz.1 hc)),
        show A ++ [p, x] = A ++ [p] ++ [x] from append_cons ..,
        hwin (A ++ [p]) x hxend rfl, hxyz, ← append_cons]

theorem Apart.push {R : List MmblkRgn} (h : Apart (P ++ R)) (hx : x.base + x.size ≤ physAddrMax)
    (hx0 : 0 < x.size) (hP : ∀ p ∈ P, p.base + p.size ≤ x.base)
    (hR : ∀ r ∈ R, x.base + x.size < r.base) (hflags : ∀ p ∈ P, p.flags = x.flags) :
    Apart (pushMerge P x ++ R) := by
  obtain ⟨hapP, hapR, hcross⟩ := apart_append.1 h
  rcases P.eq_nil_or_concat' with rfl | ⟨A, p, rfl⟩
  · exact apart_append.2 ⟨apart_singleton.2 ⟨hx, hx0⟩, hapR, forall_mem_singleton.2 hR⟩
  · rw [hapP.pushMerge_concat]
    obtain ⟨hapA, happ, hAp⟩ := apart_append.1 hapP
    obtain ⟨hpb, hp0⟩ := apart_singleton.1 happ
    have hxp := hP p (by simp)
    have hpe := MmblkRgn.end_of_le hpb
    have hcrossA : ∀ q ∈ A, ∀ r ∈ R, q.base + q.size < r.base :=
      fun q hq => hcross q (mem_append_left _ hq)
    simp only [mem_singleton, forall_eq] at hAp
    split
    · next hg =>
      have hmax : physAddrMax = 2 ^ 64 - 1 := rfl
      rw [glue, u64_of_lt (by omega), apart_append, apart_append, apart_singleton]
      simp only [forall_mem_append, forall_mem_singleton]
      refine ⟨⟨hapA, ⟨by omega, by omega⟩, hAp⟩, hapR, hcrossA, fun r hr => ?_⟩
      have := hR r hr
      omega
    · next hg =>
      have hlt : p.base + p.size < x.base :=
        lt_of_le_of_ne hxp fun he => hg ⟨hpe.trans he, hflags p (by simp)⟩
      rw [show A ++ [p, x] = A ++ [p] ++ [x] from append_cons .., apart_append, apart_append,
        apart_singleton]
      simp only [forall_mem_append, forall_mem_singleton]
      refine ⟨⟨hapP, ⟨hx, hx0⟩, fun q hq => ?_, hlt⟩, hapR, ⟨hcrossA, hcross p (by simp)⟩, hR⟩
      have := hAp q hq
      omega

end apart

variable {rs : List MmblkRgn}

/-! ## The accounted size -/

section sizeSum

variable {F : Nat → Prop} {t t' : MmblkType} {P R : List MmblkRgn} {x : MmblkRgn}

theorem sizeSum_append (l₁ l₂ : List MmblkRgn) : sizeSum (l₁ ++ l₂) = sizeSum l₁ + sizeSum l₂ := by
  simp [sizeSum]

theorem sizeSum_cons (r : MmblkRgn) (l : List MmblkRgn) : sizeSum (r :: l) = r.size + sizeSum l := by
  simp [sizeSum]

theorem u64_sizeSum_mergeList (s n : Nat) (l : List MmblkRgn) :
    u64 (s + sizeSum (mergeList n l)) = u64 (s + sizeSum l) := by
  induction n generalizing s l with
  | zero => simp [mergeList]
  | succ n ih =>
    rcases l with _ | ⟨p, _ | ⟨q, l⟩⟩
    · simp [mergeList]
    · simp [mergeList]
    · rw [mergeList]
      split
      · rw [ih, sizeSum_cons, sizeSum_cons, sizeSum_cons, glue, add_left_comm, u64_u64_add]
        congr 1
        omega
      · rw [sizeSum_cons, sizeSum_cons, ← add_assoc, ← add_assoc, ih]

/-- `total_size` follows the region sizes, up to the wrap of the word. -/
theorem Replaced.accounted (h : Replaced F t t' (pushMerge P x ++ R) x.size)
    (hreg : t.regions = P ++ R) (ht : t.totalSize = u64 (sizeSum t.regions)) :
    t'.totalSize = u64 (sizeSum t'.regions) := by
  have hpush : u64 (sizeSum (pushMerge P x ++ R)) = u64 (sizeSum P + sizeSum R + x.size) := by
    have := u64_sizeSum_mergeList (sizeSum (P.take (P.length - 2)) + sizeSum R) (min P.length 2)
      (P.drop (P.length - 2) ++ [x])
    have hsplit := sizeSum_append (P.take (P.length - 2)) (P.drop (P.length - 2))
    rw [take_append_drop] at hsplit
    rw [sizeSum_append, pushMerge, sizeSum_append, add_right_comm, this, sizeSum_append,
      sizeSum_cons, hsplit]
    congr 1
    simp only [sizeSum, map_nil, sum_nil]
    omega
  rw [h.totalSize, ht, h.regions, hpush, hreg, sizeSum_append, u64_u64_add]

theorem Apart.sizeSum_le (h : Apart rs) : sizeSum rs ≤ physAddrMax := by
  -- the regions from `b` on fit between `b` and `PHYS_ADDR_MAX`
  have key : ∀ (rs : List MmblkRgn) (b : Nat), Apart rs → (∀ r ∈ rs, b ≤ r.base) →
      b ≤ physAddrMax → sizeSum rs + b ≤ physAddrMax := by
    intro rs
    induction rs with
    | nil => intro b _ _ hb; simpa [sizeSum] using hb
    | cons r rs ih =>
      intro b h hle hb
      obtain ⟨hbd, hn, hap⟩ := h
      rw [forall_mem_cons] at hbd hn hle
      rw [pairwise_cons] at hap
      have := ih (r.base + r.size) ⟨hbd.2, hn.2, hap.2⟩ (fun q hq => (hap.1 q hq).le) hbd.1
      rw [sizeSum_cons]
      omega
  simpa using key rs 0 h (fun _ _ => zero_le _) (zero_le _)

end sizeSum

variable {t : MmblkType}

/-! ## What the loop has passed stays -/

theorem memblockInsertRegion_room {t₁ : MmblkType} {idx size : Nat}
    (h : memblockInsertRegion t idx base size = some t₁) : t.cnt < t.max := by
  unfold memblockInsertRegion at h
  split at h
  · next hstale _ => simp [MmblkType.cnt, MmblkType.max, hstale]
  · cases h

/-- The insertion point lies behind two neighbours `q` and `r` and one more region: the window of
the merging does not reach `q`. -/
theorem pushMerge_keeps (A : List MmblkRgn) (q r : MmblkRgn) (hB : B ≠ []) (x : MmblkRgn) :
    ∃ r' B', pushMerge (A ++ q :: r :: B) x = A ++ q :: r' :: B' ∧ r'.base = r.base := by
  obtain ⟨r', l', he, hb⟩ := pushMerge_head r B x
  refine ⟨r', l', ?_, hb⟩
  have hlen : 2 ≤ (r :: B).length := by
    have := length_pos_of_ne_nil hB
    simp only [length_cons]
    omega
  rw [append_cons, pushMerge_append (A ++ [q]) x hlen, he, ← append_cons]

variable {r : MmblkRgn}

/-- Two neighbours that the merging window has moved past keep the end of the first and the base of
the second. -/
theorem addRangeLoop_keeps {F : Nat → Prop} {fuel : Nat} {t' : MmblkType} {idx end_ : Nat}
    {A : List MmblkRgn} {q : MmblkRgn} (ht : t.Valid F)
    (h : t.regions = A ++ q :: r :: B) (hidx : A.length + 3 ≤ idx)
    (hloop : addRangeLoop fuel t idx base end_ = some t') :
    ∃ r' B', t'.regions = A ++ q :: r' :: B' ∧ r'.base = r.base := by
  induction fuel generalizing t idx base r B with
  | zero => simp [addRangeLoop] at hloop
  | succ fuel ih =>
    by_cases hlt : idx < t.cnt + 1
    swap
    · simp only [addRangeLoop, hlt, not_false_iff, if_true] at hloop
      cases hloop
      exact ⟨r, B, h, rfl⟩
    rw [addRangeLoop, if_neg (not_not.2 hlt)] at hloop
    cases he : t.entry idx with
    | none => simp [he] at hloop
    | some e =>
      simp only [he, bind_eq_bind, bind_some] at hloop
      by_cases hskip : e.end_ ≤ base ∧ idx ≠ t.cnt
      · rw [if_pos hskip] at hloop
        exact ih ht h (by omega) hloop
      rw [if_neg hskip] at hloop
      generalize hsize : (if idx = t.cnt ∨ end_ ≤ e.base then u64Sub end_ base
        else u64Sub e.base base) = size at hloop
      have hsz : size < 2 ^ 64 := by
        rw [← hsize]
        split <;> exact u64Sub_lt _ _
      generalize (if idx = t.cnt ∨ end_ ≤ e.base then end_ else e.end_) = base' at hloop
      -- the state after the insertion at `idx`
      obtain ⟨t₁, hins, hrest⟩ := bind_eq_some_iff.1 hloop
      have hroom := memblockInsertRegion_room hins
      have hcnt : t.cnt = A.length + (B.length + 1 + 1) := by simp [cnt, h]
      set B₁ := B.take (idx - A.length - 2) with hB₁
      have hlenB : B₁.length = idx - A.length - 2 := by
        rw [hB₁, length_take]
        omega
      have hsplit : t.regions = (A ++ q :: r :: B₁) ++ B.drop (idx - A.length - 2) := by
        rw [h, append_assoc, cons_append, cons_append, take_append_drop]
      have hlenP : (A ++ q :: r :: B₁).length = idx := by
        simp only [length_append, length_cons, hlenB]
        omega
      obtain ⟨t₁', flags, hins', -, hrep⟩ := insert_merge_spec base ht hroom hsplit hsz
      rw [hlenP] at hins' hrep
      obtain rfl : t₁ = t₁' := some.inj (hins.symm.trans hins')
      obtain ⟨r₁, B', hpush, hr₁⟩ := pushMerge_keeps A q r (B := B₁)
        (ne_nil_of_length_pos (by omega)) ⟨base, size, flags⟩
      have hreg := hrep.regions
      rw [hpush, append_assoc, cons_append, cons_append] at hreg
      split at hrest
      · cases hrest
        exact ⟨r₁, _, hreg, hr₁⟩
      · obtain ⟨r', B'', hfin, hr'⟩ := ih (hrep.valid ht) hreg (by omega) hrest
        exact ⟨r', B'', hfin, hr'.trans hr₁⟩

/-! ## One call -/

/-- The regions are minimal, valid and in range. -/
structure MinInv (t : MmblkType) : Prop where
  minimal : Minimal t
  valid : t.Valid (· = 0)
  bounded : ∀ r ∈ t.regions, r.base + r.size ≤ physAddrMax

theorem MinInv.apart (h : MinInv t) : Apart t.regions :=
  ⟨h.bounded, h.minimal.nonempty, h.minimal.apart⟩

theorem u64_sizeSum_of_apart (h : Apart rs) : u64 (sizeSum rs) = sizeSum rs :=
  u64_of_lt (lt_of_le_of_lt h.sizeSum_le (by norm_num [physAddrMax]))

theorem MinInv.accounted (h : MinInv t) : t.totalSize = u64 (sizeSum t.regions) :=
  h.minimal.total.trans (u64_sizeSum_of_apart h.apart).symm

theorem MinInv.of_apart (h : Apart t.regions) (hv : t.Valid (· = 0))
    (hacc : t.totalSize = u64 (sizeSum t.regions)) : MinInv t :=
  ⟨⟨h.nonempty, h.apart, hacc.trans (u64_sizeSum_of_apart h)⟩, hv, h.bounded⟩

theorem not_minimal_of_touch {A : List MmblkRgn} {q : MmblkRgn}
    (h : t.regions = A ++ q :: r :: B) (hq : q.end_ = r.base) : ¬ Minimal t := by
  intro hmin
  have hap := hmin.apart
  rw [h] at hap
  have hlt := (pairwise_cons.1 (pairwise_append.1 hap).2.1).1 r (by simp)
  have hrb : r.base < 2 ^ 64 := by
    rw [← hq, MmblkRgn.end_]
    exact u64_lt _
  rw [MmblkRgn.end_, u64_of_lt (by omega)] at hq
  omega

theorem not_minimal_of_push {P R : List MmblkRgn} {x : MmblkRgn}
    (h : t.regions = pushMerge P x ++ r :: R) (hx : x.end_ = r.base) : ¬ Minimal t := by
  obtain ⟨A, q, he, hq⟩ := pushMerge_last P x
  refine not_minimal_of_touch (A := A) (q := q) (r := r) (B := R) ?_ (hq.trans hx)
  rw [h, he]
  simp

section addRange

variable {t t' : MmblkType} {P R : List MmblkRgn} {r : MmblkRgn} {base size end_ fuel : Nat}

theorem MinInv.flags_eq_zero (h : MinInv t) : ∀ r ∈ t.regions, r.flags = 0 :=
  fun r hr => h.valid.flags r (mem_append_left _ hr)

theorem Apart.sublist {rs' : List MmblkRgn} (h : Apart rs) (hs : rs'.Sublist rs) : Apart rs' :=
  ⟨fun r hr => h.bounded r (hs.subset hr), fun r hr => h.nonempty r (hs.subset hr),
    h.apart.sublist hs⟩

theorem Apart.lt_base_of_head (h : Apart (P ++ R)) {e : Nat} (hR : ∀ r ∈ R.head?, e < r.base) :
    ∀ r ∈ R, e < r.base := by
  cases R with
  | nil => simp
  | cons r R =>
    have hr : e < r.base := hR r rfl
    have hs := (pairwise_cons.1 (pairwise_append.1 h.apart).2.1).1
    refine forall_mem_cons.2 ⟨hr, fun r' hr' => ?_⟩
    have := hs r' hr'
    omega

theorem u64Sub_add_self (hend : base + size ≤ physAddrMax) : u64Sub (base + size) base = size := by
  have hmax : physAddrMax = 2 ^ 64 - 1 := rfl
  rw [u64Sub_of_le (by omega) (by omega), Nat.add_sub_cancel_left]

theorem MinInv.of_pushed (hap : Apart (P ++ R)) (hflags : ∀ p ∈ P, p.flags = 0) (hsize : 0 < size)
    (hend : base + size ≤ physAddrMax) (hP : ∀ p ∈ P, p.end_ ≤ base)
    (hgap : ∀ r ∈ R.head?, base + size < r.base)
    (hreg : t'.regions = pushMerge P ⟨base, size, 0⟩ ++ R) (hv : t'.Valid (· = 0))
    (hacc : t'.totalSize = u64 (sizeSum t'.regions)) : MinInv t' := by
  refine MinInv.of_apart ?_ hv hacc
  rw [hreg]
  refine hap.push hend hsize (fun p hp => ?_) (hap.lt_base_of_head hgap) hflags
  rw [← MmblkRgn.end_of_le (hap.bounded p (by simp [hp]))]
  exact hP p hp

variable (h : MinInv t) (hsize : 0 < size) (hend : base + size ≤ physAddrMax)
  (hP : ∀ p ∈ P, p.end_ ≤ base)

include h hsize hend hP

theorem MinInv.addRange_gap (hreg : t.regions = P ++ R) (hR : ∀ r ∈ R.head?, base < r.end_) (hgap : ∀ r ∈ R.head?, base + size < r.base)
    (hroom : t.cnt < t.max) :
    ∃ t', simpleMmblkAddRange t base size = some t' ∧ MinInv t' := by
  obtain ⟨t', flags, hloop, hflags, hrep⟩ := addRangeLoop_last
    (R.length + t.stale.length + 1) h.valid hroom hreg fun r hr => ⟨hR r hr, (hgap r hr).le⟩
  obtain rfl : flags = 0 := hflags
  refine ⟨t', (simpleMmblkAddRange_skip hsize hend hreg hP).trans hloop, ?_⟩
  rw [u64Sub_add_self hend] at hrep
  have hap := h.apart
  have hzero := h.flags_eq_zero
  rw [hreg] at hap hzero
  exact MinInv.of_pushed hap (fun p hp => hzero p (by simp [hp])) hsize hend hP hgap hrep.regions
    (hrep.valid h.valid) (Replaced.accounted (x := ⟨base, size, 0⟩) hrep hreg h.accounted)

section

variable (hreg : t.regions = P ++ r :: R) (hr : base < r.end_) (hgo : r.end_ < base + size)
include hreg hr hgo

/-- The state after the piece below `r` was inserted, and the rest of the call, which starts behind
`r`. -/
theorem MinInv.addRange_pass (hroom : t.cnt < t.max) :
    ∃ t₁ fuel, t₁.Valid (· = 0) ∧ t₁.totalSize = u64 (sizeSum t₁.regions) ∧
      t₁.max = t.max ∧ t₁.cnt ≤ t.cnt + 1 ∧
      t₁.regions = pushMerge P ⟨base, u64Sub r.base base, 0⟩ ++ [r] ++ R ∧
      simpleMmblkAddRange t base size = addRangeLoop (fuel + 1) t₁
        (pushMerge P ⟨base, u64Sub r.base base, 0⟩ ++ [r]).length r.end_ (base + size) := by
  have hap := h.apart
  rw [hreg] at hap
  have hre := MmblkRgn.end_of_le (hap.bounded r (by simp))
  have hapP : Apart P := hap.sublist (sublist_append_left ..)
  obtain ⟨t₁, flags, fuel, hflags, -, hrep, hloop⟩ :=
    simpleMmblkAddRange_pass hsize hend h.valid hroom hreg hP hr (by omega) hgo
      fun flags _ => length_le_pushMerge (hapP.not_chainTo base)
  obtain rfl : flags = 0 := hflags
  have hlen := length_pushMerge_le P ⟨base, u64Sub r.base base, 0⟩
  refine ⟨t₁, fuel, hrep.valid h.valid,
    Replaced.accounted (x := ⟨base, u64Sub r.base base, 0⟩) hrep hreg h.accounted, hrep.max, ?_,
    by rw [hrep.regions]; simp, hloop⟩
  simp only [cnt, hrep.regions, hreg, length_append, length_cons]
  omega

theorem MinInv.addRange_over (hgap : ∀ r' ∈ R.head?, base + size < r'.base)
    (hroom : t.cnt < t.max) :
    (t.cnt + 2 ≤ t.max → (simpleMmblkAddRange t base size).isSome) ∧
    ∀ t', simpleMmblkAddRange t base size = some t' → MinInv t' := by
  have hmax : physAddrMax = 2 ^ 64 - 1 := rfl
  obtain ⟨t₁, fuel, hv₁, hacc₁, hmax₁, hcnt₁, hreg₁, hcall⟩ :=
    h.addRange_pass hsize hend hP hreg hr hgo hroom
  have hap := h.apart
  have hzero := h.flags_eq_zero
  rw [hreg] at hap hzero
  have hnext : ∀ r' ∈ R.head?, r.end_ < r'.end_ ∧ base + size ≤ r'.base := fun r' hr' => by
    have hmem : r' ∈ R := mem_of_mem_head? hr'
    have := hgap r' hr'
    rw [MmblkRgn.end_of_le (hap.bounded r' (by simp [hmem]))]
    omega
  have key : t₁.cnt < t₁.max → ∃ t', simpleMmblkAddRange t base size = some t' ∧ MinInv t' := by
    intro hroom₁
    obtain ⟨t', flags, hloop, hflags, hrep⟩ := addRangeLoop_last fuel hv₁ hroom₁ hreg₁ hnext
    obtain rfl : flags = 0 := hflags
    have hapP : Apart P := hap.sublist (sublist_append_left ..)
    have hrb := hap.bounded r (by simp)
    have haround := hapP.pushMerge_around base (base + size)
      (fun p hp => hzero p (by simp [hp])) (hzero r (by simp)) (by omega) (by omega)
    have hreg' := hrep.regions
    rw [haround, u64Sub_add_self hend] at hreg'
    refine ⟨t', hcall.trans hloop, MinInv.of_pushed
      (hap.sublist (List.Sublist.append_left (sublist_cons_self ..) _))
      (fun p hp => hzero p (by simp [hp])) hsize hend hP hgap hreg' (hrep.valid hv₁) ?_⟩
    exact Replaced.accounted (x := ⟨r.end_, u64Sub (base + size) r.end_, 0⟩) hrep hreg₁ hacc₁
  refine ⟨fun hroom₂ => ?_, fun t' ht' => ?_⟩
  · obtain ⟨t', ht', -⟩ := key (by omega)
    simp [ht']
  · rw [hcall] at ht'
    obtain ⟨t₂, ht₂, hinv⟩ := key (addRangeLoop_room hreg₁ (fun r' hr' => (hnext r' hr').1) ht')
    rw [← hcall, ht₂] at ht'
    exact some.inj ht' ▸ hinv

end

/-- The rest of the range, behind `r`, reaches the next region `r'` too: the piece between the two
touches `r'`, and no later merging looks there. -/
theorem MinInv.addRange_two {r' : MmblkRgn} (hreg : t.regions = P ++ r :: r' :: R)
    (hr : base < r.end_) (hgo : r.end_ < base + size) (hr' : r'.base ≤ base + size)
    (hroom : t.cnt < t.max) (hcall : simpleMmblkAddRange t base size = some t') :
    ¬ Minimal t' := by
  have hmax : physAddrMax = 2 ^ 64 - 1 := rfl
  obtain ⟨t₁, fuel, hv₁, -, -, -, hreg₁, hcall₁⟩ := h.addRange_pass hsize hend hP hreg hr hgo hroom
  rw [hcall₁] at hcall
  have hap := h.apart
  have hzero := h.flags_eq_zero
  rw [hreg] at hap hzero
  have hapP : Apart P := hap.sublist (sublist_append_left ..)
  have hrb := hap.bounded r (by simp)
  have hrb' := hap.bounded r' (by simp)
  have hre := MmblkRgn.end_of_le hrb
  have hre' := MmblkRgn.end_of_le hrb'
  have hlt : r.base + r.size < r'.base :=
    (pairwise_cons.1 (pairwise_append.1 hap.apart).2.1).1 r' (by simp)
  have hnext : ∀ q ∈ (r' :: R).head?, r.end_ < q.end_ := by
    simp only [head?_cons, mem_some_iff, forall_eq']
    omega
  have hroom₁ := addRangeLoop_room hreg₁ hnext hcall
  rcases lt_or_eq_of_le hr' with hb | hb
  · obtain ⟨t₂, flags, hflags, hrep, hloop⟩ :=
      addRangeLoop_cut fuel hv₁ hroom₁ hreg₁ (hnext r' rfl) hb
    obtain rfl : flags = 0 := hflags
    rw [hloop] at hcall
    have hyend : MmblkRgn.end_ ⟨r.end_, u64Sub r'.base r.end_, 0⟩ = r'.base :=
      end_of_piece 0 (by omega) (by omega)
    split at hcall
    · cases hcall
      exact not_minimal_of_push hrep.regions hyend
    · -- the loop goes on, two indices behind the neighbours that touch
      obtain ⟨A, q, hpush, hq⟩ := pushMerge_last
        (pushMerge P ⟨base, u64Sub r.base base, 0⟩ ++ [r]) ⟨r.end_, u64Sub r'.base r.end_, 0⟩
      have hlen : A.length + 1 = (pushMerge P ⟨base, u64Sub r.base base, 0⟩).length := by
        have haround := hapP.pushMerge_around base r'.base
          (fun p hp => hzero p (by simp [hp])) (hzero r (by simp)) (by omega) (by omega)
        have hcongr := hapP.length_pushMerge_congr (x := ⟨base, u64Sub r.base base, 0⟩)
          (z := ⟨base, u64Sub r'.base base, 0⟩) rfl rfl
        rw [hcongr, ← haround, hpush]
        simp
      have hreg₂ := hrep.regions
      rw [hpush, append_assoc, cons_append, nil_append] at hreg₂
      obtain ⟨r'', B', hreg', hbase⟩ := addRangeLoop_keeps (hrep.valid hv₁) hreg₂
        (by simp only [length_append, length_singleton]; omega) hcall
      exact not_minimal_of_touch hreg' (hq.trans (hyend.trans hbase.symm))
  · obtain ⟨t₂, flags, hloop, -, hrep⟩ := addRangeLoop_last fuel hv₁ hroom₁ hreg₁ fun q hq =>
      ⟨hnext q hq, by simp only [head?_cons, mem_some_iff] at hq; exact hq ▸ hb.ge⟩
    rw [hloop] at hcall
    cases hcall
    exact not_minimal_of_push hrep.regions
      ((end_of_piece flags (by omega) (by omega)).trans hb.symm)

theorem MinInv.addRange_into (hreg : t.regions = P ++ r :: R) (hr : base < r.end_)
    (hb : r.base ≤ base + size) (he : base + size ≤ r.end_) (hroom : t.cnt < t.max)
    (hcall : simpleMmblkAddRange t base size = some t') : ¬ Minimal t' := by
  have hmax : physAddrMax = 2 ^ 64 - 1 := rfl
  have hrb : r.base < 2 ^ 64 := by
    omega
  rw [simpleMmblkAddRange_skip hsize hend hreg hP] at hcall
  rcases lt_or_eq_of_le hb with hb | hb
  · obtain ⟨t₁, flags, -, hrep, hloop⟩ := addRangeLoop_cut
      ((r :: R).length + t.stale.length + 1) h.valid hroom hreg hr hb
    rw [hloop, if_pos he] at hcall
    cases hcall
    exact not_minimal_of_push hrep.regions (end_of_piece flags (by omega) hrb)
  · obtain ⟨t₁, flags, hloop, -, hrep⟩ := addRangeLoop_last
      ((r :: R).length + t.stale.length + 1) h.valid hroom hreg
      (show ∀ q ∈ (r :: R).head?, base < q.end_ ∧ base + size ≤ q.base by simpa using ⟨hr, hb.ge⟩)
    rw [hloop] at hcall
    cases hcall
    exact not_minimal_of_push hrep.regions
      ((end_of_piece flags (by omega) (by omega)).trans hb.symm)

omit hP in
/-- A call leaves the regions minimal exactly when it meets `MinimalOk`. -/
theorem MinInv.addRange :
    (MinimalOk t.regions base (base + size) → t.cnt + 2 ≤ t.max →
      (simpleMmblkAddRange t base size).isSome) ∧
    ∀ t', simpleMmblkAddRange t base size = some t' →
      (Minimal t' ↔ MinimalOk t.regions base (base + size)) ∧
      (MinimalOk t.regions base (base + size) → MinInv t') := by
  have hreg := (endedBy_append_endingAfter base t.regions).symm
  have hP := end_le_of_mem_endedBy base t.regions
  have hR := lt_end_of_mem_head_endingAfter base t.regions
  have hcall := simpleMmblkAddRange_skip hsize hend hreg hP
  have hroom : ∀ t', simpleMmblkAddRange t base size = some t' → t.cnt < t.max := fun t' ht' =>
    addRangeLoop_room hreg hR (hcall ▸ ht')
  unfold MinimalOk
  generalize endedBy base t.regions = P at *
  generalize endingAfter base t.regions = R at *
  by_cases hgap : ∀ r ∈ R.head?, base + size < r.base
  · have key := h.addRange_gap hsize hend hP hreg hR hgap
    have hok : ∀ t', simpleMmblkAddRange t base size = some t' → MinInv t' := by
      intro t' ht'
      obtain ⟨t₁, ht₁, hinv⟩ := key (hroom t' ht')
      exact some.inj (ht₁.symm.trans ht') ▸ hinv
    refine ⟨fun _ hroom => ?_, fun t' ht' => ⟨iff_of_true (hok t' ht').minimal ?_, fun _ => hok t' ht'⟩⟩
    · obtain ⟨t', ht', -⟩ := key (by omega)
      simp [ht']
    · cases R with
      | nil => trivial
      | cons r R => exact .inl (hgap r rfl)
  cases R with
  | nil => simp at hgap
  | cons r R =>
    simp only [head?_cons, mem_some_iff, forall_eq'] at hR hgap
    by_cases hover : r.end_ < base + size ∧ ∀ r' ∈ R.head?, base + size < r'.base
    · have key := h.addRange_over hsize hend hP hreg hR hover.1 hover.2
      refine ⟨fun _ hroom => (key (by omega)).1 hroom, fun t' ht' => ?_⟩
      have hinv := (key (hroom t' ht')).2 t' ht'
      exact ⟨iff_of_true hinv.minimal (.inr hover), fun _ => hinv⟩
    · -- the range touches or enters a region it does not reach behind
      have hbad : ¬ (base + size < r.base ∨
          (r.end_ < base + size ∧ ∀ r' ∈ R.head?, base + size < r'.base)) := by tauto
      refine ⟨fun hok => absurd hok hbad, fun t' ht' => ⟨iff_of_false ?_ hbad, fun hok =>
        absurd hok hbad⟩⟩
      rcases lt_or_ge r.end_ (base + size) with hgo | he
      · cases R with
        | nil => exact absurd ⟨hgo, by simp⟩ hover
        | cons r' R =>
          have hr' : r'.base ≤ base + size := by
            by_contra hlt
            exact hover ⟨hgo, by simpa using hlt⟩
          exact h.addRange_two hsize hend hP hreg hR hgo hr' (hroom t' ht') ht'
      · exact h.addRange_into hsize hend hP hreg hR (Nat.le_of_not_lt hgap) he (hroom t' ht') ht'

end addRange

/-! ## Runs of additions -/

namespace AddRun

/-- The range is empty, or adding it leaves no two neighbours that touch. -/
def KeepsMinimal (s : AddRun) (range : Nat × Nat) : Prop :=
  range.2 = 0 ∨ MinimalOk s.type.regions range.1 (range.1 + range.2)

theorem minInv_start {s : AddRun} (h : s.Start) : MinInv s.type := by
  have hv := (CoverInv.start h).valid
  obtain ⟨max, -, rfl⟩ := h
  exact ⟨⟨by simp [empty], by simp [empty], rfl⟩, hv, by simp [empty]⟩

theorem minInv_step {s : AddRun} (h : MinInv s.type) {range : Nat × Nat} (hok : s.Ok range) :
    (s.KeepsMinimal range → s.type.cnt + 2 ≤ s.type.max → (s.step range).isSome) ∧
    ∀ r s', s.step range = some (r, s') →
      (Minimal s'.type ↔ s.KeepsMinimal range) ∧ (s.KeepsMinimal range → MinInv s'.type) := by
  obtain ⟨base, size⟩ := range
  rcases Nat.eq_zero_or_pos size with rfl | hsize
  · refine ⟨fun _ _ => rfl, ?_⟩
    rintro _ _ ⟨⟩
    exact ⟨iff_of_true h.minimal (.inl rfl), fun _ => h⟩
  · have hiff : s.KeepsMinimal (base, size) ↔ MinimalOk s.type.regions base (base + size) :=
      or_iff_right hsize.ne'
    rw [hiff]
    obtain ⟨hsome, hmin⟩ := h.addRange hsize hok
    refine ⟨fun hkeep hroom => ?_, fun r s' hs' => ?_⟩
    · obtain ⟨t', ht'⟩ := isSome_iff_exists.1 (hsome hkeep hroom)
      simp [AddRun.step, ht']
    · cases ht : simpleMmblkAddRange s.type base size with
      | none => simp [AddRun.step, ht] at hs'
      | some t' =>
        simp only [AddRun.step, ht, bind_eq_bind, bind_some] at hs'
        obtain ⟨⟩ := hs'
        exact hmin t' ht

/-- In every run whose calls all meet `KeepsMinimal` the regions are minimal, and the next call
leaves them minimal exactly when it meets it too. -/
theorem minimal_iff_keepsMinimal {s : AddRun}
    (h : Reachable AddRun.step (fun s range => s.Ok range ∧ s.KeepsMinimal range) AddRun.Start s) :
    Minimal s.type ∧ ∀ range, s.Ok range →
      (s.KeepsMinimal range → s.type.cnt + 2 ≤ s.type.max → (s.step range).isSome) ∧
      ∀ r s', s.step range = some (r, s') → (Minimal s'.type ↔ s.KeepsMinimal range) := by
  have hinv : MinInv s.type := h.invariant (fun _ => minInv_start)
    fun s range r s' hinv hok hstep => ((minInv_step hinv hok.1).2 r s' hstep).2 hok.2
  refine ⟨hinv.minimal, fun range hok => ?_⟩
  obtain ⟨hsome, hiff⟩ := minInv_step hinv hok
  exact ⟨hsome, fun r s' hs' => (hiff r s' hs').1⟩

/-- A range between two regions that touches neither. -/
theorem minimal_iff_keepsMinimal_two_ranges :
    let s : AddRun := ⟨⟨[⟨10, 10, 0⟩, ⟨40, 10, 0⟩], [⟨0, 0, 0⟩, ⟨0, 0, 0⟩], 20⟩, [(10, 10), (40, 10)]⟩
    Minimal s.type ∧ ∀ range, s.Ok range →
      (s.KeepsMinimal range → s.type.cnt + 2 ≤ s.type.max → (s.step range).isSome) ∧
      ∀ r s', s.step range = some (r, s') → (Minimal s'.type ↔ s.KeepsMinimal range) := by
  intro s
  have hfirst : AddRun.step ⟨empty 4, []⟩ (40, 10) =
      some ((), ⟨⟨[⟨40, 10, 0⟩], replicate 3 ⟨0, 0, 0⟩, 10⟩, [(40, 10)]⟩) := by decide +kernel
  have hsecond : AddRun.step ⟨⟨[⟨40, 10, 0⟩], replicate 3 ⟨0, 0, 0⟩, 10⟩, [(40, 10)]⟩ (10, 10) =
      some ((), s) := by decide +kernel
  have hstart : Reachable AddRun.step (fun s range => s.Ok range ∧ s.KeepsMinimal range)
      AddRun.Start ⟨empty 4, []⟩ := .start ⟨4, by norm_num, rfl⟩
  have h₁ := hstart.call ⟨by norm_num [Ok, physAddrMax], .inr trivial⟩ hfirst
  exact minimal_iff_keepsMinimal
    (h₁.call ⟨by norm_num [Ok, physAddrMax], .inr (by simp [MinimalOk, endingAfter, MmblkRgn.end_, u64])⟩ hsecond)

/-- A range added right below a region stays a region of its own. -/
theorem touching_below_not_merged :
    ∃ s₁ s₂, AddRun.step ⟨empty 5, []⟩ (10, 10) = some ((), s₁) ∧
      s₁.step (5, 5) = some ((), s₂) ∧ ¬ Minimal s₂.type := by
  refine ⟨⟨⟨[⟨10, 10, 0⟩], replicate 4 ⟨0, 0, 0⟩, 10⟩, [(10, 10)]⟩,
    ⟨⟨[⟨5, 5, 0⟩, ⟨10, 10, 0⟩], replicate 3 ⟨0, 0, 0⟩, 15⟩, [(5, 5), (10, 10)]⟩,
    by decide +kernel, by decide +kernel, fun h => ?_⟩
  have hap := h.apart
  simp at hap

end AddRun

end MyOS2.Memblock
