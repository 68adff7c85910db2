import MyOS2.Mm.VmMap.Proofs.Merge

/-!
# Page indices of mapped addresses

An address of an area stands for a page of the area's backing object, counted from
`vm_pgoff`. Cutting an area keeps the index below the cut. Above it the index is that of
`__simple_vma_adjust`, which takes the difference between an address and `vm_pgoff` where it
should take the distance of two addresses. Here is when the two agree.
-/

namespace MyOS2.Mmap.VmaList

open Option VmaList Nat Area

variable {l l' : VmaList Vma} {v w p k : VmaId} {A B : List VmaId} {a addr start stop : Nat}
  {req : Vma}

/-- `linear_page_index` (`buddy.h:210-218`). -/
def linearPageIndex (pgoff start a : Nat) : Nat := (pgoff + (a - start) / pageSize) % 2 ^ 64

def index (l : VmaList Vma) (v : VmaId) (a : Nat) : Nat := linearPageIndex (l.pgoff v) (l.start v) a

theorem linearPageIndex_trans {pgoff mid : Nat} (hs : pageSize ∣ start) (hm : pageSize ∣ mid)
    (hsm : start ≤ mid) (hma : mid ≤ a) :
    linearPageIndex (linearPageIndex pgoff start mid) mid a = linearPageIndex pgoff start a := by
  simp only [linearPageIndex, pageSize] at *
  omega

theorem linearPageIndex_congr {pgoff pgoff' : Nat} :
    linearPageIndex pgoff start a = linearPageIndex pgoff' start a ↔
      pgoff % 2 ^ 64 = pgoff' % 2 ^ 64 := by
  simp only [linearPageIndex]
  omega

theorem linearPageIndex_self (pgoff start : Nat) :
    linearPageIndex pgoff start start = pgoff % 2 ^ 64 := by
  simp [linearPageIndex]

/-- Every address that both lists map has kept its index. -/
def SameIndex (l l' : VmaList Vma) : Prop :=
  ∀ a, ∀ v ∈ l.order, ∀ w ∈ l'.order, l.Covers v a → l'.Covers w a → l'.index w a = l.index v a

/-- The fields of the areas are 64-bit numbers. -/
def Words (l : VmaList Vma) : Prop := ∀ v ∈ l.order, l.pgoff v < 2 ^ 64 ∧ l.stop v < 2 ^ 64

instance (l : VmaList Vma) : Decidable l.Words := inferInstanceAs (Decidable (∀ _ ∈ _, _ ∧ _))

/-! ## The offset that is computed -/

/-- `vm_pgoff` is the number of an address of the page that ends with `start`, as 64-bit numbers
go. -/
def NearStart (pgoff start : Nat) : Prop :=
  pgoff ≤ start ∧ start < pgoff + pageSize ∨ start + 2 ^ 64 < pgoff + pageSize

instance (pgoff start : Nat) : Decidable (NearStart pgoff start) :=
  inferInstanceAs (Decidable (_ ∨ _))

/-- The whole pages from `vm_pgoff` to the address, as 64-bit numbers go. -/
def addedPages (pgoff addr : Nat) : Nat := (addr + 2 ^ 64 - pgoff) % 2 ^ 64 / pageSize

theorem addedPages_lt (pgoff addr : Nat) : addedPages pgoff addr < 2 ^ 52 := by
  have := mod_lt (addr + 2 ^ 64 - pgoff) (y := 2 ^ 64) (by decide)
  simp only [addedPages, pageSize]
  omega

/-- A number of pages is added if the distance of the address from `vm_pgoff` is that many pages. -/
theorem addedPages_eq_iff {pgoff n r : Nat} (hp : pgoff < 2 ^ 64) (haddr : addr < 2 ^ 64)
    (hr : r + n * pageSize = addr) : addedPages pgoff addr = n ↔ NearStart pgoff r := by
  have hpage : pageSize = 4096 := rfl
  rw [hpage] at hr
  rw [addedPages, NearStart, Nat.div_eq_iff (by decide), hpage]
  rcases Nat.lt_or_ge addr pgoff with hlt | hge
  · rw [mod_eq_of_lt (by omega)]
    omega
  · rw [show addr + 2 ^ 64 - pgoff = addr - pgoff + 2 ^ 64 by omega, add_mod_right, mod_eq_of_lt (by omega)]
    omega

theorem add_mod_eq_iff {p m n : Nat} (hm : m < 2 ^ 53) (hn : n < 2 ^ 53) :
    (p + m) % 2 ^ 64 = (p + n) % 2 ^ 64 ↔ m = n := by
  omega

theorem adjustPgoff_eq_iff {pgoff : Nat} (hp : pgoff < 2 ^ 64) (haddr : addr < 2 ^ 64)
    (hs : start ≤ addr) : adjustPgoff pgoff addr = linearPageIndex pgoff start addr ↔
      NearStart pgoff (start + (addr - start) % pageSize) := by
  have hlt := addedPages_lt pgoff addr
  have hr := mod_add_div' (addr - start) pageSize
  have hd : (addr - start) / pageSize < 2 ^ 53 := by
    simp only [pageSize]
    omega
  rw [← addedPages_eq_iff (n := (addr - start) / pageSize) hp haddr (by omega)]
  exact add_mod_eq_iff (lt_trans hlt (by decide)) hd

/-- Two cuts, the first of which adds `n` pages, are right together. -/
def TwiceExact (pgoff vmStart start stop : Nat) : Prop :=
  let n := addedPages pgoff start
  n ≤ (stop - vmStart) / pageSize ∧ NearStart pgoff (vmStart + n * (pageSize - 1))

instance (pgoff vmStart start stop : Nat) : Decidable (TwiceExact pgoff vmStart start stop) :=
  inferInstanceAs (Decidable (_ ∧ _))

theorem adjustPgoff_twice_iff {pgoff vmStart : Nat} (hp : pgoff < 2 ^ 64) (hstop : stop < 2 ^ 64)
    (hs : vmStart ≤ stop) (hdvd : pageSize ∣ stop - vmStart) :
    adjustPgoff (adjustPgoff pgoff start) stop = linearPageIndex pgoff vmStart stop ↔
      TwiceExact pgoff vmStart start stop := by
  rw [TwiceExact]
  have hpage : pageSize = 4096 := rfl
  have hn := addedPages_lt pgoff start
  have hadjust : adjustPgoff pgoff start = (pgoff + addedPages pgoff start) % 2 ^ 64 := rfl
  generalize addedPages pgoff start = n at *
  have hq := addedPages_lt ((pgoff + n) % 2 ^ 64) stop
  obtain ⟨d, hd⟩ := hdvd
  rw [hpage] at hd
  have hdiv : (stop - vmStart) / pageSize = d := by
    rw [hpage]
    omega
  have htwice : adjustPgoff (adjustPgoff pgoff start) stop =
      (pgoff + (n + addedPages ((pgoff + n) % 2 ^ 64) stop)) % 2 ^ 64 := by
    rw [hadjust, ← Nat.add_assoc, ← mod_add_mod (pgoff + n)]
    rfl
  rw [htwice, linearPageIndex, hdiv, add_mod_eq_iff (by omega) (by omega)]
  by_cases hle : n ≤ d
  · have hr : vmStart + n * pageSize + (d - n) * pageSize = stop := by
      rw [hpage]
      omega
    have hiff := addedPages_eq_iff (mod_lt (pgoff + n) (y := 2 ^ 64) (by decide)) hstop hr
    have hsplit : n + addedPages ((pgoff + n) % 2 ^ 64) stop = d ↔
        addedPages ((pgoff + n) % 2 ^ 64) stop = d - n := by
      omega
    rw [hsplit, hiff, and_iff_right hle]
    simp only [NearStart, hpage]
    rcases Nat.lt_or_ge (pgoff + n) (2 ^ 64) with hlt | hge
    · rw [mod_eq_of_lt hlt]
      omega
    · rw [show pgoff + n = pgoff + n - 2 ^ 64 + 2 ^ 64 by omega, add_mod_right,
        mod_eq_of_lt (by omega)]
      omega
  · exact iff_of_false (by omega) fun h => hle h.1

/-! ## Cutting and clearing -/

def upperPart (l : VmaList Vma) (v : VmaId) (addr : Nat) : Vma :=
  resize (l.area v) addr (l.stop v) (adjustPgoff (l.pgoff v) addr)

namespace WellFormed

section

variable (h : l.WellFormed)
include h

/-- An area of a list that was cut is the part below the cut, the part above it, or one that was not
cut. -/
theorem cutAt_parts (hw : w ∈ (l.cutAt addr).order) :
    (w = l.nextId ∧ (l.cutAt addr).stop w ≤ addr ∧ ∃ u ∈ l.order, (l.cutAt addr).start w = l.start u ∧
      (l.cutAt addr).stop w ≤ l.stop u ∧ (l.cutAt addr).pgoff w = l.pgoff u) ∨
    (w ∈ l.order ∧ l.Straddles w addr ∧ (l.cutAt addr).area w = l.upperPart w addr) ∨
    (w ∈ l.order ∧ ¬ l.Straddles w addr ∧ (l.cutAt addr).area w = l.area w) := by
  obtain ⟨hn, he⟩ | ⟨v, hv, hs, he⟩ := h.cutAt_cases addr
  · rw [he] at hw ⊢
    exact .inr (.inr ⟨hw, hn w hw, rfl⟩)
  · rw [he] at hw ⊢
    obtain ⟨rfl, hx⟩ | ⟨rfl, hx⟩ | ⟨hw', hne, hx⟩ := h.splitBelow_cases hv hw
    · refine .inl ⟨rfl, ?_, v, hv, ?_⟩
      · simp only [stop, hx, vmEnd_resize, le_refl]
      · simp only [start, stop, pgoff, hx, vmStart_resize,
          vmEnd_resize, vmPgoff_resize, true_and, and_true]
        exact le_of_lt hs.2
    · refine .inr (.inl ⟨hv, hs, ?_⟩)
      rw [hx, upperPart, unit, instAreaVma, mul_one]
    · refine .inr (.inr ⟨hw', fun hws => hne ?_, hx⟩)
      exact h.eq_of_covers hw' hv ⟨le_of_lt hws.1, hws.2⟩ ⟨le_of_lt hs.1, hs.2⟩

theorem mem_cutAt (addr : Nat) (hw : w ∈ l.order) : w ∈ (l.cutAt addr).order := by
  obtain ⟨-, he⟩ | ⟨v, hv, -, he⟩ := h.cutAt_cases addr
  · rw [he]
    exact hw
  · obtain ⟨A, B, hl⟩ := List.append_of_mem hv
    rw [he, (h.splitBelow_order addr hl).1]
    grind

theorem cutAt_area (addr : Nat) (hw : w ∈ l.order) :
    (l.cutAt addr).area w = if l.Straddles w addr then l.upperPart w addr else l.area w := by
  obtain ⟨rfl, -⟩ | ⟨-, hs, hx⟩ | ⟨-, hn, hx⟩ := h.cutAt_parts (h.mem_cutAt addr hw)
  · exact absurd (h.fresh _ hw) (lt_irrefl _)
  · rw [if_pos hs, hx]
  · rw [if_neg hn, hx]

section

variable (hw : w ∈ (l.cutAt addr).order) (hc : (l.cutAt addr).Covers w a)
include hw hc

theorem index_cutAt_below (ha : a < addr) :
    ∃ u ∈ l.order, l.Covers u a ∧ (l.cutAt addr).index w a = l.index u a := by
  obtain ⟨-, -, u, hu, hs, he, hp⟩ | ⟨-, -, hx⟩ | ⟨hw', -, hx⟩ := h.cutAt_parts hw
  · refine ⟨u, hu, ⟨hs ▸ hc.1, lt_of_lt_of_le hc.2 he⟩, ?_⟩
    rw [index, index, hs, hp]
  · simp only [Covers, start, hx, upperPart, vmStart_resize] at hc
    omega
  · refine ⟨w, hw', ?_, ?_⟩
    · simpa only [Covers, start, stop, hx] using hc
    · simp only [index, start, pgoff, hx]

theorem mem_of_cutAt_above (ha : addr ≤ a) : w ∈ l.order ∧ l.Covers w a := by
  obtain ⟨-, he, -⟩ | ⟨hw', hs, hx⟩ | ⟨hw', -, hx⟩ := h.cutAt_parts hw
  · have := hc.2
    omega
  · simp only [Covers, stop, hx, upperPart, vmEnd_resize] at hc
    exact ⟨hw', le_trans (le_of_lt hs.1) ha, hc.2⟩
  · exact ⟨hw', by simpa only [Covers, start, stop, hx] using hc⟩

end

theorem index_cutAt_above (hw : w ∈ l.order) (a : Nat) : (l.cutAt addr).index w a =
      if l.Straddles w addr then linearPageIndex (adjustPgoff (l.pgoff w) addr) addr a
      else l.index w a := by
  have hx := h.cutAt_area addr hw
  by_cases hs : l.Straddles w addr
  · rw [if_pos hs] at hx ⊢
    simp only [index, pgoff, start, hx, upperPart, vmPgoff_resize, vmStart_resize]
  · rw [if_neg hs] at hx ⊢
    simp only [index, pgoff, start, hx]

end

theorem linearPageIndex_eq_index_iff {pgoff : Nat} (hal : l.PageAligned) (hw : w ∈ l.order)
    (haddr : pageSize ∣ addr) (hs : l.start w ≤ addr) (ha : addr ≤ a) (hp : pgoff < 2 ^ 64) :
    linearPageIndex pgoff addr a = l.index w a ↔ pgoff = l.index w addr := by
  have hlt : l.index w addr < 2 ^ 64 := mod_lt _ (by decide)
  rw [index, ← linearPageIndex_trans (hal w hw).1 haddr hs ha, linearPageIndex_congr, ← index,
    mod_eq_of_lt hp, mod_eq_of_lt hlt]

end WellFormed

theorem adjustPgoff_lt (pgoff start : Nat) : adjustPgoff pgoff start < 2 ^ 64 :=
  mod_lt _ (by decide)

/-- A list that is cut keeps all indices exactly when the part above the cut does. -/
theorem WellFormed.sameIndex_cutAt (h : l.WellFormed) :
    SameIndex l (l.cutAt addr) ↔ ∀ v ∈ l.order, l.Straddles v addr → ∀ a, addr ≤ a →
      a < l.stop v → linearPageIndex (adjustPgoff (l.pgoff v) addr) addr a = l.index v a := by
  constructor
  · intro hsame v hv hs a ha hav
    have hc : (l.cutAt addr).Covers v a := by
      simp only [Covers, start, stop, h.cutAt_area addr hv, if_pos hs, upperPart,
        vmStart_resize, vmEnd_resize]
      exact ⟨ha, hav⟩
    have hidx := hsame a v hv v (h.mem_cutAt addr hv) ⟨le_trans (le_of_lt hs.1) ha, hav⟩ hc
    rwa [h.index_cutAt_above hv, if_pos hs] at hidx
  · intro hex a v hv w hw hva hwa
    by_cases ha : a < addr
    · obtain ⟨u, hu, huc, he⟩ := h.index_cutAt_below hw hwa ha
      rw [he, h.eq_of_covers hu hv huc hva]
    · have ha := Nat.le_of_not_lt ha
      obtain ⟨hw', hwc⟩ := h.mem_of_cutAt_above hw hwa ha
      obtain rfl := h.eq_of_covers hw' hv hwc hva
      rw [h.index_cutAt_above hv]
      split
      · rename_i hs
        exact hex w hv hs a ha hva.2
      · rfl

theorem nearStart_iff_aligned (hal : l.PageAligned) (hword : l.Words) (hv : v ∈ l.order)
    (haddr : pageSize ∣ addr) (hs : l.Straddles v addr) :
    adjustPgoff (l.pgoff v) addr = l.index v addr ↔ NearStart (l.pgoff v) (l.start v) := by
  rw [index, adjustPgoff_eq_iff (hword v hv).1 (lt_trans hs.2 (hword v hv).2) (le_of_lt hs.1),
    mod_eq_zero_of_dvd (dvd_sub haddr (hal v hv).1), Nat.add_zero]

theorem WellFormed.sameIndex_cutAt_iff (h : l.WellFormed) (hal : l.PageAligned) (hword : l.Words)
    (haddr : pageSize ∣ addr) : SameIndex l (l.cutAt addr) ↔
      ∀ v ∈ l.order, l.Straddles v addr → NearStart (l.pgoff v) (l.start v) := by
  rw [h.sameIndex_cutAt]
  refine forall₃_congr fun v hv hs => ?_
  rw [← nearStart_iff_aligned hal hword hv haddr hs]
  have hiff := fun a ha => linearPageIndex_eq_index_iff (a := a) hal hv haddr (le_of_lt hs.1) ha
    (adjustPgoff_lt (l.pgoff v) addr)
  exact ⟨fun hall => (hiff addr (le_refl _)).1 (hall addr (le_refl _) hs.2),
    fun hcut a ha _ => (hiff a ha).2 hcut⟩

def cutPgoff (l : VmaList Vma) (addr : Nat) (v : VmaId) : Nat :=
  if l.Straddles v addr then adjustPgoff (l.pgoff v) addr else l.pgoff v

/-- The area that contains the end of the range gets the right index there, after the one or two
cuts that are made in it. -/
def ClearExact (l : VmaList Vma) (start stop : Nat) : Prop :=
  ∀ v ∈ l.order, l.Straddles v stop →
    if l.Straddles v start then TwiceExact (l.pgoff v) (l.start v) start stop
    else NearStart (l.pgoff v) (l.start v)

theorem adjustPgoff_cutPgoff_iff (hal : l.PageAligned) (hword : l.Words) (hstop : pageSize ∣ stop)
    (hv : v ∈ l.order) (hs : l.Straddles v stop) :
    adjustPgoff (l.cutPgoff start v) stop = l.index v stop ↔
      if l.Straddles v start then TwiceExact (l.pgoff v) (l.start v) start stop
      else NearStart (l.pgoff v) (l.start v) := by
  rw [cutPgoff]
  split
  · exact adjustPgoff_twice_iff (hword v hv).1 (lt_trans hs.2 (hword v hv).2) (le_of_lt hs.1)
      (dvd_sub hstop (hal v hv).1)
  · exact nearStart_iff_aligned hal hword hv hstop hs

section

variable (h : l.WellFormed) (hlt : start < stop)

include h

theorem WellFormed.pgoff_cutAt (hv : v ∈ l.order) : (l.cutAt addr).pgoff v = l.cutPgoff addr v := by
  rw [pgoff, h.cutAt_area addr hv, cutPgoff]
  split
  · rw [upperPart, vmPgoff_resize]
  · rfl

include hlt

theorem WellFormed.straddles_cutAt_iff (hv : v ∈ l.order) :
    (l.cutAt start).Straddles v stop ↔ l.Straddles v stop := by
  have hx := h.cutAt_area start hv
  by_cases hs : l.Straddles v start
  · rw [if_pos hs] at hx
    simp only [Straddles, VmaList.start, VmaList.stop, hx, upperPart, vmStart_resize, vmEnd_resize]
    exact and_congr_left' (iff_of_true hlt (lt_trans hs.1 hlt))
  · rw [if_neg hs] at hx
    simp only [Straddles, VmaList.start, VmaList.stop, hx]

/-- Clearing a range keeps all indices exactly when the area above it is right. -/
theorem WellFormed.sameIndex_clear_iff (hal : l.PageAligned) (hword : l.Words)
    (hstop : pageSize ∣ stop) :
    SameIndex l (((l.cutAt start).cutAt stop).clearRange start stop) ↔ l.ClearExact start stop := by
  have h₁ := h.cutAt start
  constructor
  · intro hsame v hv hs
    have hv₁ := h.mem_cutAt start hv
    have hs₁ := (h.straddles_cutAt_iff hlt hv).2 hs
    have hx := h₁.cutAt_area stop hv₁
    rw [if_pos hs₁] at hx
    have hc : ((l.cutAt start).cutAt stop).Covers v stop := by
      simp only [Covers, VmaList.start, VmaList.stop, hx, upperPart, vmStart_resize, vmEnd_resize]
      exact ⟨le_refl _, hs₁.2⟩
    have hmem : v ∈ (((l.cutAt start).cutAt stop).clearRange start stop).order := by
      refine List.mem_filter.2 ⟨h₁.mem_cutAt stop hv₁, ?_⟩
      have hout : ¬ ((l.cutAt start).cutAt stop).Inside start stop v := fun hin =>
        absurd hc.2 (not_lt.2 hin.2)
      simpa using hout
    have hidx := hsame stop v hv v hmem ⟨le_of_lt hs.1, hs.2⟩ hc
    have hidx' : ((l.cutAt start).cutAt stop).index v stop = l.index v stop := hidx
    rw [h₁.index_cutAt_above hv₁, if_pos hs₁, h.pgoff_cutAt hv] at hidx'
    exact (adjustPgoff_cutPgoff_iff hal hword hstop hv hs).1 ((linearPageIndex_eq_index_iff hal hv
      hstop (le_of_lt hs.1) (le_refl _) (adjustPgoff_lt _ _)).1 hidx')
  · intro hex a v hv w hw hva hwa
    obtain ⟨hw₂, -⟩ := List.mem_filter.1 hw
    have hwa₂ : ((l.cutAt start).cutAt stop).Covers w a := hwa
    change ((l.cutAt start).cutAt stop).index w a = l.index v a
    have hcov := (h₁.cutAt stop).covered_clearRange ((h₁.cutAt_pieces (f := fun _ => ())
      (fun _ _ _ _ => rfl) stop).not_straddles (h.not_straddles_cutAt start))
      (h₁.not_straddles_cutAt stop) a
    have hout := (hcov.1 ⟨w, hw, hwa⟩).2
    by_cases ha : a < stop
    · -- below the range neither cut has touched the index
      obtain ⟨u, hu, huc, he⟩ := h₁.index_cutAt_below hw₂ hwa₂ ha
      obtain ⟨t, ht, htc, he'⟩ := h.index_cutAt_below hu huc (by omega)
      rw [he, he', h.eq_of_covers ht hv htc hva]
    · have ha := Nat.le_of_not_lt ha
      obtain ⟨hw₁, hwa₁⟩ := h₁.mem_of_cutAt_above hw₂ hwa₂ ha
      obtain ⟨hw₀, hwa₀⟩ := h.mem_of_cutAt_above hw₁ hwa₁ (le_trans (le_of_lt hlt) ha)
      obtain rfl := h.eq_of_covers hw₀ hv hwa₀ hva
      rw [h₁.index_cutAt_above hw₁]
      by_cases hs : l.Straddles w stop
      · rw [if_pos ((h.straddles_cutAt_iff hlt hv).2 hs), h.pgoff_cutAt hv]
        exact (linearPageIndex_eq_index_iff hal hv hstop (le_of_lt hs.1) ha
          (adjustPgoff_lt _ _)).2 ((adjustPgoff_cutPgoff_iff hal hword hstop hv hs).2 (hex w hv hs))
      · -- an area above the range that was cut at neither end
        have hstart : stop ≤ l.start w := Nat.le_of_not_lt fun hlt' =>
          hs ⟨hlt', lt_of_le_of_lt ha hva.2⟩
        have hns : ¬ l.Straddles w start := fun hs' =>
          absurd hs'.1 (not_lt.2 (le_trans (le_of_lt hlt) hstart))
        rw [if_neg (fun hs' => hs ((h.straddles_cutAt_iff hlt hv).1 hs')),
          h.index_cutAt_above hv, if_neg hns]

end

theorem Sorted.sameIndex_refl (h : l.Sorted) : SameIndex l l := fun _ _ hv _ hw hva hwa => by
  rw [h.eq_of_covers hw hv hwa hva]

/-- When the cuts of `simple_do_vma_munmap` are exact: it finds nothing to clear, it cannot make the
first cut, or the cuts that it makes are. -/
def MunmapExact (l : VmaList Vma) (start stop : Nat) (r : Allocs) : Prop :=
  ((∀ v ∈ l.order, ¬ l.Overlaps v start stop) ∨ ¬ l.HasPred start) ∨
    ((∃ v ∈ l.order, l.Straddles v start) ∧ r.first = false) ∨
    if (∃ v ∈ l.order, l.Straddles v stop) ∧ r.last = false then
      ∀ v ∈ l.order, l.Straddles v start → NearStart (l.pgoff v) (l.start v)
    else l.ClearExact start stop

theorem WellFormed.munmap_sameIndex_iff (h : l.WellFormed) (hal : l.PageAligned) (hword : l.Words)
    (hlt : start < stop) (hstart : pageSize ∣ start) (hstop : pageSize ∣ stop) (r : Allocs) :
    (∀ err l', l.simpleDoVmaMunmap start stop r = some (err, l') → SameIndex l l') ↔
      l.MunmapExact start stop r := by
  have hle := le_of_lt hlt
  by_cases hnot : (∀ v ∈ l.order, ¬ l.Overlaps v start stop) ∨ ¬ l.HasPred start
  · refine iff_of_true (fun err l' hl' => ?_) (.inl hnot)
    rw [simpleDoVmaMunmap_of_none (h.findVmaIntersection_of_not hle hnot)] at hl'
    obtain rfl : l = l' := (Prod.mk.inj (some.inj hl')).2
    exact h.sameIndex_refl
  obtain ⟨hov, hp⟩ := not_or.1 hnot
  obtain ⟨w, hw, ho⟩ : ∃ w ∈ l.order, l.Overlaps w start stop := by
    simpa only [not_forall, not_not, exists_prop] using hov
  obtain ⟨A, v, B, hl, hne, hA, hov⟩ := h.exists_first (not_not.1 hp) hw ho
  have hone : ∀ (err : Int) (l₁ : VmaList Vma),
      (∀ err' l', some (err, l₁) = some (err', l') → SameIndex l l') ↔ SameIndex l l₁ :=
    fun err l₁ => ⟨fun hall => hall err l₁ rfl, fun hs err' l' he =>
      (Prod.mk.inj (some.inj he)).2 ▸ hs⟩
  rw [h.simpleDoVmaMunmap_of_first hl hne hA hov hlt, MunmapExact, or_iff_right hnot]
  by_cases hfirst : (∃ v ∈ l.order, l.Straddles v start) ∧ r.first = false
  · rw [if_pos hfirst, hone]
    exact iff_of_true h.sameIndex_refl (.inl hfirst)
  rw [if_neg hfirst, or_iff_right hfirst]
  by_cases hlast : (∃ v ∈ l.order, l.Straddles v stop) ∧ r.last = false
  · rw [if_pos hlast, if_pos hlast, hone]
    exact h.sameIndex_cutAt_iff hal hword hstart
  · rw [if_neg hlast, if_neg hlast, hone]
    exact h.sameIndex_clear_iff hlt hal hword hstop

/-! ## Calls that fail -/

def mapping (l : VmaList Vma) (a : Nat) : Option (Nat × Option FileId × Nat) :=
  (l.simpleFindVma a).map fun v => ((l.area v).vmFlags, (l.area v).vmFile, l.index v a)

theorem Sorted.mapping_of_covers (h : l.Sorted) (hv : v ∈ l.order) (hc : l.Covers v a) :
    l.mapping a = some ((l.area v).vmFlags, (l.area v).vmFile, l.index v a) := by
  rw [mapping, WellFormed.simpleFindVma_of_covers h hv hc, map_some]

theorem mapping_of_not_covered (hc : ¬ l.Covered a) : l.mapping a = none := by
  rw [mapping, map_eq_none_iff, simpleFindVma, List.find?_eq_none]
  exact fun v hv hva => hc ⟨v, hv, by simpa [Covers] using hva⟩

theorem WellFormed.mapping_cutAt_iff (h : l.WellFormed) :
    (∀ a, (l.cutAt addr).mapping a = l.mapping a) ↔ SameIndex l (l.cutAt addr) := by
  have h' := h.cutAt addr
  constructor
  · intro hall a v hv w hw hva hwa
    have ha := hall a
    rw [h'.mapping_of_covers hw hwa, h.mapping_of_covers hv hva] at ha
    simp only [some.injEq, Prod.mk.injEq] at ha
    exact ha.2.2
  · intro hsame a
    by_cases hc : (l.cutAt addr).Covered a
    · obtain ⟨w, hw, hwa⟩ := hc
      obtain ⟨v, hv, hs, he, hf⟩ := h.cutAt_pieces (f := fun x : Vma => (x.vmFlags, x.vmFile))
        (fun _ _ _ _ => rfl) addr w hw
      have hva : l.Covers v a := ⟨le_trans hs hwa.1, lt_of_lt_of_le hwa.2 he⟩
      rw [h'.mapping_of_covers hw hwa, h.mapping_of_covers hv hva, hsame a v hv w hw hva hwa]
      simp only [Prod.mk.injEq] at hf
      rw [hf.1, hf.2]
    · rw [mapping_of_not_covered hc, mapping_of_not_covered fun hl => hc ((h.covered_cutAt addr a).2 hl)]

/-- `vm_pgoff` is right for the first address above a cut at `addr`, and no later one is in another
page counted from `vm_start` than counted from the cut. -/
def UpperExact (pgoff vmStart vmEnd addr : Nat) : Prop :=
  NearStart pgoff (vmStart + (addr - vmStart) % pageSize) ∧
    (addr - vmStart) % pageSize + min (vmEnd - addr) pageSize ≤ pageSize

instance (pgoff vmStart vmEnd addr : Nat) : Decidable (UpperExact pgoff vmStart vmEnd addr) :=
  inferInstanceAs (Decidable (_ ∧ _))

theorem upperExact_iff {pgoff vmStart vmEnd : Nat} (hp : pgoff < 2 ^ 64) (hend : vmEnd < 2 ^ 64)
    (hs : vmStart ≤ addr) (hlt : addr < vmEnd) :
    (∀ a, addr ≤ a → a < vmEnd →
      linearPageIndex (adjustPgoff pgoff addr) addr a = linearPageIndex pgoff vmStart a) ↔
      UpperExact pgoff vmStart vmEnd addr := by
  have hpage : pageSize = 4096 := rfl
  have hfirst := adjustPgoff_eq_iff hp (lt_trans hlt hend) hs
  rw [UpperExact, ← hfirst]
  have hmod : adjustPgoff pgoff addr % 2 ^ 64 = adjustPgoff pgoff addr := mod_eq_of_lt (mod_lt _ (by decide))
  -- with the right first address, the pages from the cut on add up
  have hadd : adjustPgoff pgoff addr = linearPageIndex pgoff vmStart addr → ∀ a, addr ≤ a →
      a < vmEnd → (linearPageIndex (adjustPgoff pgoff addr) addr a = linearPageIndex pgoff vmStart a ↔
        (addr - vmStart) / pageSize + (a - addr) / pageSize = (a - vmStart) / pageSize) := by
    intro heq a ha hlt'
    rw [linearPageIndex, heq, linearPageIndex, mod_add_mod, Nat.add_assoc]
    exact add_mod_eq_iff (by rw [hpage]; omega) (by rw [hpage]; omega)
  constructor
  · intro hall
    have heq : adjustPgoff pgoff addr = linearPageIndex pgoff vmStart addr := by
      have := hall addr (le_refl _) hlt
      rwa [linearPageIndex_self, hmod] at this
    refine ⟨heq, ?_⟩
    have hlast := (hadd heq (addr + min (vmEnd - addr) pageSize - 1) (by rw [hpage]; omega)
      (by omega)).1 (hall _ (by rw [hpage]; omega) (by omega))
    rw [hpage] at hlast ⊢
    omega
  · rintro ⟨heq, hwithin⟩ a ha hlt'
    refine (hadd heq a ha hlt').2 ?_
    rw [hpage] at hwithin ⊢
    omega

section

variable (l : VmaList Vma) (start stop : Nat) (r : Allocs)

/-- A call that returns an error has left the list in order and everything mapped as it was. -/
def UnchangedOnFailure : Prop :=
  ∀ err l', l.simpleDoVmaMunmap start stop r = some (err, l') → err ≠ 0 →
    l'.Sorted ∧ ∀ a, l'.mapping a = l.mapping a

/-- The call does not fail at its second cut, or the page indices are right above the first. -/
def FailureExact : Prop :=
  ((∀ v ∈ l.order, ¬ l.Overlaps v start stop) ∨ ¬ l.HasPred start) ∨
    ((∃ v ∈ l.order, l.Straddles v start) ∧ r.first = false) ∨
    ¬ ((∃ v ∈ l.order, l.Straddles v stop) ∧ r.last = false) ∨
    ∀ v ∈ l.order, l.Straddles v start → UpperExact (l.pgoff v) (l.start v) (l.stop v) start

end

/-- A call that cannot make its second cut has made the first, which shows in the page indices only.
-/
theorem unchangedOnFailure_iff (l : VmaList Vma) (start stop : Nat) (r : Allocs)
    (h : l.WellFormed) (hword : l.Words) (hlt : start < stop) :
    l.UnchangedOnFailure start stop r ↔ l.FailureExact start stop r := by
  have hle := le_of_lt hlt
  by_cases hnot : (∀ v ∈ l.order, ¬ l.Overlaps v start stop) ∨ ¬ l.HasPred start
  · refine iff_of_true (fun err l' hl' herr => ?_) (.inl hnot)
    rw [simpleDoVmaMunmap_of_none (h.findVmaIntersection_of_not hle hnot)] at hl'
    exact absurd (Prod.mk.inj (some.inj hl')).1.symm herr
  obtain ⟨hov, hp⟩ := not_or.1 hnot
  obtain ⟨w, hw, ho⟩ : ∃ w ∈ l.order, l.Overlaps w start stop := by
    simpa only [not_forall, not_not, exists_prop] using hov
  obtain ⟨A, v, B, hl, hne, hA, hov⟩ := h.exists_first (not_not.1 hp) hw ho
  rw [UnchangedOnFailure, h.simpleDoVmaMunmap_of_first hl hne hA hov hlt, FailureExact,
    or_iff_right hnot]
  by_cases hfirst : (∃ v ∈ l.order, l.Straddles v start) ∧ r.first = false
  · rw [if_pos hfirst]
    refine iff_of_true (fun err l' hl' _ => ?_) (.inl hfirst)
    obtain ⟨-, rfl⟩ := Prod.mk.inj (some.inj hl')
    exact ⟨h.toSorted, fun _ => rfl⟩
  rw [if_neg hfirst, or_iff_right hfirst]
  by_cases hlast : (∃ v ∈ l.order, l.Straddles v stop) ∧ r.last = false
  · have hupper : (∀ v ∈ l.order, l.Straddles v start →
        UpperExact (l.pgoff v) (l.start v) (l.stop v) start) ↔ SameIndex l (l.cutAt start) := by
      rw [h.sameIndex_cutAt]
      refine forall₃_congr fun v hv hs => ?_
      exact (upperExact_iff (hword v hv).1 (hword v hv).2 (le_of_lt hs.1) hs.2).symm
    rw [if_pos hlast, or_iff_right (not_not.2 hlast), hupper, ← h.mapping_cutAt_iff]
    constructor
    · intro hall
      exact (hall _ _ rfl (by decide)).2
    · intro hmap err l' hl' _
      obtain ⟨-, rfl⟩ := Prod.mk.inj (some.inj hl')
      exact ⟨(h.cutAt start).toSorted, hmap⟩
  · rw [if_neg hlast]
    refine iff_of_true (fun err l' hl' herr => ?_) (.inl hlast)
    exact absurd (Prod.mk.inj (some.inj hl')).1.symm herr

def fileAbove : VmaList Vma := ofAreas [anonAt 4096 8192, ⟨12288, 24576, 3, 3, some 0, false⟩]

/-- An anonymous area whose `vm_pgoff` is its address. -/
def byAddress : VmaList Vma := ofAreas [anonAt 4096 8192, ⟨12288, 24576, 12288, 3, none, false⟩]

/-- A hole is asked for, and the second split finds no memory. -/
theorem unchangedOnFailure_iff_byAddress : byAddress.UnchangedOnFailure 16384 20480 ⟨true, false, true⟩ :=
  (unchangedOnFailure_iff _ 16384 20480 ⟨true, false, true⟩ ⟨⟨by decide, by decide⟩, by decide⟩
    (by decide) (by decide)).mpr (.inr (.inr (.inr (by decide))))

/-- The page in the middle cannot be unmapped for lack of memory: the file page at its address was 4
before and is 6 now. -/
theorem failed_munmap_moves_file_page :
    ¬ fileAbove.UnchangedOnFailure 16384 20480 ⟨true, false, true⟩ := by
  intro hkeep
  obtain ⟨l', hl', hmap⟩ : ∃ l', fileAbove.simpleDoVmaMunmap 16384 20480 ⟨true, false, true⟩ =
      some (-enomem, l') ∧ l'.mapping 16384 = some (3, some 0, 6) := ⟨_, rfl, by decide⟩
  have := (hkeep _ l' hl' (by decide)).2 16384
  rw [hmap] at this
  exact absurd this (by decide)

end MyOS2.Mmap.VmaList
