import MyOS2.Mm.VmMap.Proofs.Offsets

/-!
# Page indices after a merge

A merge adjusts one area. What it takes off the list or cuts behind that area was mapped
before, so the indices are kept only if they are those of the request. The area itself
gets a new `vm_pgoff` even where its start stays.
-/

namespace MyOS2.Mmap.VmaList

open VmaList Nat Area

variable {l l' : VmaList Vma} {v w p k t : VmaId} {A B : List VmaId} {a s e : Nat} {req : Vma}
  {prev : Option VmaId}

section

variable (h : l.Sorted)
include h

/-- The areas of a list in which one was adjusted: what lies before it, the area itself, and what
lies behind its new end, perhaps cut there. -/
theorem Sorted.simpleVmaAdjust_cases (hl : l.order = A ++ v :: B)
    (hw : w ∈ (l.simpleVmaAdjust v s e).order) :
    (w ∈ A ∧ (l.simpleVmaAdjust v s e).area w = l.area w) ∨
    (w = v ∧ (l.simpleVmaAdjust v s e).area w = resize (l.area v) s e (adjustPgoff (l.pgoff v) s)) ∨
    (w ∈ B ∧ e ≤ l.start w ∧ (l.simpleVmaAdjust v s e).area w = l.area w) ∨
    (w ∈ B ∧ l.start w < e ∧ (l.simpleVmaAdjust v s e).area w =
      resize (l.area w) e (l.stop w) ((l.pgoff w + (e - l.start w) / pageSize) % 2 ^ 64)) := by
  obtain ⟨M, R, rfl, hM, hR⟩ := h.cut_behind hl e
  have hA := h.notMem_before hl
  have hB := h.notMem_behind hl
  have hneA : ∀ u ∈ A, u ≠ v := fun u hu he => hA (he ▸ hu)
  have hneR : ∀ u ∈ R, u ≠ v := fun u hu he => hB (he ▸ List.mem_append_right M hu)
  generalize hx : resize (l.area v) s e (adjustPgoff (l.pgoff v) s) = x
  by_cases hcut : ∃ k R', R = k :: R' ∧ l.start k < e
  · obtain ⟨k, R', rfl, hk⟩ := hcut
    have hks : e < l.stop k := hR k List.mem_cons_self
    have hl' : l.order = (A ++ v :: M) ++ k :: R' := by simpa using hl
    have hkv := hneR k List.mem_cons_self
    rw [simpleVmaAdjust_of_cut hl hA hB hM hks hk, unit, instAreaVma, mul_one] at hw ⊢
    rw [hx] at hw ⊢
    have hkept : ∀ u, u ≠ k → u ≠ v → ∀ y, ((l.replaceIn A v x (k :: R')
        (l.mapCount - M.length)).setArea k y).area u = l.area u := fun u huk huv y => by
      rw [setArea_area_of_ne _ _ huk]
      exact setArea_area_of_ne l x huv
    have hwo : w ∈ A ∨ w = v ∨ w = k ∨ w ∈ R' := by
      simpa [replaceIn] using hw
    rcases hwo with hwA | rfl | rfl | hwR
    · refine .inl ⟨hwA, hkept w ?_ (hneA w hwA) _⟩
      rintro rfl
      exact h.notMem_before hl' (List.mem_append_left _ hwA)
    · rw [setArea_area_of_ne _ _ hkv.symm]
      simp [replaceIn]
    · refine .inr (.inr (.inr ⟨by simp, hk, ?_⟩))
      rw [setArea_area_self, pages_vma]
    · refine .inr (.inr (.inl ⟨by simp [hwR], ?_, hkept w ?_ (hneR w (by simp [hwR])) _⟩))
      · exact le_trans (le_of_lt hks) (h.above hl' w hwR)
      · rintro rfl
        exact h.notMem_behind hl' hwR
  · have hstart : ∀ k ∈ R, e ≤ l.start k := by
      cases R with
      | nil => simp
      | cons k R' =>
        have hk : e ≤ l.start k := Nat.le_of_not_lt fun hk => hcut ⟨k, R', rfl, hk⟩
        have hl' : l.order = (A ++ v :: M) ++ k :: R' := by simpa using hl
        refine List.forall_mem_cons.2 ⟨hk, fun u hu => ?_⟩
        exact le_trans (le_of_lt (hR k List.mem_cons_self)) (h.above hl' u hu)
    rw [simpleVmaAdjust_of_apart hl hA hB hM hR hstart, unit, instAreaVma, mul_one] at hw ⊢
    rw [hx] at hw ⊢
    have hwo : w ∈ A ∨ w = v ∨ w ∈ R := by simpa [replaceIn] using hw
    rcases hwo with hwA | rfl | hwR
    · exact .inl ⟨hwA, setArea_area_of_ne l x (hneA w hwA)⟩
    · exact .inr (.inl ⟨rfl, by simp [replaceIn]⟩)
    · exact .inr (.inr (.inl ⟨by simp [hwR], hstart w hwR, setArea_area_of_ne l x (hneR w hwR)⟩))

section

variable (hv : v ∈ l.order)
include hv

theorem Sorted.mem_simpleVmaAdjust : v ∈ (l.simpleVmaAdjust v s e).order := by
  obtain ⟨A, B, hl⟩ := List.append_of_mem hv
  obtain ⟨M, R, rfl, hM, hR⟩ := h.cut_behind hl e
  rw [simpleVmaAdjust_eq hl (h.notMem_before hl) (h.notMem_behind hl) hM fun u hu =>
    hR u (List.mem_of_mem_head? hu)]
  split
  · simp
  · split <;> simp

theorem Sorted.simpleVmaAdjust_self : (l.simpleVmaAdjust v s e).area v =
      resize (l.area v) s e (adjustPgoff (l.pgoff v) s) := by
  obtain ⟨A, B, hl⟩ := List.append_of_mem hv
  obtain ⟨hA, -⟩ | ⟨-, hx⟩ | ⟨hB, -⟩ | ⟨hB, -⟩ :=
    h.simpleVmaAdjust_cases hl (h.mem_simpleVmaAdjust hv)
  · exact absurd hA (h.notMem_before hl)
  · exact hx
  · exact absurd hB (h.notMem_behind hl)
  · exact absurd hB (h.notMem_behind hl)

theorem Sorted.span_simpleVmaAdjust (s e : Nat) :
    (l.simpleVmaAdjust v s e).start v = s ∧ (l.simpleVmaAdjust v s e).stop v = e := by
  rw [start, stop, h.simpleVmaAdjust_self hv]
  exact ⟨vmStart_resize _ _ _ _, vmEnd_resize _ _ _ _⟩

theorem Sorted.index_simpleVmaAdjust_self (s e a : Nat) :
    (l.simpleVmaAdjust v s e).index v a = linearPageIndex (adjustPgoff (l.pgoff v) s) s a := by
  rw [index, (h.span_simpleVmaAdjust hv s e).1, pgoff, h.simpleVmaAdjust_self hv, vmPgoff_resize]

end

/-- The other areas of such a list are parts of what they were, with the same indices, and lie
before the adjusted one or behind its new end. -/
theorem Sorted.index_simpleVmaAdjust (hal : l.PageAligned) (he : pageSize ∣ e)
    (hl : l.order = A ++ v :: B) (hw : w ∈ (l.simpleVmaAdjust v s e).order) (hne : w ≠ v)
    (hc : (l.simpleVmaAdjust v s e).Covers w a) :
    w ∈ l.order ∧ l.Covers w a ∧ (l.simpleVmaAdjust v s e).index w a = l.index w a ∧
      (w ∈ A ∨ e ≤ a) := by
  have hsame : w ∈ A ++ B → (l.simpleVmaAdjust v s e).area w = l.area w →
      w ∈ l.order ∧ l.Covers w a ∧ (l.simpleVmaAdjust v s e).index w a = l.index w a :=
    fun hmem hx => by
      refine ⟨by rw [hl]; grind, ?_, ?_⟩
      · simpa only [Covers, start, stop, hx] using hc
      · simp only [index, start, pgoff, hx]
  obtain ⟨hA, hx⟩ | ⟨rfl, -⟩ | ⟨hB, hes, hx⟩ | ⟨hB, hse, hx⟩ := h.simpleVmaAdjust_cases hl hw
  · obtain ⟨h₁, h₂, h₃⟩ := hsame (List.mem_append_left B hA) hx
    exact ⟨h₁, h₂, h₃, .inl hA⟩
  · exact absurd rfl hne
  · obtain ⟨h₁, h₂, h₃⟩ := hsame (List.mem_append_right A hB) hx
    exact ⟨h₁, h₂, h₃, .inr (le_trans hes h₂.1)⟩
  · have hwl : w ∈ l.order := by rw [hl]; grind
    simp only [Covers, start, stop, hx, vmStart_resize, vmEnd_resize] at hc
    refine ⟨hwl, ⟨le_trans (le_of_lt hse) hc.1, hc.2⟩, ?_, .inr hc.1⟩
    rw [index, pgoff, start, hx, vmStart_resize, vmPgoff_resize]
    exact linearPageIndex_trans (hal w hwl).1 he (le_of_lt hse) hc.1

end

/-! ## What a merge is to do -/

def requested (req : Vma) (a : Nat) : Nat := linearPageIndex req.vmPgoff req.vmStart a

/-- What was mapped in the range before has the index that is requested. -/
def Consistent (l : VmaList Vma) (req : Vma) : Prop :=
  ∀ a, req.vmStart ≤ a → a < req.vmEnd → ∀ v ∈ l.order, l.Covers v a → l.index v a = requested req a

/-- All addresses have kept their index, and those of the range have the one that is requested. -/
def KeepsMerged (l l' : VmaList Vma) (req : Vma) : Prop :=
  SameIndex l l' ∧
  ∀ a, req.vmStart ≤ a → a < req.vmEnd → ∀ w ∈ l'.order, l'.Covers w a →
    l'.index w a = requested req a

/-- If the area that takes the range maps all of it, what was mapped there before has the index that
is requested. -/
theorem KeepsMerged.consistent (hk : KeepsMerged l l' req) (ht : t ∈ l'.order)
    (hs : l'.start t ≤ req.vmStart) (he : req.vmEnd ≤ l'.stop t) : l.Consistent req := by
  intro a ha ha' v hv hva
  have hc : l'.Covers t a := ⟨le_trans hs ha, lt_of_lt_of_le ha' he⟩
  rw [← hk.1 a v hv t ht hva hc, hk.2 a ha ha' t ht hc]

theorem linearPageIndex_eq_requested {pgoff start : Nat} (hs : pageSize ∣ start)
    (hreq : pageSize ∣ req.vmStart) (hle : start ≤ req.vmStart) (ha : req.vmStart ≤ a)
    (h : linearPageIndex pgoff start req.vmStart = req.vmPgoff % 2 ^ 64) :
    linearPageIndex pgoff start a = requested req a := by
  rw [← linearPageIndex_trans hs hreq hle ha, h, requested, linearPageIndex_congr, mod_mod]

section

variable (h : l.WellFormed) (hal : l.PageAligned) (hlt : req.vmStart < req.vmEnd)
  (hstart : pageSize ∣ req.vmStart) (hend : pageSize ∣ req.vmEnd)

include hal hlt hstart hend in
/-- The area that can be merged behind the range continues the request, if what was mapped in the
range has the index that is requested. -/
theorem index_next (hf : l.simpleFindVma req.vmEnd = some k) (hm : l.MergesBefore req k)
    (hc : l.Consistent req) (ha : req.vmEnd ≤ a) : l.index k a = requested req a := by
  obtain ⟨hk, hks, hke⟩ := WellFormed.covers_of_simpleFindVma hf
  have hkal := (hal k hk).1
  by_cases heq : l.start k = req.vmEnd
  · have hoff : l.pgoff k = linearPageIndex req.vmPgoff req.vmStart req.vmEnd := by
      have := hm.2
      rw [pages_vma] at this
      exact this
    rw [index, heq, hoff, requested]
    exact linearPageIndex_trans hstart hend (le_of_lt hlt) ha
  · -- a page of the area that lies in the range
    have hmid : pageSize ∣ max (l.start k) req.vmStart := by
      rcases le_total (l.start k) req.vmStart with hle | hle
      · rwa [max_eq_right hle]
      · rwa [max_eq_left hle]
    have hlow := le_max_left (l.start k) req.vmStart
    have hlow' := le_max_right (l.start k) req.vmStart
    have hhigh : max (l.start k) req.vmStart < req.vmEnd := Nat.max_lt.2 ⟨by omega, hlt⟩
    have hidx := hc _ hlow' hhigh k hk ⟨hlow, Nat.lt_trans hhigh hke⟩
    rw [index] at hidx ⊢
    rw [← linearPageIndex_trans hkal hmid hlow (by omega), hidx, requested, requested]
    exact linearPageIndex_trans hstart hmid hlow' (by omega)

include h hal hlt hstart hend

theorem keepsMerged_prev_iff (hp : p ∈ l.order) (hm : l.MergesAfter req p)
    (he : e = req.vmEnd ∨ ∃ k, l.simpleFindVma req.vmEnd = some k ∧ l.MergesBefore req k ∧
      e = l.stop k) :
    KeepsMerged l (l.simpleVmaAdjust p (l.start p) e) req ↔
      adjustPgoff (l.pgoff p) (l.start p) = l.pgoff p % 2 ^ 64 ∧ l.Consistent req := by
  obtain ⟨A, B, hl⟩ := List.append_of_mem hp
  have hstop : l.stop p = req.vmStart := hm.1
  have hne := h.nonempty p hp
  have hee : req.vmEnd ≤ e := by
    rcases he with rfl | ⟨k, hf, -, rfl⟩
    · exact le_refl _
    · exact le_of_lt (WellFormed.covers_of_simpleFindVma hf).2.2
  have hpm : p ∈ (l.simpleVmaAdjust p (l.start p) e).order := h.mem_simpleVmaAdjust hp
  obtain ⟨hxs, hxe⟩ := h.span_simpleVmaAdjust hp (l.start p) e
  have hidx := h.index_simpleVmaAdjust_self hp (l.start p) e
  constructor
  · intro hk
    refine ⟨?_, hk.consistent hpm ?_ ?_⟩
    · have := hk.1 (l.start p) p hp p hpm ⟨le_refl _, hne⟩ ⟨by omega, by omega⟩
      rw [hidx, index, linearPageIndex_self, linearPageIndex_self,
        mod_eq_of_lt (adjustPgoff_lt _ _)] at this
      exact this
    · omega
    · omega
  · rintro ⟨hadj, hc⟩
    have hkept : ∀ a, (l.simpleVmaAdjust p (l.start p) e).index p a = l.index p a := fun a => by
      rw [hidx, index, linearPageIndex_congr, hadj, mod_mod]
    have hreq : ∀ a, req.vmStart ≤ a → l.index p a = requested req a := fun a ha => by
      refine linearPageIndex_eq_requested (hal p hp).1 hstart (by omega) ha ?_
      have hoff := hm.2.2
      rw [pages_vma, hstop] at hoff
      have hoff' : linearPageIndex (l.pgoff p) (l.start p) req.vmStart = req.vmPgoff := hoff
      rw [← hoff', linearPageIndex, mod_mod]
    have hea : pageSize ∣ e := by
      rcases he with rfl | ⟨k, hf, -, rfl⟩
      · exact hend
      · exact (hal k (WellFormed.covers_of_simpleFindVma hf).1).2
    refine ⟨fun a v hv w hw hva hwa => ?_, fun a ha ha' w hw hwa => ?_⟩
    · by_cases hwp : w = p
      · subst hwp
        rw [hkept]
        by_cases hap : a < req.vmStart
        · rw [h.eq_of_covers hv hp hva ⟨hxs ▸ hwa.1, by omega⟩]
        rw [hreq a (by omega)]
        by_cases hae : a < req.vmEnd
        · exact (hc a (by omega) hae v hv hva).symm
        · -- behind the range, in the area that was absorbed
          have hwe := hwa.2
          rw [hxe] at hwe
          obtain rfl | ⟨k, hf, hmk, rfl⟩ := he
          · exact absurd hwe hae
          · obtain ⟨hkl, hks, -⟩ := WellFormed.covers_of_simpleFindVma hf
            rw [h.eq_of_covers hv hkl hva ⟨by omega, hwe⟩,
              index_next hal hlt hstart hend hf hmk hc (Nat.le_of_not_lt hae)]
      · obtain ⟨hwl, hwc, hi, -⟩ := h.index_simpleVmaAdjust hal hea hl hw hwp hwa
        rw [hi, h.eq_of_covers hwl hv hwc hva]
    · by_cases hwp : w = p
      · subst hwp
        rw [hkept, hreq a ha]
      · obtain ⟨-, hwc, -, hpos⟩ := h.index_simpleVmaAdjust hal hea hl hw hwp hwa
        rcases hpos with hA | hB
        · have := h.below hl w hA
          have := hwc.2
          omega
        · omega

theorem keepsMerged_next_iff (hf : l.simpleFindVma req.vmEnd = some k)
    (hm : l.MergesBefore req k) :
    KeepsMerged l (l.simpleVmaAdjust k req.vmStart (l.stop k)) req ↔
      adjustPgoff (l.pgoff k) req.vmStart = req.vmPgoff % 2 ^ 64 ∧ l.Consistent req := by
  obtain ⟨hk, hks, hke⟩ := WellFormed.covers_of_simpleFindVma hf
  obtain ⟨A, B, hl⟩ := List.append_of_mem hk
  have hkm : k ∈ (l.simpleVmaAdjust k req.vmStart (l.stop k)).order := h.mem_simpleVmaAdjust hk
  obtain ⟨hxs, hxe⟩ := h.span_simpleVmaAdjust hk req.vmStart (l.stop k)
  have hidx := h.index_simpleVmaAdjust_self hk req.vmStart (l.stop k)
  constructor
  · intro hkeep
    refine ⟨?_, hkeep.consistent hkm (by omega) (by omega)⟩
    have := hkeep.2 req.vmStart (le_refl _) hlt k hkm ⟨by omega, by omega⟩
    rw [hidx, requested, linearPageIndex_self, linearPageIndex_self,
      mod_eq_of_lt (adjustPgoff_lt _ _)] at this
    exact this
  · rintro ⟨hadj, hc⟩
    have hreq : ∀ a, (l.simpleVmaAdjust k req.vmStart (l.stop k)).index k a = requested req a :=
      fun a => by rw [hidx, requested, linearPageIndex_congr, hadj, mod_mod]
    refine ⟨fun a v hv w hw hva hwa => ?_, fun a ha ha' w hw hwa => ?_⟩
    · by_cases hwk : w = k
      · subst hwk
        rw [hreq]
        by_cases hae : a < req.vmEnd
        · exact (hc a (hxs ▸ hwa.1) hae v hv hva).symm
        · rw [h.eq_of_covers hv hk hva ⟨by omega, hxe ▸ hwa.2⟩,
            index_next hal hlt hstart hend hf hm hc (Nat.le_of_not_lt hae)]
      · obtain ⟨hwl, hwc, hi, -⟩ := h.index_simpleVmaAdjust hal (hal k hk).2 hl hw hwk hwa
        rw [hi, h.eq_of_covers hwl hv hwc hva]
    · by_cases hwk : w = k
      · subst hwk
        exact hreq a
      · obtain ⟨hwl, hwc, hi, -⟩ := h.index_simpleVmaAdjust hal (hal k hk).2 hl hw hwk hwa
        rw [hi]
        exact hc a ha ha' w hwl hwc

end

/-! ## The call -/

/-- A merge goes on to look at its neighbours, unless it spins in `find_vma_intersection`. -/
theorem looks_or_spins (hs : special req = false) :
    (∃ next, Looks l prev req next) ∨ l.simpleVmaMerge prev req = none := by
  cases hcurr : l.findVmaIntersection (prev.elim 0 l.stop) (vmEnd req) with
  | some curr => exact .inl ⟨_, hs, curr, hcurr, rfl⟩
  | none => exact .inr (by simp [simpleVmaMerge, hs, hcurr])

theorem exists_looks (hs : special req = false)
    (hle : prev.elim 0 l.stop ≤ vmEnd req) : ∃ next, Looks l prev req next := by
  cases hcurr : l.findVmaIntersection (prev.elim 0 l.stop) (vmEnd req) with
  | some curr => exact ⟨_, hs, curr, hcurr, rfl⟩
  | none =>
    rw [findVmaIntersection, if_neg (not_lt.2 hle)] at hcurr
    exact absurd hcurr (by simp)

theorem Looks.next_eq {next : Option VmaId} (h : Looks l prev req next) (hk : next = some k) :
    l.simpleFindVma req.vmEnd = some k := by
  obtain ⟨-, curr, -, rfl⟩ := h
  split at hk
  · exact hk
  · exact absurd hk (by simp)

/-- When a merge gives the area that it adjusts the right `vm_pgoff`, and the pages that were mapped
in the range are those that are requested. Without a predecessor it never does: the successor's
`vm_pgoff` should get smaller. -/
def MergeExact (l : VmaList Vma) (prev : Option VmaId) (req : Vma) : Prop :=
  special req = true ∨
  (∀ p ∈ prev, l.MergesAfter req p → NearStart (l.pgoff p) (l.start p) ∧ l.Consistent req) ∧
  (prev = none → ∀ k, l.simpleFindVma req.vmEnd = some k → ¬ l.MergesBefore req k)

theorem adjustPgoff_start_iff (hword : l.Words) (hp : p ∈ l.order) (hne : l.start p < l.stop p) :
    adjustPgoff (l.pgoff p) (l.start p) = l.pgoff p % 2 ^ 64 ↔ NearStart (l.pgoff p) (l.start p) := by
  have hiff := adjustPgoff_eq_iff (hword p hp).1 (lt_trans hne (hword p hp).2) (le_refl (l.start p))
  simpa [linearPageIndex] using hiff

theorem adjustPgoff_before_ne (hlt : req.vmStart < req.vmEnd) (hend : req.vmEnd < 2 ^ 64)
    (hs : pageSize ∣ req.vmStart) (he : pageSize ∣ req.vmEnd) (hm : l.MergesBefore req k) :
    adjustPgoff (l.pgoff k) req.vmStart ≠ req.vmPgoff % 2 ^ 64 := by
  have hadded := addedPages_lt (l.pgoff k) req.vmStart
  have hpos : 0 < (req.vmEnd - req.vmStart) / pageSize :=
    Nat.div_pos (Nat.le_of_dvd (by omega) (dvd_sub he hs)) (by decide)
  have hless : (req.vmEnd - req.vmStart) / pageSize < 2 ^ 52 := by
    simp only [pageSize]
    omega
  have hpgoff : l.pgoff k = (req.vmPgoff + (req.vmEnd - req.vmStart) / pageSize) % 2 ^ 64 := by
    rw [hm.2, pages_vma]
    rfl
  change (l.pgoff k + addedPages (l.pgoff k) req.vmStart) % 2 ^ 64 ≠ _
  rw [hpgoff] at hadded ⊢
  rw [mod_add_mod, Nat.add_assoc]
  omega

section

variable (h : l.WellFormed) (hal : l.PageAligned) (hlt : req.vmStart < req.vmEnd)
  (hstart : pageSize ∣ req.vmStart) (hend : pageSize ∣ req.vmEnd)

include h hal hlt hstart hend

theorem merge_after_iff (hs : special req = false) (hp : p ∈ l.order)
    (hm : l.MergesAfter req p) :
    (∀ t l', l.simpleVmaMerge (some p) req = some (some t, l') → KeepsMerged l l' req) ↔
      adjustPgoff (l.pgoff p) (l.start p) = l.pgoff p % 2 ^ 64 ∧ l.Consistent req := by
  have hle : l.stop p ≤ req.vmEnd := by
    have : l.stop p = req.vmStart := hm.1
    omega
  obtain ⟨next, hlooks⟩ : ∃ next, Looks l (some p) req next := exists_looks hs hle
  have hfilter : (some p).filter (fun p => decide (l.MergesAfter req p)) = some p := by
    simp [hm]
  have hone : ∀ l₁ : VmaList Vma,
      (∀ t l', some (some p, l₁) = some (some t, l') → KeepsMerged l l' req) ↔
        KeepsMerged l l₁ req := fun l₁ =>
    ⟨fun hall => hall p l₁ rfl, fun hk t l' he => (Prod.mk.inj (Option.some.inj he)).2 ▸ hk⟩
  rw [hlooks.simpleVmaMerge_eq, hfilter]
  cases hn : next.filter fun k => decide (l.MergesBefore req k) with
  | none =>
    rw [mergeWith, hone]
    exact keepsMerged_prev_iff h hal hlt hstart hend hp hm (.inl rfl)
  | some k =>
    obtain ⟨hk, hmk⟩ := Option.filter_eq_some_iff.1 hn
    rw [mergeWith, hone]
    exact keepsMerged_prev_iff h hal hlt hstart hend hp hm
      (.inr ⟨k, hlooks.next_eq hk, of_decide_eq_true hmk, rfl⟩)

theorem merge_keepsMerged_iff (hword : l.Words) (hbound : req.vmEnd < 2 ^ 64)
    (hprev : ∀ p ∈ prev, p ∈ l.order) :
    (∀ t l', l.simpleVmaMerge prev req = some (some t, l') → KeepsMerged l l' req) ↔
      l.MergeExact prev req := by
  cases hs : special req with
  | true =>
    refine iff_of_true (fun t l' hr => ?_) (.inl hs)
    rw [simpleVmaMerge, hs, if_pos rfl] at hr
    exact absurd hr (by simp)
  | false =>
  rw [MergeExact, or_iff_right (by simp [hs])]
  cases prev with
  | some p =>
    simp only [Option.mem_some_iff, forall_eq', reduceCtorEq, false_implies, and_true]
    by_cases hm : l.MergesAfter req p
    · rw [merge_after_iff h hal hlt hstart hend hs (hprev p rfl) hm,
        adjustPgoff_start_iff hword (hprev p rfl) (h.nonempty p (hprev p rfl))]
      exact ⟨fun hx _ => hx, fun hx => hx hm⟩
    · -- without a merge of the predecessor no area is returned
      refine iff_of_true (fun t l' hr => ?_) fun hm' => absurd hm' hm
      rcases looks_or_spins hs with ⟨next, hlooks⟩ | hspin
      · rw [hlooks.simpleVmaMerge_eq] at hr
        have hfilter : (some p).filter (fun p => decide (l.MergesAfter req p)) = none := by
          simp [hm]
        rw [hfilter] at hr
        cases hn : next.filter fun k => decide (l.MergesBefore req k) with
        | none => simp [hn, mergeWith] at hr
        | some k => simp [hn, mergeWith] at hr
      · rw [hspin] at hr
        exact absurd hr (by simp)
  | none =>
    simp only [Option.not_mem_none, false_implies, implies_true, true_and, forall_const]
    have hlooks : Looks l none req (l.simpleFindVma req.vmEnd) := by
      refine ⟨hs, none, ?_, rfl⟩
      exact h.findVmaIntersection_of_not (zero_le _)
        (.inr fun hp => hp.1.elim fun v hv => not_lt_zero _ hv.2)
    rw [hlooks.simpleVmaMerge_eq]
    cases hn : (l.simpleFindVma req.vmEnd).filter fun k => decide (l.MergesBefore req k) with
    | none =>
      refine iff_of_true (fun t l' hr => by simp [mergeWith] at hr) fun k hk hm => ?_
      exact absurd (decide_eq_true hm) (Option.filter_eq_none_iff.1 hn k hk)
    | some k =>
      obtain ⟨hk, hm⟩ := Option.filter_eq_some_iff.1 hn
      have hm : l.MergesBefore req k := of_decide_eq_true hm
      have hiff := keepsMerged_next_iff h hal hlt hstart hend hk hm
      refine iff_of_false (fun hall => ?_) fun hnot => hnot k hk hm
      exact adjustPgoff_before_ne hlt hbound hstart hend hm (hiff.1 (hall k _ rfl)).1

end

/-- A call that changes the list. -/
inductive VmaCall
  | munmap (start stop : Nat) (r : Allocs)
  | merge (prev : Option VmaId) (req : Vma)

/-- The range is not empty, page aligned and below 2^64, and the area that is named is on the
list. -/
def CallFits (l : VmaList Vma) : VmaCall → Prop
  | .munmap start stop _ => start < stop ∧ pageSize ∣ start ∧ pageSize ∣ stop
  | .merge prev req => (∀ p ∈ prev, p ∈ l.order) ∧ (req.vmStart < req.vmEnd ∧ req.vmEnd < 2 ^ 64) ∧
      pageSize ∣ req.vmStart ∧ pageSize ∣ req.vmEnd

/-- Every address that is mapped before and after has kept its page index, and the range of a
successful merge has the index that was requested. -/
def KeepsIndices (l : VmaList Vma) : VmaCall → Prop
  | .munmap start stop r =>
    ∀ err l', l.simpleDoVmaMunmap start stop r = some (err, l') → SameIndex l l'
  | .merge prev req =>
    ∀ t l', l.simpleVmaMerge prev req = some (some t, l') → KeepsMerged l l' req

/-- Each area that the call adjusts has a `vm_pgoff` for which the new one is right. -/
def OffsetsExact (l : VmaList Vma) : VmaCall → Prop
  | .munmap start stop r => l.MunmapExact start stop r
  | .merge prev req => l.MergeExact prev req

/-- The page indices survive a call exactly when the areas that it adjusts have a `vm_pgoff` close to
their address. -/
theorem keepsIndices_iff (l : VmaList Vma) (c : VmaCall) (h : l.WellFormed) (hal : l.PageAligned)
    (hword : l.Words) (hc : l.CallFits c) : l.KeepsIndices c ↔ l.OffsetsExact c := by
  cases c with
  | munmap start stop r =>
    obtain ⟨hlt, hstart, hstop⟩ := hc
    exact h.munmap_sameIndex_iff hal hword hlt hstart hstop r
  | merge prev req =>
    obtain ⟨hprev, ⟨hlt, hbound⟩, hstart, hend⟩ := hc
    exact merge_keepsMerged_iff h hal hlt hstart hend hword hbound hprev

/-- The first page of an area goes whose `vm_pgoff` is its address. -/
theorem keepsIndices_iff_byAddress : byAddress.KeepsIndices (.munmap 12288 16384 ⟨true, true, true⟩) :=
  (keepsIndices_iff _ (.munmap 12288 16384 ⟨true, true, true⟩) ⟨⟨by decide, by decide⟩, by decide⟩
    (by decide) (by decide) ⟨by decide, by decide, by decide⟩).mpr <| .inr <| .inr <| by
      rw [if_neg (by decide), ClearExact]
      decide

/-- The first page of an area of two pages is unmapped: the second one, page 4 of its object before,
is page 6 now. -/
theorem second_page_moves :
    ¬ (ofAreas [anonAt 4096 8192, anonAt 12288 20480]).KeepsIndices
      (.munmap 12288 16384 ⟨true, true, true⟩) := by
  intro hkeep
  obtain ⟨l', hl', hmem, hcov, hidx⟩ : ∃ l',
      (ofAreas [anonAt 4096 8192, anonAt 12288 20480]).simpleDoVmaMunmap 12288 16384
        ⟨true, true, true⟩ = some (0, l') ∧ 1 ∈ l'.order ∧ l'.Covers 1 16384 ∧
      l'.index 1 16384 = 6 := ⟨_, rfl, by decide, by decide, by decide⟩
  have := hkeep 0 l' hl' 16384 1 (by decide) 1 hmem (by decide) hcov
  rw [hidx] at this
  exact absurd this (by decide)

end MyOS2.Mmap.VmaList
