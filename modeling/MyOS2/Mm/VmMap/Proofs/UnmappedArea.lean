import MyOS2.Mm.VmMap.UnmappedArea
import MyOS2.Mm.VmMap.Proofs.Munmap

/-!
# What the search for a free range finds

The search returns one of two addresses: the page of the hint, if nothing is mapped at its
first byte, or the one below the upper limit. Whether the second is returned depends on the
gaps between the areas, but its value does not.
-/

namespace MyOS2.Mmap.VmaList

variable {l : VmaList Vma} {v : VmaId} {info : UnmappedInfo} {mmapBase hint len : Nat}

section

variable (l : VmaList Vma)

def Unmapped (addr len : Nat) : Prop :=
  ∀ a, addr ≤ a → a < addr + len → ¬ l.Covered a

/-- There is room between the limits. -/
def Hole (low high len : Nat) : Prop :=
  ∃ addr, low ≤ addr ∧ addr + len ≤ high ∧ l.Unmapped addr len

/-- What the search is to do: an address that it returns is a page boundary with free memory behind
it, and if there is room it returns one. -/
def FindsFree (low high len : Nat) (r : Option Nat) : Prop :=
  (∀ addr, r = some addr → ¬ isErrValue addr →
    pageSize ∣ addr ∧ addr + len ≤ taskSizeMax ∧ l.Unmapped addr len) ∧
  (l.Hole low high len → ∃ addr, r = some addr ∧ ¬ isErrValue addr)

/-! ## The loop over the gaps -/

/-- The loop breaks off at the area. -/
def Stops (info : UnmappedInfo) (v : VmaId) : Prop :=
  info.length ≤ u64Sub (l.gapBehind info v).2 (l.gapBehind info v).1 ∨ l.start v ≤ info.lowLimit

theorem scanTopdown_isSome_iff (info : UnmappedInfo) (vs : List VmaId) :
    (l.scanTopdown info vs).isSome = true ↔
      ∃ v ∈ vs, l.stop v < info.highLimit ∧ l.Stops info v := by
  induction vs with
  | nil => simp [scanTopdown]
  | cons v vs ih =>
    rw [scanTopdown, List.exists_mem_cons_iff]
    by_cases hhigh : info.highLimit ≤ l.stop v
    · rw [if_pos hhigh, ih]
      exact (or_iff_right fun hc => absurd hc.1 (Nat.not_lt.2 hhigh)).symm
    rw [if_neg hhigh]
    by_cases hgap : info.length ≤ u64Sub (l.gapBehind info v).2 (l.gapBehind info v).1
    · rw [if_pos hgap]
      exact iff_of_true rfl (.inl ⟨Nat.lt_of_not_le hhigh, .inl hgap⟩)
    rw [if_neg hgap]
    by_cases hlow : l.start v ≤ info.lowLimit
    · rw [if_pos hlow]
      exact iff_of_true rfl (.inl ⟨Nat.lt_of_not_le hhigh, .inr hlow⟩)
    · rw [if_neg hlow, ih]
      exact (or_iff_right fun hc => hc.2.elim hgap hlow).symm

end

/-- The gap behind an area ends where the next area starts, or at the limit. -/
theorem Sorted.gapBehind_eq {A B : List VmaId} (h : l.Sorted) (hl : l.order = A ++ v :: B)
    (hlow : info.lowLimit < l.stop v) (hhigh : l.stop v < info.highLimit) :
    ∃ gapEnd, l.gapBehind info v = (l.stop v, gapEnd) ∧ l.stop v ≤ gapEnd ∧
      gapEnd ≤ info.highLimit ∧ (∀ x ∈ B, gapEnd ≤ l.start x) ∧
      (gapEnd = info.highLimit ∨ ∃ w ∈ B, gapEnd = l.start w) := by
  rw [gapBehind, if_neg (Nat.not_le.2 hlow), h.vmaNextVma_eq hl]
  cases B with
  | nil => exact ⟨_, rfl, Nat.le_of_lt hhigh, Nat.le_refl _, by nofun, .inl rfl⟩
  | cons w B =>
    have hlw : l.order = (A ++ [v]) ++ w :: B := by simpa using hl
    have hvw := h.above hl w List.mem_cons_self
    have hne := h.nonempty w (mem_of_order_eq hlw)
    have hB : ∀ x ∈ w :: B, l.start w ≤ l.start x := by
      refine List.forall_mem_cons.2 ⟨Nat.le_refl _, fun x hx => ?_⟩
      exact Nat.le_trans (Nat.le_of_lt hne) (h.above hlw x hx)
    simp only [List.head?_cons]
    split
    · rename_i hle
      exact ⟨_, rfl, hvw, hle, hB, .inr ⟨w, List.mem_cons_self, rfl⟩⟩
    · rename_i hlt
      exact ⟨_, rfl, Nat.le_of_lt hhigh, Nat.le_refl _,
        fun x hx => Nat.le_trans (Nat.le_of_lt (Nat.lt_of_not_le hlt)) (hB x hx), .inl rfl⟩

/-- For an area that starts above the low limit this means that the range behind it is free. -/
theorem Sorted.stops_iff (h : l.Sorted) (hv : v ∈ l.order) (hhigh : l.stop v < info.highLimit)
    (h64 : info.highLimit < 2 ^ 64) :
    l.Stops info v ↔ l.start v ≤ info.lowLimit ∨
      l.stop v + info.length ≤ info.highLimit ∧ l.Unmapped (l.stop v) info.length := by
  obtain ⟨A, B, hl⟩ := List.append_of_mem hv
  have hne := h.nonempty v hv
  by_cases hlow : l.start v ≤ info.lowLimit
  · exact iff_of_true (.inr hlow) (.inl hlow)
  obtain ⟨gapEnd, heq, hle, hleHigh, hB, hend⟩ := h.gapBehind_eq hl (by omega) hhigh
  rw [Stops, or_iff_left hlow, or_iff_right hlow, heq, u64Sub_of_le (by omega) hle]
  constructor
  · intro hlen
    refine ⟨by omega, fun a ha ha' hc => ?_⟩
    obtain ⟨x, hx, hxs, hxe⟩ := hc
    rw [hl, List.mem_append, List.mem_cons] at hx
    rcases hx with hx | rfl | hx
    · have := h.below hl x hx
      omega
    · omega
    · have := hB x hx
      omega
  · rintro ⟨hroom, hfree⟩
    rcases hend with rfl | ⟨w, hw, rfl⟩
    · omega
    · have hwl : w ∈ l.order := by simp [hl, hw]
      refine Nat.le_of_not_lt fun hlt => ?_
      exact hfree (l.start w) hle (by omega) ⟨w, hwl, Nat.le_refl _, h.nonempty w hwl⟩

/-! ## The whole search -/

def HintFree (l : VmaList Vma) (hint : Nat) : Prop := hint ≠ 0 ∧ ¬ l.Covered (pageMask hint)

/-- Some area ends below the upper limit, and it reaches down to the first page or the range behind
it is free. -/
def ScanEnds (l : VmaList Vma) (mmapBase len : Nat) : Prop :=
  ∃ v ∈ l.order, l.stop v < mmapBase ∧ (l.start v ≤ pageSize ∨
    l.stop v + len ≤ mmapBase ∧ l.Unmapped (l.stop v) len)

theorem simpleFindVma_eq_none_iff (l : VmaList Vma) (a : Nat) :
    l.simpleFindVma a = none ↔ ¬ l.Covered a := by
  simp [simpleFindVma, List.find?_eq_none, Covered, Covers]

/-- The search returns the page of the hint, the last page-aligned range below the limit, or not at
all. -/
theorem Sorted.simpleGetUnmappedArea_eq (h : l.Sorted) (h64 : mmapBase < 2 ^ 64)
    (hint len : Nat) :
    (l.HintFree hint → l.simpleGetUnmappedArea mmapBase hint len = some (pageMask hint)) ∧
    (¬ l.HintFree hint → l.ScanEnds mmapBase len →
      l.simpleGetUnmappedArea mmapBase hint len = some (pageMask (u64Sub mmapBase len))) ∧
    (¬ l.HintFree hint → ¬ l.ScanEnds mmapBase len →
      l.simpleGetUnmappedArea mmapBase hint len = none) := by
  have hhigh : (if defaultMapWindow < pageMask hint then
      mmapBase + (taskSizeMax - defaultMapWindow) else mmapBase) = mmapBase := by
    simp [taskSizeMax, defaultMapWindow]
  have hhint : (hint ≠ 0 ∧ l.simpleFindVma (pageMask hint) = none) ↔ l.HintFree hint := by
    rw [HintFree, simpleFindVma_eq_none_iff]
  have hscan : (l.scanTopdown ⟨len, pageSize, mmapBase⟩ l.order.reverse).isSome = true ↔
      l.ScanEnds mmapBase len := by
    rw [scanTopdown_isSome_iff]
    constructor
    · rintro ⟨v, hv, hhigh, hstop⟩
      have hv := List.mem_reverse.1 hv
      exact ⟨v, hv, hhigh, (h.stops_iff hv hhigh h64).1 hstop⟩
    · rintro ⟨v, hv, hhigh, hstop⟩
      exact ⟨v, List.mem_reverse.2 hv, hhigh, (h.stops_iff hv hhigh h64).2 hstop⟩
  rw [simpleGetUnmappedArea, hhigh]
  refine ⟨fun hf => if_pos (hhint.2 hf), fun hf hends => ?_, fun hf hends => ?_⟩
  · rw [if_neg fun hc => hf (hhint.1 hc), simpleFindVmUnmappedAreaTopdown]
    obtain ⟨r, hr⟩ := Option.isSome_iff_exists.1 (hscan.2 hends)
    rw [hr]
  · rw [if_neg fun hc => hf (hhint.1 hc), simpleFindVmUnmappedAreaTopdown]
    have hr : l.scanTopdown ⟨len, pageSize, mmapBase⟩ l.order.reverse = none :=
      Option.not_isSome_iff_eq_none.1 fun hr => hends (hscan.1 hr)
    rw [hr]

/-- The address that the search comes up with: the page of a hint that is free, or else the last
page boundary that leaves room below the limit. -/
def Proposes (l : VmaList Vma) (mmapBase hint len addr : Nat) : Prop :=
  (l.HintFree hint ∧ addr = pageMask hint) ∨
  (¬ l.HintFree hint ∧ l.ScanEnds mmapBase len ∧ addr = pageMask (u64Sub mmapBase len))

theorem Proposes.unique {addr addr' : Nat} (h : l.Proposes mmapBase hint len addr)
    (h' : l.Proposes mmapBase hint len addr') : addr = addr' := by
  rcases h with ⟨hf, rfl⟩ | ⟨hf, -, rfl⟩ <;> rcases h' with ⟨hf', rfl⟩ | ⟨hf', -, rfl⟩
  · rfl
  · exact absurd hf hf'
  · exact absurd hf' hf
  · rfl

theorem not_isErrValue_pageMask {x : Nat} (hx : x < 2 ^ 64) : ¬ isErrValue (pageMask x) := by
  simp only [isErrValue, pageMask, pageSize]
  omega

theorem pageSize_dvd_pageMask (x : Nat) : pageSize ∣ pageMask x := Nat.dvd_mul_left _ _

theorem Proposes.spec {addr : Nat} (h : l.Proposes mmapBase hint len addr) (hhint : hint < 2 ^ 64) :
    ¬ isErrValue addr ∧ pageSize ∣ addr := by
  rcases h with ⟨-, rfl⟩ | ⟨-, -, rfl⟩
  · exact ⟨not_isErrValue_pageMask hhint, pageSize_dvd_pageMask _⟩
  · exact ⟨not_isErrValue_pageMask (u64Sub_lt _ _), pageSize_dvd_pageMask _⟩

section

variable {flags : Nat} (h : l.Sorted) (h64 : mmapBase < 2 ^ 64) (hhint : hint < 2 ^ 64)
  (hflags : flags &&& mapFixed = 0)

include h h64

theorem Sorted.simpleGetUnmappedArea_iff (addr : Nat) :
    l.simpleGetUnmappedArea mmapBase hint len = some addr ↔ l.Proposes mmapBase hint len addr := by
  obtain ⟨h₁, h₂, h₃⟩ := h.simpleGetUnmappedArea_eq h64 hint len
  by_cases hf : l.HintFree hint
  · rw [h₁ hf, Option.some.injEq]
    exact ⟨fun he => .inl ⟨hf, he.symm⟩, fun hp => hp.elim (fun hp => hp.2.symm)
      fun hp => absurd hf hp.1⟩
  by_cases hends : l.ScanEnds mmapBase len
  · rw [h₂ hf hends, Option.some.injEq]
    exact ⟨fun he => .inr ⟨hf, hends, he.symm⟩, fun hp => hp.elim (fun hp => absurd hp.1 hf)
      fun hp => hp.2.2.symm⟩
  · rw [h₃ hf hends]
    exact iff_of_false (by simp) fun hp => hp.elim (fun hp => hf hp.1) fun hp => hends hp.2.1

include hhint hflags

theorem Sorted.getUnmappedArea_of_proposes {addr : Nat} (hp : l.Proposes mmapBase hint len addr)
    (hroom : addr + len ≤ taskSizeMax) :
    l.getUnmappedArea mmapBase hint len flags = some addr := by
  obtain ⟨herr, hdvd⟩ := hp.spec hhint
  rw [getUnmappedArea, if_neg (by omega), if_neg (by simp [hflags]),
    (h.simpleGetUnmappedArea_iff h64 addr).2 hp]
  simp only [Option.bind_eq_bind, Option.bind_some]
  rw [if_neg herr, if_neg (by omega), if_neg (by simp [Nat.mod_eq_zero_of_dvd hdvd])]

theorem Sorted.getUnmappedArea_of_not
    (hn : ¬ ∃ addr, l.Proposes mmapBase hint len addr ∧ addr + len ≤ taskSizeMax) :
    ∀ addr, l.getUnmappedArea mmapBase hint len flags = some addr → isErrValue addr := by
  intro addr hr
  have herr : isErrValue (errValue 12) := by decide
  rw [getUnmappedArea] at hr
  split at hr
  · cases hr
    exact herr
  · rw [if_neg (by simp [hflags])] at hr
    cases hs : l.simpleGetUnmappedArea mmapBase hint len with
    | none => simp [hs] at hr
    | some c =>
      have hp := (h.simpleGetUnmappedArea_iff h64 c).1 hs
      have hc : ¬ c + len ≤ taskSizeMax := fun hroom => hn ⟨c, hp, hroom⟩
      simp only [hs, Option.bind_eq_bind, Option.bind_some] at hr
      rw [if_neg (hp.spec hhint).1, if_pos (by omega)] at hr
      cases hr
      exact herr

end

/-- The search is right exactly when the address it comes up with leaves room and is free, or when
there is no such address and no room either. -/
theorem getUnmappedArea_right_iff (l : VmaList Vma) (mmapBase hint len flags : Nat)
    (h : l.WellFormed) (h64 : mmapBase < 2 ^ 64) (hhint : hint < 2 ^ 64)
    (hflags : flags &&& mapFixed = 0) :
    FindsFree l pageSize mmapBase len (l.getUnmappedArea mmapBase hint len flags) ↔
      (∃ addr, l.Proposes mmapBase hint len addr ∧ addr + len ≤ taskSizeMax ∧ l.Unmapped addr len) ∨
      (¬ ∃ addr, l.Proposes mmapBase hint len addr ∧ addr + len ≤ taskSizeMax) ∧
        ¬ l.Hole pageSize mmapBase len := by
  by_cases hex : ∃ addr, l.Proposes mmapBase hint len addr ∧ addr + len ≤ taskSizeMax
  · rw [or_iff_left fun hc => hc.1 hex]
    obtain ⟨addr, hp, hroom⟩ := hex
    obtain ⟨herr, hdvd⟩ := hp.spec hhint
    rw [h.getUnmappedArea_of_proposes h64 hhint hflags hp hroom]
    constructor
    · intro hfinds
      exact ⟨addr, hp, hroom, (hfinds.1 addr rfl herr).2.2⟩
    · rintro ⟨addr', hp', -, hfree⟩
      obtain rfl := hp.unique hp'
      refine ⟨fun a ha _ => ?_, fun _ => ⟨addr, rfl, herr⟩⟩
      cases ha
      exact ⟨hdvd, hroom, hfree⟩
  · have hfails := h.getUnmappedArea_of_not h64 hhint hflags hex
    rw [or_iff_right fun ⟨addr, hp, hroom, _⟩ => hex ⟨addr, hp, hroom⟩, and_iff_right hex]
    constructor
    · intro hfinds hhole
      obtain ⟨addr, hr, herr⟩ := hfinds.2 hhole
      exact herr (hfails addr hr)
    · intro hno
      exact ⟨fun addr hr herr => absurd (hfails addr hr) herr, fun hhole => absurd hhole hno⟩

/-- One page is asked for beside a single area. -/
theorem getUnmappedArea_right_iff_one_area :
    FindsFree (ofAreas [anonAt 4096 8192]) pageSize taskUnmappedBase 4096
        ((ofAreas [anonAt 4096 8192]).getUnmappedArea taskUnmappedBase 0 4096 0) ↔
      (∃ addr, (ofAreas [anonAt 4096 8192]).Proposes taskUnmappedBase 0 4096 addr ∧
        addr + 4096 ≤ taskSizeMax ∧ (ofAreas [anonAt 4096 8192]).Unmapped addr 4096) ∨
      (¬ ∃ addr, (ofAreas [anonAt 4096 8192]).Proposes taskUnmappedBase 0 4096 addr ∧
        addr + 4096 ≤ taskSizeMax) ∧
        ¬ (ofAreas [anonAt 4096 8192]).Hole pageSize taskUnmappedBase 4096 :=
  getUnmappedArea_right_iff _ taskUnmappedBase 0 4096 0 ⟨⟨by decide, by decide⟩, by decide⟩
    (by decide) (by decide) (by decide)

def onePageMapped : VmaList Vma :=
  ofAreas [anonAt 4096 8192, anonAt (taskUnmappedBase - 4096) taskUnmappedBase]

/-- The next page is put at the same address. -/
theorem second_page_on_first :
    ¬ FindsFree onePageMapped pageSize taskUnmappedBase 4096
      (onePageMapped.getUnmappedArea taskUnmappedBase 0 4096 0) := by
  have hsorted : onePageMapped.Sorted := ⟨by decide, by decide⟩
  have hprop : onePageMapped.Proposes taskUnmappedBase 0 4096 (taskUnmappedBase - 4096) := by
    refine .inr ⟨fun hf => hf.1 rfl, ⟨0, by decide, by decide, .inl (by decide)⟩, ?_⟩
    rw [u64Sub_of_le (by decide) (by decide)]
    decide
  rw [hsorted.getUnmappedArea_of_proposes (by decide) (by decide) (by decide) hprop (by decide)]
  intro hfinds
  exact (hfinds.1 _ rfl (by decide)).2.2 (taskUnmappedBase - 4096) (by decide) (by decide)
    ⟨1, by decide, by decide⟩

end MyOS2.Mmap.VmaList
