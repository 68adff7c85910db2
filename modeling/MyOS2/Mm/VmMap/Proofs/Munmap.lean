import Mathlib.Data.List.TakeWhile
import MyOS2.Mm.VmMap.Proofs.VmaList

/-!
# Clearing a range (`simple_do_vma_munmap`)

A successful call that finds an area to clear does three things: it cuts the area that
contains the start of the range, it cuts the area that contains its end, and it takes the
areas between the two off the list. Cutting changes no address that is covered.
-/

namespace MyOS2.Mmap.VmaList

open Option List VmaList Nat Area

variable {α : Type} [Area α] {l : VmaList α} {v w : VmaId} {A B M R : List VmaId}
  {a addr start stop : Nat}

/-! ## Adjusting an area -/

section

variable (hl : l.order = A ++ v :: (M ++ R)) (hA : v ∉ A) (hB : v ∉ M ++ R)
  (hM : ∀ k ∈ M, l.stop k ≤ stop)
include hl hA hB hM

/-- `__simple_vma_adjust` where the areas behind are known: those that end up to the new end go, and
the next one is cut at it. -/
theorem simpleVmaAdjust_eq (hR : ∀ k ∈ R.head?, stop < l.stop k) : l.simpleVmaAdjust v start stop =
      let l' := { l.setArea v (resize (l.area v) start stop
          (adjustPgoff (l.pgoff v) (start * unit α))) with
        order := A ++ v :: R, mapCount := l.mapCount - M.length }
      match R.head? with
      | none => l'
      | some k =>
        if l.start k < stop then
          l'.setArea k (resize (l.area k) stop (l.stop k)
            ((l.pgoff k + pages α (stop - l.start k)) % 2 ^ 64))
        else l' := by
  generalize hx : resize (l.area v) start stop (adjustPgoff (l.pgoff v) (start * unit α)) = x
  have hne : ∀ k ∈ M ++ R, k ≠ v := fun k hk hkv => hB (hkv ▸ hk)
  have hM' : ∀ k ∈ M, decide ((l.setArea v x).stop k ≤ stop) = true := fun k hk => by
    rw [setArea_stop_of_ne l x (hne k (mem_append_left _ hk))]
    exact decide_eq_true (hM k hk)
  have hR' : ∀ k ∈ R.head?, decide ((l.setArea v x).stop k ≤ stop) = false := fun k hk => by
    rw [setArea_stop_of_ne l x (hne k (mem_append_right _ (mem_of_mem_head? hk)))]
    exact decide_eq_false (not_le.2 (hR k hk))
  have hunlink : (l.setArea v x).unlinkWithin v stop =
      { l.setArea v x with order := A ++ v :: R, mapCount := l.mapCount - M.length } := by
    have hl' : (l.setArea v x).order = A ++ v :: (M ++ R) := hl
    rw [unlinkWithin, within, before_of_notMem hl' hA, behind_of_notMem hl' hA,
      Cut.dropWhile_append hM' hR', Cut.takeWhile_append hM' hR']
    rfl
  simp only [simpleVmaAdjust, hx, hunlink]
  rw [vmaNextVma, behind_of_notMem rfl hA]
  cases hh : R.head? with
  | none => rfl
  | some k =>
    have hk := hne k (mem_append_right _ (mem_of_mem_head? hh))
    have harea := setArea_area_of_ne l x hk
    simp only [VmaList.start, VmaList.stop, VmaList.pgoff, harea]
    rfl

theorem simpleVmaAdjust_of_apart (hR : ∀ k ∈ R, stop < l.stop k)
    (hstart : ∀ k ∈ R, stop ≤ l.start k) :
    l.simpleVmaAdjust v start stop = l.replaceIn A v (resize (l.area v) start stop
      (adjustPgoff (l.pgoff v) (start * unit α))) R (l.mapCount - M.length) := by
  rw [simpleVmaAdjust_eq hl hA hB hM fun k hk => hR k (mem_of_mem_head? hk)]
  simp only [replaceIn]
  split
  · rfl
  · rename_i k hk
    exact if_neg (not_lt.2 (hstart k (mem_of_mem_head? hk)))

end

theorem simpleVmaAdjust_of_cut (hl : l.order = A ++ v :: (M ++ w :: R)) (hA : v ∉ A)
    (hB : v ∉ M ++ w :: R) (hM : ∀ k ∈ M, l.stop k ≤ stop) (hw : stop < l.stop w)
    (hstart : l.start w < stop) :
    l.simpleVmaAdjust v start stop =
      (l.replaceIn A v (resize (l.area v) start stop
        (adjustPgoff (l.pgoff v) (start * unit α))) (w :: R) (l.mapCount - M.length)).setArea w
        (resize (l.area w) stop (l.stop w)
          ((l.pgoff w + pages α (stop - l.start w)) % 2 ^ 64)) := by
  rw [simpleVmaAdjust_eq hl hA hB hM fun k hk => ?_]
  · simp only [head?_cons, if_pos hstart, replaceIn]
  · obtain rfl : w = k := by simpa using hk
    exact hw

theorem simpleVmaAdjust_of_clear (hl : l.order = A ++ v :: B) (hA : v ∉ A) (hB : v ∉ B)
    (hstop : ∀ k ∈ B, stop < l.stop k) (hstart : ∀ k ∈ B, stop ≤ l.start k) :
    l.simpleVmaAdjust v start stop = l.setArea v (resize (l.area v) start stop
      (adjustPgoff (l.pgoff v) (start * unit α))) := by
  have hl' : l.order = A ++ v :: ([] ++ B) := hl
  rw [simpleVmaAdjust_of_apart hl' hA hB (by nofun) hstop hstart, setArea_eq_replaceIn hl]
  simp

/-! ## Cutting an area in two -/

def splitBelow (l : VmaList α) (v : VmaId) (addr : Nat) : VmaList α where
  order := l.before v ++ l.nextId :: v :: l.behind v
  area := Function.update
    (Function.update l.area l.nextId (resize (l.area v) (l.start v) addr (l.pgoff v)))
    v (resize (l.area v) addr (l.stop v) (adjustPgoff (l.pgoff v) (addr * unit α)))
  mapCount := l.mapCount + 1
  nextId := l.nextId + 1

omit [Area α] in
theorem vmaLinkToList_vmaPrevVma (hl : l.order = A ++ v :: B) (hd : l.order.Nodup) :
    l.vmaLinkToList w (l.vmaPrevVma v) =
      some { l with order := A ++ w :: v :: B, mapCount := l.mapCount + 1 } := by
  rw [hl] at hd
  have hv : v ∉ A := fun hv =>
    (nodup_append.1 hd).2.2 v hv v mem_cons_self rfl
  rw [vmaPrevVma, before_of_notMem hl hv]
  rcases eq_nil_or_concat' A with rfl | ⟨A', p, rfl⟩
  · simp [vmaLinkToList, hl]
  · have hl' : l.order = A' ++ p :: v :: B := by simpa using hl
    have hp : p ∉ A' := fun hp =>
      (nodup_append.1 (nodup_append.1 hd).1).2.2 p hp p (mem_singleton_self p) rfl
    rw [getLast?_concat, vmaLinkToList, if_pos (mem_of_order_eq hl'),
      before_of_notMem hl' hp, behind_of_notMem hl' hp]
    simp

theorem WellFormed.splitVma_eq (h : l.WellFormed) (hv : v ∈ l.order) :
    l.splitVma v addr true true = some (0, l.splitBelow v addr) := by
  obtain ⟨A, B, hl⟩ := append_of_mem hv
  have hA := h.notMem_before hl
  have hB := h.notMem_behind hl
  have hne : ∀ k ∈ l.order, k ≠ l.nextId := fun k hk => Nat.ne_of_lt (h.fresh k hk)
  generalize hy : resize (l.area v) (l.start v) addr (l.pgoff v) = y
  have harea : ∀ k ∈ l.order, (l.vmAreaAlloc y).area k = l.area k := fun k hk =>
    setArea_area_of_ne l y (hne k hk)
  have hadjust : (l.vmAreaAlloc y).simpleVmaAdjust v addr ((l.vmAreaAlloc y).stop v) =
      (l.vmAreaAlloc y).setArea v (resize (l.area v) addr (l.stop v)
        (adjustPgoff (l.pgoff v) (addr * unit α))) := by
    have hmem : ∀ k ∈ B, k ∈ l.order := fun k hk => by simp [hl, hk]
    rw [simpleVmaAdjust_of_clear (l := l.vmAreaAlloc y) hl hA hB]
    · simp only [stop, pgoff, harea v hv]
    · intro k hk
      simp only [stop, harea v hv, harea k (hmem k hk)]
      exact lt_of_le_of_lt (h.above hl k hk) (h.nonempty k (hmem k hk))
    · intro k hk
      simp only [stop, start, harea v hv, harea k (hmem k hk)]
      exact h.above hl k hk
  simp only [splitVma, Bool.not_true, Bool.false_eq_true, if_false, if_true, hy, hadjust]
  rw [vmaLinkToList_vmaPrevVma (by exact hl) (by exact h.nodup), splitBelow, h.before_eq hl,
    h.behind_eq hl, hy]
  rfl

/-- The areas of a list in which one was cut: its lower part is new, its upper part has its name,
and the others are as they were. -/
theorem WellFormed.splitBelow_cases (h : l.WellFormed) (hv : v ∈ l.order)
    (hw : w ∈ (l.splitBelow v addr).order) :
    (w = l.nextId ∧ (l.splitBelow v addr).area w = resize (l.area v) (l.start v) addr (l.pgoff v)) ∨
    (w = v ∧ (l.splitBelow v addr).area w =
      resize (l.area v) addr (l.stop v) (adjustPgoff (l.pgoff v) (addr * unit α))) ∨
    (w ∈ l.order ∧ w ≠ v ∧ (l.splitBelow v addr).area w = l.area w) := by
  obtain ⟨A, B, hl⟩ := append_of_mem hv
  have hnew : ∀ x ∈ l.order, x ≠ l.nextId := fun x hx => Nat.ne_of_lt (h.fresh x hx)
  have hw' : w = l.nextId ∨ w ∈ l.order := by
    simp only [splitBelow, h.before_eq hl, h.behind_eq hl, mem_append, mem_cons] at hw
    grind
  rcases hw' with rfl | hw'
  · exact .inl ⟨rfl, by simp [splitBelow, (hnew v hv).symm]⟩
  · by_cases hwv : w = v
    · subst hwv
      exact .inr (.inl ⟨rfl, by simp [splitBelow]⟩)
    · exact .inr (.inr ⟨hw', hwv, by simp [splitBelow, hwv, hnew w hw']⟩)

theorem WellFormed.splitBelow_order (h : l.WellFormed) (addr : Nat) (hl : l.order = A ++ v :: B) :
    (l.splitBelow v addr).order = A ++ l.nextId :: v :: B ∧
      (l.splitBelow v addr).order.map (l.splitBelow v addr).span =
        A.map l.span ++ (l.start v, addr) :: (addr, l.stop v) :: B.map l.span := by
  have horder : (l.splitBelow v addr).order = A ++ l.nextId :: v :: B := by
    simp only [splitBelow, h.before_eq hl, h.behind_eq hl]
  have hnv : l.nextId ≠ v := ne_of_gt (h.fresh v (mem_of_order_eq hl))
  have hkept : ∀ x ∈ l.order, x ≠ v → (l.splitBelow v addr).span x = l.span x := fun x hx hxv => by
    simp [splitBelow, span, start, stop, hxv, Nat.ne_of_lt (h.fresh x hx)]
  refine ⟨horder, ?_⟩
  rw [horder, map_append, map_cons, map_cons]
  congr 1
  · refine map_congr_left fun x hx => hkept x (by simp [hl, hx]) ?_
    rintro rfl
    exact h.notMem_before hl hx
  congr 1
  · simp [splitBelow, span, start, stop, hnv]
  congr 1
  · simp [splitBelow, span, start, stop]
  · refine map_congr_left fun x hx => hkept x (by simp [hl, hx]) ?_
    rintro rfl
    exact h.notMem_behind hl hx

theorem WellFormed.splitBelow (h : l.WellFormed) (hv : v ∈ l.order) (hs : l.start v < addr)
    (he : addr < l.stop v) : (l.splitBelow v addr).WellFormed := by
  obtain ⟨A, B, hl⟩ := append_of_mem hv
  obtain ⟨horder, hspans⟩ := h.splitBelow_order addr hl
  refine ⟨(sorted_iff _).2 ?_, fun x hx => ?_⟩
  · have hord := (sorted_iff l).1 h.toSorted
    rw [hl, map_append, map_cons] at hord
    rw [hspans]
    exact hord.split hs he
  · rw [horder, mem_append, mem_cons] at hx
    have hx' : x = l.nextId ∨ x ∈ l.order := by rw [hl, mem_append]; tauto
    rcases hx' with rfl | hx'
    · exact lt_succ_self _
    · exact lt_succ_of_lt (h.fresh x hx')

/-! ## Cutting at an address -/

def Straddles (l : VmaList α) (v : VmaId) (addr : Nat) : Prop := l.start v < addr ∧ addr < l.stop v

instance (l : VmaList α) (v : VmaId) (addr : Nat) : Decidable (l.Straddles v addr) :=
  inferInstanceAs (Decidable (_ ∧ _))

/-- The list in which no area straddles the address: if one does, it is cut there. -/
def cutAt (l : VmaList α) (addr : Nat) : VmaList α :=
  match l.order.find? fun v => decide (l.Straddles v addr) with
  | none => l
  | some v => l.splitBelow v addr

theorem Sorted.cutAt_of_straddles (h : l.Sorted) (hv : v ∈ l.order) (hs : l.Straddles v addr) :
    l.cutAt addr = l.splitBelow v addr := by
  have hcov : ∀ w, l.Straddles w addr → l.Covers w addr := fun w hw => ⟨le_of_lt hw.1, hw.2⟩
  rw [cutAt]
  cases hf : l.order.find? fun v => decide (l.Straddles v addr) with
  | none => exact absurd (decide_eq_true hs) (find?_eq_none.1 hf v hv)
  | some w =>
    have hw : l.Straddles w addr := by simpa using find?_some hf
    rw [h.eq_of_covers (mem_of_find?_eq_some hf) hv (hcov w hw) (hcov v hs)]

theorem cutAt_of_not (hn : ∀ v ∈ l.order, ¬ l.Straddles v addr) : l.cutAt addr = l := by
  have hf : l.order.find? (fun v => decide (l.Straddles v addr)) = none :=
    find?_eq_none.2 fun v hv => by simp [hn v hv]
  rw [cutAt, hf]

/-- Every area of the second list is part of one of the first, with the same `f`. -/
def PiecesOf {β : Type} (f : α → β) (l l' : VmaList α) : Prop :=
  ∀ w ∈ l'.order, ∃ v ∈ l.order,
    l.start v ≤ l'.start w ∧ l'.stop w ≤ l.stop v ∧ f (l'.area w) = f (l.area v)

theorem PiecesOf.refl {β : Type} (f : α → β) (l : VmaList α) : PiecesOf f l l :=
  fun w hw => ⟨w, hw, le_refl _, le_refl _, rfl⟩

theorem PiecesOf.trans {β : Type} {f : α → β} {l₁ l₂ l₃ : VmaList α} (h₁ : PiecesOf f l₁ l₂)
    (h₂ : PiecesOf f l₂ l₃) : PiecesOf f l₁ l₃ := fun w hw => by
  obtain ⟨v, hv, hs, he, hf⟩ := h₂ w hw
  obtain ⟨u, hu, hs', he', hf'⟩ := h₁ v hv
  exact ⟨u, hu, le_trans hs' hs, le_trans he he', hf.trans hf'⟩

theorem PiecesOf.not_straddles {β : Type} {f : α → β} {l' : VmaList α} (h : PiecesOf f l l')
    (hn : ∀ v ∈ l.order, ¬ l.Straddles v addr) : ∀ w ∈ l'.order, ¬ l'.Straddles w addr := by
  intro w hw hs
  obtain ⟨v, hv, hsv, hev, -⟩ := h w hw
  exact hn v hv ⟨lt_of_le_of_lt hsv hs.1, lt_of_lt_of_le hs.2 hev⟩

namespace WellFormed

theorem cutAt_cases (h : l.WellFormed) (addr : Nat) :
    ((∀ v ∈ l.order, ¬ l.Straddles v addr) ∧ l.cutAt addr = l) ∨
      ∃ v ∈ l.order, l.Straddles v addr ∧ l.cutAt addr = l.splitBelow v addr := by
  by_cases hn : ∀ v ∈ l.order, ¬ l.Straddles v addr
  · exact .inl ⟨hn, cutAt_of_not hn⟩
  · obtain ⟨v, hv, hs⟩ : ∃ v ∈ l.order, l.Straddles v addr := by
      simpa only [not_forall, not_not, exists_prop] using hn
    exact .inr ⟨v, hv, hs, h.cutAt_of_straddles hv hs⟩

theorem cutAt (h : l.WellFormed) (addr : Nat) : (l.cutAt addr).WellFormed := by
  obtain ⟨-, he⟩ | ⟨v, hv, hs, he⟩ := h.cutAt_cases addr
  · rw [he]
    exact h
  · rw [he]
    exact h.splitBelow hv hs.1 hs.2

section

variable {β : Type} {f : α → β} (hf : ∀ x s e p, f (resize x s e p) = f x) (h : l.WellFormed)
include hf h

theorem splitBelow_pieces (hv : v ∈ l.order) (hs : l.Straddles v addr) :
    PiecesOf f l (l.splitBelow v addr) := by
  intro w hw
  obtain ⟨rfl, ha⟩ | ⟨rfl, ha⟩ | ⟨hw', -, ha⟩ := h.splitBelow_cases hv hw
  · refine ⟨v, hv, ?_, ?_, ?_⟩
    · simp only [start, ha, vmStart_resize, le_refl]
    · simp only [stop, ha, vmEnd_resize]
      exact le_of_lt hs.2
    · rw [ha, hf]
  · refine ⟨w, hv, ?_, ?_, ?_⟩
    · simp only [start, ha, vmStart_resize]
      exact le_of_lt hs.1
    · simp only [stop, ha, vmEnd_resize, le_refl]
    · rw [ha, hf]
  · refine ⟨w, hw', ?_, ?_, ?_⟩
    · simp only [start, ha, le_refl]
    · simp only [stop, ha, le_refl]
    · rw [ha]

theorem cutAt_pieces (addr : Nat) : PiecesOf f l (l.cutAt addr) := by
  obtain ⟨-, he⟩ | ⟨v, hv, hs, he⟩ := h.cutAt_cases addr
  · rw [he]
    exact .refl f l
  · rw [he]
    exact h.splitBelow_pieces hf hv hs

end

theorem not_straddles_cutAt (h : l.WellFormed) (addr : Nat) :
    ∀ w ∈ (l.cutAt addr).order, ¬ (l.cutAt addr).Straddles w addr := by
  obtain ⟨hn, he⟩ | ⟨v, hv, hs, he⟩ := h.cutAt_cases addr
  · rw [he]
    exact hn
  · rw [he]
    rintro w hw ⟨hws, hwe⟩
    obtain ⟨rfl, ha⟩ | ⟨rfl, ha⟩ | ⟨hw', hne, ha⟩ := h.splitBelow_cases hv hw
    · simp only [stop, ha, vmEnd_resize, lt_irrefl] at hwe
    · simp only [start, ha, vmStart_resize, lt_irrefl] at hws
    · simp only [start, ha] at hws
      simp only [stop, ha] at hwe
      exact hne (h.eq_of_covers hw' hv ⟨le_of_lt hws, hwe⟩ ⟨le_of_lt hs.1, hs.2⟩)

theorem covered_cutAt (h : l.WellFormed) (addr a : Nat) :
    (l.cutAt addr).Covered a ↔ l.Covered a := by
  obtain ⟨-, he⟩ | ⟨v, hv, hs, he⟩ := h.cutAt_cases addr
  · rw [he]
  · obtain ⟨A, B, hl⟩ := append_of_mem hv
    rw [he, covered_iff, covered_iff, (h.splitBelow_order addr hl).2, hl, map_append, map_cons]
    exact Spans.covered_split hs.1 hs.2

end WellFormed

theorem WellFormed.exists_straddles_cutAt (h : l.WellFormed) (hlt : start < stop) :
    (∃ w ∈ (l.cutAt start).order, (l.cutAt start).Straddles w stop) ↔
      ∃ w ∈ l.order, l.Straddles w stop := by
  constructor
  · rintro ⟨w, hw, hws⟩
    obtain ⟨v, hv, hs, he, -⟩ := h.cutAt_pieces (f := fun _ => ()) (fun _ _ _ _ => rfl) start w hw
    exact ⟨v, hv, lt_of_le_of_lt hs hws.1, lt_of_lt_of_le hws.2 he⟩
  · rintro ⟨w, hw, hws⟩
    obtain ⟨-, he⟩ | ⟨v, hv, hs, he⟩ := h.cutAt_cases start
    · rw [he]
      exact ⟨w, hw, hws⟩
    · obtain ⟨A, B, hl⟩ := append_of_mem hv
      have hw' : w ∈ (l.splitBelow v start).order := by
        rw [(h.splitBelow_order start hl).1]
        rw [hl] at hw
        grind
      rw [he]
      refine ⟨w, hw', ?_⟩
      obtain ⟨rfl, -⟩ | ⟨rfl, ha⟩ | ⟨-, -, ha⟩ := h.splitBelow_cases hv hw'
      · exact absurd (h.fresh _ hw) (lt_irrefl _)
      · simp only [Straddles, VmaList.start, VmaList.stop, ha, vmStart_resize,
          vmEnd_resize]
        exact ⟨hlt, hws.2⟩
      · simpa only [Straddles, VmaList.start, VmaList.stop, ha] using hws

/-! ## Taking the areas of a range off the list -/

def Inside (l : VmaList α) (start stop : Nat) (v : VmaId) : Prop :=
  start ≤ l.start v ∧ l.stop v ≤ stop

instance (l : VmaList α) (start stop : Nat) : DecidablePred (l.Inside start stop) :=
  fun _ => inferInstanceAs (Decidable (_ ∧ _))

def clearRange (l : VmaList α) (start stop : Nat) : VmaList α :=
  { l with
    order := l.order.filter fun v => !decide (l.Inside start stop v)
    mapCount := l.mapCount - (l.order.filter fun v => decide (l.Inside start stop v)).length }

/-- The loop that unlinks the areas behind the last one below the range clears it. -/
theorem Sorted.unlinkWithin_eq (h : l.Sorted) (hl : l.order = A ++ v :: B)
    (hA : ∀ x ∈ A ++ [v], l.stop x ≤ start) (hB : ∀ x ∈ B, start ≤ l.start x) :
    l.unlinkWithin v stop = l.clearRange start stop := by
  obtain ⟨M, R, rfl, hM, hR⟩ := h.cut_behind hl stop
  have hM' : ∀ x ∈ M, decide (l.stop x ≤ stop) = true := fun x hx => decide_eq_true (hM x hx)
  have hR' : ∀ x ∈ R.head?, decide (l.stop x ≤ stop) = false := fun x hx =>
    decide_eq_false (not_le.2 (hR x (mem_of_mem_head? hx)))
  have hl' : l.order = (A ++ [v]) ++ (M ++ R) := by simpa using hl
  have hbelow : ∀ x ∈ A ++ [v], decide (l.Inside start stop x) = false := fun x hx =>
    decide_eq_false fun hin => by
      have := hA x hx
      have := h.nonempty x (by rw [hl']; exact mem_append_left _ hx)
      have := hin.1
      omega
  obtain ⟨hin, hout⟩ := Cut.filter_middle hbelow
    (fun x hx => decide_eq_true ⟨hB x (mem_append_left R hx), hM x hx⟩)
    (fun x hx => decide_eq_false fun hin => absurd hin.2 (not_le.2 (hR x hx)))
  rw [unlinkWithin, within, h.before_eq hl, h.behind_eq hl, Cut.dropWhile_append hM' hR',
    Cut.takeWhile_append hM' hR', clearRange, hl', hin, hout]
  simp

/-- Where no area straddles an end of the range, its addresses are the ones that go. -/
theorem Sorted.covered_clearRange (h : l.Sorted)
    (hs : ∀ v ∈ l.order, ¬ l.Straddles v start) (he : ∀ v ∈ l.order, ¬ l.Straddles v stop)
    (a : Nat) : (l.clearRange start stop).Covered a ↔ l.Covered a ∧ ¬ (start ≤ a ∧ a < stop) := by
  constructor
  · rintro ⟨v, hv, hva⟩
    obtain ⟨hv, hk⟩ := mem_filter.1 hv
    have hin : ¬ l.Inside start stop v := by simpa using hk
    have hns := hs v hv
    have hne := he v hv
    have hlv := h.nonempty v hv
    have hva' : l.Covers v a := hva
    refine ⟨⟨v, hv, hva⟩, fun ha => hin ?_⟩
    simp only [Straddles, Covers] at hns hne hva'
    exact ⟨by omega, by omega⟩
  · rintro ⟨⟨v, hv, hva⟩, ha⟩
    refine ⟨v, mem_filter.2 ⟨hv, ?_⟩, hva⟩
    have hin : ¬ l.Inside start stop v := fun hin => by
      simp only [Covers, Inside] at hva hin
      omega
    simpa using hin

theorem clearRange_pieces {β : Type} (f : α → β) (l : VmaList α) (start stop : Nat) :
    PiecesOf f l (l.clearRange start stop) :=
  fun w hw => ⟨w, (mem_filter.1 hw).1, le_refl _, le_refl _, rfl⟩

/-! ## The whole call -/

namespace WellFormed

/-- The unlinking at the end of the call. The area that covers the end of the range reaches above
it, so it is not one of those that are unlinked. -/
theorem unlink_eq (h : l.Sorted) (hl : l.order = A ++ v :: B)
    (hA : ∀ x ∈ A ++ [v], l.stop x ≤ start) (hB : ∀ x ∈ B, start ≤ l.start x) {last : Option VmaId}
    (hlast : ∀ w ∈ last, stop < l.stop w) :
    (if last.any (· ∈ l.within v stop) then none
      else some ((0 : Int), l.unlinkWithin v stop)) = some (0, l.clearRange start stop) := by
  rw [if_neg, h.unlinkWithin_eq hl hA hB]
  cases last with
  | none => simp
  | some w =>
    have hw := hlast w rfl
    have hout : w ∉ l.within v stop := fun hin => by
      have := mem_takeWhile_imp hin
      simp only [decide_eq_true_eq] at this
      omega
    simpa using hout

theorem simpleFindVma_of_covers (h : l.Sorted) (hv : v ∈ l.order) (hc : l.Covers v a) :
    l.simpleFindVma a = some v := by
  rw [simpleFindVma]
  cases hf : l.order.find? fun v => decide (l.start v ≤ a) && decide (a < l.stop v) with
  | none =>
    have := find?_eq_none.1 hf v hv
    simp [hc.1, hc.2] at this
  | some w =>
    have hw : l.Covers w a := by simpa [Covers] using find?_some hf
    rw [h.eq_of_covers (mem_of_find?_eq_some hf) hv hw hc]

theorem covers_of_simpleFindVma (hf : l.simpleFindVma a = some v) : v ∈ l.order ∧ l.Covers v a :=
  ⟨mem_of_find?_eq_some hf, by simpa [Covers] using find?_some hf⟩

theorem detachRange_eq (h : l.WellFormed) (hl : l.order = A ++ v :: B) (hne : A ≠ [])
    (hA : ∀ x ∈ A, l.stop x ≤ start) (hv : start ≤ l.start v) (hle : start ≤ stop)
    (alloc : Bool) :
    l.detachRange v stop alloc =
      if (∃ w ∈ l.order, l.Straddles w stop) ∧ alloc = false then some (-enomem, l)
      else some (0, (l.cutAt stop).clearRange start stop) := by
  obtain ⟨A', p, rfl⟩ := (eq_nil_or_concat' A).resolve_left hne
  have hvB : ∀ x ∈ v :: B, start ≤ l.start x := forall_mem_cons.2 ⟨hv, fun x hx => by
    have := h.above hl x hx
    have := h.nonempty v (mem_of_order_eq hl)
    omega⟩
  rw [detachRange, h.vmaPrevVma_eq hl, getLast?_concat]
  by_cases hw : ∃ w ∈ l.order, l.Straddles w stop
  · obtain ⟨w, hwl, hws⟩ := hw
    have hlast := simpleFindVma_of_covers h.toSorted hwl ⟨le_of_lt hws.1, hws.2⟩
    cases alloc with
    | false =>
      rw [if_pos ⟨⟨w, hwl, hws⟩, rfl⟩]
      simp [hlast, hws.1, splitVma, enomem]
    | true =>
      -- the straddling area is one of those above the start
      have hwB : w ∈ v :: B := by
        rw [hl] at hwl
        refine (mem_append.1 hwl).resolve_left fun hwA => ?_
        have := hA w hwA
        have := hws.2
        omega
      obtain ⟨X, Y, hXY⟩ := append_of_mem hwB
      have hlw : l.order = (A' ++ [p] ++ X) ++ w :: Y := by rw [hl, hXY]; simp
      have horder := (h.splitBelow_order stop hlw).1
      have hl₂ : (l.splitBelow w stop).order = A' ++ p :: (X ++ l.nextId :: w :: Y) := by
        simpa using horder
      rw [if_neg (by simp), h.cutAt_of_straddles hwl hws]
      simp only [hlast, hws.1, if_true, h.splitVma_eq hwl, bind_eq_bind, bind_some,
        ne_eq, not_true_eq_false, if_false]
      refine unlink_eq (h.splitBelow hwl hws.1 hws.2).toSorted hl₂ (fun x hx => ?_)
        (fun x hx => ?_) fun u hu => ?_
      · have hx' : x ∈ (l.splitBelow w stop).order := by
          rw [horder]
          exact mem_append_left _ (mem_append_left _ hx)
        have hxl : x ∈ l.order := by
          rw [hl]
          exact mem_append_left _ hx
        obtain ⟨rfl, -⟩ | ⟨rfl, -⟩ | ⟨-, -, ha⟩ := h.splitBelow_cases hwl hx'
        · exact absurd (h.fresh _ hxl) (lt_irrefl _)
        · exact absurd (mem_append_left X hx) (h.notMem_before hlw)
        · rw [VmaList.stop, ha]
          exact hA x hx
      · have hx' : x ∈ (l.splitBelow w stop).order := by
          rw [hl₂]
          exact mem_append_right _ (mem_cons_of_mem _ hx)
        obtain ⟨-, ha⟩ | ⟨-, ha⟩ | ⟨hxl, hxw, ha⟩ := h.splitBelow_cases hwl hx'
        · rw [VmaList.start, ha, vmStart_resize]
          exact hvB w hwB
        · rw [VmaList.start, ha, vmStart_resize]
          exact hle
        · rw [VmaList.start, ha]
          have hxn : x ≠ l.nextId := Nat.ne_of_lt (h.fresh x hxl)
          exact hvB x (by rw [hXY]; grind)
      · obtain rfl : w = u := by simpa using hu
        simpa [VmaList.splitBelow, VmaList.stop] using hws.2
  · have hn : ∀ w ∈ l.order, ¬ l.Straddles w stop := fun w hwl hws => hw ⟨w, hwl, hws⟩
    have hl₁ : l.order = A' ++ p :: v :: B := by simpa using hl
    rw [if_neg (fun hc => hw hc.1), cutAt_of_not hn]
    cases hlast : l.simpleFindVma stop with
    | none =>
      simp only [bind_eq_bind, bind_some, ne_eq, not_true_eq_false, if_false]
      exact unlink_eq h.toSorted hl₁ hA hvB (by simp)
    | some w =>
      obtain ⟨hwl, hwc⟩ := covers_of_simpleFindVma hlast
      have hws : ¬ l.start w < stop := fun hlt => hn w hwl ⟨hlt, hwc.2⟩
      simp only [hws, if_false, bind_eq_bind, bind_some, ne_eq, not_true_eq_false]
      refine unlink_eq h.toSorted hl₁ hA hvB fun u hu => ?_
      obtain rfl : w = u := by simpa using hu
      exact hwc.2

/-- The whole call, when it finds an area: what it does if both cuts can be made, and where it stops
if one cannot. -/
theorem simpleDoVmaMunmap_of_first (h : l.WellFormed) (hl : l.order = A ++ v :: B) (hne : A ≠ [])
    (hA : ∀ x ∈ A, l.stop x < start) (ho : l.Overlaps v start stop) (hlt : start < stop)
    (r : Allocs) :
    l.simpleDoVmaMunmap start stop r =
      if (∃ w ∈ l.order, l.Straddles w start) ∧ r.first = false then some (-enomem, l)
      else if (∃ w ∈ l.order, l.Straddles w stop) ∧ r.last = false then
        some (-enomem, l.cutAt start)
      else some (0, ((l.cutAt start).cutAt stop).clearRange start stop) := by
  have hvl := mem_of_order_eq hl
  rw [simpleDoVmaMunmap, h.findVmaIntersection_of_first (le_of_lt hlt) hl hne hA ho]
  simp only [bind_eq_bind, bind_some]
  by_cases hs : l.start v < start
  · have hst : l.Straddles v start := ⟨hs, ho.2⟩
    have hex : ∃ w ∈ l.order, l.Straddles w start := ⟨v, hvl, hst⟩
    rw [if_pos hs]
    cases hfirst : r.first with
    | false =>
      rw [if_pos ⟨hex, rfl⟩]
      simp [splitVma, enomem]
    | true =>
      have hl₁ : (l.splitBelow v start).order = (A ++ [l.nextId]) ++ v :: B := by
        rw [(h.splitBelow_order start hl).1]
        simp
      have hstops : ∀ x ∈ A ++ [l.nextId], (l.splitBelow v start).stop x ≤ start := fun x hx => by
        have hx' : x ∈ (l.splitBelow v start).order := by
          rw [hl₁]
          exact mem_append_left _ hx
        obtain ⟨-, ha⟩ | ⟨rfl, -⟩ | ⟨hxl, -, ha⟩ := h.splitBelow_cases hvl hx'
        · simp only [VmaList.stop, ha, vmEnd_resize, le_refl]
        · exact absurd hx (by simp [h.notMem_before hl, Nat.ne_of_lt (h.fresh x hvl)])
        · have hxA : x ∈ A := by simpa [Nat.ne_of_lt (h.fresh x hxl)] using hx
          rw [VmaList.stop, ha]
          exact Nat.le_of_lt (hA x hxA)
      have hcut := h.cutAt_of_straddles hvl hst
      rw [if_neg (by simp), hcut, h.splitVma_eq hvl]
      simp only [bind_some, ne_eq, not_true_eq_false, if_false]
      refine ((h.splitBelow hvl hs ho.2).detachRange_eq hl₁ (by simp) hstops
        (by simp [VmaList.splitBelow, VmaList.start]) (le_of_lt hlt) r.last).trans
        (if_congr (and_congr_left' ?_) rfl rfl)
      rw [← hcut]
      exact h.exists_straddles_cutAt hlt
  · have hn : ∀ w ∈ l.order, ¬ l.Straddles w start := fun w hw hws => by
      rw [hl, mem_append, mem_cons] at hw
      rcases hw with hw | rfl | hw
      · exact absurd hws.2 (not_lt.2 (le_of_lt (hA w hw)))
      · exact hs hws.1
      · exact absurd hws.1 (not_lt.2 (le_trans (le_of_lt ho.2) (h.above hl w hw)))
    rw [if_neg hs, if_neg (fun hc => hc.1.elim fun w hw => hn w hw.1 hw.2), cutAt_of_not hn]
    exact h.detachRange_eq hl hne (fun x hx => le_of_lt (hA x hx)) (Nat.le_of_not_lt hs)
      (le_of_lt hlt) r.last

end WellFormed

theorem simpleDoVmaMunmap_of_none (h : l.findVmaIntersection start stop = some none) (r : Allocs) :
    l.simpleDoVmaMunmap start stop r = some (0, l) := by
  simp [simpleDoVmaMunmap, h]

/-- The addresses of the range are no longer covered, the others are as before, and what is still
covered has kept its flags and its file. -/
def RemovesExactly (l l' : VmaList Vma) (start stop : Nat) : Prop :=
  (∀ a, l'.Covered a ↔ l.Covered a ∧ ¬ (start ≤ a ∧ a < stop)) ∧
  ∀ a, ∀ v ∈ l.order, ∀ w ∈ l'.order, l.Covers v a → l'.Covers w a →
    (l'.area w).vmFlags = (l.area v).vmFlags ∧ (l'.area w).vmFile = (l.area v).vmFile

theorem Sorted.removesExactly_of_pieces {l l' : VmaList Vma} (h : l.Sorted)
    (hc : ∀ a, l'.Covered a ↔ l.Covered a ∧ ¬ (start ≤ a ∧ a < stop))
    (hp : PiecesOf (fun x : Vma => (x.vmFlags, x.vmFile)) l l') : RemovesExactly l l' start stop := by
  refine ⟨hc, fun a v hv w hw hva hwa => ?_⟩
  obtain ⟨u, hu, hs, he, hf⟩ := hp w hw
  obtain rfl := h.eq_of_covers hu hv ⟨le_trans hs hwa.1, lt_of_lt_of_le hwa.2 he⟩ hva
  exact Prod.mk.inj hf

theorem WellFormed.removesExactly {l : VmaList Vma} (h : l.WellFormed) :
    RemovesExactly l (((l.cutAt start).cutAt stop).clearRange start stop) start stop := by
  have h₁ := h.cutAt start
  have h₂ := h₁.cutAt stop
  have hp₁ : PiecesOf (fun x : Vma => (x.vmFlags, x.vmFile)) l (l.cutAt start) :=
    h.cutAt_pieces (fun _ _ _ _ => rfl) start
  have hp₂ : PiecesOf (fun x : Vma => (x.vmFlags, x.vmFile)) (l.cutAt start)
      ((l.cutAt start).cutAt stop) := h₁.cutAt_pieces (fun _ _ _ _ => rfl) stop
  refine h.removesExactly_of_pieces (fun a => ?_)
    ((hp₁.trans hp₂).trans (clearRange_pieces _ _ start stop))
  rw [h₂.covered_clearRange (hp₂.not_straddles (h.not_straddles_cutAt start))
    (h₁.not_straddles_cutAt stop), h₁.covered_cutAt, h.covered_cutAt]

/-- A successful call removes exactly the range, whatever can be allocated, if nothing is mapped
there or an area ends below the range and none ends at its start. Otherwise it removes nothing. -/
theorem munmap_exact_iff (l : VmaList Vma) (start stop : Nat) (r : Allocs) (h : l.WellFormed)
    (hlt : start < stop) :
    (∀ l', l.simpleDoVmaMunmap start stop r = some (0, l') → RemovesExactly l l' start stop) ↔
      (∀ v ∈ l.order, ¬ l.Overlaps v start stop) ∨ l.HasPred start := by
  have hle := le_of_lt hlt
  by_cases hno : ∀ v ∈ l.order, ¬ l.Overlaps v start stop
  · refine iff_of_true (fun l' hl' => ?_) (.inl hno)
    rw [simpleDoVmaMunmap_of_none (h.findVmaIntersection_of_not hle (.inl hno))] at hl'
    obtain rfl : l = l' := by simpa using hl'
    refine h.removesExactly_of_pieces (fun a => ⟨fun ha => ⟨ha, ?_⟩, And.left⟩) (.refl _ l)
    rintro ⟨hsa, has⟩
    obtain ⟨v, hv, hva⟩ := ha
    exact hno v hv ⟨lt_of_le_of_lt hva.1 has, lt_of_le_of_lt hsa hva.2⟩
  obtain ⟨w, hw, ho⟩ : ∃ w ∈ l.order, l.Overlaps w start stop := by
    simpa only [not_forall, not_not, exists_prop] using hno
  by_cases hp : l.HasPred start
  · refine iff_of_true (fun l' hl' => ?_) (.inr hp)
    obtain ⟨A, v, B, hl, hne, hA, hov⟩ := h.exists_first hp hw ho
    rw [h.simpleDoVmaMunmap_of_first hl hne hA hov hlt] at hl'
    -- a call that could not make one of the cuts was no success
    split_ifs at hl' with h₁ h₂
    · simp [enomem] at hl'
    · simp [enomem] at hl'
    · obtain rfl : _ = l' := by simpa using hl'
      exact h.removesExactly
  · refine iff_of_false (fun hall => ?_) (not_or.2 ⟨hno, hp⟩)
    have hmiss := simpleDoVmaMunmap_of_none (h.findVmaIntersection_of_not hle (.inr hp)) r
    have hcov : l.Covered (max start (l.start w)) := ⟨w, hw, le_max_right _ _,
      Nat.max_lt.2 ⟨ho.2, h.nonempty w hw⟩⟩
    exact (((hall l hmiss).1 _).1 hcov).2 ⟨Nat.le_max_left _ _, Nat.max_lt.2 ⟨hlt, ho.1⟩⟩

/-- The last page of the second area goes. -/
theorem munmap_exact_iff_two_areas :
    (∀ l', (ofAreas [anonAt 4096 8192, anonAt 12288 20480]).simpleDoVmaMunmap 16384 20480
        ⟨true, true, true⟩ = some (0, l') →
      RemovesExactly (ofAreas [anonAt 4096 8192, anonAt 12288 20480]) l' 16384 20480) ↔
      (∀ v ∈ (ofAreas [anonAt 4096 8192, anonAt 12288 20480]).order,
        ¬ (ofAreas [anonAt 4096 8192, anonAt 12288 20480]).Overlaps v 16384 20480) ∨
      (ofAreas [anonAt 4096 8192, anonAt 12288 20480]).HasPred 16384 :=
  munmap_exact_iff _ 16384 20480 ⟨true, true, true⟩ ⟨⟨by decide, by decide⟩, by decide⟩ (by decide)

/-- The only area of an address space stays after it has been unmapped. -/
theorem only_area_not_unmapped :
    ¬ ∀ l', (ofAreas [anonAt 4096 8192]).simpleDoVmaMunmap 4096 8192 ⟨true, true, true⟩ =
        some (0, l') →
      RemovesExactly (ofAreas [anonAt 4096 8192]) l' 4096 8192 := by
  intro hall
  have hl : (ofAreas [anonAt 4096 8192]).simpleDoVmaMunmap 4096 8192 ⟨true, true, true⟩ =
      some (0, ofAreas [anonAt 4096 8192]) := rfl
  exact (((hall _ hl).1 4096).1 ⟨0, by decide, by decide⟩).2 ⟨by decide, by decide⟩

end MyOS2.Mmap.VmaList
