import MyOS2.Misc.Cut
import MyOS2.Misc.Spans
import MyOS2.Mm.VmMap.Mmap

/-!
# Sorted lists of areas

What it means that a list of areas is in order, which addresses it covers, and how the functions
see an area between its neighbours. `find_vma_intersection` looks at one area only, the one
behind the last area that ends below the range, so it is right exactly when there is such an
area and none ends at the range.
-/

namespace MyOS2.Mmap.VmaList

open Option List

variable {α : Type} [Area α] {l : VmaList α} {v w : VmaId} {A B : List VmaId} {a : Nat}

/-- Each area lies below the next one, and none is empty. -/
structure Sorted (l : VmaList α) : Prop where
  apart : l.order.Pairwise fun v w => l.stop v ≤ l.start w
  nonempty : ∀ v ∈ l.order, l.start v < l.stop v

/-- A sorted list whose areas have all been allocated. -/
structure WellFormed (l : VmaList α) : Prop extends l.Sorted where
  fresh : ∀ v ∈ l.order, v < l.nextId

def span (l : VmaList α) (v : VmaId) : Nat × Nat := (l.start v, l.stop v)

theorem sorted_iff (l : VmaList α) : l.Sorted ↔ Spans.Ordered (l.order.map l.span) := by
  simp only [Spans.Ordered, pairwise_map, List.forall_mem_map]
  constructor
  · rintro ⟨h, h'⟩
    exact ⟨h, h'⟩
  · rintro ⟨h, h'⟩
    exact ⟨h, h'⟩

def Covers (l : VmaList α) (v : VmaId) (a : Nat) : Prop := l.start v ≤ a ∧ a < l.stop v

instance (l : VmaList α) (v : VmaId) (a : Nat) : Decidable (l.Covers v a) :=
  inferInstanceAs (Decidable (_ ∧ _))

def Covered (l : VmaList α) (a : Nat) : Prop := ∃ v ∈ l.order, l.Covers v a

theorem covered_iff (l : VmaList α) (a : Nat) :
    l.Covered a ↔ Spans.Covered (l.order.map l.span) a := by
  simp only [Covered, Spans.Covered, List.mem_map, exists_exists_and_eq_and]
  rfl

def Overlaps (l : VmaList α) (v : VmaId) (start stop : Nat) : Prop :=
  l.start v < stop ∧ start < l.stop v

instance (l : VmaList α) (v : VmaId) (start stop : Nat) : Decidable (l.Overlaps v start stop) :=
  inferInstanceAs (Decidable (_ ∧ _))

theorem intersects_iff (l : VmaList α) (v : VmaId) (start stop : Nat) :
    l.intersects v start stop = true ↔ l.Overlaps v start stop := by
  simp only [intersects, Overlaps, Bool.not_eq_true', Bool.or_eq_false_iff,
    decide_eq_false_iff_not, Nat.not_le]
  exact and_comm

/-! ## An area between its neighbours -/

omit [Area α] in
theorem mem_of_order_eq (hl : l.order = A ++ v :: B) : v ∈ l.order := by
  rw [hl]
  exact mem_append_right _ mem_cons_self

omit [Area α] in
theorem before_of_notMem (hl : l.order = A ++ v :: B) (hv : v ∉ A) : l.before v = A := by
  rw [before, hl]
  exact Cut.takeWhile_append (fun x hx => bne_iff_ne.2 fun hxv => hv (hxv ▸ hx)) (by simp)

omit [Area α] in
theorem behind_of_notMem (hl : l.order = A ++ v :: B) (hv : v ∉ A) : l.behind v = B := by
  rw [behind, hl, Cut.dropWhile_append (fun x hx => ?_) (by simp), tail_cons]
  exact bne_iff_ne.2 fun hxv => hv (hxv ▸ hx)

namespace Sorted

section

variable (h : l.Sorted)
include h

section

variable (hl : l.order = A ++ v :: B)
include hl

theorem below : ∀ x ∈ A, l.stop x ≤ l.start v := by
  have := h.apart
  rw [hl] at this
  exact fun x hx => (pairwise_append.1 this).2.2 x hx v mem_cons_self

theorem above : ∀ x ∈ B, l.stop v ≤ l.start x := by
  have := h.apart
  rw [hl] at this
  exact (pairwise_cons.1 (pairwise_append.1 this).2.1).1

theorem notMem_before : v ∉ A := fun hv => by
  have := h.below hl v hv
  have := h.nonempty v (mem_of_order_eq hl)
  omega

theorem notMem_behind : v ∉ B := fun hv => by
  have := h.above hl v hv
  have := h.nonempty v (mem_of_order_eq hl)
  omega

end

theorem nodup : l.order.Nodup := by
  refine h.apart.imp_of_mem fun {x y} hx _ hxy he => ?_
  subst he
  have := h.nonempty x hx
  omega

section

variable (hl : l.order = A ++ v :: B)
include hl

theorem before_eq : l.before v = A := before_of_notMem hl (h.notMem_before hl)

theorem behind_eq : l.behind v = B := behind_of_notMem hl (h.notMem_before hl)

theorem vmaPrevVma_eq : l.vmaPrevVma v = A.getLast? := by
  rw [vmaPrevVma, h.before_eq hl]

theorem vmaNextVma_eq : l.vmaNextVma v = B.head? := by
  rw [vmaNextVma, h.behind_eq hl]

end

theorem eq_of_covers (hv : v ∈ l.order) (hw : w ∈ l.order)
    (hva : l.Covers v a) (hwa : l.Covers w a) : v = w := by
  obtain ⟨A, B, hl⟩ := append_of_mem hv
  rw [hl, mem_append, mem_cons] at hw
  obtain ⟨hvs, hve⟩ := hva
  obtain ⟨hws, hwe⟩ := hwa
  rcases hw with hw | rfl | hw
  · have := h.below hl w hw
    omega
  · rfl
  · have := h.above hl w hw
    omega

theorem cut_stop (addr : Nat) : ∃ low high, l.order = low ++ high ∧ (∀ v ∈ low, l.stop v < addr) ∧
      ∀ v ∈ high, addr ≤ l.stop v := by
  obtain ⟨low, high, hl, hlow, hhigh⟩ :=
    Cut.exists_cut (fun v => l.stop v < addr) h.apart fun x y hy hxy hlt => by
      have := h.nonempty y hy
      omega
  exact ⟨low, high, hl, hlow, fun v hv => Nat.le_of_not_lt (hhigh v hv)⟩

theorem cut_behind (hl : l.order = A ++ v :: B) (addr : Nat) :
    ∃ M R, B = M ++ R ∧ (∀ x ∈ M, l.stop x ≤ addr) ∧ ∀ x ∈ R, addr < l.stop x := by
  have hap := h.apart
  rw [hl] at hap
  obtain ⟨M, R, hB, hM, hR⟩ := Cut.exists_cut (fun x => l.stop x ≤ addr)
    (pairwise_cons.1 (pairwise_append.1 hap).2.1).2 fun x y hy hxy hle => by
      have := h.nonempty y (by simp [hl, hy])
      omega
  exact ⟨M, R, hB, hM, fun x hx => Nat.lt_of_not_le (hR x hx)⟩

end

end Sorted

/-! ## Changing one area -/

omit [Area α] in
@[simp] theorem setArea_order (l : VmaList α) (v : VmaId) (x : α) :
    (l.setArea v x).order = l.order := rfl

omit [Area α] in
theorem setArea_area_of_ne (l : VmaList α) (x : α) (h : w ≠ v) :
    (l.setArea v x).area w = l.area w := by
  simp [setArea, h]

omit [Area α] in
@[simp] theorem setArea_area_self (l : VmaList α) (v : VmaId) (x : α) :
    (l.setArea v x).area v = x := by
  simp [setArea]

section

variable (l : VmaList α) (x : α) (h : w ≠ v)
include h

theorem setArea_stop_of_ne : (l.setArea v x).stop w = l.stop w := by
  rw [VmaList.stop, setArea_area_of_ne l x h]
  rfl

theorem setArea_start_of_ne : (l.setArea v x).start w = l.start w := by
  rw [VmaList.start, setArea_area_of_ne l x h]
  rfl

theorem setArea_span_of_ne : (l.setArea v x).span w = l.span w := by
  rw [span, setArea_start_of_ne l x h, setArea_stop_of_ne l x h]
  rfl

end

def replaceIn (l : VmaList α) (A : List VmaId) (v : VmaId) (x : α) (B : List VmaId) (m : Int) :
    VmaList α :=
  { l.setArea v x with order := A ++ v :: B, mapCount := m }

omit [Area α] in
theorem setArea_eq_replaceIn (hl : l.order = A ++ v :: B) (x : α) :
    l.setArea v x = l.replaceIn A v x B l.mapCount := by
  simp [replaceIn, setArea, hl]

theorem map_span_replaceIn (l : VmaList α) (hA : v ∉ A) (hB : v ∉ B) (x : α) (m : Int) :
    (l.replaceIn A v x B m).order.map (l.replaceIn A v x B m).span =
      A.map l.span ++ (Area.vmStart x, Area.vmEnd x) :: B.map l.span := by
  have hkept : ∀ C : List VmaId, v ∉ C → C.map (l.replaceIn A v x B m).span = C.map l.span :=
    fun C hC => map_congr_left fun y hy => setArea_span_of_ne l x fun hyv => hC (hyv ▸ hy)
  have hself : (l.replaceIn A v x B m).span v = (Area.vmStart x, Area.vmEnd x) := by
    simp [replaceIn, span, VmaList.start, VmaList.stop]
  rw [replaceIn] at hkept hself ⊢
  rw [map_append, map_cons, hkept A hA, hkept B hB, hself]

theorem Sorted.setArea (h : l.Sorted) (hl : l.order = A ++ v :: B) {x : α}
    (hx : Area.vmStart x < Area.vmEnd x) (hA : ∀ y ∈ A, l.stop y ≤ Area.vmStart x)
    (hB : ∀ y ∈ B, Area.vmEnd x ≤ l.start y) : (l.setArea v x).Sorted := by
  have hord := (sorted_iff l).1 h
  rw [hl, map_append, map_cons] at hord
  rw [sorted_iff, setArea_eq_replaceIn hl,
    map_span_replaceIn l (h.notMem_before hl) (h.notMem_behind hl)]
  exact Spans.ordered_middle.2 ⟨(Spans.ordered_middle.1 hord).1, hx, forall_mem_map.2 hA,
    forall_mem_map.2 hB⟩

/-! ## Looking for an overlap -/

/-- Some area ends below the address, and none ends at it. -/
def HasPred (l : VmaList α) (addr : Nat) : Prop :=
  (∃ v ∈ l.order, l.stop v < addr) ∧ ∀ v ∈ l.order, l.stop v ≠ addr

/-- The right answer of a search for the first area that overlaps a range. -/
def IsFirstOverlap (l : VmaList α) (start stop : Nat) : Option VmaId → Prop
  | none => ∀ v ∈ l.order, ¬ l.Overlaps v start stop
  | some v => v ∈ l.order ∧ l.Overlaps v start stop ∧
      ∀ w ∈ l.order, l.Overlaps w start stop → l.start v ≤ l.start w

section

variable {low high : List VmaId} {start stop : Nat}

theorem findVmaPrevToAddr_eq (hl : l.order = low ++ high) (hlow : ∀ v ∈ low, l.stop v < start)
    (hhigh : ∀ v ∈ high, start ≤ l.stop v) : l.findVmaPrevToAddr start = low.getLast? := by
  rw [findVmaPrevToAddr, hl]
  refine Cut.find?_reverse_append (fun v hv => decide_eq_true (hlow v hv)) fun v hv => ?_
  exact decide_eq_false (Nat.not_lt.2 (hhigh v hv))

namespace Sorted

theorem findVmaIntersection_of_nil (hle : start ≤ stop) (h : ∀ v ∈ l.order, start ≤ l.stop v) :
    l.findVmaIntersection start stop = some none := by
  rw [findVmaIntersection, if_neg (Nat.not_lt.2 hle),
    findVmaPrevToAddr_eq (nil_append _).symm (by nofun) h]
  rfl

theorem findVmaIntersection_of_cut (h : l.Sorted) (hle : start ≤ stop)
    (hl : l.order = low ++ high) (hlow : ∀ v ∈ low, l.stop v < start)
    (hhigh : ∀ v ∈ high, start ≤ l.stop v) (hne : low ≠ []) :
    l.findVmaIntersection start stop =
      some (high.head?.filter fun v => l.intersects v start stop) := by
  obtain ⟨A, p, rfl⟩ := (eq_nil_or_concat' low).resolve_left hne
  have hl' : l.order = A ++ p :: high := by simpa using hl
  rw [findVmaIntersection, if_neg (Nat.not_lt.2 hle), findVmaPrevToAddr_eq hl hlow hhigh]
  simp only [getLast?_append, getLast?_singleton, some_or, bind_eq_bind,
    bind_some, h.vmaNextVma_eq hl']
  cases high.head? with
  | none => rfl
  | some v => simp only [bind_some, filter_some]

/-- Where an area ends below the range and none ends at it, the area behind the last one that ends
below is the first that can overlap. -/
theorem exists_first (h : l.Sorted) (hp : l.HasPred start) (hw : w ∈ l.order)
    (ho : l.Overlaps w start stop) :
    ∃ low v B, l.order = low ++ v :: B ∧ low ≠ [] ∧ (∀ x ∈ low, l.stop x < start) ∧
      l.Overlaps v start stop := by
  obtain ⟨low, high, hl, hlow, hhigh⟩ := h.cut_stop start
  obtain ⟨⟨p, hpm, hps⟩, hne⟩ := hp
  have hmem : ∀ x ∈ l.order, start < l.stop x → x ∈ high := fun x hx hlt => by
    rw [hl, mem_append] at hx
    refine hx.resolve_left fun hx => ?_
    have := hlow x hx
    omega
  have hwh := hmem w hw ho.2
  obtain ⟨v, B, rfl⟩ := exists_cons_of_ne_nil (ne_nil_of_mem hwh)
  have hv := mem_of_order_eq hl
  refine ⟨low, v, B, hl, ?_, hlow, ?_, Nat.lt_of_le_of_ne (hhigh v mem_cons_self) (hne v hv).symm⟩
  · rintro rfl
    have := hhigh p (by simpa [hl] using hpm)
    omega
  · rcases mem_cons.1 hwh with rfl | hwB
    · exact ho.1
    · have := h.above hl w hwB
      have := h.nonempty v hv
      have := ho.1
      omega

theorem findVmaIntersection_of_first {B : List VmaId} (h : l.Sorted) (hle : start ≤ stop)
    (hl : l.order = low ++ v :: B) (hne : low ≠ []) (hlow : ∀ x ∈ low, l.stop x < start)
    (ho : l.Overlaps v start stop) : l.findVmaIntersection start stop = some (some v) := by
  have hhigh : ∀ x ∈ v :: B, start ≤ l.stop x := by
    refine forall_mem_cons.2 ⟨Nat.le_of_lt ho.2, fun x hx => ?_⟩
    have := h.above hl x hx
    have := h.nonempty x (by simp [hl, hx])
    have := ho.2
    omega
  rw [h.findVmaIntersection_of_cut hle hl hlow hhigh hne, head?_cons, filter_some,
    if_pos ((l.intersects_iff v start stop).2 ho)]

theorem findVmaIntersection_of_not (h : l.Sorted) (hle : start ≤ stop)
    (hn : (∀ v ∈ l.order, ¬ l.Overlaps v start stop) ∨ ¬ l.HasPred start) :
    l.findVmaIntersection start stop = some none := by
  obtain ⟨low, high, hl, hlow, hhigh⟩ := h.cut_stop start
  by_cases hnil : low = []
  · subst hnil
    exact findVmaIntersection_of_nil hle (by simpa [hl] using hhigh)
  rw [h.findVmaIntersection_of_cut hle hl hlow hhigh hnil]
  cases high with
  | nil => rfl
  | cons v B =>
    rw [head?_cons, filter_some, if_neg]
    rw [l.intersects_iff]
    intro ho
    rcases hn with hn | hn
    · exact hn v (mem_of_order_eq hl) ho
    · obtain ⟨p, hp⟩ := exists_mem_of_ne_nil low hnil
      refine hn ⟨⟨p, by simp [hl, hp], hlow p hp⟩, fun x hx => ?_⟩
      -- what follows `v` ends above it, and `v` ends above the range's start
      rw [hl, mem_append, mem_cons] at hx
      rcases hx with hx | rfl | hx
      · exact Nat.ne_of_lt (hlow x hx)
      · exact Nat.ne_of_gt ho.2
      · have := h.above hl x hx
        have := h.nonempty x (by simp [hl, hx])
        have := ho.2
        omega

end Sorted

/-- The search is right exactly when there is nothing to be found, or an area ends below the range
and none ends at its start. -/
theorem findVmaIntersection_right_iff (l : VmaList α) (start stop : Nat) (h : l.Sorted)
    (hlt : start < stop) :
    (∃ r, l.findVmaIntersection start stop = some r ∧ l.IsFirstOverlap start stop r) ↔
      (∀ v ∈ l.order, ¬ l.Overlaps v start stop) ∨ l.HasPred start := by
  have hle := Nat.le_of_lt hlt
  by_cases hno : ∀ v ∈ l.order, ¬ l.Overlaps v start stop
  · exact iff_of_true ⟨none, h.findVmaIntersection_of_not hle (.inl hno), hno⟩ (.inl hno)
  by_cases hp : l.HasPred start
  · refine iff_of_true ?_ (.inr hp)
    obtain ⟨w, hw, ho⟩ : ∃ w ∈ l.order, l.Overlaps w start stop := by
      simpa only [not_forall, not_not, exists_prop] using hno
    obtain ⟨low, v, B, hl, hne, hlow, hov⟩ := h.exists_first hp hw ho
    refine ⟨some v, h.findVmaIntersection_of_first hle hl hne hlow hov, mem_of_order_eq hl, hov,
      fun x hx hox => ?_⟩
    rw [hl, mem_append, mem_cons] at hx
    rcases hx with hx | rfl | hx
    · have := hlow x hx
      have := hox.2
      omega
    · exact Nat.le_refl _
    · have := h.above hl x hx
      have := h.nonempty v (mem_of_order_eq hl)
      omega
  · refine iff_of_false ?_ (not_or.2 ⟨hno, hp⟩)
    rintro ⟨r, hr, hfirst⟩
    rw [h.findVmaIntersection_of_not hle (.inr hp), some.injEq] at hr
    subst hr
    exact hno hfirst

end

def PageAligned (l : VmaList Vma) : Prop :=
  ∀ v ∈ l.order, pageSize ∣ l.start v ∧ pageSize ∣ l.stop v

instance (l : VmaList Vma) : Decidable l.PageAligned :=
  inferInstanceAs (Decidable (∀ _ ∈ _, _ ∧ _))

def ofAreas (areas : List Vma) : VmaList Vma where
  order := range areas.length
  area i := areas.getD i ⟨0, 0, 0, 0, none, false⟩
  mapCount := areas.length
  nextId := areas.length

def anonAt (start stop : Nat) : Vma := ⟨start, stop, start / pageSize, 3, none, false⟩

/-- The range of the second of two areas. -/
theorem findVmaIntersection_right_iff_two_areas :
    (∃ r, (ofAreas [anonAt 4096 8192, anonAt 12288 16384]).findVmaIntersection 12288 16384 =
        some r ∧
      (ofAreas [anonAt 4096 8192, anonAt 12288 16384]).IsFirstOverlap 12288 16384 r) ↔
      (∀ v ∈ (ofAreas [anonAt 4096 8192, anonAt 12288 16384]).order,
        ¬ (ofAreas [anonAt 4096 8192, anonAt 12288 16384]).Overlaps v 12288 16384) ∨
      (ofAreas [anonAt 4096 8192, anonAt 12288 16384]).HasPred 12288 :=
  findVmaIntersection_right_iff _ 12288 16384 ⟨by decide, by decide⟩ (by decide)

/-- The only area of an address space is not found. -/
theorem only_area_not_found :
    ¬ ∃ r, (ofAreas [anonAt 4096 8192]).findVmaIntersection 4096 8192 = some r ∧
      (ofAreas [anonAt 4096 8192]).IsFirstOverlap 4096 8192 r := by
  rintro ⟨r, hr, hfirst⟩
  have hnone : (ofAreas [anonAt 4096 8192]).findVmaIntersection 4096 8192 = some none := by decide
  obtain rfl : none = r := some.inj (hnone.symm.trans hr)
  exact hfirst 0 (by decide) (by decide)

end MyOS2.Mmap.VmaList
