import MyOS2.Mm.VmMap.Proofs.VmaList

/-!
# Growing a stack (`expand_stack`)

The function moves the start of an area down to the page of an address. It returns 0 also
where `vm_pgoff` is too small and nothing has moved, and it does not look at the area
below.
-/

namespace MyOS2.Mmap.VmaList

variable {l : VmaList Vma} {v : VmaId} {address : Nat}

def Disjoint (l : VmaList Vma) : Prop :=
  ∀ v ∈ l.order, ∀ w ∈ l.order, v ≠ w → ∀ a, ¬ (l.Covers v a ∧ l.Covers w a)

theorem Sorted.disjoint (h : l.Sorted) : l.Disjoint :=
  fun _ hv _ hw hne _ hc => hne (h.eq_of_covers hv hw hc.1 hc.2)

section

variable (l : VmaList Vma) (v : VmaId) (address : Nat)

/-- What a call is to do: on success the page of the address is in the area and the areas are still
disjoint, on failure nothing has changed. -/
def ExpandsSafely (r : Int × VmaList Vma) : Prop :=
  (r.1 = 0 → r.2.start v ≤ pageMask address ∧ pageMask address + pageSize ≤ r.2.stop v ∧
    r.2.Disjoint) ∧ (r.1 ≠ 0 → r.2 = l)

/-- The number of pages by which the area has to grow. -/
def growth : Nat :=
  (l.start v - pageMask address) / pageSize

def grownTo : Vma :=
  { l.area v with vmStart := pageMask address, vmPgoff := l.pgoff v - l.growth v address }

end

theorem pageMask_le (address : Nat) : pageMask address ≤ address := Nat.div_mul_le_self _ _

theorem expandStack_eq (hmin : mmapMinAddr ≤ address) (hlt : address < l.start v) :
    l.expandStack v address =
      if l.growth v address ≤ l.pgoff v then (0, l.setArea v (l.grownTo v address)) else (0, l) := by
  have hmask : ¬ pageMask address < mmapMinAddr := by
    simp only [pageMask, mmapMinAddr, pageSize] at hmin ⊢
    omega
  rw [expandStack, if_neg hmask, if_pos (Nat.lt_of_le_of_lt (pageMask_le address) hlt)]
  rfl

theorem pageMask_add_le {b : Nat} (hb : pageSize ∣ b) (hlt : address < b) :
    pageMask address + pageSize ≤ b := by
  obtain ⟨k, rfl⟩ := hb
  simp only [pageMask, pageSize] at hlt ⊢
  omega

/-- The grown area keeps the areas disjoint exactly when every area below ends up to the page. -/
theorem Sorted.disjoint_grown_iff {A B : List VmaId} (h : l.Sorted) (hl : l.order = A ++ v :: B)
    (hlt : address < l.start v) :
    (l.setArea v (l.grownTo v address)).Disjoint ↔ ∀ w ∈ A, l.stop w ≤ pageMask address := by
  have hv := mem_of_order_eq hl
  have hmask := Nat.lt_of_le_of_lt (pageMask_le address) hlt
  have hne := h.nonempty v hv
  constructor
  · intro hd w hw
    refine Nat.le_of_not_lt fun hcon => ?_
    have hwl : w ∈ l.order := by simp [hl, hw]
    have hwv : w ≠ v := fun he => h.notMem_before hl (he ▸ hw)
    have hbelow := h.below hl w hw
    have hwne := h.nonempty w hwl
    -- the higher of the two starts lies in both areas
    refine hd w hwl v hv hwv (max (pageMask address) (l.start w)) ⟨?_, ?_⟩
    · rw [Covers, setArea_start_of_ne l _ hwv, setArea_stop_of_ne l _ hwv]
      omega
    · simp only [Covers, VmaList.start, VmaList.stop, setArea_area_self]
      refine ⟨Nat.le_max_left _ _, ?_⟩
      exact Nat.max_lt.2 ⟨Nat.lt_trans hmask hne,
        Nat.lt_of_lt_of_le hwne (Nat.le_trans hbelow (Nat.le_of_lt hne))⟩
  · intro hA
    have hlt' : Area.vmStart (l.grownTo v address) < Area.vmEnd (l.grownTo v address) :=
      Nat.lt_trans hmask hne
    exact (h.setArea hl hlt' hA (h.above hl)).disjoint

/-- Growth is safe and effective exactly when `vm_pgoff` allows it and the areas below end up to the
page of the address. -/
theorem expandStack_safe_iff (l : VmaList Vma) (v : VmaId) (address : Nat) (h : l.WellFormed)
    (hal : l.PageAligned) (hv : v ∈ l.order) (hmin : mmapMinAddr ≤ address)
    (hlt : address < l.start v) :
    ExpandsSafely l v address (l.expandStack v address) ↔
      l.growth v address ≤ l.pgoff v ∧ ∀ w ∈ l.before v, l.stop w ≤ pageMask address := by
  obtain ⟨A, B, hl⟩ := List.append_of_mem hv
  rw [h.before_eq hl, expandStack_eq hmin hlt]
  by_cases hgrow : l.growth v address ≤ l.pgoff v
  · rw [if_pos hgrow, ← h.disjoint_grown_iff hl hlt]
    refine ⟨fun hsafe => ⟨hgrow, (hsafe.1 rfl).2.2⟩, fun hd => ⟨fun _ => ⟨?_, ?_, hd.2⟩, nofun⟩⟩
    · simp [VmaList.start, Area.vmStart, grownTo]
    · have hstop : (l.setArea v (l.grownTo v address)).stop v = l.stop v := by
        simp [VmaList.stop, Area.vmEnd, grownTo]
      rw [hstop]
      exact Nat.le_trans (pageMask_add_le (hal v hv).1 hlt) (Nat.le_of_lt (h.nonempty v hv))
  · rw [if_neg hgrow]
    refine iff_of_false (fun hsafe => ?_) fun hc => hgrow hc.1
    have hstart : l.start v ≤ pageMask address := (hsafe.1 rfl).1
    have := pageMask_le address
    omega

def stackAt (start stop : Nat) : Vma :=
  { anonAt start stop with vmFlags := vmGrowsdown ||| 3 }

/-- There is room between the stack and the area below. -/
theorem expandStack_safe_iff_free :
    ExpandsSafely (ofAreas [anonAt 4096 8192, stackAt 20480 24576]) 1 16385
        ((ofAreas [anonAt 4096 8192, stackAt 20480 24576]).expandStack 1 16385) ↔
      (ofAreas [anonAt 4096 8192, stackAt 20480 24576]).growth 1 16385 ≤
          (ofAreas [anonAt 4096 8192, stackAt 20480 24576]).pgoff 1 ∧
        ∀ w ∈ (ofAreas [anonAt 4096 8192, stackAt 20480 24576]).before 1,
          (ofAreas [anonAt 4096 8192, stackAt 20480 24576]).stop w ≤ pageMask 16385 :=
  expandStack_safe_iff _ 1 16385 ⟨⟨by decide, by decide⟩, by decide⟩ (by decide) (by decide)
    (by decide) (by decide)

/-- A stack grows down over the area below it. -/
theorem stack_grows_over_neighbour :
    ¬ ExpandsSafely (ofAreas [anonAt 4096 8192, stackAt 20480 24576]) 1 4096
      ((ofAreas [anonAt 4096 8192, stackAt 20480 24576]).expandStack 1 4096) := fun hsafe =>
  (hsafe.1 (by decide)).2.2 0 (by decide) 1 (by decide) (by decide) 4096 ⟨by decide, by decide⟩

end MyOS2.Mmap.VmaList
