import MyOS2.Mm.VmMap.Proofs.Munmap

/-!
# Growing an area over a new range (`simple_vma_merge`)

The function asks whether the area before the range and the area behind it can take it.
The answers are independent, and each pair of answers leads to one adjustment, but for one
pair: if there is an area before the range that cannot be merged and one behind it that
can, the variable `adjust_target` has no value.
-/

namespace MyOS2.Mmap.VmaList

open List Area Nat

variable {α : Type} [Area α] {l : VmaList α} {v p k : VmaId} {A B R : List VmaId}
  {prev next curr : Option VmaId} {req : α}

def MergesAfter (l : VmaList α) (req : α) (p : VmaId) : Prop :=
  l.stop p = vmStart req ∧ mergeable (l.area p) req = true ∧
    (l.pgoff p + pages α (l.stop p - l.start p)) % 2 ^ 64 = vmPgoff req

def MergesBefore (l : VmaList α) (req : α) (k : VmaId) : Prop :=
  mergeable (l.area k) req = true ∧
    l.pgoff k = (vmPgoff req + pages α (vmEnd req - vmStart req)) % 2 ^ 64

instance (l : VmaList α) (req : α) (p : VmaId) : Decidable (l.MergesAfter req p) :=
  inferInstanceAs (Decidable (_ ∧ _))

instance (l : VmaList α) (req : α) (k : VmaId) : Decidable (l.MergesBefore req k) :=
  inferInstanceAs (Decidable (_ ∧ _))

/-! ## The cases of the function -/

/-- What the function has found out when it looks at its neighbours. -/
structure Looks (l : VmaList α) (prev : Option VmaId) (req : α) (next : Option VmaId) : Prop where
  notSpecial : special req = false
  found : ∃ curr, l.findVmaIntersection (prev.elim 0 l.stop) (vmEnd req) = some curr ∧
    next = if curr.all (fun c => l.stop c = vmEnd req) then l.simpleFindVma (vmEnd req)
      else none

/-- The adjustment that follows, for the areas that can be merged. -/
def mergeWith (l : VmaList α) (prev : Option VmaId) (req : α) :
    Option VmaId → Option VmaId → Option (Option VmaId × VmaList α)
  | none, none => some (none, l)
  | some p, none => some (some p, l.simpleVmaAdjust p (l.start p) (vmEnd req))
  | some p, some k => some (some p, l.simpleVmaAdjust p (l.start p) (l.stop k))
  | none, some k =>
    if prev.isNone then some (some k, l.simpleVmaAdjust k (vmStart req) (l.stop k)) else none

theorem Looks.simpleVmaMerge_eq (h : Looks l prev req next) :
    l.simpleVmaMerge prev req = l.mergeWith prev req
      (prev.filter fun p => decide (l.MergesAfter req p))
      (next.filter fun k => decide (l.MergesBefore req k)) := by
  obtain ⟨hs, curr, hcurr, hnext⟩ := h
  have hafter : (fun p => decide (l.MergesAfter req p)) = fun p =>
      l.stop p = vmStart req && mergeable (l.area p) req &&
        decide ((l.pgoff p + pages α (l.stop p - l.start p)) % 2 ^ 64 = vmPgoff req) := by
    funext p
    rw [Bool.eq_iff_iff, decide_eq_true_iff]
    simp [MergesAfter, and_assoc]
  have hbefore : (fun k => decide (l.MergesBefore req k)) = fun k =>
      mergeable (l.area k) req && decide (l.pgoff k =
        (vmPgoff req + pages α (vmEnd req - vmStart req)) % 2 ^ 64) := by
    funext k
    rw [Bool.eq_iff_iff, decide_eq_true_iff]
    simp [MergesBefore]
  rw [simpleVmaMerge, hs, hafter, hbefore]
  simp only [Bool.false_eq_true, if_false, hcurr, Option.bind_eq_bind, Option.bind_some, ← hnext]
  generalize (fun p => decide (l.stop p = vmStart req) && mergeable (l.area p) req &&
    decide ((l.pgoff p + pages α (l.stop p - l.start p)) % 2 ^ 64 = vmPgoff req)) = f
  generalize (fun k => mergeable (l.area k) req && decide (l.pgoff k =
    (vmPgoff req + pages α (vmEnd req - vmStart req)) % 2 ^ 64)) = g
  cases prev.filter f <;> cases next.filter g <;> rfl

/-! ## A free range -/

def IsLastBelow (l : VmaList α) (addr : Nat) : Option VmaId → Prop
  | none => ∀ v ∈ l.order, addr < l.stop v
  | some p => p ∈ l.order ∧ l.stop p ≤ addr ∧
      ∀ v ∈ l.order, l.stop v ≤ addr → l.stop v ≤ l.stop p

def Free (l : VmaList α) (start stop : Nat) : Prop := ∀ v ∈ l.order, ¬ l.Overlaps v start stop

section

variable (h : l.WellFormed) (hlt : vmStart req < vmEnd req)
  (hfree : l.Free (vmStart req) (vmEnd req))

include h hlt in
theorem looks_of_isLastBelow (hs : special req = false)
    (hprev : l.IsLastBelow (vmStart req) prev) :
    Looks l prev req (l.simpleFindVma (vmEnd req)) := by
  refine ⟨hs, none, ?_, rfl⟩
  cases prev with
  | none =>
    exact h.findVmaIntersection_of_not (zero_le _)
      (.inr fun hp => hp.1.elim fun v hv => not_lt_zero _ hv.2)
  | some p =>
    have hle : l.stop p ≤ vmEnd req := le_trans hprev.2.1 (le_of_lt hlt)
    exact h.findVmaIntersection_of_not hle (.inr fun hp => hp.2 p hprev.1 rfl)

include hlt hfree in
theorem start_of_simpleFindVma (hk : l.simpleFindVma (vmEnd req) = some k) :
    k ∈ l.order ∧ l.start k = vmEnd req := by
  obtain ⟨hkl, hks, hke⟩ := WellFormed.covers_of_simpleFindVma hk
  have := hfree k hkl
  simp only [Overlaps] at this
  exact ⟨hkl, by omega⟩

include h hfree in
theorem behind_free (hl : l.order = A ++ p :: B) (hp : l.stop p = vmStart req) :
    ∀ w ∈ B, vmEnd req ≤ l.start w := fun w hw => by
  have hwl : w ∈ l.order := by simp [hl, hw]
  have := h.above hl w hw
  have := h.nonempty w hwl
  have := hfree w hwl
  simp only [Overlaps] at this
  omega

include h hlt hfree in
theorem next_of_free (hl : l.order = A ++ p :: B) (hp : l.stop p = vmStart req)
    (hk : l.simpleFindVma (vmEnd req) = some k) : ∃ R, B = k :: R := by
  obtain ⟨hkl, hks⟩ := start_of_simpleFindVma hlt hfree hk
  have hkB : k ∈ B := by
    rw [hl, mem_append, mem_cons] at hkl
    rcases hkl with hkA | rfl | hkB
    · have := h.below hl k hkA
      have := h.nonempty p (mem_of_order_eq hl)
      have := h.nonempty k (by simp [hl, hkA])
      omega
    · have := h.nonempty k (mem_of_order_eq hl)
      omega
    · exact hkB
  obtain ⟨M, R, rfl⟩ := append_of_mem hkB
  cases M with
  | nil => exact ⟨R, rfl⟩
  | cons m M =>
    have hl' : l.order = (A ++ p :: m :: M) ++ k :: R := by simpa using hl
    have := h.below hl' m (by simp)
    have := h.nonempty m (by simp [hl])
    have := behind_free h hfree hl hp m (by simp)
    omega

end

/-! ## What a merge is to do -/

/-- The area lies at an end of the range and continues it: its flags, its file and its `vm_pgoff`
are those of the range. -/
def Continues (l : VmaList Vma) (req : Vma) (v : VmaId) : Prop :=
  (l.area v).vmFlags = req.vmFlags ∧ (l.area v).vmFile = req.vmFile ∧
    (l.stop v = req.vmStart ∧ (l.pgoff v + (l.stop v - l.start v) / pageSize) % 2 ^ 64 = req.vmPgoff ∨
      l.start v = req.vmEnd ∧
        l.pgoff v = (req.vmPgoff + (req.vmEnd - req.vmStart) / pageSize) % 2 ^ 64)

/-- What a merge has to do to the list. -/
structure MergedExactly (l l' : VmaList Vma) (req : Vma) (t : VmaId) : Prop where
  covered : ∀ a, l'.Covered a ↔ l.Covered a ∨ req.vmStart ≤ a ∧ a < req.vmEnd
  sorted : l'.Sorted
  target : t ∈ l'.order ∧ l'.start t ≤ req.vmStart ∧ req.vmEnd ≤ l'.stop t
  absorbed : ∀ v ∈ l.order, v ∉ l'.order ∨ l'.area v ≠ l.area v → l.Continues req v

/-- A merge returns, and what it returns is an area that was grown over the range, or nothing and
then the list is as it was. -/
def MergesExactly (l : VmaList Vma) (req : Vma) (r : Option (Option VmaId × VmaList Vma)) : Prop :=
  ∃ t l', r = some (t, l') ∧ (t = none → l' = l) ∧ ∀ k ∈ t, MergedExactly l l' req k

section

variable {l : VmaList Vma} {req : Vma} {M : List VmaId}

theorem pages_vma (n : Nat) : pages Vma n = n / pageSize := by
  simp only [pages, unit, mul_one]

theorem MergesAfter.continues (h : l.MergesAfter req p) : l.Continues req p := by
  obtain ⟨hstop, hm, hoff⟩ := h
  simp only [mergeable, Bool.and_eq_true, decide_eq_true_eq] at hm
  rw [pages_vma] at hoff
  exact ⟨hm.1.1, hm.1.2, .inl ⟨hstop, hoff⟩⟩

theorem MergesBefore.continues (h : l.MergesBefore req k) (hk : l.start k = req.vmEnd) :
    l.Continues req k := by
  obtain ⟨hm, hoff⟩ := h
  simp only [mergeable, Bool.and_eq_true, decide_eq_true_eq] at hm
  rw [pages_vma] at hoff
  exact ⟨hm.1.1, hm.1.2, .inr ⟨hk, hoff⟩⟩

theorem changed_of_replaceIn (hl : l.order = A ++ p :: (M ++ R)) {x : Vma} {m : Int}
    (hv : v ∈ l.order)
    (hc : v ∉ (l.replaceIn A p x R m).order ∨ (l.replaceIn A p x R m).area v ≠ l.area v) :
    v = p ∨ v ∈ M := by
  rcases hc with hc | hc
  · rw [hl] at hv
    simp only [replaceIn, mem_append, mem_cons, not_or] at hv hc
    tauto
  · exact .inl (by_contra fun hne => hc (setArea_area_of_ne l x hne))

theorem mergedExactly_replaceIn (h : l.Sorted) (hl : l.order = A ++ p :: (M ++ R)) {x : Vma}
    {m : Int} (hs : x.vmStart ≤ req.vmStart) (he : req.vmEnd ≤ x.vmEnd)
    (hord : Spans.Ordered (A.map l.span ++ (x.vmStart, x.vmEnd) :: R.map l.span))
    (hcov : ∀ a, Spans.Covered (A.map l.span ++ (x.vmStart, x.vmEnd) :: R.map l.span) a ↔
      Spans.Covered (l.order.map l.span) a ∨ req.vmStart ≤ a ∧ a < req.vmEnd)
    (hp : l.Continues req p) (hM : ∀ v ∈ M, l.Continues req v) :
    MergedExactly l (l.replaceIn A p x R m) req p := by
  have hspan := map_span_replaceIn l (h.notMem_before hl)
    (fun hR => h.notMem_behind hl (mem_append_right M hR)) x m
  have hself : (l.replaceIn A p x R m).area p = x := by simp [replaceIn]
  refine ⟨fun a => ?_, ?_, ⟨by simp [replaceIn], ?_, ?_⟩, fun v hv hc => ?_⟩
  · rw [covered_iff, covered_iff, hspan]
    exact hcov a
  · rw [sorted_iff, hspan]
    exact hord
  · rw [VmaList.start, hself]
    exact hs
  · rw [VmaList.stop, hself]
    exact he
  · rcases changed_of_replaceIn hl hv hc with rfl | hvM
    · exact hp
    · exact hM v hvM

variable (h : l.WellFormed) (hlt : req.vmStart < req.vmEnd)
  (hfree : l.Free req.vmStart req.vmEnd)

include h hlt hfree

theorem merged_prev (hp : p ∈ l.order) (hm : l.MergesAfter req p) :
    MergedExactly l (l.simpleVmaAdjust p (l.start p) req.vmEnd) req p := by
  obtain ⟨A, B, hl⟩ := append_of_mem hp
  have hstop : l.stop p = req.vmStart := hm.1
  have hlp := h.nonempty p hp
  have habove : ∀ w ∈ B, req.vmEnd ≤ l.start w := behind_free h hfree hl hstop
  have hord := (sorted_iff l).1 h.toSorted
  rw [hl, map_append, map_cons] at hord
  obtain ⟨hAB, -, hA, -⟩ := Spans.ordered_middle.1 hord
  rw [simpleVmaAdjust_of_clear hl (h.notMem_before hl) (h.notMem_behind hl)
    (fun k hk => lt_of_le_of_lt (habove k hk) (h.nonempty k (by simp [hl, hk]))) habove,
    setArea_eq_replaceIn hl]
  have hl' : l.order = A ++ p :: ([] ++ B) := hl
  have hle : l.stop p ≤ req.vmEnd := hstop ▸ le_of_lt hlt
  refine mergedExactly_replaceIn h.toSorted hl' (hstop ▸ le_of_lt hlp) (le_refl _)
    ?_ (fun a => ?_) hm.continues (by nofun)
  · exact Spans.ordered_middle.2 ⟨hAB, lt_of_lt_of_le hlp hle, hA, forall_mem_map.2 habove⟩
  · rw [hl, map_append, map_cons]
    exact (Spans.covered_grow (le_refl _) hlp hle).trans (or_congr_right (by omega))

theorem merged_both (hp : p ∈ l.order) (hm : l.MergesAfter req p)
    (hk : l.simpleFindVma req.vmEnd = some k) (hm' : l.MergesBefore req k) :
    MergedExactly l (l.simpleVmaAdjust p (l.start p) (l.stop k)) req p := by
  obtain ⟨A, B, hl⟩ := append_of_mem hp
  have hstop : l.stop p = req.vmStart := hm.1
  obtain ⟨hkl, hks⟩ : k ∈ l.order ∧ l.start k = req.vmEnd := start_of_simpleFindVma hlt hfree hk
  obtain ⟨R, rfl⟩ := next_of_free h hlt hfree hl hstop hk
  have hlp := h.nonempty p hp
  have hlk := h.nonempty k hkl
  have hl₁ : l.order = A ++ p :: ([k] ++ R) := hl
  have hl₂ : l.order = (A ++ [p]) ++ k :: R := by simpa using hl
  have habove := h.above hl₂
  have hord := (sorted_iff l).1 h.toSorted
  rw [hl, map_append, map_cons, map_cons] at hord
  have hR : ∀ w ∈ R, l.stop k < l.stop w := fun w hw =>
    lt_of_le_of_lt (habove w hw) (h.nonempty w (by simp [hl, hw]))
  rw [simpleVmaAdjust_of_apart hl₁ (h.notMem_before hl) (h.notMem_behind hl) (by simp) hR habove]
  refine mergedExactly_replaceIn h.toSorted hl₁ (hstop ▸ le_of_lt hlp)
    (hks ▸ le_of_lt hlk) ?_ (fun a => ?_) hm.continues
    (by simpa using hm'.continues hks)
  · exact Spans.Ordered.join hord
  · rw [hl, map_append, map_cons, map_cons]
    exact (Spans.Ordered.covered_join hord).trans (or_congr_right (by rw [hstop, hks]))

/-- The area behind the range is grown down to its start, if no area lies before. -/
theorem merged_next (hn : ∀ v ∈ l.order, req.vmStart < l.stop v)
    (hk : l.simpleFindVma req.vmEnd = some k) (hm : l.MergesBefore req k) :
    MergedExactly l (l.simpleVmaAdjust k req.vmStart (l.stop k)) req k := by
  obtain ⟨hkl, hks⟩ : k ∈ l.order ∧ l.start k = req.vmEnd := start_of_simpleFindVma hlt hfree hk
  obtain ⟨A, B, hl⟩ := append_of_mem hkl
  have hlk := h.nonempty k hkl
  have habove := h.above hl
  have hnil : ∀ x ∈ A, False := fun x hx => by
    have hxl : x ∈ l.order := by simp [hl, hx]
    have := h.below hl x hx
    have := hn x hxl
    have := h.nonempty x hxl
    have := hfree x hxl
    simp only [Overlaps] at this
    omega
  have hord := (sorted_iff l).1 h.toSorted
  rw [hl, map_append, map_cons] at hord
  obtain ⟨hAB, -, -, hB⟩ := Spans.ordered_middle.1 hord
  have hle : req.vmStart ≤ l.start k := hks ▸ le_of_lt hlt
  rw [simpleVmaAdjust_of_clear hl (h.notMem_before hl) (h.notMem_behind hl)
    (fun w hw => lt_of_le_of_lt (habove w hw) (h.nonempty w (by simp [hl, hw]))) habove,
    setArea_eq_replaceIn hl]
  have hl' : l.order = A ++ k :: ([] ++ B) := hl
  refine mergedExactly_replaceIn h.toSorted hl' (le_refl _) (hks ▸ le_of_lt hlk) ?_
    (fun a => ?_) (hm.continues hks) (by simp)
  · refine Spans.ordered_middle.2 ⟨hAB, lt_of_le_of_lt hle hlk, ?_, hB⟩
    exact forall_mem_map.2 fun x hx => (hnil x hx).elim
  · rw [hl, map_append, map_cons]
    exact (Spans.covered_grow hle hlk (le_refl _)).trans (or_congr_right (by omega))

end

/-- A merge into a free range is exact but for one case: an area lies before the range that cannot
be merged, and the one behind it can. -/
theorem simpleVmaMerge_exact_iff (l : VmaList Vma) (prev : Option VmaId) (req : Vma)
    (h : l.WellFormed) (hlt : req.vmStart < req.vmEnd) (hfree : l.Free req.vmStart req.vmEnd)
    (hprev : l.IsLastBelow req.vmStart prev) :
    MergesExactly l req (l.simpleVmaMerge prev req) ↔
      special req = true ∨ prev = none ∨ (∃ p ∈ prev, l.MergesAfter req p) ∨
        ∀ k ∈ l.order, l.start k = req.vmEnd → ¬ l.MergesBefore req k := by
  cases hs : special req with
  | true =>
    refine iff_of_true ⟨none, l, ?_, fun _ => rfl, by nofun⟩ (.inl rfl)
    rw [simpleVmaMerge, hs, if_pos rfl]
  | false =>
  have hlooks := looks_of_isLastBelow h hlt hs hprev
  rw [hlooks.simpleVmaMerge_eq]
  have hfind : ∀ k ∈ l.order, l.start k = req.vmEnd → l.simpleFindVma req.vmEnd = some k :=
    fun k hk hks => WellFormed.simpleFindVma_of_covers h.toSorted hk
      ⟨le_of_eq hks, hks ▸ h.nonempty k hk⟩
  cases hp : prev.filter fun p => decide (l.MergesAfter req p) with
  | some p =>
    obtain ⟨hpp, hm⟩ := Option.filter_eq_some_iff.1 hp
    have hm : l.MergesAfter req p := of_decide_eq_true hm
    have hpl : p ∈ l.order := by
      subst hpp
      exact hprev.1
    refine iff_of_true ?_ (.inr (.inr (.inl ⟨p, hpp, hm⟩)))
    cases hn : (l.simpleFindVma (vmEnd req)).filter fun k =>
        decide (l.MergesBefore req k) with
    | none =>
      refine ⟨some p, _, rfl, by nofun, ?_⟩
      rintro _ ⟨⟩
      exact merged_prev h hlt hfree hpl hm
    | some k =>
      obtain ⟨hkk, hm'⟩ := Option.filter_eq_some_iff.1 hn
      refine ⟨some p, _, rfl, by nofun, ?_⟩
      rintro _ ⟨⟩
      exact merged_both h hlt hfree hpl hm hkk (of_decide_eq_true hm')
  | none =>
    have hnp : ∀ p ∈ prev, ¬ l.MergesAfter req p := fun p hpp hm =>
      Option.filter_eq_none_iff.1 hp p hpp (decide_eq_true hm)
    cases hn : (l.simpleFindVma (vmEnd req)).filter fun k =>
        decide (l.MergesBefore req k) with
    | none =>
      refine iff_of_true ⟨none, l, rfl, fun _ => rfl, by nofun⟩
        (.inr (.inr (.inr fun k hk hks hm => ?_)))
      exact Option.filter_eq_none_iff.1 hn k (hfind k hk hks) (decide_eq_true hm)
    | some k =>
      obtain ⟨hkk, hm⟩ := Option.filter_eq_some_iff.1 hn
      have hm : l.MergesBefore req k := of_decide_eq_true hm
      cases prev with
      | none =>
        refine iff_of_true ⟨some k, _, rfl, by nofun, ?_⟩ (.inr (.inl rfl))
        rintro _ ⟨⟩
        exact merged_next h hlt hfree hprev hkk hm
      | some p =>
        -- the adjustment would start from a variable without a value
        refine iff_of_false ?_ ?_
        · rintro ⟨t, l', hr, -⟩
          exact absurd hr (by simp [mergeWith])
        · obtain ⟨hkl, hks⟩ := start_of_simpleFindVma hlt hfree hkk
          rintro (hc | hc | ⟨q, hq, hc⟩ | hc)
          · exact absurd hc (by simp)
          · exact absurd hc (by simp)
          · exact hnp q hq hc
          · exact hc k hkl hks hm

/-- A request that fills the gap between two areas. -/
theorem simpleVmaMerge_exact_iff_gap :
    MergesExactly (ofAreas [anonAt 4096 8192, anonAt 12288 16384]) (anonAt 8192 12288)
        ((ofAreas [anonAt 4096 8192, anonAt 12288 16384]).simpleVmaMerge (some 0)
          (anonAt 8192 12288)) ↔
      special (anonAt 8192 12288) = true ∨ some 0 = none ∨
        (∃ p ∈ some 0, (ofAreas [anonAt 4096 8192, anonAt 12288 16384]).MergesAfter
          (anonAt 8192 12288) p) ∨
        ∀ k ∈ (ofAreas [anonAt 4096 8192, anonAt 12288 16384]).order,
          (ofAreas [anonAt 4096 8192, anonAt 12288 16384]).start k = (anonAt 8192 12288).vmEnd →
          ¬ (ofAreas [anonAt 4096 8192, anonAt 12288 16384]).MergesBefore (anonAt 8192 12288) k :=
  simpleVmaMerge_exact_iff _ (some 0) (anonAt 8192 12288) ⟨⟨by decide, by decide⟩, by decide⟩
    (by decide) (by unfold Free; decide) ⟨by decide, by decide, by decide⟩

/-- Memory is mapped below an area it continues and above one that it does not touch: the area that
is to be adjusted has not been set. -/
theorem merge_below_next_undefined :
    ¬ MergesExactly (ofAreas [anonAt 4096 8192, anonAt 20480 24576]) (anonAt 16384 20480)
      ((ofAreas [anonAt 4096 8192, anonAt 20480 24576]).simpleVmaMerge (some 0)
        (anonAt 16384 20480)) := by
  have hnone : (ofAreas [anonAt 4096 8192, anonAt 20480 24576]).simpleVmaMerge (some 0)
      (anonAt 16384 20480) = none := rfl
  rintro ⟨t, l', hr, -⟩
  rw [hnone] at hr
  exact absurd hr (by simp)

end MyOS2.Mmap.VmaList
