import MyOS2.Mm.PageAlloc.Proofs.Conservation

/-!
# What the pages say about the free lists

The order, the place and the count of every free block are recorded as they
should be. The flag `PageBuddy` is not: the field it lives in is never set up,
so no page has it, on a list or not.
-/

namespace MyOS2.Buddy

namespace AllocRun

/-- What the free lists and the pages record, the flag apart. -/
structure Recorded (r : AllocRun) : Prop where
  order : ∀ zone order, ∀ pfn ∈ r.freeList zone order, (r.st.pages pfn).private_ = order
  once : ∀ zone order, (r.freeList zone order).Nodup
  one : ∀ zone order zone' order' pfn, pfn ∈ r.freeList zone order →
    pfn ∈ r.freeList zone' order' → zone = zone' ∧ order = order'
  aligned : ∀ zone order, ∀ pfn ∈ r.freeList zone order, 2 ^ order ∣ pfn
  inside : ∀ zone order, ∀ pfn ∈ r.freeList zone order,
    ∃ start spanned, (zone, start, spanned) ∈ nodeZones r.st.maxLowPfn ∧
      start ≤ pfn ∧ pfn + 2 ^ order ≤ start + spanned
  count : ∀ zone order, r.st.lists.count (.anchor zone order) = (r.freeList zone order).length

/-- The bookkeeping as it is meant: a page is on a list of order `order` exactly when it has the
flag and holds this order. -/
structure Bookkeeping (r : AllocRun) : Prop extends Recorded r where
  flagged : ∀ pfn order, (∃ zone, pfn ∈ r.freeList zone order) ↔
    pageBuddy (r.st.pages pfn) = true ∧ (r.st.pages pfn).private_ = order

variable {r : AllocRun} {free : ZoneType × Nat → List Nat}

theorem InvWith.recorded (h : r.InvWith free) : r.Recorded := by
  have hlist := freeList_eq h.holds
  refine ⟨?_, ?_, ?_, ?_, ?_, ?_⟩
  · intro zone order pfn hp
    rw [hlist] at hp
    exact h.holds.order _ pfn hp
  · exact h.conserved.once
  · intro zone order zone' order' pfn hp hp'
    rw [hlist] at hp hp'
    by_contra hne
    have hij : (zone, order) ≠ (zone', order') := by
      intro he
      cases he
      exact hne ⟨rfl, rfl⟩
    refine h.holds.headed.rings.apart _ _ hij (a := .page pfn) ?_ ?_
    · exact List.mem_cons_of_mem _ (List.mem_map_of_mem hp)
    · exact List.mem_cons_of_mem _ (List.mem_map_of_mem hp')
  · intro zone order pfn hp
    rw [hlist] at hp
    exact (h.holds.placed _ pfn hp).aligned
  · intro zone order pfn hp
    rw [hlist] at hp
    exact (h.holds.placed _ pfn hp).inside
  · intro zone order
    have hcount := h.holds.headed.count (zone, order)
    rw [nodes, List.length_map, area] at hcount
    rw [hlist]
    exact hcount

/-- In every state of every run the lists are recorded but for the flag, and the bookkeeping is as
meant exactly when there is no free block. -/
theorem bookkeeping_iff_nothing_free (h : Reachable AllocRun.step AllocRun.Ok AllocRun.Start r) :
    r.Recorded ∧ (r.Bookkeeping ↔ ∀ zone order, r.freeList zone order = []) := by
  obtain ⟨free, hinv⟩ := reachable_inv h
  have hflag : ∀ pfn, pageBuddy (r.st.pages pfn) = false := fun pfn =>
    pageBuddy_eq_false (hinv.holds.typed pfn)
  refine ⟨hinv.recorded, ?_⟩
  constructor
  · intro hbook zone order
    rw [List.eq_nil_iff_forall_not_mem]
    intro pfn hp
    have hset := ((hbook.flagged pfn order).1 ⟨zone, hp⟩).1
    rw [hflag] at hset
    cases hset
  · intro hempty
    refine ⟨hinv.recorded, ?_⟩
    intro pfn order
    simp [hempty, hflag]

/-- After a block of two pages was split, the lists are recorded and the flag is missing on one page;
after both were given out, nothing is amiss. -/
theorem bookkeeping_iff_nothing_free_split : ∃ r r',
    Reachable AllocRun.step AllocRun.Ok AllocRun.Start r ∧ r.freeList .dma 0 = [9] ∧
    r.Recorded ∧ ¬ r.Bookkeeping ∧ Reachable AllocRun.step AllocRun.Ok AllocRun.Start r' ∧
    r'.held = [(9, 0), (8, 0)] ∧ (r'.Bookkeeping ↔ ∀ zone order, r'.freeList zone order = []) := by
  have hrun : ∃ r, Reachable AllocRun.step AllocRun.Ok AllocRun.Start r ∧
      decide (r.freeList .dma 0 = [9]) = true :=
    Reachable.exists_of_run empty64_start [.release 8 1, .alloc 0 0] (by decide +kernel)
  have hrun' : ∃ r, Reachable AllocRun.step AllocRun.Ok AllocRun.Start r ∧
      decide (r.held = [(9, 0), (8, 0)]) = true :=
    Reachable.exists_of_run empty64_start [.release 8 1, .alloc 0 0, .alloc 0 0] (by decide +kernel)
  obtain ⟨r, hr, hfree⟩ := hrun
  obtain ⟨r', hr', hheld⟩ := hrun'
  have hfree := of_decide_eq_true hfree
  obtain ⟨hrecorded, hiff⟩ := bookkeeping_iff_nothing_free hr
  refine ⟨r, r', hr, hfree, hrecorded, ?_, hr', of_decide_eq_true hheld,
    (bookkeeping_iff_nothing_free hr').2⟩
  intro hbook
  exact absurd (hiff.1 hbook .dma 0) (by simp [hfree])

/-- The first page released is on its list, and does not have the flag. -/
theorem released_page_not_flagged :
    empty64.Ok (.release 8 0) ∧
    ∃ r, empty64.step (.release 8 0) = some (none, r) ∧ ¬ r.Bookkeeping := by
  refine ⟨⟨by decide, by decide, by decide, by simp [empty64]⟩, ?_⟩
  have hrun : (empty64.step (.release 8 0)).map
      (fun p => (p.1, p.2.freeList .dma 0, pageBuddy (p.2.st.pages 8))) =
        some (none, [8], false) := by decide +kernel
  obtain ⟨p, hp, he⟩ := Option.map_eq_some_iff.1 hrun
  simp only [Prod.mk.injEq] at he
  refine ⟨p.2, by rw [hp, ← he.1], ?_⟩
  intro hbook
  have hset := ((hbook.flagged 8 0).1 ⟨.dma, by simp [he.2.1]⟩).1
  rw [he.2.2] at hset
  cases hset

end AllocRun

end MyOS2.Buddy
