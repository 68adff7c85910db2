import MyOS2.Mm.PageAlloc.Proofs.Conservation

/-!
# Buddies that are both free

Nothing is merged, since no page ever looks like the head of a free block. As
long as every block is freed while its buddy is in use there is nothing to merge
either: a split fills lists that were empty, so no two free blocks are buddies,
and the blocks are determined by which pages are free.
-/

namespace MyOS2.Buddy.AllocRun

open Function

variable {r r' : AllocRun} {free free' : ZoneType × Nat → List Nat} {zone : ZoneType}

/-- No two free blocks of a zone are buddies. -/
def Coalesced (r : AllocRun) : Prop :=
  ∀ zone order, order < maxOrder → ∀ p ∈ r.freeList zone order, ∀ q ∈ r.freeList zone order,
    p ^^^ q ≠ 2 ^ order

/-- The buddy of a block that is released or freed is not free as a whole. -/
def Alone (r : AllocRun) : Op → Prop
  | .release pfn order | .free pfn order =>
    ∀ zone ∈ myosPageZone r.st.maxLowPfn pfn, order < maxOrder →
      findBuddyPfn pfn order ∉ r.freeList zone order
  | .alloc _ _ => True

instance (r : AllocRun) : (op : Op) → Decidable (r.Alone op)
  | .release pfn order | .free pfn order =>
    inferInstanceAs (Decidable (∀ zone ∈ myosPageZone r.st.maxLowPfn pfn, order < maxOrder →
      findBuddyPfn pfn order ∉ r.freeList zone order))
  | .alloc _ _ => .isTrue trivial

def NoBuddies (free : ZoneType × Nat → List Nat) (i : ZoneType × Nat) : Prop :=
  i.2 < maxOrder → ∀ p ∈ free i, ∀ q ∈ free i, p ^^^ q ≠ 2 ^ i.2

theorem coalesced_iff (h : r.InvWith free) : r.Coalesced ↔ ∀ i, NoBuddies free i := by
  simp only [Coalesced, NoBuddies, freeList_eq h.holds, Prod.forall]

/-! ## One call -/

theorem NoBuddies.cons {i : ZoneType × Nat} {pfn : Nat} (h : NoBuddies free i)
    (halone : i.2 < maxOrder → findBuddyPfn pfn i.2 ∉ free i) :
    NoBuddies (update free i (pfn :: free i)) i := by
  intro hi p hp q hq he
  rw [update_self, List.mem_cons] at hp hq
  -- the buddy of a block is found from either side
  have hbuddy : ∀ {a b}, a ^^^ b = 2 ^ i.2 → b = findBuddyPfn a i.2 := by
    intro a b hab
    rw [findBuddyPfn, ← hab, ← Nat.xor_assoc, Nat.xor_self, Nat.zero_xor]
  rcases hp with rfl | hp <;> rcases hq with rfl | hq
  · rw [Nat.xor_self] at he
    exact absurd he (Nat.two_pow_pos i.2).ne
  · exact halone hi (hbuddy he ▸ hq)
  · rw [Nat.xor_comm] at he
    exact halone hi (hbuddy he ▸ hp)
  · exact h hi p hp q hq he

theorem noBuddies_queue {i : ZoneType × Nat} {pfn : Nat} (h : ∀ j, NoBuddies free j)
    (halone : i.2 < maxOrder → findBuddyPfn pfn i.2 ∉ free i) (j : ZoneType × Nat) :
    NoBuddies (update free i (pfn :: free i)) j := by
  by_cases hji : j = i
  · subst hji
    exact (h j).cons halone
  · have hj := h j
    unfold NoBuddies at hj ⊢
    rwa [update_of_ne hji]

/-- A split puts one block on each of some lists that were empty. -/
theorem noBuddies_take {order pfn : Nat} (h : ∀ j, NoBuddies free j)
    (htaken : TakenFrom free zone order pfn free') (j : ZoneType × Nat) : NoBuddies free' j := by
  obtain ⟨current, rest, -, hempty, hcons, rfl⟩ := htaken
  intro hj p hp q hq
  obtain ⟨z, c⟩ := j
  by_cases hsplit : z = zone ∧ order ≤ c ∧ c < current
  · obtain ⟨rfl, h1, h2⟩ := hsplit
    have hone : halved z pfn order current (update free (z, current) rest) (z, c) =
        [pfn + 2 ^ c] := by
      have hne : (z, c) ≠ (z, current) := by
        intro he
        cases he
        omega
      simp [halved, h1, h2, update_of_ne hne, hempty c h1 h2]
    rw [hone, List.mem_singleton] at hp hq
    rw [hp, hq, Nat.xor_self]
    exact (Nat.two_pow_pos c).ne
  · have hsub : ∀ x ∈ halved zone pfn order current (update free (zone, current) rest)
        (z, c), x ∈ free (z, c) := by
      intro x hx
      rw [halved, if_neg hsplit] at hx
      by_cases he : (z, c) = (zone, current)
      · rw [he, update_self] at hx
        rw [he, hcons]
        exact List.mem_cons_of_mem _ hx
      · rwa [update_of_ne he] at hx
    exact h (z, c) hj p (hsub p hp) q (hsub q hq)

theorem InvWith.noBuddies (h : r.InvWith free) {op : Op} {page : Option Nat}
    (hno : ∀ j, NoBuddies free j) (halone : r.Alone op) (hmoves : r.Moves free page r' free' op) :
    ∀ j, NoBuddies free' j := by
  cases op with
  | release pfn order | free pfn order =>
    obtain ⟨zone, hzone, rfl⟩ := hmoves
    apply noBuddies_queue hno
    rw [← freeList_eq h.holds]
    exact halone zone hzone
  | alloc gfp order =>
    rcases hmoves with ⟨-, -, -, rfl⟩ | ⟨zone, pfn, s₁, -, -, htaken, -⟩
    · exact hno
    · exact noBuddies_take hno htaken

/-! ## Runs -/

/-- The calls of runs in which no buddies come to be free together. -/
def OkAlone (r : AllocRun) (op : Op) : Prop := r.Ok op ∧ r.Alone op

instance (r : AllocRun) (op : Op) : Decidable (r.OkAlone op) :=
  inferInstanceAs (Decidable (r.Ok op ∧ r.Alone op))

theorem reachable_noBuddies (h : Reachable AllocRun.step OkAlone Start r) :
    ∃ free, r.InvWith free ∧ ∀ j, NoBuddies free j := by
  apply h.invariant
  · rintro r ⟨maxLowPfn, flags, rfl⟩
    refine ⟨_, InvWith.start maxLowPfn flags, ?_⟩
    intro j hj p hp
    cases hp
  · rintro r op page r' ⟨free, hinv, hno⟩ ⟨hok, halone⟩ hstep
    obtain ⟨free', hinv', hmoves⟩ := hinv.moves hok hstep
    exact ⟨free', hinv', hinv.noBuddies hno halone hmoves⟩

/-- The frame lies in the span of the zone. -/
def InZone (maxLowPfn : Nat) (zone : ZoneType) (f : Nat) : Prop :=
  ∃ start spanned, (zone, start, spanned) ∈ nodeZones maxLowPfn ∧ start ≤ f ∧ f < start + spanned

/-- The blocks of a zone that are free cover its pages that were released and are not handed out. -/
theorem InvWith.covered_iff (h : r.InvWith free) {f : Nat} :
    Dyadic.Covered (fun p k => p ∈ r.freeList zone k) f ↔
      ((∃ b ∈ r.managed, InBlock f b) ∧ ¬ ∃ b ∈ r.held, InBlock f b) ∧
        InZone r.st.maxLowPfn zone f := by
  have hinside : ∀ {z k p}, p ∈ r.freeList z k → InBlock f (p, k) →
      InZone r.st.maxLowPfn z f := by
    intro z k p hp hf
    rw [freeList_eq h.holds] at hp
    obtain ⟨start, spanned, hz, hlo, hhi⟩ := (h.holds.placed _ p hp).inside
    exact ⟨start, spanned, hz, hlo.trans hf.1, hf.2.trans_le hhi⟩
  rw [h.conserved.accounted f]
  constructor
  · rintro ⟨p, k, hp, hf⟩
    refine ⟨⟨.inl ⟨zone, k, p, hp, hf⟩, ?_⟩, hinside hp hf⟩
    rintro ⟨b, hb, hfb⟩
    exact h.conserved.heldFree b hb zone k p hp f hfb hf
  · rintro ⟨⟨hfree | hheld, hnot⟩, start, spanned, hz, hin⟩
    · obtain ⟨z, k, p, hp, hf⟩ := hfree
      obtain ⟨start', spanned', hz', hin'⟩ := hinside hp hf
      obtain rfl := zone_unique hz hin hz' hin'
      exact ⟨p, k, hp, hf⟩
    · exact absurd hheld hnot

theorem InvWith.dyadic (h : r.InvWith free) (hno : ∀ j, NoBuddies free j) (zone : ZoneType) :
    Dyadic.Coalesced maxOrder fun p k => p ∈ r.freeList zone k := by
  have hplaced : ∀ {p k}, p ∈ r.freeList zone k → Placed r.st.maxLowPfn zone p k := by
    intro p k hp
    rw [freeList_eq h.holds] at hp
    exact h.holds.placed _ p hp
  refine ⟨fun hp => (hplaced hp).order_le, fun hp => (hplaced hp).aligned, ?_, ?_⟩
  · intro p k q j f hp hq hpf hqf
    by_contra hne
    refine h.conserved.free zone k zone j p hp q hq ?_ f hpf hqf
    simp only [ne_eq, Prod.mk.injEq, true_and]
    exact fun he => hne he.symm
  · intro p q k hk hp hq
    exact (coalesced_iff h).2 hno zone k hk p hp q hq

/-- As long as a block is released or freed only while its buddy is not free, no two free blocks are
buddies; and the free blocks are the same in any two such states that manage the same pages and have
handed out the same blocks. -/
theorem coalesced_of_alone (h : Reachable AllocRun.step OkAlone Start r) :
    r.Coalesced ∧ ∀ r', Reachable AllocRun.step OkAlone Start r' →
      r'.st.maxLowPfn = r.st.maxLowPfn → r'.managed.Perm r.managed → r'.held.Perm r.held →
      ∀ zone order pfn, pfn ∈ r'.freeList zone order ↔ pfn ∈ r.freeList zone order := by
  obtain ⟨free, hinv, hno⟩ := reachable_noBuddies h
  refine ⟨(coalesced_iff hinv).2 hno, ?_⟩
  intro r' h' hmax hmanaged hheld zone order pfn
  obtain ⟨free', hinv', hno'⟩ := reachable_noBuddies h'
  have hcov : ∀ f, Dyadic.Covered (fun p k => p ∈ r'.freeList zone k) f ↔
      Dyadic.Covered (fun p k => p ∈ r.freeList zone k) f := by
    intro f
    rw [hinv'.covered_iff, hinv.covered_iff, hmax]
    simp only [hmanaged.mem_iff, hheld.mem_iff]
  have hd := hinv.dyadic hno zone
  have hd' := hinv'.dyadic hno' zone
  exact ⟨hd'.mem_of_covered hd hcov, hd.mem_of_covered hd' fun f => (hcov f).symm⟩

/-- A block of two pages is split, and its first page handed out. -/
theorem coalesced_of_alone_split :
    ∃ r, (Reachable AllocRun.step OkAlone Start r ∧ r.freeList .dma 0 = [9]) ∧
      r.Coalesced ∧ ∀ r', Reachable AllocRun.step OkAlone Start r' →
        r'.st.maxLowPfn = r.st.maxLowPfn → r'.managed.Perm r.managed → r'.held.Perm r.held →
        ∀ zone order pfn, pfn ∈ r'.freeList zone order ↔ pfn ∈ r.freeList zone order := by
  have hrun : ∃ r, Reachable AllocRun.step OkAlone Start r ∧
      decide (r.freeList .dma 0 = [9]) = true :=
    Reachable.exists_of_run empty64_start [.release 8 1, .alloc 0 0] (by decide +kernel)
  obtain ⟨r, hr, hfree⟩ := hrun
  exact ⟨r, ⟨hr, of_decide_eq_true hfree⟩, coalesced_of_alone hr⟩

/-- The page handed out is freed again: it and its buddy are free, and the block they came from,
free before, is not. -/
theorem freed_page_not_merged :
    ∃ r₁ r₂, (Reachable AllocRun.step Ok Start r₁ ∧ r₁.freeList .dma 1 = [8]) ∧
      (Reachable AllocRun.step Ok Start r₂ ∧ r₂.freeList .dma 1 = []) ∧
      (r₂.held = r₁.held ∧ r₂.managed = r₁.managed) ∧ ¬ r₂.Coalesced := by
  have hbefore : ∃ r, Reachable AllocRun.step Ok Start r ∧
      decide ((r.held, r.managed, r.freeList .dma 1) = ([], [(8, 1)], [8])) = true :=
    Reachable.exists_of_run empty64_start [.release 8 1] (by decide +kernel)
  have hafter : ∃ r, Reachable AllocRun.step Ok Start r ∧
      decide ((r.held, r.managed, r.freeList .dma 1, r.freeList .dma 0) =
        ([], [(8, 1)], [], [8, 9])) = true :=
    Reachable.exists_of_run empty64_start [.release 8 1, .alloc 0 0, .free 8 0] (by decide +kernel)
  obtain ⟨r₁, hr₁, h₁⟩ := hbefore
  obtain ⟨r₂, hr₂, h₂⟩ := hafter
  simp only [decide_eq_true_eq, Prod.mk.injEq] at h₁ h₂
  refine ⟨r₁, r₂, ⟨hr₁, h₁.2.2⟩, ⟨hr₂, h₂.2.2.1⟩, ⟨h₂.1.trans h₁.1.symm, h₂.2.1.trans h₁.2.1.symm⟩, ?_⟩
  intro hcoalesced
  refine hcoalesced .dma 0 (by decide) 8 ?_ 9 ?_ (by decide)
  · simp [h₂.2.2.2]
  · simp [h₂.2.2.2]

end MyOS2.Buddy.AllocRun
