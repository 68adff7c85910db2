import MyOS2.Mm.PageAlloc.Proofs.Conservation

/-!
# What an allocation returns

Which block a request gets can be read off the free lists: the head of the first
list that is not empty, in the first zone that has one. From this follow which
requests return at all, which bytes of the block are cleared, and what the pages
of the block look like, which is what they looked like before.
-/

namespace MyOS2.Buddy.AllocRun

variable {r r' : AllocRun} {free free' : ZoneType × Nat → List Nat} {zone : ZoneType}
  {gfp order pfn : Nat}

def allowedZones (gfp : Nat) : List ZoneType :=
  if gfp &&& gfpDma ≠ 0 then [.dma]
  else if gfp &&& gfpDma32 ≠ 0 then [.dma32, .dma]
  else [.normal, .dma32, .dma]

theorem drop_preferedZoneList (gfp : Nat) :
    preferedZoneList.drop (startPreferedIdx gfp) = allowedZones gfp := by
  unfold startPreferedIdx allowedZones
  split_ifs <;> rfl

def HasBlock (r : AllocRun) (zone : ZoneType) (order : Nat) : Prop :=
  ∃ current, order ≤ current ∧ current ≤ maxOrder ∧ r.freeList zone current ≠ []

def firstBlock (r : AllocRun) (zone : ZoneType) (order : Nat) : Option Nat :=
  (List.range' order (nrPageOrders - order)).findSome? fun current =>
    (r.freeList zone current).head?

def nextBlock (r : AllocRun) (gfp order : Nat) : Option Nat :=
  (allowedZones gfp).findSome? fun zone => r.firstBlock zone order

theorem hasBlock_iff (h : Holds r.st free) : r.HasBlock zone order ↔ Serves free zone order := by
  simp only [HasBlock, Serves, freeList_eq h]

theorem firstBlock_eq_none_iff : r.firstBlock zone order = none ↔ ¬ r.HasBlock zone order := by
  simp only [firstBlock, HasBlock, List.findSome?_eq_none_iff, List.mem_range'_1,
    List.head?_eq_none_iff, not_exists, not_and, not_not, nrPageOrders]
  constructor
  · intro h c h1 h2
    exact h c ⟨h1, by omega⟩
  · rintro h c ⟨h1, h2⟩
    exact h c h1 (by omega)

theorem nextBlock_eq_none (h : ∀ zone ∈ allowedZones gfp, ¬ r.HasBlock zone order) :
    r.nextBlock gfp order = none := by
  rw [nextBlock, List.findSome?_eq_none_iff]
  exact fun zone hzone => firstBlock_eq_none_iff.2 (h zone hzone)

theorem firstBlock_of_takenFrom (h : Holds r.st free) (ht : TakenFrom free zone order pfn free') :
    r.firstBlock zone order = some pfn := by
  obtain ⟨current, rest, ⟨hle, hmax⟩, hempty, hcons, -⟩ := ht
  rw [firstBlock, List.findSome?_eq_some_iff]
  refine ⟨List.range' order (current - order), current,
    List.range' (current + 1) (maxOrder - current), ?_, ?_, ?_⟩
  · have hlen : nrPageOrders - order = (current - order) + ((maxOrder - current) + 1) := by
      unfold nrPageOrders
      omega
    rw [hlen, ← List.range'_append_1, List.range'_succ, Nat.add_sub_cancel' hle]
  · rw [freeList_eq h, hcons, List.head?_cons]
  · intro c hc
    obtain ⟨h1, h2⟩ := List.mem_range'_1.1 hc
    rw [freeList_eq h, hempty c h1 (by omega), List.head?_nil]

theorem nextBlock_of_firstServing (h : Holds r.st free)
    (hfirst : FirstServing free (allowedZones gfp) order zone)
    (ht : TakenFrom free zone order pfn free') : r.nextBlock gfp order = some pfn := by
  obtain ⟨before, after, hzones, hbefore⟩ := hfirst
  rw [nextBlock, List.findSome?_eq_some_iff]
  refine ⟨before, zone, after, hzones, firstBlock_of_takenFrom h ht, ?_⟩
  intro z hz
  rw [firstBlock_eq_none_iff, hasBlock_iff h]
  exact hbefore z hz

/-- The ways that an allocation comes back. -/
inductive Outcome (r : AllocRun) (gfp order : Nat) : Prop
  | refused (hbig : maxOrder < order) (hnext : r.nextBlock gfp order = none)
      (hstep : r.step (.alloc gfp order) = some (none, r))
  | undefined (hsmall : ¬ maxOrder < order)
      (hnone : ∀ zone ∈ allowedZones gfp, ¬ r.HasBlock zone order)
      (hstep : r.step (.alloc gfp order) = none)
  | given (pfn : Nat) (zone : ZoneType) (s₁ : State) (r' : AllocRun)
      (hzone : zone ∈ allowedZones gfp) (hblock : r.HasBlock zone order)
      (hnext : r.nextBlock gfp order = some pfn)
      (hstep : r.step (.alloc gfp order) = some (some pfn, r'))
      (hplaced : Placed r.st.maxLowPfn zone pfn order)
      (hgiven : Given r.st s₁ pfn order) (hst : r'.st = prepNewPage s₁ pfn order gfp)

theorem served_alloc_iff :
    r.Served (.alloc gfp order) ↔
      maxOrder < order ∨ ∃ zone ∈ allowedZones gfp, r.HasBlock zone order := by
  rw [Served, drop_preferedZoneList]
  exact Iff.rfl

theorem InvWith.outcome (h : r.InvWith free) (gfp order : Nat) : r.Outcome gfp order := by
  by_cases hserved : r.Served (.alloc gfp order)
  · obtain ⟨page, r', free', hstep, -, hmoves⟩ := h.alloc hserved
    rcases hmoves with ⟨hbig, rfl, rfl, -⟩ | ⟨zone, pfn, s₁, rfl, hfirst, htaken, hplaced, hgiven, hst⟩
    · refine .refused hbig (nextBlock_eq_none ?_) hstep
      rintro zone - ⟨c, h1, h2, -⟩
      omega
    · rw [drop_preferedZoneList] at hfirst
      have hblock : r.HasBlock zone order := by
        obtain ⟨current, rest, ⟨h1, h2⟩, -, hcons, -⟩ := htaken
        exact ⟨current, h1, h2, by rw [freeList_eq h.holds, hcons]; exact List.cons_ne_nil _ _⟩
      exact .given pfn zone s₁ r' hfirst.mem hblock (nextBlock_of_firstServing h.holds hfirst htaken)
        hstep hplaced hgiven hst
  · have hnone := h.step_eq_none hserved
    rw [served_alloc_iff, not_or] at hserved
    exact .undefined hserved.1 (fun zone hz hb => hserved.2 ⟨zone, hz, hb⟩) hnone

theorem step_alloc_map (r : AllocRun) (gfp order : Nat) :
    (r.step (.alloc gfp order)).map (fun p => (p.1, p.2.st)) = myosAllocPages r.st gfp order := by
  rw [step]
  cases myosAllocPages r.st gfp order with
  | none => rfl
  | some p =>
    obtain ⟨page, st⟩ := p
    cases page <;> rfl

theorem InvWith.forall_returned_iff (h : r.InvWith free) {P : Nat → State → Prop} {Q : Nat → Prop}
    (hPQ : ∀ pfn s₁, order ≤ maxOrder → Given r.st s₁ pfn order →
      (P pfn (prepNewPage s₁ pfn order gfp) ↔ Q pfn)) :
    (∀ pfn s', myosAllocPages r.st gfp order = some (some pfn, s') → P pfn s') ↔
      ∀ pfn ∈ r.nextBlock gfp order, Q pfn := by
  rw [← step_alloc_map]
  cases h.outcome gfp order with
  | refused hbig hnext hstep => simp [hstep, hnext]
  | undefined hsmall hnone hstep => simp [hstep, nextBlock_eq_none hnone]
  | given pfn zone s₁ r' hzone hblock hnext hstep hplaced hgiven hst =>
    have hpfn := hPQ pfn s₁ hplaced.order_le hgiven
    rw [← hst] at hpfn
    rw [hstep, hnext]
    constructor
    · rintro hall _ ⟨⟩
      exact hpfn.1 (hall pfn r'.st rfl)
    · rintro hall _ _ ⟨⟩
      exact hpfn.2 (hall pfn rfl)

/-! ## Which requests return -/

/-- The request returns; it is refused exactly when its order is too large or no zone has a block
for it; and its block is aligned and lies in such a zone. -/
def Complete (r : AllocRun) (gfp order : Nat) : Prop :=
  ∃ page r', r.step (.alloc gfp order) = some (page, r') ∧
    (page = none ↔ maxOrder < order ∨ ∀ zone ∈ allowedZones gfp, ¬ r.HasBlock zone order) ∧
    ∀ pfn ∈ page, 2 ^ order ∣ pfn ∧ ∃ zone ∈ allowedZones gfp, ∃ start spanned,
      (zone, start, spanned) ∈ nodeZones r.st.maxLowPfn ∧
        start ≤ pfn ∧ pfn + 2 ^ order ≤ start + spanned

/-- An allocation answers as it should exactly if the order is too large or a block of that order or
more is free in a zone that is allowed. -/
theorem complete_iff_hasBlock (h : Reachable AllocRun.step AllocRun.Ok AllocRun.Start r) (gfp order : Nat) :
    r.Complete gfp order ↔ maxOrder < order ∨ ∃ zone ∈ allowedZones gfp, r.HasBlock zone order := by
  obtain ⟨free, hinv⟩ := reachable_inv h
  cases hinv.outcome gfp order with
  | refused hbig hnext hstep =>
    refine iff_of_true ⟨none, r, hstep, by simp [hbig], by simp⟩ (.inl hbig)
  | undefined hsmall hnone hstep =>
    refine iff_of_false ?_ ?_
    · rintro ⟨page, r', hstep', -⟩
      rw [hstep] at hstep'
      cases hstep'
    · rintro (hbig | ⟨zone, hz, hb⟩)
      · exact hsmall hbig
      · exact hnone zone hz hb
  | given pfn zone s₁ r' hzone hblock hnext hstep hplaced hgiven hst =>
    refine iff_of_true ⟨some pfn, r', hstep, ?_, ?_⟩ (.inr ⟨zone, hzone, hblock⟩)
    · have hle := hplaced.order_le
      simp only [reduceCtorEq, false_iff, not_or, not_lt, not_forall, not_not]
      exact ⟨hle, zone, hzone, hblock⟩
    · rintro _ ⟨⟩
      exact ⟨hplaced.aligned, zone, hzone, hplaced.inside⟩

/-- One page was released. -/
theorem complete_iff_hasBlock_released :
    ∃ r, (Reachable AllocRun.step Ok Start r ∧ r.freeList .dma 0 = [8]) ∧
      (r.Complete 0 0 ↔ maxOrder < 0 ∨ ∃ zone ∈ allowedZones 0, r.HasBlock zone 0) := by
  have hrun : ∃ r, Reachable AllocRun.step Ok Start r ∧ decide (r.freeList .dma 0 = [8]) = true :=
    Reachable.exists_of_run empty64_start [.release 8 0] (by decide +kernel)
  obtain ⟨r, hr, hfree⟩ := hrun
  exact ⟨r, ⟨hr, of_decide_eq_true hfree⟩, complete_iff_hasBlock hr 0 0⟩

/-- With no page to give out the request is not refused: `prefered_zone_list[3]` is read. -/
theorem request_beyond_table :
    Reachable AllocRun.step Ok Start empty64 ∧ ¬ empty64.Complete 0 0 := by
  refine ⟨.start empty64_start, ?_⟩
  rintro ⟨page, r', hstep, -⟩
  have hnone : (empty64.step (.alloc 0 0)).isNone = true := by decide +kernel
  rw [hstep] at hnone
  cases hnone

/-! ## Cleared pages -/

/-- The bytes of the block are zero, and no other byte has changed. -/
def Zeroed (mem mem' : Memory) (pfn order : Nat) : Prop :=
  ∀ a, if pfn * pageSize ≤ a ∧ a < (pfn + 2 ^ order) * pageSize then mem' a = 0
    else mem' a = mem a

theorem clearPages_succ (addr n : Nat) (mem : Memory) (a : Nat) :
    clearPages addr (n + 1) mem a = if addr ≤ a ∧ a < addr + n + pageSize then 0 else mem a := by
  induction n with
  | zero => rfl
  | succ n ih =>
    rw [clearPages, clearPage, ih]
    have hpos : 0 < pageSize := by decide
    split_ifs <;> first | rfl | omega

theorem zeroed_postAllocHook_iff {mem : Memory} (hzero : gfp &&& gfpZero ≠ 0) :
    Zeroed mem (postAllocHook mem pfn order gfp) pfn order ↔
      ∀ a, (pfn + 1) * pageSize + (2 ^ order - 1) ≤ a → a < (pfn + 2 ^ order) * pageSize →
        mem a = 0 := by
  obtain ⟨n, hn⟩ : ∃ n, 2 ^ order = n + 1 := ⟨2 ^ order - 1, by have := Nat.two_pow_pos order; omega⟩
  rw [postAllocHook, if_pos hzero, hn, Zeroed, hn]
  simp only [clearPages_succ, Nat.add_mul, Nat.one_mul, Nat.add_sub_cancel]
  -- the bytes that are cleared end `n` bytes behind the first page, inside the block
  have hsize : n ≤ n * pageSize := Nat.le_mul_of_pos_right n (by decide)
  generalize pfn * pageSize = base
  generalize n * pageSize = size at hsize
  refine forall_congr' fun a => ?_
  by_cases hlow : base ≤ a ∧ a < base + n + pageSize
  · have hin : base ≤ a ∧ a < base + (size + pageSize) := by omega
    rw [if_pos hin, if_pos hlow]
    exact iff_of_true rfl fun h => by omega
  · split_ifs with hin
    · exact ⟨fun h _ _ => h, fun h => h (by omega) (by omega)⟩
    · exact iff_of_true rfl fun h1 h2 => absurd (show base ≤ a ∧ _ from ⟨by omega, h2⟩) hin

theorem myosAllocPagesMem_eq_some_iff {s s' : State} {mem mem' : Memory} :
    myosAllocPagesMem s mem gfp order = some (some pfn, s', mem') ↔
      myosAllocPages s gfp order = some (some pfn, s') ∧
        postAllocHook mem pfn order gfp = mem' := by
  rw [myosAllocPagesMem]
  cases myosAllocPages s gfp order with
  | none => simp
  | some p =>
    obtain ⟨page, st⟩ := p
    cases page with
    | none => simp
    | some q =>
      simp only [Option.bind_eq_bind, Option.bind_some, Option.some.injEq, Prod.mk.injEq]
      constructor
      · rintro ⟨rfl, rfl, rfl⟩
        exact ⟨⟨rfl, rfl⟩, rfl⟩
      · rintro ⟨⟨rfl, rfl⟩, rfl⟩
        exact ⟨rfl, rfl, rfl⟩

/-- A request for cleared pages gets a block of zeroes, and changes no other byte, exactly when the
next block holds zeroes from where the loop stops on: `2 ^ order - 1` bytes behind its first page.
-/
theorem zeroed_iff_zero_behind (h : Reachable AllocRun.step AllocRun.Ok AllocRun.Start r)
    (mem : Memory) {gfp : Nat} (order : Nat) (hzero : gfp &&& gfpZero ≠ 0) :
    (∀ pfn s' mem', myosAllocPagesMem r.st mem gfp order = some (some pfn, s', mem') →
        Zeroed mem mem' pfn order) ↔
      ∀ pfn ∈ r.nextBlock gfp order, ∀ a, (pfn + 1) * pageSize + (2 ^ order - 1) ≤ a →
        a < (pfn + 2 ^ order) * pageSize → mem a = 0 := by
  obtain ⟨free, hinv⟩ := reachable_inv h
  rw [← hinv.forall_returned_iff (P := fun pfn _ => Zeroed mem (postAllocHook mem pfn order gfp) pfn order)
    fun pfn s₁ _ _ => zeroed_postAllocHook_iff hzero]
  constructor
  · intro hall pfn s' halloc
    exact hall pfn s' _ (myosAllocPagesMem_eq_some_iff.2 ⟨halloc, rfl⟩)
  · intro hall pfn s' mem' hmem
    obtain ⟨halloc, rfl⟩ := myosAllocPagesMem_eq_some_iff.1 hmem
    exact hall pfn s' halloc

/-- Two pages are asked for where the memory holds ones up to the first byte of the second page. -/
theorem zeroed_iff_zero_behind_tail : ∃ r, Reachable AllocRun.step Ok Start r ∧
    r.nextBlock gfpZero 1 = some 8 ∧
    ∀ pfn s' mem',
      myosAllocPagesMem r.st (fun a => if a ≤ 9 * pageSize then 1 else 0) gfpZero 1 =
        some (some pfn, s', mem') →
      Zeroed (fun a => if a ≤ 9 * pageSize then 1 else 0) mem' pfn 1 := by
  have hrun : ∃ r, Reachable AllocRun.step Ok Start r ∧
      decide (r.nextBlock gfpZero 1 = some 8) = true :=
    Reachable.exists_of_run empty64_start [.release 8 1] (by decide +kernel)
  obtain ⟨r, hr, hnext⟩ := hrun
  have hnext := of_decide_eq_true hnext
  refine ⟨r, hr, hnext, (zeroed_iff_zero_behind hr _ 1 (by decide)).2 ?_⟩
  intro pfn hpfn a ha _
  obtain rfl : 8 = pfn := Option.some.inj (hnext.symm.trans hpfn)
  exact if_neg (by omega)

/-- Two pages are asked for: the loop ends with the first byte of the second, and the byte behind it
keeps what it held. -/
theorem second_page_not_cleared :
    ∃ r pfn s' mem', Reachable AllocRun.step Ok Start r ∧
      myosAllocPagesMem r.st (fun _ => 1) gfpZero 1 = some (some pfn, s', mem') ∧
      ¬ Zeroed (fun _ => 1) mem' pfn 1 := by
  have hrun : ∃ r, Reachable AllocRun.step Ok Start r ∧
      decide ((myosAllocPagesMem r.st (fun _ => 1) gfpZero 1).map
        (fun p => (p.1, p.2.2 (9 * pageSize + 1))) = some (some 8, 1)) = true :=
    Reachable.exists_of_run empty64_start [.release 8 1] (by decide +kernel)
  obtain ⟨r, hr, halloc⟩ := hrun
  obtain ⟨p, halloc, he⟩ := Option.map_eq_some_iff.1 (of_decide_eq_true halloc)
  rw [Prod.mk.injEq] at he
  refine ⟨r, 8, p.2.1, p.2.2, hr, he.1 ▸ halloc, ?_⟩
  intro hzeroed
  have hbyte := hzeroed (9 * pageSize + 1)
  rw [if_pos (by decide), he.2] at hbyte
  exact absurd hbyte (by decide)

/-! ## The pages of a block -/

/-- The pages of a block that was just given out, as single pages or as a compound page. -/
structure Clean (s : State) (pfn order gfp : Nat) : Prop where
  single : gfp &&& gfpComp = 0 → ∀ f, InBlock f (pfn, order) →
    (s.pages f).refcount = 1 ∧ (s.pages f).flags.getLsbD pgHead = false ∧
      pageTail s f = false ∧ (s.pages f).flags &&& pageFlagsCheckAtPrep = 0
  compound : gfp &&& gfpComp ≠ 0 → order ≠ 0 → folioOrder s pfn = order ∧
    ∀ f, InBlock f (pfn, order) → f ≠ pfn → compoundHead s f = pfn

theorem prepTails_flags (head n pfn : Nat) (s : State) (f : Nat) :
    ((prepTails head n pfn s).pages f).flags = (s.pages f).flags := by
  induction n generalizing pfn s with
  | zero => rfl
  | succ n ih =>
    rw [prepTails, ih, prepCompoundTail, State.modifyPage]
    by_cases hf : f = pfn
    · subst hf
      simp
    · simp [Function.update_of_ne hf]

theorem prepTails_next (head n pfn : Nat) (s : State) (f : Nat) :
    (prepTails head n pfn s).lists.next (.page f) =
      if pfn ≤ f ∧ f < pfn + n then .marked (.page head) else s.lists.next (.page f) := by
  induction n generalizing pfn s with
  | zero => rw [if_neg (by omega), prepTails]
  | succ n ih =>
    rw [prepTails, ih]
    by_cases hf : f = pfn
    · subst hf
      simp [prepCompoundTail, State.modifyPage]
    · have hsame : (prepCompoundTail s head pfn).lists.next (.page f) = s.lists.next (.page f) := by
        simp [prepCompoundTail, State.modifyPage, hf]
      congr 1
      exact propext (by omega)

theorem or_and_byte {x o m : BitVec 64} (ho : o &&& m = o) : ((x &&& ~~~m) ||| o) &&& m = o := by
  rw [BitVec.and_or_distrib_right, BitVec.and_assoc, BitVec.and_comm (~~~m), ho]
  simp

/-- A compound page is set up right whatever its pages were before. -/
theorem compound_prepCompoundPage (s : State) (pfn : Nat) (horder : order ≤ maxOrder) :
    folioOrder (prepCompoundPage s pfn order) pfn = order ∧
      ∀ f, InBlock f (pfn, order) → f ≠ pfn → compoundHead (prepCompoundPage s pfn order) f = pfn := by
  refine ⟨?_, ?_⟩
  · have hsmall : BitVec.ofNat 64 order &&& BitVec.ofNat 64 0xff = BitVec.ofNat 64 order := by
      apply BitVec.eq_of_toNat_eq
      have hlt : order < 2 ^ 8 := by unfold maxOrder at horder; omega
      rw [BitVec.toNat_and, BitVec.toNat_ofNat, BitVec.toNat_ofNat, Nat.mod_eq_of_lt (by omega)]
      exact Nat.and_two_pow_sub_one_of_lt_two_pow hlt
    have hhead : ((prepCompoundPage s pfn order).pages pfn).flags =
        (s.pages pfn).flags ||| BitVec.twoPow 64 pgHead := by
      simp [prepCompoundPage, prepCompoundHead, State.modifyPage, prepTails_flags]
    have hsecond : ((prepCompoundPage s pfn order).pages (pfn + 1)).flags =
        ((s.pages (pfn + 1)).flags &&& ~~~BitVec.ofNat 64 0xff) ||| BitVec.ofNat 64 order := by
      simp [prepCompoundPage, prepCompoundHead, State.modifyPage, prepTails_flags]
    rw [folioOrder, hhead, hsecond, if_pos (by simp [pgHead]), or_and_byte hsmall]
    exact Nat.mod_eq_of_lt (by unfold maxOrder at horder; omega)
  · intro f hf hne
    have hnext : (prepCompoundPage s pfn order).lists.next (.page f) = .marked (.page pfn) := by
      simp only [prepCompoundPage, prepCompoundHead, State.modifyPage, prepTails_next]
      exact if_pos ⟨by have := hf.1; omega, by have := hf.2; simp only at this; omega⟩
    rw [compoundHead, hnext]

theorem getLsbD_pgHead {flags : BitVec 64} (h : flags &&& pageFlagsCheckAtPrep = 0) :
    flags.getLsbD pgHead = false := by
  have hbit := congrArg (BitVec.getLsbD · pgHead) h
  have hmask : pageFlagsCheckAtPrep.getLsbD pgHead = true := by decide
  simpa [hmask] using hbit

theorem clean_iff {s s₁ : State} (horder : order ≤ maxOrder) (hgiven : Given s s₁ pfn order) :
    Clean (prepNewPage s₁ pfn order gfp) pfn order gfp ↔
      (gfp &&& gfpComp = 0 → ∀ f, InBlock f (pfn, order) → (s.pages f).refcount = 0 ∧
        (s.pages f).flags &&& pageFlagsCheckAtPrep = 0 ∧ (f ≠ pfn → pageTail s f = false)) := by
  by_cases hcomp : gfp &&& gfpComp = 0
  · have htail : ∀ f, InBlock f (pfn, order) → f ≠ pfn → pageTail s₁ f = pageTail s f := by
      intro f hf hne
      simp only [pageTail, hgiven.tails f hf hne]
    rw [prepNewPage, if_neg (by simp [hcomp])]
    constructor
    · intro h _ f hf
      obtain ⟨hcount, -, htail₁, hflags⟩ := h.single hcomp f hf
      rw [(hgiven.pages f hf).2] at hcount
      rw [(hgiven.pages f hf).1] at hflags
      exact ⟨by omega, hflags, fun hne => htail f hf hne ▸ htail₁⟩
    · intro h
      refine ⟨fun _ f hf => ?_, fun hne => absurd hcomp hne⟩
      obtain ⟨hcount, hflags, htail₀⟩ := h hcomp f hf
      rw [(hgiven.pages f hf).1, (hgiven.pages f hf).2, hcount]
      refine ⟨rfl, getLsbD_pgHead hflags, ?_, hflags⟩
      by_cases hne : f = pfn
      · rw [hne, pageTail, hgiven.head]
      · rw [htail f hf hne]
        exact htail₀ hne
  · refine iff_of_true ⟨fun h => absurd h hcomp, fun _ hne => ?_⟩ fun h => absurd h hcomp
    rw [prepNewPage, if_pos ⟨hne, hcomp⟩]
    exact compound_prepCompoundPage s₁ pfn horder

/-- After every run, the next block is clean exactly when a compound page is asked for or its pages
are unused on the free list: no reference is counted, no flag set, no page marked as a tail. Freeing
does not see to that. -/
theorem clean_iff_unused (h : Reachable AllocRun.step AllocRun.Ok AllocRun.Start r) (gfp order : Nat) :
    (∀ pfn s', myosAllocPages r.st gfp order = some (some pfn, s') → Clean s' pfn order gfp) ↔
      ∀ pfn ∈ r.nextBlock gfp order, gfp &&& gfpComp = 0 → ∀ f, InBlock f (pfn, order) →
        (r.st.pages f).refcount = 0 ∧ (r.st.pages f).flags &&& pageFlagsCheckAtPrep = 0 ∧
          (f ≠ pfn → pageTail r.st f = false) := by
  obtain ⟨free, hinv⟩ := reachable_inv h
  exact hinv.forall_returned_iff fun pfn s₁ horder hgiven => clean_iff horder hgiven

/-- A block of two pages was released. -/
theorem clean_iff_unused_released :
    ∃ r, Reachable AllocRun.step Ok Start r ∧ r.nextBlock 0 1 = some 8 ∧
      ((∀ pfn s', myosAllocPages r.st 0 1 = some (some pfn, s') → Clean s' pfn 1 0) ↔
        ∀ pfn ∈ r.nextBlock 0 1, 0 &&& gfpComp = 0 → ∀ f, InBlock f (pfn, 1) →
          (r.st.pages f).refcount = 0 ∧ (r.st.pages f).flags &&& pageFlagsCheckAtPrep = 0 ∧
            (f ≠ pfn → pageTail r.st f = false)) := by
  have hrun : ∃ r, Reachable AllocRun.step Ok Start r ∧ decide (r.nextBlock 0 1 = some 8) = true :=
    Reachable.exists_of_run empty64_start [.release 8 1] (by decide +kernel)
  obtain ⟨r, hr, hnext⟩ := hrun
  exact ⟨r, hr, of_decide_eq_true hnext, clean_iff_unused hr 0 1⟩

/-- A page that was freed and is given out again counts two references. -/
theorem recycled_page_not_clean :
    ∃ r pfn s', Reachable AllocRun.step Ok Start r ∧
      myosAllocPages r.st 0 0 = some (some pfn, s') ∧ ¬ Clean s' pfn 0 0 := by
  have hrun : ∃ r, Reachable AllocRun.step Ok Start r ∧
      decide ((myosAllocPages r.st 0 0).map (fun p => (p.1, (p.2.pages 8).refcount)) =
        some (some 8, 2)) = true :=
    Reachable.exists_of_run empty64_start [.release 8 0, .alloc 0 0, .free 8 0] (by decide +kernel)
  obtain ⟨r, hr, halloc⟩ := hrun
  obtain ⟨p, halloc, he⟩ := Option.map_eq_some_iff.1 (of_decide_eq_true halloc)
  rw [Prod.mk.injEq] at he
  refine ⟨r, 8, p.2, hr, he.1 ▸ halloc, ?_⟩
  intro hclean
  have hcount := (hclean.single (by decide) 8 (inBlock_self 8 0)).1
  rw [he.2] at hcount
  exact absurd hcount (by decide)

end MyOS2.Buddy.AllocRun
