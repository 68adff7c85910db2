import MyOS2.Misc.Runs
import MyOS2.Mm.Kmalloc.Proofs.Slabs

/-!
# Objects of a cache and their users

`slab_free` gives a slab back when no object of it is in use, or when there are
many slabs on the list `partial`: the second also gives back slabs that users
still hold objects of. As long as that does not happen an object belongs to one
user, and the lists and chains of the cache are in order.
-/

namespace MyOS2.Slub

open Function DoubleList Option List

/-! ## Allocation -/

section Alloc
variable {c : Cache} {s : State} {live : List Addr} {part full : List Pfn} {free : Pfn → List Nat}
  {p : Pfn} {i : Nat} {l : List Nat}

def InOrder (c : Cache) (s : State) (live : List Addr) : Prop :=
  ∃ part full free, Keeps c s live part full free ∧ Sorted part full free

theorem Sorted.change {part' full' : List Pfn} (h : Sorted part full free)
    (hpart : ∀ q ∈ part', q ≠ p → q ∈ part) (hfull : ∀ q ∈ full', q ≠ p → q ∈ full)
    (hself : (p ∈ part' → l ≠ []) ∧ (p ∈ full' → l = [])) :
    Sorted part' full' (update free p l) :=
  ⟨(forall_update_iff free fun q l => q ∈ part' → l ≠ []).mpr
      ⟨hself.1, fun q hq hmem => h.1 q (hpart q hmem hq)⟩,
    (forall_update_iff free fun q l => q ∈ full' → l = []).mpr
      ⟨hself.2, fun q hq hmem => h.2 q (hfull q hmem hq)⟩⟩

theorem Sorted.stay (h : Sorted part full free) (hfull : p ∉ full) (hl : l ≠ []) :
    Sorted part full (update free p l) :=
  h.change (fun _ hq _ => hq) (fun _ hq _ => hq) ⟨fun _ => hl, fun hp => absurd hp hfull⟩

theorem Keeps.getFromPartialList_nil (h : Keeps c s live [] full free) :
    s.getFromPartialList = some (0, s) := by
  rw [State.getFromPartialList, Headed.next_partialAnchor h.headed]

theorem Keeps.getFromPartialList_cons (hg : Geometry c) {ps : List Pfn}
    (h : Keeps c s live (p :: ps) full free) (hs : Sorted (p :: ps) full free) :
    ∃ i l s', free p = i :: l ∧ s.getFromPartialList = some (slot c p i, s') ∧
      s'.pgSlab = s.pgSlab ∧ InOrder c s' (slot c p i :: live) := by
  have hpart : p ∈ p :: ps := mem_cons_self
  have hp : s.pgSlab p = true := (h.owned p).mpr (.inl hpart)
  obtain ⟨i, l, hfree⟩ := exists_cons_of_ne_nil (hs.1 p hpart)
  obtain ⟨s', htake, hpgSlab, hkeeps⟩ := h.take hg hp hfree
  have hiff : s'.inuse p = s'.objects p ↔ l = [] := by
    have hslab := hkeeps.slab p (hpgSlab ▸ hp)
    have hcount := hslab.inuse
    rw [update_self] at hcount
    rw [hslab.objects, ← length_eq_zero_iff]
    omega
  by_cases hl : l = []
  · subst hl
    obtain ⟨lists₁, lists₂, hremove, hadd, hmoved⟩ := hkeeps.toFull hpart
    refine ⟨i, [], { s' with lists := lists₂ }, hfree, ?_, hpgSlab, _, _, _, hmoved,
      hs.change (fun _ hq _ => mem_of_mem_erase hq)
        (fun _ hq hne => (mem_cons.mp hq).resolve_left hne)
        ⟨fun hp => absurd hp h.nodup_lists.1.not_mem_erase, fun _ => rfl⟩⟩
    rw [State.getFromPartialList, Headed.next_partialAnchor h.headed]
    simp [htake, if_pos (hiff.mpr rfl), hremove, hadd]
  · refine ⟨i, l, s', hfree, ?_, hpgSlab, _, _, _, hkeeps, hs.stay (h.notMem_full hpart) hl⟩
    rw [State.getFromPartialList, Headed.next_partialAnchor h.headed]
    simp [htake, if_neg (mt hiff.mp hl)]

theorem InOrder.getFromPartialList (h : InOrder c s live) (hg : Geometry c) :
    (∃ full free, Keeps c s live [] full free ∧ Sorted [] full free ∧
      s.getFromPartialList = some (0, s)) ∨
    ∃ x s', x ≠ 0 ∧ s.getFromPartialList = some (x, s') ∧ s'.pgSlab = s.pgSlab ∧
      InOrder c s' (x :: live) := by
  obtain ⟨part, full, free, hkeeps, hs⟩ := h
  cases part with
  | nil => exact .inl ⟨full, free, hkeeps, hs, hkeeps.getFromPartialList_nil⟩
  | cons p ps =>
    obtain ⟨i, l, s', -, hget, hpgSlab, horder⟩ := hkeeps.getFromPartialList_cons hg hs
    exact .inr ⟨slot c p i, s', slot_ne_zero, hget, hpgSlab, horder⟩

theorem Keeps.slabAlloc_new (h : Keeps c s live [] full free) (hs : Sorted [] full free)
    (hg : Geometry c) {pg : Pages} (hpg : Users.PagesOk c s pg) (rest : List (Option Pages)) :
    ∃ s', s.slabAlloc c (some pg :: rest) = some (slot c pg.pfn 0, s') ∧
      s'.pgSlab = update s.pgSlab pg.pfn true ∧
      InOrder c s' (slot c pg.pfn 0 :: live) := by
  obtain ⟨s₁, s₂, hinit, honline, hpgSlab, hkeeps'⟩ := h.online hg hpg
  have hfull : pg.pfn ∉ full := hkeeps'.notMem_full mem_cons_self
  have hsorted : Sorted [pg.pfn] full (update free pg.pfn (range c.objNr)) :=
    hs.change (fun _ hq hne => absurd (mem_singleton.mp hq) hne) (fun _ hq _ => hq)
      ⟨fun _ hnil => Nat.ne_of_gt hg.objNr_pos (range_eq_nil.mp hnil), fun hp => absurd hp hfull⟩
  obtain ⟨i, l, s', hfree, hget', hpgSlab', horder⟩ := hkeeps'.getFromPartialList_cons hg hsorted
  obtain rfl : i = 0 := by
    rw [update_self, ← Nat.succ_pred_eq_of_pos hg.objNr_pos, range_succ_eq_map] at hfree
    exact (cons.inj hfree).1.symm
  refine ⟨s', ?_, hpgSlab'.trans hpgSlab, horder⟩
  rw [State.slabAlloc, h.getFromPartialList_nil]
  simp only [bind_eq_bind, bind_some, ne_eq, not_true_eq_false, if_false, hinit, honline]
  -- the second turn of the loop finds the new slab
  rw [State.slabAlloc, hget']
  simp [slot_ne_zero]

def Users.slabsAfter (u : Users) (op : Op) (r : Result) : Pfn → Bool :=
  match newSlab u op, r with
  | some pg, _ => update u.state.pgSlab pg.pfn true
  | none, .freed (some (p, _)) => update u.state.pgSlab p false
  | none, _ => u.state.pgSlab

section

variable (h : InOrder c s live) (hg : Geometry c)
include h hg

/-- `slab_alloc` comes back, with an object that nobody holds or with none. -/
theorem InOrder.slabAlloc {u : Users} {zero : Bool}
    {answers : List (Option Pages)} (hu : u.state = s) (hok : u.Ok c (.alloc answers zero)) :
    ∃ x s', s.slabAlloc c answers = some (x, s') ∧
      s'.pgSlab = u.slabsAfter (.alloc answers zero) (.allocated x) ∧
      InOrder c s' (if x = 0 then live else x :: live) := by
  subst hu
  cases h.getFromPartialList hg with
  | inr hsome =>
    obtain ⟨x, s', hx, hget, hpgSlab, horder⟩ := hsome
    have hnew : newSlab u (.alloc answers zero) = none := by
      unfold newSlab
      split
      · rw [hget, if_neg (by simp [hx])]
      · rfl
    refine ⟨x, s', ?_, ?_, by rwa [if_neg hx]⟩
    · rw [State.slabAlloc, hget]
      simp [hx]
    · simp only [hpgSlab, Users.slabsAfter, hnew]
  | inl hnone =>
    obtain ⟨full, free, hkeeps, hs, hget⟩ := hnone
    match answers, hok with
    | none :: rest, _ =>
      refine ⟨0, u.state, ?_, rfl, _, _, _, hkeeps, hs⟩
      rw [State.slabAlloc, hget]
      rfl
    | some pg :: rest, hpg =>
      obtain ⟨s', halloc, hpgSlab, horder⟩ := hkeeps.slabAlloc_new hs hg hpg rest
      refine ⟨slot c pg.pfn 0, s', halloc, ?_, by rwa [if_neg slot_ne_zero]⟩
      simp only [hpgSlab, Users.slabsAfter, newSlab, hget, map_some, if_true]

theorem InOrder.write {x : Addr} (hx : x ∈ live) (v : Nat) : InOrder c (s.setWord x v) live := by
  obtain ⟨part, full, free, hkeeps, hs⟩ := h
  exact ⟨part, full, free, hkeeps.write hg hx v, hs⟩

theorem InOrder.kmemCacheAlloc {u : Users} {zero : Bool}
    {answers : List (Option Pages)} (hu : u.state = s) (hok : u.Ok c (.alloc answers zero)) :
    ∃ x s', s.kmemCacheAlloc c answers zero = some (x, s') ∧
      s'.pgSlab = u.slabsAfter (.alloc answers zero) (.allocated x) ∧
      InOrder c s' (if x = 0 then live else x :: live) := by
  obtain ⟨x, s', halloc, hpgSlab, horder⟩ := h.slabAlloc hg hu hok
  rw [State.kmemCacheAlloc, halloc]
  by_cases hx : x = 0
  · subst hx
    exact ⟨0, s', rfl, hpgSlab, horder⟩
  · refine ⟨x, s'.slabPostAllocHook c zero x, by simp [hx], ?_⟩
    rw [if_neg hx] at horder ⊢
    rw [State.slabPostAllocHook]
    split
    · exact ⟨hpgSlab, horder.write hg mem_cons_self _⟩
    · exact ⟨hpgSlab, horder⟩

end

end Alloc

/-! ## Freeing -/

section Free
variable {c : Cache} {s : State} {live : List Addr} {part full : List Pfn} {free : Pfn → List Nat}
  {p : Pfn} {i : Nat}

theorem Keeps.virtToSlab (h : Keeps c s live part full free) (hg : Geometry c)
    (hp : s.pgSlab p = true) (hi : i < c.objNr) : s.virtToSlab (slot c p i) = some p := by
  obtain ⟨hle, hlt⟩ := hg.virtToPfn_slot (p := p) hi
  rw [State.virtToSlab]
  simp only [(h.slab p hp).pages _ hle hlt, hp, if_true]

theorem Keeps.freeToPartialList (h : Keeps c s live part full free) (hs : Sorted part full free)
    (hg : Geometry c) (hp : s.pgSlab p = true) (hi : i < c.objNr) (hnot : i ∉ free p) :
    ∃ s' part' full', s.freeToPartialList p (slot c p i) = some s' ∧ p ∈ part' ∧
      s'.pgSlab = s.pgSlab ∧ s'.inuse p + 1 = s.inuse p ∧
      s'.lists.count .partialAnchor =
        s.lists.count .partialAnchor + (if s.inuse p = s.objects p then 1 else 0) ∧
      Keeps c s' (live.erase (slot c p i)) part' full' (update free p (i :: free p)) ∧
      Sorted part' full' (update free p (i :: free p)) := by
  have hslab := h.slab p hp
  have hcount := hslab.inuse
  have hlength : ∀ {s live part full free}, Keeps c s live part full free →
      s.lists.count .partialAnchor = part.length :=
    fun h => (h.headed.count .usable).trans (length_map ..)
  have hiff : s.inuse p = s.objects p ↔ free p = [] := by
    rw [hslab.objects, ← length_eq_zero_iff]
    omega
  have hinuse : ∀ {s' live part full},
      Keeps c s' live part full (update free p (i :: free p)) → s'.pgSlab = s.pgSlab →
      s'.inuse p + 1 = s.inuse p := by
    intro s' live part full hkeeps hpgSlab
    have hnew := (hkeeps.slab p (hpgSlab ▸ hp)).inuse
    rw [update_self, length_cons] at hnew
    omega
  rw [State.freeToPartialList]
  by_cases hnil : free p = []
  · have hfull : p ∈ full := ((h.owned p).mp hp).resolve_left fun hpart => hs.1 p hpart hnil
    obtain ⟨lists₁, lists₂, hremove, hadd, hmoved⟩ := h.toUsable hfull
    obtain ⟨s', hgive, -, hpgSlab, hkeeps⟩ := hmoved.give hg hp hi hnot
    refine ⟨s', p :: part, full.erase p, ?_, mem_cons_self, hpgSlab, hinuse hkeeps hpgSlab,
      ?_, hkeeps, hs.change (fun _ hq hne => (mem_cons.mp hq).resolve_left hne)
        (fun _ hq _ => mem_of_mem_erase hq)
        ⟨fun _ => cons_ne_nil _ _, fun hp => absurd hp h.nodup_lists.2.1.not_mem_erase⟩⟩
    · simp [if_pos (hiff.mpr hnil), hremove, hadd, hgive]
    · rw [if_pos (hiff.mpr hnil), hlength h, hlength hkeeps, length_cons]
  · have hpart : p ∈ part := ((h.owned p).mp hp).resolve_right fun hfull => hnil (hs.2 p hfull)
    obtain ⟨s', hgive, hlists, hpgSlab, hkeeps⟩ := h.give hg hp hi hnot
    refine ⟨s', part, full, ?_, hpart, hpgSlab, hinuse hkeeps hpgSlab, ?_, hkeeps,
      hs.stay (h.notMem_full hpart) (cons_ne_nil _ _)⟩
    · simp only [if_neg (mt hiff.mp hnil), hgive]
    · rw [if_neg (mt hiff.mp hnil), hlists, Nat.add_zero]

/-- What `kmem_cache_free` does with an object that a user holds: its slab is given back when that
is due. -/
theorem InOrder.kmemCacheFree (h : InOrder c s live) (hg : Geometry c) {x : Addr}
    (hx : x ∈ live) :
    ∃ p i s₁ part full free, s.virtToSlab x = some p ∧ x = slot c p i ∧
      s₁.pgSlab = s.pgSlab ∧ s₁.inuse p + 1 = s.inuse p ∧
      s₁.lists.count .partialAnchor =
        s.lists.count .partialAnchor + (if s.inuse p = s.objects p then 1 else 0) ∧
      p ∈ part ∧ Keeps c s₁ (live.erase x) part full free ∧ Sorted part full free ∧
      if s₁.inuse p = 0 ∨ c.minPartial ≤ s₁.lists.count .partialAnchor then
        ∃ lists, Headed lists Kind.anchor (nodes (part.erase p) full) ∧
          s.kmemCacheFree c x = some (some (p, c.order), Keeps.released s₁ lists p)
      else s.kmemCacheFree c x = some (none, s₁) := by
  obtain ⟨part, full, free, hkeeps, hs⟩ := h
  obtain ⟨p, i, hp, hi, hnot, rfl⟩ := (hkeeps.held x).mp hx
  have hvirt := hkeeps.virtToSlab hg hp hi
  obtain ⟨s₁, part', full', hfree, hpart, hpgSlab, hinuse, hcount, hkeeps', hs'⟩ :=
    hkeeps.freeToPartialList hs hg hp hi hnot
  refine ⟨p, i, s₁, part', full', _, hvirt, rfl, hpgSlab, hinuse, hcount, hpart, hkeeps', hs', ?_⟩
  rw [State.kmemCacheFree, hvirt]
  simp only [bind_eq_bind, bind_some, State.slabFree, hfree]
  split
  · obtain ⟨lists, s₂, hoffline, hfreeSlab, hheaded⟩ := hkeeps'.offline_freeSlab hpart
    refine ⟨lists, hheaded, ?_⟩
    simp only [hoffline, bind_some, hfreeSlab]
  · rfl

def Outside (c : Cache) (p : Pfn) (order : Nat) (x : Addr) : Prop :=
  x + c.size ≤ pageToVirt p ∨ pageToVirt (p + 2 ^ order) ≤ x

section

variable (h : Keeps c s live part full free) (hg : Geometry c) (hp : s.pgSlab p = true)
include h hg hp

theorem Keeps.outside (hzero : s.inuse p = 0) {x : Addr} (hx : x ∈ live) :
    Outside c p c.order x := by
  obtain ⟨q, i, hq, hi, hnot, rfl⟩ := (h.held x).mp hx
  have hqp : q ≠ p := by
    rintro rfl
    exact hnot ((h.slab q hq).mem_of_inuse_eq_zero hzero hi)
  cases h.apart q p hq hp hqp with
  | inl hle => exact .inl ((hg.slot_add_size_le hi).trans (Geometry.pageToVirt_le hle))
  | inr hle => exact .inr ((Geometry.pageToVirt_le hle).trans (Nat.le_add_right ..))

theorem Keeps.exists_not_outside (hne : s.inuse p ≠ 0) : ∃ x ∈ live, ¬ Outside c p c.order x := by
  obtain ⟨i, hi, hnot⟩ := (h.slab p hp).exists_of_inuse_ne_zero hne
  have hsize := hg.size
  refine ⟨slot c p i, (h.held _).mpr ⟨p, i, hp, hi, hnot, rfl⟩, ?_⟩
  have hlow : pageToVirt p ≤ slot c p i := Nat.le_add_right ..
  have hhigh : slot c p i + c.size ≤ pageToVirt (p + 2 ^ c.order) := hg.slot_add_size_le hi
  rw [Outside, not_or, Nat.not_le, Nat.not_le]
  constructor
  · exact Nat.lt_of_le_of_lt hlow (Nat.lt_add_of_pos_right (Nat.lt_of_lt_of_le (by decide) hsize))
  · exact Nat.lt_of_lt_of_le
      (Nat.lt_add_of_pos_right (Nat.lt_of_lt_of_le (by decide) hsize)) hhigh

end

end Free

/-! ## Runs -/

namespace Users
variable (c : Cache)

/-- An object that is handed out does not meet any that a user holds, and no user holds an object of
a slab that is given back. -/
def Exclusive (u u' : Users) : Op → Result → Prop
  | .alloc .., .allocated x => x ≠ 0 → ∀ y ∈ u.live, x ≠ y ∧ Disjoint c x y
  | .free _, .freed (some (p, order)) =>
    ∀ y ∈ u'.live, Outside c p order y
  | _, _ => True

/-- A slab is not given back while an object of it is in use: the object that is freed is the last
one, or there are few slabs on `partial`. -/
def ReleaseOk (u : Users) : Op → Prop
  | .free x => ∀ p, u.state.virtToSlab x = some p →
      u.state.inuse p = 1 ∨
      u.state.lists.count .partialAnchor +
        (if u.state.inuse p = u.state.objects p then 1 else 0) < c.minPartial
  | _ => True

/-- The pages that are slabs after a call; pages that are given back were a slab. -/
def Turns (u u' : Users) (op : Op) (r : Result) : Prop :=
  u'.state.pgSlab = u.slabsAfter op r ∧ ∀ p o, r = .freed (some (p, o)) → u.state.pgSlab p = true

section Step
variable {c} {u u' : Users} {op : Op} {r : Result}

/-- Every call comes back; it keeps the objects apart if and only if it gives no slab back too
early. -/
theorem step_spec (h : InOrder c u.state u.live) (hg : Geometry c) (hok : u.Ok c op) :
    ∃ r u', u.step c op = some (r, u') ∧ Turns u u' op r ∧
      (Exclusive c u u' op r ↔ u.ReleaseOk c op) ∧
      (u.ReleaseOk c op → InOrder c u'.state u'.live) := by
  cases op with
  | write x v =>
    exact ⟨.written, _, rfl, ⟨rfl, by simp⟩, Iff.rfl, fun _ => h.write hg hok v⟩
  | alloc answers zero =>
    obtain ⟨x, s', halloc, hpgSlab, horder⟩ := h.kmemCacheAlloc hg rfl hok
    refine ⟨.allocated x, ⟨s', if x = 0 then u.live else x :: u.live⟩, ?_, ⟨hpgSlab, by simp⟩,
      iff_of_true ?_ trivial, fun _ => horder⟩
    · rw [step, halloc]
      rfl
    · intro hx y hy
      rw [if_neg hx] at horder
      obtain ⟨part, full, free, hkeeps, -⟩ := horder
      have hne : x ≠ y := by
        rintro rfl
        exact (nodup_cons.mp hkeeps.nodup).1 hy
      exact ⟨hne, hkeeps.disjoint hg mem_cons_self (mem_cons_of_mem _ hy) hne⟩
  | free x =>
    obtain ⟨p, i, s₁, part, full, free, hvirt, rfl, hpgSlab, hinuse, hcount, hpart, hkeeps, hs,
      hcase⟩ := h.kmemCacheFree hg hok
    have hp : s₁.pgSlab p = true := (hkeeps.owned p).mpr (.inl hpart)
    -- the condition, read after the object was put on the chain
    have hcond : u.ReleaseOk c (.free (slot c p i)) ↔
        (s₁.inuse p = 0 ∨ s₁.lists.count .partialAnchor < c.minPartial) := by
      have hzero : s₁.inuse p = 0 ↔ u.state.inuse p = 1 := by omega
      rw [hzero, hcount]
      constructor
      · intro hrel
        exact hrel p hvirt
      · intro hor q hq
        obtain rfl : p = q := some.inj (hvirt.symm.trans hq)
        exact hor
    split at hcase
    · rename_i hrelease
      obtain ⟨lists, hheaded, hfree⟩ := hcase
      refine ⟨.freed (some (p, c.order)), ⟨Keeps.released s₁ lists p, u.live.erase (slot c p i)⟩,
        ?_, ?_, ?_, ?_⟩
      · rw [step, hfree]
        rfl
      · have hturn : update s₁.pgSlab p false = update u.state.pgSlab p false := by
          rw [hpgSlab]
        refine ⟨hturn, ?_⟩
        rintro _ _ ⟨⟩
        rwa [← hpgSlab]
      · by_cases hzero : s₁.inuse p = 0
        · exact iff_of_true (fun y hy => hkeeps.outside hg hp hzero hy) (hcond.mpr (.inl hzero))
        · refine iff_of_false ?_ ?_
          · intro hall
            obtain ⟨y, hy, hinside⟩ := hkeeps.exists_not_outside hg hp hzero
            exact hinside (hall y hy)
          · intro hrel
            have hmany := hrelease.resolve_left hzero
            exact absurd ((hcond.mp hrel).resolve_left hzero) (Nat.not_lt_of_le hmany)
      · intro hrel
        have hzero : s₁.inuse p = 0 := by
          obtain hzero | hmany := hrelease
          · exact hzero
          · exact (hcond.mp hrel).resolve_right (Nat.not_lt_of_le hmany)
        exact ⟨_, full, free, hkeeps.release hpart hzero hheaded,
          fun q hq => hs.1 q (mem_of_mem_erase hq), hs.2⟩
    · rename_i hkept
      rw [not_or, Nat.not_le] at hkept
      refine ⟨.freed none, ⟨s₁, u.live.erase (slot c p i)⟩, ?_, ⟨hpgSlab, by simp⟩,
        iff_of_true trivial (hcond.mpr (.inr hkept.2)), fun _ => ⟨part, full, free, hkeeps, hs⟩⟩
      rw [step, hcase]
      rfl

theorem inOrder_start (h : Start u) : InOrder c u.state u.live := by
  have hslab : ∀ p, u.state.pgSlab p ≠ true := by
    intro p hp
    rw [h.pgSlab p] at hp
    contradiction
  have hlists : Headed u.state.lists Kind.anchor (nodes [] []) := by
    refine ⟨⟨?_, ?_, ?_⟩, ?_⟩
    · rintro (_ | _)
      · exact ⟨h.partialNext, h.partialPrev⟩
      · exact ⟨h.fullNext, h.fullPrev⟩
    · rintro (_ | _) <;> exact nodup_singleton _
    · rintro (_ | _) (_ | _) hne <;> simp [Kind.anchor, nodes] at hne ⊢
    · rintro (_ | _)
      · exact h.partialCount
      · exact h.fullCount
  refine ⟨[], [], fun _ => [], ?_, by simp, by simp⟩
  exact {
    headed := hlists
    owned := fun p => iff_of_false (hslab p) (by simp)
    apart := fun p _ hp => absurd hp (hslab p)
    slab := fun p hp => absurd hp (hslab p)
    held := by
      intro x
      rw [h.live]
      refine iff_of_false (not_mem_nil) ?_
      rintro ⟨p, -, hp, -⟩
      exact hslab p hp
    nodup := h.live ▸ nodup_nil
    nrSlabs := h.nrSlabs
    totalObjects := by simp [h.totalObjects] }

end Step

section Run
variable {c} {u : Users}

theorem reachable_inOrder (hg : Geometry c)
    (h : Reachable (step c) (fun u op => u.Ok c op ∧ u.ReleaseOk c op) Start u) :
    InOrder c u.state u.live := by
  refine h.invariant_of_returns (fun u hu => inOrder_start hu) fun u op hu hop => ?_
  obtain ⟨r, u', hstep, -, -, hkeep⟩ := step_spec hu hg hop.1
  exact ⟨r, u', hstep, hkeep hop.2⟩

/-- As long as no slab was given back too early, every call comes back, and keeps the objects apart
if and only if it gives no slab back too early. -/
theorem exclusive_iff_releaseOk {objectSize alignment : BitVec 32} {ctor : Option (Addr → Nat → Nat)}
    (hopen : simpleKmemCacheOpen objectSize alignment ctor = some (.ok c))
    (h : Reachable (step c) (fun u op => u.Ok c op ∧ u.ReleaseOk c op) Start u) (op : Op)
    (hok : u.Ok c op) :
    ∃ r u', u.step c op = some (r, u') ∧ (Exclusive c u u' op r ↔ u.ReleaseOk c op) := by
  have hg := geometry_of_open hopen
  obtain ⟨r, u', hstep, -, hiff, -⟩ := step_spec (reachable_inOrder hg h) hg hok
  exact ⟨r, u', hstep, hiff⟩

/-! A cache of four objects of 1008 bytes to a page. -/

def small : Cache := ⟨1008, 1008, 0, 4, 4, none⟩

def empty : Users where
  state :=
    { lists := { next := .node, prev := .node, count := fun _ => 0 }
      nrSlabs := 0
      totalObjects := 0
      freelist := fun _ => 0
      inuse := fun _ => 0
      objects := fun _ => 0
      pgSlab := fun _ => false
      pgHead := fun _ => false
      compoundHead := id
      word := fun _ => 0 }
  live := []

theorem open_small (ctor : Option (Addr → Nat → Nat)) :
    simpleKmemCacheOpen 1008 8 ctor = some (.ok { small with ctor }) := by
  have hsize : (align (align 1008 8) 8).toNat = 1008 := by decide
  have horder : simpleCalculateOrder 1008 = 0 := by decide +kernel
  have hlog : Nat.log2 1008 = 9 := by decide +kernel
  rw [simpleKmemCacheOpen, hsize, horder]
  simp [orderObjects, small, hlog]

theorem start_empty : Start empty := by
  constructor <;> intros <;> rfl

instance (u : Users) : (op : Op) → Decidable (u.ReleaseOk c op)
  | .alloc .. | .write .. => inferInstanceAs (Decidable True)
  | .free x => inferInstanceAs (Decidable (∀ p ∈ u.state.virtToSlab x, _))

def fill (p : Pfn) : List Op :=
  .alloc [some ⟨p, false⟩] false :: replicate 3 (.alloc [none] false)

/-- A full slab and one with two objects in use. -/
theorem reachable_busy : ∃ u,
    Reachable (step small) (fun u op => u.Ok small op ∧ u.ReleaseOk small op) Start u ∧
    decide (u.live.length = 6 ∧ u.Ok small (.free (slot small 1 0)) ∧
      u.ReleaseOk small (.free (slot small 1 0))) = true :=
  Reachable.exists_of_run start_empty (fill 1 ++ [.alloc [some ⟨2, false⟩] false, .alloc [none] false])
    (by decide +kernel)

/-- Six objects are in use, and one of the full slab is freed. -/
theorem exclusive_iff_releaseOk_busy : ∃ (u : Users) (r : Result) (u' : Users), u.live.length = 6 ∧
    u.step small (.free (slot small 1 0)) = some (r, u') ∧
    Exclusive small u u' (.free (slot small 1 0)) r := by
  obtain ⟨u, hu, hlast⟩ := reachable_busy
  obtain ⟨hlive, hok, hrel⟩ := of_decide_eq_true hlast
  obtain ⟨r, u', hstep, hiff⟩ := exclusive_iff_releaseOk (open_small none) hu _ hok
  exact ⟨u, r, u', hlive, hstep, hiff.mpr hrel⟩

/-- Three full slabs and one with an object in use; then an object of each of the first two is
freed. -/
def crowd : List Op :=
  fill 1 ++ fill 2 ++ fill 3 ++
    [.alloc [some ⟨4, false⟩] false, .free (slot small 1 0), .free (slot small 2 0)]

/-- The first object of the third slab is freed: its page is given back while its other three
objects are held. -/
theorem page_given_back_with_objects : ∃ u r u',
    Reachable (step small) (Ok small) Start u ∧ u.Ok small (.free (slot small 3 0)) ∧
      u.step small (.free (slot small 3 0)) = some (r, u') ∧
      ¬ Exclusive small u u' (.free (slot small 3 0)) r := by
  have hrun : (Reachable.run (step small) (Ok small) empty crowd).any (fun u =>
      decide (u.Ok small (.free (slot small 3 0))) &&
        (u.step small (.free (slot small 3 0))).any fun x =>
          decide (x.1 = .freed (some (3, 0))) && decide (slot small 3 1 ∈ x.2.live)) = true := by
    decide +kernel
  obtain ⟨u, hu, hlast⟩ := Reachable.exists_of_run start_empty crowd hrun
  obtain ⟨hok, hfree⟩ := Bool.and_eq_true_iff.mp hlast
  obtain ⟨⟨r, u'⟩, hstep, hcheck⟩ := (any_eq_true _ _).mp hfree
  obtain ⟨hr, hlive⟩ := Bool.and_eq_true_iff.mp hcheck
  obtain rfl := of_decide_eq_true hr
  refine ⟨u, _, u', hu, of_decide_eq_true hok, hstep, ?_⟩
  intro hall
  have hinside : ¬ Outside small 3 0 (slot small 3 1) := by
    simp [Outside, slot, small, pageToVirt, kOffset]
  exact hinside (hall _ (of_decide_eq_true hlive))

/-- The slabs of a cache are `part` and `full`, each on the list where it belongs, with its free
objects on a chain and the counters right. -/
structure Listed (c : Cache) (s : State) (part full : List Pfn) : Prop where
  lists : Headed s.lists Kind.anchor (nodes part full)
  once : (part ++ full).Nodup
  owned : ∀ p, s.pgSlab p = true ↔ p ∈ part ∨ p ∈ full
  onFull : ∀ p, s.pgSlab p = true → (p ∈ full ↔ s.inuse p = s.objects p ∧ s.freelist p = 0)
  onPartial : ∀ p, s.pgSlab p = true → (p ∈ part ↔ s.inuse p < s.objects p)
  chain : ∀ p, s.pgSlab p = true → ∃ l, Chained s.word 0 (s.freelist p) l ∧ l.Nodup ∧
    (∀ x ∈ l, ∃ i < s.objects p, x = slot c p i) ∧ l.length + s.inuse p = s.objects p
  nrSlabs : s.nrSlabs = ((part ++ full).length : Nat)
  totalObjects : s.totalObjects = (((part ++ full).map s.objects).sum : Nat)

theorem Keeps.listed {s : State} {live : List Addr} {part full : List Pfn}
    {free : Pfn → List Nat} (h : Keeps c s live part full free) (hs : Sorted part full free)
    (hg : Geometry c) : Listed c s part full := by
  have hnil : ∀ p, s.pgSlab p = true → (s.inuse p = s.objects p ↔ free p = []) := by
    intro p hp
    have hslab := h.slab p hp
    rw [hslab.objects, ← hslab.inuse, ← length_eq_zero_iff]
    omega
  have hfull : ∀ p, s.pgSlab p = true → (p ∈ full ↔ free p = []) := by
    intro p hp
    refine ⟨hs.2 p, fun hfree => ?_⟩
    exact ((h.owned p).mp hp).resolve_left fun hpart => hs.1 p hpart hfree
  have hpart : ∀ p, s.pgSlab p = true → (p ∈ part ↔ free p ≠ []) := by
    intro p hp
    refine ⟨hs.1 p, fun hfree => ?_⟩
    exact ((h.owned p).mp hp).resolve_right fun hmem => hfree (hs.2 p hmem)
  refine ⟨h.headed, Headed.nodup_append h.headed, h.owned, ?_, ?_, ?_, ?_, ?_⟩
  · intro p hp
    rw [hfull p hp, hnil p hp]
    refine ⟨fun hfree => ⟨hfree, ?_⟩, And.left⟩
    have hchain := (h.slab p hp).chain
    rwa [hfree] at hchain
  · intro p hp
    have hslab := h.slab p hp
    have hle : s.inuse p ≤ s.objects p := by
      rw [hslab.objects, ← hslab.inuse]
      exact Nat.le_add_right ..
    rw [hpart p hp, Ne, ← hnil p hp]
    omega
  · intro p hp
    have hslab := h.slab p hp
    refine ⟨(free p).map (slot c p), hslab.chain, ?_, ?_, ?_⟩
    · exact hslab.nodup.map (hg.slot_injective p)
    · intro x hx
      obtain ⟨i, hi, rfl⟩ := mem_map.mp hx
      exact ⟨i, hslab.objects ▸ hslab.bound i hi, rfl⟩
    · rw [length_map, hslab.objects, ← hslab.inuse, Nat.add_comm]
  · rw [h.nrSlabs, length_append]
  · have hsum : ((part ++ full).map s.objects).sum = (part ++ full).length * c.objNr := by
      have hconst : (part ++ full).map s.objects = (part ++ full).map fun _ => c.objNr := by
        apply map_congr_left
        intro p hp
        exact (h.slab p ((h.owned p).mpr (mem_append.mp hp))).objects
      rw [hconst, map_const', sum_replicate_nat]
    rw [hsum, h.totalObjects, length_append]

/-- As long as no slab was given back too early, the slabs of a cache are on the lists where they
belong, and every call comes back. -/
theorem listed_of_releaseOk {objectSize alignment : BitVec 32}
    {ctor : Option (Addr → Nat → Nat)}
    (hopen : simpleKmemCacheOpen objectSize alignment ctor = some (.ok c))
    (h : Reachable (step c) (fun u op => u.Ok c op ∧ u.ReleaseOk c op) Start u) :
    (∃ part full, Listed c u.state part full) ∧
      ∀ op, u.Ok c op → ∃ r u', u.step c op = some (r, u') ∧
        (u.ReleaseOk c op → ∃ part full, Listed c u'.state part full) := by
  have hg := geometry_of_open hopen
  have horder := reachable_inOrder hg h
  have key : ∀ {v : Users}, InOrder c v.state v.live → ∃ part full, Listed c v.state part full := by
    rintro v ⟨part, full, free, hkeeps, hs⟩
    exact ⟨part, full, Keeps.listed hkeeps hs hg⟩
  refine ⟨key horder, ?_⟩
  intro op hok
  obtain ⟨r, u', hstep, -, -, hkeep⟩ := step_spec horder hg hok
  exact ⟨r, u', hstep, fun hrel => key (hkeep hrel)⟩

/-- Six objects are in use, and one is given back. -/
theorem listed_of_releaseOk_busy : ∃ (u : Users) (r : Result) (u' : Users), u.live.length = 6 ∧
    (∃ part full, Listed small u.state part full) ∧
    u.step small (.free (slot small 1 0)) = some (r, u') ∧
    ∃ part full, Listed small u'.state part full := by
  obtain ⟨u, hu, hlast⟩ := reachable_busy
  obtain ⟨hlive, hok, hrel⟩ := of_decide_eq_true hlast
  obtain ⟨hlisted, hnext⟩ := listed_of_releaseOk (open_small none) hu
  obtain ⟨r, u', hstep, hkept⟩ := hnext _ hok
  exact ⟨u, r, u', hlive, hlisted, hstep, hkept hrel⟩

/-- The page that was given back too early becomes a slab again, and one of the objects that were
held all the time is freed for a second time. -/
def reuse : List Op :=
  crowd ++ .free (slot small 3 0) :: replicate 5 (.alloc [none] false) ++
    [.alloc [some ⟨3, false⟩] false, .alloc [none] false, .free (slot small 3 3)]

/-- The chain of free objects of that slab then leads in a circle. -/
theorem chain_in_circle : ∃ u, Reachable (step small) (Ok small) Start u ∧
    ¬ ∃ part full, Listed small u.state part full := by
  have hrun : (Reachable.run (step small) (Ok small) empty reuse).any (fun u => decide
      ((u.state.pgSlab 3, u.state.freelist 3, u.state.word (slot small 3 3),
        u.state.word (slot small 3 2), u.state.inuse 3, u.state.objects 3) =
      (true, slot small 3 3, slot small 3 2, slot small 3 3, 1, 4))) = true := by
    decide +kernel
  obtain ⟨u, hu, hfields⟩ := Reachable.exists_of_run start_empty reuse hrun
  have heq := of_decide_eq_true hfields
  simp only [Prod.mk.injEq] at heq
  obtain ⟨hslab, hfirst, hsecond, hthird, hinuse, hobjects⟩ := heq
  refine ⟨u, hu, ?_⟩
  rintro ⟨part, full, h⟩
  obtain ⟨l, hchain, hnodup, -, hlen⟩ := h.chain 3 hslab
  rw [hinuse, hobjects] at hlen
  -- the three cells of the chain are the fourth object, the third and the fourth
  match l, hlen with
  | [a, b, d], _ =>
    obtain ⟨ha, hb, hd, -⟩ := hchain
    rw [hfirst] at ha
    subst ha
    rw [hsecond] at hb
    subst hb
    rw [hthird] at hd
    subst hd
    simp at hnodup

end Run

end Users

/-! ## Constructed objects -/

namespace Traced
variable {c : Cache} {t t' : Traced} {op : Op} {r : Result}

/-- An object handed out for the first time since its slab was created, and not cleared, was
constructed once and holds what the constructor left. -/
def Constructed (c : Cache) (t t' : Traced) : Op → Result → Prop
  | .alloc answers false, .allocated x =>
    x ≠ 0 → (t.setUp c (.alloc answers false)).given x = false →
      t'.made x = 1 ∧ t'.users.state.word x = t'.left x
  | _, _ => True

def Start (t : Traced) : Prop := Users.Start t.users

/-- In every run every call hands out constructed objects. -/
def Guaranteed (c : Cache) : Prop :=
  ∀ t, Reachable (step c) (fun t op => t.users.Ok c op) Start t → ∀ op r t', t.users.Ok c op →
    t.step c op = some (r, t') → Constructed c t t' op r

theorem step_users (h : t.step c op = some (r, t')) : t.users.step c op = some (r, t'.users) := by
  obtain ⟨p, hp, h⟩ := bind_eq_some_iff.1 h
  obtain ⟨r₁, u⟩ := p
  cases r₁ <;> cases h <;> exact hp

theorem reachable_users {ok : Users → Op → Prop}
    (h : Reachable (step c) (fun t op => ok t.users op) Start t) :
    Reachable (Users.step c) ok Users.Start t.users := by
  induction h with
  | start hs => exact .start hs
  | call _ hop hstep ih => exact .call ih hop (step_users hstep)

theorem lt_of_mem_setupCalls (hsize : 0 < c.size) {n p x : Nat}
    (h : x ∈ setupCalls c n p) : p < x := by
  induction n generalizing p with
  | zero => cases h
  | succ n ih =>
    rw [setupCalls, mem_cons] at h
    rcases h with rfl | h
    · omega
    · have := ih h
      omega

/-- A call that creates a slab hands out its first object, which the constructor was not applied to.
-/
theorem not_constructed (hg : Geometry c) {ctor : Addr → Nat → Nat} (hctor : c.ctor = some ctor)
    (h : InOrder c t.users.state t.users.live) {pg : Pages} {rest : List (Option Pages)}
    (hok : t.users.Ok c (.alloc (some pg :: rest) false))
    (hnew : newSlab t.users (.alloc (some pg :: rest) false) = some pg) :
    ∃ x t', t.step c (.alloc (some pg :: rest) false) = some (.allocated x, t') ∧ x ≠ 0 ∧
      (t.setUp c (.alloc (some pg :: rest) false)).given x = false ∧ t'.made x = 0 := by
  have hsize : 0 < c.size := Nat.lt_of_lt_of_le (by decide) hg.size
  have hslot : slot c pg.pfn 0 = pageToVirt pg.pfn := by rw [slot, Nat.zero_mul, Nat.add_zero]
  have hin : pageToVirt pg.pfn ≤ slot c pg.pfn 0 ∧
      slot c pg.pfn 0 < pageToVirt (pg.pfn + 2 ^ c.order) :=
    ⟨hslot.ge, Nat.lt_of_lt_of_le (Nat.lt_add_of_pos_right hsize) (hg.slot_add_size_le hg.objNr_pos)⟩
  obtain ⟨s', halloc⟩ : ∃ s', t.users.state.slabAlloc c (some pg :: rest) =
      some (slot c pg.pfn 0, s') := by
    cases h.getFromPartialList hg with
    | inl hnone =>
      obtain ⟨full, free, hkeeps, hs, -⟩ := hnone
      obtain ⟨s', halloc, -, -⟩ := hkeeps.slabAlloc_new hs hg hok rest
      exact ⟨s', halloc⟩
    | inr hsome =>
      obtain ⟨x, s', hx, hget, -⟩ := hsome
      rw [newSlab, hget, if_neg (by simp [hx])] at hnew
      cases hnew
  obtain ⟨u, hu⟩ : ∃ u, t.users.step c (.alloc (some pg :: rest) false) =
      some (.allocated (slot c pg.pfn 0), u) := by
    rw [Users.step, State.kmemCacheAlloc, halloc]
    simp only [bind_eq_bind, bind_some, if_neg slot_ne_zero]
    exact ⟨_, rfl⟩
  refine ⟨slot c pg.pfn 0, { t.setUp c (.alloc (some pg :: rest) false) with
    users := u
    given := update (t.setUp c (.alloc (some pg :: rest) false)).given
      (slot c pg.pfn 0) true }, by rw [step, hu]; rfl, slot_ne_zero, ?_, ?_⟩
  · rw [setUp, hnew, hctor]
    exact if_pos hin
  · rw [setUp, hnew, hctor]
    refine (if_pos hin).trans (count_eq_zero.2 fun hmem => ?_)
    exact absurd (lt_of_mem_setupCalls hsize hmem) (Nat.not_lt_of_le hslot.le)

def empty : Traced := ⟨Users.empty, fun _ => 0, fun _ => 0, fun _ => false⟩

/-- No cache with a constructor keeps the guarantee: its first allocation does not, and neither does
any other in a run that has to create a slab. -/
theorem not_guaranteed {objectSize alignment : BitVec 32} {ctor : Addr → Nat → Nat}
    (hopen : simpleKmemCacheOpen objectSize alignment (some ctor) = some (.ok c)) :
    ¬ Guaranteed c ∧
      ∀ t, Reachable (step c) (fun t op => t.users.Ok c op ∧ t.users.ReleaseOk c op) Start t →
        ∀ pg rest, t.users.Ok c (.alloc (some pg :: rest) false) →
          newSlab t.users (.alloc (some pg :: rest) false) = some pg →
          ∃ r t', t.step c (.alloc (some pg :: rest) false) = some (r, t') ∧
            ¬ Constructed c t t' (.alloc (some pg :: rest) false) r := by
  have hg := geometry_of_open hopen
  have hctor : c.ctor = some ctor := by
    obtain ⟨-, -, -, rfl⟩ := (open_eq_ok_iff rfl).1 hopen
    rfl
  have key : ∀ t : Traced, InOrder c t.users.state t.users.live → ∀ pg rest,
      t.users.Ok c (.alloc (some pg :: rest) false) →
      newSlab t.users (.alloc (some pg :: rest) false) = some pg →
      ∃ r t', t.step c (.alloc (some pg :: rest) false) = some (r, t') ∧
        ¬ Constructed c t t' (.alloc (some pg :: rest) false) r := by
    intro t horder pg rest hok hnew
    obtain ⟨x, t', hstep, hx, hfresh, hmade⟩ := not_constructed hg hctor horder hok hnew
    refine ⟨_, t', hstep, fun h => ?_⟩
    have := (h hx hfresh).1
    omega
  refine ⟨fun hall => ?_, ?_⟩
  · obtain ⟨r, t', hstep, hnot⟩ := key empty (Users.inOrder_start Users.start_empty)
      ⟨1, decide (0 < c.order)⟩ [] ⟨fun _ _ _ => rfl, rfl⟩ rfl
    exact hnot (hall empty (.start Users.start_empty) _ r t' ⟨fun _ _ _ => rfl, rfl⟩ hstep)
  · intro t ht
    have hu : Reachable (Users.step c) (fun u op => u.Ok c op ∧ u.ReleaseOk c op) Users.Start
        t.users := reachable_users ht
    exact key t (Users.reachable_inOrder hg hu)

/-- The cache of four objects, with a constructor that writes 7. -/
def sevens : Cache := { Users.small with ctor := some fun _ _ => 7 }

/-- The constructor fills an object with sevens. -/
theorem not_guaranteed_sevens :
    ¬ Guaranteed sevens ∧
      ∀ t, Reachable (step sevens)
          (fun t op => t.users.Ok sevens op ∧ t.users.ReleaseOk sevens op) Start t →
        ∀ pg rest, t.users.Ok sevens (.alloc (some pg :: rest) false) →
          newSlab t.users (.alloc (some pg :: rest) false) = some pg →
          ∃ r t', t.step sevens (.alloc (some pg :: rest) false) = some (r, t') ∧
            ¬ Constructed sevens t t' (.alloc (some pg :: rest) false) r :=
  not_guaranteed (Users.open_small _)

/-- The second allocation gives an object that was constructed, but holds the free pointer instead
of what the constructor left. -/
theorem constructed_word_overwritten :
    ¬ Guaranteed sevens ∧ ∃ t r t',
      Reachable (step sevens) (fun t op => t.users.Ok sevens op) Start t ∧
      t.step sevens (.alloc [none] false) = some (r, t') ∧ r = .allocated (slot sevens 1 1) ∧
      t'.made (slot sevens 1 1) = 1 ∧ t'.left (slot sevens 1 1) = 7 ∧
      t'.users.state.word (slot sevens 1 1) = slot sevens 1 2 := by
  have hrun : ∃ t, Reachable (step sevens) (fun t op => t.users.Ok sevens op) Start t ∧
      ((t.setUp sevens (.alloc [none] false)).given (slot sevens 1 1) == false &&
        (t.step sevens (.alloc [none] false)).any fun p => p.1 == .allocated (slot sevens 1 1) &&
          (p.2.made (slot sevens 1 1), p.2.left (slot sevens 1 1),
            p.2.users.state.word (slot sevens 1 1)) == (1, 7, slot sevens 1 2)) = true :=
    Reachable.exists_of_run (s := empty) Users.start_empty [.alloc [some ⟨1, false⟩] false]
      (by decide +kernel)
  obtain ⟨t, ht, hlast⟩ := hrun
  obtain ⟨hfresh, hstep⟩ := Bool.and_eq_true_iff.1 hlast
  obtain ⟨⟨r, t'⟩, hstep, hfields⟩ := (any_eq_true _ _).1 hstep
  simp only [Bool.and_eq_true, beq_iff_eq, Prod.mk.injEq] at hfresh hfields
  obtain ⟨rfl, hmade, hleft, hword⟩ := hfields
  refine ⟨fun hall => ?_, t, _, t', ht, hstep, rfl, hmade, hleft, hword⟩
  have := (hall t ht (.alloc [none] false) _ t' trivial hstep slot_ne_zero hfresh).2
  rw [hleft, hword] at this
  exact absurd this (by decide)

end Traced

end MyOS2.Slub
