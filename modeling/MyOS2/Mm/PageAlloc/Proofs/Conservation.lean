import MyOS2.Mm.PageAlloc.Proofs.FreeLists
import MyOS2.Misc.Runs

/-!
# No page is given out twice and none is lost

The blocks on the free lists and the blocks handed out tile the pages that were
released to the allocator. Splitting a block cuts a tile in two, allocating and
freeing move a tile from one side to the other.
-/

namespace MyOS2.Buddy

open Function DoubleList Option List

/-- The frame lies in the block `(pfn, order)`. -/
def InBlock (f : Nat) (b : Nat × Nat) : Prop := b.1 ≤ f ∧ f < b.1 + 2 ^ b.2

theorem inBlock_self (pfn order : Nat) : InBlock pfn (pfn, order) := by
  have hpos := Nat.two_pow_pos order
  exact ⟨le_rfl, by simp only; omega⟩

/-! ## The free blocks -/

/-- The free lists of all zones. -/
def areas : List (ZoneType × Nat) :=
  [ZoneType.dma, .dma32, .normal, .movable, .device].flatMap fun zone =>
    (range nrPageOrders).map fun order => (zone, order)

def blocks (free : ZoneType × Nat → List Nat) : List (Nat × Nat) :=
  areas.flatMap fun i => (free i).map fun pfn => (pfn, i.2)

theorem areas_nodup : areas.Nodup := by decide

theorem mem_areas {i : ZoneType × Nat} (h : i.2 ≤ maxOrder) : i ∈ areas := by
  obtain ⟨zone, order⟩ := i
  have hlt : order < nrPageOrders := Nat.lt_succ_of_le h
  cases zone <;> simp [areas, hlt]

theorem blocks_cons (free : ZoneType × Nat → List Nat) {i : ZoneType × Nat} (hi : i.2 ≤ maxOrder)
    (pfn : Nat) :
    (blocks (update free i (pfn :: free i))).Perm ((pfn, i.2) :: blocks free) := by
  have hupdate : (fun j => (update free i (pfn :: free i) j).map fun p => (p, j.2)) =
      update (fun j => (free j).map fun p => (p, j.2)) i
        ((pfn, i.2) :: (free i).map fun p => (p, i.2)) := by
    funext j
    exact apply_update (fun (k : ZoneType × Nat) (l : List Nat) => l.map fun p => (p, k.2))
      free i (pfn :: free i) j
  rw [blocks, hupdate]
  exact flatMap_update_cons areas_nodup (mem_areas hi)

section

variable {free : ZoneType × Nat → List Nat} {i : ZoneType × Nat} (hi : i.2 ≤ maxOrder) {pfn : Nat}
include hi

theorem blocks_uncons {rest : List Nat} (hcons : free i = pfn :: rest) :
    (blocks free).Perm ((pfn, i.2) :: blocks (update free i rest)) := by
  have h := blocks_cons (update free i rest) hi pfn
  rwa [update_self, update_idem, ← hcons, update_eq_self] at h

theorem mem_blocks (hp : pfn ∈ free i) : (pfn, i.2) ∈ blocks free := by
  rw [blocks, mem_flatMap]
  exact ⟨i, mem_areas hi, mem_map_of_mem hp⟩

end

variable {n high pfn : Nat}

section spec

variable {s : State} {free : ZoneType × Nat → List Nat} {M : Nat → Prop} {zone : ZoneType}
  {pfn order low : Nat} {held : List (Nat × Nat)}

theorem Holds.unlisted (h : Holds s free) {b : Nat × Nat} {bs : List (Nat × Nat)}
    (ht : Tiles InBlock M (b :: bs)) (hbs : ∀ c ∈ blocks free, c ∈ bs) {f : Nat}
    (hf : InBlock f b) : Unlisted free f := by
  intro i hi
  have hmem := mem_blocks (h.placed i f hi).order_le hi
  exact ht.not_mem hf (hbs _ hmem) (inBlock_self f i.2)

/-! ## Splitting -/

theorem Placed.lower (h : Placed s.maxLowPfn zone pfn (order + 1)) :
    Placed s.maxLowPfn zone pfn order := by
  obtain ⟨hle, hdvd, start, spanned, hmem, hlo, hhi⟩ := h
  refine ⟨by omega, ?_, start, spanned, hmem, hlo, ?_⟩
  · exact (Nat.pow_dvd_pow 2 (Nat.le_succ order)).trans hdvd
  · omega

theorem Placed.upper (h : Placed s.maxLowPfn zone pfn (order + 1)) :
    Placed s.maxLowPfn zone (pfn + 2 ^ order) order := by
  have hlower := h.lower
  obtain ⟨-, -, start, spanned, hmem, hlo, hhi⟩ := h
  refine ⟨hlower.order_le, ?_, start, spanned, hmem, hlo.trans (Nat.le_add_right _ _), ?_⟩
  · exact (Nat.dvd_add_right hlower.aligned).2 (dvd_refl _)
  · omega

theorem tiles_halve {bs : List (Nat × Nat)} (ht : Tiles InBlock M ((pfn, order + 1) :: bs)) :
    Tiles InBlock M ((pfn, order) :: (pfn + 2 ^ order, order) :: bs) := by
  apply ht.split
  · intro f
    simp only [InBlock, pow_succ]
    omega
  · intro f
    simp only [InBlock]
    omega

theorem setBuddyOrder_addToFreeList (s : State) (pfn : Nat) (zone : ZoneType) (order : Nat) :
    (addToFreeList s pfn zone order).map (setBuddyOrder · pfn order) =
      addToFreeList (setBuddyOrder s pfn order) pfn zone order := by
  simp only [addToFreeList, setBuddyOrder, State.modifyPage]
  cases listHeaderAddToHead s.lists (.anchor zone order) (.page pfn) with
  | none => rfl
  | some lists => rfl

def halved (zone : ZoneType) (pfn low high : Nat) (free : ZoneType × Nat → List Nat)
    (i : ZoneType × Nat) : List Nat :=
  if i.1 = zone ∧ low ≤ i.2 ∧ i.2 < high then (pfn + 2 ^ i.2) :: free i else free i

theorem halved_of_le (h : high ≤ low) : halved zone pfn low high free = free := by
  funext i
  exact if_neg (by omega)

theorem halved_succ (h : low ≤ high) : halved zone pfn low high
        (update free (zone, high) ((pfn + 2 ^ high) :: free (zone, high))) =
      halved zone pfn low (high + 1) free := by
  funext i
  obtain ⟨z, c⟩ := i
  by_cases hi : (z, c) = (zone, high)
  · cases hi
    simp [halved, h]
  · have hne : z = zone → c ≠ high := fun hz hc => hi (by rw [hz, hc])
    simp only [halved, update_of_ne hi]
    congr 1
    exact propext (and_congr_right fun hz => and_congr_right fun _ => by have := hne hz; omega)

theorem Holds.expand (h : Holds s free) (hp : Placed s.maxLowPfn zone pfn high)
    (hlow : low ≤ high) (ht : Tiles InBlock M ((pfn, high) :: (blocks free ++ held))) :
    ∃ s', Buddy.expand zone pfn low high s = some s' ∧ s'.maxLowPfn = s.maxLowPfn ∧
      (∀ f, InBlock f (pfn, low) → SamePage f s s') ∧ Holds s' (halved zone pfn low high free) ∧ Placed s.maxLowPfn zone pfn low ∧
      Tiles InBlock M ((pfn, low) :: (blocks (halved zone pfn low high free) ++ held)) := by
  induction high generalizing s free with
  | zero =>
    obtain rfl := Nat.le_zero.1 hlow
    rw [halved_of_le le_rfl]
    exact ⟨s, rfl, rfl, fun _ _ => ⟨rfl, rfl⟩, h, hp, ht⟩
  | succ high ih =>
    rw [Buddy.expand]
    by_cases hlt : low < high + 1
    · rw [if_pos hlt]
      have hupper := hp.upper
      have hunlisted : Unlisted free (pfn + 2 ^ high) := by
        apply h.unlisted ht
        · intro c hc
          exact mem_append_left _ hc
        · have hpos := Nat.two_pow_pos high
          simp only [InBlock, pow_succ]
          omega
      have hinit : Holds { s with lists := initList s.lists (.page (pfn + 2 ^ high)) } free :=
        ⟨h.headed.initList hunlisted.off, h.placed, h.order, h.typed⟩
      obtain ⟨s₁, hqueue, hmax, hsame, hholds⟩ := hinit.queue hunlisted hupper
      rw [← setBuddyOrder_addToFreeList] at hqueue
      obtain ⟨s₀, hadd, rfl⟩ := map_eq_some_iff.1 hqueue
      have htiles : Tiles InBlock M ((pfn, high) ::
          (blocks (update free (zone, high) ((pfn + 2 ^ high) :: free (zone, high))) ++ held)) := by
        refine (tiles_halve ht).perm (List.Perm.cons _ ?_)
        exact (blocks_cons free (i := (zone, high)) hupper.order_le _).symm.append_right held
      obtain ⟨s', hexp, hmax', hsame', hholds', hplaced, htiles'⟩ :=
        ih hholds (hmax ▸ hp.lower) (by omega) htiles
      rw [halved_succ (by omega)] at hholds' htiles'
      refine ⟨s', ?_, hmax'.trans hmax, fun f hf => ?_, hholds', hmax ▸ hplaced, htiles'⟩
      · simp [hadd, hexp]
      · -- the upper half lies behind the block that is kept
        have hle : 2 ^ low ≤ 2 ^ high := Nat.pow_le_pow_right (by decide) (by omega)
        have hne : f ≠ pfn + 2 ^ high := by
          have := hf.2
          simp only at this
          omega
        have hother : SamePage f s { s with lists := initList s.lists (.page (pfn + 2 ^ high)) } :=
          ⟨rfl, by simp [initList, Links.join, hne]⟩
        exact (hother.trans (hsame f hne)).trans (hsame' f hf)
    · rw [if_neg hlt]
      obtain rfl : low = high + 1 := by omega
      rw [halved_of_le le_rfl]
      exact ⟨s, rfl, rfl, fun _ _ => ⟨rfl, rfl⟩, h, hp, ht⟩

/-! ## Allocating -/

def Serves (free : ZoneType × Nat → List Nat) (zone : ZoneType) (order : Nat) : Prop :=
  ∃ current, order ≤ current ∧ current ≤ maxOrder ∧ free (zone, current) ≠ []

def FirstServing (free : ZoneType × Nat → List Nat) (zones : List ZoneType) (order : Nat)
    (zone : ZoneType) : Prop :=
  ∃ before after, zones = before ++ zone :: after ∧ ∀ z ∈ before, ¬ Serves free z order

theorem FirstServing.mem {zones : List ZoneType} (h : FirstServing free zones order zone) :
    zone ∈ zones := by
  obtain ⟨before, after, rfl, -⟩ := h
  simp

/-- One block was taken: the state holds the others, the block lies in its zone, and together they
make up what they made up before. -/
structure Took (s : State) (M : Nat → Prop) (held : List (Nat × Nat)) (zone : ZoneType)
    (order pfn : Nat) (s' : State) (free' : ZoneType × Nat → List Nat) : Prop where
  maxLowPfn : s'.maxLowPfn = s.maxLowPfn
  holds : Holds s' free'
  placed : Placed s.maxLowPfn zone pfn order
  tiles : Tiles InBlock M ((pfn, order) :: (blocks free' ++ held))

/-- The block is the head of the first list of the zone that is not empty, from the order on; what
is left of it goes to the lists below. -/
def TakenFrom (free : ZoneType × Nat → List Nat) (zone : ZoneType) (order pfn : Nat)
    (free' : ZoneType × Nat → List Nat) : Prop :=
  ∃ current rest, (order ≤ current ∧ current ≤ maxOrder) ∧
    (∀ c, order ≤ c → c < current → free (zone, c) = []) ∧ free (zone, current) = pfn :: rest ∧
    free' = halved zone pfn order current (update free (zone, current) rest)

/-- What the pages of the block look like, compared with the state before. -/
structure Given (s s' : State) (pfn order : Nat) : Prop where
  pages : ∀ f, InBlock f (pfn, order) → (s'.pages f).flags = (s.pages f).flags ∧
    (s'.pages f).refcount = (s.pages f).refcount + 1
  head : s'.lists.next (.page pfn) = .node (.page pfn)
  tails : ∀ f, InBlock f (pfn, order) → f ≠ pfn →
    s'.lists.next (.page f) = s.lists.next (.page f)

section

variable (h : Holds s free)
include h

theorem Holds.rmqueueLoop_none {current : Nat}
    (hnil : ∀ c, current ≤ c → c < current + n → free (zone, c) = []) :
    rmqueueLoop zone order n current s = some (none, s) := by
  induction n generalizing current with
  | zero => rfl
  | succ n ih =>
    rw [rmqueueLoop, h.getPage_nil (hnil current le_rfl (by omega))]
    apply ih
    intro c h1 h2
    exact hnil c (by omega) (by omega)

theorem Holds.rmqueueSmallest_none (hnone : ¬ Serves free zone order) :
    rmqueueSmallest s zone order = some (none, s) := by
  apply h.rmqueueLoop_none
  intro c h1 h2
  by_contra hne
  refine hnone ⟨c, h1, ?_, hne⟩
  unfold nrPageOrders at h2
  omega

theorem Holds.rmqueueLoop_some (ht : Tiles InBlock M (blocks free ++ held))
    {current : Nat} (hle : order ≤ current) (hn : current + n = nrPageOrders)
    (hbelow : ∀ c, order ≤ c → c < current → free (zone, c) = [])
    (hserves : ∃ c, current ≤ c ∧ c < current + n ∧ free (zone, c) ≠ []) :
    ∃ pfn s' free', rmqueueLoop zone order n current s = some (some pfn, s') ∧
      (TakenFrom free zone order pfn free' ∧ Given s s' pfn order) ∧
      Took s M held zone order pfn s' free' := by
  induction n generalizing current with
  | zero =>
    omega
  | succ n ih =>
    rw [rmqueueLoop]
    cases hfree : free (zone, current) with
    | nil =>
      rw [h.getPage_nil hfree]
      apply ih (by omega) (by omega)
      · intro c h1 h2
        rcases Nat.lt_succ_iff_lt_or_eq.1 h2 with h2 | rfl
        · exact hbelow c h1 h2
        · exact hfree
      · obtain ⟨c, h1, h2, h3⟩ := hserves
        refine ⟨c, Nat.lt_of_le_of_ne h1 ?_, by omega, h3⟩
        rintro rfl
        exact h3 hfree
    | cons pfn rest =>
      have hcur : current ≤ maxOrder := by
        unfold nrPageOrders at hn
        omega
      have hplaced := h.placed (zone, current) pfn (by simp [hfree])
      obtain ⟨lists, hget, ⟨hself, hothers⟩, hholds₁⟩ := h.getPage_cons hfree
      have hunlisted := h.unlisted_of_cons hfree
      obtain ⟨hdel, hholds₂⟩ := hholds₁.delPage hunlisted zone current
      have htiles : Tiles InBlock M ((pfn, current) ::
          (blocks (update free (zone, current) rest) ++ held)) := by
        refine ht.perm ?_
        exact (blocks_uncons (i := (zone, current)) hcur hfree).append_right held
      obtain ⟨s₃, hexp, hmax, hsame, hholds₃, hplaced₃, htiles₃⟩ :=
        hholds₂.expand hplaced hle htiles
      have hin : ∀ f, InBlock f (pfn, order) → InBlock f (pfn, current) := fun f hf =>
        ⟨hf.1, hf.2.trans_le (Nat.add_le_add_left (Nat.pow_le_pow_right (by decide) hle) _)⟩
      refine ⟨pfn, State.modifyPages (fun p => { p with refcount := p.refcount + 1 }) (2 ^ order) pfn s₃,
        _, ?_, ⟨⟨current, rest, ⟨hle, hcur⟩, hbelow, hfree, rfl⟩, ?_, ?_, ?_⟩,
        ?_, hholds₃.modifyPages ?_ _ _, hplaced₃, htiles₃⟩
      · simp [hget, hdel, hexp]
      · intro f hf
        rw [State.modifyPages_pages, if_pos (show pfn ≤ f ∧ f < pfn + 2 ^ order from hf),
          (hsame f hf).1]
        by_cases hfp : f = pfn
        · subst hfp
          simp [State.modifyPage, clearPageBuddy]
        · simp [State.modifyPage, hfp]
      · rw [State.modifyPages_lists, (hsame pfn (inBlock_self pfn order)).2]
        exact hself
      · intro f hf hne
        rw [State.modifyPages_lists, (hsame f hf).2]
        refine hothers f fun i hi => ?_
        refine hholds₁.unlisted htiles (fun c hc => mem_append_left _ hc) (hin f hf) i ?_
        by_cases hic : i = (zone, current)
        · subst hic
          rw [hfree] at hi
          rw [update_self]
          exact (mem_cons.1 hi).resolve_left hne
        · rwa [update_of_ne hic]
      · rw [State.modifyPages_maxLowPfn]
        exact hmax
      · intro p
        exact ⟨rfl, rfl⟩

theorem Holds.prepTails (head : Nat) (hunlisted : ∀ f, pfn ≤ f → f < pfn + n → Unlisted free f) :
    Holds (Buddy.prepTails head n pfn s) free ∧
      (Buddy.prepTails head n pfn s).maxLowPfn = s.maxLowPfn := by
  induction n generalizing s pfn with
  | zero => exact ⟨h, rfl⟩
  | succ n ih =>
    have hu := hunlisted pfn le_rfl (by omega)
    have htail : Holds (prepCompoundTail s head pfn) free := by
      apply Holds.modifyPage
      · exact ⟨h.headed.setNext hu.off _, h.placed, h.order, h.typed⟩
      · exact h.typed pfn
      · intro i hi
        exact absurd hi (hu i)
    have hrest : ∀ f, pfn + 1 ≤ f → f < pfn + 1 + n → Unlisted free f := by
      intro f h1 h2
      exact hunlisted f (by omega) (by omega)
    exact ih htail hrest

theorem Holds.prepNewPage (hunlisted : ∀ f, InBlock f (pfn, order) → Unlisted free f) (gfp : Nat) :
    Holds (Buddy.prepNewPage s pfn order gfp) free ∧
      (Buddy.prepNewPage s pfn order gfp).maxLowPfn = s.maxLowPfn := by
  rw [Buddy.prepNewPage]
  split
  · have hflags : Holds (s.modifyPage pfn fun p =>
        { p with flags := p.flags ||| BitVec.twoPow 64 pgHead }) free :=
      h.modifyPages (f := fun p => { p with flags := p.flags ||| BitVec.twoPow 64 pgHead })
        (fun p => ⟨rfl, rfl⟩) 1 pfn
    have hrest : ∀ f, pfn + 1 ≤ f → f < pfn + 1 + (2 ^ order - 1) → Unlisted free f := by
      intro f h1 h2
      exact hunlisted f ⟨by simp only; omega, by simp only; omega⟩
    obtain ⟨hholds, hmax⟩ := hflags.prepTails pfn hrest
    refine ⟨?_, hmax⟩
    exact hholds.modifyPages (f := fun p =>
      { p with flags := (p.flags &&& ~~~BitVec.ofNat 64 0xff) ||| BitVec.ofNat 64 order })
      (fun p => ⟨rfl, rfl⟩) 1 (pfn + 1)
  · exact ⟨h, rfl⟩

/-- A request that no zone from index `i` on serves runs off the table. -/
theorem Holds.allocLoop_none (gfp : Nat) {i : Nat} (hn : i + n = nrZones)
    (hi : i ≤ preferedZoneList.length)
    (hnone : ∀ zone ∈ preferedZoneList.drop i, ¬ Serves free zone order) :
    allocLoop gfp order n i s = none := by
  induction n generalizing i with
  | zero =>
    have : preferedZoneList.length = 3 := rfl
    unfold nrZones at hn
    omega
  | succ n ih =>
    rw [allocLoop]
    cases hzone : preferedZoneList[i]? with
    | none => rfl
    | some zone =>
      have hlt := (List.getElem?_eq_some_iff.1 hzone).1
      have hdrop : preferedZoneList.drop i = zone :: preferedZoneList.drop (i + 1) := by
        rw [List.drop_eq_getElem_cons hlt, (List.getElem?_eq_some_iff.1 hzone).2]
      rw [hdrop, forall_mem_cons] at hnone
      simp only [bind_eq_bind, bind_some, h.rmqueueSmallest_none hnone.1]
      exact ih (by omega) hlt hnone.2

theorem Holds.allocLoop_some (ht : Tiles InBlock M (blocks free ++ held))
    (horder : order ≤ maxOrder) (gfp : Nat) {i : Nat} (hn : i + n = nrZones)
    (hserves : ∃ zone ∈ preferedZoneList.drop i, Serves free zone order) :
    ∃ zone pfn s₁ free', FirstServing free (preferedZoneList.drop i) order zone ∧
      allocLoop gfp order n i s = some (some pfn, Buddy.prepNewPage s₁ pfn order gfp) ∧
      (TakenFrom free zone order pfn free' ∧ Given s s₁ pfn order) ∧
      Took s M held zone order pfn (Buddy.prepNewPage s₁ pfn order gfp) free' := by
  induction n generalizing i with
  | zero =>
    obtain ⟨zone, hzone, -⟩ := hserves
    have : preferedZoneList.drop i = [] := by
      apply drop_eq_nil_of_le
      have : preferedZoneList.length = 3 := rfl
      unfold nrZones at hn
      omega
    rw [this] at hzone
    cases hzone
  | succ n ih =>
    obtain ⟨zone, hzone, hserve⟩ := hserves
    have hlt : i < preferedZoneList.length := by
      by_contra hge
      rw [drop_eq_nil_of_le (Nat.le_of_not_lt hge)] at hzone
      cases hzone
    have hget : preferedZoneList[i]? = some preferedZoneList[i] := getElem?_eq_getElem hlt
    rw [drop_eq_getElem_cons hlt] at hzone ⊢
    rw [allocLoop, hget]
    generalize preferedZoneList[i] = first at hzone ⊢
    by_cases hfirst : Serves free first order
    · obtain ⟨c, h1, h2, h3⟩ := hfirst
      have hlast : order + (nrPageOrders - order) = nrPageOrders := by unfold nrPageOrders; omega
      obtain ⟨pfn, s', free', hrm, htaken, htook⟩ := h.rmqueueLoop_some ht (Nat.le_refl order) hlast
        (fun c h1 h2 => by omega) ⟨c, h1, by unfold nrPageOrders; omega, h3⟩
      have hunlisted : ∀ f, InBlock f (pfn, order) → Unlisted free' f := fun f hf =>
        htook.holds.unlisted htook.tiles (fun c hc => mem_append_left _ hc) hf
      obtain ⟨hprep, hmax⟩ := htook.holds.prepNewPage hunlisted gfp
      refine ⟨first, pfn, _, free', ⟨[], _, rfl, by simp⟩, ?_, htaken, hmax.trans htook.maxLowPfn, hprep,
        htook.placed, htook.tiles⟩
      simp [rmqueueSmallest, hrm]
    · simp only [bind_eq_bind, bind_some, h.rmqueueSmallest_none hfirst]
      obtain ⟨zone', pfn, s₁, free', ⟨before, after, hzones, hbefore⟩, hrest⟩ := ih (by omega)
        ⟨zone, (mem_cons.1 hzone).resolve_left fun he => hfirst (he ▸ hserve), hserve⟩
      refine ⟨zone', pfn, s₁, free', ⟨first :: before, after, ?_, ?_⟩, hrest⟩
      · rw [hzones, cons_append]
      · exact forall_mem_cons.2 ⟨hfirst, hbefore⟩

/-! ## Freeing -/

theorem Holds.mergeBuddies (n pfn order : Nat) :
    Buddy.mergeBuddies s n pfn order = some (pfn, order) := by
  cases n with
  | zero => rfl
  | succ n =>
    have hbuddy := pageBuddy_eq_false (h.typed (findBuddyPfn pfn order))
    simp [Buddy.mergeBuddies, pageIsBuddy, hbuddy]

section

variable (horder : order ≤ maxOrder) (hdvd : 2 ^ order ∣ pfn) (hlo : 1 ≤ pfn)
  (hhi : pfn + 2 ^ order ≤ s.maxLowPfn) (hu : Unlisted free pfn)
include horder hdvd hlo hhi hu

theorem Holds.freePagesOk : ∃ zone s', myosPageZone s.maxLowPfn pfn = some zone ∧
      Buddy.freePagesOk s pfn order = some s' ∧ s'.maxLowPfn = s.maxLowPfn ∧
      Holds s' (update free (zone, order) (pfn :: free (zone, order))) := by
  obtain ⟨zone, hzone, hplaced⟩ := exists_zone horder hdvd hlo hhi
  have hprep : Holds (freePagesPrepare s pfn) free :=
    h.modifyPages (f := fun p => { p with flags := p.flags &&& ~~~pageFlagsCheckAtPrep })
      (fun p => ⟨rfl, rfl⟩) 1 pfn
  obtain ⟨s', hqueue, hmax, -, hholds⟩ := hprep.queue hu hplaced
  refine ⟨zone, s', hzone, ?_, hmax, hholds⟩
  simp [Buddy.freePagesOk, hzone, myosFreeOnePage, hprep.mergeBuddies, hqueue]

theorem Holds.memblockFreePages : ∃ zone s', myosPageZone s.maxLowPfn pfn = some zone ∧
      Buddy.memblockFreePages s pfn order = some s' ∧ s'.maxLowPfn = s.maxLowPfn ∧
      Holds s' (update free (zone, order) (pfn :: free (zone, order))) := by
  obtain ⟨zone, hzone, -⟩ := exists_zone horder hdvd hlo hhi
  have hclear := h.modifyPages (f := fun p =>
    { p with flags := p.flags &&& ~~~BitVec.twoPow 64 pgReserved, refcount := 0 })
    (fun p => ⟨rfl, rfl⟩) (2 ^ order) pfn
  have hmax := State.modifyPages_maxLowPfn (fun p =>
    { p with flags := p.flags &&& ~~~BitVec.twoPow 64 pgReserved, refcount := 0 })
    (2 ^ order) pfn s
  rw [Buddy.memblockFreePages]
  generalize State.modifyPages (fun p =>
    { p with flags := p.flags &&& ~~~BitVec.twoPow 64 pgReserved, refcount := 0 })
    (2 ^ order) pfn s = s₁ at hclear hmax ⊢
  simp only [hmax, hzone, bind_eq_bind, bind_some]
  rw [← hmax] at hhi hzone ⊢
  generalize update s₁.managedPages zone (s₁.managedPages zone + 2 ^ order) = managed
  have hmanaged : Holds { s₁ with managedPages := managed } free :=
    ⟨hclear.headed, hclear.placed, hclear.order, hclear.typed⟩
  rw [← hzone]
  exact hmanaged.freePagesOk horder hdvd hlo hhi hu

end

end

end spec

/-! ## Runs -/

/-- The allocator together with the blocks handed out and the blocks released to it. -/
structure AllocRun where
  st : State
  held : List (Nat × Nat)
  managed : List (Nat × Nat)

/-- The calls: `memblock_free_pages`, `__myos_alloc_pages` and `__free_pages`. -/
inductive Op
  | release (pfn order : Nat)
  | alloc (gfp order : Nat)
  | free (pfn order : Nat)

variable {order : Nat}

namespace AllocRun

def step (r : AllocRun) : Op → Option (Option Nat × AllocRun)
  | .release pfn order => do
    let st ← memblockFreePages r.st pfn order
    some (none, { r with st := st, managed := (pfn, order) :: r.managed })
  | .alloc gfp order => do
    let (page, st) ← myosAllocPages r.st gfp order
    match page with
    | some pfn => some (some pfn, { r with st := st, held := (pfn, order) :: r.held })
    | none => some (none, { r with st := st })
  | .free pfn order => do
    let st ← freePages r.st pfn order
    some (none, { r with st := st, held := r.held.erase (pfn, order) })

def Start (r : AllocRun) : Prop :=
  ∃ maxLowPfn flags, r = { st := State.init maxLowPfn flags, held := [], managed := [] }

/-- What is released is a naturally aligned block of frames that have a page, and new; what is freed
was allocated, with its order. -/
def Ok (r : AllocRun) : Op → Prop
  | .release pfn order =>
    order ≤ maxOrder ∧ 2 ^ order ∣ pfn ∧ (1 ≤ pfn ∧ pfn + 2 ^ order ≤ r.st.maxLowPfn) ∧
      ∀ b ∈ r.managed, ∀ f, InBlock f (pfn, order) → ¬ InBlock f b
  | .alloc _ _ => True
  | .free pfn order => (pfn, order) ∈ r.held

theorem apart_iff {b c : Nat × Nat} :
    (∀ f, InBlock f b → ¬ InBlock f c) ↔ b.1 + 2 ^ b.2 ≤ c.1 ∨ c.1 + 2 ^ c.2 ≤ b.1 := by
  have hb := Nat.two_pow_pos b.2
  have hc := Nat.two_pow_pos c.2
  constructor
  · intro h
    by_contra hmeet
    exact h (max b.1 c.1) ⟨by omega, by omega⟩ ⟨by omega, by omega⟩
  · rintro h f ⟨h1, h2⟩ ⟨h3, h4⟩
    omega

instance (r : AllocRun) : (op : Op) → Decidable (r.Ok op)
  | .release pfn order =>
    decidable_of_iff (order ≤ maxOrder ∧ 2 ^ order ∣ pfn ∧
        (1 ≤ pfn ∧ pfn + 2 ^ order ≤ r.st.maxLowPfn) ∧
        ∀ b ∈ r.managed, pfn + 2 ^ order ≤ b.1 ∨ b.1 + 2 ^ b.2 ≤ pfn)
      (by simp only [Ok, apart_iff])
  | .alloc _ _ => .isTrue trivial
  | .free pfn order => inferInstanceAs (Decidable ((pfn, order) ∈ r.held))

def freeList (r : AllocRun) (zone : ZoneType) (order : Nat) : List Nat :=
  (r.st.lists.walk (.anchor zone order) r.st.nodeBound (.anchor zone order)).filterMap
    fun | .page pfn => some pfn
        | .anchor _ _ => none

/-- Two blocks share no frame. -/
def Apart (b c : Nat × Nat) : Prop := ∀ f, InBlock f b → ¬ InBlock f c

/-- Every page released is in exactly one block, free or handed out. -/
structure Conserved (r : AllocRun) : Prop where
  held : r.held.Pairwise Apart
  heldFree : ∀ b ∈ r.held, ∀ zone order, ∀ pfn ∈ r.freeList zone order, Apart b (pfn, order)
  free : ∀ zone order zone' order', ∀ pfn ∈ r.freeList zone order,
    ∀ pfn' ∈ r.freeList zone' order',
      (zone, order, pfn) ≠ (zone', order', pfn') → Apart (pfn, order) (pfn', order')
  once : ∀ zone order, (r.freeList zone order).Nodup
  accounted : ∀ f, (∃ b ∈ r.managed, InBlock f b) ↔
    (∃ zone order, ∃ pfn ∈ r.freeList zone order, InBlock f (pfn, order)) ∨
      ∃ b ∈ r.held, InBlock f b

/-- Free and held blocks tile the managed frames. -/
structure InvWith (r : AllocRun) (free : ZoneType × Nat → List Nat) : Prop where
  holds : Holds r.st free
  tiles : Tiles InBlock (fun f => ∃ b ∈ r.managed, InBlock f b) (blocks free ++ r.held)
  legal : ∀ b ∈ r.held, ∃ zone, Placed r.st.maxLowPfn zone b.1 b.2

def Inv (r : AllocRun) : Prop := ∃ free, r.InvWith free

variable {r : AllocRun} {free : ZoneType × Nat → List Nat}

theorem freeList_eq (h : Holds r.st free) (zone : ZoneType) (order : Nat) :
    r.freeList zone order = free (zone, order) := by
  have hwalk := (h.headed.rings.linked (zone, order)).walk
    (nodup_cons.1 (h.headed.rings.nodup (zone, order))).1 (h.length_lt (zone, order))
  simp only [area] at hwalk
  rw [freeList, hwalk, nodes, filterMap_map]
  exact filterMap_some

theorem InvWith.conserved (h : r.InvWith free) : r.Conserved := by
  have hsymm : ∀ b c, Apart b c → Apart c b := fun b c hbc f hc hb => hbc f hb hc
  obtain ⟨hfree, hheld, hcross⟩ := pairwise_append.1 h.tiles.apart
  have hareas := pairwise_flatMap.1 hfree
  have hmem : ∀ zone order, ∀ pfn ∈ free (zone, order), (pfn, order) ∈ blocks free := fun zone order pfn hp =>
    mem_blocks (i := (zone, order)) (h.holds.placed _ pfn hp).order_le hp
  refine ⟨hheld, ?_, ?_, ?_, ?_⟩
  · intro b hb zone order pfn hp
    rw [freeList_eq h.holds] at hp
    exact hsymm _ _ (hcross _ (hmem zone order pfn hp) b hb)
  · intro zone order zone' order' pfn hp pfn' hp' hne
    rw [freeList_eq h.holds] at hp hp'
    have hi := mem_areas (i := (zone, order)) (h.holds.placed _ pfn hp).order_le
    have hi' := mem_areas (i := (zone', order')) (h.holds.placed _ pfn' hp').order_le
    by_cases hij : (zone, order) = (zone', order')
    · cases hij
      have hpair := pairwise_map.1 (hareas.1 _ hi)
      have hpne : pfn ≠ pfn' := by
        rintro rfl
        exact hne rfl
      have hall := forall_of_pairwise hpair (fun p q => hsymm (p, order) (q, order)) hp hp' hpne
      exact hall
    · refine forall_of_pairwise hareas.2 ?_ hi hi' hij (pfn, order) (mem_map_of_mem hp)
        (pfn', order') (mem_map_of_mem hp')
      intro i j hall x hx y hy
      exact hsymm _ _ (hall y hy x hx)
  · intro zone order
    rw [freeList_eq h.holds]
    exact h.holds.nodup _
  · intro f
    rw [← h.tiles.covers f]
    simp only [mem_append, or_and_right, exists_or]
    refine or_congr_left ?_
    constructor
    · rintro ⟨b, hb, hf⟩
      obtain ⟨i, -, hb⟩ := mem_flatMap.1 hb
      obtain ⟨pfn, hp, rfl⟩ := mem_map.1 hb
      refine ⟨i.1, i.2, pfn, ?_, hf⟩
      rw [freeList_eq h.holds]
      exact hp
    · rintro ⟨zone, order, pfn, hp, hf⟩
      rw [freeList_eq h.holds] at hp
      exact ⟨(pfn, order), hmem zone order pfn hp, hf⟩

theorem InvWith.start (maxLowPfn : Nat) (flags : Nat → BitVec 64) :
    InvWith { st := State.init maxLowPfn flags, held := [], managed := [] } fun _ => [] := by
  refine ⟨⟨⟨⟨?_, ?_, ?_⟩, fun i => rfl⟩, by simp, by simp, ?_⟩, ?_, by simp⟩
  · intro i
    exact ⟨rfl, rfl⟩
  · intro i
    simp [nodes]
  · intro i j hij n hn hn'
    simp only [nodes, map_nil, mem_singleton, area] at hn hn'
    rw [hn, Node.anchor.injEq] at hn'
    exact hij (Prod.ext hn'.1 hn'.2)
  · intro pfn
    exact BitVec.zero_and
  · have hnil : blocks (fun _ => []) = [] := by simp [blocks]
    rw [hnil]
    exact ⟨by simp, by simp⟩

def Moves (r : AllocRun) (free : ZoneType × Nat → List Nat) (page : Option Nat) (r' : AllocRun)
    (free' : ZoneType × Nat → List Nat) : Op → Prop
  | .release pfn order | .free pfn order =>
    ∃ zone, myosPageZone r.st.maxLowPfn pfn = some zone ∧
      free' = update free (zone, order) (pfn :: free (zone, order))
  | .alloc gfp order =>
    (maxOrder < order ∧ page = none ∧ r' = r ∧ free' = free) ∨
    ∃ zone pfn s₁, page = some pfn ∧
      FirstServing free (preferedZoneList.drop (startPreferedIdx gfp)) order zone ∧
      TakenFrom free zone order pfn free' ∧ Placed r.st.maxLowPfn zone pfn order ∧
      Given r.st s₁ pfn order ∧ r'.st = prepNewPage s₁ pfn order gfp

theorem InvWith.unlisted (h : r.InvWith free)
    (hnew : ∀ b ∈ r.managed, ∀ f, InBlock f (pfn, order) → ¬ InBlock f b) : Unlisted free pfn := by
  intro i hi
  have hmem := mem_blocks (h.holds.placed i pfn hi).order_le hi
  obtain ⟨b, hb, hin⟩ := (h.tiles.covers pfn).1 ⟨_, mem_append_left _ hmem, inBlock_self pfn i.2⟩
  exact hnew b hb pfn (inBlock_self pfn order) hin

theorem InvWith.release (h : r.InvWith free) (hok : r.Ok (.release pfn order)) :
    ∃ r' free', r.step (.release pfn order) = some (none, r') ∧ r'.InvWith free' ∧
      r.Moves free none r' free' (.release pfn order) := by
  obtain ⟨horder, hdvd, ⟨hlo, hhi⟩, hnew⟩ := hok
  obtain ⟨zone, s', hzone, hfree, hmax, hholds⟩ :=
    h.holds.memblockFreePages horder hdvd hlo hhi (h.unlisted hnew)
  refine ⟨{ r with st := s', managed := (pfn, order) :: r.managed }, _, ?_, ⟨hholds, ?_, ?_⟩,
    zone, hzone, rfl⟩
  · simp only [step, hfree, bind_eq_bind, bind_some]
  · have htiles := h.tiles.insert (b := (pfn, order)) fun f hf => by
      rintro ⟨b, hb, hin⟩
      exact hnew b hb f hf hin
    have hperm := (blocks_cons free (i := (zone, order)) horder pfn).symm.append_right r.held
    rw [cons_append] at hperm
    refine ⟨(htiles.perm hperm).apart, ?_⟩
    intro f
    rw [(htiles.perm hperm).covers f]
    simp only [mem_cons, exists_eq_or_imp]
  · intro b hb
    obtain ⟨zone, hplaced⟩ := h.legal b hb
    exact ⟨zone, hmax ▸ hplaced⟩

theorem InvWith.free_ (h : r.InvWith free) (hok : r.Ok (.free pfn order)) :
    ∃ r' free', r.step (.free pfn order) = some (none, r') ∧ r'.InvWith free' ∧
      r.Moves free none r' free' (.free pfn order) := by
  obtain ⟨zone₀, hplaced⟩ := h.legal _ hok
  obtain ⟨hlo, hhi⟩ := hplaced.bounds
  have hperm : (blocks free ++ r.held).Perm
      ((pfn, order) :: (blocks free ++ r.held.erase (pfn, order))) :=
    ((perm_cons_erase hok).append_left _).trans perm_middle
  have htiles := h.tiles.perm hperm
  have hunlisted : Unlisted free pfn := h.holds.unlisted htiles
    (fun c hc => mem_append_left _ hc) (inBlock_self pfn order)
  obtain ⟨zone, s', hzone, hfree, hmax, hholds⟩ :=
    h.holds.freePagesOk hplaced.order_le hplaced.aligned hlo hhi hunlisted
  refine ⟨{ r with st := s', held := r.held.erase (pfn, order) }, _, ?_, ⟨hholds, ?_, ?_⟩,
    zone, hzone, rfl⟩
  · simp only [step, freePages, hfree, bind_eq_bind, bind_some]
  · refine htiles.perm ?_
    rw [← cons_append]
    exact (blocks_cons free (i := (zone, order)) hplaced.order_le pfn).symm.append_right _
  · intro b hb
    obtain ⟨zone, hplaced⟩ := h.legal b (mem_of_mem_erase hb)
    exact ⟨zone, hmax ▸ hplaced⟩

/-- One of the zones the request tries can serve it, or it is refused at once. -/
def Served (r : AllocRun) : Op → Prop
  | .alloc gfp order =>
    maxOrder < order ∨ ∃ zone ∈ preferedZoneList.drop (startPreferedIdx gfp),
      ∃ current, order ≤ current ∧ current ≤ maxOrder ∧ r.freeList zone current ≠ []
  | .release _ _ | .free _ _ => True

theorem startPreferedIdx_le (gfp : Nat) : startPreferedIdx gfp ≤ 2 := by
  unfold startPreferedIdx
  split
  · exact le_rfl
  · split <;> omega

section

variable (h : r.InvWith free)
include h

theorem InvWith.alloc {gfp : Nat} (hserved : r.Served (.alloc gfp order)) :
    ∃ page r' free', r.step (.alloc gfp order) = some (page, r') ∧ r'.InvWith free' ∧
      r.Moves free page r' free' (.alloc gfp order) := by
  have hidx := startPreferedIdx_le gfp
  by_cases hbig : maxOrder < order
  · refine ⟨none, r, free, ?_, h, .inl ⟨hbig, rfl, rfl, rfl⟩⟩
    simp only [step, myosAllocPages, hbig, if_true, bind_eq_bind, bind_some]
  · obtain ⟨zone, hzone, c, h1, h2, h3⟩ := hserved.resolve_left hbig
    rw [freeList_eq h.holds] at h3
    obtain ⟨zone', pfn, s₁, free', hfirst, halloc, ⟨htaken, hgiven⟩, htook⟩ :=
      h.holds.allocLoop_some h.tiles (Nat.le_of_not_lt hbig) gfp
        (n := nrZones - startPreferedIdx gfp) (i := startPreferedIdx gfp)
        (by unfold nrZones; omega) ⟨zone, hzone, c, h1, h2, h3⟩
    refine ⟨some pfn, { r with st := Buddy.prepNewPage s₁ pfn order gfp, held := (pfn, order) :: r.held },
      free', ?_, ⟨htook.holds, htook.tiles.perm perm_middle.symm, ?_⟩,
      .inr ⟨zone', pfn, s₁, rfl, hfirst, htaken, htook.placed, hgiven, rfl⟩⟩
    · simp only [step, myosAllocPages, hbig, if_false, halloc, bind_eq_bind,
        bind_some]
    · refine forall_mem_cons.2 ⟨⟨zone', ?_⟩, ?_⟩
      · rw [htook.maxLowPfn]
        exact htook.placed
      · intro b hb
        rw [htook.maxLowPfn]
        exact h.legal b hb

theorem InvWith.step_eq_none {op : Op} (hserved : ¬ r.Served op) : r.step op = none := by
  cases op with
  | release pfn order => exact absurd trivial hserved
  | free pfn order => exact absurd trivial hserved
  | alloc gfp order =>
    have hidx := startPreferedIdx_le gfp
    simp only [Served, not_or] at hserved
    have hunserved : ∀ zone ∈ preferedZoneList.drop (startPreferedIdx gfp),
        ¬ Serves free zone order := by
      rintro zone hzone ⟨c, h1, h2, h3⟩
      apply hserved.2
      refine ⟨zone, hzone, c, h1, h2, ?_⟩
      rwa [freeList_eq h.holds]
    have hzones : startPreferedIdx gfp + (nrZones - startPreferedIdx gfp) = nrZones := by
      unfold nrZones
      omega
    have hlen : startPreferedIdx gfp ≤ preferedZoneList.length := by
      have : preferedZoneList.length = 3 := rfl
      omega
    have hnone := h.holds.allocLoop_none gfp hzones hlen hunserved
    simp only [step, myosAllocPages, hserved.1, if_false, hnone, bind_eq_bind, bind_none]

theorem InvWith.step {op : Op} (hok : r.Ok op) (hserved : r.Served op) :
    ∃ page r' free', r.step op = some (page, r') ∧ r'.InvWith free' ∧
      r.Moves free page r' free' op := by
  cases op with
  | release pfn order => exact ⟨none, h.release hok⟩
  | alloc gfp order => exact h.alloc hserved
  | free pfn order => exact ⟨none, h.free_ hok⟩

theorem InvWith.moves {op : Op} (hok : r.Ok op) {page : Option Nat}
    {r' : AllocRun} (hstep : r.step op = some (page, r')) :
    ∃ free', r'.InvWith free' ∧ r.Moves free page r' free' op := by
  by_cases hserved : r.Served op
  · obtain ⟨page', r'', free', hstep', hinv', hmoves⟩ := h.step hok hserved
    rw [hstep'] at hstep
    cases hstep
    exact ⟨free', hinv', hmoves⟩
  · rw [h.step_eq_none hserved] at hstep
    cases hstep

end

theorem reachable_inv (h : Reachable AllocRun.step AllocRun.Ok AllocRun.Start r) : r.Inv := by
  apply h.invariant
  · rintro r ⟨maxLowPfn, flags, rfl⟩
    exact ⟨_, InvWith.start maxLowPfn flags⟩
  · rintro r op page r' ⟨free, hinv⟩ hok hstep
    obtain ⟨free', hinv', -⟩ := hinv.moves hok hstep
    exact ⟨free', hinv'⟩

/-- In every state of every run no page is given out twice and none is lost, and the next call
returns and keeps it so exactly when it is served. -/
theorem conserved_iff_served (h : Reachable AllocRun.step AllocRun.Ok AllocRun.Start r) :
    r.Conserved ∧ ∀ op, r.Ok op →
      ((∃ page r', r.step op = some (page, r') ∧ r'.Conserved) ↔ r.Served op) := by
  obtain ⟨free, hinv⟩ := reachable_inv h
  refine ⟨hinv.conserved, fun op hok => ⟨?_, fun hserved => ?_⟩⟩
  · rintro ⟨page, r', hstep, -⟩
    by_contra hserved
    rw [hinv.step_eq_none hserved] at hstep
    cases hstep
  · obtain ⟨page, r', free', hstep, hinv', -⟩ := hinv.step hok hserved
    exact ⟨page, r', hstep, hinv'.conserved⟩

def empty64 : AllocRun := { st := State.init 64 fun _ => 0, held := [], managed := [] }

theorem empty64_start : empty64.Start := ⟨64, fun _ => 0, rfl⟩

/-- A block of two pages was released and split for one of them; the other serves the next request.
-/
theorem conserved_iff_served_split : ∃ r, Reachable AllocRun.step AllocRun.Ok AllocRun.Start r ∧
    (r.held, r.managed, r.freeList .dma 0) = ([(8, 0)], [(8, 1)], [9]) ∧ r.Conserved ∧
      ∃ page r', r.step (.alloc 0 0) = some (page, r') ∧ r'.Conserved := by
  have hrun : ∃ r, Reachable AllocRun.step AllocRun.Ok AllocRun.Start r ∧
      decide ((r.held, r.managed, r.freeList .dma 0) = ([(8, 0)], [(8, 1)], [9])) = true :=
    Reachable.exists_of_run empty64_start [.release 8 1, .alloc 0 0] (by decide +kernel)
  obtain ⟨r, hr, heq⟩ := hrun
  have heq := of_decide_eq_true heq
  have hfree : r.freeList .dma 0 = [9] := congrArg (·.2.2) heq
  have hserved : r.Served (.alloc 0 0) :=
    .inr ⟨.dma, by decide, 0, le_rfl, Nat.zero_le _, by simp [hfree]⟩
  obtain ⟨hconserved, hnext⟩ := conserved_iff_served hr
  exact ⟨r, hr, heq, hconserved, (hnext (.alloc 0 0) trivial).2 hserved⟩

/-- The second request for the only page does not return: the table of zones has three entries, and
the loop goes on to the fourth. -/
theorem exhausted_alloc_undefined :
    empty64.Ok (.release 8 0) ∧
    ∃ r₁ r₂, empty64.step (.release 8 0) = some (none, r₁) ∧
      r₁.step (.alloc 0 0) = some (some 8, r₂) ∧ r₂.Ok (.alloc 0 0) ∧
      r₂.step (.alloc 0 0) = none := by
  refine ⟨⟨by decide, by decide, by decide, by simp [empty64]⟩, ?_⟩
  have hrun : ((empty64.step (.release 8 0)).bind fun p₁ =>
      (p₁.2.step (.alloc 0 0)).map fun p₂ =>
        (p₁.1, p₂.1, (p₂.2.step (.alloc 0 0)).isNone)) = some (none, some 8, true) := by
    decide +kernel
  obtain ⟨p₁, hp₁, hrun⟩ := bind_eq_some_iff.1 hrun
  obtain ⟨p₂, hp₂, he⟩ := map_eq_some_iff.1 hrun
  simp only [Prod.mk.injEq, isNone_iff_eq_none] at he
  refine ⟨p₁.2, p₂.2, ?_, ?_, trivial, he.2.2⟩
  · rw [hp₁, ← he.1]
  · rw [hp₂, ← he.2.1]

end AllocRun

end MyOS2.Buddy
