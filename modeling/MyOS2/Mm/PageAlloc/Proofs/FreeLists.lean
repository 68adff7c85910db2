import MyOS2.Mm.PageAlloc.Buddy
import MyOS2.Lib.Proofs.DoubleList
import MyOS2.Misc.Tiles
import MyOS2.Misc.Dyadic
import Mathlib.Data.Finset.Card

/-!
# The free lists of the buddy allocator

`Holds s free` says which blocks the free lists of a state hold. Every step of
the allocator puts a block on a list, takes one off, or writes pages that no
list cares about. `PageBuddy` is never true: `page_type` starts as zero and
only its bit `PG_buddy` is ever written, so no two blocks are merged.
-/

namespace MyOS2.Buddy

open Function DoubleList List

def area (i : ZoneType × Nat) : Node := .anchor i.1 i.2

def nodes (free : ZoneType × Nat → List Nat) (i : ZoneType × Nat) : List Node := (free i).map .page

/-- The block is aligned and inside its zone. -/
structure Placed (maxLowPfn : Nat) (zone : ZoneType) (pfn order : Nat) : Prop where
  order_le : order ≤ maxOrder
  aligned : 2 ^ order ∣ pfn
  inside : ∃ start spanned, (zone, start, spanned) ∈ nodeZones maxLowPfn ∧
    start ≤ pfn ∧ pfn + 2 ^ order ≤ start + spanned

/-- The free lists are `free`, their blocks lie in their zones, every head page holds its order, and
no page has a type. -/
structure Holds (s : State) (free : ZoneType × Nat → List Nat) : Prop where
  headed : Headed s.lists area (nodes free)
  placed : ∀ i, ∀ pfn ∈ free i, Placed s.maxLowPfn i.1 pfn i.2
  order : ∀ i, ∀ pfn ∈ free i, (s.pages pfn).private_ = i.2
  typed : ∀ pfn, (s.pages pfn).pageType &&& pageTypeBase = 0

/-! ## Page types -/

section

variable {p : Page} (h : p.pageType &&& pageTypeBase = 0)
include h

theorem setPageBuddy_typed : (setPageBuddy p).pageType &&& pageTypeBase = 0 := by
  rw [setPageBuddy, BitVec.and_assoc, BitVec.and_comm (~~~pgBuddy), ← BitVec.and_assoc, h]
  exact BitVec.zero_and

theorem clearPageBuddy_typed : (clearPageBuddy p).pageType &&& pageTypeBase = 0 := by
  have hbit : pgBuddy &&& pageTypeBase = 0 := by decide
  rw [clearPageBuddy, BitVec.and_or_distrib_right, h, hbit]
  rfl

theorem pageBuddy_eq_false : pageBuddy p = false := by
  rw [pageBuddy, decide_eq_false_iff_not]
  intro hbuddy
  have hmask : (pageTypeBase ||| pgBuddy) &&& pageTypeBase = pageTypeBase := by decide
  have hbase := congrArg (· &&& pageTypeBase) hbuddy
  simp only [BitVec.and_assoc, hmask, BitVec.and_self, h] at hbase
  revert hbase
  decide

end

/-! ## Zones -/

theorem nodeZones_eq (maxLowPfn : Nat) :
    nodeZones maxLowPfn =
      let a := max (min 4096 maxLowPfn) 1
      let b := max (min (2 ^ 20) maxLowPfn) a
      let c := max maxLowPfn b
      [(.dma, 1, a - 1), (.dma32, a, b - a), (.normal, b, c - b), (.movable, c, 0),
        (.device, c, 0)] := by
  simp [nodeZones, memmapInit, maxZonePfn]

variable {maxLowPfn pfn : Nat}

theorem Placed.bounds {order : Nat} {zone : ZoneType}
    (h : Placed maxLowPfn zone pfn order) : 1 ≤ pfn ∧ pfn + 2 ^ order ≤ maxLowPfn := by
  obtain ⟨start, spanned, hmem, hlo, hhi⟩ := h.inside
  have hpos := Nat.two_pow_pos order
  rw [nodeZones_eq] at hmem
  simp only [mem_cons, Prod.mk.injEq, not_mem_nil, or_false] at hmem
  omega

theorem zone_unique {f : Nat} {zone zone' : ZoneType} {start spanned start' spanned' : Nat}
    (h : (zone, start, spanned) ∈ nodeZones maxLowPfn) (hf : start ≤ f ∧ f < start + spanned)
    (h' : (zone', start', spanned') ∈ nodeZones maxLowPfn)
    (hf' : start' ≤ f ∧ f < start' + spanned') : zone = zone' := by
  rw [nodeZones_eq] at h h'
  simp only [mem_cons, Prod.mk.injEq, not_mem_nil, or_false] at h h'
  rcases h with ⟨rfl, h⟩ | ⟨rfl, h⟩ | ⟨rfl, h⟩ | ⟨rfl, h⟩ | ⟨rfl, h⟩ <;>
    rcases h' with ⟨rfl, h'⟩ | ⟨rfl, h'⟩ | ⟨rfl, h'⟩ | ⟨rfl, h'⟩ | ⟨rfl, h'⟩ <;>
    first | rfl | omega

/-- An aligned block of frames that have a page lies in the zone of its first page. -/
theorem exists_zone {order : Nat} (horder : order ≤ maxOrder)
    (hdvd : 2 ^ order ∣ pfn) (hlo : 1 ≤ pfn) (hhi : pfn + 2 ^ order ≤ maxLowPfn) :
    ∃ zone, myosPageZone maxLowPfn pfn = some zone ∧ Placed maxLowPfn zone pfn order := by
  have hdma : pfn < 4096 → pfn + 2 ^ order ≤ 4096 := by
    apply Dyadic.add_two_pow_le_of_lt _ hdvd
    exact Nat.pow_dvd_pow 2 (horder.trans (by decide : maxOrder ≤ 12))
  have hdma32 : pfn < 2 ^ 20 → pfn + 2 ^ order ≤ 2 ^ 20 := by
    apply Dyadic.add_two_pow_le_of_lt _ hdvd
    exact Nat.pow_dvd_pow 2 (horder.trans (by decide : maxOrder ≤ 20))
  have hfit : ∀ z ∈ nodeZones maxLowPfn, z.2.1 ≤ pfn → pfn < z.2.1 + z.2.2 →
      pfn + 2 ^ order ≤ z.2.1 + z.2.2 := by
    rw [nodeZones_eq]
    simp only [forall_mem_cons]
    refine ⟨?_, ?_, ?_, ?_, ?_, by simp⟩ <;> intro h1 h2 <;> omega
  have hsome : ∃ z ∈ nodeZones maxLowPfn, z.2.1 ≤ pfn ∧ pfn < z.2.1 + z.2.2 := by
    rw [nodeZones_eq]
    simp only [mem_cons, exists_eq_or_imp]
    omega
  rw [myosPageZone]
  cases hfind : (nodeZones maxLowPfn).find? fun z => z.2.1 ≤ pfn && pfn < z.2.1 + z.2.2 with
  | none =>
    obtain ⟨z, hz, hin⟩ := hsome
    have := find?_eq_none.1 hfind z hz
    simp only [Bool.and_eq_true, decide_eq_true_eq] at this
    exact absurd hin this
  | some z =>
    have hin := find?_some hfind
    have hz := mem_of_find?_eq_some hfind
    simp only [Bool.and_eq_true, decide_eq_true_eq] at hin
    exact ⟨z.1, rfl, horder, hdvd, z.2.1, z.2.2, hz, hin.1, hfit z hz hin.1 hin.2⟩

/-! ## Writing pages -/

theorem nodes_update (free : ZoneType × Nat → List Nat) (i : ZoneType × Nat) (l : List Nat) :
    nodes (update free i l) = update (nodes free) i (l.map .page) := by
  funext j
  exact apply_update (fun _ l => l.map Node.page) free i l j

section

variable (f : Page → Page) (n pfn : Nat) (s : State)

theorem State.modifyPages_maxLowPfn : (State.modifyPages f n pfn s).maxLowPfn = s.maxLowPfn := by
  induction n generalizing s pfn with
  | zero => rfl
  | succ n ih => exact ih (pfn + 1) (s.modifyPage pfn f)

theorem State.modifyPages_lists : (State.modifyPages f n pfn s).lists = s.lists := by
  induction n generalizing s pfn with
  | zero => rfl
  | succ n ih => exact ih (pfn + 1) (s.modifyPage pfn f)

theorem State.modifyPages_pages (q : Nat) : (State.modifyPages f n pfn s).pages q =
      if pfn ≤ q ∧ q < pfn + n then f (s.pages q) else s.pages q := by
  induction n generalizing s pfn with
  | zero => exact (if_neg (by omega)).symm
  | succ n ih =>
    rw [State.modifyPages, ih, State.modifyPage]
    by_cases hq : q = pfn
    · subst hq
      simp
    · simp only [update_of_ne hq]
      congr 1
      exact propext (by omega)

end

/-- The page heads no block on a list. -/
def Unlisted (free : ZoneType × Nat → List Nat) (pfn : Nat) : Prop := ∀ i, pfn ∉ free i

theorem Unlisted.off {free : ZoneType × Nat → List Nat} (h : Unlisted free pfn) :
    Off area (nodes free) (.page pfn) := by
  intro i hmem
  rcases mem_cons.1 hmem with he | hmem
  · cases he
  · obtain ⟨p, hp, he⟩ := mem_map.1 hmem
    cases he
    exact h i hp

def SamePage (pfn : Nat) (s s' : State) : Prop :=
  s'.pages pfn = s.pages pfn ∧ s'.lists.next (.page pfn) = s.lists.next (.page pfn)

theorem SamePage.trans {s₁ s₂ s₃ : State} (h : SamePage pfn s₁ s₂)
    (h' : SamePage pfn s₂ s₃) : SamePage pfn s₁ s₃ :=
  ⟨h'.1.trans h.1, h'.2.trans h.2⟩

namespace Holds

variable {s : State} {free : ZoneType × Nat → List Nat} {zone : ZoneType} {pfn order : Nat}

section

variable (h : Holds s free)
include h

theorem modifyPage {f : Page → Page} (htyped : (f (s.pages pfn)).pageType &&& pageTypeBase = 0)
    (horder : ∀ i, pfn ∈ free i → (f (s.pages pfn)).private_ = i.2) :
    Holds (s.modifyPage pfn f) free := by
  refine ⟨h.headed, h.placed, ?_, ?_⟩
  · intro i q hq
    by_cases hqp : q = pfn
    · subst hqp
      simpa [State.modifyPage] using horder i hq
    · simpa [State.modifyPage, hqp] using h.order i q hq
  · intro q
    by_cases hqp : q = pfn
    · subst hqp
      simpa [State.modifyPage] using htyped
    · simpa [State.modifyPage, hqp] using h.typed q

theorem modifyPages {f : Page → Page}
    (hf : ∀ p, (f p).pageType = p.pageType ∧ (f p).private_ = p.private_) (n pfn : Nat) :
    Holds (State.modifyPages f n pfn s) free := by
  induction n generalizing s pfn with
  | zero => exact h
  | succ n ih =>
    apply ih
    apply h.modifyPage
    · rw [(hf _).1]
      exact h.typed pfn
    · intro i hi
      rw [(hf _).2]
      exact h.order i pfn hi

theorem setBuddyOrder (hu : Unlisted free pfn) (order : Nat) :
    Holds (Buddy.setBuddyOrder s pfn order) free := by
  apply h.modifyPage
  · exact setPageBuddy_typed (h.typed pfn)
  · intro i hi
    exact absurd hi (hu i)

/-! ## Taking and putting blocks -/

theorem nodup (i : ZoneType × Nat) : (free i).Nodup :=
  (nodup_cons.1 (h.headed.rings.nodup i)).2.of_map

theorem length_lt (i : ZoneType × Nat) : (nodes free i).length < s.nodeBound := by
  have hsub : (free i).toFinset ⊆ Finset.range s.maxLowPfn := by
    intro pfn hpfn
    have := (h.placed i pfn (mem_toFinset.1 hpfn)).bounds
    have hpos := Nat.two_pow_pos i.2
    rw [Finset.mem_range]
    omega
  have hcard := Finset.card_le_card hsub
  rw [toFinset_card_of_nodup (h.nodup i), Finset.card_range] at hcard
  rw [nodes, length_map, State.nodeBound]
  omega

theorem queue (hu : Unlisted free pfn) (hp : Placed s.maxLowPfn zone pfn order) :
    ∃ s', addToFreeList (Buddy.setBuddyOrder s pfn order) pfn zone order = some s' ∧
      s'.maxLowPfn = s.maxLowPfn ∧ (∀ f, f ≠ pfn → SamePage f s s') ∧
      Holds s' (update free (zone, order) (pfn :: free (zone, order))) := by
  have hset := h.setBuddyOrder hu order
  obtain ⟨lists, hadd, hheaded⟩ := hset.headed.addToHead (zone, order) hu.off
  refine ⟨{ Buddy.setBuddyOrder s pfn order with lists := lists }, ?_, rfl, fun f hf => ⟨?_, ?_⟩,
    ?_, ?_, ?_, ?_⟩
  · rw [addToFreeList]
    simp only [area] at hadd
    simp [hadd]
  · exact update_of_ne hf _ _
  · exact addToHead_next hadd (by simp [area]) (by simpa using hf)
  · rw [nodes_update]
    exact hheaded
  · intro i q hq
    by_cases hi : i = (zone, order)
    · subst hi
      rw [update_self] at hq
      rcases mem_cons.1 hq with rfl | hq
      · exact hp
      · exact h.placed _ q hq
    · rw [update_of_ne hi] at hq
      exact h.placed i q hq
  · intro i q hq
    by_cases hi : i = (zone, order)
    · subst hi
      rw [update_self] at hq
      rcases mem_cons.1 hq with rfl | hq
      · simp [Buddy.setBuddyOrder, State.modifyPage, setPageBuddy]
      · exact hset.order _ q hq
    · rw [update_of_ne hi] at hq
      exact hset.order i q hq
  · exact hset.typed

theorem getPage_nil (hnil : free (zone, order) = []) :
    getPageFromFreeArea s zone order = some (none, s) := by
  have := h.headed.removeHead_nil (i := (zone, order)) (by simp [nodes, hnil])
  simp only [area] at this
  simp [getPageFromFreeArea, this]

theorem getPage_cons {rest : List Nat} (hcons : free (zone, order) = pfn :: rest) :
    ∃ lists, getPageFromFreeArea s zone order = some (some pfn, { s with lists }) ∧
      (lists.next (.page pfn) = .node (.page pfn) ∧
        ∀ f, Unlisted free f → lists.next (.page f) = s.lists.next (.page f)) ∧
      Holds { s with lists } (update free (zone, order) rest) := by
  have hnodes : nodes free (zone, order) = .page pfn :: rest.map .page := by simp [nodes, hcons]
  obtain ⟨lists, hget, hheaded, hself, hothers⟩ := h.headed.removeHead_cons hnodes
  have hsub : ∀ i, ∀ q ∈ update free (zone, order) rest i, q ∈ free i := by
    intro i q hq
    by_cases hi : i = (zone, order)
    · subst hi
      rw [update_self] at hq
      rw [hcons]
      exact mem_cons_of_mem _ hq
    · rwa [update_of_ne hi] at hq
  refine ⟨lists, ?_, ⟨hself, fun f hf => hothers _ hf.off⟩, ?_, ?_, ?_, h.typed⟩
  · simp only [area] at hget
    simp [getPageFromFreeArea, hget]
  · rw [nodes_update]
    exact hheaded
  · intro i q hq
    exact h.placed i q (hsub i q hq)
  · intro i q hq
    exact h.order i q (hsub i q hq)

theorem unlisted_of_cons {i : ZoneType × Nat} {rest : List Nat}
    (hcons : free i = pfn :: rest) : Unlisted (update free i rest) pfn := by
  intro j hj
  by_cases hji : j = i
  · subst hji
    rw [update_self] at hj
    have := h.nodup j
    rw [hcons] at this
    exact (nodup_cons.1 this).1 hj
  · rw [update_of_ne hji] at hj
    refine h.headed.rings.apart j i hji (a := .page pfn) ?_ ?_
    · exact mem_cons_of_mem _ (mem_map_of_mem hj)
    · exact mem_cons_of_mem _ (mem_map_of_mem (by simp [hcons]))

theorem delPage (hu : Unlisted free pfn) (zone : ZoneType) (order : Nat) :
    delPageFromFreeList s pfn zone order =
        some (s.modifyPage pfn fun p => { clearPageBuddy p with private_ := 0 }) ∧
      Holds (s.modifyPage pfn fun p => { clearPageBuddy p with private_ := 0 }) free := by
  have hnot : Node.page pfn ∉ nodes free (zone, order) := by
    intro hmem
    exact hu.off (zone, order) (mem_cons_of_mem _ hmem)
  have hdel := h.headed.deleteNode_not_mem (h.length_lt (zone, order)) hnot
  simp only [area] at hdel
  refine ⟨?_, ?_⟩
  · simp [delPageFromFreeList, hdel]
  · apply h.modifyPage
    · exact clearPageBuddy_typed (h.typed pfn)
    · intro i hi
      exact absurd hi (hu i)

end

end Holds

end MyOS2.Buddy
