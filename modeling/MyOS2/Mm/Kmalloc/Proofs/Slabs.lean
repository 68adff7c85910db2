import MyOS2.Lib.Proofs.DoubleList
import MyOS2.Misc.Chain
import MyOS2.Mm.Kmalloc.Proofs.Geometry
import Mathlib.Data.List.Perm.Subperm

/-!
# The slabs of a cache

`Keeps` says which slabs the lists of a cache hold, which objects of each slab
its chain of free objects leads through, and that the users hold the others.
Every step of the allocator takes an object off a chain, puts one on, moves a
slab to the other list, or adds or removes a slab.
-/

namespace MyOS2.Slub

open Function DoubleList List State Nat

/-! ## The lists -/

/-- Which list a slab is on. -/
inductive Kind
  | usable
  | full
  deriving DecidableEq

def Kind.anchor : Kind → Node
  | .usable => .partialAnchor
  | .full => .fullAnchor

def nodes (part full : List Pfn) : Kind → List Node
  | .usable => part.map .slab
  | .full => full.map .slab

section Lists
variable {s : State} {part full : List Pfn} {p : Pfn}

theorem update_nodes_usable (part l : List Pfn) :
    update (nodes part full) .usable (l.map .slab) = nodes l full := by
  funext k
  cases k <;> rfl

theorem update_nodes_full (full l : List Pfn) :
    update (nodes part full) .full (l.map .slab) = nodes part l := by
  funext k
  cases k <;> rfl

section

variable (h : Headed s.lists Kind.anchor (nodes part full))
include h

theorem Headed.nodup_append : (part ++ full).Nodup := by
  have hnodup : ∀ k, (nodes part full k).Nodup := fun k =>
    (nodup_cons.mp (h.rings.nodup k)).2
  refine List.nodup_append.mpr ⟨.of_map _ (hnodup .usable), .of_map _ (hnodup .full), ?_⟩
  rintro p hp q hq rfl
  have hpart : Node.slab p ∈ Kind.usable.anchor :: nodes part full .usable :=
    List.mem_cons_of_mem _ (List.mem_map_of_mem hp)
  have hfull : Node.slab p ∈ Kind.full.anchor :: nodes part full .full :=
    mem_cons_of_mem _ (mem_map_of_mem hq)
  exact h.rings.apart .usable .full nofun hpart hfull

theorem Headed.next_partialAnchor : s.lists.next .partialAnchor = match part with
      | [] => .node .partialAnchor
      | p :: _ => .node (.slab p) := by
  have hring := h.rings.linked .usable
  cases part with
  | nil => exact hring.1
  | cons p rest => exact hring.1.1

theorem removeFrom_eq {k : Kind} (hp : .slab p ∈ nodes part full k) :
    ∃ lists, s.removeFrom k.anchor p = some { s with lists } ∧
      Headed lists Kind.anchor
        (update (nodes part full) k ((nodes part full k).erase (.slab p))) := by
  have hlen : (nodes part full k).length < s.lists.count k.anchor + 1 := by
    rw [h.count k]
    exact lt_succ_self _
  obtain ⟨lists, hdel, hheaded⟩ := h.deleteNode_mem hlen hp
  refine ⟨lists, ?_, hheaded⟩
  rw [removeFrom, hdel]
  rfl

theorem addTo_eq (k : Kind) (hpart : p ∉ part) (hfull : p ∉ full) :
    ∃ lists, s.addTo k.anchor p = some { s with lists } ∧
      Headed lists Kind.anchor (update (nodes part full) k (.slab p :: nodes part full k)) := by
  have hoff : Off Kind.anchor (nodes part full) (.slab p) := by
    intro k
    cases k <;> simpa [Kind.anchor, nodes]
  obtain ⟨lists, hadd, hheaded⟩ := h.addToHead k hoff
  refine ⟨lists, ?_, hheaded⟩
  rw [addTo, hadd]
  rfl

theorem removeFrom_partial (hp : p ∈ part) :
    ∃ lists, s.removeFrom .partialAnchor p = some { s with lists } ∧
      Headed lists Kind.anchor (nodes (part.erase p) full) := by
  rw [← update_nodes_usable part, map_erase fun _ _ => Node.slab.inj]
  exact removeFrom_eq h (k := .usable) (mem_map_of_mem hp)

theorem removeFrom_full (hp : p ∈ full) :
    ∃ lists, s.removeFrom .fullAnchor p = some { s with lists } ∧
      Headed lists Kind.anchor (nodes part (full.erase p)) := by
  rw [← update_nodes_full full, map_erase fun _ _ => Node.slab.inj]
  exact removeFrom_eq h (k := .full) (mem_map_of_mem hp)

theorem addTo_partial (hpart : p ∉ part) (hfull : p ∉ full) :
    ∃ lists, s.addTo .partialAnchor p = some { s with lists } ∧
      Headed lists Kind.anchor (nodes (p :: part) full) := by
  rw [← update_nodes_usable part]
  exact addTo_eq h .usable hpart hfull

theorem addTo_full (hpart : p ∉ part) (hfull : p ∉ full) :
    ∃ lists, s.addTo .fullAnchor p = some { s with lists } ∧
      Headed lists Kind.anchor (nodes part (p :: full)) := by
  rw [← update_nodes_full full]
  exact addTo_eq h .full hpart hfull

end

end Lists

/-! ## Slabs and objects -/

/-- A slab whose free objects are those with the numbers `free`, in the order of its chain. -/
structure SlabOk (c : Cache) (s : State) (p : Pfn) (free : List Nat) : Prop where
  head : s.pgHead p = decide (0 < c.order)
  pages : ∀ q, p ≤ q → q < p + 2 ^ c.order → s.compoundHead q = p
  objects : s.objects p = c.objNr
  inuse : s.inuse p + free.length = c.objNr
  chain : Chained s.word 0 (s.freelist p) (free.map (slot c p))
  nodup : free.Nodup
  bound : ∀ i ∈ free, i < c.objNr

/-- An object of a slab that is not free. -/
def Held (c : Cache) (s : State) (free : Pfn → List Nat) (x : Addr) : Prop :=
  ∃ p i, s.pgSlab p = true ∧ i < c.objNr ∧ i ∉ free p ∧ x = slot c p i

/-- The slabs on the lists are `part` and `full`, the free objects of each slab are `free`, and the
users hold the other objects. -/
structure Keeps (c : Cache) (s : State) (live : List Addr) (part full : List Pfn)
    (free : Pfn → List Nat) : Prop where
  headed : Headed s.lists Kind.anchor (nodes part full)
  owned : ∀ p, s.pgSlab p = true ↔ p ∈ part ∨ p ∈ full
  apart : ∀ p q, s.pgSlab p = true → s.pgSlab q = true → p ≠ q → Apart c p q
  slab : ∀ p, s.pgSlab p = true → SlabOk c s p (free p)
  held : ∀ x, x ∈ live ↔ Held c s free x
  nodup : live.Nodup
  nrSlabs : s.nrSlabs = (part.length + full.length : Nat)
  totalObjects : s.totalObjects = ((part.length + full.length) * c.objNr : Nat)

def Sorted (part full : List Pfn) (free : Pfn → List Nat) : Prop :=
  (∀ p ∈ part, free p ≠ []) ∧ ∀ p ∈ full, free p = []

section Slabs
variable {c : Cache} {s s' : State} {live : List Addr} {part full : List Pfn}
  {free : Pfn → List Nat} {p q : Pfn} {i j : Nat} {l : List Nat}

theorem SlabOk.congr (h : SlabOk c s p l) (hhead : s'.pgHead p = s.pgHead p)
    (hpages : ∀ q, p ≤ q → q < p + 2 ^ c.order → s'.compoundHead q = s.compoundHead q)
    (hobjects : s'.objects p = s.objects p)
    (hinuse : s'.inuse p = s.inuse p) (hfreelist : s'.freelist p = s.freelist p)
    (hword : ∀ i ∈ l, s'.word (slot c p i) = s.word (slot c p i)) : SlabOk c s' p l where
  head := hhead.trans h.head
  pages q hle hlt := (hpages q hle hlt).trans (h.pages q hle hlt)
  objects := hobjects.trans h.objects
  inuse := hinuse ▸ h.inuse
  chain := by
    rw [hfreelist]
    apply h.chain.congr
    intro x hx
    obtain ⟨i, hi, rfl⟩ := mem_map.mp hx
    exact hword i hi
  nodup := h.nodup
  bound := h.bound

theorem held_take (hp : s.pgSlab p = true) (hfree : free p = i :: l) (hi : i < c.objNr)
    (hil : i ∉ l) (x : Addr) :
    Held c s (update free p l) x ↔ x = slot c p i ∨ Held c s free x := by
  have hsub : ∀ q, update free p l q ⊆ free q :=
    (forall_update_iff free fun q l => l ⊆ free q).mpr
      ⟨hfree ▸ subset_cons_self .., fun _ _ => List.Subset.refl _⟩
  constructor
  · rintro ⟨q, j, hq, hj, hnot, rfl⟩
    by_cases hold : j ∈ free q
    · obtain rfl : q = p := by
        by_contra hqp
        rw [update_of_ne hqp] at hnot
        exact hnot hold
      rw [update_self] at hnot
      rw [hfree, mem_cons] at hold
      exact .inl (hold.resolve_right hnot ▸ rfl)
    · exact .inr ⟨q, j, hq, hj, hold, rfl⟩
  · rintro (rfl | ⟨q, j, hq, hj, hnot, rfl⟩)
    · exact ⟨p, i, hp, hi, by rwa [update_self], rfl⟩
    · exact ⟨q, j, hq, hj, fun hmem => hnot (hsub q hmem), rfl⟩

theorem SlabOk.mem_of_inuse_eq_zero (h : SlabOk c s p l) (hzero : s.inuse p = 0)
    (hi : i < c.objNr) : i ∈ l := by
  have hsub : l ⊆ range c.objNr := fun j hj => mem_range.mpr (h.bound j hj)
  have hlen : (range c.objNr).length ≤ l.length := by
    rw [length_range, ← h.inuse, hzero, zero_add]
  have hperm := (h.nodup.subperm hsub).perm_of_length_le hlen
  exact hperm.mem_iff.mpr (mem_range.mpr hi)

theorem SlabOk.exists_of_inuse_ne_zero (h : SlabOk c s p l) (hne : s.inuse p ≠ 0) :
    ∃ i < c.objNr, i ∉ l := by
  by_contra hall
  have hsub : range c.objNr ⊆ l := by
    intro i hi
    by_contra hnot
    exact hall ⟨i, mem_range.mp hi, hnot⟩
  have hlen := (nodup_range.subperm hsub).length_le
  rw [length_range, ← h.inuse] at hlen
  exact hne (by omega)

namespace Keeps

section

variable (h : Keeps c s live part full free)
include h

theorem slot_inj (hg : Geometry c) (hp : s.pgSlab p = true)
    (hq : s.pgSlab q = true) (hi : i < c.objNr) (hj : j < c.objNr)
    (heq : slot c p i = slot c q j) : p = q ∧ i = j := by
  by_cases hpq : p = q
  · subst hpq
    exact ⟨rfl, hg.slot_injective p heq⟩
  · exact absurd heq (hg.ne_of_disjoint (hg.disjoint_of_apart (h.apart p q hp hq hpq) hi hj))

theorem disjoint (hg : Geometry c) {x y : Addr}
    (hx : x ∈ live) (hy : y ∈ live) (hxy : x ≠ y) : Disjoint c x y := by
  obtain ⟨p, i, hp, hi, -, rfl⟩ := (h.held x).mp hx
  obtain ⟨q, j, hq, hj, -, rfl⟩ := (h.held y).mp hy
  by_cases hpq : p = q
  · subst hpq
    have hij : i ≠ j := fun heq => hxy (heq ▸ rfl)
    exact Geometry.disjoint_of_ne hij
  · exact hg.disjoint_of_apart (h.apart p q hp hq hpq) hi hj

theorem setWord {x : Addr} (hx : ∀ p, s.pgSlab p = true → ∀ i ∈ free p, x ≠ slot c p i) (v : Nat) :
    Keeps c (s.setWord x v) live part full free := by
  refine ⟨h.headed, h.owned, h.apart, ?_, h.held, h.nodup, h.nrSlabs, h.totalObjects⟩
  intro p hp
  refine (h.slab p hp).congr rfl (fun _ _ _ => rfl) rfl rfl rfl ?_
  intro i hi
  exact update_of_ne (hx p hp i hi).symm ..

theorem write (hg : Geometry c) {x : Addr} (hx : x ∈ live)
    (v : Nat) : Keeps c (s.setWord x v) live part full free := by
  apply h.setWord
  intro p hp i hi heq
  obtain ⟨q, j, hq, hj, hfree, rfl⟩ := (h.held x).mp hx
  obtain ⟨rfl, rfl⟩ := h.slot_inj hg hq hp hj ((h.slab p hp).bound i hi) heq
  exact hfree hi

/-! ## Taking and giving back an object -/

theorem slab_of_update
    (hpgSlab : s'.pgSlab = s.pgSlab) (hself : s.pgSlab p = true → SlabOk c s' p l)
    (hother : ∀ q, s.pgSlab q = true → q ≠ p → SlabOk c s q (free q) → SlabOk c s' q (free q)) :
    ∀ q, s'.pgSlab q = true → SlabOk c s' q (update free p l q) := by
  intro q hq
  rw [hpgSlab] at hq
  by_cases hqp : q = p
  · subst hqp
    rw [update_self]
    exact hself hq
  · rw [update_of_ne hqp]
    exact hother q hq hqp (h.slab q hq)

theorem take (hg : Geometry c) (hp : s.pgSlab p = true) (hfree : free p = i :: l) :
    ∃ s', s.allocSingleFromPartial p = some (slot c p i, s') ∧ s'.pgSlab = s.pgSlab ∧
      Keeps c s' (slot c p i :: live) part full (update free p l) := by
  have hslab := h.slab p hp
  rw [hfree] at hslab
  obtain ⟨hfirst, hrest⟩ := hslab.chain
  have hnodup := nodup_cons.mp hslab.nodup
  have hi : i < c.objNr := hslab.bound i (mem_cons_self ..)
  have hinuse : (s.inuse p + 1) % 2 ^ 16 = s.inuse p + 1 := by
    have hcount := hslab.inuse
    have hlt := hg.objNr_lt
    omega
  have hnew : s.inuse p + 1 + l.length = c.objNr := by
    have hcount := hslab.inuse
    rw [length_cons] at hcount
    omega
  refine ⟨(s.setFreelist p (s.word (slot c p i))).setInuse p (s.inuse p + 1), ?_, rfl, ?_⟩
  · rw [allocSingleFromPartial, hfirst, getFreepointer,
      if_neg (Nat.not_le_of_lt lt_slot), hinuse]
    rfl
  refine ⟨h.headed, h.owned, h.apart, ?_, ?_, ?_, h.nrSlabs, h.totalObjects⟩
  · refine h.slab_of_update rfl ?_ ?_
    · intro _
      refine ⟨hslab.head, hslab.pages, hslab.objects, ?_, ?_, hnodup.2, ?_⟩
      · show update s.inuse p _ p + l.length = c.objNr
        rw [update_self]
        exact hnew
      · show Chained s.word 0 (update s.freelist p _ p) (l.map (slot c p))
        rw [update_self]
        exact hrest
      · intro j hj
        exact hslab.bound j (mem_cons_of_mem _ hj)
    · intro q _ hqp hq
      exact hq.congr rfl (fun _ _ _ => rfl) rfl (update_of_ne hqp ..) (update_of_ne hqp ..)
        fun _ _ => rfl
  · intro x
    rw [mem_cons, h.held x]
    exact (held_take hp hfree hi hnodup.1 x).symm
  · refine nodup_cons.mpr ⟨?_, h.nodup⟩
    intro hmem
    obtain ⟨q, j, hq, hj, hnot, heq⟩ := (h.held _).mp hmem
    obtain ⟨rfl, rfl⟩ := h.slot_inj hg hp hq hi hj heq
    rw [hfree] at hnot
    exact hnot (mem_cons_self ..)

theorem give (hg : Geometry c) (hp : s.pgSlab p = true) (hi : i < c.objNr) (hnot : i ∉ free p) :
    ∃ s', s.freeSingleToPartial p (slot c p i) = some s' ∧ s'.lists = s.lists ∧
      s'.pgSlab = s.pgSlab ∧ Keeps c s' (live.erase (slot c p i)) part full
        (update free p (i :: free p)) := by
  have hslab := h.slab p hp
  have hlen : (i :: free p).length ≤ c.objNr := by
    have hsub : (i :: free p) ⊆ range c.objNr := by
      intro j hj
      rw [mem_range]
      cases hj with
      | head => exact hi
      | tail _ hj => exact hslab.bound j hj
    have hnodup : (i :: free p).Nodup := nodup_cons.mpr ⟨hnot, hslab.nodup⟩
    simpa using (hnodup.subperm hsub).length_le
  rw [length_cons] at hlen
  have hcount := hslab.inuse
  have hinuse : (s.inuse p + 2 ^ 16 - 1) % 2 ^ 16 = s.inuse p - 1 := by
    have hlt := hg.objNr_lt
    omega
  have hnew : s.inuse p - 1 + (free p).length + 1 = c.objNr := by omega
  refine ⟨((s.setInuse p (s.inuse p - 1)).setWord (slot c p i) (s.freelist p)).setFreelist p
    (slot c p i), ?_, rfl, rfl, ?_⟩
  · rw [freeSingleToPartial, setFreepointer, if_neg (Nat.not_le_of_lt lt_slot), hinuse]
    rfl
  refine ⟨h.headed, h.owned, h.apart, ?_, ?_, h.nodup.erase _, h.nrSlabs, h.totalObjects⟩
  · refine h.slab_of_update rfl ?_ ?_
    · intro _
      refine ⟨hslab.head, hslab.pages, hslab.objects, ?_, ?_,
        nodup_cons.mpr ⟨hnot, hslab.nodup⟩, ?_⟩
      · show update s.inuse p _ p + (i :: free p).length = c.objNr
        rw [update_self]
        exact hnew
      · show Chained (update s.word _ _) 0 (update s.freelist p _ p) _
        rw [update_self]
        apply hslab.chain.push
        intro hmem
        obtain ⟨j, hj, heq⟩ := mem_map.mp hmem
        exact hnot (hg.slot_injective p heq ▸ hj)
      · intro j hj
        cases hj with
        | head => exact hi
        | tail _ hj => exact hslab.bound j hj
    · intro q hq hqp hslabq
      refine hslabq.congr rfl (fun _ _ _ => rfl) rfl (update_of_ne hqp ..) (update_of_ne hqp ..) ?_
      intro j hj
      have hne : slot c q j ≠ slot c p i := fun heq =>
        hqp (h.slot_inj hg hq hp (hslabq.bound j hj) hi heq).1
      show update s.word (slot c p i) (s.freelist p) (slot c q j) = s.word (slot c q j)
      rw [update_of_ne hne]
  · intro x
    rw [h.nodup.mem_erase_iff, h.held x]
    -- taking the object again gives what there was
    have htake : Held c s (update (update free p (i :: free p)) p (free p)) x ↔
        x = slot c p i ∨ Held c s (update free p (i :: free p)) x :=
      held_take hp (update_self ..) hi hnot x
    rw [update_idem, update_eq_self] at htake
    rw [htake]
    constructor
    · rintro ⟨hne, heq | hheld⟩
      · exact absurd heq hne
      · exact hheld
    · intro hheld
      refine ⟨?_, .inr hheld⟩
      rintro rfl
      obtain ⟨q, j, hq, hj, hfree, heq⟩ := hheld
      obtain ⟨rfl, rfl⟩ := h.slot_inj hg hp hq hi hj heq
      rw [update_self] at hfree
      exact hfree (mem_cons_self ..)

/-! ## The lists change -/

theorem nodup_lists : part.Nodup ∧ full.Nodup ∧ ∀ p ∈ part, ∀ q ∈ full, p ≠ q :=
  nodup_append.mp (Headed.nodup_append h.headed)

theorem notMem_full (hp : p ∈ part) : p ∉ full := fun hfull => h.nodup_lists.2.2 p hp p hfull rfl

theorem relist {part' full' : List Pfn} {lists : DoubleList.Lists Node}
    (hheaded : Headed lists Kind.anchor (nodes part' full'))
    (hperm : (part' ++ full').Perm (part ++ full)) :
    Keeps c { s with lists } live part' full' free := by
  have hlen := hperm.length_eq
  rw [length_append, length_append] at hlen
  refine ⟨hheaded, fun p => ?_, h.apart, fun p hp => ?_, h.held, h.nodup, ?_, ?_⟩
  · rw [h.owned p, ← mem_append, ← hperm.mem_iff, mem_append]
  · exact (h.slab p hp).congr rfl (fun _ _ _ => rfl) rfl rfl rfl fun _ _ => rfl
  · rw [hlen]
    exact h.nrSlabs
  · rw [hlen]
    exact h.totalObjects

theorem toFull (hp : p ∈ part) :
    ∃ lists₁ lists₂, s.removeFrom .partialAnchor p = some { s with lists := lists₁ } ∧
      addTo { s with lists := lists₁ } .fullAnchor p = some { s with lists := lists₂ } ∧
      Keeps c { s with lists := lists₂ } live (part.erase p) (p :: full) free := by
  obtain ⟨lists₁, hremove, hheaded₁⟩ := removeFrom_partial h.headed hp
  obtain ⟨lists₂, hadd, hheaded₂⟩ := addTo_full (s := { s with lists := lists₁ }) hheaded₁
    h.nodup_lists.1.not_mem_erase (h.notMem_full hp)
  refine ⟨lists₁, lists₂, hremove, hadd, h.relist hheaded₂ (perm_middle.trans ?_)⟩
  exact (perm_cons_erase hp).symm.append_right full

theorem toUsable (hp : p ∈ full) :
    ∃ lists₁ lists₂, s.removeFrom .fullAnchor p = some { s with lists := lists₁ } ∧
      addTo { s with lists := lists₁ } .partialAnchor p = some { s with lists := lists₂ } ∧
      Keeps c { s with lists := lists₂ } live (p :: part) (full.erase p) free := by
  obtain ⟨lists₁, hremove, hheaded₁⟩ := removeFrom_full h.headed hp
  obtain ⟨lists₂, hadd, hheaded₂⟩ := addTo_partial (s := { s with lists := lists₁ }) hheaded₁
    (fun hpart => h.notMem_full hpart hp) h.nodup_lists.2.1.not_mem_erase
  refine ⟨lists₁, lists₂, hremove, hadd, h.relist hheaded₂ (perm_middle.symm.trans ?_)⟩
  exact (perm_cons_erase hp).symm.append_left part

end

def released (s : State) (lists : DoubleList.Lists Node) (p : Pfn) : State :=
  { s with
    lists
    nrSlabs := s.nrSlabs - 1
    totalObjects := s.totalObjects - s.objects p
    pgSlab := update s.pgSlab p false }

theorem offline_freeSlab (h : Keeps c s live part full free) (hp : p ∈ part) :
    ∃ lists s₁, s.offlineExceededEmptySlab p = some s₁ ∧
      s₁.freeSlab c p = some (c.order, released s lists p) ∧
      Headed lists Kind.anchor (nodes (part.erase p) full) := by
  have hhead := (h.slab p ((h.owned p).mpr (.inl hp))).head
  obtain ⟨lists, hremove, hheaded⟩ := removeFrom_partial h.headed hp
  refine ⟨lists, { s with
    lists
    nrSlabs := s.nrSlabs - 1
    totalObjects := s.totalObjects - s.objects p }, ?_, ?_, hheaded⟩
  · rw [offlineExceededEmptySlab, hremove]
    rfl
  · have hnot : ¬ (c.order = 0 ∧ s.pgHead p = true) := by
      rw [hhead, decide_eq_true_eq]
      omega
    have horder : (if s.pgHead p then c.order else 0) = c.order := by
      rw [hhead]
      by_cases hpos : 0 < c.order
      · simp [hpos]
      · simp only [hpos, decide_false, Bool.false_eq_true, if_false]
        omega
    rw [freeSlab, if_neg hnot, horder]
    rfl

theorem release {lists : DoubleList.Lists Node} (h : Keeps c s live part full free)
    (hpart : p ∈ part) (hzero : s.inuse p = 0)
    (hheaded : Headed lists Kind.anchor (nodes (part.erase p) full)) :
    Keeps c (released s lists p) live (part.erase p) full free := by
  have hlen := length_erase_add_one hpart
  have hslab : ∀ q, (released s lists p).pgSlab q = true ↔ s.pgSlab q = true ∧ q ≠ p := by
    intro q
    show update s.pgSlab p false q = true ↔ _
    by_cases hqp : q = p <;> simp [hqp]
  refine ⟨hheaded, ?_, ?_, ?_, ?_, h.nodup, ?_, ?_⟩
  · intro q
    rw [hslab, h.owned, h.nodup_lists.1.mem_erase_iff]
    have hfull : q ∈ full → q ≠ p := by
      rintro hq rfl
      exact h.notMem_full hpart hq
    tauto
  · intro q r hq hr
    exact h.apart q r ((hslab q).mp hq).1 ((hslab r).mp hr).1
  · intro q hq
    exact (h.slab q ((hslab q).mp hq).1).congr rfl (fun _ _ _ => rfl) rfl rfl rfl fun _ _ => rfl
  · intro x
    rw [h.held x]
    constructor
    · rintro ⟨q, i, hq, hi, hfree, rfl⟩
      refine ⟨q, i, (hslab q).mpr ⟨hq, ?_⟩, hi, hfree, rfl⟩
      rintro rfl
      exact hfree ((h.slab q hq).mem_of_inuse_eq_zero hzero hi)
    · rintro ⟨q, i, hq, hi, hfree, rfl⟩
      exact ⟨q, i, ((hslab q).mp hq).1, hi, hfree, rfl⟩
  · show s.nrSlabs - 1 = _
    rw [h.nrSlabs, ← hlen]
    omega
  · show s.totalObjects - s.objects p = _
    rw [h.totalObjects, (h.slab p ((h.owned p).mpr (.inl hpart))).objects, ← hlen]
    push_cast
    ring

/-! ## A new slab -/

theorem setupObject_eq (c : Cache) (s : State) (x : Addr) :
    ∃ word, s.setupObject c x = { s with word } ∧ ∀ y, y ≠ x → word y = s.word y := by
  rw [setupObject]
  split
  · exact ⟨s.word, rfl, fun _ _ => rfl⟩
  · exact ⟨_, rfl, fun y hy => update_of_ne hy ..⟩

theorem initObjects_eq (hsize : 0 < c.size) (n : Nat) (x : Nat) (hx : 4095 < x) (s : State) :
    ∃ word, initObjects c n x s = some (x + n * c.size, { s with word }) ∧
      (∀ i < n, word (x + i * c.size) = x + (i + 1) * c.size) ∧
      ∀ y, (∀ i ≤ n, y ≠ x + i * c.size) → word y = s.word y := by
  induction n generalizing x s with
  | zero => exact ⟨s.word, by simp [initObjects], nofun, fun _ _ => rfl⟩
  | succ n ih =>
    obtain ⟨setup, hsetup, hsetup'⟩ := setupObject_eq c s (x + c.size)
    obtain ⟨word, hloop, hchain, hother⟩ := ih (x + c.size) (by omega)
      { s with word := update setup x (x + c.size) }
    have hshift : ∀ i, x + c.size + i * c.size = x + (i + 1) * c.size := by
      intro i
      ring
    refine ⟨word, ?_, ?_, ?_⟩
    · rw [← hshift, ← hloop, initObjects, hsetup, setFreepointer,
        if_neg (Nat.not_le_of_lt hx)]
      rfl
    · intro i hi
      cases i with
      | zero =>
        have hfirst : word x = update setup x (x + c.size) x := by
          apply hother
          intro i _
          omega
        rw [zero_mul, add_zero, hfirst, update_self, zero_add, one_mul]
      | succ i =>
        have := hchain i (lt_of_succ_lt_succ hi)
        rwa [hshift, hshift] at this
    · intro y hy
      have hne₀ : y ≠ x := by
        have := hy 0 (zero_le _)
        rwa [zero_mul, add_zero] at this
      have hne₁ : y ≠ x + c.size := by
        have := hy 1 (succ_le_succ (zero_le _))
        rwa [one_mul] at this
      rw [hother y]
      · show update setup x (x + c.size) y = s.word y
        rw [update_of_ne hne₀, hsetup' y hne₁]
      · intro i hi
        rw [hshift]
        exact hy (i + 1) (succ_le_succ hi)

def prepared (c : Cache) (s : State) (pg : Pages) (word : Addr → Nat) : State :=
  { s with
    freelist := update s.freelist pg.pfn (pageToVirt pg.pfn)
    inuse := update s.inuse pg.pfn 0
    objects := update s.objects pg.pfn c.objNr
    pgSlab := update s.pgSlab pg.pfn true
    pgHead := update s.pgHead pg.pfn pg.head
    compoundHead := fun q =>
      if pg.pfn ≤ q ∧ q < pg.pfn + 2 ^ c.order then pg.pfn else s.compoundHead q
    word }

theorem allocInitNewSlab_eq (hg : Geometry c) {pg : Pages} (hhead : pg.head = decide (0 < c.order))
    (s : State) :
    ∃ word, s.allocInitNewSlab c pg = some (prepared c s pg word) ∧
      Chained word 0 (pageToVirt pg.pfn) ((range c.objNr).map (slot c pg.pfn)) ∧
      ∀ y, (∀ i < c.objNr, y ≠ slot c pg.pfn i) → word y = s.word y := by
  have hpos := hg.objNr_pos
  have hsize : 0 < c.size := lt_of_lt_of_le (by decide) hg.size
  have hnr : c.objNr - 1 + 1 = c.objNr := succ_pred_eq_of_pos hpos
  have hstart : 4095 < pageToVirt pg.pfn := by
    have := lt_slot (c := c) (p := pg.pfn) (i := 0)
    rwa [slot, zero_mul, add_zero] at this
  have hnot : ¬ (c.order = 0 ∧ pg.head = true) := by
    rw [hhead, decide_eq_true_eq]
    omega
  obtain ⟨word, hloop, hchain, hother⟩ :=
    initObjects_eq hsize (c.objNr - 1) (pageToVirt pg.pfn) hstart (prepared c s pg s.word)
  -- the last object ends the chain
  refine ⟨update word (slot c pg.pfn (c.objNr - 1)) 0, ?_, ?_, ?_⟩
  · have hprep : setSlab c { s.handOut c pg with
        pgSlab := update (s.handOut c pg).pgSlab pg.pfn true } pg.pfn =
        prepared c s pg s.word := by
      rw [setSlab, mod_eq_of_lt hg.objNr_lt]
      rfl
    have hobjects : (prepared c s pg s.word).objects pg.pfn = c.objNr := update_self ..
    rw [allocInitNewSlab, allocSlab, if_neg hnot]
    simp only [Option.bind_eq_bind, Option.bind_some, hprep, hobjects, hloop]
    rw [← slot, setFreepointer, if_neg (Nat.not_le_of_lt lt_slot)]
    rfl
  · have hrange : range c.objNr = range' 0 (c.objNr - 1 + 1) := by
      rw [hnr, range_eq_range']
    have hfirst : pageToVirt pg.pfn = slot c pg.pfn 0 := by
      rw [slot, zero_mul, add_zero]
    rw [hrange, hfirst]
    apply chained_range'
    · intro i hi
      rw [zero_add, update_of_ne]
      · exact hchain i hi
      · intro heq
        exact absurd (hg.slot_injective pg.pfn heq) (Nat.ne_of_lt hi)
    · rw [Nat.zero_add, update_self]
  · intro y hy
    have hlast : y ≠ slot c pg.pfn (c.objNr - 1) := hy _ (by omega)
    rw [update_of_ne hlast]
    apply hother
    intro i hi
    exact hy i (by omega)

theorem online (h : Keeps c s live part full free) (hg : Geometry c) {pg : Pages}
    (hpg : Users.PagesOk c s pg) :
    ∃ s₁ s', s.allocInitNewSlab c pg = some s₁ ∧ s₁.onlineNewEmptySlab pg.pfn = some s' ∧
      s'.pgSlab = update s.pgSlab pg.pfn true ∧ Keeps c s' live (pg.pfn :: part) full
        (update free pg.pfn (range c.objNr)) := by
  obtain ⟨hunused, hhead⟩ := hpg
  have hpow := Nat.two_pow_pos c.order
  have hnew : s.pgSlab pg.pfn = false :=
    hunused pg.pfn (Nat.lt_add_of_pos_right hpow) (Nat.lt_add_of_pos_right hpow)
  have hapart : ∀ q, s.pgSlab q = true → Apart c q pg.pfn := by
    intro q hq
    by_contra hmeet
    rw [Apart, not_or] at hmeet
    have := hunused q (Nat.lt_of_not_le hmeet.2) (Nat.lt_of_not_le hmeet.1)
    exact absurd (hq.symm.trans this) nofun
  have hne : ∀ {q}, s.pgSlab q = true → q ≠ pg.pfn := by
    rintro q hq rfl
    exact absurd (hq.symm.trans hnew) nofun
  have hpart : pg.pfn ∉ part := fun hmem => hne ((h.owned _).mpr (.inl hmem)) rfl
  have hfull : pg.pfn ∉ full := fun hmem => hne ((h.owned _).mpr (.inr hmem)) rfl
  obtain ⟨word, hinit, hchain, hword⟩ := allocInitNewSlab_eq hg hhead s
  obtain ⟨lists, hadd, hheaded⟩ := addTo_partial (s := prepared c s pg word) h.headed hpart hfull
  have hslab : ∀ q, (prepared c s pg word).pgSlab q = true ↔ s.pgSlab q = true ∨ q = pg.pfn := by
    intro q
    show update s.pgSlab pg.pfn true q = true ↔ _
    by_cases hq : q = pg.pfn
    · simp [hq]
    · simp [hq]
  refine ⟨_, { prepared c s pg word with
    lists
    nrSlabs := s.nrSlabs + 1
    totalObjects := s.totalObjects + c.objNr }, hinit, ?_, rfl, ?_⟩
  · rw [onlineNewEmptySlab, hadd]
    have hobjects : (prepared c s pg word).objects pg.pfn = c.objNr := update_self ..
    simp only [Option.bind_eq_bind, Option.bind_some, hobjects]
    rfl
  refine ⟨hheaded, ?_, ?_, ?_, ?_, h.nodup, ?_, ?_⟩
  · intro q
    rw [hslab, h.owned]
    simp only [mem_cons]
    tauto
  · intro q r hq hr hqr
    obtain hq | rfl := (hslab q).mp hq
    · obtain hr | rfl := (hslab r).mp hr
      · exact h.apart q r hq hr hqr
      · exact hapart q hq
    · obtain hr | rfl := (hslab r).mp hr
      · exact (hapart r hr).symm
      · exact absurd rfl hqr
  · intro q hq
    obtain hq | rfl := (hslab q).mp hq
    · -- the pages and objects of another slab are not touched
      rw [update_of_ne (hne hq)]
      refine (h.slab q hq).congr (update_of_ne (hne hq) ..) ?_
        (update_of_ne (hne hq) ..) (update_of_ne (hne hq) ..)
        (update_of_ne (hne hq) ..) ?_
      · intro r hle hlt
        show (if pg.pfn ≤ r ∧ r < pg.pfn + 2 ^ c.order then pg.pfn else s.compoundHead r) = _
        rw [if_neg]
        rintro ⟨hle', hlt'⟩
        cases hapart q hq with
        | inl hbelow => exact absurd (hlt.trans_le (hbelow.trans hle')) (lt_irrefl _)
        | inr habove => exact absurd (hlt'.trans_le (habove.trans hle)) (lt_irrefl _)
      · intro i hi
        apply hword
        intro j hj
        exact hg.ne_of_disjoint (hg.disjoint_of_apart (hapart q hq) ((h.slab q hq).bound i hi) hj)
    · rw [update_self]
      refine ⟨(update_self ..).trans hhead, ?_, update_self .., ?_, ?_,
        nodup_range, fun i hi => mem_range.mp hi⟩
      · intro r hle hlt
        exact if_pos ⟨hle, hlt⟩
      · show update s.inuse pg.pfn 0 pg.pfn + (range c.objNr).length = c.objNr
        rw [update_self, length_range, zero_add]
      · show Chained word 0 (update s.freelist pg.pfn _ pg.pfn) _
        rw [update_self]
        exact hchain
  · intro x
    rw [h.held x]
    constructor
    · rintro ⟨q, i, hq, hi, hfree, rfl⟩
      refine ⟨q, i, (hslab q).mpr (.inl hq), hi, ?_, rfl⟩
      rwa [update_of_ne (hne hq)]
    · rintro ⟨q, i, hq, hi, hfree, rfl⟩
      obtain hq | rfl := (hslab q).mp hq
      · rw [update_of_ne (hne hq)] at hfree
        exact ⟨q, i, hq, hi, hfree, rfl⟩
      · -- all objects of the new slab are free
        rw [update_self] at hfree
        exact absurd (mem_range.mpr hi) hfree
  · show s.nrSlabs + 1 = _
    rw [h.nrSlabs, length_cons]
    omega
  · rw [h.totalObjects, length_cons]
    push_cast
    ring

end Keeps

end Slabs

end MyOS2.Slub
