import Mathlib.Data.List.Nodup
import Mathlib.Data.List.Basic
import Mathlib.Logic.Function.Basic
import Mathlib.Tactic.Tauto

/-!
# Circular doubly linked lists

Nodes of a type `ν` point to each other through two fields. A ring is an anchor
and the list of nodes one meets on the way back to it; a family of rings is any
number of them with no node in common. The operations of such lists write links
one pair at a time, so one lemma says what a single link does to a path.
-/

namespace MyOS2

open Function List

/-- What a link field can hold: nothing, a value that marks an unlinked node, a node, or a node with
the lowest bit of its address set. -/
inductive Ptr (ν : Type)
  | null
  | poison
  | node (n : ν)
  | marked (n : ν)
  deriving DecidableEq

/-- The pointers of doubly linked nodes. -/
structure Links (ν : Type) where
  next : ν → Ptr ν
  prev : ν → Ptr ν

namespace Links

variable {ν : Type}

def Link (L : Links ν) (a b : ν) : Prop := L.next a = .node b ∧ L.prev b = .node a

/-- The path from `x` to `y` leads through `xs`. -/
def Linked (L : Links ν) : ν → List ν → ν → Prop
  | x, [], y => L.Link x y
  | x, z :: zs, y => L.Link x z ∧ L.Linked z zs y

variable {L L' : Links ν} {x y z p q a b : ν} {xs ys : List ν}

theorem Linked.unique (hxs : L.Linked x xs y) (hys : L.Linked x ys y) (hx : y ∉ xs)
    (hy : y ∉ ys) : xs = ys := by
  induction xs generalizing x ys with
  | nil =>
    cases ys with
    | nil => rfl
    | cons w ws =>
      obtain rfl : y = w := Ptr.node.inj (hxs.1.symm.trans hys.1.1)
      exact absurd (mem_cons_self ..) hy
  | cons z zs ih =>
    cases ys with
    | nil =>
      obtain rfl : y = z := Ptr.node.inj (hys.1.symm.trans hxs.1.1)
      exact absurd (mem_cons_self ..) hx
    | cons w ws =>
      obtain rfl : z = w := Ptr.node.inj (hxs.1.1.symm.trans hys.1.1)
      rw [ih hxs.2 hys.2 (not_mem_of_not_mem_cons hx) (not_mem_of_not_mem_cons hy)]

theorem linked_append : L.Linked x (xs ++ z :: ys) y ↔ L.Linked x xs z ∧ L.Linked z ys y := by
  induction xs generalizing x with
  | nil => rfl
  | cons w xs ih =>
    simp only [cons_append, Linked, ih]
    rw [and_assoc]

theorem Linked.congr (h : L.Linked x xs y)
    (hnext : ∀ n ∈ x :: xs, L'.next n = L.next n)
    (hprev : ∀ n ∈ y :: xs, L'.prev n = L.prev n) : L'.Linked x xs y := by
  induction xs generalizing x with
  | nil =>
    simp only [Linked, Link] at h ⊢
    rw [hnext x (by simp), hprev y (by simp)]
    exact h
  | cons z zs ih =>
    obtain ⟨⟨h1, h2⟩, hrest⟩ := h
    refine ⟨⟨?_, ?_⟩, ih hrest ?_ ?_⟩
    · rw [hnext x (by simp)]
      exact h1
    · rw [hprev z (by simp)]
      exact h2
    · intro n hn
      exact hnext n (mem_cons_of_mem _ hn)
    · intro n hn
      apply hprev n
      rcases mem_cons.1 hn with rfl | hn
      · simp
      · simp [hn]

theorem Linked.exists_first (h : L.Linked x xs y) :
    ∃ q, L.Link x q ∧ ((xs = [] ∧ q = y) ∨ ∃ zs, xs = q :: zs ∧ L.Linked q zs y) := by
  cases xs with
  | nil => exact ⟨y, h, .inl ⟨rfl, rfl⟩⟩
  | cons z zs => exact ⟨z, h.1, .inr ⟨zs, rfl, h.2⟩⟩

theorem Linked.prev_mem (h : L.Linked x xs y) (hz : z ∈ y :: xs) :
    ∃ p ∈ x :: xs, L.prev z = .node p := by
  induction xs generalizing x with
  | nil =>
    rw [mem_singleton.1 hz]
    exact ⟨x, mem_cons_self, h.2⟩
  | cons w ws ih =>
    have hcases : z = w ∨ z ∈ y :: ws := by
      simp only [mem_cons] at hz ⊢
      tauto
    rcases hcases with rfl | hz
    · exact ⟨x, mem_cons_self, h.1.2⟩
    · obtain ⟨p, hp, hprev⟩ := ih h.2 hz
      exact ⟨p, mem_cons_of_mem _ hp, hprev⟩

theorem Linked.next_ne_self (h : L.Linked x xs y) (hnodup : (y :: xs).Nodup) (hz : z ∈ xs) :
    L.next z ≠ .node z := by
  induction xs generalizing x with
  | nil => exact absurd hz not_mem_nil
  | cons w ws ih =>
    simp only [nodup_cons, mem_cons, not_or] at hnodup
    obtain ⟨⟨hyw, hyws⟩, hwws, hws⟩ := hnodup
    rcases mem_cons.1 hz with rfl | hz
    · obtain ⟨q, hlink, hrest⟩ := h.2.exists_first
      rw [hlink.1]
      rintro ⟨⟩
      rcases hrest with ⟨-, rfl⟩ | ⟨zs, rfl, -⟩
      · exact hyw rfl
      · exact hwws mem_cons_self
    · exact ih h.2 (nodup_cons.2 ⟨hyws, hws⟩) hz

/-- The nodes met from `x` on before the anchor `a` comes up, at most `fuel` of them. -/
def walk [DecidableEq ν] (L : Links ν) (a : ν) : Nat → ν → List ν
  | 0, _ => []
  | fuel + 1, x =>
    match L.next x with
    | .node y => if y = a then [] else y :: L.walk a fuel y
    | _ => []

def join [DecidableEq ν] (L : Links ν) (a b : ν) : Links ν :=
  { next := update L.next a (.node b)
    prev := update L.prev b (.node a) }

variable [DecidableEq ν]

theorem Linked.walk (h : L.Linked x xs a) (ha : a ∉ xs) {fuel : Nat} (hfuel : xs.length < fuel) :
    L.walk a fuel x = xs := by
  induction xs generalizing x fuel with
  | nil =>
    obtain ⟨fuel, rfl⟩ := Nat.exists_eq_succ_of_ne_zero (Nat.ne_of_gt hfuel)
    simp [Links.walk, h.1]
  | cons z zs ih =>
    simp only [mem_cons, not_or] at ha
    obtain ⟨fuel, rfl⟩ := Nat.exists_eq_succ_of_ne_zero (Nat.ne_of_gt (Nat.zero_lt_of_lt hfuel))
    have hrest := ih h.2 ha.2 (Nat.lt_of_succ_lt_succ hfuel)
    simp [Links.walk, h.1.1, Ne.symm ha.1, hrest]

theorem join_link : (L.join a b).Link a b := by
  simp [join, Link]

theorem Link.join (h : L.Link x y) (hx : x ≠ a) (hy : y ≠ b) : (L.join a b).Link x y := by
  simpa [Links.join, Link, hx, hy] using h

theorem Linked.join (h : L.Linked x xs y) (ha : a ∉ x :: xs) (hb : b ∉ xs) (hy : b ≠ y) :
    (L.join a b).Linked x xs y := by
  induction xs generalizing x with
  | nil => exact Link.join h (by simpa [eq_comm] using ha) hy.symm
  | cons z zs ih =>
    simp only [mem_cons, not_or] at ha hb
    obtain ⟨hlink, hrest⟩ := h
    refine ⟨hlink.join (Ne.symm ha.1) (Ne.symm hb.1), ?_⟩
    apply ih hrest
    · simpa using ha.2
    · exact hb.2

theorem Linked.exists_last (h : L.Linked x xs y) (hnodup : (x :: xs).Nodup) :
    ∃ p ∈ x :: xs, L.Link p y ∧ ∀ q, q ∉ xs → (L.join p q).Linked x xs q := by
  induction xs generalizing x with
  | nil => exact ⟨x, by simp, h, fun q _ => join_link⟩
  | cons z zs ih =>
    obtain ⟨hlink, hrest⟩ := h
    obtain ⟨hx, hzs⟩ := nodup_cons.1 hnodup
    obtain ⟨p, hp, hlast, hlead⟩ := ih hrest hzs
    refine ⟨p, mem_cons_of_mem _ hp, hlast, ?_⟩
    intro q hq
    simp only [mem_cons, not_or] at hq
    refine ⟨hlink.join ?_ (Ne.symm hq.1), hlead q hq.2⟩
    rintro rfl
    exact hx hp

/-! ## Families of rings -/

/-- The rings with the given anchors lead through the lists `xs`, and have no node in common. -/
structure Rings {ι : Type} (L : Links ν) (anchor : ι → ν) (xs : ι → List ν) : Prop where
  linked : ∀ i, L.Linked (anchor i) (xs i) (anchor i)
  nodup : ∀ i, (anchor i :: xs i).Nodup
  apart : ∀ i j, i ≠ j → List.Disjoint (anchor i :: xs i) (anchor j :: xs j)

namespace Rings

variable {ι : Type} {anchor : ι → ν} {xs : ι → List ν} {i : ι} {n : ν}

omit [DecidableEq ν] in
theorem congr (h : L.Rings anchor xs)
    (hnext : ∀ i, ∀ n ∈ anchor i :: xs i, L'.next n = L.next n)
    (hprev : ∀ i, ∀ n ∈ anchor i :: xs i, L'.prev n = L.prev n) : L'.Rings anchor xs :=
  ⟨fun i => (h.linked i).congr (hnext i) (hprev i), h.nodup, h.apart⟩

variable [DecidableEq ι]

omit [DecidableEq ν] in
/-- One ring is replaced: its nodes are old ones of it or were in no ring, and no link outside it is
written. -/
theorem replace (h : L.Rings anchor xs) {ys : List ν} (hlink : L'.Linked (anchor i) ys (anchor i))
    (hnodup : (anchor i :: ys).Nodup)
    (hold : ∀ n ∈ ys, n ∈ xs i ∨ ∀ j, n ∉ anchor j :: xs j)
    (hnext : ∀ j, j ≠ i → ∀ n ∈ anchor j :: xs j, L'.next n = L.next n)
    (hprev : ∀ j, j ≠ i → ∀ n ∈ anchor j :: xs j, L'.prev n = L.prev n) :
    L'.Rings anchor (update xs i ys) := by
  have hapart : ∀ j, j ≠ i → List.Disjoint (anchor i :: ys) (anchor j :: xs j) := by
    intro j hj n hn hn'
    rcases mem_cons.1 hn with rfl | hn
    · exact h.apart i j hj.symm (mem_cons_self) hn'
    · rcases hold n hn with hmem | hfresh
      · exact h.apart i j hj.symm (mem_cons_of_mem _ hmem) hn'
      · exact hfresh j hn'
  refine ⟨?_, ?_, ?_⟩
  · intro j
    by_cases hj : j = i
    · subst hj
      simpa using hlink
    · rw [update_of_ne hj]
      exact (h.linked j).congr (hnext j hj) (hprev j hj)
  · intro j
    by_cases hj : j = i
    · subst hj
      simpa using hnodup
    · rw [update_of_ne hj]
      exact h.nodup j
  · intro j k hjk
    by_cases hj : j = i
    · subst hj
      rw [update_self, update_of_ne hjk.symm]
      exact hapart k hjk.symm
    · by_cases hk : k = i
      · subst hk
        rw [update_self, update_of_ne hj]
        exact fun n hn hn' => hapart j hj hn' hn
      · rw [update_of_ne hj, update_of_ne hk]
        exact h.apart j k hjk

omit [DecidableEq ν] [DecidableEq ι] in
theorem not_mem_of_ne (h : L.Rings anchor xs) {j : ι} (hij : j ≠ i) (hn : n ∈ anchor j :: xs j) :
    n ∉ anchor i :: xs i :=
  fun hn' => h.apart j i hij hn hn'

theorem addHead (h : L.Rings anchor xs) (i : ι) (hfresh : ∀ j, n ∉ anchor j :: xs j) :
    ∃ q, L.Link (anchor i) q ∧ (n ≠ anchor i ∧ n ≠ q) ∧
      ((L.join (anchor i) n).join n q).Rings anchor (update xs i (n :: xs i)) := by
  have hni := hfresh i
  obtain ⟨hanchor, hxs⟩ := nodup_cons.1 (h.nodup i)
  obtain ⟨hna, hnx⟩ : n ≠ anchor i ∧ n ∉ xs i := by simpa using hni
  obtain ⟨q, hlink, hrest⟩ := (h.linked i).exists_first
  have hq : q ∈ anchor i :: xs i := by
    rcases hrest with ⟨-, rfl⟩ | ⟨zs, hzs, -⟩
    · simp
    · simp [hzs]
  have hnq := (ne_of_mem_of_not_mem hq hni).symm
  refine ⟨q, hlink, ⟨hna, hnq⟩, h.replace ?_ ?_ ?_ ?_ ?_⟩
  · refine ⟨join_link.join hna.symm hnq, ?_⟩
    rcases hrest with ⟨hnil, rfl⟩ | ⟨zs, hzs, hrest⟩
    · rw [hnil]
      exact join_link
    · rw [hzs] at hanchor hxs hnx ⊢
      obtain ⟨hqz, -⟩ := nodup_cons.1 hxs
      obtain ⟨haq, haz⟩ : anchor i ≠ q ∧ anchor i ∉ zs := by simpa using hanchor
      refine ⟨join_link, ?_⟩
      apply Linked.join
      · apply hrest.join hanchor
        · exact fun hn => hnx (mem_cons_of_mem _ hn)
        · exact hna
      · exact hnx
      · exact hqz
      · exact haq.symm
  · simp only [nodup_cons, mem_cons, not_or]
    exact ⟨⟨hna.symm, hanchor⟩, hnx, hxs⟩
  · intro m hm
    rcases mem_cons.1 hm with rfl | hm
    · exact .inr hfresh
    · exact .inl hm
  · intro j hj m hm
    have hmi := h.not_mem_of_ne hj hm
    have hmn := ne_of_mem_of_not_mem hm (hfresh j)
    have hma : m ≠ anchor i := fun he => hmi (by simp [he])
    simp [join, hmn, hma]
  · intro j hj m hm
    have hmi := h.not_mem_of_ne hj hm
    have hmn := ne_of_mem_of_not_mem hm (hfresh j)
    have hmq := (ne_of_mem_of_not_mem hq hmi).symm
    simp [join, hmn, hmq]

theorem addTail (h : L.Rings anchor xs) (i : ι) (hfresh : ∀ j, n ∉ anchor j :: xs j) :
    ∃ p, L.Link p (anchor i) ∧ (n ≠ p ∧ n ≠ anchor i) ∧
      ((L.join p n).join n (anchor i)).Rings anchor (update xs i (xs i ++ [n])) := by
  have hni := hfresh i
  obtain ⟨hanchor, hxs⟩ := nodup_cons.1 (h.nodup i)
  obtain ⟨hna, hnx⟩ : n ≠ anchor i ∧ n ∉ xs i := by simpa using hni
  obtain ⟨p, hp, hlink, hlead⟩ := (h.linked i).exists_last (h.nodup i)
  have hnp := (ne_of_mem_of_not_mem hp hni).symm
  refine ⟨p, hlink, ⟨hnp, hna⟩, h.replace ?_ ?_ ?_ ?_ ?_⟩
  · rw [linked_append]
    refine ⟨?_, join_link⟩
    apply (hlead n hnx).join hni
    · exact hanchor
    · exact hna.symm
  · rw [← cons_append, nodup_append]
    refine ⟨h.nodup i, by simp, ?_⟩
    rintro m hm k hk rfl
    rw [mem_singleton.1 hk] at hm
    exact hni hm
  · intro m hm
    rcases mem_append.1 hm with hm | hm
    · exact .inl hm
    · rw [mem_singleton.1 hm]
      exact .inr hfresh
  · intro j hj m hm
    have hmi := h.not_mem_of_ne hj hm
    have hmn := ne_of_mem_of_not_mem hm (hfresh j)
    have hmp := (ne_of_mem_of_not_mem hp hmi).symm
    simp [join, hmn, hmp]
  · intro j hj m hm
    have hmi := h.not_mem_of_ne hj hm
    have hmn := ne_of_mem_of_not_mem hm (hfresh j)
    have hma : m ≠ anchor i := fun he => hmi (by simp [he])
    simp [join, hmn, hma]

theorem delete (h : L.Rings anchor xs) {ls rs : List ν} (hi : xs i = ls ++ n :: rs) :
    ∃ p q, L.Link p n ∧ L.Link n q ∧
      ((L.join p q).join n n).Rings anchor (update xs i (ls ++ rs)) := by
  have hnodup := h.nodup i
  have hlinked := h.linked i
  rw [hi, linked_append] at hlinked
  rw [hi, ← cons_append] at hnodup
  obtain ⟨hls, hnrs, hdisj⟩ := nodup_append.1 hnodup
  obtain ⟨hnr, hrs⟩ := nodup_cons.1 hnrs
  have hnl : n ∉ anchor i :: ls := fun hn => hdisj n hn n (by simp) rfl
  have harn : anchor i ∉ n :: rs := fun ha => hdisj _ (by simp) _ ha rfl
  obtain ⟨p, hp, hplink, hlead⟩ := hlinked.1.exists_last hls
  obtain ⟨q, hqlink, hrest⟩ := hlinked.2.exists_first
  have hpn : p ≠ n := by
    rintro rfl
    exact hnl hp
  have hq : q ∈ anchor i :: rs := by
    rcases hrest with ⟨-, rfl⟩ | ⟨zs, hzs, -⟩
    · simp
    · simp [hzs]
  have hqn : q ≠ n := by
    rintro rfl
    rcases mem_cons.1 hq with he | hq
    · exact hnl (by simp [he])
    · exact hnr hq
  have hql : q ∉ ls := by
    intro hmem
    rcases mem_cons.1 hq with rfl | hq
    · exact (nodup_cons.1 hls).1 hmem
    · exact hdisj q (by simp [hmem]) q (by simp [hq]) rfl
  have hmem : ∀ m ∈ [p, q, n], m ∈ anchor i :: xs i := by
    rw [hi]
    intro m hm
    simp only [mem_cons, not_mem_nil, or_false] at hm hp hq ⊢
    rcases hm with rfl | rfl | rfl
    · rcases hp with hp | hp <;> simp [hp]
    · rcases hq with hq | hq <;> simp [hq]
    · simp
  refine ⟨p, q, hplink, hqlink, h.replace ?_ ?_ ?_ ?_ ?_⟩
  · have hnew : ((L.join p q).join n n).Linked (anchor i) ls q := by
      apply (hlead q hql).join hnl
      · exact fun hn => hnl (mem_cons_of_mem _ hn)
      · exact hqn.symm
    rcases hrest with ⟨rfl, rfl⟩ | ⟨zs, rfl, hrest⟩
    · simpa using hnew
    · rw [linked_append]
      refine ⟨hnew, ?_⟩
      obtain ⟨hqz, -⟩ := nodup_cons.1 hrs
      simp only [mem_cons, not_or] at hnr harn
      apply Linked.join
      · apply hrest.join
        · intro hpz
          exact hdisj p hp p (mem_cons_of_mem _ hpz) rfl
        · exact hqz
        · exact Ne.symm harn.2.1
      · simpa using hnr
      · exact hnr.2
      · exact Ne.symm harn.1
  · rw [← cons_append, nodup_append]
    refine ⟨hls, hrs, ?_⟩
    intro m hm k hk
    exact hdisj m hm k (mem_cons_of_mem _ hk)
  · intro m hm
    left
    rw [hi]
    rcases mem_append.1 hm with hm | hm <;> simp [hm]
  · intro j hj m hm
    have hmi := h.not_mem_of_ne hj hm
    have hmp := (ne_of_mem_of_not_mem (hmem p (by simp)) hmi).symm
    have hmn := (ne_of_mem_of_not_mem (hmem n (by simp)) hmi).symm
    simp [join, hmp, hmn]
  · intro j hj m hm
    have hmi := h.not_mem_of_ne hj hm
    have hmq := (ne_of_mem_of_not_mem (hmem q (by simp)) hmi).symm
    have hmn := (ne_of_mem_of_not_mem (hmem n (by simp)) hmi).symm
    simp [join, hmq, hmn]

end Rings

end Links

end MyOS2
