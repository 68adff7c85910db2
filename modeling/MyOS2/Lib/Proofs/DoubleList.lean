import MyOS2.Lib.DoubleList

/-!
# What the list operations do to a family of lists

Every caller in the kernel keeps several lists at once, all of whose nodes are
of one type. `Headed` says what the lists are; each operation replaces one of
them and returns.
-/

namespace MyOS2.DoubleList

open Function Option List

variable {ν ι : Type} [DecidableEq ν] {s : Lists ν} {anchor : ι → ν} {xs : ι → List ν} {i : ι}
  {n : ν}

/-- The lists behind the anchors are `xs`, and every header counts its own. -/
structure Headed (s : Lists ν) (anchor : ι → ν) (xs : ι → List ν) : Prop where
  rings : s.Rings anchor xs
  count : ∀ i, s.count (anchor i) = (xs i).length

def Off (anchor : ι → ν) (xs : ι → List ν) (n : ν) : Prop := ∀ j, n ∉ anchor j :: xs j

theorem listAddBetween_of_link {p q : ν} (h : s.Link p q) (hp : n ≠ p) (hq : n ≠ q) :
    listAddBetween s n (.node p) (.node q) = some { s with toLinks := (s.join p n).join n q } := by
  rw [listAddBetween, if_pos ⟨h.2, h.1, hp, hq⟩]

theorem listDelInit_of_link {p q : ν} (hp : s.Link p n) (hq : s.Link n q) :
    listDelInit s n = some { s with toLinks := (s.join p q).join n n } := by
  have hentry : listDelEntry s n = some { s with toLinks := s.join p q } := by
    simp only [listDelEntry, hp.2, hq.1]
    rw [if_pos ⟨hp.1, hq.2⟩]
  rw [listDelInit, hentry]
  rfl

/-! Which links an operation leaves alone. -/

theorem listAddBetween_next {s' : Lists ν} {p q : Ptr ν} (h : listAddBetween s n p q = some s')
    {m : ν} (hp : p ≠ .node m) (hm : m ≠ n) : s'.next m = s.next m := by
  rw [listAddBetween.eq_def] at h
  split at h
  · rename_i a b
    split at h
    · have hma : m ≠ a := fun heq => hp (heq ▸ rfl)
      rw [← some.inj h]
      simp [Links.join, hm, hma]
    · contradiction
  · contradiction

theorem addToHead_next {s' : Lists ν} {a m : ν} (h : listHeaderAddToHead s a n = some s')
    (ha : a ≠ m) (hmn : m ≠ n) : s'.next m = s.next m := by
  obtain ⟨s₁, hlink, hcount⟩ := bind_eq_some_iff.mp h
  rw [← some.inj hcount]
  exact listAddBetween_next hlink (by simpa using ha) hmn

theorem listDelInit_next {s' : Lists ν} (h : listDelInit s n = some s') :
    s'.next n = .node n ∧ ∀ m, m ≠ n → s.prev n ≠ .node m → s'.next m = s.next m := by
  rw [listDelInit, listDelEntry.eq_def] at h
  split at h
  · rename_i a b hprev hnext
    split at h
    · rw [← some.inj h]
      refine ⟨by simp [DoubleList.initList, Links.join], fun m hm hp => ?_⟩
      have hma : m ≠ a := fun heq => hp (heq ▸ hprev)
      simp [DoubleList.initList, Links.join, hm, hma]
    · contradiction
  · contradiction

variable {fuel : Nat}

namespace Headed

omit [DecidableEq ν] in
theorem anchor_ne (h : Headed s anchor xs) {j : ι} (hj : j ≠ i) : anchor j ≠ anchor i := by
  intro he
  exact h.rings.apart j i hj (mem_cons_self) (by simp [he])

theorem initList (h : Headed s anchor xs) (hoff : Off anchor xs n) :
    Headed (DoubleList.initList s n) anchor xs := by
  have hne : ∀ j, ∀ m ∈ anchor j :: xs j, m ≠ n := by
    rintro j m hm rfl
    exact hoff j hm
  refine ⟨h.rings.congr ?_ ?_, h.count⟩
  · intro j m hm
    simp [DoubleList.initList, Links.join, hne j m hm]
  · intro j m hm
    simp [DoubleList.initList, Links.join, hne j m hm]

theorem setNext (h : Headed s anchor xs) (hoff : Off anchor xs n) (v : Ptr ν) :
    Headed { s with next := update s.next n v } anchor xs := by
  refine ⟨h.rings.congr ?_ ?_, h.count⟩
  · rintro j m hm
    have hne : m ≠ n := by
      rintro rfl
      exact hoff j hm
    simp [hne]
  · intro j m hm
    rfl

theorem setCount_off (h : Headed s anchor xs) (hoff : Off anchor xs n) (count : Nat) :
    Headed (DoubleList.setCount s n count) anchor xs := by
  refine ⟨h.rings, fun j => ?_⟩
  have hne : anchor j ≠ n := by
    rintro rfl
    exact hoff j mem_cons_self
  simpa [DoubleList.setCount, hne] using h.count j

theorem contains (h : Headed s anchor xs) (i : ι) (hfuel : (xs i).length < fuel)
    (n : ν) : listHeaderContains fuel s (anchor i) n = some (decide (n ∈ xs i)) := by
  have hanchor := (nodup_cons.1 (h.rings.nodup i)).1
  have key : ∀ (x : ν) (l : List ν), s.Linked x l (anchor i) → anchor i ∉ l →
      ∀ fuel, l.length < fuel →
        containsLoop s (anchor i) n fuel (s.next x) = some (decide (n ∈ l)) := by
    intro x l
    induction l generalizing x with
    | nil =>
      intro hl _ fuel hf
      obtain ⟨fuel, rfl⟩ := Nat.exists_eq_succ_of_ne_zero (Nat.ne_of_gt hf)
      rw [hl.1]
      simp [containsLoop]
    | cons z zs ih =>
      intro hl ha fuel hf
      simp only [mem_cons, not_or] at ha
      simp only [length_cons] at hf
      obtain ⟨fuel, rfl⟩ := Nat.exists_eq_succ_of_ne_zero (Nat.ne_of_gt (Nat.zero_lt_of_lt hf))
      rw [hl.1.1, containsLoop, if_neg (Ne.symm ha.1)]
      by_cases hz : z = n
      · simp [hz]
      · rw [if_neg hz, ih z hl.2 ha.2 fuel (Nat.lt_of_succ_lt_succ hf)]
        simp [Ne.symm hz]
  exact key (anchor i) (xs i) (h.rings.linked i) hanchor fuel hfuel

omit [DecidableEq ν] in
theorem prev_ne (h : Headed s anchor xs) (hn : n ∈ anchor i :: xs i) {m : ν}
    (hm : Off anchor xs m) : s.prev n ≠ .node m := by
  obtain ⟨p, hp, hprev⟩ := (h.rings.linked i).prev_mem hn
  rw [hprev]
  rintro ⟨⟩
  exact hm i hp

theorem isEmptyEntry_of_mem (h : Headed s anchor xs) (hn : n ∈ xs i) :
    listIsEmptyEntry s n = false := by
  rw [listIsEmptyEntry, decide_eq_false_iff_not]
  exact (h.rings.linked i).next_ne_self (h.rings.nodup i) hn

theorem addToTail_next (h : Headed s anchor xs) {s' : Lists ν}
    (hadd : listHeaderAddToTail s (anchor i) n = some s') {m : ν} (hm : Off anchor xs m)
    (hmn : m ≠ n) : s'.next m = s.next m := by
  obtain ⟨s₁, hlink, hcount⟩ := bind_eq_some_iff.mp hadd
  rw [← some.inj hcount]
  exact listAddBetween_next hlink (h.prev_ne (i := i) mem_cons_self hm) hmn

theorem listDelInit_off (h : Headed s anchor xs) (hn : n ∈ xs i) {s' : Lists ν}
    (hdel : listDelInit s n = some s') :
    s'.next n = .node n ∧ ∀ m, Off anchor xs m → s'.next m = s.next m := by
  obtain ⟨hself, hothers⟩ := listDelInit_next hdel
  refine ⟨hself, fun m hm => hothers m ?_ (h.prev_ne (mem_cons_of_mem _ hn) hm)⟩
  rintro rfl
  exact hm i (mem_cons_of_mem _ hn)

theorem removeHead_nil (h : Headed s anchor xs) (hi : xs i = []) :
    listHeaderRemoveHead s (anchor i) = some (none, s) := by
  rw [listHeaderRemoveHead, h.count i, hi]
  rfl

theorem deleteNode_not_mem (h : Headed s anchor xs) (hfuel : (xs i).length < fuel)
    (hn : n ∉ xs i) : listHeaderDeleteNode fuel s (anchor i) n = some s := by
  rw [listHeaderDeleteNode, h.contains i hfuel n]
  simp [hn]

variable [DecidableEq ι]

theorem replace (h : Headed s anchor xs) {L : Links ν} {ys : List ν} (count : Nat)
    (hrings : L.Rings anchor (update xs i ys)) (hcount : count = ys.length) :
    Headed (setCount { s with toLinks := L } (anchor i) count) anchor
      (update xs i ys) := by
  refine ⟨hrings, ?_⟩
  intro j
  by_cases hj : j = i
  · subst hj
    simp [setCount, hcount]
  · simp [setCount, hj, h.anchor_ne hj, h.count j]

theorem addToHead (h : Headed s anchor xs) (i : ι) (hoff : Off anchor xs n) :
    ∃ s', listHeaderAddToHead s (anchor i) n = some s' ∧
      Headed s' anchor (update xs i (n :: xs i)) := by
  obtain ⟨q, hlink, ⟨hna, hnq⟩, hrings⟩ := h.rings.addHead i hoff
  refine ⟨_, ?_, h.replace (s.count (anchor i) + 1) hrings ?_⟩
  · rw [listHeaderAddToHead, listAddToNext, hlink.1, listAddBetween_of_link hlink hna hnq]
    rfl
  · simp [h.count i]

theorem addToTail (h : Headed s anchor xs) (i : ι) (hoff : Off anchor xs n) :
    ∃ s', listHeaderAddToTail s (anchor i) n = some s' ∧
      Headed s' anchor (update xs i (xs i ++ [n])) := by
  obtain ⟨p, hlink, ⟨hnp, hna⟩, hrings⟩ := h.rings.addTail i hoff
  refine ⟨_, ?_, h.replace (s.count (anchor i) + 1) hrings ?_⟩
  · rw [listHeaderAddToTail, listAddToPrev, hlink.2, listAddBetween_of_link hlink hnp hna]
    rfl
  · simp [h.count i]

theorem removeHead_cons (h : Headed s anchor xs) {rs : List ν} (hi : xs i = n :: rs) :
    ∃ s', listHeaderRemoveHead s (anchor i) = some (some n, s') ∧
      Headed s' anchor (update xs i rs) ∧
      s'.next n = .node n ∧ ∀ m, Off anchor xs m → s'.next m = s.next m := by
  have hi' : xs i = [] ++ n :: rs := hi
  obtain ⟨p, q, hp, hq, hrings⟩ := h.rings.delete hi'
  have hfirst := (h.rings.linked i)
  rw [hi] at hfirst
  have hdel := listDelInit_of_link hp hq
  obtain ⟨hself, hothers⟩ := h.listDelInit_off (i := i) (by simp [hi]) hdel
  refine ⟨_, ?_, h.replace (s.count (anchor i) - 1) hrings ?_, hself, hothers⟩
  · have hpos : 0 < s.count (anchor i) := by simp [h.count i, hi]
    rw [listHeaderRemoveHead, if_pos hpos, hfirst.1.1]
    simp only [hdel, bind_eq_bind, bind_some]
  · simp [h.count i, hi]

theorem removeTail_append (h : Headed s anchor xs) {ls : List ν} (hi : xs i = ls ++ [n]) :
    ∃ s', listHeaderRemoveTail s (anchor i) = some (some n, s') ∧
      Headed s' anchor (update xs i ls) ∧
      s'.next n = .node n ∧ ∀ m, Off anchor xs m → s'.next m = s.next m := by
  obtain ⟨p, q, hp, hq, hrings⟩ := h.rings.delete hi
  have hlast := h.rings.linked i
  rw [hi, Links.linked_append] at hlast
  have hmem : n ∈ xs i := by
    rw [hi]
    simp
  have hdel := listDelInit_of_link hp hq
  obtain ⟨hself, hothers⟩ := h.listDelInit_off hmem hdel
  rw [append_nil] at hrings
  refine ⟨_, ?_, h.replace (s.count (anchor i) - 1) hrings ?_, hself, hothers⟩
  · have hpos : 0 < s.count (anchor i) := by simp [h.count i, hi]
    rw [listHeaderRemoveTail, if_pos hpos, hlast.2.2]
    simp only [hdel, bind_eq_bind, bind_some]
  · simp [h.count i, hi]

omit [DecidableEq ι] in
theorem deleteNode_next (h : Headed s anchor xs) (hfuel : (xs i).length < fuel)
    (hn : n ∈ xs i) {s' : Lists ν} (hdel : listHeaderDeleteNode fuel s (anchor i) n = some s') :
    s'.next n = .node n ∧ ∀ m, Off anchor xs m → s'.next m = s.next m := by
  rw [listHeaderDeleteNode, h.contains i hfuel n] at hdel
  simp only [hn, decide_true, if_true, bind_eq_bind, bind_some] at hdel
  obtain ⟨s₁, hinit, hcount⟩ := bind_eq_some_iff.mp hdel
  obtain ⟨hself, hothers⟩ := h.listDelInit_off hn hinit
  rw [← some.inj hcount]
  exact ⟨hself, hothers⟩

theorem deleteNode_mem (h : Headed s anchor xs) (hfuel : (xs i).length < fuel) (hn : n ∈ xs i) :
    ∃ s', listHeaderDeleteNode fuel s (anchor i) n = some s' ∧
      Headed s' anchor (update xs i ((xs i).erase n)) := by
  obtain ⟨ls, rs, hi⟩ := append_of_mem hn
  obtain ⟨p, q, hp, hq, hrings⟩ := h.rings.delete hi
  have herase : (xs i).erase n = ls ++ rs := by
    have hnodup := (nodup_cons.mp (h.rings.nodup i)).2
    rw [hi, nodup_middle, nodup_cons, mem_append, not_or] at hnodup
    rw [hi, erase_append_right _ hnodup.1.1, erase_cons_head]
  rw [← herase] at hrings
  refine ⟨_, ?_, h.replace (s.count (anchor i) - 1) hrings ?_⟩
  · rw [listHeaderDeleteNode, h.contains i hfuel n]
    simp only [hn, decide_true, bind_eq_bind, bind_some, if_true, listDelInit_of_link hp hq]
  · rw [h.count i, length_erase_of_mem hn]

end Headed

end MyOS2.DoubleList
