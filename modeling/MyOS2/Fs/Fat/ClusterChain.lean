import MyOS2.Fs.Fat.Iobuf
import Mathlib.Data.Finset.Card
import Mathlib.Order.Interval.Finset.Nat

/-!
# Collecting a chain of clusters (`fs/fat/myos_fat32_iobuf.c`)

`get_cluster_chain` follows the table until an entry is not the number of a cluster that
a volume of any size could have.
-/

namespace MyOS2.Fat32

open List Nat

def enomem : Int := 12

/-- `MAX_FAT32` and `FAT_ENT_BAD`. -/
def maxFat32 : Nat := 0x0ffffff6

@[inherit_doc maxFat32]
def entBad : Nat := 0x0ffffff7

def GoesOn (cluster : Nat) : Prop := cluster ≤ maxFat32 ∧ 2 ≤ cluster

instance (cluster : Nat) : Decidable (GoesOn cluster) := inferInstanceAs (Decidable (_ ∧ _))

section

variable (sb : SbInfo) (disk : Bytes)

/-- The loop of `get_cluster_chain` (`myos_fat32_iobuf.c:21-55`), for `fuel` rounds at most.
`kmalloc` tells which of its calls get memory. -/
def chainLoop (kmalloc : Nat → Bool) : Nat → List Nat → Nat → Option (Except Int (List Nat))
  | 0, _, _ => none
  | fuel + 1, got, cluster =>
    if kmalloc (got.length + 1) then
      let next := readFatEntry sb disk (cluster % 2 ^ 32)
      if GoesOn next then chainLoop kmalloc fuel (got ++ [cluster]) next
      else if next = entBad then some (.error (-eio))
      else some (.ok (got ++ [cluster]))
    else some (.error (-enomem))

/-- `get_cluster_chain` (`myos_fat32_iobuf.c:21-55`). -/
def getClusterChain (kmalloc : Nat → Bool) (fuel first : Nat) : Option (Except Int (List Nat)) :=
  if kmalloc 0 then
    if 0 < first then chainLoop sb disk kmalloc fuel [] first else some (.ok [])
  else some (.error (-enomem))

def chain (first : Nat) : Nat → Nat
  | 0 => first
  | i + 1 => readFatEntry sb disk (chain first i % 2 ^ 32)

end

/-! ## What a chain is -/

section

variable (c : Nat → Nat) (clusters : Nat)

/-- `n` clusters of a volume, which have the numbers from 2 on, and a mark for the end. -/
structure ChainOf (n : Nat) : Prop where
  pos : 0 < n
  inVolume : ∀ i < n, c i < clusters + 2 ∧ GoesOn (c i)
  ends : endOfChain ≤ c n

def IsChain (ks : List Nat) : Prop :=
  (c 0 = 0 ∧ ks = []) ∨ ∃ n, ChainOf c clusters n ∧ ks = (range n).map c

/-- There is a chain; or it gets to the mark of a bad cluster, or to the end of the memory, in as
many rounds as there are clusters. -/
def EndsInTime (kmalloc : Nat → Bool) : Prop :=
  kmalloc 0 = false ∨ (∃ ks, IsChain c clusters ks) ∨
    ∃ m < clusters, (∀ i < m, GoesOn (c (i + 1))) ∧ (kmalloc (m + 1) = true → c (m + 1) = entBad)

/-- The call returned the chain, or an error because of the memory or because there is none. -/
def Right : Except Int (List Nat) → Prop
  | .ok ks => IsChain c clusters ks
  | .error e => e = -enomem ∨ ∀ ks, ¬ IsChain c clusters ks

end

/-- The call returns in as many rounds as there are clusters, and what it should. -/
def Collects (sb : SbInfo) (disk : Bytes) (kmalloc : Nat → Bool) (clusters first : Nat) : Prop :=
  ∃ r, getClusterChain sb disk kmalloc clusters first = some r ∧
    Right (chain sb disk first) clusters r

variable {sb : SbInfo} {disk : Bytes} {kmalloc : Nat → Bool} {c : Nat → Nat} {clusters n i j m : Nat}

theorem not_goesOn_of_end (h : endOfChain ≤ i) : ¬ GoesOn i := fun hgo => by
  have := hgo.1
  simp only [endOfChain, maxFat32] at *
  omega

theorem not_goesOn_bad : ¬ GoesOn entBad := by decide

theorem ChainOf.eq_succ (h : ChainOf c clusters n) (hbefore : ∀ i < m, GoesOn (c (i + 1)))
    (hstop : ¬ GoesOn (c (m + 1))) : n = m + 1 := by
  by_contra hne
  rcases Nat.lt_or_gt_of_ne hne with hlt | hgt
  · have hlast := hbefore (n - 1) (by have := h.pos; omega)
    rw [Nat.sub_add_cancel h.pos] at hlast
    exact not_goesOn_of_end h.ends hlast
  · exact hstop (h.inVolume _ hgt).2

/-- The round that reads the entry of the `i`-th cluster is not the last. -/
def Continues (kmalloc : Nat → Bool) (c : Nat → Nat) (i : Nat) : Prop :=
  kmalloc (i + 1) = true ∧ GoesOn (c (i + 1))

def stopWith (kmalloc : Nat → Bool) (c : Nat → Nat) (i : Nat) : Except Int (List Nat) :=
  if kmalloc (i + 1) then
    if c (i + 1) = entBad then .error (-eio) else .ok ((range (i + 1)).map c)
  else .error (-enomem)

section Table

variable (hc : ∀ i, c (i + 1) = readFatEntry sb disk (c i % 2 ^ 32))
include hc

theorem eq_add (h : c i = c j) (k : Nat) : c (i + k) = c (j + k) := by
  induction k with
  | zero => exact h
  | succ k ih => rw [← Nat.add_assoc, ← Nat.add_assoc, hc, hc, ih]

theorem ChainOf.le (h : ChainOf c clusters n) : n ≤ clusters := by
  have hinj : ∀ i j, j < n → i < j → c i ≠ c j := by
    intro i j hj hij heq
    have hback := eq_add hc heq (n - j)
    rw [Nat.add_sub_cancel' hj.le] at hback
    exact not_goesOn_of_end h.ends (hback ▸ (h.inVolume _ (by omega)).2)
  have hcard : (Finset.range n).card ≤ (Finset.Ico 2 (clusters + 2)).card := by
    refine Finset.card_le_card_of_injOn c (fun i hi => ?_) ?_
    · have hin := h.inVolume i (by simpa using hi)
      simpa using ⟨hin.2.2, hin.1⟩
    · intro i hi j hj heq
      simp only [Finset.coe_range, Set.mem_Iio] at hi hj
      rcases Nat.lt_trichotomy i j with hij | rfl | hij
      · exact absurd heq (hinj i j hj hij)
      · rfl
      · exact absurd heq.symm (hinj j i hi hij)
  simpa using hcard

theorem chainLoop_of_continues (h : Continues kmalloc c n) (fuel : Nat) :
    chainLoop sb disk kmalloc (fuel + 1) ((range n).map c) (c n) =
      chainLoop sb disk kmalloc fuel ((range (n + 1)).map c) (c (n + 1)) := by
  have hgo := h.2
  rw [hc] at hgo ⊢
  rw [chainLoop, length_map, length_range, if_pos h.1, if_pos hgo, range_succ, map_append,
    map_singleton]

theorem chainLoop_of_stop (h : ¬ Continues kmalloc c n) (fuel : Nat) :
    chainLoop sb disk kmalloc (fuel + 1) ((range n).map c) (c n) = some (stopWith kmalloc c n) := by
  rw [chainLoop, length_map, length_range, stopWith]
  by_cases hmem : kmalloc (n + 1) = true
  · have hstop : ¬ GoesOn (c (n + 1)) := fun hgo => h ⟨hmem, hgo⟩
    rw [hc] at hstop ⊢
    rw [if_pos hmem, if_pos hmem, if_neg hstop, range_succ, map_append, map_singleton]
    split <;> rfl
  · rw [if_neg hmem, if_neg hmem]

/-- The loop uses up its fuel, or stops with the first round that does not continue. -/
theorem chainLoop_cases (kmalloc : Nat → Bool) (fuel k : Nat) :
    (∀ i, k ≤ i → i < k + fuel → Continues kmalloc c i) ∧
        chainLoop sb disk kmalloc fuel ((range k).map c) (c k) = none ∨
      ∃ m, m < k + fuel ∧ (∀ i, k ≤ i → i < m → Continues kmalloc c i) ∧ ¬ Continues kmalloc c m ∧
        chainLoop sb disk kmalloc fuel ((range k).map c) (c k) = some (stopWith kmalloc c m) := by
  induction fuel generalizing k with
  | zero => exact .inl ⟨fun i hk hi => by omega, rfl⟩
  | succ fuel ih =>
    by_cases hgo : Continues kmalloc c k
    · have hfrom : ∀ {b}, (∀ i, k + 1 ≤ i → i < b → Continues kmalloc c i) →
          ∀ i, k ≤ i → i < b → Continues kmalloc c i := by
        intro b h i hk hi
        rcases Nat.eq_or_lt_of_le hk with rfl | hk
        · exact hgo
        · exact h i hk hi
      rw [chainLoop_of_continues hc hgo, ← Nat.succ_add_eq_add_succ]
      rcases ih (k + 1) with ⟨hall, hnone⟩ | ⟨m, hm, hbefore, hstop⟩
      · exact .inl ⟨hfrom hall, hnone⟩
      · exact .inr ⟨m, hm, hfrom hbefore, hstop⟩
    · exact .inr ⟨k, by omega, fun i hk hi => by omega, hgo, chainLoop_of_stop hc hgo fuel⟩

end Table

theorem right_stopWith_iff (hfirst : c 0 ≠ 0) (hheader : kmalloc 0 = true) (hm : m < clusters)
    (hbefore : ∀ i < m, Continues kmalloc c i) (hstop : ¬ Continues kmalloc c m) :
    Right c clusters (stopWith kmalloc c m) ↔ EndsInTime c clusters kmalloc := by
  have hgo : ∀ i < m, GoesOn (c (i + 1)) := fun i hi => (hbefore i hi).2
  rw [stopWith, EndsInTime, hheader]
  by_cases hmem : kmalloc (m + 1) = true
  · have hlast : ¬ GoesOn (c (m + 1)) := fun h => hstop ⟨hmem, h⟩
    by_cases hbad : c (m + 1) = entBad
    · rw [if_pos hmem, if_pos hbad]
      refine iff_of_true (.inr ?_) (.inr (.inr ⟨m, hm, hgo, fun _ => hbad⟩))
      rintro ks (⟨h, -⟩ | ⟨n, h, -⟩)
      · exact hfirst h
      · have hends := h.ends
        rw [h.eq_succ hgo hlast, hbad] at hends
        exact absurd hends (by decide)
    · rw [if_pos hmem, if_neg hbad]
      refine ⟨fun h => .inr (.inl ⟨_, h⟩), ?_⟩
      rintro (h | ⟨ks, ⟨h, -⟩ | ⟨n, h, -⟩⟩ | ⟨m', hm', hgo', hbad'⟩)
      · contradiction
      · exact absurd h hfirst
      · obtain rfl := h.eq_succ hgo hlast
        exact .inr ⟨_, h, rfl⟩
      · rcases Nat.lt_trichotomy m' m with hlt | rfl | hgt
        · obtain ⟨hmem', hgo'⟩ := hbefore m' hlt
          exact absurd (hbad' hmem' ▸ hgo') not_goesOn_bad
        · exact absurd (hbad' hmem) hbad
        · exact absurd (hgo' m hgt) hlast
  · rw [if_neg hmem]
    exact iff_of_true (.inl rfl) (.inr (.inr ⟨m, hm, hgo, fun h => absurd h hmem⟩))

/-- `get_cluster_chain` (`myos_fat32_iobuf.c:21-55`) collects the chain exactly when the chain ends
while the arrays and the memory last. -/
theorem collects_iff_endsInTime (sb : SbInfo) (disk : Bytes) (kmalloc : Nat → Bool)
    (clusters first : Nat) : Collects sb disk kmalloc clusters first ↔
      EndsInTime (chain sb disk first) clusters kmalloc := by
  rw [Collects, getClusterChain]
  cases hheader : kmalloc 0 with
  | false => exact iff_of_true ⟨_, rfl, .inl rfl⟩ (.inl hheader)
  | true =>
    have hc : ∀ i, chain sb disk first (i + 1) = readFatEntry sb disk (chain sb disk first i % 2 ^ 32) :=
      fun _ => rfl
    rw [if_pos rfl]
    rcases Nat.eq_zero_or_pos first with rfl | hfirst
    · exact iff_of_true ⟨_, rfl, .inl ⟨rfl, rfl⟩⟩ (.inr (.inl ⟨[], .inl ⟨rfl, rfl⟩⟩))
    rw [if_pos hfirst]
    have hloop := chainLoop_cases hc kmalloc clusters 0
    rw [Nat.zero_add] at hloop
    rcases hloop with ⟨hall, hnone⟩ | ⟨m, hm, hbefore, hstop, hsome⟩
    · -- the loop goes on for too long
      refine iff_of_false (fun ⟨r, hr, _⟩ => absurd (hr.symm.trans hnone) (by simp)) ?_
      rintro (h | ⟨ks, ⟨h, -⟩ | ⟨n, h, -⟩⟩ | ⟨m, hm, -, hbad⟩)
      · exact absurd (hheader.symm.trans h) (by simp)
      · exact absurd h hfirst.ne'
      · have hpos := h.pos
        have hlast := (hall (n - 1) (by omega) (by have := h.le hc; omega)).2
        rw [Nat.sub_add_cancel hpos] at hlast
        exact not_goesOn_of_end h.ends hlast
      · obtain ⟨hmem, hgo⟩ := hall m (by omega) hm
        exact not_goesOn_bad (hbad hmem ▸ hgo)
    · rw [← right_stopWith_iff hfirst.ne' hheader hm (fun i hi => hbefore i (by omega) hi) hstop]
      constructor
      · rintro ⟨r, hr, hright⟩
        cases hr.symm.trans hsome
        exact hright
      · exact fun h => ⟨_, hsome, h⟩

def oneCluster : SbInfo := ⟨1, 512, 1, 0, 1, 1⟩

/-- The entry of the cluster leads back to it. -/
theorem cycle_not_collected :
    getClusterChain oneCluster (fun a => if a = 8 then 2 else 0) (fun _ => true) 1 2 = none := by
  decide

end MyOS2.Fat32
