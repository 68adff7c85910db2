import MyOS2.Mm.Kmalloc.Slub
import Mathlib.Tactic.IntervalCases
import MyOS2.Misc.Word

/-!
# The objects of a slab

An opened cache has at least one object a slab, of at least one word, and the
objects of a slab fit into its pages; so objects of slabs that do not overlap do
not overlap either.
-/

namespace MyOS2.Slub

open Nat

/-- The objects fit into a slab. -/
structure Geometry (c : Cache) : Prop where
  size : 8 ≤ c.size
  objNr_pos : 0 < c.objNr
  objNr_lt : c.objNr < 2 ^ 15
  fits : c.objNr * c.size ≤ 4096 * 2 ^ c.order

/-! ## Opening a cache -/

theorem align_mod_eight {x a : BitVec 32}
    (h : ∀ i < 3, (x + (a - 1)).getLsbD i = true → (a - 1).getLsbD i = true) :
    (align x a).toNat % 8 = 0 := by
  apply eq_of_testBit_eq
  intro i
  rw [show 8 = 2 ^ 3 from rfl, testBit_mod_two_pow, zero_testBit]
  by_cases hi : i < 3
  · have hbit : (align x a).getLsbD i = false := by
      rw [align, BitVec.getLsbD_and, BitVec.getLsbD_not]
      cases hsum : (x + (a - 1)).getLsbD i with
      | false => rfl
      | true =>
        rw [h i hi hsum]
        simp
    rw [BitVec.getLsbD] at hbit
    simp [hbit]
  · simp [hi]

theorem align_eight (x : BitVec 32) : (align x 8).toNat % 8 = 0 := by
  apply align_mod_eight
  intro i hi _
  interval_cases i <;> decide

theorem align_align_eight (x a : BitVec 32) : (align (align x 8) a).toNat % 8 = 0 := by
  apply align_mod_eight
  intro i hi hsum
  have hmod : (align x 8 + (a - 1)).toNat % 2 ^ 3 = (a - 1).toNat % 2 ^ 3 := by
    have := align_eight x
    rw [BitVec.toNat_add]
    omega
  have hbit := congrArg (testBit · i) hmod
  simp only [testBit_mod_two_pow, hi, decide_true, Bool.true_and] at hbit
  exact hbit.symm.trans hsum

theorem fls64_le_iff (x o : Nat) : fls64 x ≤ o ↔ x < 2 ^ o := by
  rw [fls64]
  split
  · rename_i hx
    exact iff_of_true (zero_le o) (hx ▸ Nat.two_pow_pos o)
  · rename_i hx
    rw [succ_le_iff, log2_lt hx]

/-- `get_order` names the smallest block that is large enough. -/
theorem getOrder_le_iff {n o : Nat} (hn : 0 < n) (hlt : n < 2 ^ 64) :
    getOrder n ≤ o ↔ n ≤ 4096 * 2 ^ o := by
  have hpred : (n + 2 ^ 64 - 1) % 2 ^ 64 = n - 1 := by omega
  rw [getOrder, hpred, fls64_le_iff, div_lt_iff_lt_mul (by decide), mul_comm]
  omega

/-- The block that `get_order` names is less than twice as large as what it is for, unless it is a
single page. -/
theorem getOrder_spec {n : Nat} (hn : 0 < n) (hlt : n < 2 ^ 64) :
    getOrder n = 0 ∨ 4096 * 2 ^ getOrder n < 2 * n := by
  cases ho : getOrder n with
  | zero => exact .inl rfl
  | succ o =>
    right
    have hnot := mt (getOrder_le_iff (o := o) hn hlt).2 (by omega)
    omega

theorem calculateOrderLoop_spec (size fuel order : Nat) :
    calculateOrderLoop size fuel order = order ∨
    ∃ o, calculateOrderLoop size fuel order = o + 1 ∧ o < nrPageOrders ∧
      4096 * 2 ^ o / 64 < 4096 * 2 ^ o % size := by
  induction fuel generalizing order with
  | zero => exact .inl rfl
  | succ fuel ih =>
    rw [calculateOrderLoop]
    split
    · rename_i horder
      dsimp only
      split
      · exact .inl rfl
      · rename_i hcut
        cases ih (order + 1) with
        | inl hsame => exact .inr ⟨order, hsame, horder, Nat.lt_of_not_le hcut⟩
        | inr hlater => exact .inr hlater
    · exact .inl rfl

variable {size : Nat}

/-- A slab is not larger than 512 objects. -/
theorem slabSize_le (hsize : 8 ≤ size) :
    4096 * 2 ^ simpleCalculateOrder size % 2 ^ 32 ≤ 512 * size := by
  have hmod := mod_le (4096 * 2 ^ simpleCalculateOrder size) (2 ^ 32)
  rw [simpleCalculateOrder] at hmod ⊢
  obtain hfirst | ⟨o, hlater, -, hcut⟩ :=
    calculateOrderLoop_spec size nrPageOrders (getOrder (4 * size % 2 ^ 32))
  · rw [hfirst] at hmod ⊢
    by_cases hzero : 4 * size % 2 ^ 32 = 0
    · -- the size of four objects overflows to zero, and so does the size of the block
      rw [hzero]
      exact zero_le _
    · have hlt := mod_lt (4 * size) (Nat.two_pow_pos 32)
      cases getOrder_spec (pos_of_ne_zero hzero) (hlt.trans (by decide)) with
      | inl hone =>
        rw [hone] at hmod ⊢
        omega
      | inr hsmall => omega
  · -- the remainder is below the size, so the block is below 128 objects
    rw [hlater, pow_succ] at hmod ⊢
    have hrem : 4096 * 2 ^ o % size < size := mod_lt _ (lt_of_lt_of_le (by decide) hsize)
    omega

def objectsOf (size : Nat) : Nat := 4096 * 2 ^ simpleCalculateOrder size % 2 ^ 32 / size

theorem objectsOf_le (hsize : 8 ≤ size) : objectsOf size ≤ 512 :=
  Nat.div_le_of_le_mul ((slabSize_le hsize).trans_eq (mul_comm ..))

theorem orderObjects_eq (size : Nat) :
    orderObjects (simpleCalculateOrder size) size =
      if simpleCalculateOrder size < 32 then some (objectsOf size % 2 ^ 16) else none := rfl

def roundedSize (objectSize alignment : BitVec 32) : Nat :=
  (align (align objectSize 8) alignment).toNat

section

variable {objectSize alignment : BitVec 32} {ctor : Option (Addr → Nat → Nat)} {c : Cache}

theorem open_eq_ok_iff (hrounded : roundedSize objectSize alignment = size) :
    simpleKmemCacheOpen objectSize alignment ctor = some (.ok c) ↔
      8 ≤ size ∧ simpleCalculateOrder size < 32 ∧ objectsOf size ≠ 0 ∧
        c = { objectSize := objectSize.toNat, size, order := simpleCalculateOrder size
              objNr := objectsOf size, minPartial := max 4 (min 8 (log2 size / 2)), ctor } := by
  have hmod : size % 8 = 0 := hrounded ▸ align_align_eight objectSize alignment
  rw [roundedSize] at hrounded
  simp only [simpleKmemCacheOpen, orderObjects_eq, hrounded]
  have hcut : 8 ≤ size → objectsOf size % 2 ^ 16 = objectsOf size := fun hsize =>
    mod_eq_of_lt ((objectsOf_le hsize).trans_lt (by decide))
  generalize objectsOf size = n at hcut ⊢
  generalize simpleCalculateOrder size = order
  by_cases hsize : 8 ≤ size
  · rw [if_neg (by omega), hcut hsize]
    by_cases horder : order < 32
    · rw [if_pos horder, Option.bind_eq_bind, Option.bind_some]
      by_cases hn : n = 0
      · rw [if_pos hn]
        exact iff_of_false (fun he => by cases he) fun he => he.2.2.1 hn
      · rw [if_neg hn, Option.some.injEq, Except.ok.injEq]
        exact ⟨fun he => ⟨hsize, horder, hn, he.symm⟩, fun he => he.2.2.2.symm⟩
    · rw [if_neg horder]
      exact iff_of_false (fun he => by cases he) fun he => horder he.2.1
  · rw [if_pos (by omega)]
    exact iff_of_false (fun he => by cases he) fun he => hsize he.1

theorem geometry_of_open (h : simpleKmemCacheOpen objectSize alignment ctor = some (.ok c)) :
    Geometry c := by
  obtain ⟨hsize, -, hobjects, rfl⟩ := (open_eq_ok_iff rfl).1 h
  refine ⟨hsize, pos_of_ne_zero hobjects, (objectsOf_le hsize).trans_lt (by decide), ?_⟩
  exact (div_mul_le_self _ _).trans (mod_le _ _)

end

/-! ## Objects -/

def slot (c : Cache) (p : Pfn) (i : Nat) : Addr := pageToVirt p + i * c.size

/-- The ranges of two objects do not meet. -/
def Disjoint (c : Cache) (x y : Nat) : Prop := x + c.size ≤ y ∨ y + c.size ≤ x

/-- The pages of two slabs do not meet. -/
def Apart (c : Cache) (p q : Nat) : Prop := p + 2 ^ c.order ≤ q ∨ q + 2 ^ c.order ≤ p

section Slots
variable {c : Cache} {p q : Pfn} {i j : Nat}

theorem lt_slot : 4095 < slot c p i := by
  have hoffset : 4095 < kOffset := by decide
  exact hoffset.trans_le ((Nat.le_add_right ..).trans (Nat.le_add_right ..))

theorem slot_ne_zero : slot c p i ≠ 0 := Nat.ne_of_gt (Nat.zero_lt_of_lt lt_slot)

namespace Geometry

theorem slot_add_size_le (h : Geometry c) (hi : i < c.objNr) :
    slot c p i + c.size ≤ pageToVirt (p + 2 ^ c.order) := by
  have hle : i * c.size + c.size ≤ 4096 * 2 ^ c.order :=
    calc i * c.size + c.size = (i + 1) * c.size := by ring
      _ ≤ c.objNr * c.size := mul_le_mul_right _ hi
      _ ≤ 4096 * 2 ^ c.order := h.fits
  calc slot c p i + c.size = kOffset + p * 4096 + (i * c.size + c.size) := by
        rw [slot, pageToVirt]
        ring
    _ ≤ kOffset + p * 4096 + 4096 * 2 ^ c.order := Nat.add_le_add_left hle _
    _ = pageToVirt (p + 2 ^ c.order) := by
        rw [pageToVirt]
        ring

theorem pageToVirt_le {p q : Pfn} (h : p ≤ q) : pageToVirt p ≤ pageToVirt q :=
  Nat.add_le_add_left (Nat.mul_le_mul_right _ h) _

theorem disjoint_of_apart (h : Geometry c) (hpq : Apart c p q) (hi : i < c.objNr)
    (hj : j < c.objNr) : Disjoint c (slot c p i) (slot c q j) := by
  cases hpq with
  | inl hle =>
    exact .inl ((h.slot_add_size_le hi).trans ((pageToVirt_le hle).trans (Nat.le_add_right ..)))
  | inr hle =>
    exact .inr ((h.slot_add_size_le hj).trans ((pageToVirt_le hle).trans (Nat.le_add_right ..)))

theorem disjoint_of_ne (hij : i ≠ j) : Disjoint c (slot c p i) (slot c p j) := by
  have hstep : ∀ {m n : Nat}, m < n → slot c p m + c.size ≤ slot c p n := by
    intro m n hmn
    calc slot c p m + c.size = pageToVirt p + (m + 1) * c.size := by
          rw [slot]
          ring
      _ ≤ slot c p n := Nat.add_le_add_left (Nat.mul_le_mul_right _ hmn) _
  cases Nat.lt_or_gt_of_ne hij with
  | inl hlt => exact .inl (hstep hlt)
  | inr hgt => exact .inr (hstep hgt)

theorem ne_of_disjoint (h : Geometry c) {x y : Nat} (hxy : Disjoint c x y) : x ≠ y := by
  have hsize := h.size
  cases hxy with
  | inl hle => omega
  | inr hle => omega

theorem slot_injective (h : Geometry c) (p : Pfn) : Function.Injective (slot c p) := by
  intro i j hij
  by_contra hne
  exact h.ne_of_disjoint (disjoint_of_ne hne) hij

theorem virtToPfn_slot (h : Geometry c) (hi : i < c.objNr) :
    p ≤ virtToPfn (slot c p i) ∧ virtToPfn (slot c p i) < p + 2 ^ c.order := by
  have hlt : i * c.size < 4096 * 2 ^ c.order := by
    have hsize := h.size
    have := mul_lt_mul_of_pos_right hi (lt_of_lt_of_le (by decide) hsize)
    exact this.trans_le h.fits
  have heq : slot c p i - kOffset = 4096 * p + i * c.size := by
    rw [slot, pageToVirt, Nat.add_assoc, Nat.add_sub_cancel_left, Nat.mul_comm p]
  rw [virtToPfn, heq, Nat.mul_add_div (by decide)]
  refine ⟨Nat.le_add_right .., Nat.add_lt_add_left ?_ p⟩
  exact Nat.div_lt_of_lt_mul hlt

end Geometry

end Slots

/-! ## Sizes that are too large -/

/-- A block of this order, cut into objects, leaves at most a 64th. -/
def LittleLeft (size order : Nat) : Prop := 4096 * 2 ^ order % size ≤ 4096 * 2 ^ order / 64

theorem calculateOrderLoop_le_iff {fuel order : Nat} (hfuel : nrPageOrders ≤ order + fuel) :
    calculateOrderLoop size fuel order ≤ 10 ↔ ∃ o, order ≤ o ∧ o ≤ 10 ∧ LittleLeft size o := by
  induction fuel generalizing order with
  | zero =>
    unfold nrPageOrders at hfuel
    rw [calculateOrderLoop]
    constructor
    · omega
    · omega
  | succ fuel ih =>
    rw [calculateOrderLoop]
    split
    · rename_i horder
      dsimp only
      split
      · rename_i hleft
        unfold nrPageOrders at horder
        exact iff_of_true (by omega) ⟨order, le_rfl, by omega, hleft⟩
      · rename_i hleft
        rw [ih (by omega)]
        constructor
        · rintro ⟨o, h1, h2, ho⟩
          exact ⟨o, by omega, h2, ho⟩
        · rintro ⟨o, h1, h2, ho⟩
          refine ⟨o, lt_of_le_of_ne h1 ?_, h2, ho⟩
          rintro rfl
          exact hleft ho
    · rename_i horder
      unfold nrPageOrders at horder
      constructor
      · omega
      · omega

theorem calculateOrderLoop_bounds (size fuel order : Nat) :
    order ≤ calculateOrderLoop size fuel order ∧
      calculateOrderLoop size fuel order ≤ max order nrPageOrders := by
  induction fuel generalizing order with
  | zero => exact ⟨le_rfl, le_max_left _ _⟩
  | succ fuel ih =>
    rw [calculateOrderLoop]
    split
    · dsimp only
      split
      · exact ⟨le_rfl, le_max_left _ _⟩
      · have := ih (order + 1)
        omega
    · exact ⟨le_rfl, le_max_left _ _⟩

theorem simpleCalculateOrder_le_iff (hpos : 0 < size) (hsmall : size ≤ 2 ^ 20) :
    simpleCalculateOrder size ≤ 10 ↔ ∃ o, getOrder (4 * size) ≤ o ∧ o ≤ 10 ∧ LittleLeft size o := by
  rw [simpleCalculateOrder, mod_eq_of_lt (by omega)]
  exact calculateOrderLoop_le_iff (by unfold nrPageOrders; omega)

/-- Where the search begins, and where it ends: at the first order after the last that is tried, or
where it begins when it begins there or later. -/
theorem exists_first_order (size : Nat) (hfour : 4 * size % 2 ^ 32 ≠ 0) :
    ∃ first, 4 * size % 2 ^ 32 ≤ 4096 * 2 ^ first ∧
      (first = 0 ∨ 4096 * 2 ^ first < 2 * (4 * size % 2 ^ 32)) ∧
      first ≤ simpleCalculateOrder size ∧
      (first ≤ 10 → simpleCalculateOrder size ≤ 11) ∧
      (11 ≤ first → simpleCalculateOrder size = first) := by
  have hlt : 4 * size % 2 ^ 32 < 2 ^ 64 := (mod_lt _ (Nat.two_pow_pos 32)).trans (by decide)
  have hpos := pos_of_ne_zero hfour
  refine ⟨getOrder (4 * size % 2 ^ 32), (getOrder_le_iff hpos hlt).1 le_rfl,
    getOrder_spec hpos hlt, ?_⟩
  rw [simpleCalculateOrder]
  generalize getOrder (4 * size % 2 ^ 32) = first
  obtain ⟨hlo, hhi⟩ := calculateOrderLoop_bounds size nrPageOrders first
  generalize calculateOrderLoop size nrPageOrders first = order at hlo hhi
  unfold nrPageOrders at hhi
  omega

/-- Which sizes a cache is opened for: beyond `2 ^ 29` the size of a slab wraps to zero, and where
the size of four objects wraps too the slab is smaller than an object, but for one range. -/
theorem opens_iff (hsize : 8 ≤ size) (hlt : size < 2 ^ 32) :
    (simpleCalculateOrder size < 32 ∧ objectsOf size ≠ 0) ↔
      size ≤ 2 ^ 29 ∨ 5 * 2 ^ 28 < size ∧ size ≤ 6 * 2 ^ 28 := by
  have hobjects : objectsOf size ≠ 0 ↔ size ≤ 4096 * 2 ^ simpleCalculateOrder size % 2 ^ 32 := by
    rw [objectsOf, Ne, Nat.div_eq_zero_iff]
    omega
  by_cases hzero : 4 * size % 2 ^ 32 = 0
  · have horder : 52 ≤ simpleCalculateOrder size := by
      have h52 : getOrder 0 = 52 := by decide +kernel
      rw [simpleCalculateOrder, hzero, h52]
      exact (calculateOrderLoop_bounds size nrPageOrders _).1
    generalize simpleCalculateOrder size = order at horder
    omega
  · obtain ⟨first, hfits, htight, hlo, hearly, hlate⟩ := exists_first_order size hzero
    generalize simpleCalculateOrder size = order at *
    by_cases hfirst : first ≤ 10
    · have hgrow : 2 ^ first ≤ 2 ^ order := Nat.pow_le_pow_right (by decide) hlo
      have hslab : 2 ^ order ≤ 2 ^ 11 := Nat.pow_le_pow_right (by decide) (hearly hfirst)
      omega
    · obtain rfl := hlate (by omega)
      have hle : order ≤ 20 := by
        by_contra hgt
        have : 2 ^ 21 ≤ 2 ^ order := Nat.pow_le_pow_right (by decide) (by omega)
        omega
      interval_cases order <;> omega

/-- What `kmem_cache_create` has to see to. -/
structure Usable (objectSize alignment : BitVec 32) (c : Cache) : Prop where
  large : objectSize.toNat ≤ c.size
  aligned : alignment.toNat ∣ c.size
  words : 8 ∣ c.size
  order : c.order ≤ 10
  objects : 1 ≤ c.objNr ∧ c.objNr ≤ 32767
  fits : c.objNr * c.size ≤ 4096 * 2 ^ c.order
  products : 4 * c.size < 2 ^ 32 ∧ 4096 * 2 ^ c.order < 2 ^ 32

/-- The roundings do not wrap, and the alignment divides what they give, which an alignment that is
no power of two may not. -/
def RoundsUp (objectSize alignment : BitVec 32) : Prop :=
  objectSize.toNat + 7 < 2 ^ 32 ∧ (align objectSize 8).toNat + (alignment - 1).toNat < 2 ^ 32 ∧
    alignment.toNat ∣ roundedSize objectSize alignment

theorem align_le (x a : BitVec 32) : (align x a).toNat ≤ (x + (a - 1)).toNat := by
  exact and_le_left

theorem le_align {x a : BitVec 32} (h : x.toNat + (a - 1).toNat < 2 ^ 32) :
    x.toNat ≤ (align x a).toNat := by
  have hsum : (x + (a - 1)).toNat = x.toNat + (a - 1).toNat := by
    rw [BitVec.toNat_add, mod_eq_of_lt h]
  rw [align]
  generalize a - 1 = m at *
  generalize x + m = y at *
  -- the sum is the part under the mask and the part beside it
  have hparts := toNat_and_not_add y m
  have hle : (y &&& m).toNat ≤ m.toNat := by
    exact and_le_right
  omega

/-- The rounded size is not below the size asked for exactly when no rounding wraps. -/
theorem le_roundedSize_iff {objectSize alignment : BitVec 32}
    (hsize : 8 ≤ roundedSize objectSize alignment) :
    objectSize.toNat ≤ roundedSize objectSize alignment ↔
      objectSize.toNat + 7 < 2 ^ 32 ∧
        (align objectSize 8).toNat + (alignment - 1).toNat < 2 ^ 32 := by
  have hmask : (8 : BitVec 32) - 1 = 7#32 := by decide
  have height := align_eight objectSize
  have hrounded := align_align_eight objectSize alignment
  have hupper := align_le objectSize 8
  have hupper' := align_le (align objectSize 8) alignment
  rw [BitVec.toNat_add, hmask, BitVec.toNat_ofNat] at hupper
  rw [BitVec.toNat_add] at hupper'
  rw [roundedSize] at hsize ⊢
  constructor
  · intro hle
    by_cases hwrap : objectSize.toNat + 7 < 2 ^ 32
    · omega
    · -- the first rounding gives zero, and then so does the second
      omega
  · rintro ⟨hwrap, hwrap'⟩
    have hfirst := le_align (x := objectSize) (a := 8) (by rw [hmask]; exact hwrap)
    exact hfirst.trans (le_align hwrap')

def Rejected (size : Nat) : Prop :=
  size = 0 ∨ 2 ^ 29 < size ∧ ¬ (5 * 2 ^ 28 < size ∧ size ≤ 6 * 2 ^ 28)

/-- An opened cache has the right sizes exactly when the roundings do, the rounded size is at most a
fourth of the largest block, and one of the blocks tried is cut without much waste; if none is, the
search runs over its bound and the cache is opened all the same. -/
theorem usable_iff (objectSize alignment : BitVec 32) (ctor : Option (Addr → Nat → Nat)) :
    (∀ c, simpleKmemCacheOpen objectSize alignment ctor = some (.ok c) →
        Usable objectSize alignment c) ↔
      Rejected (roundedSize objectSize alignment) ∨
        RoundsUp objectSize alignment ∧ roundedSize objectSize alignment ≤ 2 ^ 20 ∧
          ∃ o, getOrder (4 * roundedSize objectSize alignment) ≤ o ∧ o ≤ 10 ∧
            LittleLeft (roundedSize objectSize alignment) o := by
  have hmod : roundedSize objectSize alignment % 8 = 0 := align_align_eight objectSize alignment
  have hlt : roundedSize objectSize alignment < 2 ^ 32 := BitVec.isLt _
  have hle := @le_roundedSize_iff objectSize alignment
  simp only [RoundsUp, open_eq_ok_iff rfl]
  generalize roundedSize objectSize alignment = size at *
  by_cases hsize : 8 ≤ size
  · have hopens := opens_iff hsize hlt
    by_cases hopen : simpleCalculateOrder size < 32 ∧ objectsOf size ≠ 0
    · have hreject : ¬ Rejected size := by
        rw [Rejected]
        omega
      constructor
      · intro h
        have hu := h _ ⟨hsize, hopen.1, hopen.2, rfl⟩
        have horder : simpleCalculateOrder size ≤ 10 := hu.order
        have hsmall : size ≤ 2 ^ 20 := by
          obtain ⟨first, hfits, -, hlo, -⟩ := exists_first_order size (by omega)
          have hpow : 2 ^ first ≤ 2 ^ 10 := Nat.pow_le_pow_right (by decide) (hlo.trans horder)
          omega
        obtain ⟨hwrap, hwrap'⟩ := (hle hsize).1 hu.large
        exact .inr ⟨⟨hwrap, hwrap', hu.aligned⟩, hsmall,
          (simpleCalculateOrder_le_iff (by omega) hsmall).1 horder⟩
      · rintro (hrejected | ⟨⟨hwrap, hwrap', hdvd⟩, hsmall, hleft⟩)
        · exact absurd hrejected hreject
        · rintro c ⟨-, -, hobjects, rfl⟩
          have horder := (simpleCalculateOrder_le_iff (by omega) hsmall).2 hleft
          have hpow : 2 ^ simpleCalculateOrder size ≤ 2 ^ 10 :=
            Nat.pow_le_pow_right (by decide) horder
          exact {
            large := (hle hsize).2 ⟨hwrap, hwrap'⟩
            aligned := hdvd
            words := dvd_of_mod_eq_zero hmod
            order := horder
            objects := ⟨pos_of_ne_zero hobjects, (objectsOf_le hsize).trans (by decide)⟩
            fits := (div_mul_le_self _ _).trans (mod_le _ _)
            products := ⟨by simp only; omega, (mul_le_mul_left 4096 hpow).trans_lt (by decide)⟩ }
    · have hreject : Rejected size := by
        rw [Rejected]
        omega
      exact iff_of_true (fun c hc => absurd ⟨hc.2.1, hc.2.2.1⟩ hopen) (.inl hreject)
  · have hzero : size = 0 := by omega
    exact iff_of_true (fun c hc => absurd hc.1 hsize) (.inl (.inl hzero))

/-- For objects of 700000 bytes, four of which need the largest block, that block leaves more than a
64th, and the cache gets an order that `alloc_pages` refuses. -/
theorem order_beyond_maximum :
    calculateAlignment false 0 700000 = some 8 ∧
      ∃ c, simpleKmemCacheOpen 700000 8 none = some (.ok c) ∧ ¬ Usable 700000 8 c := by
  refine ⟨by decide, ?_⟩
  have hsize : roundedSize 700000 8 = 700000 := by decide
  have horder : simpleCalculateOrder 700000 = 11 := by decide +kernel
  have hobjects : objectsOf 700000 = 11 := by decide +kernel
  refine ⟨_, (open_eq_ok_iff hsize).2 ⟨by decide, by rw [horder]; decide, by rw [hobjects]; decide, rfl⟩, ?_⟩
  intro hu
  have : simpleCalculateOrder 700000 ≤ 10 := hu.order
  exact absurd this (by decide)

end MyOS2.Slub
