import Mathlib.Data.Nat.Bitwise
import Mathlib.Tactic.Ring

/-!
# 64-bit unsigned arithmetic on `Nat`

The kernel's `phys_addr_t`, `ulong` and `uint64_t` are 64-bit words. They are
natural numbers below `2 ^ 64` here; an operation that can leave that range
reduces its result with `u64`.
-/

namespace MyOS2

open Nat

/-- The value a 64-bit word keeps of `n`. Irreducible, so that no unification problem starts to
compute with `2 ^ 64`. -/
@[irreducible] def u64 (n : Nat) : Nat := n % 2 ^ 64

/-- The 64-bit difference `a - b`, which wraps when `a < b`. -/
@[irreducible] def u64Sub (a b : Nat) : Nat := u64 (a + 2 ^ 64 - b)

theorem u64_of_lt {n : Nat} (h : n < 2 ^ 64) : u64 n = n := by
  rw [u64, mod_eq_of_lt h]

theorem u64_lt (n : Nat) : u64 n < 2 ^ 64 := by
  rw [u64]
  exact mod_lt _ (by norm_num)

theorem u64Sub_lt (a b : Nat) : u64Sub a b < 2 ^ 64 := by
  rw [u64Sub]
  exact u64_lt _

theorem u64_add_u64 (a b : Nat) : u64 (a + u64 b) = u64 (a + b) := by
  simp [u64]

theorem u64_u64_add (a b : Nat) : u64 (u64 a + b) = u64 (a + b) := by
  simp [u64]

theorem u64Sub_of_le {a b : Nat} (ha : a < 2 ^ 64) (h : b ≤ a) : u64Sub a b = a - b := by
  unfold u64Sub u64
  omega

theorem toNat_and_not_add {w : Nat} (x m : BitVec w) :
    (x &&& ~~~m).toNat + (x &&& m).toNat = x.toNat := by
  have hzero : (x &&& ~~~m) &&& (x &&& m) = 0#w := by
    ext i
    simp only [BitVec.getElem_and, BitVec.getElem_not, BitVec.getElem_zero]
    cases m[i] <;> simp
  rw [← BitVec.toNat_add_of_and_eq_zero hzero, BitVec.add_eq_or_of_and_eq_zero _ _ hzero]
  congr 1
  ext i
  simp only [BitVec.getElem_or, BitVec.getElem_and, BitVec.getElem_not]
  cases m[i] <;> simp

def roundUp (x y : Nat) : Nat := u64 ((u64Sub x 1 ||| u64Sub y 1) + 1)

theorem or_two_pow_sub_one (a k : Nat) : a ||| (2 ^ k - 1) = a / 2 ^ k * 2 ^ k + (2 ^ k - 1) := by
  have hlt : 2 ^ k - 1 < 2 ^ k := sub_one_lt (Nat.two_pow_pos k).ne'
  rw [mul_comm, two_pow_add_eq_or_of_lt hlt]
  refine eq_of_testBit_eq fun i => ?_
  simp only [testBit_or, testBit_two_pow_sub_one, testBit_two_pow_mul, testBit_div_two_pow]
  by_cases hi : i < k
  · simp [hi]
  · have hk : k ≤ i := Nat.le_of_not_lt hi
    simp [hi, hk, Nat.sub_add_cancel hk]

theorem roundUp_eq {x k : Nat} (hx : x < 2 ^ 64) (hk : k < 64) :
    roundUp x (2 ^ k) = u64 ((x + (2 ^ k - 1)) / 2 ^ k * 2 ^ k) := by
  have hpos := Nat.two_pow_pos k
  have hpow : 2 ^ k < 2 ^ 64 := Nat.pow_lt_pow_right (by norm_num) hk
  rw [roundUp, u64Sub_of_le hpow hpos]
  rcases Nat.eq_zero_or_pos x with rfl | hx0
  · -- the word below zero is all ones, and stays so
    have hsub : u64Sub 0 1 = 2 ^ 64 - 1 := by unfold u64Sub u64; norm_num
    have hor : (2 ^ 64 - 1) ||| (2 ^ k - 1) = 2 ^ 64 - 1 := by
      refine eq_of_testBit_eq fun i => ?_
      simp only [testBit_or, testBit_two_pow_sub_one, ← Bool.decide_or]
      exact decide_eq_decide.2 (by omega)
    rw [hsub, hor, zero_add, div_eq_of_lt (by omega), zero_mul, u64, u64]
    norm_num
  · have hq : (x + (2 ^ k - 1)) / 2 ^ k = (x - 1) / 2 ^ k + 1 := by
      rw [← add_div_right _ hpos]
      congr 1
      omega
    rw [u64Sub_of_le hx hx0, or_two_pow_sub_one, hq, add_one_mul, add_assoc,
      Nat.sub_add_cancel hpos]

/-- `round_up` gives the least multiple of `2 ^ k` from `x` on, unless there is none below `2 ^ 64`;
then it wraps to `0`. -/
theorem roundUp_cases {x k : Nat} (hx0 : 0 < x) (hx : x < 2 ^ 64) (hk : k < 64) :
    (x ≤ roundUp x (2 ^ k) ∧ 2 ^ k ∣ roundUp x (2 ^ k) ∧
      ∀ y, x ≤ y → 2 ^ k ∣ y → roundUp x (2 ^ k) ≤ y) ∨
    (roundUp x (2 ^ k) = 0 ∧ ∀ y, x ≤ y → 2 ^ k ∣ y → 2 ^ 64 ≤ y) := by
  have hpos := Nat.two_pow_pos k
  set q := (x - 1) / 2 ^ k with hq
  have hval : roundUp x (2 ^ k) = u64 ((q + 1) * 2 ^ k) := by
    rw [roundUp_eq hx hk, hq, ← add_div_right _ hpos]
    congr 3
    omega
  have hqle : q * 2 ^ k ≤ x - 1 := div_mul_le_self _ _
  have hqlt : x - 1 < (q + 1) * 2 ^ k := by
    rw [mul_comm]
    exact lt_mul_div_succ _ hpos
  -- every multiple of `2 ^ k` from `x` on is at least `(q + 1) * 2 ^ k`
  have hleast : ∀ y, x ≤ y → 2 ^ k ∣ y → (q + 1) * 2 ^ k ≤ y := by
    rintro y hy ⟨c, rfl⟩
    rw [mul_comm (2 ^ k)]
    refine mul_le_mul_right _ ?_
    by_contra hc
    have : c * 2 ^ k ≤ q * 2 ^ k := mul_le_mul_right _ (by omega)
    rw [mul_comm (2 ^ k)] at hy
    omega
  have hdvd : (2 : Nat) ^ k ∣ 2 ^ 64 := pow_dvd_pow 2 hk.le
  have htop : (q + 1) * 2 ^ k ≤ 2 ^ 64 := hleast _ hx.le hdvd
  rcases lt_or_eq_of_le htop with h | h
  · left
    rw [hval, u64_of_lt h]
    exact ⟨by omega, dvd_mul_left _ _, hleast⟩
  · right
    refine ⟨by rw [hval, h, u64, mod_self], fun y hy hd => h ▸ hleast y hy hd⟩

@[irreducible] def roundDown (x y : Nat) : Nat := x &&& (2 ^ 64 - (u64Sub y 1 + 1))

theorem roundDown_eq {x k : Nat} (hx : x < 2 ^ 64) (hk : k < 64) :
    roundDown x (2 ^ k) = x / 2 ^ k * 2 ^ k := by
  have hpos := Nat.two_pow_pos k
  have hpow : 2 ^ k < 2 ^ 64 := Nat.pow_lt_pow_right (by norm_num) hk
  rw [roundDown, u64Sub_of_le hpow hpos, mul_comm]
  refine eq_of_testBit_eq fun i => ?_
  rw [testBit_and, testBit_two_pow_sub_succ (by omega), testBit_two_pow_sub_one,
    testBit_two_pow_mul, testBit_div_two_pow]
  by_cases hi : i < 64
  · by_cases hik : i < k
    · simp [hik]
    · simp [hi, hik, Nat.le_of_not_lt hik]
  · have hxi : x.testBit i = false :=
      testBit_lt_two_pow (hx.trans_le (Nat.pow_le_pow_right (by norm_num) (by omega)))
    have hki : k ≤ i := by omega
    simp [hi, hki, hxi]

end MyOS2
