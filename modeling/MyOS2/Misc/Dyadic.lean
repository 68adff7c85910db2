import Mathlib.Algebra.Group.Nat.Defs
import Mathlib.Data.Nat.Bitwise

/-!
# Aligned blocks

A block of order `k` is `2 ^ k` numbers in a row, the first of which `2 ^ k`
divides. Two blocks of one order that together make up a block of the next are
buddies. A set of blocks that share no number and of which no two are buddies is
determined by the numbers it covers.
-/

namespace MyOS2.Dyadic

variable {p q k j K f bound : Nat} {T T' : Nat → Nat → Prop}

theorem add_two_pow_le_of_lt (hbound : 2 ^ k ∣ bound) (hp : 2 ^ k ∣ p) (hlt : p < bound) :
    p + 2 ^ k ≤ bound := by
  obtain ⟨a, rfl⟩ := hbound
  obtain ⟨b, rfl⟩ := hp
  have hab : b + 1 ≤ a := Nat.lt_of_mul_lt_mul_left hlt
  have hmul := Nat.mul_le_mul_left (2 ^ k) hab
  rwa [Nat.mul_succ] at hmul

theorem within_of_meets (hp : 2 ^ k ∣ p) (hq : 2 ^ j ∣ q) (hkj : k ≤ j)
    (hpf : p ≤ f ∧ f < p + 2 ^ k) (hqf : q ≤ f ∧ f < q + 2 ^ j) :
    q ≤ p ∧ p + 2 ^ k ≤ q + 2 ^ j := by
  have hdvd : 2 ^ k ∣ 2 ^ j := Nat.pow_dvd_pow 2 hkj
  have hlo : q ≤ p := by
    by_contra hlt
    have := add_two_pow_le_of_lt (hdvd.trans hq) hp (Nat.lt_of_not_le hlt)
    omega
  refine ⟨hlo, add_two_pow_le_of_lt ((Nat.dvd_add_right (hdvd.trans hq)).2 hdvd) hp ?_⟩
  omega

theorem eq_of_within (hkj : k ≤ j) (h : p ≤ q ∧ q + 2 ^ j ≤ p + 2 ^ k) : p = q ∧ k = j := by
  have hpow : 2 ^ k ≤ 2 ^ j := Nat.pow_le_pow_right (by decide) hkj
  exact ⟨by omega, Nat.pow_right_injective (le_refl 2) (show 2 ^ k = 2 ^ j by omega)⟩

theorem xor_add_two_pow (hp : 2 ^ (k + 1) ∣ p) : p ^^^ (p + 2 ^ k) = 2 ^ k := by
  obtain ⟨a, rfl⟩ := hp
  have hlt : 2 ^ k < 2 ^ (k + 1) := Nat.pow_lt_pow_right (by decide) (Nat.lt_succ_self k)
  rw [Nat.two_pow_add_eq_or_of_lt hlt]
  apply Nat.eq_of_testBit_eq
  intro i
  simp only [Nat.testBit_xor, Nat.testBit_or, Nat.testBit_two_pow_mul, Nat.testBit_two_pow]
  by_cases hi : k = i
  · simp [hi]
  · simp [hi]

/-- The number lies in one of the blocks. -/
def Covered (T : Nat → Nat → Prop) (f : Nat) : Prop :=
  ∃ p k, T p k ∧ p ≤ f ∧ f < p + 2 ^ k

/-- Blocks of orders up to `K` that share no number, no two of them buddies. -/
structure Coalesced (K : Nat) (T : Nat → Nat → Prop) : Prop where
  order_le : ∀ {p k}, T p k → k ≤ K
  aligned : ∀ {p k}, T p k → 2 ^ k ∣ p
  apart : ∀ {p k q j f}, T p k → T q j → (p ≤ f ∧ f < p + 2 ^ k) → (q ≤ f ∧ f < q + 2 ^ j) →
    p = q ∧ k = j
  no_buddies : ∀ {p q k}, k < K → T p k → T q k → p ^^^ q ≠ 2 ^ k

namespace Coalesced

/-- A block all of whose numbers are covered lies in one of the blocks: its halves do, and if they
were blocks of their own they would be buddies. -/
theorem exists_within (h : Coalesced K T) (hk : k ≤ K) (hp : 2 ^ k ∣ p)
    (hcov : ∀ f, p ≤ f → f < p + 2 ^ k → Covered T f) :
    ∃ q j, T q j ∧ q ≤ p ∧ p + 2 ^ k ≤ q + 2 ^ j := by
  induction k generalizing p with
  | zero => exact hcov p le_rfl (Nat.lt_succ_self p)
  | succ k ih =>
    have hhalf : 2 ^ k ∣ p := (Nat.pow_dvd_pow 2 (Nat.le_succ k)).trans hp
    obtain ⟨q, j, hT, hlow⟩ := ih (by omega) hhalf fun f h1 h2 => hcov f h1 (by omega)
    obtain ⟨q', j', hT', hhigh⟩ := ih (by omega) ((Nat.dvd_add_right hhalf).2 dvd_rfl)
      fun f h1 h2 => hcov f (by omega) (by omega)
    by_cases hj : k + 1 ≤ j
    · exact ⟨q, j, hT, within_of_meets (f := p) hp (h.aligned hT) hj (by omega) (by omega)⟩
    · by_cases hj' : k + 1 ≤ j'
      · exact ⟨q', j', hT',
          within_of_meets (f := p + 2 ^ k) hp (h.aligned hT') hj' (by omega) (by omega)⟩
      · obtain ⟨rfl, rfl⟩ := eq_of_within (by omega) hlow
        obtain ⟨rfl, rfl⟩ := eq_of_within (by omega) hhigh
        exact absurd (xor_add_two_pow hp) (h.no_buddies (by omega) hT hT')

theorem mem_of_covered (h : Coalesced K T) (h' : Coalesced K T')
    (hcov : ∀ f, Covered T f ↔ Covered T' f) (hT : T p k) : T' p k := by
  obtain ⟨q, j, hT', hin'⟩ := h'.exists_within (h.order_le hT) (h.aligned hT)
    fun f h1 h2 => (hcov f).1 ⟨p, k, hT, h1, h2⟩
  obtain ⟨p₁, k₁, hT₁, hin₁⟩ := h.exists_within (h'.order_le hT') (h'.aligned hT')
    fun f h1 h2 => (hcov f).2 ⟨q, j, hT', h1, h2⟩
  have hpos := Nat.two_pow_pos k
  obtain ⟨rfl, rfl⟩ := h.apart (f := p) hT hT₁ (by omega) (by omega)
  have hkj : k ≤ j := (Nat.pow_le_pow_iff_right (by decide)).1 (show 2 ^ k ≤ 2 ^ j by omega)
  obtain ⟨rfl, rfl⟩ := eq_of_within hkj hin₁
  exact hT'

end Coalesced

end MyOS2.Dyadic
