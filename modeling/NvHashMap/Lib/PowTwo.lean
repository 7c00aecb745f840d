import Mathlib

/-! # Masks of powers of two

Arithmetic of contiguous bit masks on natural numbers.  A mask that keeps the bits
`k, …, c - 1` is written `2 ^ c - 2 ^ k`; masking with it is a division, a remainder and a
multiplication (`land_two_pow_sub`), so everything an aligned offset needs (its alignment, its
bound, the room behind it) follows from facts about quotients.

`ceilPow x` is the least power of two that is at least `max x 1`. -/

namespace PowTwo

/-- Keeping the bits `k, …, c - 1` of `x`. -/
theorem land_two_pow_sub (x : ℕ) {k c : ℕ} (h : k ≤ c) :
    x &&& (2 ^ c - 2 ^ k) = 2 ^ k * (x / 2 ^ k % 2 ^ (c - k)) := by
  have hm : 2 ^ c - 2 ^ k = 2 ^ k * (2 ^ (c - k) - 1) := by
    rw [Nat.mul_sub, mul_one, ← pow_add, Nat.add_sub_cancel' h]
  rw [hm]
  apply Nat.eq_of_testBit_eq
  intro i
  rw [Nat.testBit_and, Nat.testBit_two_pow_mul, Nat.testBit_two_pow_mul,
    Nat.testBit_two_pow_sub_one, Nat.testBit_mod_two_pow, Nat.testBit_div_two_pow]
  by_cases hi : k ≤ i
  · simp [hi, Bool.and_comm]
  · simp [hi]

theorem pow_le_pow {k c : ℕ} (h : k ≤ c) : 2 ^ k ≤ 2 ^ c :=
  Nat.pow_le_pow_right (by norm_num) h

theorem pow_sub_mul {k c : ℕ} (h : k ≤ c) : 2 ^ (c - k) * 2 ^ k = 2 ^ c := by
  rw [← pow_add, Nat.sub_add_cancel h]

theorem pow_div {k c : ℕ} (h : k ≤ c) : 2 ^ c / 2 ^ k = 2 ^ (c - k) :=
  Nat.pow_div h (by norm_num)

/-! ### The least power of two above a number -/

/-- The least power of two that is at least `max x 1`. -/
def ceilPow (x : ℕ) : ℕ := if 1 < x then 2 ^ (Nat.log2 (x - 1) + 1) else 1

theorem ceilPow_isPow (x : ℕ) : ∃ b, ceilPow x = 2 ^ b := by
  unfold ceilPow
  split_ifs
  · exact ⟨_, rfl⟩
  · exact ⟨0, rfl⟩

theorem ceilPow_pos (x : ℕ) : 0 < ceilPow x := by
  obtain ⟨b, hb⟩ := ceilPow_isPow x
  rw [hb]
  exact Nat.two_pow_pos b

theorem le_ceilPow (x : ℕ) : x ≤ ceilPow x := by
  unfold ceilPow
  split_ifs with h
  · have := @Nat.lt_log2_self (x - 1)
    omega
  · omega

/-- `ceilPow x` is below every power of two that is at least `x`. -/
theorem ceilPow_le {x b : ℕ} (h : x ≤ 2 ^ b) : ceilPow x ≤ 2 ^ b := by
  unfold ceilPow
  split_ifs with hx
  · have hlt : Nat.log2 (x - 1) < b := (Nat.log2_lt (by omega)).mpr (by omega)
    exact pow_le_pow hlt
  · exact Nat.one_le_two_pow

theorem ceilPow_two_pow (b : ℕ) : ceilPow (2 ^ b) = 2 ^ b :=
  le_antisymm (ceilPow_le le_rfl) (le_ceilPow _)

end PowTwo
