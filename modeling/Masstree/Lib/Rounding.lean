import Mathlib.Algebra.Group.Nat.Even
import Mathlib.Data.Nat.Log
import Mathlib.Data.Nat.Bitwise
import Mathlib.Tactic.Common

/-!
# Rounding up
-/

namespace Rounding

def iceil (x y : Nat) : Nat := x + if x % y ≠ 0 then y - x % y else 0

/-- The next power of two, where `x.log2 + 1` is the width of a word less its leading zeros. -/
def iceilLog2 (x : Nat) : Nat := 2 ^ (x.log2 + 1 - if x &&& (x - 1) = 0 then 1 else 0)

variable {x n : Nat}

theorem iceilLog2_eq (some_ : x ≠ 0) : iceilLog2 x = if x = 2 ^ x.log2 then x else 2 ^ (x.log2 + 1) := by
  have power : x &&& (x - 1) = 0 ↔ x = 2 ^ x.log2 := by
    rw [Nat.and_sub_one_eq_zero_iff_isPowerOfTwo some_]
    constructor
    · rintro ⟨k, rfl⟩
      rw [Nat.log2_two_pow]
    · exact fun same => ⟨_, same⟩
  unfold iceilLog2
  simp only [power]
  split
  · rename_i same
    exact same.symm
  · rfl

theorem le_iceilLog2 (some_ : x ≠ 0) : x ≤ iceilLog2 x := by
  rw [iceilLog2_eq some_]
  split
  · exact Nat.le_refl x
  · exact Nat.le_of_lt Nat.lt_log2_self

theorem iceilLog2_le (some_ : x ≠ 0) (le : x ≤ 2 ^ n) : iceilLog2 x ≤ 2 ^ n := by
  rw [iceilLog2_eq some_]
  split
  · exact le
  · rename_i other
    have below : 2 ^ x.log2 < 2 ^ n := Nat.lt_of_lt_of_le (Nat.lt_of_le_of_ne (Nat.log2_self_le some_) (Ne.symm other)) le
    exact Nat.pow_le_pow_right Nat.two_pos ((Nat.pow_lt_pow_iff_right Nat.one_lt_two).mp below)

/-- With its last bits set a number is one before a multiple. -/
theorem or_mask (x n : Nat) : (x ||| (2 ^ n - 1)) + 1 = (x / 2 ^ n + 1) * 2 ^ n := by
  have positive := Nat.two_pow_pos n
  have low : (x ||| (2 ^ n - 1)) % 2 ^ n = 2 ^ n - 1 := by
    rw [Nat.or_mod_two_pow, Nat.mod_eq_of_lt (Nat.sub_lt positive Nat.one_pos)]
    apply Nat.eq_of_testBit_eq
    intro i
    simp only [Nat.testBit_or, Nat.testBit_mod_two_pow, Nat.testBit_two_pow_sub_one]
    cases decide (i < n) <;> simp
  have high : (x ||| (2 ^ n - 1)) / 2 ^ n = x / 2 ^ n := by
    rw [Nat.or_div_two_pow, Nat.div_eq_of_lt (Nat.sub_lt positive Nat.one_pos), Nat.or_zero]
  have split := Nat.div_add_mod (x ||| (2 ^ n - 1)) (2 ^ n)
  rw [low, high] at split
  rw [Nat.add_mul, Nat.one_mul, Nat.mul_comm]
  omega

end Rounding
