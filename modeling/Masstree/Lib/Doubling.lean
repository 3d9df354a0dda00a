import Mathlib.Algebra.Group.Nat.Defs
import Mathlib.Data.Nat.Log

/-!
# Capacities that double

The loop `while (capacity < want) capacity *= 2`, with a word of `w` bits for the capacity. A power of two that no longer fits becomes
zero, and the loop goes on for ever.
-/

namespace Doubling

/-- The loop, for at most `fuel` rounds. -/
def double (w want : Nat) : Nat → Nat → Option Nat
  | 0, _ => none
  | fuel + 1, cap => if want ≤ cap then some cap else double w want fuel (cap * 2 % 2 ^ w)

/-- The capacity that the loop ends with. After `w + 1` rounds it never does. -/
def grow (w want cap : Nat) : Option Nat := double w want (w + 2) cap

variable {w want k n fuel : Nat}

theorem double_of_le (fits : want ≤ 2 ^ (k + n)) (small : k + n < w) (enough : n < fuel) :
    ∃ j, k ≤ j ∧ j < w ∧ want ≤ 2 ^ j ∧ double w want fuel (2 ^ k) = some (2 ^ j) := by
  induction n generalizing k fuel with
  | zero =>
    obtain ⟨fuel, rfl⟩ := Nat.exists_eq_add_one_of_ne_zero (Nat.ne_of_gt enough)
    exact ⟨k, Nat.le_refl k, small, fits, if_pos fits⟩
  | succ n ih =>
    obtain ⟨fuel, rfl⟩ := Nat.exists_eq_add_one_of_ne_zero (Nat.ne_zero_of_lt enough)
    rw [double]
    split
    · rename_i le
      exact ⟨k, Nat.le_refl k, by omega, le, rfl⟩
    · have next : 2 ^ k * 2 % 2 ^ w = 2 ^ (k + 1) := by
        rw [← Nat.pow_succ]
        exact Nat.mod_eq_of_lt (Nat.pow_lt_pow_right (by decide) (by omega))
      have index : k + 1 + n = k + (n + 1) := by omega
      obtain ⟨j, le, lt, fits, same⟩ := ih (k := k + 1) (index ▸ fits) (index ▸ small) (Nat.lt_of_succ_lt_succ enough)
      exact ⟨j, by omega, lt, fits, by rw [next, same]⟩

theorem double_zero (some_ : 0 < want) : double w want fuel 0 = none := by
  induction fuel with
  | zero => rfl
  | succ fuel ih => rw [double, if_neg (by omega), Nat.zero_mul, Nat.zero_mod, ih]

theorem double_of_lt (wide : 2 ^ (w - 1) < want) (lt : k < w) : double w want fuel (2 ^ k) = none := by
  induction fuel generalizing k with
  | zero => rfl
  | succ fuel ih =>
    have less : 2 ^ k < want := Nat.lt_of_le_of_lt (Nat.pow_le_pow_right (by decide) (by omega)) wide
    rw [double, if_neg (by omega), ← Nat.pow_succ]
    by_cases more : k + 1 < w
    · rw [Nat.mod_eq_of_lt (Nat.pow_lt_pow_right (by decide) more), ih more]
    · have last : k.succ = w := by omega
      rw [last, Nat.mod_self, double_zero (Nat.zero_lt_of_lt wide)]

/-- From a power of two the loop ends with one that is enough, if the largest one is. -/
theorem grow_of_le (lt : k < w) (fits : want ≤ 2 ^ (w - 1)) : ∃ j, k ≤ j ∧ j < w ∧ want ≤ 2 ^ j ∧
    grow w want (2 ^ k) = some (2 ^ j) := by
  have index : k + (w - 1 - k) = w - 1 := by omega
  have small : k + (w - 1 - k) < w := by omega
  exact double_of_le (index.symm ▸ fits) small (by omega)

theorem grow_isSome_iff (lt : k < w) : (grow w want (2 ^ k)).isSome ↔ want ≤ 2 ^ (w - 1) := by
  constructor
  · intro ends
    by_contra wide
    rw [grow, double_of_lt (Nat.lt_of_not_le wide) lt] at ends
    cases ends
  · intro fits
    obtain ⟨j, -, -, -, same⟩ := grow_of_le lt fits
    rw [same]
    rfl

end Doubling
