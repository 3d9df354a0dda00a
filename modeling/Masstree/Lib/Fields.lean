import Mathlib.Algebra.Group.Nat.Defs
import Mathlib.Data.Nat.Basic
import Mathlib.Tactic.Common

/-!
# Words of packed fields

A word of `w` bits read as fields of `b` bits each, the lowest first. Shifts by whole fields move fields, bitwise operations act
on each, and a mask below a field splits a word in two.
-/

namespace Masstree.Fields

variable {w b : Nat} {x y : BitVec w} {k n : Nat}

def field (b : Nat) (x : BitVec w) (k : Nat) : BitVec b := x.extractLsb' (b * k) b

/-- The word with every bit below field `n`. -/
def below (w b n : Nat) : BitVec w := (1#w <<< (b * n)) - 1#w

theorem getLsbD_field (x : BitVec w) (k i : Nat) : (field b x k).getLsbD i = (decide (i < b) && x.getLsbD (b * k + i)) :=
  BitVec.getLsbD_extractLsb' ..

theorem toNat_field (x : BitVec w) (k : Nat) : (field b x k).toNat = x.toNat / 2 ^ (b * k) % 2 ^ b := by
  rw [field, BitVec.extractLsb'_toNat, Nat.shiftRight_eq_div_pow]

theorem one_toNat (positive : w ≠ 0) : (1#w).toNat = 1 := by
  rw [BitVec.toNat_ofNat]
  exact Nat.mod_eq_of_lt (Nat.one_lt_two_pow positive)

/-- Words of whole fields are equal when their fields are. -/
theorem eq_of_field {x y : BitVec (b * n)} (all : ∀ k < n, field b x k = field b y k) : x = y := by
  refine BitVec.eq_of_getLsbD_eq fun i lt => ?_
  have positive : 0 < b := Nat.pos_of_ne_zero fun zero => by
    rw [zero, Nat.zero_mul] at lt
    omega
  have bit : ∀ z : BitVec (b * n), z.getLsbD i = (field b z (i / b)).getLsbD (i % b) := by
    intro z
    rw [getLsbD_field, Nat.div_add_mod, decide_eq_true (Nat.mod_lt i positive), Bool.true_and]
  rw [bit x, bit y, all (i / b) (Nat.div_lt_of_lt_mul lt)]

/-- The number whose first `n` fields are those of `f`. -/
def pack (b : Nat) : Nat → (Nat → BitVec b) → Nat
  | 0, _ => 0
  | n + 1, f => (f 0).toNat + 2 ^ b * pack b n fun k => f (k + 1)

theorem pack_lt (n : Nat) (f : Nat → BitVec b) : pack b n f < 2 ^ (b * n) := by
  induction n generalizing f with
  | zero => exact Nat.one_pos
  | succ n ih =>
    calc pack b (n + 1) f < 2 ^ b + 2 ^ b * pack b n (fun k => f (k + 1)) := Nat.add_lt_add_right (f 0).isLt _
      _ = 2 ^ b * (pack b n (fun k => f (k + 1)) + 1) := by rw [Nat.mul_succ, Nat.add_comm]
      _ ≤ 2 ^ b * 2 ^ (b * n) := Nat.mul_le_mul_left _ (ih _)
      _ = 2 ^ (b * (n + 1)) := by rw [← Nat.pow_add, Nat.mul_succ, Nat.add_comm b]

theorem pack_field {f : Nat → BitVec b} (lt : k < n) : pack b n f / 2 ^ (b * k) % 2 ^ b = (f k).toNat := by
  induction n generalizing f k with
  | zero => exact absurd lt (Nat.not_lt_zero k)
  | succ n ih =>
    cases k with
    | zero =>
      rw [Nat.mul_zero, Nat.pow_zero, Nat.div_one, pack, Nat.add_mul_mod_self_left]
      exact Nat.mod_eq_of_lt (f 0).isLt
    | succ k =>
      have place : 2 ^ (b * (k + 1)) = 2 ^ b * 2 ^ (b * k) := by
        rw [Nat.mul_succ, Nat.add_comm, Nat.pow_add]
      rw [place, ← Nat.div_div_eq_div_mul, pack, Nat.add_mul_div_left _ _ (Nat.two_pow_pos b), Nat.div_eq_of_lt (f 0).isLt,
        Nat.zero_add]
      exact ih (f := fun k => f (k + 1)) (Nat.lt_of_succ_lt_succ lt)

theorem field_pack {f : Nat → BitVec b} (lt : k < n) : field b (BitVec.ofNat (b * n) (pack b n f)) k = f k := by
  apply BitVec.eq_of_toNat_eq
  rw [toNat_field, BitVec.toNat_ofNat, Nat.mod_eq_of_lt (pack_lt n f), pack_field lt]

/-! ### Bitwise operations -/

@[simp] theorem field_and (x y : BitVec w) (k : Nat) : field b (x &&& y) k = field b x k &&& field b y k :=
  BitVec.extractLsb'_and

@[simp] theorem field_or (x y : BitVec w) (k : Nat) : field b (x ||| y) k = field b x k ||| field b y k :=
  BitVec.extractLsb'_or

@[simp] theorem field_xor (x y : BitVec w) (k : Nat) : field b (x ^^^ y) k = field b x k ^^^ field b y k :=
  BitVec.extractLsb'_xor

@[simp] theorem field_zero (k : Nat) : field b 0#w k = 0#b := BitVec.extractLsb'_zero

/-- A bit of a field inside the word is inside the word. -/
theorem bit_lt {i : Nat} (inside : b * (k + 1) ≤ w) (lt : i < b) : b * k + i < w := by
  have : b * (k + 1) = b * k + b := Nat.mul_succ b k
  omega

theorem field_outside (x : BitVec w) (outside : w ≤ b * k) : field b x k = 0#b := by
  refine BitVec.eq_of_getLsbD_eq fun i lt => ?_
  rw [getLsbD_field, BitVec.getLsbD_of_ge x _ (by omega)]
  simp

theorem field_not (x : BitVec w) (inside : b * (k + 1) ≤ w) : field b (~~~x) k = ~~~field b x k := by
  refine BitVec.eq_of_getLsbD_eq fun i lt => ?_
  rw [getLsbD_field, BitVec.getLsbD_not, BitVec.getLsbD_not, getLsbD_field]
  simp [lt, bit_lt inside lt]

/-! ### Shifts by whole fields -/

theorem field_shiftRight (x : BitVec w) (n k : Nat) : field b (x >>> (b * n)) k = field b x (k + n) := by
  refine BitVec.eq_of_getLsbD_eq fun i lt => ?_
  have place : b * n + (b * k + i) = b * (k + n) + i := by
    rw [Nat.mul_add]
    omega
  rw [getLsbD_field, getLsbD_field, BitVec.getLsbD_ushiftRight, place]

theorem field_shiftLeft (x : BitVec w) (n : Nat) (inside : b * (k + 1) ≤ w) :
    field b (x <<< (b * n)) k = if k < n then 0#b else field b x (k - n) := by
  refine BitVec.eq_of_getLsbD_eq fun i lt => ?_
  have here := bit_lt inside lt
  rw [getLsbD_field, BitVec.getLsbD_shiftLeft]
  split
  · rename_i before
    have : b * k + i < b * n := by
      have := Nat.mul_le_mul_left b before
      have := Nat.mul_succ b k
      omega
    simp [this]
  · rename_i after
    have le := Nat.mul_le_mul_left b (Nat.le_of_not_lt after)
    have place : b * k + i - b * n = b * (k - n) + i := by
      rw [Nat.mul_sub]
      omega
    have : ¬b * k + i < b * n := by omega
    rw [getLsbD_field, place]
    simp [lt, here, this]

/-! ### Masks -/

theorem getLsbD_below (i : Nat) : (below w b n).getLsbD i = (decide (i < w) && decide (i < b * n)) := by
  unfold below
  rcases Nat.lt_or_ge (b * n) w with lt | ge
  · have value : (1#w <<< (b * n) - 1#w).toNat = 2 ^ (b * n) - 1 := by
      have power : (1#w <<< (b * n)).toNat = 2 ^ (b * n) := by
        rw [← BitVec.twoPow_eq, BitVec.toNat_twoPow_of_lt lt]
      have one : (1#w).toNat = 1 := one_toNat (by omega)
      have le : 1#w ≤ 1#w <<< (b * n) := by
        rw [BitVec.le_def, power, one]
        exact Nat.one_le_two_pow
      rw [BitVec.toNat_sub_of_le le, power, one]
    rw [BitVec.getLsbD, value, Nat.testBit_two_pow_sub_one]
    have : i < b * n → i < w := fun _ => by omega
    by_cases inside : i < b * n <;> simp [inside, this]
  · have zero : 1#w <<< (b * n) = 0#w := BitVec.shiftLeft_eq_zero ge
    have all : 0#w - 1#w = BitVec.allOnes w := by
      rw [BitVec.zero_sub, BitVec.neg_one_eq_allOnes]
    rw [zero, all, BitVec.getLsbD_allOnes]
    have : i < w → i < b * n := fun _ => by omega
    by_cases inside : i < w <;> simp [inside, this]

theorem field_below (inside : b * (k + 1) ≤ w) : field b (below w b n) k = if k < n then BitVec.allOnes b else 0#b := by
  refine BitVec.eq_of_getLsbD_eq fun i lt => ?_
  rw [getLsbD_field, getLsbD_below]
  have here := bit_lt inside lt
  split
  · rename_i before
    have : b * k + i < b * n := by
      have := Nat.mul_le_mul_left b before
      have := Nat.mul_succ b k
      omega
    simp [here, this, lt]
  · rename_i after
    have : ¬b * k + i < b * n := by
      have := Nat.mul_le_mul_left b (Nat.le_of_not_lt after)
      omega
    simp [this]

theorem field_and_below (x : BitVec w) (inside : b * (k + 1) ≤ w) :
    field b (x &&& below w b n) k = if k < n then field b x k else 0#b := by
  rw [field_and, field_below inside]
  split <;> simp

theorem field_and_above (x : BitVec w) (inside : b * (k + 1) ≤ w) :
    field b (x &&& ~~~below w b n) k = if k < n then 0#b else field b x k := by
  rw [field_and, field_not _ inside, field_below inside]
  split <;> simp

/-! ### Single fields -/

theorem field_setWidth (v : BitVec b) (inside : b ≤ w) : field b (v.setWidth w) k = if k = 0 then v else 0#b := by
  refine BitVec.eq_of_getLsbD_eq fun i lt => ?_
  rw [getLsbD_field, BitVec.getLsbD_setWidth]
  split
  · rename_i zero
    rw [zero, Nat.mul_zero, Nat.zero_add]
    simp [lt, Nat.lt_of_lt_of_le lt inside]
  · rename_i later
    have : b ≤ b * k := Nat.le_mul_of_pos_right b (Nat.pos_of_ne_zero later)
    rw [BitVec.getLsbD_of_ge v _ (by omega)]
    simp

/-- A value shifted to field `n` is that field alone. -/
theorem field_single (v : BitVec b) (n : Nat) (inside : b * (k + 1) ≤ w) :
    field b (v.setWidth w <<< (b * n)) k = if k = n then v else 0#b := by
  have le : b ≤ w := Nat.le_trans (Nat.le_mul_of_pos_right b (Nat.succ_pos k)) inside
  rw [field_shiftLeft _ _ inside, field_setWidth _ le]
  rcases Nat.lt_trichotomy k n with lt | eq | gt
  · rw [if_pos lt, if_neg (by omega)]
  · rw [if_neg (by omega), if_pos (by omega), if_pos eq]
  · rw [if_neg (by omega), if_neg (by omega), if_neg (by omega)]

/-- Counting up within the lowest field. -/
theorem field_add_one (x : BitVec w) (room : (field b x 0).toNat + 1 < 2 ^ b) (inside : b ≤ w) :
    (field b (x + 1#w) 0).toNat = (field b x 0).toNat + 1 ∧ ∀ k, 0 < k → field b (x + 1#w) k = field b x k := by
  rw [toNat_field, Nat.mul_zero, Nat.pow_zero, Nat.div_one] at room ⊢
  have split := Nat.div_add_mod x.toNat (2 ^ b)
  have whole : x.toNat / 2 ^ b < 2 ^ (w - b) := by
    rw [Nat.div_lt_iff_lt_mul (Nat.two_pow_pos b), ← Nat.pow_add, Nat.sub_add_cancel inside]
    exact x.isLt
  have bound : x.toNat + 1 < 2 ^ w := by
    calc x.toNat + 1 < 2 ^ b * (x.toNat / 2 ^ b) + 2 ^ b := by omega
      _ = 2 ^ b * (x.toNat / 2 ^ b + 1) := (Nat.mul_succ _ _).symm
      _ ≤ 2 ^ b * 2 ^ (w - b) := Nat.mul_le_mul_left _ whole
      _ = 2 ^ w := by rw [← Nat.pow_add, Nat.add_sub_cancel' inside]
  have positive : b ≠ 0 := by
    rintro rfl
    rw [Nat.pow_zero, Nat.mod_one] at room
    omega
  have one : (1#w).toNat = 1 := one_toNat (by omega)
  have sum : (x + 1#w).toNat = x.toNat + 1 := by
    rw [BitVec.toNat_add_of_lt (by rwa [one]), one]
  have low : (x.toNat + 1) % 2 ^ b = x.toNat % 2 ^ b + 1 := by
    conv_lhs => rw [← split, Nat.add_assoc, Nat.mul_add_mod]
    exact Nat.mod_eq_of_lt room
  have high : (x.toNat + 1) / 2 ^ b = x.toNat / 2 ^ b := by
    conv_lhs => rw [← split, Nat.add_assoc, Nat.mul_add_div (Nat.two_pow_pos b), Nat.div_eq_of_lt room, Nat.add_zero]
  refine ⟨by rw [toNat_field, sum, Nat.mul_zero, Nat.pow_zero, Nat.div_one, low], fun k later => ?_⟩
  obtain ⟨k, rfl⟩ := Nat.exists_eq_succ_of_ne_zero (Nat.ne_of_gt later)
  have place : 2 ^ (b * (k + 1)) = 2 ^ b * 2 ^ (b * k) := by
    rw [Nat.mul_succ, Nat.add_comm, Nat.pow_add]
  apply BitVec.eq_of_toNat_eq
  rw [toNat_field, toNat_field, sum, place, ← Nat.div_div_eq_div_mul, ← Nat.div_div_eq_div_mul, high]

/-- Counting down within the lowest field. -/
theorem field_sub_one (x : BitVec w) (some : 0 < (field b x 0).toNat) (inside : b ≤ w) :
    (field b (x - 1#w) 0).toNat = (field b x 0).toNat - 1 ∧ ∀ k, 0 < k → field b (x - 1#w) k = field b x k := by
  have back : x - 1#w + 1#w = x := BitVec.sub_add_cancel x 1#w
  rw [toNat_field, Nat.mul_zero, Nat.pow_zero, Nat.div_one] at some ⊢
  have bound : x.toNat % 2 ^ b ≤ x.toNat := Nat.mod_le _ _
  have small : x.toNat % 2 ^ b < 2 ^ b := Nat.mod_lt _ (Nat.two_pow_pos b)
  have positive : w ≠ 0 := by
    rintro rfl
    have := x.isLt
    omega
  have one : (1#w).toNat = 1 := one_toNat positive
  have difference : (x - 1#w).toNat = x.toNat - 1 := by
    rw [BitVec.toNat_sub_of_le (by rw [BitVec.le_def, one]; omega), one]
  have low : (field b (x - 1#w) 0).toNat = x.toNat % 2 ^ b - 1 := by
    have split := Nat.div_add_mod x.toNat (2 ^ b)
    have parts : x.toNat - 1 = 2 ^ b * (x.toNat / 2 ^ b) + (x.toNat % 2 ^ b - 1) := by omega
    rw [toNat_field, difference, Nat.mul_zero, Nat.pow_zero, Nat.div_one, parts, Nat.mul_add_mod]
    exact Nat.mod_eq_of_lt (by omega)
  obtain ⟨_, same⟩ := field_add_one (x - 1#w) (by rw [low]; omega) inside
  rw [back] at same
  exact ⟨low, fun k later => (same k later).symm⟩

end Masstree.Fields
