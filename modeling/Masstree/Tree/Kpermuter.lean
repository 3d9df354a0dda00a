import Masstree.Lib.Fields

/-!
# The word of a permuter

`kpermuter<W>` keeps the size in the lowest four bits of a word and slot `i` of the order in the four bits above it, for every
width up to 15. What is above the last slot means nothing.
-/

namespace Masstree.Tree.Kpermuter

open Fields

/-! ### `sized_kpermuter_info` -/

/-- `sizeof(storage_type)`, in bits. -/
def storageBits (W : Nat) : Nat := if W ≤ 3 then 16 else if W ≤ 7 then 32 else 64

/-- `value_type` is `unsigned` for the two smaller storage types. -/
def valueBits (W : Nat) : Nat := if W ≤ 7 then 32 else 64

def initialValue (W : Nat) : Nat := if W ≤ 3 then 0x0120 else if W ≤ 7 then 0x01234560 else 0x0123456789ABCDE0
def fullValue (W : Nat) : Nat := if W ≤ 3 then 0x2100 else if W ≤ 7 then 0x65432100 else 0xEDCBA98765432100

def maxWidth (W : Nat) : Nat := storageBits W / 4 - 1

/-- `x_`. -/
abbrev Word (W : Nat) : Type := BitVec (valueBits W)

/-! ### The operations -/

variable {W : Nat}

def makeEmpty (W : Nat) : Word W :=
  (BitVec.ofNat _ (initialValue W) >>> (4 * (maxWidth W - W))) &&& ~~~15#_

def makeSorted (W n : Nat) : Word W :=
  let mask := (if n = W then 0#_ else 16#_ <<< (4 * n)) - 1#_
  (makeEmpty W <<< (4 * n)) ||| (BitVec.ofNat _ (fullValue W) &&& mask) ||| BitVec.ofNat _ n

def size (x : Word W) : Nat := (x &&& 15#_).toNat
def get (x : Word W) (i : Nat) : Nat := ((x >>> (4 * i + 4)) &&& 15#_).toNat
def back (x : Word W) : Nat := get x (W - 1)
def setSize (x : Word W) (n : Nat) : Word W := (x &&& ~~~15#_) ||| BitVec.ofNat _ n

def insertFromBack (x : Word W) (i : Nat) : Nat × Word W :=
  let value := back x
  (value,
    ((x + 1#_) &&& ((16#_ <<< (4 * i)) - 1#_)) |||
      (BitVec.ofNat _ value <<< (4 * i + 4)) |||
      ((x <<< 4) &&& ~~~((256#_ <<< (4 * i)) - 1#_)))

def insertSelected (x : Word W) (di si : Nat) : Word W :=
  let value := get x si
  let mask := (256#_ <<< (4 * si)) - 1#_
  ((x + 1#_) &&& ((16#_ <<< (4 * di)) - 1#_)) |||
    (BitVec.ofNat _ value <<< (4 * di + 4)) |||
    ((x <<< 4) &&& mask &&& ~~~((256#_ <<< (4 * di)) - 1#_)) |||
    (x &&& ~~~mask)

def remove (x : Word W) (i : Nat) : Word W :=
  if size x = i + 1 then
    x - 1#_
  else
    let rotAmount := 4 * (size x - i - 1)
    let rotMask := ((16#_ <<< rotAmount) - 1#_) <<< (4 * (i + 1))
    ((x - 1#_) &&& ~~~rotMask) |||
      (((x &&& rotMask) >>> 4) &&& rotMask) |||
      (((x &&& rotMask) <<< rotAmount) &&& rotMask)

def removeToBack (x : Word W) (i : Nat) : Word W :=
  let mask := ~~~((16#_ <<< (4 * i)) - 1#_)
  let x := x &&& ((16#_ <<< (4 * W)) - 1#_)
  ((x - 1#_) &&& ~~~mask) |||
    ((x >>> 4) &&& mask) |||
    ((x &&& mask) <<< (4 * (W - i - 1)))

def rotate (x : Word W) (i j : Nat) : Word W :=
  let mask := (if i = W then 0#_ else 16#_ <<< (4 * i)) - 1#_
  let x := x &&& ((16#_ <<< (4 * W)) - 1#_)
  (x &&& mask) |||
    ((x >>> (4 * (j - i))) &&& ~~~mask) |||
    ((x &&& ~~~mask) <<< (4 * (W - j)))

def exchange (x : Word W) (i j : Nat) : Word W :=
  let diff := ((x >>> (4 * i)) ^^^ (x >>> (4 * j))) &&& 240#_
  x ^^^ ((diff <<< (4 * i)) ||| (diff <<< (4 * j)))

/-- The loop of `exchange_values`: `diff` and `p` with `n` rounds to go. -/
def exchangeDiff (W v u : Nat) : Nat → Word W → Word W → Word W
  | 0, diff, _ => diff
  | n + 1, diff, p =>
    let slot := ((p >>> (4 * W)) &&& 15#_).toNat
    let diff := diff ^^^ (if slot = v ∨ slot = u then BitVec.ofNat _ (v ^^^ u) else 0#_)
    exchangeDiff W v u n (diff <<< 4) (p <<< 4)

def exchangeValues (x : Word W) (v u : Nat) : Word W := x ^^^ exchangeDiff W v u W 0#_ x

/-! ### Fields of the word -/

variable {x : Word W} {i j k n : Nat}

@[simp] theorem and_fifteen (v : BitVec 4) : v &&& 15#4 = v := BitVec.and_allOnes


theorem inside (le : W ≤ 15) (here : k ≤ W) : 4 * (k + 1) ≤ valueBits W := by
  unfold valueBits
  split <;> omega

theorem four_le_valueBits (W : Nat) : 4 ≤ valueBits W := by
  unfold valueBits
  split <;> decide

theorem fifteen_eq (W : Nat) : 15#(valueBits W) = below (valueBits W) 4 1 := by
  rcases Nat.lt_or_ge 7 W with big | small
  · rw [valueBits, if_neg (Nat.not_le_of_lt big)]
    rfl
  · rw [valueBits, if_pos small]
    rfl

theorem mask_eq {w : Nat} (n : Nat) : (16#w <<< (4 * n)) - 1#w = below w 4 (n + 1) := by
  have sixteen : 16#w = 1#w <<< 4 := by
    apply BitVec.eq_of_toNat_eq
    rw [BitVec.toNat_shiftLeft, BitVec.toNat_ofNat, BitVec.toNat_ofNat, Nat.shiftLeft_eq, Nat.mod_mul_mod]
  rw [below, sixteen, ← BitVec.shiftLeft_add, Nat.mul_succ, Nat.add_comm]

theorem wideMask_eq {w : Nat} (n : Nat) : (256#w <<< (4 * n)) - 1#w = below w 4 (n + 2) := by
  have twice : 256#w = 1#w <<< (4 * 2) := by
    apply BitVec.eq_of_toNat_eq
    rw [BitVec.toNat_shiftLeft, BitVec.toNat_ofNat, BitVec.toNat_ofNat, Nat.shiftLeft_eq, Nat.mod_mul_mod]
  rw [below, twice, ← BitVec.shiftLeft_add, ← Nat.mul_add, Nat.add_comm]

theorem toNat_fifteen (x : Word W) : (x &&& 15#_).toNat = x.toNat % 16 := by
  have small : 15 < 2 ^ valueBits W := Nat.lt_of_lt_of_le (by decide) (Nat.pow_le_pow_right (by decide) (four_le_valueBits W))
  rw [BitVec.toNat_and, BitVec.toNat_ofNat, Nat.mod_eq_of_lt small]
  exact Nat.and_two_pow_sub_one_eq_mod x.toNat 4

theorem toNat_slot (x : Word W) (k : Nat) : ((x >>> (4 * k)) &&& 15#_).toNat = (field 4 x k).toNat := by
  rw [toNat_field]
  show _ = x.toNat / 2 ^ (4 * k) % 16
  rw [toNat_fifteen, BitVec.toNat_ushiftRight, Nat.shiftRight_eq_div_pow]

theorem size_eq (x : Word W) : size x = (field 4 x 0).toNat := by
  rw [toNat_field, Nat.mul_zero, Nat.pow_zero, Nat.div_one]
  exact toNat_fifteen x

theorem get_eq (x : Word W) (i : Nat) : get x i = (field 4 x (i + 1)).toNat := toNat_slot x (i + 1)

/-- Four bits of a word, back in a word. -/
theorem ofNat_field (x : Word W) (i : Nat) : BitVec.ofNat (valueBits W) (get x i) = (field 4 x (i + 1)).setWidth _ := by
  rw [get_eq, BitVec.ofNat_toNat]

theorem field_up (x : Word W) (le : W ≤ 15) (here : k ≤ W) :
    field 4 (x <<< 4) k = if k = 0 then 0#4 else field 4 x (k - 1) := by
  have moved := field_shiftLeft x 1 (inside le here)
  rw [Nat.mul_one] at moved
  rw [moved]
  exact if_congr Nat.lt_one_iff rfl rfl

theorem field_down (x : Word W) (k : Nat) : field 4 (x >>> 4) k = field 4 x (k + 1) := field_shiftRight x 1 k

/-- One slot put in its place. -/
theorem field_slot (v : BitVec 4) (i : Nat) (le : W ≤ 15) (here : k ≤ W) :
    field 4 (v.setWidth (valueBits W) <<< (4 * i + 4)) k = if k = i + 1 then v else 0#4 :=
  field_single v (i + 1) (inside le here)

theorem field_insertFromBack (le : W ≤ 15) (lt : i < W) (here : k ≤ W) :
    field 4 (insertFromBack x i).2 k =
      if k ≤ i then field 4 (x + 1#_) k else if k = i + 1 then field 4 x W else field 4 x (k - 1) := by
  have fit := inside le here
  have last : W - 1 + 1 = W := by omega
  rw [insertFromBack, back, ofNat_field, last, mask_eq, wideMask_eq]
  show field 4 (_ ||| _ ||| _) k = _
  rw [field_or, field_or, field_and_below _ fit, field_slot _ _ le here, field_and_above _ fit, field_up _ le here]
  rcases Nat.lt_trichotomy k (i + 1) with before | at_ | after
  · rw [if_pos before, if_neg (by omega), if_pos (by omega), if_pos (by omega), BitVec.or_zero, BitVec.or_zero]
  · rw [if_neg (by omega), if_pos at_, if_pos (by omega), if_neg (by omega), if_pos at_, BitVec.zero_or, BitVec.or_zero]
  · rw [if_neg (by omega), if_neg (by omega), if_neg (by omega), if_neg (by omega), if_neg (by omega), if_neg (by omega),
      BitVec.or_zero, BitVec.zero_or]

theorem field_insertSelected {di si : Nat} (le : W ≤ 15) (forward : di ≤ si) (here : k ≤ W) :
    field 4 (insertSelected x di si) k =
      if k ≤ di then field 4 (x + 1#_) k
      else if k = di + 1 then field 4 x (si + 1)
      else if k ≤ si + 1 then field 4 x (k - 1)
      else field 4 x k := by
  have fit := inside le here
  rw [insertSelected, ofNat_field, mask_eq, wideMask_eq, wideMask_eq]
  show field 4 (_ ||| _ ||| _ ||| _) k = _
  rw [field_or, field_or, field_or, field_and_below _ fit, field_slot _ _ le here, field_and_above _ fit, field_and_below _ fit,
    field_up _ le here, field_and_above _ fit]
  split_ifs <;> first | omega | simp

/-- A value inserted behind its place leaves its place as it is. -/
theorem field_insertSelected_back {di si : Nat} (le : W ≤ 15) (backward : si < di) (lt : si < W) :
    field 4 (insertSelected x di si) (si + 1) = field 4 (x + 1#_) (si + 1) := by
  have here : si + 1 ≤ W := lt
  have fit := inside le here
  rw [insertSelected, ofNat_field, mask_eq, wideMask_eq, wideMask_eq]
  show field 4 (_ ||| _ ||| _ ||| _) (si + 1) = _
  rw [field_or, field_or, field_or, field_and_below _ fit, field_slot _ _ le here, field_and_above _ fit, field_and_below _ fit,
    field_up _ le here, field_and_above _ fit]
  split_ifs <;> first | omega | simp

theorem inside_or_outside (W k : Nat) : 4 * (k + 1) ≤ valueBits W ∨ valueBits W ≤ 4 * k := by
  have : valueBits W = 32 ∨ valueBits W = 64 := by
    unfold valueBits
    split
    · exact .inl rfl
    · exact .inr rfl
  omega

/-- The mask of `remove`: the slots from `i` to the last live one. -/
theorem field_rotMask (le : W ≤ 15) (lt : i < n) (small : n ≤ W) (k : Nat) :
    field 4 (((16#(valueBits W) <<< (4 * (n - i - 1))) - 1#_) <<< (4 * (i + 1))) k =
      if i + 1 ≤ k ∧ k ≤ n then BitVec.allOnes 4 else 0#4 := by
  rw [mask_eq]
  rcases inside_or_outside W k with fit | outside
  · have rest : 4 * (k - (i + 1) + 1) ≤ valueBits W := by omega
    rw [field_shiftLeft _ _ fit]
    split_ifs with before within within
    · omega
    · rfl
    · rw [field_below rest, if_pos (by omega)]
    · rw [field_below rest, if_neg (by omega)]
  · have fits := inside le small
    rw [field_outside _ outside, if_neg (by omega)]

theorem field_remove (le : W ≤ 15) (lt : i + 1 < size x) (small : size x ≤ W) (here : k ≤ W) :
    field 4 (remove x i) k =
      if k ≤ i then field 4 (x - 1#_) k
      else if k < size x then field 4 x (k + 1)
      else if k = size x then field 4 x (i + 1)
      else field 4 (x - 1#_) k := by
  have fit := inside le here
  have masked := fun f => field_rotMask le (Nat.lt_of_succ_lt lt) small f
  rw [remove, if_neg (by omega)]
  dsimp only
  generalize ((16#(valueBits W) <<< (4 * (size x - i - 1))) - 1#_) <<< (4 * (i + 1)) = rotMask at masked
  show field 4 (((x - 1#_) &&& ~~~rotMask) ||| (((x &&& rotMask) >>> 4) &&& rotMask) |||
    (((x &&& rotMask) <<< (4 * (size x - i - 1))) &&& rotMask)) k = _
  rw [field_or, field_or, field_and, field_and, field_and, field_not _ fit, field_down, field_and, field_shiftLeft _ _ fit,
    field_and, masked, masked, masked]
  rcases Nat.lt_trichotomy k (size x) with before | at_ | after
  · simp (disch := omega) only [if_neg]
    split_ifs <;> first | omega | simp
  · have place : k - (size x - i - 1) = i + 1 := by omega
    simp (disch := omega) only [if_pos, if_neg, BitVec.and_allOnes, BitVec.not_allOnes, BitVec.and_zero,
      BitVec.zero_or, place]
  · simp (disch := omega) only [if_neg, BitVec.not_zero, BitVec.and_allOnes, BitVec.and_zero, BitVec.or_zero]

/-- The word without what is above the last slot. -/
theorem field_cleared (x : Word W) (le : W ≤ 15) (k : Nat) :
    field 4 (x &&& ((16#_ <<< (4 * W)) - 1#_)) k = if k ≤ W then field 4 x k else 0#4 := by
  rw [mask_eq]
  rcases inside_or_outside W k with fit | outside
  · rw [field_and_below _ fit]
    exact if_congr Nat.lt_succ_iff rfl rfl
  · have fits := inside le (Nat.le_refl W)
    rw [field_outside _ outside, if_neg (by omega)]

theorem field_removeToBack (le : W ≤ 15) (lt : i < W) (here : k ≤ W) :
    field 4 (removeToBack x i) k =
      if k ≤ i then field 4 ((x &&& ((16#_ <<< (4 * W)) - 1#_)) - 1#_) k
      else if k < W then field 4 x (k + 1)
      else field 4 x (i + 1) := by
  have fit := inside le here
  have cleared := field_cleared x le
  rw [removeToBack, mask_eq i]
  generalize x &&& ((16#_ <<< (4 * W)) - 1#_) = y at cleared
  show field 4 ((y - 1#_) &&& ~~~~~~below _ 4 (i + 1) ||| (y >>> 4) &&& ~~~below _ 4 (i + 1) |||
    (y &&& ~~~below _ 4 (i + 1)) <<< (4 * (W - i - 1))) k = _
  rw [BitVec.not_not, field_or, field_or, field_and_below _ fit, field_and_above _ fit, field_down, field_shiftLeft _ _ fit,
    field_and_above _ (by omega), cleared, cleared]
  rcases Nat.lt_trichotomy k W with before | rfl | after
  · simp (disch := omega) only [if_pos]
    split_ifs <;> first | omega | simp
  · have place : k - (k - i - 1) = i + 1 := by omega
    simp (disch := omega) only [if_pos, if_neg, BitVec.zero_or, BitVec.or_zero, place]
  · omega

theorem field_rotate (le : W ≤ 15) (first : i ≤ j) (last : j ≤ W) (here : k ≤ W) :
    field 4 (rotate x i j) k =
      if k ≤ i then field 4 x k
      else if k + (j - i) ≤ W then field 4 x (k + (j - i))
      else field 4 x (k - (W - j)) := by
  have fit := inside le here
  have cleared := field_cleared x le
  have mask : ∀ f ≤ W, field 4 ((if i = W then 0#(valueBits W) else 16#_ <<< (4 * i)) - 1#_) f =
      if f ≤ i then BitVec.allOnes 4 else 0#4 := by
    intro f here
    split
    · rename_i whole
      rw [if_pos (by omega), BitVec.zero_sub, BitVec.neg_one_eq_allOnes, ← BitVec.not_zero, field_not _ (inside le here),
        field_zero, BitVec.not_zero]
    · rw [mask_eq, field_below (inside le here)]
      exact if_congr Nat.lt_succ_iff rfl rfl
  rw [rotate]
  generalize (if i = W then 0#(valueBits W) else 16#_ <<< (4 * i)) - 1#_ = mask' at mask
  generalize x &&& ((16#_ <<< (4 * W)) - 1#_) = y at cleared
  show field 4 ((y &&& mask') ||| ((y >>> (4 * (j - i))) &&& ~~~mask') ||| ((y &&& ~~~mask') <<< (4 * (W - j)))) k = _
  rw [field_or, field_or, field_and, field_and, field_not _ fit, mask k here, field_shiftRight, field_shiftLeft _ _ fit, field_and,
    field_not _ (by omega), mask _ (by omega), cleared, cleared, cleared]
  rcases Nat.lt_or_ge i k with moved | kept
  · rcases Nat.lt_or_ge W (k + (j - i)) with past | within
    · simp (disch := omega) only [if_pos, if_neg, BitVec.zero_or, BitVec.and_zero, BitVec.not_zero, BitVec.and_allOnes]
    · simp (disch := omega) only [if_pos, if_neg, BitVec.and_zero, BitVec.zero_or, BitVec.not_zero, BitVec.and_allOnes]
      split_ifs <;> first | omega | simp
  · simp (disch := omega) only [if_pos, BitVec.or_zero, BitVec.and_zero, BitVec.not_allOnes, BitVec.and_allOnes]
    split_ifs <;> first | omega | simp

theorem field_exchange (le : W ≤ 15) (here : k ≤ W) :
    field 4 (exchange x i j) k =
      if k = i + 1 then field 4 x (j + 1) else if k = j + 1 then field 4 x (i + 1) else field 4 x k := by
  have fit := inside le here
  have second : 240#(valueBits W) = (15#4).setWidth _ <<< (4 * 0 + 4) := by
    rcases Nat.lt_or_ge 7 W with big | small
    · rw [valueBits, if_neg (Nat.not_le_of_lt big)]
      rfl
    · rw [valueBits, if_pos small]
      rfl
  have diff : ∀ f ≤ W, field 4 (((x >>> (4 * i)) ^^^ (x >>> (4 * j))) &&& 240#_) f =
      if f = 1 then field 4 x (i + 1) ^^^ field 4 x (j + 1) else 0#4 := by
    intro f here
    rw [second, field_and, field_slot _ _ le here, field_xor, field_shiftRight, field_shiftRight]
    split_ifs with one
    · rw [one, and_fifteen, Nat.add_comm 1 i, Nat.add_comm 1 j]
    · rw [BitVec.and_zero]
  rw [exchange]
  generalize ((x >>> (4 * i)) ^^^ (x >>> (4 * j))) &&& 240#_ = diff' at diff
  show field 4 (x ^^^ (diff' <<< (4 * i) ||| diff' <<< (4 * j))) k = _
  rw [field_xor, field_or, field_shiftLeft _ _ fit, field_shiftLeft _ _ fit, diff _ (by omega), diff _ (by omega)]
  rcases eq_or_ne i j with rfl | differ
  · rw [BitVec.or_self, BitVec.xor_self, ite_self, ite_self, BitVec.xor_zero]
    split_ifs with at_
    · rw [at_]
    · rfl
  · have first : field 4 x (i + 1) ^^^ (field 4 x (i + 1) ^^^ field 4 x (j + 1)) = field 4 x (j + 1) := by
      rw [← BitVec.xor_assoc, BitVec.xor_self, BitVec.zero_xor]
    have second : field 4 x (j + 1) ^^^ (field 4 x (i + 1) ^^^ field 4 x (j + 1)) = field 4 x (i + 1) := by
      rw [BitVec.xor_comm (field 4 x (i + 1)), ← BitVec.xor_assoc, BitVec.xor_self, BitVec.zero_xor]
    rcases eq_or_ne k (i + 1) with rfl | hi
    · simp (disch := omega) only [if_pos, if_neg, ite_self, BitVec.or_zero, first, if_true]
    · rcases eq_or_ne k (j + 1) with rfl | hj
      · simp (disch := omega) only [if_pos, if_neg, ite_self, BitVec.zero_or, second, if_true]
      · simp (disch := omega) only [if_neg, ite_self, BitVec.or_zero, BitVec.xor_zero]

/-- What a round of `exchange_values` finds for one slot. -/
def difference (v u : Nat) (slot : BitVec 4) : BitVec 4 :=
  if slot.toNat = v ∨ slot.toNat = u then BitVec.ofNat 4 (v ^^^ u) else 0#4

theorem field_exchangeDiff {v u : Nat} (le : W ≤ 15) (hv : v < 16) (hu : u < 16) (here : k ≤ W) (rounds : n ≤ W)
    (diff p : Word W) :
    field 4 (exchangeDiff W v u n diff p) k =
      (if k < n then 0#4 else field 4 diff (k - n)) ^^^
        (if 1 ≤ k ∧ k ≤ n then difference v u (field 4 p (W - (n - k))) else 0#4) := by
  induction n generalizing diff p with
  | zero =>
    rw [exchangeDiff, if_neg (Nat.not_lt_zero k), if_neg (by omega), BitVec.xor_zero, Nat.sub_zero]
  | succ n ih =>
    have low : v ^^^ u < 2 ^ 4 := Nat.xor_lt_two_pow hv hu
    have found : (if (field 4 p W).toNat = v ∨ (field 4 p W).toNat = u then BitVec.ofNat _ (v ^^^ u) else 0#(valueBits W)) =
        (difference v u (field 4 p W)).setWidth _ := by
      unfold difference
      split
      · rw [← BitVec.ofNat_toNat, BitVec.toNat_ofNat, Nat.mod_eq_of_lt low]
      · rw [BitVec.setWidth_zero]
    rw [exchangeDiff]
    simp only [toNat_slot]
    rw [found, ih (Nat.le_of_succ_le rounds), field_up _ le (by omega), field_xor, field_setWidth _ (four_le_valueBits W),
      field_up _ le (by omega)]
    rcases Nat.lt_trichotomy k (n + 1) with before | rfl | after
    · have place : W - (n - k) - 1 = W - (n + 1 - k) := by omega
      simp (disch := omega) only [if_pos, if_neg, ite_self, BitVec.zero_xor, place]
      exact if_congr (by omega) rfl rfl
    · simp (disch := omega) only [if_pos, if_neg, Nat.add_sub_cancel_left, Nat.sub_self, BitVec.xor_zero, Nat.sub_zero,
        if_true]
    · have place : k - n - 1 = k - (n + 1) := by omega
      simp (disch := omega) only [if_neg, BitVec.xor_zero, place]

theorem xor_difference {v u : Nat} (hv : v < 16) (hu : u < 16) (slot : BitVec 4) :
    (slot ^^^ difference v u slot).toNat = if slot.toNat = v then u else if slot.toNat = u then v else slot.toNat := by
  have low : v ^^^ u < 2 ^ 4 := Nat.xor_lt_two_pow hv hu
  unfold difference
  split_ifs with either first second second
  · rw [BitVec.toNat_xor, BitVec.toNat_ofNat, Nat.mod_eq_of_lt low, first, ← Nat.xor_assoc, Nat.xor_self, Nat.zero_xor]
  · rw [BitVec.toNat_xor, BitVec.toNat_ofNat, Nat.mod_eq_of_lt low, second, Nat.xor_comm v u, ← Nat.xor_assoc, Nat.xor_self,
      Nat.zero_xor]
  · exact absurd either (by tauto)
  · exact absurd (Or.inl ‹_›) either
  · exact absurd (Or.inr ‹_›) either
  · rw [BitVec.xor_zero]

end Masstree.Tree.Kpermuter
