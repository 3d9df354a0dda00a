import Mathlib.Algebra.Order.Ring.Int
import Mathlib.Data.List.Basic
import Mathlib.Tactic.Common

/-!
# The in-memory msgpack parser

`msgpack::parser` reads integers and strings from a position in memory. A position is the list of
bytes from it on. A read past the bytes that exist, and every failed `assert`, is `none`.
-/

namespace Masstree.Msgpack

abbrev Bytes := List UInt8

/-- `read_in_net_order` of an unsigned type: big-endian bytes. -/
def netOrder (bs : Bytes) : Nat := bs.foldl (fun n b => n * 256 + b.toNat) 0

/-- `write_in_net_order` of an unsigned type of `n` bytes. -/
def toNetOrder : Nat → Nat → Bytes
  | 0, _ => []
  | n + 1, x => toNetOrder n (x / 256) ++ [UInt8.ofNat (x % 256)]

/-- Two's complement reading of a word of `n` bytes. -/
def signed (n x : Nat) : Int := if x < 2 ^ (8 * n - 1) then x else (x : Int) - 2 ^ (8 * n)

/-- The first `n` bytes, if there are as many, and the position after them. -/
def take? (n : Nat) (s : Bytes) : Option (Bytes × Bytes) :=
  if n ≤ s.length then some (s.take n, s.drop n) else none

namespace Format

def isFixint (b : UInt8) : Bool := b < 0x80 || 0xE0 ≤ b
def isFixstr (b : UInt8) : Bool := 0xA0 ≤ b && b < 0xC0

end Format

/-- The payload of an integer form: `n` bytes in network order. -/
def readWord (n : Nat) (neg : Bool) (s : Bytes) : Option (Int × Bytes) := do
  let (w, rest) ← take? n s
  return (if neg then signed n (netOrder w) else (netOrder w : Int), rest)

/-- `parser::hard_read_int`, after the type byte. -/
def hardReadInt (b : UInt8) (s : Bytes) : Option (Int × Bytes) :=
  match b.toNat with
  | 0xCC => readWord 1 false s
  | 0xCD => readWord 2 false s
  | 0xCE => readWord 4 false s
  | 0xCF => readWord 8 false s
  | 0xD0 => readWord 1 true s
  | 0xD1 => readWord 2 true s
  | 0xD2 => readWord 4 true s
  | 0xD3 => readWord 8 true s
  | _ => none

/-- `parser::read_int`, before the conversion to the type asked for. -/
def readInt : Bytes → Option (Int × Bytes)
  | [] => none
  | b :: rest =>
    if Format.isFixint b then some (signed 1 b.toNat, rest) else hardReadInt b rest

/-- `parser::operator>>(unsigned&)`. -/
def readUnsigned (s : Bytes) : Option (Nat × Bytes) := do
  let (x, rest) ← readInt s
  return ((x % 2 ^ 32).toNat, rest)

/-- A string whose length takes the next `n` bytes. -/
def readSized (n : Nat) (s : Bytes) : Option (Bytes × Bytes) := do
  let (w, rest) ← take? n s
  take? (netOrder w) rest

/-- `parser::operator>>(Str&)`. -/
def readStr : Bytes → Option (Bytes × Bytes)
  | [] => none
  | b :: rest =>
    if Format.isFixstr b then take? (b.toNat - 0xA0) rest
    else match b.toNat with
      | 0xC4 | 0xD9 => readSized 1 rest
      | 0xC5 | 0xDA => readSized 2 rest
      | 0xC6 | 0xDB => readSized 4 rest
      | _ => none

/-! ### Encodings -/

/-- The msgpack forms of a natural number: what a client may send for a column number. -/
inductive EncodesNat : Nat → Bytes → Prop where
  | fix {x : Nat} : x < 0x80 → EncodesNat x [UInt8.ofNat x]
  | uint8 {x : Nat} : x < 2 ^ 8 → EncodesNat x (0xCC :: toNetOrder 1 x)
  | uint16 {x : Nat} : x < 2 ^ 16 → EncodesNat x (0xCD :: toNetOrder 2 x)
  | uint32 {x : Nat} : x < 2 ^ 32 → EncodesNat x (0xCE :: toNetOrder 4 x)
  | uint64 {x : Nat} : x < 2 ^ 32 → EncodesNat x (0xCF :: toNetOrder 8 x)
  | int8 {x : Nat} : x < 2 ^ 7 → EncodesNat x (0xD0 :: toNetOrder 1 x)
  | int16 {x : Nat} : x < 2 ^ 15 → EncodesNat x (0xD1 :: toNetOrder 2 x)
  | int32 {x : Nat} : x < 2 ^ 31 → EncodesNat x (0xD2 :: toNetOrder 4 x)
  | int64 {x : Nat} : x < 2 ^ 32 → EncodesNat x (0xD3 :: toNetOrder 8 x)

inductive EncodesStr : Bytes → Bytes → Prop where
  | fix {v : Bytes} : v.length < 0x20 → EncodesStr v (UInt8.ofNat (0xA0 + v.length) :: v)
  | str8 {v : Bytes} {b : UInt8} : b = 0xD9 ∨ b = 0xC4 → v.length < 2 ^ 8 →
      EncodesStr v (b :: (toNetOrder 1 v.length ++ v))
  | str16 {v : Bytes} {b : UInt8} : b = 0xDA ∨ b = 0xC5 → v.length < 2 ^ 16 →
      EncodesStr v (b :: (toNetOrder 2 v.length ++ v))
  | str32 {v : Bytes} {b : UInt8} : b = 0xDB ∨ b = 0xC6 → v.length < 2 ^ 32 →
      EncodesStr v (b :: (toNetOrder 4 v.length ++ v))

@[simp] theorem toNetOrder_length (n x : Nat) : (toNetOrder n x).length = n := by
  induction n generalizing x with
  | zero => rfl
  | succ n ih => simp [toNetOrder, ih]

theorem netOrder_append (s : Bytes) (b : UInt8) : netOrder (s ++ [b]) = netOrder s * 256 + b.toNat := by
  simp [netOrder]

theorem netOrder_toNetOrder (n : Nat) {x : Nat} (h : x < 2 ^ (8 * n)) : netOrder (toNetOrder n x) = x := by
  induction n generalizing x with
  | zero =>
    have : x = 0 := by simpa using h
    subst this
    rfl
  | succ n ih =>
    have high : x / 256 < 2 ^ (8 * n) := by
      rw [show 8 * (n + 1) = 8 * n + 8 by omega, Nat.pow_add] at h
      omega
    have low : (UInt8.ofNat (x % 256)).toNat = x % 256 := by
      simp
    rw [toNetOrder, netOrder_append, ih high, low]
    omega

theorem take?_append (v rest : Bytes) {n : Nat} (h : n = v.length) :
    take? n (v ++ rest) = some (v, rest) := by
  subst h
  simp [take?]

theorem readWord_append (n x : Nat) (rest : Bytes) (h : x < 2 ^ (8 * n)) :
    readWord n false (toNetOrder n x ++ rest) = some ((x : Int), rest) := by
  simp [readWord, take?_append _ _ (toNetOrder_length n x).symm, netOrder_toNetOrder n h]

theorem readWord_append_signed (n x : Nat) (rest : Bytes) (h : x < 2 ^ (8 * n - 1)) :
    readWord n true (toNetOrder n x ++ rest) = some ((x : Int), rest) := by
  have wide : x < 2 ^ (8 * n) := Nat.lt_of_lt_of_le h (Nat.pow_le_pow_right (by decide) (by omega))
  simp [readWord, take?_append _ _ (toNetOrder_length n x).symm, netOrder_toNetOrder n wide, signed, h]

theorem ofNat_toNat {x : Nat} (h : x < 256) : (UInt8.ofNat x).toNat = x := by
  simp [Nat.mod_eq_of_lt h]

/-- Every form of an integer is read back as the integer. -/
theorem readInt_encodes {x : Nat} {s : Bytes} (h : EncodesNat x s) (rest : Bytes) :
    readInt (s ++ rest) = some ((x : Int), rest) := by
  cases h with
  | fix small =>
    have toNat := ofNat_toNat (x := x) (by omega)
    have fixint : Format.isFixint (UInt8.ofNat x) = true := by
      have low : UInt8.ofNat x < 0x80 := UInt8.lt_iff_toNat_lt.mpr (by rw [toNat]; exact small)
      simp only [Format.isFixint, low, decide_true, Bool.true_or]
    have positive : signed 1 x = x := if_pos small
    rw [List.singleton_append, readInt, if_pos fixint, toNat, positive]
  | uint8 small => exact readWord_append 1 x rest small
  | uint16 small => exact readWord_append 2 x rest small
  | uint32 small => exact readWord_append 4 x rest small
  | uint64 small => exact readWord_append 8 x rest (by omega)
  | int8 small => exact readWord_append_signed 1 x rest small
  | int16 small => exact readWord_append_signed 2 x rest small
  | int32 small => exact readWord_append_signed 4 x rest small
  | int64 small => exact readWord_append_signed 8 x rest (by omega)

theorem EncodesNat.lt {x : Nat} {s : Bytes} (h : EncodesNat x s) : x < 2 ^ 32 := by
  cases h <;> omega

theorem readUnsigned_encodes {x : Nat} {s : Bytes} (h : EncodesNat x s) (rest : Bytes) :
    readUnsigned (s ++ rest) = some (x, rest) := by
  have word : ((x : Int) % 2 ^ 32).toNat = x := by
    have := h.lt
    omega
  simp only [readUnsigned, readInt_encodes h, Option.bind_eq_bind, Option.bind_some, word]
  rfl

theorem readSized_append (n : Nat) (v rest : Bytes) (h : v.length < 2 ^ (8 * n)) :
    readSized n (toNetOrder n v.length ++ v ++ rest) = some (v, rest) := by
  rw [List.append_assoc]
  simp [readSized, take?_append _ _ (toNetOrder_length n _).symm, netOrder_toNetOrder n h,
    take?_append v rest rfl]

/-- Every form of a string is read back as the string. -/
theorem readStr_encodes {v s : Bytes} (h : EncodesStr v s) (rest : Bytes) :
    readStr (s ++ rest) = some (v, rest) := by
  cases h with
  | fix small =>
    have toNat := ofNat_toNat (x := 0xA0 + v.length) (by omega)
    generalize UInt8.ofNat (0xA0 + v.length) = b at toNat
    have fixstr : Format.isFixstr b = true := by
      simp [Format.isFixstr, UInt8.lt_iff_toNat_lt, UInt8.le_iff_toNat_le, toNat]
      omega
    simp [readStr, fixstr, toNat, take?_append v rest]
  | str8 form small =>
    rcases form with rfl | rfl
    all_goals exact readSized_append 1 v rest small
  | str16 form small =>
    rcases form with rfl | rfl
    all_goals exact readSized_append 2 v rest small
  | str32 form small =>
    rcases form with rfl | rfl
    all_goals exact readSized_append 4 v rest small

end Masstree.Msgpack
