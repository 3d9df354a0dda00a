import Masstree.Msgpack.Parser

/-!
# Requests

`streaming_parser` turns the bytes of a request into an array of `Json` values, and `msgpack::parser` walks over
the same bytes. Of an array or object inside a request only its extent matters. What has no defined result (an
assertion that fails, a conversion out of range, a length that is negative as an `int`) is `none`.
-/

namespace Masstree.Msgpack

/-- A `Json` value. A double is its 64 bits. -/
inductive Json where
  | null
  | bool (b : Bool)
  | int (x : Int)
  | unsigned (x : Nat)
  | double (bits : Nat)
  | str (s : Bytes)
  | array
  | object
  deriving DecidableEq, Repr

def floatToDouble (bits : Nat) : Nat :=
  let e := bits / 2 ^ 23 % 2 ^ 8
  let m := bits % 2 ^ 23
  let exponent := if e = 255 then 2047 else if e ≠ 0 then e + 896 else if m = 0 then 0 else m.log2 + 874
  let mantissa := if e ≠ 0 then m * 2 ^ 29 else if m = 0 then 0 else (m - 2 ^ m.log2) * 2 ^ (52 - m.log2)
  bits / 2 ^ 31 * 2 ^ 63 + exponent * 2 ^ 52 + mantissa

def truncDouble (bits : Nat) : Option Int :=
  let e := bits / 2 ^ 52 % 2 ^ 11
  let m := bits % 2 ^ 52
  let magnitude : Nat := if e = 0 then 0 else (2 ^ 52 + m) * 2 ^ e / 2 ^ 1075
  if e = 2047 then none else some (if bits < 2 ^ 63 then magnitude else -(magnitude : Int))

namespace Json

def asI : Json → Option Int
  | .int x => some x
  | .unsigned x => some (signed 8 x)
  | .double bits => (truncDouble bits).filter fun x => -2 ^ 63 ≤ x ∧ x < 2 ^ 63
  | _ => none

def asU : Json → Option Nat
  | .int x => some (x % 2 ^ 64).toNat
  | .unsigned x => some x
  | .double bits => ((truncDouble bits).filter fun x => 0 ≤ x ∧ x < 2 ^ 64).map Int.toNat
  | _ => none

def asS : Json → Option Bytes
  | .str s => some s
  | _ => none

def isInt : Json → Bool
  | .int _ | .unsigned _ => true
  | _ => false

end Json

namespace Format

def isNullOrBool (b : UInt8) : Bool := 0xC0 ≤ b && b < 0xC4
def isFixmap (b : UInt8) : Bool := 0x80 ≤ b && b < 0x90
def isFixarray (b : UInt8) : Bool := 0x90 ≤ b && b < 0xA0

end Format

/-! ### The streaming parser -/

/-- A length, which the streaming parser keeps in an `int`. -/
def readLength (n : Nat) (s : Bytes) : Option (Nat × Bytes) := do
  let (w, rest) ← take? n s
  if netOrder w < 2 ^ 31 then some (netOrder w, rest) else none

/-- `n` values one after another. -/
def parseItems (parse : Bytes → Option (Json × Bytes)) : Nat → Bytes → Option (List Json × Bytes)
  | 0, s => some ([], s)
  | n + 1, s => do
    let (j, s) ← parse s
    let (js, s) ← parseItems parse n s
    return (j :: js, s)

/-- `n` keys and values of an object. A key is a string or an integer. -/
def parsePairs (parse : Bytes → Option (Json × Bytes)) : Nat → Bytes → Option Bytes
  | 0, s => some s
  | n + 1, s => do
    let (key, s) ← parse s
    if key.isInt ∨ key.asS.isSome then do
      let (_, s) ← parse s
      parsePairs parse n s
    else none

/-- A string, whose length the streaming parser keeps in an `int`. -/
def parseStr (s : Bytes) : Option (Json × Bytes) := do
  let (v, rest) ← readStr s
  if v.length < 2 ^ 31 then some (.str v, rest) else none

def parseInt (b : UInt8) (s : Bytes) : Option (Json × Bytes) := do
  let (x, rest) ← hardReadInt b s
  return (if b = 0xCE ∨ b = 0xCF then .unsigned x.toNat else .int x, rest)

/-- `streaming_parser::consume` on a whole value. The first argument bounds the nesting. -/
def parseJson : Nat → Bytes → Option (Json × Bytes)
  | 0, _ | _, [] => none
  | fuel + 1, b :: rest =>
    let array (n : Nat) (s : Bytes) := (parseItems (parseJson fuel) n s).map fun r => (Json.array, r.2)
    let map (n : Nat) (s : Bytes) := (parsePairs (parseJson fuel) n s).map fun s => (Json.object, s)
    if Format.isFixint b then some (.int (signed 1 b.toNat), rest)
    else if Format.isFixmap b then map (b.toNat - 0x80) rest
    else if Format.isFixarray b then array (b.toNat - 0x90) rest
    else if Format.isFixstr b then parseStr (b :: rest)
    else match b.toNat with
      | 0xC0 => some (.null, rest)
      | 0xC2 => some (.bool false, rest)
      | 0xC3 => some (.bool true, rest)
      | 0xCA => (take? 4 rest).map fun r => (.double (floatToDouble (netOrder r.1)), r.2)
      | 0xCB => (take? 8 rest).map fun r => (.double (netOrder r.1), r.2)
      | 0xC4 | 0xC5 | 0xC6 | 0xD9 | 0xDA | 0xDB => parseStr (b :: rest)
      | 0xDC => (readLength 2 rest).bind fun r => array r.1 r.2
      | 0xDD => (readLength 4 rest).bind fun r => array r.1 r.2
      | 0xDE => (readLength 2 rest).bind fun r => map r.1 r.2
      | 0xDF => (readLength 4 rest).bind fun r => map r.1 r.2
      | _ => parseInt b rest

def readArrayHeader : Bytes → Option (Nat × Bytes)
  | [] => none
  | b :: rest =>
    if Format.isFixarray b then some (b.toNat - 0x90, rest)
    else match b.toNat with
      | 0xDC => readLength 2 rest
      | 0xDD => readLength 4 rest
      | _ => none

/-- The request a whole message holds. -/
def parseRequest (s : Bytes) : Option (List Json) := do
  let (n, items) ← readArrayHeader s
  let (request, rest) ← parseItems (parseJson items.length) n items
  if rest.isEmpty then some request else none

/-! ### Walking over a request -/

/-- The forms `skip_primitives` moves past. -/
def skips (b : UInt8) : Bool :=
  Format.isFixint b || Format.isNullOrBool b || Format.isFixstr b ||
    b ∈ ([0xCC, 0xD0, 0xCD, 0xD1, 0xCE, 0xD2, 0xCA, 0xD9, 0xC4, 0xDA, 0xC5, 0xDB, 0xC6] : List UInt8)

/-- One round of `parser::skip_primitives`. At any other form it stays where it is. -/
def skipPrimitive : Bytes → Option Bytes
  | [] => none
  | b :: rest =>
    if Format.isFixint b || Format.isNullOrBool b then some rest
    else if Format.isFixstr b then (take? (b.toNat - 0xA0) rest).map (·.2)
    else match b.toNat with
      | 0xCC | 0xD0 => (take? 1 rest).map (·.2)
      | 0xCD | 0xD1 => (take? 2 rest).map (·.2)
      | 0xCE | 0xD2 | 0xCA => (take? 4 rest).map (·.2)
      | 0xD9 | 0xC4 => (readSized 1 rest).map (·.2)
      | 0xDA | 0xC5 => (readSized 2 rest).map (·.2)
      | 0xDB | 0xC6 => (readSized 4 rest).map (·.2)
      | _ => some (b :: rest)

def skipPrimitives : Nat → Bytes → Option Bytes
  | 0, s => some s
  | n + 1, s => (skipPrimitive s).bind (skipPrimitives n)

def skipArraySize : Bytes → Option Bytes
  | [] => none
  | b :: rest =>
    if Format.isFixarray b then some rest
    else match b.toNat with
      | 0xDC => (take? 2 rest).map (·.2)
      | 0xDD => (take? 4 rest).map (·.2)
      | _ => none

/-! ### The unparser -/

/-- `format::write_int` of an unsigned integer -/
def writeUnsigned (x : Nat) : Bytes :=
  if x < 0x80 then [UInt8.ofNat x]
  else if x < 2 ^ 8 then 0xCC :: toNetOrder 1 x
  else if x < 2 ^ 16 then 0xCD :: toNetOrder 2 x
  else if x < 2 ^ 32 then 0xCE :: toNetOrder 4 x
  else 0xCF :: toNetOrder 8 x

/-- A signed integer as an unsigned word of `n` bytes. -/
def word (n : Nat) (x : Int) : Nat := (x % 2 ^ (8 * n)).toNat

/-- `format::write_int` of a signed integer -/
def writeSigned (x : Int) : Bytes :=
  if -0x20 ≤ x ∧ x < 0x80 then toNetOrder 1 (word 1 x)
  else if -2 ^ 7 ≤ x ∧ x < 2 ^ 7 then 0xD0 :: toNetOrder 1 (word 1 x)
  else if -2 ^ 15 ≤ x ∧ x < 2 ^ 15 then 0xD1 :: toNetOrder 2 (word 2 x)
  else if -2 ^ 31 ≤ x ∧ x < 2 ^ 31 then 0xD2 :: toNetOrder 4 (word 4 x)
  else 0xD3 :: toNetOrder 8 (word 8 x)

def writeString (v : Bytes) : Bytes :=
  if v.length < 0x20 then UInt8.ofNat (0xA0 + v.length) :: v
  else if v.length < 2 ^ 8 then 0xD9 :: (toNetOrder 1 v.length ++ v)
  else if v.length < 2 ^ 16 then 0xDA :: (toNetOrder 2 v.length ++ v)
  else 0xDB :: (toNetOrder 4 v.length ++ v)

def writeArrayHeader (size : Nat) : Bytes :=
  if size < 0x10 then [UInt8.ofNat (0x90 + size)]
  else if size < 2 ^ 16 then 0xDC :: toNetOrder 2 size
  else 0xDD :: toNetOrder 4 size

/-- `unparser::operator<<` of a value that is no array or object. -/
def unparse : Json → Option Bytes
  | .null => some [0xC0]
  | .bool b => some [if b then 0xC3 else 0xC2]
  | .unsigned x => some (writeUnsigned x)
  | .int x => some (writeSigned x)
  | .double bits => some (0xCB :: toNetOrder 8 bits)
  | .str s => some (writeString s)
  | .array | .object => none

/-! ### Where the parsers agree -/

section forms
variable {b : UInt8} {rest : Bytes}

theorem isFixint_iff : Format.isFixint b = true ↔ b.toNat < 0x80 ∨ 0xE0 ≤ b.toNat := by
  simp [Format.isFixint, UInt8.lt_iff_toNat_lt, UInt8.le_iff_toNat_le]

theorem isFixstr_iff : Format.isFixstr b = true ↔ 0xA0 ≤ b.toNat ∧ b.toNat < 0xC0 := by
  simp [Format.isFixstr, UInt8.lt_iff_toNat_lt, UInt8.le_iff_toNat_le]

theorem isFixmap_iff : Format.isFixmap b = true ↔ 0x80 ≤ b.toNat ∧ b.toNat < 0x90 := by
  simp [Format.isFixmap, UInt8.lt_iff_toNat_lt, UInt8.le_iff_toNat_le]

theorem isFixarray_iff : Format.isFixarray b = true ↔ 0x90 ≤ b.toNat ∧ b.toNat < 0xA0 := by
  simp [Format.isFixarray, UInt8.lt_iff_toNat_lt, UInt8.le_iff_toNat_le]

theorem isNullOrBool_iff : Format.isNullOrBool b = true ↔ 0xC0 ≤ b.toNat ∧ b.toNat < 0xC4 := by
  simp [Format.isNullOrBool, UInt8.lt_iff_toNat_lt, UInt8.le_iff_toNat_le]

/-- The type bytes of strings with a length. -/
def SizedStr (b : UInt8) : Prop := 0xC4 ≤ b.toNat ∧ b.toNat ≤ 0xC6 ∨ 0xD9 ≤ b.toNat ∧ b.toNat ≤ 0xDB

theorem skips_iff : skips b = true ↔ b.toNat < 0x80 ∨ 0xE0 ≤ b.toNat ∨ 0xA0 ≤ b.toNat ∧ b.toNat < 0xC4 ∨ SizedStr b ∨
    b.toNat = 0xCA ∨ 0xCC ≤ b.toNat ∧ b.toNat ≤ 0xCE ∨ 0xD0 ≤ b.toNat ∧ b.toNat ≤ 0xD2 := by
  unfold skips SizedStr
  simp only [Bool.or_eq_true, isFixint_iff, isFixstr_iff, isNullOrBool_iff, decide_eq_true_eq, List.mem_cons,
    List.not_mem_nil, or_false, ← UInt8.toNat_inj]
  simp only [UInt8.reduceToNat]
  omega

theorem hardReadInt_none (other : b.toNat < 0xCC ∨ 0xD3 < b.toNat) : hardReadInt b rest = none := by
  unfold hardReadInt
  split <;> first | rfl | omega

theorem readStr_none (other : ¬ (0xA0 ≤ b.toNat ∧ b.toNat < 0xC0)) (unsized : ¬ SizedStr b) :
    readStr (b :: rest) = none := by
  unfold SizedStr at unsized
  unfold readStr
  dsimp only
  rw [if_neg (by rw [isFixstr_iff]; exact other)]
  split <;> first | rfl | omega

theorem skipPrimitive_stay (stays : skips b = false) : skipPrimitive (b :: rest) = some (b :: rest) := by
  have form : ¬ skips b = true := by simp [stays]
  rw [skips_iff] at form
  unfold SizedStr at form
  unfold skipPrimitive
  dsimp only
  rw [if_neg (by rw [Bool.or_eq_true, isFixint_iff, isNullOrBool_iff]; omega), if_neg (by rw [isFixstr_iff]; omega)]
  split <;> first | rfl | omega

theorem skipPrimitive_str (form : 0xA0 ≤ b.toNat ∧ b.toNat < 0xC0 ∨ SizedStr b) :
    skipPrimitive (b :: rest) = (readStr (b :: rest)).map (·.2) := by
  unfold SizedStr at form
  unfold skipPrimitive readStr
  dsimp only
  rw [if_neg (by rw [Bool.or_eq_true, isFixint_iff, isNullOrBool_iff]; omega)]
  split
  · rfl
  · rename_i unfixed
    rw [isFixstr_iff] at unfixed
    have sized : b.toNat = 0xC4 ∨ b.toNat = 0xC5 ∨ b.toNat = 0xC6 ∨ b.toNat = 0xD9 ∨ b.toNat = 0xDA ∨ b.toNat = 0xDB := by
      omega
    rcases sized with h | h | h | h | h | h
    all_goals
      rw [h]
      rfl

theorem readWord_rest (n : Nat) (neg : Bool) : (readWord n neg rest).map (·.2) = (take? n rest).map (·.2) := by
  unfold readWord
  cases take? n rest <;> rfl

theorem skipPrimitive_int (form : 0xCC ≤ b.toNat ∧ b.toNat ≤ 0xCE ∨ 0xD0 ≤ b.toNat ∧ b.toNat ≤ 0xD2) :
    skipPrimitive (b :: rest) = (hardReadInt b rest).map (·.2) := by
  unfold skipPrimitive hardReadInt
  dsimp only
  rw [if_neg (by rw [Bool.or_eq_true, isFixint_iff, isNullOrBool_iff]; omega), if_neg (by rw [isFixstr_iff]; omega)]
  have sized : b.toNat = 0xCC ∨ b.toNat = 0xCD ∨ b.toNat = 0xCE ∨ b.toNat = 0xD0 ∨ b.toNat = 0xD1 ∨ b.toNat = 0xD2 := by
    omega
  rcases sized with h | h | h | h | h | h
  all_goals
    rw [h]
    exact (readWord_rest _ _).symm

theorem readUnsigned_none (fix : ¬ (b.toNat < 0x80 ∨ 0xE0 ≤ b.toNat)) (other : b.toNat < 0xCC ∨ 0xD3 < b.toNat) :
    readUnsigned (b :: rest) = none := by
  rw [readUnsigned, readInt, if_neg (by rw [isFixint_iff]; exact fix), hardReadInt_none other]
  rfl

end forms

/-- How the functions that walk over a request see a value of it. -/
structure Walks (s : Bytes) (j : Json) (rest : Bytes) : Prop where
  unsigned : readUnsigned s = if j.isInt then j.asU.map fun u => (u % 2 ^ 32, rest) else none
  str : readStr s = j.asS.map fun v => (v, rest)
  skip : ∃ b tail, s = b :: tail ∧ skipPrimitive s = some (if skips b then rest else s)

theorem asU_mod (x : Int) : (x % 2 ^ 64).toNat % 2 ^ 32 = (x % 2 ^ 32).toNat := by omega

theorem walks_fixint {b : UInt8} {rest : Bytes} (fix : Format.isFixint b = true) :
    Walks (b :: rest) (.int (signed 1 b.toNat)) rest := by
  have range := isFixint_iff.mp fix
  have sized : ¬ SizedStr b := by
    unfold SizedStr
    omega
  refine ⟨?_, readStr_none (by omega) sized, b, rest, rfl, ?_⟩
  · have small : ((Json.int (signed 1 b.toNat)).asU.map fun u => (u % 2 ^ 32, rest)) =
        some ((signed 1 b.toNat % 2 ^ 32).toNat, rest) := by
      rw [← asU_mod]
      rfl
    rw [readUnsigned, readInt, if_pos fix, small]
    rfl
  · rw [if_pos (skips_iff.mpr (by omega)), skipPrimitive, fix]
    rfl

theorem walks_parseStr {b : UInt8} {tail rest : Bytes} {j : Json}
    (form : 0xA0 ≤ b.toNat ∧ b.toNat < 0xC0 ∨ SizedStr b) (parsed : parseStr (b :: tail) = some (j, rest)) :
    Walks (b :: tail) j rest := by
  obtain ⟨⟨v, rest'⟩, read, same⟩ := Option.bind_eq_some_iff.mp parsed
  dsimp only at same
  split at same
  · cases same
    refine ⟨readUnsigned_none ?_ ?_, read, b, tail, rfl, ?_⟩
    · unfold SizedStr at form
      omega
    · unfold SizedStr at form
      omega
    · rw [skipPrimitive_str form, read, if_pos (skips_iff.mpr (by unfold SizedStr at form ⊢; omega))]
      rfl
  · cases same

theorem hardReadInt_unsigned {b : UInt8} {tail rest : Bytes} {x : Int} (form : b = 0xCE ∨ b = 0xCF)
    (read : hardReadInt b tail = some (x, rest)) : 0 ≤ x := by
  have word : ∀ n, readWord n false tail = some (x, rest) → 0 ≤ x := by
    intro n read
    obtain ⟨⟨w, rest'⟩, -, same⟩ := Option.bind_eq_some_iff.mp read
    cases same
    exact Int.natCast_nonneg _
  rcases form with rfl | rfl
  · exact word 4 read
  · exact word 8 read

theorem walks_parseInt {b : UInt8} {tail rest : Bytes} {j : Json} (range : 0xCC ≤ b.toNat ∧ b.toNat ≤ 0xD3)
    (parsed : parseInt b tail = some (j, rest)) : Walks (b :: tail) j rest := by
  obtain ⟨⟨x, rest'⟩, read, same⟩ := Option.bind_eq_some_iff.mp parsed
  have sized : ¬ SizedStr b := by
    unfold SizedStr
    omega
  have unfixed : ¬ Format.isFixint b = true := by
    rw [isFixint_iff]
    omega
  have unsigned : readUnsigned (b :: tail) = some ((x % 2 ^ 32).toNat, rest') := by
    rw [readUnsigned, readInt, if_neg unfixed, read]
    rfl
  have str := @readStr_none b tail (by omega) sized
  have skip : skipPrimitive (b :: tail) = some (if skips b then rest' else b :: tail) := by
    split
    · rename_i form
      rw [skips_iff] at form
      rw [skipPrimitive_int (by unfold SizedStr at form; omega), read]
      rfl
    · rename_i form
      exact skipPrimitive_stay (by simpa using form)
  by_cases form : b = 0xCE ∨ b = 0xCF
  · have positive := hardReadInt_unsigned form read
    have same : some (Json.unsigned x.toNat, rest') = some (j, rest) := by
      rw [← same]
      simp [form]
    cases same
    refine ⟨?_, str, b, tail, rfl, skip⟩
    have small : ((Json.unsigned x.toNat).asU.map fun u => (u % 2 ^ 32, rest)) =
        some ((x % 2 ^ 32).toNat, rest) := by
      have mod : x.toNat % 2 ^ 32 = (x % 2 ^ 32).toNat := by omega
      rw [← mod]
      rfl
    rw [small]
    exact unsigned
  · have same : some (Json.int x, rest') = some (j, rest) := by
      rw [← same]
      simp [form]
    cases same
    refine ⟨?_, str, b, tail, rfl, skip⟩
    have small : ((Json.int x).asU.map fun u => (u % 2 ^ 32, rest)) = some ((x % 2 ^ 32).toNat, rest) := by
      rw [← asU_mod]
      rfl
    rw [small]
    exact unsigned

/-- A value that is no integer and no string. -/
theorem walks_other {b : UInt8} {tail rest : Bytes} {j : Json} (noInt : j.isInt = false) (noStr : j.asS = none)
    (fix : ¬ (b.toNat < 0x80 ∨ 0xE0 ≤ b.toNat)) (other : b.toNat < 0xCC ∨ 0xD3 < b.toNat)
    (unfixed : ¬ (0xA0 ≤ b.toNat ∧ b.toNat < 0xC0)) (unsized : ¬ SizedStr b)
    (skip : skips b = true → skipPrimitive (b :: tail) = some rest) : Walks (b :: tail) j rest := by
  refine ⟨?_, ?_, b, tail, rfl, ?_⟩
  · rw [readUnsigned_none fix other, noInt]
    rfl
  · rw [readStr_none unfixed unsized, noStr]
    rfl
  · split
    · exact skip ‹_›
    · rename_i stays
      exact skipPrimitive_stay (by simpa using stays)

theorem walks_nested {b : UInt8} {tail rest : Bytes} {j : Json} (kind : j = .array ∨ j = .object)
    (form : 0x80 ≤ b.toNat ∧ b.toNat < 0xA0 ∨ 0xDC ≤ b.toNat ∧ b.toNat < 0xE0) : Walks (b :: tail) j rest := by
  have sized : ¬ SizedStr b := by
    unfold SizedStr
    omega
  have stays : ¬ skips b = true := by
    rw [skips_iff]
    unfold SizedStr
    omega
  refine walks_other ?_ ?_ (by omega) (by omega) (by omega) sized fun skips => absurd skips stays
  · rcases kind with rfl | rfl <;> rfl
  · rcases kind with rfl | rfl <;> rfl

theorem walks_null {b : UInt8} {rest : Bytes} {j : Json} (noInt : j.isInt = false) (noStr : j.asS = none)
    (form : 0xC0 ≤ b.toNat ∧ b.toNat < 0xC4) : Walks (b :: rest) j rest := by
  have sized : ¬ SizedStr b := by
    unfold SizedStr
    omega
  refine walks_other noInt noStr (by omega) (by omega) (by omega) sized fun _ => ?_
  rw [skipPrimitive, isNullOrBool_iff.mpr form, Bool.or_true]
  rfl

theorem walks_double {b : UInt8} {tail rest : Bytes} {bits : Nat} (form : b.toNat = 0xCA ∨ b.toNat = 0xCB)
    (skip : b.toNat = 0xCA → (take? 4 tail).map (·.2) = some rest) : Walks (b :: tail) (.double bits) rest := by
  have sized : ¬ SizedStr b := by
    unfold SizedStr
    omega
  refine walks_other rfl rfl (by omega) (by omega) (by omega) sized fun skips => ?_
  have float : b.toNat = 0xCA := by
    rw [skips_iff] at skips
    unfold SizedStr at skips
    omega
  unfold skipPrimitive
  dsimp only
  rw [if_neg (by rw [Bool.or_eq_true, isFixint_iff, isNullOrBool_iff]; omega), if_neg (by rw [isFixstr_iff]; omega), float]
  exact skip float

/-- The walks agree with what the streaming parser makes of a value. -/
theorem walks_parseJson {fuel : Nat} {s rest : Bytes} {j : Json} (parsed : parseJson fuel s = some (j, rest)) :
    Walks s j rest := by
  cases fuel with
  | zero => cases parsed
  | succ fuel =>
    cases s with
    | nil => cases parsed
    | cons b tail =>
      have array : ∀ n s, (parseItems (parseJson fuel) n s).map (fun r => (Json.array, r.2)) = some (j, rest) →
          j = .array ∨ j = .object := by
        intro n s found
        obtain ⟨_, -, same⟩ := Option.map_eq_some_iff.mp found
        cases same
        exact .inl rfl
      have map : ∀ n s, (parsePairs (parseJson fuel) n s).map (fun s => (Json.object, s)) = some (j, rest) →
          j = .array ∨ j = .object := by
        intro n s found
        obtain ⟨_, -, same⟩ := Option.map_eq_some_iff.mp found
        cases same
        exact .inr rfl
      unfold parseJson at parsed
      dsimp only at parsed
      split at parsed
      · cases parsed
        exact walks_fixint ‹_›
      · rename_i fix
        rw [isFixint_iff] at fix
        split at parsed
        · rename_i form
          rw [isFixmap_iff] at form
          exact walks_nested (map _ _ parsed) (by omega)
        · rename_i unmapped
          rw [isFixmap_iff] at unmapped
          split at parsed
          · rename_i form
            rw [isFixarray_iff] at form
            exact walks_nested (array _ _ parsed) (by omega)
          · rename_i unlisted
            rw [isFixarray_iff] at unlisted
            split at parsed
            · rename_i form
              exact walks_parseStr (.inl (isFixstr_iff.mp form)) parsed
            · rename_i unfixed
              rw [isFixstr_iff] at unfixed
              split at parsed
              · cases parsed
                exact walks_null rfl rfl (by omega)
              · cases parsed
                exact walks_null rfl rfl (by omega)
              · cases parsed
                exact walks_null rfl rfl (by omega)
              · obtain ⟨r, took, same⟩ := Option.map_eq_some_iff.mp parsed
                cases same
                exact walks_double (by omega) fun _ => by rw [took]; rfl
              · obtain ⟨r, took, same⟩ := Option.map_eq_some_iff.mp parsed
                cases same
                exact walks_double (by omega) (by omega)
              iterate 6
                · exact walks_parseStr (.inr (by unfold SizedStr; omega)) parsed
              · obtain ⟨r, -, parsed⟩ := Option.bind_eq_some_iff.mp parsed
                exact walks_nested (array _ _ parsed) (by omega)
              · obtain ⟨r, -, parsed⟩ := Option.bind_eq_some_iff.mp parsed
                exact walks_nested (array _ _ parsed) (by omega)
              · obtain ⟨r, -, parsed⟩ := Option.bind_eq_some_iff.mp parsed
                exact walks_nested (map _ _ parsed) (by omega)
              · obtain ⟨r, -, parsed⟩ := Option.bind_eq_some_iff.mp parsed
                exact walks_nested (map _ _ parsed) (by omega)
              · refine walks_parseInt ?_ parsed
                obtain ⟨x, read, -⟩ := Option.bind_eq_some_iff.mp parsed
                by_contra outside
                rw [hardReadInt_none (by omega)] at read
                cases read

end Masstree.Msgpack
