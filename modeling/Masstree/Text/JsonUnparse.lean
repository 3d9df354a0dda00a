import Masstree.Msgpack.Stream
import Masstree.Msgpack.Unparse

/-!
# JSON text

`Json::unparse` with its manipulators. What the C library makes of doubles is left open.
-/

namespace Masstree.JsonText
open Msgpack (Bytes Value)

/-- `sprintf` with `%.12g`, and `strtod`, where a double is its 64 bits -/
structure Libc where
  format : Nat → Bytes
  strtod : Bytes → Nat

structure Manipulator where
  indentDepth : Int := 0
  tabWidth : Nat := 0
  newlineTerminator : Bool := false
  spaceSeparator : Bool := false

/-! ### Strings -/

def upperHexNibble (n : Nat) : UInt8 := UInt8.ofNat (n + if 9 < n then 0x41 - 10 else 0x30)

/-- A backslash, and what comes after it for the character. -/
def escape (c : Nat) : Bytes :=
  0x5C ::
    if c = 0x08 then [0x62]
    else if c = 0x0C then [0x66]
    else if c = 0x0A then [0x6E]
    else if c = 0x0D then [0x72]
    else if c = 0x09 then [0x74]
    else if c = 0x5C ∨ c = 0x22 ∨ c = 0x2F then [UInt8.ofNat c]
    else [0x75, upperHexNibble (c / 4096), upperHexNibble (c / 256 % 16), upperHexNibble (c / 16 % 16), upperHexNibble (c % 16)]

/-- The loop of `encode_json_partial`, where `skip` bytes belong to the character before. -/
def encodeFrom : Nat → Bytes → Bytes
  | _, [] => []
  | skip + 1, _ :: s => encodeFrom skip s
  | 0, c :: s =>
    if c = 0xE2 ∧ 2 ≤ s.length ∧ s.getD 0 0 = 0x80 ∧ s.getD 1 0 ||| 1 = 0xA9 then
      escape (0x2028 + (s.getD 1 0 &&& 1).toNat) ++ encodeFrom 2 s
    else if 32 ≤ c ∧ c ≠ 0x5C ∧ c ≠ 0x22 ∧ c ≠ 0x2F then c :: encodeFrom 0 s
    else escape c.toNat ++ encodeFrom 0 s

def encodeJson (s : Bytes) : Bytes := encodeFrom 0 s

def quoted (s : Bytes) : Bytes := 0x22 :: (encodeJson s ++ [0x22])

/-! ### Values -/

def isEmpty : Value → Bool
  | .null | .array [] | .object [] => true
  | _ => false

/-- A primitive value, not including null. -/
def isPrimitive : Value → Bool
  | .null | .array _ | .object _ => false
  | _ => true

def isLong : Value → Bool
  | .str s => 40 < s.length
  | _ => false

def unparseIsComplex : Value → Bool
  | .object entries => 5 < entries.length || entries.any fun e => !isEmpty e.2 && !isPrimitive e.2
  | .array vs => 1024 < vs.length || vs.zipIdx.any fun v => !isEmpty v.1 && (!isPrimitive v.1 || isLong v.1 && 4 ≤ v.2)
  | _ => false

variable (lib : Libc) (m : Manipulator)

def unparseIndent (depth : Nat) : Bytes :=
  let depth := depth * if m.tabWidth = 0 then 8 else m.tabWidth
  0x0A :: (List.replicate (depth / 8) 0x09 ++ List.replicate (depth % 8) 0x20)

def colon (expanded : Bool) : Bytes := if expanded || m.spaceSeparator then [0x3A, 0x20] else [0x3A]
def comma (expanded : Bool) : Bytes := if !expanded && m.spaceSeparator then [0x2C, 0x20] else [0x2C]

def isExpanded (depth : Nat) (v : Value) : Bool := depth < m.indentDepth && unparseIsComplex v

/-- The indentation of an expanded value. -/
def lineBreak (expanded : Bool) (depth : Nat) : Bytes := if expanded then unparseIndent m depth else []

mutual

/-- `hard_unparse`, without the newline at the end. -/
def hardUnparse (depth : Nat) : Value → Bytes
  | .null => ascii "null"
  | .bool b => ascii (if b then "true" else "false")
  | .int x => Msgpack.decimal x
  | .unsigned x => Msgpack.decimal x
  | .double bits => lib.format bits
  | .str s => quoted s
  | .object [] => [0x7B, 0x7D]
  | .object (e :: entries) =>
    let expanded := isExpanded m depth (.object (e :: entries))
    0x7B :: (unparseEntries depth expanded false (e :: entries) ++ (lineBreak m expanded depth ++ [0x7D]))
  | .array [] => [0x5B, 0x5D]
  | .array (v :: vs) =>
    let expanded := isExpanded m depth (.array (v :: vs))
    0x5B :: (unparseItems depth expanded false (v :: vs) ++ (lineBreak m expanded depth ++ [0x5D]))

def unparseItems (depth : Nat) (expanded rest : Bool) : List Value → Bytes
  | [] => []
  | v :: vs =>
    (if rest then comma m expanded else []) ++ (lineBreak m expanded (depth + 1) ++ (hardUnparse (depth + 1) v ++
      unparseItems depth expanded true vs))

def unparseEntries (depth : Nat) (expanded rest : Bool) : List (Bytes × Value) → Bytes
  | [] => []
  | (k, v) :: entries =>
    (if rest then comma m expanded else []) ++ (lineBreak m expanded (depth + 1) ++ (quoted k ++ (colon m expanded ++
      (hardUnparse (depth + 1) v ++ unparseEntries depth expanded true entries))))

end

def unparse (v : Value) : Bytes := hardUnparse lib m 0 v ++ if m.newlineTerminator then [0x0A] else []

end Masstree.JsonText
