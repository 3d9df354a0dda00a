import Masstree.Json.Keys
import Masstree.Lib.Doubling
import Masstree.Lib.Results
import Masstree.Lib.Rounding
import Masstree.Msgpack.Json

/-!
# Values in memory

What a parser builds of a message: `Json` values with the memory that they keep, and the string that holds the bytes of a value that is
not complete. There is always memory, but a capacity is an `int`.
-/

namespace Masstree.Msgpack
open Rounding

/-- A whole `Json` value. A double is its 64 bits. -/
inductive Value where
  | null
  | bool (b : Bool)
  | int (x : Int)
  | unsigned (x : Nat)
  | double (bits : Nat)
  | str (s : Bytes)
  | array (vs : List Value)
  | object (entries : List (Bytes × Value))

/-- A `Json` in memory: an array with its `capacity`, an object with its `hash_.size()`. Both are zero where there is nothing yet, or
where it is shared with another `Json`. -/
inductive Node where
  | null
  | bool (b : Bool)
  | int (x : Int)
  | unsigned (x : Nat)
  | double (bits : Nat)
  | str (s : Bytes)
  | array (capacity : Nat) (items : List Node)
  | object (table : Nat) (entries : List (Bytes × Node))

inductive Fault where
  /-- it reads outside the range -/
  | outside
  /-- it acts on a size or length that is not the one encoded -/
  | length
  /-- it computes a capacity that is no `int` -/
  | capacity
  /-- it computes an index outside `hash_` -/
  | index
  | endless
  deriving DecidableEq

namespace Node

mutual

def value : Node → Value
  | .null => .null
  | .bool b => .bool b
  | .int x => .int x
  | .unsigned x => .unsigned x
  | .double bits => .double bits
  | .str s => .str s
  | .array _ items => .array (values items)
  | .object _ entries => .object (entryValues entries)

def values : List Node → List Value
  | [] => []
  | v :: vs => value v :: values vs

def entryValues : List (Bytes × Node) → List (Bytes × Value)
  | [] => []
  | (k, v) :: entries => (k, value v) :: entryValues entries

end

theorem values_eq (vs : List Node) : values vs = vs.map value := by
  induction vs with
  | nil => rfl
  | cons v vs ih => rw [values, ih, List.map_cons]

theorem entryValues_eq (entries : List (Bytes × Node)) : entryValues entries = entries.map fun e => (e.1, e.2.value) := by
  induction entries with
  | nil => rfl
  | cons e entries ih =>
    rw [entryValues, ih]
    rfl

end Node

/-! ### Strings -/

def memoSpace : Nat := 12

def stringCapacity (len : Nat) : Except Fault Nat :=
  if len = 0 then .ok 0
  else if 2 ^ 31 ≤ len + 15 + memoSpace then .error .capacity
  else .ok ((len + 15 + memoSpace) / 16 * 16 - memoSpace)

/-- `String::append_uninitialized`: the capacity after it, where it was `capacity` for `length` bytes. The string is the only one in its
memo. A capacity that is doubled past an `int` becomes negative, then zero, and never is enough. -/
def appendUninitialized (capacity length len : Nat) : Except Fault Nat :=
  if len = 0 ∨ length + len < capacity then .ok capacity
  else if length + len + memoSpace ≤ 1024 then .ok ((length + len + memoSpace + 15) / 16 * 16 - memoSpace)
  else (Doubling.grow 31 (length + len + memoSpace) 2048).elim (.error .endless) fun capacity => .ok (capacity - memoSpace)

/-! ### Arrays -/

def makeArray (n : Nat) : Nat := max n 8

/-- `hard_uniqueify_array`. Where the new capacity is no `int`, `make` gets a negative one, makes room for 8 items, and those before are
copied past it. -/
def hardUniqueifyArray (size n : Nat) : Except Fault Nat :=
  let ncap := max (max n 8) size
  let xcap := iceilLog2 ncap
  let ncap := if xcap ≤ 2 ^ 14 then xcap else ((ncap - 1) ||| (2 ^ 14 - 1)) + 1
  if ncap < 2 ^ 31 then .ok (makeArray ncap) else .error .capacity

def uniqueifyArray (capacity size n : Nat) : Except Fault Nat :=
  if capacity = 0 ∨ capacity < n then hardUniqueifyArray size n else .ok capacity

namespace Node

/-- `Json::resize` of an array, made with `make_array_reserve` if the value is no array. -/
def resize : Node → Nat → Except Fault Node
  | .array capacity vs, n =>
    (uniqueifyArray capacity vs.length n).map fun capacity => .array capacity (vs.take n ++ List.replicate (n - vs.length) .null)
  | _, n => .ok (.array (makeArray n) (List.replicate n .null))

/-! ### Objects -/

/-- `Json::clear` of an object, made if the value is no object. -/
def clear : Node → Node
  | .object table _ => .object table []
  | _ => .object 0 []

end Node

/-- `get16`, on a little-endian host -/
def get16 (a b : UInt8) : UInt32 := a.toUInt32 + (b.toUInt32 <<< 8)

/-- The loop of `hashcode` over words of 4 bytes, with what remains. -/
def hashWords (hash : UInt32) : Bytes → UInt32 × Bytes
  | a :: b :: c :: d :: s =>
    let hash := hash + get16 a b
    let tmp := (get16 c d <<< 11) ^^^ hash
    let hash := (hash <<< 16) ^^^ tmp
    hashWords (hash + (hash >>> 11)) s
  | s => (hash, s)

/-- The end cases of `hashcode`. -/
def hashRest (hash : UInt32) : Bytes → UInt32
  | [a, b, c] =>
    let hash := hash + get16 a b
    let hash := hash ^^^ (hash <<< 16)
    let hash := hash ^^^ (c.toUInt32 <<< 18)
    hash + (hash >>> 11)
  | [a, b] =>
    let hash := hash + get16 a b
    let hash := hash ^^^ (hash <<< 11)
    hash + (hash >>> 17)
  | [a] =>
    let hash := hash + a.toUInt32
    let hash := hash ^^^ (hash <<< 10)
    hash + (hash >>> 1)
  | _ => hash

def hashcode (s : Bytes) : UInt32 :=
  if s = [] then 0
  else
    let (hash, rest) := hashWords (UInt32.ofNat s.length) s
    let hash := hashRest hash rest
    let hash := hash ^^^ (hash <<< 3)
    let hash := hash + (hash >>> 5)
    let hash := hash ^^^ (hash <<< 4)
    let hash := hash + (hash >>> 17)
    let hash := hash ^^^ (hash <<< 25)
    hash + (hash >>> 6)

/-- The keys can be entered in a new object one after the other. -/
def Keyed (keys : List Bytes) : Prop := (ObjectJson.enterAll hashcode 0 [] keys).isSome

instance (keys : List Bytes) : Decidable (Keyed keys) := inferInstanceAs (Decidable (_ = true))

theorem Keyed.of_append {keys later : List Bytes} (keyed : Keyed (keys ++ later)) : Keyed keys := ObjectJson.enterAll_of_append keyed

/-! ### Capacities -/

variable {len length capacity size n : Nat}

theorem stringCapacity_eq (short : len + 27 < 2 ^ 31) : ∃ c, stringCapacity len = .ok c ∧ c + 27 < 2 ^ 31 := by
  unfold stringCapacity memoSpace
  split_ifs with none_ long
  · exact ⟨0, rfl, by decide⟩
  · omega
  · exact ⟨_, rfl, by omega⟩

theorem stringCapacity_fails (long : 2 ^ 31 ≤ len + 27) : stringCapacity len = .error .capacity := by
  unfold stringCapacity memoSpace
  rw [if_neg (by omega), if_pos (by omega)]

/-- There is room in the memo, or a new one is allocated. -/
def Roomy (capacity length len : Nat) : Prop := len = 0 ∨ length + len < capacity ∨ length + len + memoSpace ≤ 2 ^ 30

instance (capacity length len : Nat) : Decidable (Roomy capacity length len) := inferInstanceAs (Decidable (_ ∨ _))

/-- So the length behind it is one that a memo can be made for. -/
theorem Roomy.small (roomy : Roomy capacity length len) (bound : capacity + 27 < 2 ^ 31) : len = 0 ∨ length + len + 27 < 2 ^ 31 := by
  unfold Roomy memoSpace at roomy
  omega

theorem appendUninitialized_eq (roomy : Roomy capacity length len) :
    ∃ c, appendUninitialized capacity length len = .ok c ∧ (c = capacity ∨ c + memoSpace ≤ 2 ^ 30) := by
  unfold Roomy at roomy
  unfold appendUninitialized memoSpace at *
  split_ifs with inside small
  · exact ⟨capacity, rfl, .inl rfl⟩
  · exact ⟨_, rfl, .inr (by omega)⟩
  · have fits : length + len + 12 ≤ 2 ^ (31 - 1) := (roomy.resolve_left (not_or.mp inside).1).resolve_left (not_or.mp inside).2
    obtain ⟨j, le, lt, -, same⟩ := Doubling.grow_of_le (k := 11) (w := 31) (by decide) fits
    have power : 2 ^ j ≤ 2 ^ 30 := Nat.pow_le_pow_right (by decide) (by omega)
    have start : 2048 = 2 ^ 11 := by decide
    have least : 2 ^ 11 ≤ 2 ^ j := Nat.pow_le_pow_right (by decide) le
    rw [start, same]
    exact ⟨_, rfl, .inr (by omega)⟩

theorem appendUninitialized_fails (full : ¬Roomy capacity length len) : appendUninitialized capacity length len = .error .endless := by
  unfold Roomy at full
  obtain ⟨some_, outside, long⟩ := not_or.mp full |>.imp_right not_or.mp
  have never : Doubling.grow 31 (length + len + memoSpace) (2 ^ 11) = none := by
    rw [← Option.not_isSome_iff_eq_none, Doubling.grow_isSome_iff (by decide)]
    omega
  have start : 2048 = 2 ^ 11 := by decide
  rw [appendUninitialized, if_neg (by omega), if_neg (by omega), start, never]
  rfl

/-- The array keeps its memory, or its new capacity is an `int`. -/
def Resizable (capacity size n : Nat) : Prop := capacity ≠ 0 ∧ n ≤ capacity ∨ max n size ≤ 2 ^ 31 - 2 ^ 14

instance (capacity size n : Nat) : Decidable (Resizable capacity size n) := inferInstanceAs (Decidable (_ ∨ _))

theorem hardUniqueifyArray_isOk : (∃ c, hardUniqueifyArray size n = .ok c) ↔ max n size ≤ 2 ^ 31 - 2 ^ 14 := by
  have some_ : max (max n 8) size ≠ 0 := by omega
  have least := le_iceilLog2 some_
  have mask := or_mask (max (max n 8) size - 1) 14
  unfold hardUniqueifyArray
  dsimp only
  by_cases small : iceilLog2 (max (max n 8) size) ≤ 2 ^ 14
  · rw [if_pos small, if_pos (by omega)]
    exact iff_of_true ⟨_, rfl⟩ (by omega)
  · rw [if_neg small, mask]
    by_cases int : ((max (max n 8) size - 1) / 2 ^ 14 + 1) * 2 ^ 14 < 2 ^ 31
    · rw [if_pos int]
      exact iff_of_true ⟨_, rfl⟩ (by omega)
    · rw [if_neg int]
      refine iff_of_false ?_ (by omega)
      rintro ⟨c, made⟩
      cases made

theorem uniqueifyArray_isOk : (∃ c, uniqueifyArray capacity size n = .ok c) ↔ Resizable capacity size n := by
  unfold uniqueifyArray Resizable
  split
  · rename_i hard
    rw [hardUniqueifyArray_isOk]
    exact ⟨.inr, fun ok => ok.resolve_left (by omega)⟩
  · rename_i kept
    exact iff_of_true ⟨_, rfl⟩ (.inl (by omega))

namespace Node

/-- An array that `resize` can make as long as `n`. -/
def Resizes : Node → Nat → Prop
  | array capacity vs, n => Resizable capacity vs.length n
  | _, _ => True

theorem resize_isOk {v : Node} : (∃ w, v.resize n = .ok w) ↔ v.Resizes n := by
  cases v with
  | array capacity vs =>
    rw [Resizes, ← uniqueifyArray_isOk, resize]
    constructor
    · rintro ⟨w, made⟩
      obtain ⟨c, made, -⟩ := Results.map_eq_ok.mp made
      exact ⟨c, made⟩
    · rintro ⟨c, made⟩
      exact ⟨_, Results.map_eq_ok.mpr ⟨c, made, rfl⟩⟩
  | _ => exact iff_of_true ⟨_, rfl⟩ trivial

end Node

end Masstree.Msgpack
