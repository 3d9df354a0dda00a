import Masstree.Lib.Fields
import Masstree.Tree.Layered

/-!
# Slices in memory

`string_slice<T>` for an unsigned `T` of `n` bytes, on hosts of either byte order, with and without unaligned accesses. The sloppy
variants read around a short string and shift out what they should not have read.
-/

namespace Masstree.Tree

open Msgpack (Bytes netOrder)
open Fields

/-- `WORDS_BIGENDIAN` and `HAVE_UNALIGNED_ACCESS`. -/
structure Host where
  wordsBigendian : Bool
  haveUnalignedAccess : Bool
  deriving DecidableEq, Repr

abbrev Memory := Int → UInt8

def bytesAt (mem : Memory) (s : Int) (len : Nat) : Bytes := (List.range len).map fun k : Nat => mem (s + k)

/-- The word whose byte `k`, the lowest first, is `f k`. -/
def ofBytes (n : Nat) (f : Nat → UInt8) : BitVec (8 * n) := BitVec.ofNat _ (pack 8 n fun k => (f k).toBitVec)

namespace Host

variable (h : Host) {n : Nat}

/-- `*reinterpret_cast<const T*>(s)` -/
def load (n : Nat) (mem : Memory) (s : Int) : BitVec (8 * n) :=
  ofBytes n fun k => if h.wordsBigendian then mem (s + (n - 1 - k : Nat)) else mem (s + k)

def netToHostOrder (x : BitVec (8 * n)) : BitVec (8 * n) :=
  if h.wordsBigendian then x else ofBytes n fun k => ⟨field 8 x (n - 1 - k)⟩

/-- The end of `make` and `make_sloppy`: the bytes copied into a zero word. -/
def copy (n : Nat) (mem : Memory) (s : Int) (len : Nat) : BitVec (8 * n) :=
  h.load n (fun a => if a < min len n then mem (s + a) else 0) 0

def make (n : Nat) (mem : Memory) (s : Int) (len : Nat) : BitVec (8 * n) :=
  if len ≤ 0 then 0#_
  else if h.haveUnalignedAccess && n ≤ len then h.load n mem s
  else h.copy n mem s len

def makeComparable (n : Nat) (mem : Memory) (s : Int) (len : Nat) : BitVec (8 * n) := h.netToHostOrder (h.make n mem s len)

def makeSloppy (n : Nat) (mem : Memory) (s : Int) (len : Nat) : BitVec (8 * n) :=
  if len ≤ 0 then 0#_
  else if h.haveUnalignedAccess then
    if n ≤ len then h.load n mem s
    else if h.wordsBigendian then h.load n mem s &&& (BitVec.allOnes _ <<< (8 * (n - len)))
    else h.load n mem (s - (n - len : Nat)) >>> (8 * (n - len))
  else h.copy n mem s len

def makeComparableSloppy (n : Nat) (mem : Memory) (s : Int) (len : Nat) : BitVec (8 * n) :=
  h.netToHostOrder (h.makeSloppy n mem s len)

/-- A `delta` narrower than `int` is shifted as an `int`. -/
def equalsSloppy (n : Nat) (mem : Memory) (a b : Int) (len : Nat) : Bool :=
  if h.haveUnalignedAccess && len ≤ n then
    let delta := (h.load n mem a ^^^ h.load n mem b).setWidth (max (8 * n) 32)
    if len ≤ 0 then true
    else if h.wordsBigendian then delta >>> (8 * (n - len)) = 0#_
    else delta <<< (8 * (n - len)) = 0#_
  else bytesAt mem a len = bytesAt mem b len

end Host

/-! ### Bytes of words -/

variable {n k len : Nat} {mem : Memory} {s : Int} {h : Host}

theorem field_ofBytes (f : Nat → UInt8) (lt : k < n) : field 8 (ofBytes n f) k = (f k).toBitVec := field_pack lt

def Host.place (h : Host) (n k : Nat) : Nat := if h.wordsBigendian then n - 1 - k else k

theorem Host.field_load (mem : Memory) (s : Int) (lt : k < n) : field 8 (h.load n mem s) k = (mem (s + h.place n k)).toBitVec := by
  rw [load, field_ofBytes _ lt, place]
  split <;> rfl

theorem Host.place_lt (lt : k < n) : h.place n k < n := by
  unfold place
  split <;> omega

theorem Host.field_copy (lt : k < n) :
    field 8 (h.copy n mem s len) k = if h.place n k < len then (mem (s + h.place n k)).toBitVec else 0#8 := by
  have inside := Host.place_lt (h := h) lt
  rw [copy, field_load _ _ lt, Int.zero_add]
  split_ifs <;> first | omega | rfl

theorem Host.field_make (lt : k < n) :
    field 8 (h.make n mem s len) k = if h.place n k < len then (mem (s + h.place n k)).toBitVec else 0#8 := by
  have inside := Host.place_lt (h := h) lt
  unfold make
  split
  · rw [if_neg (by omega)]
    exact field_zero k
  · split
    · rename_i whole
      rw [Bool.and_eq_true, decide_eq_true_eq] at whole
      rw [field_load _ _ lt, if_pos (by omega)]
    · exact field_copy lt

/-- What a sloppy slice reads outside the string it shifts out again. -/
theorem Host.makeSloppy_eq (h : Host) (n : Nat) (mem : Memory) (s : Int) (len : Nat) :
    h.makeSloppy n mem s len = h.make n mem s len := by
  refine eq_of_field fun k lt => ?_
  have fit : 8 * (k + 1) ≤ 8 * n := Nat.mul_le_mul_left 8 lt
  rw [field_make lt]
  unfold makeSloppy
  split
  · rw [if_neg (by omega)]
    exact field_zero k
  · split
    · split
      · have inside := Host.place_lt (h := h) lt
        rw [field_load _ _ lt, if_pos (by omega)]
      · split
        · rename_i big
          have above : field 8 (BitVec.allOnes (8 * n) <<< (8 * (n - len))) k = if k < n - len then 0#8 else BitVec.allOnes 8 := by
            rw [field_shiftLeft _ _ fit, ← BitVec.not_zero, field_not _ (by omega), field_zero, BitVec.not_zero]
          rw [field_and, above, field_load _ _ lt, place, if_pos big]
          split_ifs <;> first | omega | exact BitVec.and_zero | exact BitVec.and_allOnes
        · rename_i little
          rw [field_shiftRight, place, if_neg little]
          rcases Nat.lt_or_ge (k + (n - len)) n with within | past
          · have same : s - (n - len : Nat) + (k + (n - len) : Nat) = s + k := by omega
            rw [field_load _ _ within, place, if_neg little, if_pos (by omega), same]
          · rw [field_outside _ (Nat.mul_le_mul_left 8 past), if_neg (by omega)]
    · exact field_copy lt

theorem Host.makeComparableSloppy_eq (h : Host) (n : Nat) (mem : Memory) (s : Int) (len : Nat) :
    h.makeComparableSloppy n mem s len = h.makeComparable n mem s len := by
  rw [makeComparableSloppy, makeSloppy_eq, makeComparable]

/-- The strings agree where their bytes do. -/
theorem bytesAt_eq_iff {a b : Int} : bytesAt mem a len = bytesAt mem b len ↔ ∀ k < len, mem (a + k) = mem (b + k) := by
  unfold bytesAt
  rw [List.map_inj_left]
  exact ⟨fun all k lt => all k (List.mem_range.mpr lt), fun all k mem => all k (List.mem_range.mp mem)⟩

theorem eq_zero_iff {x : BitVec (8 * n)} : x = 0#_ ↔ ∀ k < n, field 8 x k = 0#8 := by
  constructor
  · rintro rfl k _
    exact field_zero k
  · intro all
    refine eq_of_field fun k lt => ?_
    rw [all k lt, field_zero]

theorem Host.equalsSloppy_eq (h : Host) {n : Nat} (whole : 4 ≤ n) (mem : Memory) (a b : Int) (len : Nat) :
    h.equalsSloppy n mem a b len = decide (bytesAt mem a len = bytesAt mem b len) := by
  have int : max (8 * n) 32 = 8 * n := by omega
  have delta : ∀ k < n, field 8 (h.load n mem a ^^^ h.load n mem b) k = 0#8 ↔ mem (a + h.place n k) = mem (b + h.place n k) := by
    intro k lt
    rw [field_xor, field_load _ _ lt, field_load _ _ lt, BitVec.xor_eq_zero_iff, UInt8.toBitVec_inj]
  unfold equalsSloppy
  rw [int, BitVec.setWidth_eq]
  split
  · rename_i short
    rw [Bool.and_eq_true, decide_eq_true_eq] at short
    dsimp only
    split
    · rename_i empty
      have none_ : len = 0 := by omega
      subst none_
      exact (decide_eq_true rfl).symm
    · split
      · rename_i big
        rw [decide_eq_decide, bytesAt_eq_iff, eq_zero_iff]
        constructor
        · intro zero k lt
          have here := zero (len - 1 - k) (by omega)
          rw [field_shiftRight, delta _ (by omega), place, if_pos big] at here
          have same : n - 1 - (len - 1 - k + (n - len)) = k := by omega
          rwa [same] at here
        · intro same k lt
          rw [field_shiftRight]
          rcases Nat.lt_or_ge (k + (n - len)) n with within | past
          · rw [delta _ within, place, if_pos big]
            exact same _ (by omega)
          · exact field_outside _ (Nat.mul_le_mul_left 8 past)
      · rename_i little
        rw [decide_eq_decide, bytesAt_eq_iff, eq_zero_iff]
        constructor
        · intro zero k lt
          have fit : 8 * (k + (n - len) + 1) ≤ 8 * n := by omega
          have here := zero (k + (n - len)) (by omega)
          rw [field_shiftLeft _ _ fit, if_neg (by omega), Nat.add_sub_cancel, delta _ (by omega), place, if_neg little] at here
          exact here
        · intro same k lt
          rw [field_shiftLeft _ _ (Nat.mul_le_mul_left 8 lt)]
          split
          · rfl
          · rw [delta _ (by omega), place, if_neg little]
            exact same _ (by omega)
  · rfl

/-! ### Slices as numbers -/

theorem field_slice (t : Bytes) (lt : k < n) :
    field 8 (BitVec.ofNat (8 * n) (slice n t)) k = (t.getD (n - 1 - k) 0).toBitVec := by
  have bound : slice n t < 2 ^ (8 * n) := by
    rw [Nat.pow_mul]
    exact slice_lt n t
  apply BitVec.eq_of_toNat_eq
  rw [toNat_field, BitVec.toNat_ofNat, Nat.mod_eq_of_lt bound, Nat.pow_mul]
  exact slice_byte t lt

theorem getD_bytesAt (mem : Memory) (s : Int) (len k : Nat) : (bytesAt mem s len).getD k 0 = if k < len then mem (s + k) else 0 := by
  rw [bytesAt, List.getD_eq_getElem?_getD, List.getElem?_map]
  split
  · rename_i lt
    rw [List.getElem?_range lt]
    rfl
  · rename_i ge
    rw [List.getElem?_eq_none (by rw [List.length_range]; omega)]
    rfl

theorem Host.field_makeComparable (lt : k < n) :
    field 8 (h.makeComparable n mem s len) k = ((bytesAt mem s len).getD (n - 1 - k) 0).toBitVec := by
  rw [getD_bytesAt, makeComparable, netToHostOrder]
  split
  · rename_i big
    rw [field_make lt, place, if_pos big]
    split <;> rfl
  · rename_i little
    rw [field_ofBytes _ lt]
    show field 8 _ (n - 1 - k) = _
    rw [field_make (by omega), place, if_neg little]
    split <;> rfl

/-- A comparable slice is the number of the string's first bytes. -/
theorem Host.makeComparable_eq (h : Host) (n : Nat) (mem : Memory) (s : Int) (len : Nat) :
    h.makeComparable n mem s len = BitVec.ofNat (8 * n) (slice n (bytesAt mem s len)) :=
  eq_of_field fun _ lt => by rw [field_makeComparable lt, field_slice _ lt]

end Masstree.Tree
