import Masstree.Tree.Slice
import Mathlib.Data.List.GetD

/-!
# Keys in memory

The class `key` with its slice, length and two pointers. The memory is shown from `first_` on, so `s` is `s_ - first_`.
-/

namespace Masstree.Tree

open Msgpack (Bytes netOrder)
open Fields

/-- `host_to_net_order` is the same exchange of bytes. -/
def Host.hostToNetOrder (h : Host) {n : Nat} (x : BitVec (8 * n)) : BitVec (8 * n) := h.netToHostOrder x

/-- `*reinterpret_cast<T*>(a) = x` -/
def Host.store (h : Host) (n : Nat) (mem : Memory) (a : Int) (x : BitVec (8 * n)) : Memory := fun b =>
  if a ≤ b ∧ b < a + n then ⟨field 8 x (h.place n (b - a).toNat)⟩ else mem b

/-- `memcpy(a, t.s, t.len)` -/
def copyBytes (mem : Memory) (a : Int) (t : Bytes) : Memory := fun b =>
  if a ≤ b ∧ b < a + t.length then t.getD (b - a).toNat 0 else mem b

structure RawKey where
  ikey0 : BitVec (8 * 8)
  len : Nat
  s : Nat
  mem : Memory

namespace RawKey

variable (h : Host) (k : RawKey)

/-- `key(const char* s, int len)` -/
def ofString (mem : Memory) (len : Nat) : RawKey := ⟨h.makeComparable 8 mem 0 len, len, 0, mem⟩

def shift : RawKey := ⟨h.makeComparableSloppy 8 k.mem (k.s + 8 : Nat) (k.len - 8), k.len - 8, k.s + 8, k.mem⟩

def unshiftAll : RawKey :=
  if k.s ≠ 0 then ⟨h.makeComparable 8 k.mem 0 (k.len + k.s), k.len + k.s, 0, k.mem⟩ else k

def unshift : RawKey := ⟨h.makeComparableSloppy 8 k.mem (k.s - 8 : Nat) 8, 9, k.s - 8, k.mem⟩

def prefixString : Bytes := bytesAt k.mem 0 k.s
def fullString : Bytes := bytesAt k.mem 0 (k.s + k.len)

def assignStoreIkey (ikey : BitVec (8 * 8)) : RawKey :=
  { k with ikey0 := ikey, mem := h.store 8 k.mem k.s (h.hostToNetOrder ikey) }

def assignStoreSuffix (t : Bytes) : Nat × RawKey := (8 + t.length, { k with mem := copyBytes k.mem (k.s + 8 : Nat) t })

def assignStoreLength (len : Nat) : RawKey := { k with len := len }

def shiftClear : RawKey := ⟨0, 0, k.s + 8, k.mem⟩
def shiftClearReverse : RawKey := ⟨BitVec.allOnes _, 9, k.s + 8, k.mem⟩

def empty : Bool := k.ikey0 = 0 ∧ k.len = 0
def suffix : Bytes := bytesAt k.mem (k.s + 8 : Nat) (k.len - 8)
def compare (ikey keylenx : Nat) : Ordering := keyCompare k.ikey0.toNat k.len ikey keylenx

/-- The key that a scan stores for the last bytes of a string, in the order of `scansuffix`. -/
def rebuild (t : Bytes) : RawKey :=
  if 8 < t.length then
    let (keylen, k) := k.assignStoreSuffix (t.drop 8)
    (k.assignStoreIkey h (BitVec.ofNat _ (Tree.makeComparable t))).assignStoreLength keylen
  else (k.assignStoreIkey h (BitVec.ofNat _ (Tree.makeComparable t))).assignStoreLength t.length

structure Represents (k : RawKey) (key : Key) : Prop where
  ikey : k.ikey0.toNat = key.ikey
  length : k.len = key.length
  first : k.prefixString = key.first
  rest : bytesAt k.mem k.s k.len = key.s

end RawKey

/-! ### Reading -/

variable {h : Host} {mem : Memory} {k : RawKey} {key : Key}

theorem length_bytesAt (mem : Memory) (a : Int) (len : Nat) : (bytesAt mem a len).length = len := by
  rw [bytesAt, List.length_map, List.length_range]

theorem bytesAt_append (mem : Memory) (a : Int) (m n : Nat) : bytesAt mem a (m + n) = bytesAt mem a m ++ bytesAt mem (a + m) n := by
  unfold bytesAt
  rw [List.range_add, List.map_append, List.map_map]
  congr 1
  refine List.map_congr_left fun k _ => ?_
  show mem (a + (m + k : Nat)) = mem (a + m + k)
  congr 1
  omega

theorem bytesAt_take (mem : Memory) (a : Int) {m n : Nat} (le : m ≤ n) : (bytesAt mem a n).take m = bytesAt mem a m := by
  obtain ⟨rest, rfl⟩ := Nat.exists_eq_add_of_le le
  rw [bytesAt_append]
  exact List.take_left' (length_bytesAt ..)

theorem bytesAt_drop (mem : Memory) (a : Int) {m n : Nat} (le : m ≤ n) :
    (bytesAt mem a n).drop m = bytesAt mem (a + m) (n - m) := by
  obtain ⟨rest, rfl⟩ := Nat.exists_eq_add_of_le le
  rw [bytesAt_append, Nat.add_sub_cancel_left]
  exact List.drop_left' (length_bytesAt ..)

theorem bytesAt_eq {a : Int} {t : Bytes} (all : ∀ k < t.length, mem (a + k) = t.getD k 0) : bytesAt mem a t.length = t := by
  refine List.ext_getElem (length_bytesAt ..) fun k lt lt' => ?_
  have read : (bytesAt mem a t.length).getD k 0 = t.getD k 0 := by
    rw [getD_bytesAt, if_pos lt', all k lt']
  rwa [List.getD_eq_getElem _ _ lt, List.getD_eq_getElem _ _ lt'] at read

theorem bytesAt_congr {mem' : Memory} {a : Int} {len : Nat} (all : ∀ k < len, mem (a + k) = mem' (a + k)) :
    bytesAt mem a len = bytesAt mem' a len := List.map_congr_left fun k inside => all k (List.mem_range.mp inside)

theorem toNat_makeComparable (h : Host) (mem : Memory) (a : Int) (len : Nat) :
    (h.makeComparable 8 mem a len).toNat = makeComparable (bytesAt mem a len) := by
  have bound : slice 8 (bytesAt mem a len) < 2 ^ (8 * 8) := slice_lt 8 _
  rw [h.makeComparable_eq, BitVec.toNat_ofNat, Nat.mod_eq_of_lt bound, makeComparable_eq]

namespace RawKey

theorem Represents.fullString (rep : Represents k key) : k.fullString = key.fullString := by
  have parts := bytesAt_append k.mem 0 k.s k.len
  rw [Int.zero_add] at parts
  show bytesAt k.mem 0 (k.s + k.len) = _
  rw [Key.fullString, ← rep.first, ← rep.rest]
  exact parts

/-! ### Shifting -/

theorem represents_ofString (h : Host) (mem : Memory) (len : Nat) :
    Represents (ofString h mem len) (Key.ofStr (bytesAt mem 0 len)) :=
  ⟨toNat_makeComparable h mem 0 len, (length_bytesAt ..).symm, rfl, rfl⟩

theorem Represents.shift (rep : Represents k key) (long : 8 ≤ key.length) : Represents (k.shift h) key.shift := by
  have le : 8 ≤ k.len := by rwa [rep.length]
  have rest : bytesAt k.mem (k.s + 8 : Nat) (k.len - 8) = key.s.drop 8 := by
    rw [← rep.rest, bytesAt_drop _ _ le]
    rfl
  refine ⟨?_, ?_, ?_, rest⟩
  · show (h.makeComparableSloppy 8 k.mem _ _).toNat = _
    rw [h.makeComparableSloppy_eq, toNat_makeComparable, rest]
    rfl
  · show k.len - 8 = (key.s.drop 8).length
    rw [List.length_drop, rep.length]
    rfl
  · show bytesAt k.mem 0 (k.s + 8) = key.first ++ key.s.take 8
    rw [bytesAt_append, ← rep.first, ← rep.rest, bytesAt_take _ _ le, Int.zero_add]
    rfl

theorem Represents.unshiftAll (rep : Represents k key) : Represents (k.unshiftAll h) key.unshiftAll := by
  have whole := rep.fullString
  unfold RawKey.unshiftAll
  split
  · have all : bytesAt k.mem 0 (k.len + k.s) = key.fullString := by
      rw [Nat.add_comm]
      exact whole
    refine ⟨?_, ?_, rfl, all⟩
    · rw [toNat_makeComparable, all]
      rfl
    · show k.len + k.s = key.fullString.length
      rw [← all, length_bytesAt]
  · rename_i fresh
    have none_ : key.first = [] := by
      rw [← rep.first, RawKey.prefixString, Decidable.not_not.mp fresh]
      rfl
    have same : key.unshiftAll = key := by
      obtain ⟨first, s⟩ := key
      obtain rfl : first = [] := none_
      rfl
    rwa [same]

/-- One slice back, with one more byte: the length class of every key that goes on after the slice. -/
theorem Represents.unshift (rep : Represents k key) (shifted : 8 ≤ k.s) (some : 0 < k.len) :
    Represents (k.unshift h) ⟨key.fullString.take (k.s - 8), (key.fullString.drop (k.s - 8)).take 9⟩ := by
  have whole : key.fullString = bytesAt k.mem 0 (k.s + k.len) := rep.fullString.symm
  have rest : (key.fullString.drop (k.s - 8)).take 9 = bytesAt k.mem (k.s - 8 : Nat) 9 := by
    rw [whole, bytesAt_drop _ _ (by omega), bytesAt_take _ _ (by omega), Int.zero_add]
  refine ⟨?_, ?_, ?_, rest.symm⟩
  · show (h.makeComparableSloppy 8 k.mem _ 8).toNat = makeComparable ((key.fullString.drop (k.s - 8)).take 9)
    rw [h.makeComparableSloppy_eq, toNat_makeComparable, rest, ← makeComparable_take (bytesAt k.mem (k.s - 8 : Nat) 9),
      bytesAt_take _ _ (by decide)]
  · show 9 = ((key.fullString.drop (k.s - 8)).take 9).length
    rw [rest, length_bytesAt]
  · show bytesAt k.mem 0 (k.s - 8) = _
    rw [whole, bytesAt_take _ _ (by omega)]

/-! ### Keys stored by a scan -/

theorem field_hostToNetOrder {n j : Nat} (x : BitVec (8 * n)) (lt : j < n) :
    field 8 (h.hostToNetOrder x) (h.place n j) = field 8 x (n - 1 - j) := by
  unfold Host.hostToNetOrder Host.netToHostOrder Host.place
  split
  · rfl
  · exact field_ofBytes _ lt

/-- What is stored at `a` is the slice, byte by byte. -/
theorem store_slice (t : Bytes) {a : Int} {j : Nat} (lt : j < 8) :
    h.store 8 mem a (h.hostToNetOrder (BitVec.ofNat (8 * 8) (Tree.makeComparable t))) (a + j) = t.getD j 0 := by
  have inside : a ≤ a + j ∧ a + j < a + (8 : Nat) := by omega
  have offset : (a + j - a).toNat = j := by omega
  have index : 8 - 1 - (8 - 1 - j) = j := by omega
  unfold Host.store
  rw [if_pos inside, offset, field_hostToNetOrder _ lt, Tree.makeComparable_eq, field_slice _ (by omega), index]

theorem store_outside {a b : Int} (x : BitVec (8 * 8)) (outside : b < a ∨ a + 8 ≤ b) : h.store 8 mem a x b = mem b := by
  unfold Host.store
  exact if_neg (by omega)

theorem copyBytes_inside (t : Bytes) {a : Int} {j : Nat} (lt : j < t.length) : copyBytes mem a t (a + j) = t.getD j 0 := by
  have inside : a ≤ a + j ∧ a + j < a + t.length := by omega
  have offset : (a + j - a).toNat = j := by omega
  unfold copyBytes
  rw [if_pos inside, offset]

theorem copyBytes_outside {a b : Int} (t : Bytes) (outside : b < a) : copyBytes mem a t b = mem b := by
  unfold copyBytes
  exact if_neg (by omega)

theorem represents_rebuild (h : Host) (k : RawKey) (t : Bytes) : Represents (k.rebuild h t) ⟨k.prefixString, t⟩ := by
  have bound : Tree.makeComparable t < 2 ^ (8 * 8) := slice_lt 8 t
  have ikey : (BitVec.ofNat (8 * 8) (Tree.makeComparable t)).toNat = Tree.makeComparable t := by
    rw [BitVec.toNat_ofNat, Nat.mod_eq_of_lt bound]
  unfold rebuild
  split
  · rename_i long
    have length : 8 + (t.drop 8).length = t.length := by
      rw [List.length_drop]
      omega
    refine ⟨ikey, length, bytesAt_congr fun j lt => ?_, ?_⟩
    · have before : (0 : Int) + j < k.s := by
        have : j < k.s := lt
        omega
      show h.store 8 _ _ _ (0 + (j : Int)) = _
      rw [store_outside _ (.inl before)]
      exact copyBytes_outside _ (by omega)
    · show bytesAt _ _ (8 + (t.drop 8).length) = t
      rw [length]
      refine bytesAt_eq fun j lt => ?_
      rcases Nat.lt_or_ge j 8 with inSlice | inSuffix
      · exact store_slice t inSlice
      · have place : (k.s : Int) + j = (k.s + 8 : Nat) + (j - 8 : Nat) := by omega
        have inside : j - 8 < (t.drop 8).length := by omega
        have index : 8 + (j - 8) = j := by omega
        show h.store 8 _ (k.s : Int) _ ((k.s : Int) + j) = _
        rw [store_outside _ (.inr (by omega)), place]
        show copyBytes _ _ _ _ = _
        rw [copyBytes_inside _ inside, List.getD_eq_getElem?_getD, List.getElem?_drop, index, List.getD_eq_getElem?_getD]
  · rename_i short
    refine ⟨ikey, rfl, bytesAt_congr fun j lt => ?_, bytesAt_eq fun j lt => store_slice t (by omega)⟩
    have : j < k.s := lt
    exact store_outside _ (.inl (by omega))

/-- The slice and the suffix may be stored in either order. -/
theorem assignStore_comm (h : Host) (k : RawKey) (ikey : BitVec (8 * 8)) (t : Bytes) :
    ((k.assignStoreIkey h ikey).assignStoreSuffix t).2 = (k.assignStoreSuffix t).2.assignStoreIkey h ikey := by
  have memory : copyBytes (h.store 8 k.mem k.s (h.hostToNetOrder ikey)) (k.s + 8 : Nat) t =
      h.store 8 (copyBytes k.mem (k.s + 8 : Nat) t) k.s (h.hostToNetOrder ikey) := by
    funext b
    rcases Int.lt_or_le b (k.s + 8 : Nat) with before | after
    · rw [copyBytes_outside _ before]
      unfold Host.store
      rw [copyBytes_outside _ before]
    · rw [store_outside _ (.inr (by omega))]
      unfold copyBytes
      rw [store_outside _ (.inr (by omega))]
  exact congrArg (RawKey.mk ikey k.len k.s) memory

/-! ### Runs of shifts -/

/-- The key of the last bytes of a string, after `n` shifts. -/
theorem represents_shifts (h : Host) (mem : Memory) (len : Nat) {n : Nat} (enough : n = 0 ∨ 8 * n < len) :
    Represents ((shift h)^[n] (ofString h mem len)) ⟨(bytesAt mem 0 len).take (8 * n), (bytesAt mem 0 len).drop (8 * n)⟩ ∧
      ((shift h)^[n] (ofString h mem len)).s = 8 * n := by
  induction n with
  | zero => exact ⟨represents_ofString h mem len, rfl⟩
  | succ n ih =>
    obtain ⟨rep, place⟩ := ih (by omega)
    have long : 8 ≤ Key.length ⟨(bytesAt mem 0 len).take (8 * n), (bytesAt mem 0 len).drop (8 * n)⟩ := by
      show 8 ≤ ((bytesAt mem 0 len).drop (8 * n)).length
      rw [List.length_drop, length_bytesAt]
      omega
    have shifted : Key.shift ⟨(bytesAt mem 0 len).take (8 * n), (bytesAt mem 0 len).drop (8 * n)⟩ =
        ⟨(bytesAt mem 0 len).take (8 * (n + 1)), (bytesAt mem 0 len).drop (8 * (n + 1))⟩ := by
      unfold Key.shift
      rw [List.drop_drop, Nat.mul_succ, List.take_add]
    rw [Function.iterate_succ_apply', ← shifted]
    refine ⟨rep.shift long, ?_⟩
    show ((shift h)^[n] (ofString h mem len)).s + 8 = _
    rw [place, Nat.mul_succ]

theorem represents_unshifts {str : Bytes} {n : Nat} (rep : Represents k ⟨str.take (8 * n), str.drop (8 * n)⟩) (place : k.s = 8 * n)
    (long : 8 * n < str.length) {m : Nat} (positive : 1 ≤ m) (le : m ≤ n) :
    Represents ((unshift h)^[m] k) ⟨str.take (8 * (n - m)), (str.drop (8 * (n - m))).take 9⟩ ∧
      ((unshift h)^[m] k).s = 8 * (n - m) := by
  induction m, positive using Nat.le_induction with
  | base =>
    have length := rep.length
    have rest : k.len = str.length - 8 * n := by
      rw [length, ← List.length_drop]
      rfl
    have whole : Key.fullString ⟨str.take (8 * n), str.drop (8 * n)⟩ = str := List.take_append_drop ..
    have back := rep.unshift (h := h) (by omega) (by omega)
    rw [whole, place, ← Nat.mul_sub_one] at back
    refine ⟨back, ?_⟩
    show k.s - 8 = _
    omega
  | succ m positive ih =>
    obtain ⟨rep, place⟩ := ih (by omega)
    have whole : Key.fullString ⟨str.take (8 * (n - m)), (str.drop (8 * (n - m))).take 9⟩ = str.take (8 * (n - m) + 9) :=
      List.take_add.symm
    have some : 0 < ((unshift h)^[m] k).len := by
      have length : ((unshift h)^[m] k).len = ((str.drop (8 * (n - m))).take 9).length := rep.length
      rw [length, List.length_take, List.length_drop]
      omega
    have back := rep.unshift (h := h) (by omega) some
    have place' : 8 * (n - m) - 8 = 8 * (n - (m + 1)) := by omega
    have fewer : 8 * (n - m) + 9 - 8 * (n - (m + 1)) = 17 := by omega
    rw [whole, place, place', List.take_take, List.drop_take, fewer, List.take_take, Nat.min_eq_left (by omega),
      Nat.min_eq_left (by decide)] at back
    rw [Function.iterate_succ_apply']
    refine ⟨back, ?_⟩
    show ((unshift h)^[m] k).s - 8 = _
    omega

/-- Keys compared layer by layer are ordered as byte strings, whatever surrounds them in memory; shifts keep the string and
`unshift_all` gives it back, `unshift` the bytes up to the first after the slice; a stored key is the string that was stored. -/
theorem keys_are_strings (h : Host) :
    (∀ a b : Bytes, Key.compareLayers a.length (Key.ofStr a) (Key.ofStr b) = lexCompare a b ∧
      (Key.ofStr a).compareSuffix (Key.ofStr b) = lexCompare a b) ∧
    (∀ n mem s len, h.makeComparableSloppy n mem s len = h.makeComparable n mem s len) ∧
    (∀ n mem a b len, 4 ≤ n → h.equalsSloppy n mem a b len = decide (bytesAt mem a len = bytesAt mem b len)) ∧
    (∀ mem len n, n = 0 ∨ 8 * n < len →
      Represents ((shift h)^[n] (ofString h mem len)) ⟨(bytesAt mem 0 len).take (8 * n), (bytesAt mem 0 len).drop (8 * n)⟩ ∧
      Represents (((shift h)^[n] (ofString h mem len)).unshiftAll h) (Key.ofStr (bytesAt mem 0 len)) ∧
      ∀ m, 1 ≤ m → m ≤ n →
        Represents ((unshift h)^[m] ((shift h)^[n] (ofString h mem len)))
          ⟨(bytesAt mem 0 len).take (8 * (n - m)), ((bytesAt mem 0 len).drop (8 * (n - m))).take 9⟩ ∧
        Represents (((unshift h)^[m] ((shift h)^[n] (ofString h mem len))).unshiftAll h)
          (Key.ofStr ((bytesAt mem 0 len).take (8 * (n - m) + 9)))) ∧
    (∀ (k : RawKey) t, Represents (k.rebuild h t) ⟨k.prefixString, t⟩) ∧
    (∀ (k : RawKey) ikey t, ((k.assignStoreIkey h ikey).assignStoreSuffix t).2 = (k.assignStoreSuffix t).2.assignStoreIkey h ikey) := by
  refine ⟨fun a b => ⟨Key.compareLayers_eq _ _ _ ?_, Key.compareSuffix_eq _ _⟩, h.makeComparableSloppy_eq,
    fun _ mem a b len whole => h.equalsSloppy_eq whole mem a b len, fun mem len n enough => ?_, represents_rebuild h, assignStore_comm h⟩
  · rw [Key.length_ofStr]
    omega
  · obtain ⟨rep, place⟩ := represents_shifts h mem len enough
    have whole : Key.unshiftAll ⟨(bytesAt mem 0 len).take (8 * n), (bytesAt mem 0 len).drop (8 * n)⟩ = Key.ofStr (bytesAt mem 0 len) :=
      congrArg (Key.mk []) (List.take_append_drop ..)
    refine ⟨rep, whole ▸ rep.unshiftAll, fun m positive le => ?_⟩
    obtain ⟨back, _⟩ := represents_unshifts rep place (by rw [length_bytesAt]; omega) positive le
    have start : Key.unshiftAll ⟨(bytesAt mem 0 len).take (8 * (n - m)), ((bytesAt mem 0 len).drop (8 * (n - m))).take 9⟩ =
        Key.ofStr ((bytesAt mem 0 len).take (8 * (n - m) + 9)) := congrArg (Key.mk []) List.take_add.symm
    exact ⟨back, start ▸ back.unshiftAll⟩

/-- A key of 17 bytes on a little-endian host, shifted twice and unshifted once. -/
theorem keys_are_strings_two :
    Represents ((unshift ⟨false, true⟩)^[1] ((shift ⟨false, true⟩)^[2] (ofString ⟨false, true⟩ (fun a => UInt8.ofInt a) 17)))
      ⟨(bytesAt (fun a => UInt8.ofInt a) 0 17).take (8 * (2 - 1)),
        ((bytesAt (fun a => UInt8.ofInt a) 0 17).drop (8 * (2 - 1))).take 9⟩ :=
  (((keys_are_strings ⟨false, true⟩).2.2.2.1 (fun a => UInt8.ofInt a) 17 2 (.inr (by decide))).2.2 1 (by decide) (by decide)).1

/-- A key of 17 bytes, shifted and unshifted again, has the length 9; slices of 16 bits tell two equal strings of one byte apart by
the bytes after them. -/
theorem unshift_shortens :
    ((ofString ⟨false, true⟩ (fun a => UInt8.ofInt a) 17).shift ⟨false, true⟩ |>.unshift ⟨false, true⟩).len = 9 ∧
    ((ofString ⟨false, true⟩ (fun a => UInt8.ofInt a) 17).shift ⟨false, true⟩ |>.unshift ⟨false, true⟩).fullString =
      [0, 1, 2, 3, 4, 5, 6, 7, 8] ∧
    (ofString ⟨false, true⟩ (fun a => UInt8.ofInt a) 17).len = 17 ∧
    Host.equalsSloppy ⟨false, true⟩ 2 (fun a => UInt8.ofInt (a / 3)) 0 2 1 = false ∧
    bytesAt (fun a => UInt8.ofInt (a / 3)) 0 1 = bytesAt (fun a => UInt8.ofInt (a / 3)) 2 1 := by
  decide

end RawKey

end Masstree.Tree
