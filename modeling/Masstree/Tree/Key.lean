import Masstree.Msgpack.Parser
import Mathlib.Data.List.Induction
import Mathlib.Data.List.TakeDrop

/-!
# Keys and their slices

A key is compared eight bytes at a time. Its current slice, the ikey, is the next eight bytes read as a
big-endian integer, padded with zero bytes; two slices that agree are told apart by how many bytes of the
key remain, where all lengths above eight are alike.
-/

namespace Masstree.Tree
open Msgpack (Bytes netOrder)

def makeComparable (s : Bytes) : Nat := netOrder (s.take 8 ++ List.replicate (8 - s.length) 0)

/-- The class `key`, as the bytes from `first_` to `s_` and those from `s_` on. -/
structure Key where
  first : Bytes
  s : Bytes
  deriving DecidableEq, Repr

namespace Key

def ofStr (str : Bytes) : Key := ⟨[], str⟩
def ikey (k : Key) : Nat := makeComparable k.s
def length (k : Key) : Nat := k.s.length
def hasSuffix (k : Key) : Bool := 8 < k.length
def suffix (k : Key) : Bytes := k.s.drop 8
def shift (k : Key) : Key := ⟨k.first ++ k.s.take 8, k.s.drop 8⟩
def unshiftAll (k : Key) : Key := ⟨[], k.first ++ k.s⟩
def prefixString (k : Key) : Bytes := k.first
def fullString (k : Key) : Bytes := k.first ++ k.s

end Key

/-- `key::compare` with an ikey and a `keylenx`, for a key with the given ikey and length. -/
def keyCompare (ikey length ikey' keylenx : Nat) : Ordering :=
  match compare ikey ikey' with
  | .eq => if 8 < length then (if keylenx ≤ 8 then .gt else .eq) else compare length keylenx
  | o => o

def Key.compare (k : Key) (ikey keylenx : Nat) : Ordering := keyCompare k.ikey k.length ikey keylenx

/-- The place of an ikey and length in the order of keys. -/
def rank (ikey length : Nat) : Nat := ikey * 10 + min length 9

def Key.rank (k : Key) : Nat := Tree.rank k.ikey k.length

/-- `keyCompare` is the order of ranks. -/
theorem keyCompare_eq (ikey length ikey' keylenx : Nat) :
    keyCompare ikey length ikey' keylenx = compare (rank ikey length) (rank ikey' keylenx) := by
  unfold keyCompare rank
  rcases Nat.lt_trichotomy ikey ikey' with less | same | more
  · have below : ikey * 10 + min length 9 < ikey' * 10 + min keylenx 9 := by omega
    rw [Nat.compare_eq_lt.mpr less, Nat.compare_eq_lt.mpr below]
  · subst same
    rw [Nat.compare_eq_eq.mpr rfl]
    dsimp only
    split
    · split
      · exact (Nat.compare_eq_gt.mpr (by omega)).symm
      · exact (Nat.compare_eq_eq.mpr (by omega)).symm
    · rcases Nat.lt_trichotomy length keylenx with less | same | more
      · rw [Nat.compare_eq_lt.mpr less]
        exact (Nat.compare_eq_lt.mpr (by omega)).symm
      · rw [Nat.compare_eq_eq.mpr same]
        exact (Nat.compare_eq_eq.mpr (by omega)).symm
      · rw [Nat.compare_eq_gt.mpr more]
        exact (Nat.compare_eq_gt.mpr (by omega)).symm
  · have above : ikey' * 10 + min keylenx 9 < ikey * 10 + min length 9 := by omega
    rw [Nat.compare_eq_gt.mpr more, Nat.compare_eq_gt.mpr above]

theorem Key.compare_eq (k : Key) (ikey keylenx : Nat) :
    k.compare ikey keylenx = Ord.compare k.rank (Tree.rank ikey keylenx) := keyCompare_eq _ _ _ _

theorem rank_inj {ikey length ikey' length' : Nat} :
    rank ikey length = rank ikey' length' ↔ ikey = ikey' ∧ min length 9 = min length' 9 := by
  unfold rank
  omega

/-- Ranks are ordered by ikey, then by length class. -/
theorem rank_lt {ikey length ikey' length' : Nat} :
    rank ikey length < rank ikey' length' ↔ ikey < ikey' ∨ ikey = ikey' ∧ min length 9 < min length' 9 := by
  unfold rank
  omega

/-! ### Slices -/

theorem netOrder_lt (s : Bytes) : netOrder s < 256 ^ s.length := by
  induction s using List.reverseRecOn with
  | nil => simp [netOrder]
  | append_singleton s b ih =>
    have byte := b.toNat_lt
    rw [Msgpack.netOrder_append, List.length_append, List.length_singleton, Nat.pow_succ]
    omega

theorem netOrder_inj {s t : Bytes} (len : s.length = t.length) (same : netOrder s = netOrder t) : s = t := by
  induction s using List.reverseRecOn generalizing t with
  | nil => exact (List.length_eq_zero_iff.mp len.symm).symm
  | append_singleton s b ih =>
    rcases List.eq_nil_or_concat t with rfl | ⟨t, c, rfl⟩
    · simp at len
    · simp only [List.concat_eq_append] at *
      rw [Msgpack.netOrder_append, Msgpack.netOrder_append] at same
      have hb := b.toNat_lt
      have hc := c.toNat_lt
      have bytes : b = c := UInt8.toNat_inj.mp (by omega)
      rw [ih (by simpa using len) (by omega), bytes]

theorem makeComparable_length (s : Bytes) : (s.take 8 ++ List.replicate (8 - s.length) (0 : UInt8)).length = 8 := by
  simp only [List.length_append, List.length_take, List.length_replicate]
  omega

theorem makeComparable_lt (s : Bytes) : makeComparable s < 2 ^ 64 := by
  have bound := netOrder_lt (s.take 8 ++ List.replicate (8 - s.length) 0)
  rw [makeComparable_length] at bound
  exact bound

/-- An ikey and a length class determine the slice. -/
theorem take_eq_of_rank {s t : Bytes} (same : rank (makeComparable s) s.length = rank (makeComparable t) t.length) :
    s.take 8 = t.take 8 := by
  obtain ⟨ikeys, lengths⟩ := rank_inj.mp same
  have padded := netOrder_inj (by rw [makeComparable_length, makeComparable_length]) ikeys
  exact (List.append_inj padded (by simp only [List.length_take]; omega)).1

/-- A key of at most eight bytes is its slice. -/
theorem eq_of_rank {s t : Bytes} (same : rank (makeComparable s) s.length = rank (makeComparable t) t.length)
    (short : s.length ≤ 8) : s = t := by
  have lengths := (rank_inj.mp same).2
  have slices := take_eq_of_rank same
  rwa [List.take_of_length_le short, List.take_of_length_le (by omega)] at slices

theorem makeComparable_take (s : Bytes) : makeComparable (s.take 8) = makeComparable s := by
  have pad : 8 - (s.take 8).length = 8 - s.length := by
    rw [List.length_take]
    omega
  rw [makeComparable, makeComparable, List.take_take, Nat.min_self, pad]

@[simp] theorem Key.length_ofStr (s : Bytes) : (Key.ofStr s).length = s.length := rfl

theorem Key.hasSuffix_iff (k : Key) : k.hasSuffix = true ↔ 8 < k.s.length := by
  unfold Key.hasSuffix Key.length
  exact decide_eq_true_iff

end Masstree.Tree
