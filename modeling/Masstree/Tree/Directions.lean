import Masstree.Tree.Listing
import Masstree.Tree.Scan

/-!
# Directions of a scan

Both helpers go through a list in one of its two orders; what is ahead of a key is what the scan has not come to.
-/

namespace Masstree.Tree
open Msgpack (Bytes toNetOrder)

variable {V α β : Type}

namespace RawKey

variable (h : Host) (k : RawKey)

def rank : Nat := Tree.rank k.ikey0.toNat k.len

theorem compare_eq (ikey keylenx : Nat) : k.compare ikey keylenx = Ord.compare k.rank (Tree.rank ikey keylenx) := keyCompare_eq _ _ _ _

theorem Represents.rank {k : RawKey} {key : Key} (rep : Represents k key) : k.rank = key.rank := by
  rw [RawKey.rank, rep.ikey, rep.length, Key.rank]

theorem length_prefixString : k.prefixString.length = k.s := length_bytesAt ..

theorem prefix_assignStoreIkey (ikey : BitVec (8 * 8)) : (k.assignStoreIkey h ikey).prefixString = k.prefixString := by
  refine bytesAt_congr fun j lt => store_outside _ (.inl ?_)
  have inside : j < k.s := lt
  omega

theorem prefix_assignStoreSuffix (t : Bytes) : (k.assignStoreSuffix t).2.prefixString = k.prefixString := by
  refine bytesAt_congr fun j lt => copyBytes_outside _ ?_
  have inside : j < k.s := lt
  omega

/-- The slice of the layer that the key goes on in. -/
theorem slice_assignStoreIkey {ikey : Nat} (small : ikey < 2 ^ 64) :
    bytesAt (k.assignStoreIkey h (BitVec.ofNat _ ikey)).mem k.s 8 = toNetOrder 8 ikey := by
  have length : (toNetOrder 8 ikey).length = 8 := Msgpack.toNetOrder_length 8 _
  have whole : makeComparable (toNetOrder 8 ikey) = ikey := by
    have slice := makeComparable_toNetOrder small []
    rwa [List.append_nil] at slice
  have stored : ∀ j < (toNetOrder 8 ikey).length, (k.assignStoreIkey h (BitVec.ofNat _ ikey)).mem (k.s + j) =
    (toNetOrder 8 ikey).getD j 0 := by
    intro j lt
    show h.store 8 k.mem k.s (h.hostToNetOrder (BitVec.ofNat (8 * 8) ikey)) (k.s + j) = _
    conv_lhs => rw [← whole]
    exact store_slice (toNetOrder 8 ikey) (length ▸ lt)
  have read := bytesAt_eq stored
  rwa [length] at read

/-- A suffix comes after the slice that is there. -/
theorem fullString_assignStoreSuffix (t : Bytes) : ((k.assignStoreSuffix t).2.assignStoreLength (k.assignStoreSuffix t).1).fullString =
    k.prefixString ++ (bytesAt k.mem k.s 8 ++ t) := by
  have stored : bytesAt (k.assignStoreSuffix t).2.mem (k.s + 8 : Nat) t.length = t := bytesAt_eq fun j lt => copyBytes_inside t lt
  have slice : bytesAt (k.assignStoreSuffix t).2.mem k.s 8 = bytesAt k.mem k.s 8 :=
    bytesAt_congr fun j lt => copyBytes_outside _ (by omega)
  show bytesAt (k.assignStoreSuffix t).2.mem 0 (k.s + (8 + t.length)) = _
  rw [bytesAt_append, bytesAt_append, Int.zero_add]
  exact congrArg₂ _ (k.prefix_assignStoreSuffix t) (congrArg₂ _ slice stored)

/-- What is after the slice of a key. -/
theorem Represents.suffix {k : RawKey} {key : Key} (rep : Represents k key) (long : 8 ≤ k.len) :
    k.suffix = key.suffix ∧ bytesAt k.mem k.s 8 = key.s.take 8 := by
  rw [RawKey.suffix, Key.suffix, ← rep.rest, bytesAt_drop _ _ long, bytesAt_take _ _ long]
  exact ⟨rfl, rfl⟩

theorem prefix_shiftClear : k.shiftClear.prefixString = k.prefixString ++ bytesAt k.mem k.s 8 := by
  have parts := bytesAt_append k.mem 0 k.s 8
  rwa [Int.zero_add] at parts

/-- What `unshift` reads of a key in a layer with one slice more. -/
theorem unshift_spec {at_ slice : Bytes} (shifted : k.prefixString = at_ ++ slice) (length : slice.length = 8) :
    (k.unshift h).prefixString = at_ ∧ (k.unshift h).ikey0.toNat = makeComparable slice ∧ (k.unshift h).len = 9 := by
  have place : k.s = at_.length + 8 := by
    rw [← length_prefixString, shifted, List.length_append, length]
  have start : k.s - 8 = at_.length := by omega
  have parts : bytesAt k.mem 0 at_.length ++ bytesAt k.mem (at_.length : Nat) 8 = at_ ++ slice := by
    rw [← shifted, prefixString, place, bytesAt_append, Int.zero_add]
  obtain ⟨before, last⟩ := List.append_inj parts (length_bytesAt ..)
  refine ⟨?_, ?_, rfl⟩
  · show bytesAt k.mem 0 (k.s - 8) = at_
    rw [start]
    exact before
  · show (h.makeComparableSloppy 8 k.mem (k.s - 8 : Nat) 8).toNat = _
    rw [h.makeComparableSloppy_eq, toNat_makeComparable, start]
    exact congrArg makeComparable last

end RawKey

/-! ### Lists in the order of a scan -/

namespace Helper

variable (helper : Helper) {l E : List α} {ki : Int} {r r' : Nat}

def order (l : List α) : Helper → List α
  | forward => l
  | reverse _ => l.reverse

/-- Whether what has the rank `r'` is still to come for a key of rank `r`. -/
def ahead (r r' : Nat) : Helper → Bool
  | forward => r < r'
  | reverse upperBound => upperBound || r' < r

/-- The entries from the position `ki` on. -/
def todo (E : List α) (ki : Int) : Helper → List α
  | forward => E.drop ki.toNat
  | reverse _ => (E.take (ki + 1).toNat).reverse

/-- The position is not behind the scan's first one. -/
def Inside (size : Nat) (ki : Int) : Helper → Prop
  | forward => 0 ≤ ki
  | reverse _ => ki < size

def later (l : List α) (n : Nat) : Helper → List α
  | forward => l.drop (n + 1)
  | reverse _ => (l.take n).reverse

def earlier (l : List α) (n : Nat) : Helper → List α
  | forward => l.take n
  | reverse _ => (l.drop (n + 1)).reverse

/-- The scan has come to a key. -/
abbrev complete : Helper := helper.markKeyComplete

@[simp] theorem order_complete : helper.complete.order l = helper.order l := by cases helper <;> rfl
@[simp] theorem todo_complete : helper.complete.todo E ki = helper.todo E ki := by cases helper <;> rfl
@[simp] theorem later_complete (n : Nat) : helper.complete.later l n = helper.later l n := by cases helper <;> rfl
@[simp] theorem next_complete : helper.complete.next ki = helper.next ki := by cases helper <;> rfl
@[simp] theorem complete_complete : helper.complete.complete = helper.complete := by cases helper <;> rfl

theorem inside_complete {size : Nat} : helper.complete.Inside size ki ↔ helper.Inside size ki := by cases helper <;> exact Iff.rfl

theorem mem_order {a : α} : a ∈ helper.order l ↔ a ∈ l := by
  cases helper with
  | forward => exact Iff.rfl
  | reverse => exact List.mem_reverse

theorem order_singleton (a : α) : helper.order [a] = [a] := by cases helper <;> rfl

theorem order_flatMap (f : α → List β) : helper.order (l.flatMap f) = (helper.order l).flatMap fun a => helper.order (f a) := by
  cases helper with
  | forward => rfl
  | reverse => exact List.reverse_flatMap

theorem order_split {a : α} {n : Nat} (at_ : l[n]? = some a) : helper.order l = helper.earlier l n ++ a :: helper.later l n := by
  obtain ⟨lt, rfl⟩ := List.getElem?_eq_some_iff.mp at_
  have parts : l = l.take n ++ l[n] :: l.drop (n + 1) := by rw [List.getElem_cons_drop, List.take_append_drop]
  cases helper with
  | forward => exact parts
  | reverse upperBound =>
    show l.reverse = (l.drop (n + 1)).reverse ++ l[n] :: (l.take n).reverse
    conv_lhs => rw [parts]
    rw [List.reverse_append, List.reverse_cons, List.append_assoc]
    rfl

/-- The entry at the position, and those after it. -/
theorem todo_next (inside : helper.Inside E.length ki) (low : 0 ≤ ki) (high : ki < E.length) :
    ∃ e, E[ki.toNat]? = some e ∧ helper.todo E ki = e :: helper.todo E (helper.next ki) ∧ helper.Inside E.length (helper.next ki) := by
  obtain ⟨i, rfl⟩ := Int.eq_ofNat_of_zero_le low
  have lt : i < E.length := by omega
  refine ⟨E[i], List.getElem?_eq_getElem lt, ?_⟩
  cases helper with
  | forward =>
    have next : ((i : Int) + 1).toNat = i + 1 := by omega
    refine ⟨?_, ?_⟩
    · show E.drop i = E[i] :: E.drop ((i : Int) + 1).toNat
      rw [next, List.getElem_cons_drop]
    · show (0 : Int) ≤ i + 1
      omega
  | reverse upperBound =>
    have here : ((i : Int) + 1).toNat = i + 1 := by omega
    have next : ((i : Int) - 1 + 1).toNat = i := by omega
    refine ⟨?_, ?_⟩
    · show (E.take ((i : Int) + 1).toNat).reverse = E[i] :: (E.take ((i : Int) - 1 + 1).toNat).reverse
      rw [here, next, List.take_succ_eq_append_getElem lt, List.reverse_append]
      rfl
    · show (i : Int) - 1 < E.length
      omega

theorem todo_end (inside : helper.Inside E.length ki) (out : ¬(0 ≤ ki ∧ ki < E.length)) : helper.todo E ki = [] := by
  cases helper with
  | forward =>
    have low : 0 ≤ ki := inside
    exact List.drop_eq_nil_of_le (by omega)
  | reverse upperBound =>
    have high : ki < E.length := inside
    have none_ : (ki + 1).toNat = 0 := by omega
    show (E.take (ki + 1).toNat).reverse = []
    rw [none_]
    rfl

theorem todo_suffix (inside : helper.Inside E.length ki) : helper.todo E ki <:+ helper.order E := by
  cases helper with
  | forward => exact List.drop_suffix _ _
  | reverse upperBound => exact List.reverse_suffix.mpr (List.take_prefix _ _)

theorem length_todo_le : (helper.todo E ki).length ≤ E.length := by
  cases helper with
  | forward =>
    show (E.drop _).length ≤ _
    rw [List.length_drop]
    omega
  | reverse upperBound =>
    show (E.take _).reverse.length ≤ _
    rw [List.length_reverse, List.length_take]
    omega

/-! ### Ranks -/

theorem isDuplicate_eq (k : RawKey) (ikey keylenx : Nat) : helper.isDuplicate k ikey keylenx =
    !helper.ahead k.rank (rank ikey keylenx) := by
  cases helper with
  | forward =>
    unfold isDuplicate ahead
    rw [k.compare_eq, ← decide_not]
    exact decide_eq_decide.mpr (not_congr Nat.compare_eq_lt)
  | reverse upperBound =>
    unfold isDuplicate ahead
    rw [k.compare_eq, Bool.eq_iff_iff, decide_eq_true_eq, Ne, Nat.compare_eq_gt]
    cases upperBound <;> simp

theorem ahead_trans {helper : Helper} {a b c : Nat} (first : helper.ahead a b = true) (second : helper.complete.ahead b c = true) :
    helper.ahead a c = true := by
  cases helper with
  | forward =>
    have less := of_decide_eq_true first
    have less' := of_decide_eq_true second
    exact decide_eq_true (Nat.lt_trans less less')
  | reverse upperBound =>
    have less' := of_decide_eq_true ((Bool.false_or _).symm.trans second)
    show (upperBound || decide (c < a)) = true
    change (upperBound || decide (b < a)) = true at first
    rw [Bool.or_eq_true, decide_eq_true_eq] at first ⊢
    exact first.imp id fun less => Nat.lt_trans less' less

/-- Entries in order are each ahead of those before. -/
theorem order_ahead {E : List (Slot V)} (sorted : Increasing E) :
    (helper.order E).Pairwise fun a b => helper.complete.ahead a.rank b.rank = true := by
  cases helper with
  | forward => exact sorted.imp fun less => decide_eq_true less
  | reverse upperBound =>
    refine List.pairwise_reverse.mpr (sorted.imp fun {a b} less => ?_)
    show (false || decide (a.rank < b.rank)) = true
    rw [Bool.false_or]
    exact decide_eq_true less

theorem complete_irrefl (r : Nat) : helper.complete.ahead r r = false := by
  cases helper with
  | forward => exact decide_eq_false (Nat.lt_irrefl r)
  | reverse upperBound =>
    show (false || decide (r < r)) = false
    rw [Bool.false_or]
    exact decide_eq_false (Nat.lt_irrefl r)

theorem complete_asymm {a b : Nat} (before : helper.complete.ahead a b = true) : helper.complete.ahead b a = false := by
  by_contra both
  have self := ahead_trans before (helper.complete_complete.symm ▸ (Bool.not_eq_false _).mp both)
  rw [complete_irrefl] at self
  cases self

/-- What is after an entry is what is ahead of it. -/
theorem filter_ahead {A B : List (Slot V)} {e : Slot V}
    (sorted : (A ++ e :: B).Pairwise fun a b => helper.complete.ahead a.rank b.rank = true) :
    (A ++ e :: B).filter (fun s => helper.complete.ahead e.rank s.rank) = B := by
  obtain ⟨-, right, cross⟩ := List.pairwise_append.mp sorted
  have behind : A.filter (fun s => helper.complete.ahead e.rank s.rank) = [] := by
    refine List.filter_eq_nil_iff.mpr fun a mem => ?_
    rw [complete_asymm _ (cross a mem e List.mem_cons_self)]
    exact Bool.false_ne_true
  rw [List.filter_append, behind, List.nil_append, List.filter_cons_of_neg (by rw [complete_irrefl]; exact Bool.false_ne_true)]
  exact List.filter_eq_self.mpr fun b mem => (List.pairwise_cons.mp right).1 b mem

end Helper

end Masstree.Tree
