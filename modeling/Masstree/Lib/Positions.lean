import Mathlib.Data.List.Basic
import Mathlib.Data.List.Perm.Basic
import Mathlib.Tactic.Common

/-!
# Changing a list at a position
-/

namespace Positions

variable {α : Type*} {l : List α} {a : α} {i : Nat}

theorem exists_middle (at_ : l[i]? = some a) : ∃ A B, l = A ++ a :: B ∧ A.length = i := by
  obtain ⟨lt, rfl⟩ := List.getElem?_eq_some_iff.mp at_
  refine ⟨l.take i, l.drop (i + 1), ?_, List.length_take_of_le (Nat.le_of_lt lt)⟩
  rw [List.getElem_cons_drop, List.take_append_drop]

theorem insertIdx_middle (A B : List α) (a : α) : (A ++ B).insertIdx A.length a = A ++ a :: B := by
  induction A with
  | nil => rfl
  | cons b A ih => exact congrArg (List.cons b) ih

theorem modify_middle (A : List α) (a : α) (B : List α) (f : α → α) :
    (A ++ a :: B).modify A.length f = A ++ f a :: B := by
  induction A with
  | nil => rfl
  | cons b A ih => exact congrArg (List.cons b) ih

theorem set_middle (A : List α) (a : α) (B : List α) (b : α) : (A ++ a :: B).set A.length b = A ++ b :: B := by
  rw [List.set_append_right _ _ (Nat.le_refl _), Nat.sub_self]
  rfl

theorem eraseIdx_middle (A : List α) (a : α) (B : List α) : (A ++ a :: B).eraseIdx A.length = A ++ B := by
  rw [List.eraseIdx_append_of_length_le (Nat.le_refl _), Nat.sub_self]
  rfl

/-- The parts around a position, of a list with one more item. -/
theorem insertIdx_parts {mid : Nat} (a : α) (le : i ≤ l.length) (inside : mid ≤ l.length) :
    if i < mid then (l.insertIdx i a).take mid = (l.take (mid - 1)).insertIdx i a ∧
        (l.insertIdx i a)[mid]? = l[mid - 1]? ∧ (l.insertIdx i a).drop (mid + 1) = l.drop mid
    else if i = mid then (l.insertIdx i a).take mid = l.take mid ∧
        (l.insertIdx i a)[mid]? = some a ∧ (l.insertIdx i a).drop (mid + 1) = l.drop mid
    else (l.insertIdx i a).take mid = l.take mid ∧ (l.insertIdx i a)[mid]? = l[mid]? ∧
        (l.insertIdx i a).drop (mid + 1) = (l.drop (mid + 1)).insertIdx (i - (mid + 1)) a := by
  split
  · refine ⟨List.ext_getElem? fun j => ?_, ?_, List.ext_getElem? fun j => ?_⟩ <;> grind
  · split
    · refine ⟨List.ext_getElem? fun j => ?_, ?_, List.ext_getElem? fun j => ?_⟩ <;> grind
    · refine ⟨List.ext_getElem? fun j => ?_, ?_, List.ext_getElem? fun j => ?_⟩ <;> grind

/-- The halves at a position, of a list with one more item. -/
theorem insertIdx_halves {mid : Nat} (a : α) (le : i ≤ l.length) (inside : mid ≤ l.length) :
    if i < mid then (l.insertIdx i a).take mid = (l.take (mid - 1)).insertIdx i a ∧ (l.insertIdx i a).drop mid = l.drop (mid - 1)
    else (l.insertIdx i a).take mid = l.take mid ∧ (l.insertIdx i a).drop mid = (l.drop mid).insertIdx (i - mid) a := by
  split
  · refine ⟨List.ext_getElem? fun j => ?_, List.ext_getElem? fun j => ?_⟩ <;> grind
  · refine ⟨List.ext_getElem? fun j => ?_, List.ext_getElem? fun j => ?_⟩ <;> grind

/-! ### Moving an item -/

/-- The item at position `i` moved to position `j`, those between closing the gap. -/
def moveTo (l : List α) (i j : Nat) : List α := (l[i]?.map ((l.eraseIdx i).insertIdx j)).getD l

/-- Where the item at `k` was before the move. -/
def source (i j k : Nat) : Nat :=
  if k = j then i else if j < k ∧ k ≤ i then k - 1 else if i ≤ k ∧ k < j then k + 1 else k

theorem moveTo_eq {j : Nat} (at_ : l[i]? = some a) : moveTo l i j = (l.eraseIdx i).insertIdx j a := by
  rw [moveTo, at_]
  rfl

theorem getElem?_moveTo {j : Nat} (hi : i < l.length) (hj : j < l.length) (k : Nat) : (moveTo l i j)[k]? = l[source i j k]? := by
  have at_ := List.getElem?_eq_getElem hi
  rw [moveTo_eq at_, List.getElem?_insertIdx, List.getElem?_eraseIdx, List.getElem?_eraseIdx, List.length_eraseIdx_of_lt hi]
  unfold source
  rcases Nat.lt_trichotomy k j with before | rfl | after
  · simp (disch := omega) only [if_pos, if_neg]
    split_ifs <;> first | omega | rfl
  · simp (disch := omega) only [if_pos, if_neg, if_true, at_]
  · have back : k - 1 + 1 = k := by omega
    simp (disch := omega) only [if_neg, back]
    split_ifs <;> first | omega | rfl

theorem moveTo_perm {j : Nat} (hi : i < l.length) (hj : j < l.length) : (moveTo l i j).Perm l := by
  rw [moveTo_eq (List.getElem?_eq_getElem hi)]
  have inside : j ≤ (l.eraseIdx i).length := by
    rw [List.length_eraseIdx_of_lt hi]
    omega
  exact (List.perm_insertIdx _ _ inside).trans (List.getElem_cons_eraseIdx_perm hi)

end Positions
