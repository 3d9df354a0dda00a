import Mathlib.Data.Nat.Basic
import Mathlib.Data.List.Perm.Basic
import Mathlib.Data.List.Nodup
import Mathlib.Data.List.Range
import Mathlib.Data.List.GetD
import Mathlib.Tactic.Common

/-!
# Permuters

A `kpermuter<15>` word holds a size and the fifteen slots in some order. The slots at positions below the
size are live, in key order; the others are free, and the last of them is the next to be used.
-/

namespace Masstree.Tree

/-- `P::leaf_width` and `P::internode_width`. -/
def width : Nat := 15

structure Permuter where
  live : List Nat
  free : List Nat
  deriving DecidableEq, Repr

namespace Permuter

def size (p : Permuter) : Nat := p.live.length
def slots (p : Permuter) : List Nat := p.live ++ p.free
def get (p : Permuter) (i : Nat) : Nat := p.slots.getD i 0
def back (p : Permuter) : Nat := p.get (width - 1)

def ofSlots (slots : List Nat) (n : Nat) : Permuter := ⟨slots.take n, slots.drop n⟩

def makeSorted (n : Nat) : Permuter := ⟨List.range n, (List.range' n (width - n)).reverse⟩
def makeEmpty : Permuter := makeSorted 0

def setSize (p : Permuter) (n : Nat) : Permuter := ofSlots p.slots n
def insertFromBack (p : Permuter) (i : Nat) : Permuter := ⟨p.live.insertIdx i p.back, p.free.dropLast⟩
def remove (p : Permuter) (i : Nat) : Permuter := ⟨p.live.eraseIdx i, p.get i :: p.free⟩
def removeToBack (p : Permuter) (i : Nat) : Permuter := ⟨p.live.eraseIdx i, p.free ++ [p.get i]⟩

def exchange (p : Permuter) (i j : Nat) : Permuter :=
  ofSlots ((p.slots.set i (p.get j)).set j (p.get i)) p.size

def Wf (p : Permuter) : Prop := p.slots.Perm (List.range width)

/-! ### Reading -/

variable {p : Permuter} {i n : Nat}

theorem Wf.length (wf : p.Wf) : p.live.length + p.free.length = 15 := by
  have len := List.Perm.length_eq wf
  simpa [slots, width] using len

theorem Wf.nodup (wf : p.Wf) : (p.live ++ p.free).Nodup := (List.Perm.nodup_iff wf).mpr List.nodup_range

theorem Wf.live_nodup (wf : p.Wf) : p.live.Nodup := (List.nodup_append.mp wf.nodup).1

theorem Wf.mem_iff (wf : p.Wf) {s : Nat} : s ∈ p.live ∨ s ∈ p.free ↔ s < 15 := by
  rw [← List.mem_append, ← List.mem_range]
  exact List.Perm.mem_iff wf

theorem Wf.not_live (wf : p.Wf) {s : Nat} (mem : s ∈ p.free) : s ∉ p.live :=
  fun live => (List.nodup_append.mp wf.nodup).2.2 s live s mem rfl

theorem Wf.size_le (wf : p.Wf) : p.size ≤ 15 := by
  have := wf.length
  unfold size
  omega

theorem get_live (lt : i < p.live.length) : p.get i = p.live[i] := by
  have bound : i < p.slots.length := by
    rw [slots, List.length_append]
    omega
  rw [get, List.getD_eq_getElem _ _ bound]
  exact List.getElem_append_left lt

theorem get_free (le : p.live.length ≤ i) (lt : i - p.live.length < p.free.length) :
    p.get i = p.free[i - p.live.length] := by
  have bound : i < p.slots.length := by
    rw [slots, List.length_append]
    omega
  rw [get, List.getD_eq_getElem _ _ bound]
  exact List.getElem_append_right le

theorem get_mem_live (lt : i < p.live.length) : p.get i ∈ p.live := by
  rw [get_live lt]
  exact List.getElem_mem lt

theorem Wf.free_ne_nil (wf : p.Wf) (room : p.size < 15) : p.free ≠ [] := by
  intro none
  have len := wf.length
  rw [none, List.length_nil] at len
  unfold size at room
  omega

theorem Wf.back_eq (wf : p.Wf) (room : p.size < 15) : p.back = p.free.getLast (wf.free_ne_nil room) := by
  have len := wf.length
  have le : p.live.length ≤ width - 1 := by
    unfold size at room
    unfold width
    omega
  have lt : width - 1 - p.live.length < p.free.length := by
    unfold size at room
    unfold width
    omega
  rw [back, get_free le lt, List.getLast_eq_getElem]
  congr 1
  unfold width
  omega

theorem Wf.back_free (wf : p.Wf) (room : p.size < 15) : p.back ∈ p.free := by
  rw [wf.back_eq room]
  exact List.getLast_mem _

theorem Wf.back_lt (wf : p.Wf) (room : p.size < 15) : p.back < 15 := wf.mem_iff.mp (.inr (wf.back_free room))

/-! ### The operations keep every slot -/

theorem wf_ofSlots {slots : List Nat} (perm : slots.Perm (List.range width)) (n : Nat) : (ofSlots slots n).Wf := by
  unfold Wf Permuter.slots ofSlots
  rwa [List.take_append_drop]

theorem wf_makeSorted (le : n ≤ 15) : (makeSorted n).Wf := by
  have all : List.range width = List.range n ++ List.range' n (width - n) := by
    have sizes : width = n + (width - n) := (Nat.add_sub_cancel' le).symm
    rw [List.range_eq_range', List.range_eq_range']
    conv_lhs => rw [sizes]
    rw [← List.range'_append_1, Nat.zero_add]
  unfold Wf slots makeSorted
  rw [all]
  exact (List.reverse_perm _).append_left _

theorem Wf.setSize (wf : p.Wf) (n : Nat) : (p.setSize n).Wf := wf_ofSlots wf n

theorem Wf.insertFromBack (wf : p.Wf) (room : p.size < 15) (le : i ≤ p.size) : (p.insertFromBack i).Wf := by
  have last := List.dropLast_concat_getLast (wf.free_ne_nil room)
  have moved : (p.live.insertIdx i p.back ++ p.free.dropLast).Perm (p.back :: (p.live ++ p.free.dropLast)) :=
    (List.perm_insertIdx p.back p.live le).append_right _
  have back : (p.back :: (p.live ++ p.free.dropLast)).Perm (p.live ++ p.free) := by
    rw [← last, ← wf.back_eq room, ← List.append_assoc, List.dropLast_concat]
    exact (List.perm_append_singleton _ _).symm
  exact moved.trans (back.trans wf)

theorem eraseIdx_perm (lt : i < p.live.length) : (p.get i :: p.live.eraseIdx i).Perm p.live := by
  rw [get_live lt]
  exact List.getElem_cons_eraseIdx_perm lt

theorem Wf.remove (wf : p.Wf) (lt : i < p.size) : (p.remove i).Wf :=
  (List.perm_middle.trans ((eraseIdx_perm lt).append_right p.free)).trans wf

theorem Wf.removeToBack (wf : p.Wf) (lt : i < p.size) : (p.removeToBack i).Wf := by
  have moved : (p.live.eraseIdx i ++ (p.free ++ [p.get i])).Perm (p.get i :: p.live.eraseIdx i ++ p.free) := by
    rw [← List.append_assoc]
    exact List.perm_append_singleton _ _
  exact moved.trans (((eraseIdx_perm lt).append_right p.free).trans wf)

theorem Wf.exchange (wf : p.Wf) {i j : Nat} (hi : i < 15) (hj : j < 15) : (p.exchange i j).Wf := by
  have len : p.slots.length = 15 := by
    rw [slots, List.length_append]
    exact wf.length
  refine wf_ofSlots (List.Perm.trans ?_ wf) p.size
  rw [get, get, List.getD_eq_getElem _ _ (by omega), List.getD_eq_getElem _ _ (by omega)]
  exact List.set_set_perm (by omega) (by omega)

/-! ### What they leave where -/

@[simp] theorem size_makeSorted (n : Nat) : (makeSorted n).size = n := List.length_range

@[simp] theorem live_makeSorted (n : Nat) : (makeSorted n).live = List.range n := rfl

@[simp] theorem live_remove (p : Permuter) (i : Nat) : (p.remove i).live = p.live.eraseIdx i := rfl

@[simp] theorem live_removeToBack (p : Permuter) (i : Nat) : (p.removeToBack i).live = p.live.eraseIdx i := rfl

@[simp] theorem live_insertFromBack (p : Permuter) (i : Nat) :
    (p.insertFromBack i).live = p.live.insertIdx i p.back := rfl

theorem live_setSize (le : n ≤ p.size) : (p.setSize n).live = p.live.take n := by
  unfold setSize ofSlots slots
  exact List.take_append_of_le_length le

theorem size_setSize (wf : p.Wf) (le : n ≤ 15) : (p.setSize n).size = n := by
  have len : p.slots.length = 15 := by
    rw [slots, List.length_append]
    exact wf.length
  unfold setSize ofSlots size
  rw [List.length_take, len]
  omega

theorem get_setSize (p : Permuter) (n i : Nat) : (p.setSize n).get i = p.get i := by
  unfold get setSize ofSlots slots
  rw [List.take_append_drop]

theorem Wf.back_removeToBack (wf : p.Wf) (lt : i < p.size) : (p.removeToBack i).back = p.get i := by
  have smaller : (p.removeToBack i).size < 15 := by
    have := wf.size_le
    unfold size
    rw [live_removeToBack, List.length_eraseIdx_of_lt lt]
    unfold size at *
    omega
  rw [(wf.removeToBack lt).back_eq smaller]
  exact List.getLast_concat ..

/-- Exchanging two free positions leaves the live slots. -/
theorem live_exchange {i j : Nat} (hi : p.size ≤ i) (hj : p.size ≤ j) : (p.exchange i j).live = p.live := by
  unfold exchange ofSlots
  rw [List.take_set_of_le hj, List.take_set_of_le hi]
  exact List.take_left

theorem back_exchange (wf : p.Wf) (i : Nat) : (p.exchange i (width - 1)).back = p.get i := by
  have len : p.slots.length = 15 := by
    rw [slots, List.length_append]
    exact wf.length
  have inside : width - 1 < ((p.slots.set i (p.get (width - 1))).set (width - 1) (p.get i)).length := by
    rw [List.length_set, List.length_set, len]
    decide
  have same : (p.exchange i (width - 1)).slots = (p.slots.set i (p.get (width - 1))).set (width - 1) (p.get i) :=
    List.take_append_drop _ _
  rw [back, get, same, List.getD_eq_getElem _ _ inside]
  exact List.getElem_set_self ..

end Permuter

end Masstree.Tree
