import Mathlib.Data.BitVec

/-!
# Node versions

The version word of a node: whether it is locked, being inserted into or split, two counters of the insertions and splits
there have been, and what the node is.
-/

namespace Masstree.Tree

/-- `nodeversion<nodeversion_parameters<uint32_t>>` -/
abbrev Nodeversion := BitVec 32

namespace Nodeversion

def lockBit : Nodeversion := 1 <<< 0
def insertingBit : Nodeversion := 1 <<< 1
def splittingBit : Nodeversion := 1 <<< 2
def vinsertLowbit : Nodeversion := 1 <<< 3
def vsplitLowbit : Nodeversion := 1 <<< 9
def unused1Bit : Nodeversion := 1 <<< 28
def deletedBit : Nodeversion := 1 <<< 29
def rootBit : Nodeversion := 1 <<< 30
def isleafBit : Nodeversion := 1 <<< 31
def splitUnlockMask : Nodeversion := ~~~(rootBit ||| unused1Bit ||| (vsplitLowbit - 1))
def unlockMask : Nodeversion := ~~~(unused1Bit ||| (vinsertLowbit - 1))

def has (v bit : Nodeversion) : Bool := v &&& bit ≠ 0

def lock (v : Nodeversion) : Nodeversion := v ||| lockBit
def markInsert (v : Nodeversion) : Nodeversion := v ||| insertingBit
def markSplit (v : Nodeversion) : Nodeversion := v ||| splittingBit
def markDeleted (v : Nodeversion) : Nodeversion := v ||| (deletedBit ||| splittingBit)
def markRoot (v : Nodeversion) : Nodeversion := v ||| rootBit
def markNonroot (v : Nodeversion) : Nodeversion := v &&& ~~~rootBit

def unlock (v : Nodeversion) : Nodeversion :=
  if v.has splittingBit then (v + vsplitLowbit) &&& splitUnlockMask
  else (v + ((v &&& insertingBit) <<< 2)) &&& unlockMask

def Stable (v : Nodeversion) : Prop := v &&& (vinsertLowbit - 1) = 0

instance (v : Nodeversion) : Decidable v.Stable := inferInstanceAs (Decidable (_ = _))

/-- `vinsert` and above it `vsplit`. -/
def counter (v : Nodeversion) : Nat := (v.extractLsb' 3 25).toNat

theorem counter_eq (v : Nodeversion) : v.counter = v.toNat / 8 % 2 ^ 25 := by
  rw [counter, BitVec.extractLsb'_toNat, Nat.shiftRight_eq_div_pow]

theorem counter_lt (v : Nodeversion) : v.counter < 2 ^ 25 := BitVec.isLt _

theorem counter_congr {v w : Nodeversion} (same : ∀ i < 25, v.getLsbD (3 + i) = w.getLsbD (3 + i)) :
    v.counter = w.counter := by
  unfold counter
  congr 1
  apply BitVec.eq_of_getLsbD_eq
  intro i bound
  rw [BitVec.getLsbD_extractLsb', BitVec.getLsbD_extractLsb', same i bound]

/-- Bits outside the counters. -/
theorem counter_or {v bits : Nodeversion} (outside : ∀ i : Fin 25, bits.getLsbD (3 + i) = false) :
    (v ||| bits).counter = v.counter := by
  apply counter_congr
  intro i bound
  rw [BitVec.getLsbD_or, outside ⟨i, bound⟩, Bool.or_false]

theorem counter_and {v mask : Nodeversion} (inside : ∀ i : Fin 25, mask.getLsbD (3 + i) = true) :
    (v &&& mask).counter = v.counter := by
  apply counter_congr
  intro i bound
  rw [BitVec.getLsbD_and, inside ⟨i, bound⟩, Bool.and_true]

@[simp] theorem counter_lock (v : Nodeversion) : v.lock.counter = v.counter := counter_or (by decide)

@[simp] theorem counter_markInsert (v : Nodeversion) : v.markInsert.counter = v.counter := counter_or (by decide)

@[simp] theorem counter_markSplit (v : Nodeversion) : v.markSplit.counter = v.counter := counter_or (by decide)

@[simp] theorem counter_markDeleted (v : Nodeversion) : v.markDeleted.counter = v.counter := counter_or (by decide)

theorem has_or (v bits bit : Nodeversion) : (v ||| bits).has bit = (v.has bit || bits.has bit) := by
  have split : (v ||| bits) &&& bit = v &&& bit ||| bits &&& bit := by
    ext i
    simp only [BitVec.getElem_and, BitVec.getElem_or, Bool.and_or_distrib_right]
  unfold has
  rw [split, Bool.eq_iff_iff]
  simp only [BitVec.ofNat_eq_ofNat, ne_eq, decide_eq_true_eq, Bool.or_eq_true, BitVec.or_eq_zero_iff, not_and_or]

@[simp] theorem splitting_lock (v : Nodeversion) : v.lock.has splittingBit = v.has splittingBit := by
  rw [lock, has_or, show lockBit.has splittingBit = false by decide, Bool.or_false]

@[simp] theorem splitting_markInsert (v : Nodeversion) : v.markInsert.has splittingBit = v.has splittingBit := by
  rw [markInsert, has_or, show insertingBit.has splittingBit = false by decide, Bool.or_false]

@[simp] theorem splitting_markSplit (v : Nodeversion) : v.markSplit.has splittingBit = true := by
  rw [markSplit, has_or, show splittingBit.has splittingBit = true by decide, Bool.or_true]

@[simp] theorem splitting_markDeleted (v : Nodeversion) : v.markDeleted.has splittingBit = true := by
  rw [markDeleted, has_or, show (deletedBit ||| splittingBit).has splittingBit = true by decide, Bool.or_true]

@[simp] theorem inserting_lock (v : Nodeversion) : v.lock.has insertingBit = v.has insertingBit := by
  rw [lock, has_or, show lockBit.has insertingBit = false by decide, Bool.or_false]

@[simp] theorem inserting_markInsert (v : Nodeversion) : v.markInsert.has insertingBit = true := by
  rw [markInsert, has_or, show insertingBit.has insertingBit = true by decide, Bool.or_true]

@[simp] theorem locked_lock (v : Nodeversion) : v.lock.has lockBit = true := by
  rw [lock, has_or, show lockBit.has lockBit = true by decide, Bool.or_true]

@[simp] theorem locked_markInsert (v : Nodeversion) : v.markInsert.has lockBit = v.has lockBit := by
  rw [markInsert, has_or, show insertingBit.has lockBit = false by decide, Bool.or_false]

@[simp] theorem locked_markSplit (v : Nodeversion) : v.markSplit.has lockBit = v.has lockBit := by
  rw [markSplit, has_or, show splittingBit.has lockBit = false by decide, Bool.or_false]

theorem Stable.has {v : Nodeversion} (stable : v.Stable) {bit : Nodeversion}
    (low : bit = (vinsertLowbit - 1) &&& bit) : v.has bit = false := by
  unfold Nodeversion.has
  rw [low, ← BitVec.and_assoc, stable]
  simp

/-- A mask that leaves out the low bits. -/
theorem stable_and {v mask : Nodeversion} (out : mask &&& (vinsertLowbit - 1) = 0) : (v &&& mask).Stable := by
  unfold Stable
  rw [BitVec.and_assoc, out]
  exact BitVec.and_zero

theorem stable_unlock (v : Nodeversion) : v.unlock.Stable := by
  unfold unlock
  split
  · exact stable_and (by decide)
  · exact stable_and (by decide)

/-- After a split the split counter is one more, and the insert counter zero. -/
theorem counter_unlock_splitting {v : Nodeversion} (splitting : v.has splittingBit = true) :
    v.unlock.counter = (v.counter / 64 + 1) % 2 ^ 19 * 64 := by
  have shifted : ((v + vsplitLowbit) &&& splitUnlockMask).extractLsb' 3 25 = (v + vsplitLowbit).extractLsb' 9 19 ++ 0#6 := by
    apply BitVec.eq_of_getLsbD_eq
    intro i bound
    have mask : ∀ j : Fin 25, splitUnlockMask.getLsbD (3 + j) = decide (6 ≤ j.val) := by decide
    rw [BitVec.getLsbD_extractLsb', BitVec.getLsbD_and, mask ⟨i, bound⟩, BitVec.getLsbD_append]
    by_cases low : i < 6
    · simp [low, Nat.not_le_of_lt low]
    · have high : 3 + i = 9 + (i - 6) := by omega
      have inside : i - 6 < 19 := by omega
      simp only [low, bound, inside, high, Nat.le_of_not_lt low, decide_true, Bool.true_and, Bool.and_true,
        BitVec.getLsbD_extractLsb', if_false]
  have low : vsplitLowbit.toNat = 512 := by decide
  have bits := v.isLt
  rw [unlock, if_pos splitting, counter, shifted, counter_eq, BitVec.toNat_append, BitVec.extractLsb'_toNat, BitVec.toNat_add,
    low, Nat.shiftRight_eq_div_pow, Nat.shiftLeft_eq, BitVec.toNat_ofNat, Nat.zero_mod, Nat.or_zero]
  omega

theorem and_insertingBit (v : Nodeversion) : v &&& insertingBit = if v.has insertingBit then insertingBit else 0 := by
  have power : insertingBit = BitVec.twoPow 32 1 := by decide
  have bit := BitVec.and_twoPow v 1
  rw [← power] at bit
  rw [has, bit]
  by_cases set : v.getLsbD 1 = true
  · rw [if_pos set]
    decide
  · rw [if_neg set]
    decide

/-- After an insertion the insert counter is one more, with its carry. -/
theorem counter_unlock_inserting {v : Nodeversion} (splitting : v.has splittingBit = false)
    (inserting : v.has insertingBit = true) : v.unlock.counter = (v.counter + 1) % 2 ^ 25 := by
  have shifted : insertingBit <<< 2 = 8#32 := by decide
  have bits := v.isLt
  rw [unlock, if_neg (by rw [splitting]; decide), counter_and (by decide), and_insertingBit, if_pos inserting, shifted, counter_eq,
    counter_eq, BitVec.toNat_add, BitVec.toNat_ofNat]
  omega

theorem counter_unlock_clean {v : Nodeversion} (splitting : v.has splittingBit = false)
    (inserting : v.has insertingBit = false) : v.unlock.counter = v.counter := by
  have shifted : (0 : Nodeversion) <<< 2 = 0#32 := by decide
  rw [unlock, if_neg (by rw [splitting]; decide), counter_and (by decide), and_insertingBit, if_neg (by rw [inserting]; decide),
    shifted, BitVec.add_zero]

/-- Every insertion and every split changes the counters. -/
theorem counter_unlock_ne {v : Nodeversion} (dirty : v.has splittingBit = true ∨ v.has insertingBit = true) :
    v.unlock.counter ≠ v.counter := by
  have below := v.counter_lt
  cases splitting : v.has splittingBit with
  | true =>
    rw [counter_unlock_splitting splitting]
    omega
  | false =>
    have inserting := dirty.resolve_left (by rw [splitting]; decide)
    rw [counter_unlock_inserting splitting inserting]
    omega

/-! ### The flags above the counters -/

theorem has_twoPow (v : Nodeversion) {i : Nat} (inside : i < 32) : v.has (BitVec.twoPow 32 i) = v.getLsbD i := by
  rw [has, BitVec.and_twoPow]
  by_cases set : v.getLsbD i = true
  · rw [if_pos set, set]
    apply decide_eq_true
    intro zero
    have bit := congrArg (fun w : Nodeversion => w.getLsbD i) zero
    rw [BitVec.getLsbD_twoPow] at bit
    simp [inside] at bit
  · rw [if_neg set, Bool.eq_false_iff.mpr set]
    decide

/-- A sum carries into `unused1_bit` at most, where that is clear. -/
theorem getLsbD_add_high {v w : Nodeversion} (clear : v.has unused1Bit = false) (small : w.toNat < 2 ^ 28) {i : Nat}
    (high : 29 ≤ i) : (v + w).getLsbD i = v.getLsbD i := by
  have bit : v.getLsbD 28 = false := by
    rw [← has_twoPow v (by decide)]
    exact clear
  have low : v.toNat / 2 ^ 28 % 2 = 0 := by
    rw [BitVec.getLsbD, Nat.testBit_eq_decide_div_mod_eq] at bit
    have := of_decide_eq_false bit
    omega
  have bits := v.isLt
  have sum : (v + w).toNat / 2 ^ 29 = v.toNat / 2 ^ 29 := by
    rw [BitVec.toNat_add]
    omega
  obtain ⟨j, rfl⟩ := Nat.exists_eq_add_of_le' high
  rw [BitVec.getLsbD, BitVec.getLsbD, ← Nat.testBit_div_two_pow, ← Nat.testBit_div_two_pow, sum]

theorem has_and {v mask bit : Nodeversion} (inside : mask &&& bit = bit) : (v &&& mask).has bit = v.has bit := by
  rw [has, has, BitVec.and_assoc, inside]

theorem has_and_out {v mask bit : Nodeversion} (outside : mask &&& bit = 0) : (v &&& mask).has bit = false := by
  rw [has, BitVec.and_assoc, outside]
  exact decide_eq_false (not_not.mpr BitVec.and_zero)

/-- Unlocking leaves `unused1_bit` clear. -/
theorem unused_unlock (v : Nodeversion) : v.unlock.has unused1Bit = false := by
  unfold unlock
  split
  · exact has_and_out (by decide)
  · exact has_and_out (by decide)

theorem inserting_small (v : Nodeversion) : ((v &&& insertingBit) <<< 2).toNat < 2 ^ 28 := by
  rw [and_insertingBit]
  split <;> decide

/-- Unlocking keeps the root flag, but for a split. -/
theorem root_unlock {v : Nodeversion} (clear : v.has unused1Bit = false) :
    v.unlock.has rootBit = (!v.has splittingBit && v.has rootBit) := by
  unfold unlock
  by_cases splitting : v.has splittingBit = true
  · rw [if_pos splitting, splitting, has_and_out (by decide)]
    rfl
  · rw [if_neg splitting, Bool.eq_false_iff.mpr splitting, has_and (by decide)]
    have bit : rootBit = BitVec.twoPow 32 30 := by decide
    rw [bit, has_twoPow _ (by decide), has_twoPow _ (by decide), getLsbD_add_high clear (inserting_small v) (by decide)]
    rfl

theorem deleted_unlock {v : Nodeversion} (clear : v.has unused1Bit = false) :
    v.unlock.has deletedBit = v.has deletedBit := by
  have bit : deletedBit = BitVec.twoPow 32 29 := by decide
  unfold unlock
  split
  · rw [has_and (by decide), bit, has_twoPow _ (by decide), has_twoPow _ (by decide), getLsbD_add_high clear (by decide) (by decide)]
  · rw [has_and (by decide), bit, has_twoPow _ (by decide), has_twoPow _ (by decide),
      getLsbD_add_high clear (inserting_small v) (by decide)]

end Nodeversion

end Masstree.Tree
