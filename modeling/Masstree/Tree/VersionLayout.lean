import Mathlib.Data.BitVec
import Masstree.Tree.Nodeversion

/-!
# Both layouts of a node version

`nodeversion<P>` for the parameters of 32 and of 64 bits. Below the flags of the node lie two counters, which unlocking counts up;
the versions of a run are those of a counter without bound, and what overflows is masked out.
-/

namespace Masstree.Tree

structure NodeversionParameters (w : Nat) where
  lockBit : BitVec w
  insertingBit : BitVec w
  splittingBit : BitVec w
  vinsertLowbit : BitVec w
  vsplitLowbit : BitVec w
  unused1Bit : BitVec w
  deletedBit : BitVec w
  rootBit : BitVec w
  isleafBit : BitVec w
  splitUnlockMask : BitVec w := ~~~(rootBit ||| unused1Bit ||| (vsplitLowbit - 1))
  unlockMask : BitVec w := ~~~(unused1Bit ||| (vinsertLowbit - 1))

def nodeversionParameters32 : NodeversionParameters 32 where
  lockBit := 1 <<< 0
  insertingBit := 1 <<< 1
  splittingBit := 1 <<< 2
  vinsertLowbit := 1 <<< 3
  vsplitLowbit := 1 <<< 9
  unused1Bit := 1 <<< 28
  deletedBit := 1 <<< 29
  rootBit := 1 <<< 30
  isleafBit := 1 <<< 31

def nodeversionParameters64 : NodeversionParameters 64 where
  lockBit := 1 <<< 8
  insertingBit := 1 <<< 9
  splittingBit := 1 <<< 10
  vinsertLowbit := 1 <<< 11
  vsplitLowbit := 1 <<< 27
  unused1Bit := 1 <<< 60
  deletedBit := 1 <<< 61
  rootBit := 1 <<< 62
  isleafBit := 1 <<< 63

inductive VersionOp where
  | lock
  | markInsert
  | markSplit
  | markDeleted
  | markRoot
  | markNonroot
  | unlock
  deriving DecidableEq, Repr

namespace NodeversionParameters

variable {w : Nat} (P : NodeversionParameters w)

/-- `nodeversion(bool isleaf)` -/
def init (isleaf : Bool) : BitVec w := if isleaf then P.isleafBit else 0

def has (v bit : BitVec w) : Bool := v &&& bit ≠ 0

def locked (v : BitVec w) : Bool := has v P.lockBit
def isRoot (v : BitVec w) : Bool := has v P.rootBit
def deleted (v : BitVec w) : Bool := has v P.deletedBit
def isleaf (v : BitVec w) : Bool := has v P.isleafBit
def hasChanged (v x : BitVec w) : Bool := (x ^^^ v) > P.lockBit
def hasSplit (v x : BitVec w) : Bool := (x ^^^ v) ≥ P.vsplitLowbit

def unlock (v : BitVec w) : BitVec w :=
  if has v P.splittingBit then (v + P.vsplitLowbit) &&& P.splitUnlockMask
  else (v + ((v &&& P.insertingBit) <<< 2)) &&& P.unlockMask

def apply (v : BitVec w) : VersionOp → BitVec w
  | .lock => v ||| P.lockBit
  | .markInsert => v ||| P.insertingBit
  | .markSplit => v ||| P.splittingBit
  | .markDeleted => v ||| (P.deletedBit ||| P.splittingBit)
  | .markRoot => v ||| P.rootBit
  | .markNonroot => v &&& ~~~P.rootBit
  | .unlock => P.unlock v

def run (v : BitVec w) (ops : List VersionOp) : BitVec w := ops.foldl P.apply v

end NodeversionParameters

/-- A lock is taken when it is free; every other operation but `mark_root` asserts that it is held. -/
def VersionOp.Allowed (locked : Bool) : VersionOp → Prop
  | .lock => locked = false
  | .markRoot => True
  | _ => locked = true

def NodeversionParameters.Legal {w : Nat} (P : NodeversionParameters w) (v : BitVec w) : List VersionOp → Prop
  | [] => True
  | op :: ops => op.Allowed (P.locked v) ∧ P.Legal (P.apply v op) ops

instance (locked : Bool) (op : VersionOp) : Decidable (op.Allowed locked) :=
  match op with
  | .lock => inferInstanceAs (Decidable (locked = false))
  | .markRoot => .isTrue trivial
  | .markInsert | .markSplit | .markDeleted | .markNonroot | .unlock => inferInstanceAs (Decidable (locked = true))

instance NodeversionParameters.decidableLegal {w : Nat} (P : NodeversionParameters w) (v : BitVec w) :
    (ops : List VersionOp) → Decidable (P.Legal v ops)
  | [] => .isTrue trivial
  | op :: ops =>
    have := P.decidableLegal (P.apply v op) ops
    inferInstanceAs (Decidable (op.Allowed (P.locked v) ∧ P.Legal (P.apply v op) ops))

/-- The version of the tree's nodes has 32 bits. -/
theorem unlock_eq (v : Nodeversion) : nodeversionParameters32.unlock v = v.unlock := rfl

/-! ### Versions with a counter without bound -/

/-- A version whose counter counts the insertions, and a split up to the next multiple of `2 ^ a`. -/
structure Version where
  locked : Bool
  inserting : Bool
  splitting : Bool
  deleted : Bool
  root : Bool
  leaf : Bool
  total : Nat
  deriving DecidableEq, Repr

namespace Version

def init (isleaf : Bool) : Version := ⟨false, false, false, false, false, isleaf, 0⟩

def unlock (a : Nat) (v : Version) : Version :=
  if v.splitting then
    { v with locked := false, inserting := false, splitting := false, root := false, total := (v.total / 2 ^ a + 1) * 2 ^ a }
  else { v with locked := false, inserting := false, total := v.total + v.inserting.toNat }

def apply (a : Nat) (v : Version) : VersionOp → Version
  | .lock => { v with locked := true }
  | .markInsert => { v with inserting := true }
  | .markSplit => { v with splitting := true }
  | .markDeleted => { v with deleted := true, splitting := true }
  | .markRoot => { v with root := true }
  | .markNonroot => { v with root := false }
  | .unlock => v.unlock a

def run (a : Nat) (v : Version) (ops : List VersionOp) : Version := ops.foldl (apply a) v

def Legal (a : Nat) (v : Version) : List VersionOp → Prop
  | [] => True
  | op :: ops => op.Allowed v.locked ∧ (v.apply a op).Legal a ops

end Version

/-! ### Layouts -/

/-- `l` is the position of the lock, `a` the bits of the insert counter and `c` those of both counters. -/
structure Layout {w : Nat} (P : NodeversionParameters w) (l a c : Nat) : Prop where
  width : w = l + 3 + c + 4
  short : a < c
  lockBit : P.lockBit = BitVec.twoPow w l
  insertingBit : P.insertingBit = BitVec.twoPow w (l + 1)
  splittingBit : P.splittingBit = BitVec.twoPow w (l + 2)
  vsplitLowbit : P.vsplitLowbit = BitVec.twoPow w (l + 3 + a)
  deletedBit : P.deletedBit = BitVec.twoPow w (l + 3 + c + 1)
  rootBit : P.rootBit = BitVec.twoPow w (l + 3 + c + 2)
  isleafBit : P.isleafBit = BitVec.twoPow w (l + 3 + c + 3)
  unlockMask : ∀ i < w, P.unlockMask.getLsbD i = decide (l + 3 ≤ i ∧ i ≠ l + 3 + c)
  splitUnlockMask : ∀ i < w, P.splitUnlockMask.getLsbD i = decide (l + 3 + a ≤ i ∧ i ≠ l + 3 + c ∧ i ≠ l + 3 + c + 2)

theorem layout32 : Layout nodeversionParameters32 0 6 25 := by
  constructor <;> decide

theorem layout64 : Layout nodeversionParameters64 8 16 49 := by
  constructor <;> decide

/-! ### The word of a version -/

section Words
variable {w : Nat} {P : NodeversionParameters w} {l a c : Nat} {x y : BitVec w} {v : Version}

/-- The word shows the flags and the lowest bits of the counter. -/
structure Shows (l c : Nat) (x : BitVec w) (v : Version) : Prop where
  low : ∀ i < l, x.getLsbD i = false
  locked : x.getLsbD l = v.locked
  inserting : x.getLsbD (l + 1) = v.inserting
  splitting : x.getLsbD (l + 2) = v.splitting
  counter : ∀ i < c, x.getLsbD (l + 3 + i) = v.total.testBit i
  unused : x.getLsbD (l + 3 + c) = false
  deleted : x.getLsbD (l + 3 + c + 1) = v.deleted
  root : x.getLsbD (l + 3 + c + 2) = v.root
  leaf : x.getLsbD (l + 3 + c + 3) = v.leaf

theorem has_bit (x : BitVec w) {i : Nat} (inside : i < w) : NodeversionParameters.has x (BitVec.twoPow w i) = x.getLsbD i := by
  rw [NodeversionParameters.has, BitVec.and_twoPow]
  have nonzero : BitVec.twoPow w i ≠ 0 := by
    intro zero
    have bit := congrArg (fun y : BitVec w => y.getLsbD i) zero
    simp [inside] at bit
  cases set : x.getLsbD i with
  | true => exact decide_eq_true nonzero
  | false => exact decide_eq_false (not_not.mpr rfl)

/-- A set flag. -/
theorem bit_or (x : BitVec w) {i j : Nat} (inside : i < w) :
    (x ||| BitVec.twoPow w i).getLsbD j = (x.getLsbD j || decide (i = j)) := by
  rw [BitVec.getLsbD_or, BitVec.getLsbD_twoPow, decide_eq_true inside, Bool.true_and]

theorem bits_iff {m t b : Nat} : m / 2 ^ b % 2 ^ c = t % 2 ^ c ↔ ∀ i < c, m.testBit (b + i) = t.testBit i := by
  constructor
  · intro same i lt
    have bit := congrArg (fun n => n.testBit i) same
    simp only [Nat.testBit_mod_two_pow, lt, decide_true, Bool.true_and, Nat.testBit_div_two_pow] at bit
    rwa [Nat.add_comm i b] at bit
  · intro all
    refine Nat.eq_of_testBit_eq fun i => ?_
    rw [Nat.testBit_mod_two_pow, Nat.testBit_mod_two_pow, Nat.testBit_div_two_pow]
    rcases Nat.lt_or_ge i c with lt | ge
    · rw [Nat.add_comm i b, all i lt]
    · rw [decide_eq_false (Nat.not_lt_of_le ge), Bool.false_and, Bool.false_and]

/-- Counting up from bit `b + k` counts the counter at `b` up by `2 ^ k`. -/
theorem counter_add {b k t : Nat} (counter : ∀ i < c, x.getLsbD (b + i) = t.testBit i) (inside : b + c ≤ w) {i : Nat}
    (lt : i < c) : (x + BitVec.twoPow w (b + k)).getLsbD (b + i) = (t + 2 ^ k).testBit i := by
  have now : x.toNat / 2 ^ b % 2 ^ c = t % 2 ^ c := bits_iff.mpr counter
  have power : (BitVec.twoPow w (b + k)).toNat = 2 ^ (b + k) % 2 ^ w := BitVec.toNat_twoPow w (b + k)
  have next : (x.toNat + 2 ^ (b + k)) / 2 ^ b % 2 ^ c = (t + 2 ^ k) % 2 ^ c := by
    rw [Nat.pow_add, Nat.add_mul_div_left _ _ (Nat.two_pow_pos b), Nat.add_mod, now, ← Nat.add_mod]
  have bit := bits_iff.mp next i lt
  have place : b + i < w := by omega
  rw [BitVec.getLsbD, BitVec.toNat_add, power, Nat.add_mod_mod, Nat.testBit_mod_two_pow, decide_eq_true place, Bool.true_and]
  exact bit

/-- It carries into the clear bit above the counter at most. -/
theorem bit_add_above {n k i : Nat} (clear : x.getLsbD n = false) (le : k ≤ n) (above : n < i) (inside : i < w) :
    (x + BitVec.twoPow w k).getLsbD i = x.getLsbD i := by
  have bit : x.toNat / 2 ^ n % 2 = 0 := by
    rw [BitVec.getLsbD, Nat.testBit_eq_decide_div_mod_eq] at clear
    have := of_decide_eq_false clear
    omega
  have low : x.toNat % 2 ^ (n + 1) < 2 ^ n := by
    rw [Nat.mod_pow_succ, bit, Nat.mul_zero, Nat.add_zero]
    exact Nat.mod_lt _ (Nat.two_pow_pos n)
  have power : 2 ^ k ≤ 2 ^ n := Nat.pow_le_pow_right (by decide) le
  have sum : (x.toNat + 2 ^ k) / 2 ^ (n + 1) = x.toNat / 2 ^ (n + 1) := by
    have small : x.toNat % 2 ^ (n + 1) + 2 ^ k < 2 ^ (n + 1) := by
      have double : 2 ^ (n + 1) = 2 ^ n * 2 := Nat.pow_succ 2 n
      omega
    conv_lhs => rw [← Nat.div_add_mod x.toNat (2 ^ (n + 1)), Nat.add_assoc]
    rw [Nat.mul_add_div (Nat.two_pow_pos _), Nat.div_eq_of_lt small, Nat.add_zero]
  obtain ⟨j, rfl⟩ := Nat.exists_eq_add_of_le' above
  rw [BitVec.getLsbD, BitVec.getLsbD, BitVec.toNat_add, BitVec.toNat_twoPow, Nat.add_mod_mod, Nat.testBit_mod_two_pow,
    decide_eq_true inside, Bool.true_and, ← Nat.testBit_div_two_pow, ← Nat.testBit_div_two_pow, sum]

/-! ### Each operation on the word -/

variable (L : Layout P l a c)
include L

theorem shows_init (leaf : Bool) : Shows l c (P.init leaf) (.init leaf) := by
  have width := L.width
  have bits : ∀ i, (P.init leaf).getLsbD i = (leaf && decide (i = l + 3 + c + 3)) := by
    intro i
    unfold NodeversionParameters.init
    rw [L.isleafBit]
    cases leaf with
    | true =>
      rw [if_pos rfl, BitVec.getLsbD_twoPow, decide_eq_true (by omega), Bool.true_and, Bool.true_and]
      exact decide_eq_decide.mpr eq_comm
    | false => exact BitVec.getLsbD_zero
  constructor <;> intros <;> simp only [bits, Version.init, Nat.zero_testBit] <;> grind

omit L in
/-- A flag that is set, of those at and above the lock. -/
theorem Shows.flag {i : Nat} (shows_ : Shows l c x v) (outside : i < l + 3 ∨ l + 3 + c < i) (inside : i < w) (above : l ≤ i) :
    Shows l c (x ||| BitVec.twoPow w i)
      { locked := v.locked || decide (i = l), inserting := v.inserting || decide (i = l + 1),
        splitting := v.splitting || decide (i = l + 2), deleted := v.deleted || decide (i = l + 3 + c + 1),
        root := v.root || decide (i = l + 3 + c + 2), leaf := v.leaf || decide (i = l + 3 + c + 3), total := v.total } := by
  constructor
  · intro j lt
    rw [bit_or x inside, shows_.low j lt, decide_eq_false (by omega), Bool.or_false]
  · rw [bit_or x inside, shows_.locked]
  · rw [bit_or x inside, shows_.inserting]
  · rw [bit_or x inside, shows_.splitting]
  · intro j lt
    rw [bit_or x inside, shows_.counter j lt, decide_eq_false (by omega), Bool.or_false]
  · rw [bit_or x inside, shows_.unused, decide_eq_false (by omega), Bool.or_false]
  · rw [bit_or x inside, shows_.deleted]
  · rw [bit_or x inside, shows_.root]
  · rw [bit_or x inside, shows_.leaf]

theorem Shows.mark (shows_ : Shows l c x v) (op : VersionOp) (mark : op ≠ .unlock) : Shows l c (P.apply x op) (v.apply a op) := by
  have width := L.width
  cases op with
  | lock =>
    rw [NodeversionParameters.apply, L.lockBit]
    have set := shows_.flag (i := l) (by omega) (by omega) (by omega)
    simp (disch := omega) only [decide_true, decide_eq_false, Bool.or_true, Bool.or_false] at set
    exact set
  | markInsert =>
    rw [NodeversionParameters.apply, L.insertingBit]
    have set := shows_.flag (i := l + 1) (by omega) (by omega) (by omega)
    simp (disch := omega) only [decide_true, decide_eq_false, Bool.or_true, Bool.or_false] at set
    exact set
  | markSplit =>
    rw [NodeversionParameters.apply, L.splittingBit]
    have set := shows_.flag (i := l + 2) (by omega) (by omega) (by omega)
    simp (disch := omega) only [decide_true, decide_eq_false, Bool.or_true, Bool.or_false] at set
    exact set
  | markDeleted =>
    rw [NodeversionParameters.apply, L.deletedBit, L.splittingBit, ← BitVec.or_assoc]
    have set := (shows_.flag (i := l + 3 + c + 1) (by omega) (by omega) (by omega)).flag (i := l + 2) (by omega) (by omega) (by omega)
    simp (disch := omega) only [decide_true, decide_eq_false, Bool.or_true, Bool.or_false] at set
    exact set
  | markRoot =>
    rw [NodeversionParameters.apply, L.rootBit]
    have set := shows_.flag (i := l + 3 + c + 2) (by omega) (by omega) (by omega)
    simp (disch := omega) only [decide_true, decide_eq_false, Bool.or_true, Bool.or_false] at set
    exact set
  | markNonroot =>
    have bit : ∀ j < w, j ≠ l + 3 + c + 2 → (P.apply x .markNonroot).getLsbD j = x.getLsbD j := by
      intro j inside other
      rw [NodeversionParameters.apply, L.rootBit, BitVec.getLsbD_and, BitVec.getLsbD_not, BitVec.getLsbD_twoPow]
      simp [inside, Ne.symm other]
    constructor
    · intro j lt
      rw [bit j (by omega) (by omega), shows_.low j lt]
    · rw [bit _ (by omega) (by omega), shows_.locked]
      rfl
    · rw [bit _ (by omega) (by omega), shows_.inserting]
      rfl
    · rw [bit _ (by omega) (by omega), shows_.splitting]
      rfl
    · intro j lt
      rw [bit _ (by omega) (by omega), shows_.counter j lt]
      rfl
    · rw [bit _ (by omega) (by omega), shows_.unused]
    · rw [bit _ (by omega) (by omega), shows_.deleted]
      rfl
    · rw [NodeversionParameters.apply, L.rootBit, BitVec.getLsbD_and, BitVec.getLsbD_not, BitVec.getLsbD_twoPow]
      simp [Version.apply]
    · rw [bit _ (by omega) (by omega), shows_.leaf]
      rfl
  | unlock => exact absurd rfl mark

theorem Shows.unlock (shows_ : Shows l c x v) : Shows l c (P.unlock x) (v.unlock a) := by
  have width := L.width
  have short := L.short
  have split : NodeversionParameters.has x P.splittingBit = v.splitting := by
    rw [L.splittingBit, has_bit x (by omega), shows_.splitting]
  unfold NodeversionParameters.unlock Version.unlock
  rw [split]
  split
  · have bit : ∀ j < w, ((x + P.vsplitLowbit) &&& P.splitUnlockMask).getLsbD j =
        ((x + BitVec.twoPow w (l + 3 + a)).getLsbD j && decide (l + 3 + a ≤ j ∧ j ≠ l + 3 + c ∧ j ≠ l + 3 + c + 2)) := by
      intro j inside
      rw [BitVec.getLsbD_and, L.splitUnlockMask j inside, L.vsplitLowbit]
    have above : ∀ j, l + 3 + c < j → j < w → (x + BitVec.twoPow w (l + 3 + a)).getLsbD j = x.getLsbD j :=
      fun j high inside => bit_add_above shows_.unused (by omega) high inside
    constructor
    · intro j lt
      rw [bit j (by omega), decide_eq_false (by omega), Bool.and_false]
    · rw [bit _ (by omega), decide_eq_false (by omega), Bool.and_false]
    · rw [bit _ (by omega), decide_eq_false (by omega), Bool.and_false]
    · rw [bit _ (by omega), decide_eq_false (by omega), Bool.and_false]
    · intro j lt
      have up : (v.total / 2 ^ a + 1) * 2 ^ a = 2 ^ a * ((v.total + 2 ^ a) / 2 ^ a) := by
        rw [Nat.add_div_right _ (Nat.two_pow_pos a), Nat.mul_comm]
      rw [bit _ (by omega), counter_add shows_.counter (by omega) lt]
      show _ = ((v.total / 2 ^ a + 1) * 2 ^ a).testBit j
      rw [up, Nat.testBit_two_pow_mul, Nat.testBit_div_two_pow]
      rcases Nat.lt_or_ge j a with below | ge
      · rw [decide_eq_false (by omega), decide_eq_false (by omega), Bool.and_false, Bool.false_and]
      · rw [decide_eq_true (by omega), decide_eq_true (by omega), Bool.and_true, Bool.true_and, Nat.sub_add_cancel ge]
    · rw [bit _ (by omega), decide_eq_false (by omega), Bool.and_false]
    · rw [bit _ (by omega), above _ (by omega) (by omega), shows_.deleted, decide_eq_true (by omega), Bool.and_true]
    · rw [bit _ (by omega), decide_eq_false (by omega), Bool.and_false]
    · rw [bit _ (by omega), above _ (by omega) (by omega), shows_.leaf, decide_eq_true (by omega), Bool.and_true]
  · rename_i clean
    have step : (x + ((x &&& P.insertingBit) <<< 2)) = if v.inserting then x + BitVec.twoPow w (l + 3 + 0) else x := by
      rw [L.insertingBit, BitVec.and_twoPow, shows_.inserting]
      cases v.inserting with
      | true =>
        rw [if_pos rfl, if_pos rfl, BitVec.twoPow_eq, ← BitVec.shiftLeft_add, BitVec.twoPow_eq]
      | false =>
        rw [if_neg Bool.false_ne_true, if_neg Bool.false_ne_true, BitVec.zero_shiftLeft, BitVec.add_zero]
    have bit : ∀ j < w, ((x + ((x &&& P.insertingBit) <<< 2)) &&& P.unlockMask).getLsbD j =
        ((if v.inserting then x + BitVec.twoPow w (l + 3 + 0) else x).getLsbD j && decide (l + 3 ≤ j ∧ j ≠ l + 3 + c)) := by
      intro j inside
      rw [step, BitVec.getLsbD_and, L.unlockMask j inside]
    have above : ∀ j, l + 3 + c < j → j < w →
        (if v.inserting then x + BitVec.twoPow w (l + 3 + 0) else x).getLsbD j = x.getLsbD j := by
      intro j high inside
      split
      · exact bit_add_above shows_.unused (by omega) high inside
      · rfl
    constructor
    · intro j lt
      rw [bit j (by omega), decide_eq_false (by omega), Bool.and_false]
    · rw [bit _ (by omega), decide_eq_false (by omega), Bool.and_false]
    · rw [bit _ (by omega), decide_eq_false (by omega), Bool.and_false]
    · rw [bit _ (by omega), decide_eq_false (by omega), Bool.and_false]
      exact (Bool.eq_false_iff.mpr clean).symm
    · intro j lt
      rw [bit _ (by omega), decide_eq_true (by omega), Bool.and_true]
      show _ = (v.total + v.inserting.toNat).testBit j
      cases v.inserting with
      | true => exact counter_add shows_.counter (by omega) lt
      | false => exact shows_.counter j lt
    · rw [bit _ (by omega), decide_eq_false (by omega), Bool.and_false]
    · rw [bit _ (by omega), above _ (by omega) (by omega), shows_.deleted, decide_eq_true (by omega), Bool.and_true]
    · rw [bit _ (by omega), above _ (by omega) (by omega), shows_.root, decide_eq_true (by omega), Bool.and_true]
    · rw [bit _ (by omega), above _ (by omega) (by omega), shows_.leaf, decide_eq_true (by omega), Bool.and_true]

theorem Shows.apply (shows_ : Shows l c x v) (op : VersionOp) : Shows l c (P.apply x op) (v.apply a op) := by
  rcases eq_or_ne op .unlock with rfl | mark
  · exact shows_.unlock L
  · exact shows_.mark L op mark

theorem Shows.run (shows_ : Shows l c x v) (ops : List VersionOp) : Shows l c (P.run x ops) (v.run a ops) := by
  induction ops generalizing x v with
  | nil => exact shows_
  | cons op ops ih => exact ih (shows_.apply L op)

theorem Shows.locked_eq (shows_ : Shows l c x v) : P.locked x = v.locked := by
  have width := L.width
  rw [NodeversionParameters.locked, L.lockBit, has_bit x (by omega), shows_.locked]

theorem Shows.legal (shows_ : Shows l c x v) {ops : List VersionOp} : P.Legal x ops ↔ v.Legal a ops := by
  induction ops generalizing x v with
  | nil => exact Iff.rfl
  | cons op ops ih =>
    unfold NodeversionParameters.Legal Version.Legal
    rw [shows_.locked_eq L, ih (shows_.apply L op)]

/-- Without a lock held, the word differs from another in what the version shows. -/
theorem Shows.eq_iff {u : Version} (hx : Shows l c x v) (hy : Shows l c y u) : x = y ↔
    v.locked = u.locked ∧ v.inserting = u.inserting ∧ v.splitting = u.splitting ∧ v.deleted = u.deleted ∧ v.root = u.root ∧
      v.leaf = u.leaf ∧ v.total % 2 ^ c = u.total % 2 ^ c := by
  have width := L.width
  have totals : v.total % 2 ^ c = u.total % 2 ^ c ↔ ∀ i < c, v.total.testBit i = u.total.testBit i := by
    have := bits_iff (c := c) (m := v.total) (t := u.total) (b := 0)
    rwa [Nat.pow_zero, Nat.div_one, forall_congr' fun i => by rw [Nat.zero_add]] at this
  rw [totals]
  constructor
  · rintro rfl
    refine ⟨?_, ?_, ?_, ?_, ?_, ?_, fun i lt => ?_⟩
    · rw [← hx.locked, hy.locked]
    · rw [← hx.inserting, hy.inserting]
    · rw [← hx.splitting, hy.splitting]
    · rw [← hx.deleted, hy.deleted]
    · rw [← hx.root, hy.root]
    · rw [← hx.leaf, hy.leaf]
    · rw [← hx.counter i lt, hy.counter i lt]
  · rintro ⟨locked, inserting, splitting, deleted, root, leaf, counter⟩
    refine BitVec.eq_of_getLsbD_eq fun i inside => ?_
    have cases_ : i < l ∨ i = l ∨ i = l + 1 ∨ i = l + 2 ∨ (∃ j < c, i = l + 3 + j) ∨ i = l + 3 + c ∨ i = l + 3 + c + 1 ∨
        i = l + 3 + c + 2 ∨ i = l + 3 + c + 3 := by
      rcases Nat.lt_or_ge i (l + 3) with low | high
      · omega
      · rcases Nat.lt_or_ge i (l + 3 + c) with counter | flags
        · exact .inr (.inr (.inr (.inr (.inl ⟨i - (l + 3), by omega, by omega⟩))))
        · omega
    rcases cases_ with low | rfl | rfl | rfl | ⟨j, lt, rfl⟩ | rfl | rfl | rfl | rfl
    · rw [hx.low i low, hy.low i low]
    · rw [hx.locked, hy.locked, locked]
    · rw [hx.inserting, hy.inserting, inserting]
    · rw [hx.splitting, hy.splitting, splitting]
    · rw [hx.counter j lt, hy.counter j lt, counter j lt]
    · rw [hx.unused, hy.unused]
    · rw [hx.deleted, hy.deleted, deleted]
    · rw [hx.root, hy.root, root]
    · rw [hx.leaf, hy.leaf, leaf]

def Version.Stable (v : Version) : Prop := v.locked = false ∧ v.inserting = false ∧ v.splitting = false

theorem Shows.hasChanged_iff {u : Version} (hx : Shows l c x v) (hy : Shows l c y u) (stable : v.Stable) (stable' : u.Stable) :
    P.hasChanged y x = true ↔ x ≠ y := by
  have width := L.width
  obtain ⟨locked, inserting, splitting⟩ := stable
  obtain ⟨locked', inserting', splitting'⟩ := stable'
  have low : ∀ i < l + 3, (x ^^^ y).getLsbD i = false := by
    intro i lt
    rw [BitVec.getLsbD_xor]
    rcases Nat.lt_or_ge i l with below | ge
    · rw [hx.low i below, hy.low i below]
      rfl
    · have flag : i = l ∨ i = l + 1 ∨ i = l + 2 := by omega
      rcases flag with rfl | rfl | rfl
      · rw [hx.locked, hy.locked, locked, locked']
        rfl
      · rw [hx.inserting, hy.inserting, inserting, inserting']
        rfl
      · rw [hx.splitting, hy.splitting, splitting, splitting']
        rfl
  rw [NodeversionParameters.hasChanged, L.lockBit, decide_eq_true_eq, gt_iff_lt, BitVec.lt_def, BitVec.toNat_twoPow_of_lt (by omega)]
  constructor
  · rintro more rfl
    rw [BitVec.xor_self, BitVec.toNat_ofNat, Nat.zero_mod] at more
    exact absurd more (Nat.not_lt_zero _)
  · intro differ
    by_contra less
    refine differ (BitVec.xor_eq_zero_iff.mp (BitVec.eq_of_getLsbD_eq fun i inside => ?_))
    rcases Nat.lt_or_ge i (l + 3) with lt | ge
    · rw [low i lt, BitVec.getLsbD_zero]
    · rw [BitVec.getLsbD_zero]
      refine Nat.testBit_lt_two_pow (Nat.lt_of_le_of_lt (Nat.le_of_not_lt less) ?_)
      exact Nat.pow_lt_pow_right (by decide) (by omega)

theorem Shows.hasSplit_of {u : Version} (hx : Shows l c x v) (hy : Shows l c y u)
    (differ : v.total / 2 ^ a % 2 ^ (c - a) ≠ u.total / 2 ^ a % 2 ^ (c - a)) : P.hasSplit y x = true := by
  have width := L.width
  have short := L.short
  rw [NodeversionParameters.hasSplit, L.vsplitLowbit, decide_eq_true_eq, ge_iff_le, BitVec.le_def,
    BitVec.toNat_twoPow_of_lt (by omega)]
  by_contra small
  refine differ (bits_iff.mpr fun i lt => ?_)
  have bit : (x ^^^ y).getLsbD (l + 3 + (a + i)) = false := by
    refine Nat.testBit_lt_two_pow (Nat.lt_of_lt_of_le (Nat.lt_of_not_le small) ?_)
    exact Nat.pow_le_pow_right (by decide) (by omega)
  rw [BitVec.getLsbD_xor, hx.counter _ (by omega), hy.counter _ (by omega)] at bit
  rw [Nat.testBit_div_two_pow, Nat.add_comm i a]
  exact (bne_eq_false_iff_eq.mp bit)

end Words

end Masstree.Tree
