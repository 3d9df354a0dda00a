import Masstree.Log.Replay
import Masstree.Tree.Runs
import Mathlib.Data.List.DropRight

/-!
# Pivots

`findpv` walks down to the node that the pivot falls into, where every child of a node has an equal share of the pivots. The
checkpointer asks for one pivot after another. The tables come from runs without suffix bags (see `suffixes_kept_of_short`).
-/

namespace Masstree.Tree
open Msgpack (Bytes)

variable {V : Type}

/-- What a walk must not do: go on at a null child, read what is not occupied, never end. -/
inductive Fault where
  | null
  | outside
  | running
  deriving DecidableEq, Repr

def int (x : Int) : Int := x.bmod (2 ^ 32)

/-- `string_slice::unparse_comparable` into a buffer of the size of the ikey -/
def unparseComparable (ikey : Nat) : Bytes := ((List.range 8).map fun k => UInt8.ofNat (ikey / 256 ^ (7 - k))).rdropWhile (· = 0)

/-- `std::min(std::max(x, 0), last)` -/
def clamp (x last : Int) : Int := min (max x 0) last

section Offset
variable (pvi npv nbranch branchid size : Int)

def totalNkeysEstimate : Int := int (nbranch * size)
def firstPvInNode : Int := int (branchid * size)

def pvOffset : Int :=
  int ((int (pvi * totalNkeysEstimate nbranch size)).tdiv npv - firstPvInNode branchid size)

def pvChild : Int := clamp (pvOffset pvi npv nbranch branchid size) (size - 1)

end Offset

namespace Node

/-- The loop of `findpv`, from a node on the way down. `fuel` bounds the levels. -/
def walk (pvi npv : Int) : Nat → Node (Leaf V) → Int → Int → Except Fault Bytes
  | _, .leaf l, nbranch, branchid =>
    if l.size = 0 then .ok []
    else
      let i := pvChild pvi npv nbranch branchid l.size
      if 0 ≤ i ∧ i < l.size then .ok (unparseComparable (l.slot (l.perm.get i.toNat)).ikey0) else .error .outside
  | 0, .internode _, _, _ => .error .running
  | fuel + 1, .internode p, nbranch, branchid =>
    let size : Int := p.size + 1
    let total := totalNkeysEstimate nbranch size
    if total < npv then
      let i := pvChild pvi npv nbranch branchid size
      if 0 ≤ i ∧ i < size then
        match p.child i.toNat with
        | none => .error .null
        | some n => walk pvi npv fuel n total (int (firstPvInNode branchid size + i))
      else .error .outside
    else
      let i := clamp (pvOffset pvi npv nbranch branchid size) (size - 1 - 1)
      if 0 ≤ i ∧ i < p.size then .ok (unparseComparable ((p.ikey i.toNat).getD 0)) else .error .outside

/-- `findpv` from a layer's true root on -/
def findpv (root : Node (Leaf V)) (pvi npv : Int) : Except Fault Bytes := root.walk pvi npv root.height 1 0

end Node

/-- `query_table::findpivots`, the string for each `pv[i]` -/
def Table.findpivots (t : Table V) (npv : Nat) : Except Fault (List Bytes) :=
  (List.range npv).mapM fun i =>
    if i = npv - 1 then .ok (List.replicate maxKeyLen 255)
    else if i = 0 then .ok []
    else (t.layers []).elim (.error .null) fun root => root.findpv i (npv - 1 : Nat)

/-! ### The way of a walk -/

/-- The walk for the pivot comes to the node, one of `nbranch` branches, of which `branchid` are before it. -/
inductive Node.Comes (root : Node (Leaf V)) (pvi npv : Int) : Node (Leaf V) → Int → Int → Prop
  | root : Comes root pvi npv root 1 0
  | down {p : Internode (Node (Leaf V))} {nbranch branchid : Int} {n : Node (Leaf V)} :
    Comes root pvi npv (.internode p) nbranch branchid → totalNkeysEstimate nbranch (p.size + 1) < npv →
      p.child (pvChild pvi npv nbranch branchid (p.size + 1)).toNat = some n →
        Comes root pvi npv n (totalNkeysEstimate nbranch (p.size + 1))
          (int (firstPvInNode branchid (p.size + 1) + pvChild pvi npv nbranch branchid (p.size + 1)))

/-- Where the walk goes on at `child_[0]`, there is one. -/
def Node.Clear (root : Node (Leaf V)) (pvi npv : Int) : Prop :=
  ∀ p nbranch branchid, root.Comes pvi npv (.internode p) nbranch branchid →
    totalNkeysEstimate nbranch (p.size + 1) < npv → pvChild pvi npv nbranch branchid (p.size + 1) = 0 → p.first.isSome

variable {root n m : Node (Leaf V)} {p : Internode (Node (Leaf V))} {pvi npv nbranch branchid : Int} {lo hi fuel : Nat}

theorem int_int (x : Int) : int (int x) = int x := Int.bmod_bmod

theorem pvChild_bounds {size : Int} (some_ : 0 < size) :
    0 ≤ pvChild pvi npv nbranch branchid size ∧ pvChild pvi npv nbranch branchid size < size := by
  unfold pvChild clamp
  omega

/-- What is known of `nbranch` on the way down. -/
def Few (npv nbranch : Int) : Prop := nbranch < npv ∧ int nbranch = nbranch

theorem Few.total {size : Int} (fewer : totalNkeysEstimate nbranch size < npv) : Few npv (totalNkeysEstimate nbranch size) :=
  ⟨fewer, int_int _⟩

/-- An internode without keys is passed. -/
theorem Few.size_pos (few : Few npv nbranch) (many : ¬totalNkeysEstimate nbranch (p.size + 1) < npv) : 0 < p.size := by
  by_contra none_
  have alone : (p.size : Int) + 1 = 1 := by omega
  rw [alone, totalNkeysEstimate, Int.mul_one, few.2] at many
  exact many few.1

theorem walk_down (few : Few npv nbranch) :
    (Node.internode p).walk pvi npv (fuel + 1) nbranch branchid =
      if totalNkeysEstimate nbranch (p.size + 1) < npv then
        match p.child (pvChild pvi npv nbranch branchid (p.size + 1)).toNat with
        | none => .error .null
        | some n => n.walk pvi npv fuel (totalNkeysEstimate nbranch (p.size + 1))
            (int (firstPvInNode branchid (p.size + 1) + pvChild pvi npv nbranch branchid (p.size + 1)))
      else .ok (unparseComparable ((p.ikey (clamp (pvOffset pvi npv nbranch branchid (p.size + 1)) (p.size + 1 - 1 - 1)).toNat).getD
      0)) := by
  rw [Node.walk]
  dsimp only
  by_cases fewer : totalNkeysEstimate nbranch (p.size + 1) < npv
  · rw [if_pos fewer, if_pos fewer, if_pos (pvChild_bounds (by omega))]
  · have some_ := few.size_pos fewer
    rw [if_neg fewer, if_neg fewer, if_pos]
    unfold clamp
    omega

theorem walk_leaf (l : Leaf V) : ∃ key, (Node.leaf l).walk pvi npv fuel nbranch branchid = .ok key := by
  unfold Node.walk
  dsimp only
  split
  · exact ⟨_, rfl⟩
  · rw [if_pos (pvChild_bounds (by omega))]
    exact ⟨_, rfl⟩

/-- The walk goes on as it does from any node that it comes to. -/
theorem Node.Comes.findpv (comes : root.Comes pvi npv n nbranch branchid) (sound : root.Sound) (some_ : Few npv 1) :
    Few npv nbranch ∧ (∃ lo hi, n.Wf Leaf.Holds lo hi) ∧
      ∃ fuel, n.height ≤ fuel ∧ root.findpv pvi npv = n.walk pvi npv fuel nbranch branchid := by
  induction comes with
  | root => exact ⟨some_, ⟨_, _, sound⟩, root.height, Nat.le_refl _, rfl⟩
  | @down p nbranch branchid n _ fewer child ih =>
    obtain ⟨few, ⟨lo, hi, wf⟩, fuel, enough, walked⟩ := ih
    obtain ⟨lo', hi', -, -, wf', lower, -⟩ := wf.child child
    obtain ⟨fuel, rfl⟩ : ∃ k, fuel = k + 1 := Nat.exists_eq_add_one.mpr (Nat.lt_of_lt_of_le (Nat.zero_lt_of_lt lower) enough)
    refine ⟨Few.total fewer, ⟨lo', hi', wf'⟩, fuel, Nat.le_of_lt_succ (Nat.lt_of_lt_of_le lower enough), ?_⟩
    rw [walked, walk_down few, if_pos fewer, child]

/-- A walk ends with a pivot, or at a null child. -/
theorem Node.Comes.walk_cases (comes : root.Comes pvi npv n nbranch branchid) (sound : root.Sound) (some_ : Few npv 1)
    (enough : n.height ≤ fuel) : (∃ key, n.walk pvi npv fuel nbranch branchid = .ok key) ∨
      n.walk pvi npv fuel nbranch branchid = .error .null ∧ ¬root.Clear pvi npv := by
  induction fuel generalizing n nbranch branchid with
  | zero =>
    cases n with
    | leaf l => exact .inl (walk_leaf l)
    | internode p =>
      obtain ⟨-, ⟨lo, hi, wf⟩, -⟩ := comes.findpv sound some_
      exact absurd wf.height_pos (Nat.not_lt_of_le enough)
  | succ fuel ih =>
    cases n with
    | leaf l => exact .inl (walk_leaf l)
    | internode p =>
      obtain ⟨few, ⟨lo, hi, wf⟩, -⟩ := comes.findpv sound some_
      rw [walk_down few]
      split
      · rename_i fewer
        have bounds : 0 ≤ pvChild pvi npv nbranch branchid (p.size + 1) ∧ pvChild pvi npv nbranch branchid (p.size + 1) < p.size + 1 :=
          pvChild_bounds (by omega)
        cases child : p.child (pvChild pvi npv nbranch branchid (p.size + 1)).toNat with
        | none =>
          refine .inr ⟨rfl, fun clear => ?_⟩
          have there : (p.child (pvChild pvi npv nbranch branchid (p.size + 1)).toNat).isSome :=
            Internode.child_isSome (by omega) fun zero => clear p nbranch branchid comes fewer (by omega)
          rw [child] at there
          cases there
        | some m =>
          obtain ⟨-, -, -, -, -, lower, -⟩ := wf.child child
          exact ih (.down comes fewer child) (Nat.le_of_lt_succ (Nat.lt_of_lt_of_le lower enough))
      · exact .inl ⟨_, rfl⟩

theorem findpv_iff_clear (sound : root.Sound) (some_ : Few npv 1) : (∃ key, root.findpv pvi npv = .ok key) ↔ root.Clear pvi npv := by
  constructor
  · rintro ⟨key, found⟩ p nbranch branchid comes fewer zero
    by_contra null
    obtain ⟨few, ⟨lo, hi, wf⟩, fuel, enough, walked⟩ := comes.findpv sound some_
    obtain ⟨fuel, rfl⟩ : ∃ k, fuel = k + 1 := Nat.exists_eq_add_one.mpr (Nat.lt_of_lt_of_le wf.height_pos enough)
    have child : p.child (0 : Int).toNat = none := Option.not_isSome_iff_eq_none.mp null
    rw [walked, walk_down few, if_pos fewer, zero, child] at found
    cases found
  · intro clear
    have start : root.Comes pvi npv root 1 0 := .root
    rcases start.walk_cases sound some_ (Nat.le_refl root.height) with found | ⟨-, blocked⟩
    · exact found
    · exact absurd clear blocked

theorem findpv_fault (sound : root.Sound) (some_ : Few npv 1) {fault : Fault} (failed : root.findpv pvi npv = .error fault) :
    fault = .null := by
  have start : root.Comes pvi npv root 1 0 := .root
  rcases start.walk_cases sound some_ (Nat.le_refl root.height) with ⟨key, found⟩ | ⟨null, -⟩
  · cases failed.symm.trans found
  · exact (Except.error.inj (failed.symm.trans null))

/-! ### Equal shares -/

/-- The node is branch `b` of `B`, where every node on the way counts all of its children. -/
inductive Node.Counted (root : Node (Leaf V)) : Node (Leaf V) → Nat → Nat → Prop
  | root : Counted root root 1 0
  | child {p : Internode (Node (Leaf V))} {B b k : Nat} {n : Node (Leaf V)} :
    Counted root (.internode p) B b → p.child k = some n → Counted root n (B * (p.size + 1)) (b * (p.size + 1) + k)

theorem Node.Counted.lt {B b : Nat} (counted : root.Counted n B b) : b < B := by
  induction counted with
  | root => exact Nat.one_pos
  | @child p B b k n _ child ih =>
    have inside := Internode.child_le (Option.isSome_of_eq_some child)
    calc b * (p.size + 1) + k < (b + 1) * (p.size + 1) := by rw [Nat.succ_mul]; omega
      _ ≤ B * (p.size + 1) := Nat.mul_le_mul_right _ ih

/-- The first of all branches begins where the layer does. -/
theorem Node.Counted.wf {B b : Nat} (counted : root.Counted n B b) (sound : root.Sound) :
    ∃ lo hi, n.Wf Leaf.Holds lo hi ∧ (b = 0 → lo = 0) := by
  induction counted with
  | root => exact ⟨_, _, sound, fun _ => rfl⟩
  | @child p B b k n _ child ih =>
    obtain ⟨lo, hi, wf, first⟩ := ih
    obtain ⟨lo', hi', -, -, wf', -, -⟩ := wf.child child
    by_cases zero : b * (p.size + 1) + k = 0
    · obtain ⟨none_, rfl⟩ := Nat.add_eq_zero_iff.mp zero
      have leftmost : b = 0 := (Nat.mul_eq_zero.mp none_).resolve_right (Nat.succ_ne_zero _)
      obtain ⟨-, -, chain⟩ := wf_internode.mp wf
      have here := chain.1
      rw [show p.first = some n from child] at here
      exact ⟨lo, _, (childWf_some.mp here).2, fun _ => first leftmost⟩
    · exact ⟨lo', hi', wf', fun absurd_ => absurd absurd_ zero⟩

/-- A null child is not the first of all branches. -/
theorem Node.Counted.pos {B b : Nat} (counted : root.Counted (.internode p) B b) (sound : root.Sound)
    (null : p.first = none) : 0 < b := by
  obtain ⟨lo, hi, wf, first⟩ := counted.wf sound
  obtain ⟨-, -, chain⟩ := wf_internode.mp wf
  have here := chain.1
  rw [null] at here
  have low := (childWf_none.mp here).2
  rcases Nat.eq_zero_or_pos b with zero | pos
  · exact absurd (first zero) (Nat.ne_of_gt low)
  · exact pos

section Shares
variable {i k B b s : Nat}

/-- Pivot `i` of `k` falls into a child of the branch that it falls into. -/
theorem branch_div (i k B : Nat) (pos : 0 < s) : i * (B * s) / k / s = i * B / k := by
  rw [← Nat.mul_assoc, Nat.div_div_eq_div_mul, Nat.mul_div_mul_right _ _ pos]

theorem int_eq (small : B < 2 ^ 31) : int B = B := Int.bmod_eq_of_le (by omega) (by omega)

theorem totalNkeysEstimate_eq (small : B * s < 2 ^ 31) : totalNkeysEstimate B s = (B * s : Nat) := by
  rw [totalNkeysEstimate, ← Nat.cast_mul, int_eq small]

theorem branch_parts (i k B m : Nat) : i * B / k * (m + 1) + i * (B * (m + 1)) / k % (m + 1) = i * (B * (m + 1)) / k := by
  have parts := Nat.div_add_mod (i * (B * (m + 1)) / k) (m + 1)
  rwa [branch_div i k B m.succ_pos, Nat.mul_comm] at parts

theorem small_of_lt {x : Nat} (lt : x < k) (few : k ≤ 46341) : x < 2 ^ 31 := by omega

theorem clamp_eq {x m : Nat} (lt : x < m + 1) : clamp x (m + 1 - 1) = x := by
  unfold clamp
  omega

/-- Up to 46341 pivots no product is too large. -/
theorem pvChild_eq {m : Nat} (lt : i < k) (few : k ≤ 46341) (fewer : B * (m + 1) < k) :
    pvChild i k B (i * B / k : Nat) (m + 1) = (i * (B * (m + 1)) / k % (m + 1) : Nat) ∧
      int (firstPvInNode (i * B / k : Nat) (m + 1) + pvChild i k B (i * B / k : Nat) (m + 1)) = (i * (B * (m + 1)) / k : Nat) := by
  have parts := branch_parts i k B m
  have below : i * (B * (m + 1)) / k % (m + 1) < m + 1 := Nat.mod_lt _ m.succ_pos
  have total := totalNkeysEstimate_eq (small_of_lt fewer few)
  have product : i * (B * (m + 1)) < 2 ^ 31 := by
    have small := Nat.mul_le_mul (show i ≤ 46340 by omega) (show B * (m + 1) ≤ 46340 by omega)
    omega
  have quotient : i * (B * (m + 1)) / k < 2 ^ 31 := Nat.lt_of_le_of_lt (Nat.div_le_self _ _) product
  have first : firstPvInNode (i * B / k : Nat) (m + 1 : Nat) = (i * B / k * (m + 1) : Nat) := by
    rw [firstPvInNode, ← Nat.cast_mul, int_eq (by omega)]
  rw [Nat.cast_add, Nat.cast_one] at total first
  have offset : pvOffset i k B (i * B / k : Nat) (m + 1) = (i * (B * (m + 1)) / k % (m + 1) : Nat) := by
    rw [pvOffset, total, first, ← Nat.cast_mul, int_eq product, ← Int.ofNat_tdiv]
    generalize i * (B * (m + 1)) / k = q at parts quotient
    have rest : q % (m + 1) < 2 ^ 31 := Nat.lt_of_le_of_lt (Nat.mod_le q _) quotient
    have offset : (q : Int) - (i * B / k * (m + 1) : Nat) = (q % (m + 1) : Nat) := by omega
    rw [offset, int_eq rest]
  have child : pvChild i k B (i * B / k : Nat) (m + 1) = (i * (B * (m + 1)) / k % (m + 1) : Nat) := by
    rw [pvChild, offset, clamp_eq below]
  refine ⟨child, ?_⟩
  rw [child, first, ← Nat.cast_add, parts, int_eq quotient]

/-- The same for the children of one more internode. -/
theorem Node.Wf.total {P : Nat → Nat → Leaf V → Prop} (wf : (Node.internode p).Wf P lo hi) (lt : B < k) (few : k ≤ 46341) :
    totalNkeysEstimate B (p.size + 1) = (B * (p.size + 1) : Nat) := by
  have bound : B * (p.size + 1) ≤ 46341 * 16 := Nat.mul_le_mul (by omega) (Nat.succ_le_succ (wf_internode.mp wf).2.1)
  have total := totalNkeysEstimate_eq (B := B) (s := p.size + 1) (by omega)
  rwa [Nat.cast_add, Nat.cast_one] at total

/-- A walk comes to the branches that its pivot falls into. -/
theorem Node.Comes.counted (comes : root.Comes i k n nbranch branchid) (sound : root.Sound) (lt : i < k) (many : 1 < k)
    (few : k ≤ 46341) : ∃ B, root.Counted n B (i * B / k) ∧ nbranch = B ∧ branchid = (i * B / k : Nat) ∧ B < k := by
  induction comes with
  | root =>
    have first : i * 1 / k = 0 := by rw [Nat.mul_one, Nat.div_eq_of_lt lt]
    exact ⟨1, by rw [first]; exact .root, rfl, by rw [first]; rfl, many⟩
  | @down p nbranch branchid n comes fewer child ih =>
    obtain ⟨B, counted, rfl, rfl, le⟩ := ih
    obtain ⟨-, ⟨lo, hi, wf⟩, -⟩ := comes.findpv sound ⟨by omega, by decide⟩
    have total := wf.total le few
    rw [total] at fewer ⊢
    obtain ⟨at_, next⟩ := pvChild_eq lt few (Int.ofNat_lt.mp fewer)
    rw [at_, Int.toNat_natCast] at child
    have counted' := counted.child child
    rw [branch_parts] at counted'
    exact ⟨_, counted', rfl, next, Int.ofNat_lt.mp fewer⟩

theorem Node.Counted.comes (counted : root.Counted n B b) (falls : i * B / k = b) (lt : i < k) (few : k ≤ 46341) (fewer : B < k) :
    root.Comes i k n B b := by
  induction counted with
  | root =>
    exact .root
  | @child p B b j n counted child ih =>
    have inside := Internode.child_le (Option.isSome_of_eq_some child)
    have parent : i * B / k = b := by
      rw [← branch_div i k B p.size.succ_pos, falls, Nat.mul_comm, Nat.mul_add_div p.size.succ_pos,
        Nat.div_eq_of_lt (by omega), Nat.add_zero]
    have place : i * (B * (p.size + 1)) / k % (p.size + 1) = j := by
      rw [falls, Nat.mul_comm, Nat.mul_add_mod, Nat.mod_eq_of_lt (by omega)]
    have le : B ≤ B * (p.size + 1) := Nat.le_mul_of_pos_right _ p.size.succ_pos
    subst parent
    obtain ⟨at_, next⟩ := pvChild_eq lt few fewer
    have total := totalNkeysEstimate_eq (small_of_lt fewer few)
    rw [Nat.cast_add, Nat.cast_one] at total
    have down := Node.Comes.down (ih rfl (Nat.lt_of_le_of_lt le fewer)) (by rw [total]; exact Int.ofNat_lt.mpr fewer) (n := n) (by
      rw [at_, place]
      exact child)
    rw [next, total, falls] at down
    exact down

/-- A pivot that falls into the first child of the branch. -/
theorem exists_pivot (later : 0 < b) (lt : b < B) (pos : 0 < s) (fewer : B * s < k) :
    ∃ i, 0 < i ∧ i < k ∧ i * B / k = b ∧ i * (B * s) / k % s = 0 := by
  have parts := Nat.div_add_mod (b * k + B - 1) B
  have below := Nat.mod_lt (b * k + B - 1) (Nat.zero_lt_of_lt lt)
  have wide : B < k := Nat.lt_of_le_of_lt (Nat.le_mul_of_pos_right _ pos) fewer
  obtain ⟨i, eq⟩ : ∃ i, i = (b * k + B - 1) / B := ⟨_, rfl⟩
  rw [← eq, Nat.mul_comm] at parts
  have least : b * k ≤ i * B := by omega
  have most : i * B + 1 ≤ b * k + B := by omega
  have inside : (b + 1) * k ≤ B * k := Nat.mul_le_mul_right k lt
  have positive : 1 ≤ b * k := Nat.mul_pos later (Nat.zero_lt_of_lt wide)
  rw [Nat.succ_mul] at inside
  refine ⟨i, ?_, ?_, ?_, ?_⟩
  · rcases Nat.eq_zero_or_pos i with rfl | some_
    · omega
    · exact some_
  · refine Nat.lt_of_mul_lt_mul_right (a := B) ?_
    rw [Nat.mul_comm k]
    omega
  · exact Nat.div_eq_of_lt_le least (by rw [Nat.succ_mul]; omega)
  · have low : b * s * k ≤ i * (B * s) := by
      rw [← Nat.mul_assoc, Nat.mul_right_comm]
      exact Nat.mul_le_mul_right s least
    have high : i * (B * s) < (b * s + 1) * k := by
      have scaled := Nat.mul_le_mul_right s most
      rw [Nat.add_mul, Nat.add_mul, Nat.mul_assoc, Nat.mul_right_comm] at scaled
      rw [Nat.succ_mul]
      omega
    rw [Nat.div_eq_of_lt_le low high, Nat.mul_mod_left]

theorem clear_iff_counted (sound : root.Sound) (many : 1 < k) (few : k ≤ 46341) : (∀ i : Nat, 0 < i → i < k → root.Clear i k) ↔
    ∀ p B b, root.Counted (.internode p) B b → p.first = none → k ≤ B * (p.size + 1) := by
  constructor
  · intro clear p B b counted null
    by_contra more
    obtain ⟨i, pos, lt, falls, first⟩ := exists_pivot (counted.pos sound null) counted.lt p.size.succ_pos (Nat.lt_of_not_le more)
    have wide : B < k := Nat.lt_of_le_of_lt (Nat.le_mul_of_pos_right _ p.size.succ_pos) (Nat.lt_of_not_le more)
    have comes := counted.comes falls lt few wide
    have total := totalNkeysEstimate_eq (small_of_lt (Nat.lt_of_not_le more) few)
    obtain ⟨at_, -⟩ := pvChild_eq lt few (Nat.lt_of_not_le more)
    rw [falls, first] at at_
    rw [Nat.cast_add, Nat.cast_one] at total
    have there := clear i pos lt p B b comes (by rw [total]; exact Int.ofNat_lt.mpr (Nat.lt_of_not_le more)) at_
    rw [null] at there
    cases there
  · intro all i _ lt p nbranch branchid comes fewer _
    by_contra null
    obtain ⟨B, counted, rfl, rfl, wide⟩ := comes.counted sound lt many few
    obtain ⟨-, ⟨lo, hi, wf⟩, -⟩ := comes.findpv sound ⟨by omega, by decide⟩
    have total := wf.total wide few
    have le := all p B _ counted (Option.not_isSome_iff_eq_none.mp null)
    rw [total] at fewer
    exact absurd (Int.ofNat_lt.mp fewer) (Nat.not_lt_of_le le)

end Shares

/-! ### All pivots -/

section MapM
variable {α β ε : Type} {f : α → Except ε β} {l : List α}

theorem mapM_ok_iff : (∃ bs, l.mapM f = .ok bs) ↔ ∀ a ∈ l, ∃ b, f a = .ok b := by
  induction l with
  | nil => exact ⟨fun _ _ mem => absurd mem List.not_mem_nil, fun _ => ⟨[], rfl⟩⟩
  | cons a l ih =>
    rw [List.mapM_cons, List.forall_mem_cons, ← ih]
    cases f a with
    | error e => simp [bind, Except.bind]
    | ok b =>
      cases l.mapM f with
      | error e => simp [bind, Except.bind]
      | ok bs => exact ⟨fun _ => ⟨⟨b, rfl⟩, bs, rfl⟩, fun _ => ⟨_, rfl⟩⟩

theorem mapM_error {e : ε} (failed : l.mapM f = .error e) : ∃ a ∈ l, f a = .error e := by
  induction l with
  | nil => cases failed
  | cons a l ih =>
    rw [List.mapM_cons] at failed
    cases first : f a with
    | error e' =>
      rw [first] at failed
      exact ⟨a, List.mem_cons_self, first.trans (congrArg Except.error (Except.error.inj failed))⟩
    | ok b =>
      rw [first] at failed
      cases rest : l.mapM f with
      | error e' =>
        rw [rest] at failed
        obtain ⟨a', mem, found⟩ := ih (rest.trans failed)
        exact ⟨a', List.mem_cons_of_mem _ mem, found⟩
      | ok bs =>
        rw [rest] at failed
        cases failed

end MapM

namespace Table

variable {t : Table V} {npv : Nat}

theorem findpivots_ok_iff (layer : t.layers [] = some root) : (∃ pvs, t.findpivots npv = .ok pvs) ↔
    ∀ i : Nat, 0 < i → i < npv - 1 → ∃ key, root.findpv i (npv - 1 : Nat) = .ok key := by
  rw [findpivots, mapM_ok_iff, layer]
  constructor
  · intro all i pos lt
    obtain ⟨key, found⟩ := all i (List.mem_range.mpr (by omega))
    rw [if_neg (by omega), if_neg (by omega)] at found
    exact ⟨key, found⟩
  · intro all i mem
    split
    · exact ⟨_, rfl⟩
    · split
      · exact ⟨_, rfl⟩
      · have inside := List.mem_range.mp mem
        exact all i (by omega) (by omega)

theorem few_one {k : Nat} (many : 1 < k) : Few k 1 := ⟨Int.ofNat_lt.mpr many, by decide⟩

/-- The searches end and read only what is occupied, and what can go wrong is that one goes on at a null `child_[0]`. As long as no
product overflows, one does so exactly if the children of some internode that has none there are fewer, counted as branches, than the
pivots. -/
theorem findpivots_iff (reachable : t.Reachable) : ∃ root, t.layers [] = some root ∧
    (∀ npv fault, t.findpivots npv = .error fault → fault = .null) ∧
    (∀ npv, (∃ pvs, t.findpivots npv = .ok pvs) ↔ ∀ i : Nat, 0 < i → i < npv - 1 → root.Clear i (npv - 1 : Nat)) ∧
    ∀ npv ≤ 46342, (∃ pvs, t.findpivots npv = .ok pvs) ↔
      ∀ p B b, root.Counted (.internode p) B b → p.first = none → npv - 1 ≤ B * (p.size + 1) := by
  have ok := reachable.good.toOk
  obtain ⟨root, layer⟩ := Option.isSome_iff_exists.mp ok.top
  have sound := ok.sound [] root layer
  have clear : ∀ npv, (∃ pvs, t.findpivots npv = .ok pvs) ↔ ∀ i : Nat, 0 < i → i < npv - 1 → root.Clear i (npv - 1 : Nat) := by
    intro npv
    rw [findpivots_ok_iff layer]
    refine forall_congr' fun i => forall_congr' fun pos => forall_congr' fun lt => ?_
    exact findpv_iff_clear sound (few_one (by omega))
  refine ⟨root, layer, ?_, clear, ?_⟩
  · intro npv fault failed
    obtain ⟨i, mem, failed⟩ := mapM_error failed
    have inside := List.mem_range.mp mem
    split at failed
    · cases failed
    · split at failed
      · cases failed
      · rw [layer] at failed
        exact findpv_fault sound (few_one (by omega)) failed
  · intro npv le
    rw [clear]
    by_cases many : 1 < npv - 1
    · exact clear_iff_counted sound many (by omega)
    · refine ⟨fun _ p B b counted _ => ?_, fun _ i pos lt => absurd pos (by omega)⟩
      have branches := counted.lt
      have le : 1 ≤ B * (p.size + 1) := Nat.mul_pos (by omega) p.size.succ_pos
      omega

/-- The key with the number as its two bytes. -/
def numbered (n : Nat) : Bytes := [UInt8.ofNat (n / 256), UInt8.ofNat (n % 256)]

/-- A leaf splits in the middle each time that it is full, until the parent of sixteen leaves is split as well. Then the first leaf of
the new internode is emptied. -/
def emptying : List (Op Nat) := .insert (numbered 300) 300 ::
  ((List.range' 1 135).map (fun n => .insert (numbered n) n) ++ (List.range' 73 8).map fun n => .remove (numbered n))

theorem emptying_run : ((Steps.run step start emptying).map fun t => (t.findpivots 18, (t.findpivots 17).toOption.isSome)) =
    some (.error .null, true) := by decide +kernel

/-- Fifteen pivots of a table of 128 keys, where an internode of the second level has no first child. -/
theorem findpivots_iff_emptied : ∃ t, Steps.run step (start : Table Nat) emptying = some t ∧
    ∃ root, t.layers [] = some root ∧ (∃ p B b, root.Counted (.internode p) B b ∧ p.first = none) ∧
      ∀ p B b, root.Counted (.internode p) B b → p.first = none → 17 - 1 ≤ B * (p.size + 1) := by
  obtain ⟨t, ran, pivots⟩ := Option.map_eq_some_iff.mp emptying_run
  obtain ⟨fault, fewer⟩ := Prod.mk.inj pivots
  obtain ⟨root, layer, -, -, counted⟩ := findpivots_iff ⟨_, ran⟩
  refine ⟨t, ran, root, layer, ?_, ?_⟩
  · by_contra none_
    obtain ⟨pvs, found⟩ := (counted 18 (by decide)).mpr fun p B b at_ first => absurd ⟨p, B, b, at_, first⟩ none_
    rw [fault] at found
    cases found
  · refine (counted 17 (by decide)).mp ?_
    cases found : t.findpivots 17 with
    | error fault =>
      rw [found] at fewer
      cases fewer
    | ok pvs => exact ⟨pvs, rfl⟩

/-- One pivot more. -/
theorem findpivots_null : ∃ t : Table Nat, t.Reachable ∧ t.findpivots 18 = .error .null := by
  obtain ⟨t, ran, pivots⟩ := Option.map_eq_some_iff.mp emptying_run
  exact ⟨t, ⟨_, ran⟩, (Prod.mk.inj pivots).1⟩

end Table

example : unparseComparable (makeComparable [1, 0, 2, 0]) = [1, 0, 2] := by decide

end Masstree.Tree
