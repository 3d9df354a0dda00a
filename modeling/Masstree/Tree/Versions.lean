import Masstree.Lib.Steps
import Masstree.Tree.Opened

/-!
# What a leaf's version says

A leaf's full version is its version word above its size. It changes whenever the leaf's keys do, and what
`next_full_version_value` says before `finish` is what it then is, but for a remove that first switches `modstate_`.
-/

namespace Masstree.Tree
open Msgpack (Bytes)
open Nodeversion (lockBit insertingBit splittingBit vinsertLowbit rootBit)

variable {V : Type}

theorem full_toNat {v : Nodeversion} (stable : v.Stable) {n : Nat} (small : n < 16) :
    ((v <<< 4) + BitVec.ofNat 32 n).toNat = v.counter * 128 + n := by
  have low : v.toNat % 8 = 0 := by
    have bits := congrArg BitVec.toNat stable
    rw [BitVec.toNat_and, show (vinsertLowbit - 1).toNat = 2 ^ 3 - 1 by decide, Nat.and_two_pow_sub_one_eq_mod] at bits
    exact bits
  have bits := v.isLt
  rw [Nodeversion.counter_eq, BitVec.toNat_add, BitVec.toNat_shiftLeft, BitVec.toNat_ofNat, Nat.shiftLeft_eq]
  omega

/-! ### Finishing -/

namespace Tcursor

variable {l : Leaf V} {c : Tcursor V} {ka : Key} {prev : Bool} {state : Int}

def leaf (c : Tcursor V) (i : Nat) : Leaf V := c.nodes.getD i .makeRoot

def store (c : Tcursor V) (value : Option V) : Tcursor V := value.elim c c.setValue

/-- The leaf as `finish` leaves it before it unlocks it. -/
def finished (c : Tcursor V) (prev : Bool) (state : Int) : Leaf V :=
  if state < 0 ∧ c.state = 1 then
    let l := c.node.finishRemove c.kxi
    if l.size = 0 ∧ prev then l.markDeleted else l
  else if 0 < state ∧ c.state = 2 then { c.node with perm := c.node.perm.insertFromBack c.kxi }
  else c.node

theorem node_setNode (inside : c.n < c.nodes.length) (l : Leaf V) : (c.setNode l).node = l := by
  show (c.nodes.set c.n l).getD c.n .makeRoot = l
  rw [List.getD_eq_getElem?_getD, List.getElem?_set_self inside]
  rfl

theorem setNode_setNode (l l' : Leaf V) : (c.setNode l).setNode l' = c.setNode l' := by
  show { c with nodes := (c.nodes.set c.n l).set c.n l' } = { c with nodes := c.nodes.set c.n l' }
  rw [List.set_set]

theorem setNode_node (inside : c.n < c.nodes.length) : c.setNode c.node = c := by
  have same : c.nodes.set c.n (c.nodes.getD c.n .makeRoot) = c.nodes := by
    rw [List.getD_eq_getElem _ _ inside]
    exact List.set_getElem_self inside
  show { c with nodes := c.nodes.set c.n (c.nodes.getD c.n .makeRoot) } = c
  rw [same]

theorem nodes_conclude (inside : c.n < c.nodes.length) (l : Leaf V) :
    (c.setNode l).conclude.nodes = c.nodes.set c.n l.unlock ∧ (c.setNode l).conclude.n = c.n ∧
      (c.setNode l).conclude.updatedV = (if c.n = 0 then l.fullUnlockedVersionValue else c.updatedV) ∧
      (c.setNode l).conclude.newNodes = if c.n = 0 then c.newNodes else c.newNodes ++ [(c.n, l.fullUnlockedVersionValue)] := by
  unfold conclude
  rw [node_setNode inside, setNode_setNode]
  by_cases first : c.n = 0
  · have first' : (c.setNode l).n = 0 := first
    rw [if_pos first', if_pos first, if_pos first]
    exact ⟨rfl, rfl, rfl, rfl⟩
  · have moved : ¬(c.setNode l).n = 0 := first
    rw [if_neg moved, if_neg first, if_neg first]
    exact ⟨rfl, rfl, rfl, rfl⟩

theorem removesLeaf_iff : c.removesLeaf prev state = true ↔
    (state < 0 ∧ c.state = 1) ∧ (c.node.finishRemove c.kxi).size = 0 ∧ prev = true := by
  unfold removesLeaf
  rw [decide_eq_true_iff]
  exact ⟨fun ⟨neg, one, rest⟩ => ⟨⟨neg, one⟩, rest⟩, fun ⟨⟨neg, one⟩, rest⟩ => ⟨neg, one, rest⟩⟩

/-- `finish` is the change of the leaf, and then the unlocking. -/
theorem finish_eq (inside : c.n < c.nodes.length) (prev : Bool) (state : Int) : c.finish prev state =
    if c.removesLeaf prev state then c.setNode (c.finished prev state).unlock
    else (c.setNode (c.finished prev state)).conclude := by
  unfold finish finished
  by_cases removes : state < 0 ∧ c.state = 1
  · rw [if_pos removes, if_pos removes]
    dsimp only
    by_cases empties : (c.node.finishRemove c.kxi).size = 0 ∧ prev = true
    · rw [if_pos empties, if_pos empties, if_pos (removesLeaf_iff.mpr ⟨removes, empties⟩)]
    · rw [if_neg empties, if_neg empties, if_neg (fun both => empties (removesLeaf_iff.mp both).2)]
  · rw [if_neg removes, if_neg removes, if_neg (fun both => removes (removesLeaf_iff.mp both).1)]
    by_cases inserts : 0 < state ∧ c.state = 2
    · rw [if_pos inserts, if_pos inserts]
      rfl
    · rw [if_neg inserts, if_neg inserts, setNode_node inside]

theorem nodes_finish (inside : c.n < c.nodes.length) (prev : Bool) (state : Int) :
    (c.finish prev state).nodes = c.nodes.set c.n (c.finished prev state).unlock ∧ (c.finish prev state).n = c.n := by
  rw [finish_eq inside]
  split
  · exact ⟨rfl, rfl⟩
  · obtain ⟨nodes, n, -⟩ := nodes_conclude inside (c.finished prev state)
    exact ⟨nodes, n⟩

theorem node_finish (inside : c.n < c.nodes.length) (prev : Bool) (state : Int) :
    (c.finish prev state).node = (c.finished prev state).unlock := by
  obtain ⟨nodes, n⟩ := nodes_finish inside prev state
  rw [node, nodes, n, List.getD_eq_getElem?_getD, List.getElem?_set_self inside]
  rfl

theorem Opened.store (open_ : c.Opened l) (value : Option V) : (c.store value).Opened l := by
  cases value with
  | none => exact open_
  | some v =>
    show (c.setNode (c.node.setValue (c.kxp.getD 0) v)).Opened l
    have node := node_setNode open_.inside (c.node.setValue (c.kxp.getD 0) v)
    have elsewhere : ∀ i, i ≠ c.n → (c.setNode (c.node.setValue (c.kxp.getD 0) v)).nodes[i]? = c.nodes[i]? :=
      fun i other => List.getElem?_set_ne other.symm
    constructor
    · show c.n < (c.nodes.set _ _).length
      rw [List.length_set]
      exact open_.inside
    · rw [node]
      exact open_.locked
    · rw [node]
      exact open_.perm
    · rw [node]
      exact (List.length_modify _ _ _).trans open_.slots
    · rw [node]
      exact open_.found
    · rw [node]
      exact open_.room
    · intro i other m at_
      rw [elsewhere i other] at at_
      exact open_.others i other m at_
    · intro e mem
      obtain ⟨zero, other, made, at_, version⟩ := open_.reported e mem
      exact ⟨zero, other, made, (elsewhere e.1 other).trans at_, version⟩
    · intro moved
      obtain ⟨old, at_, rest⟩ := open_.left moved
      exact ⟨old, (elsewhere 0 moved.symm).trans at_, rest⟩
    · rw [node]
      exact open_.counter
    · intro first splitting inserting
      rw [node] at splitting inserting ⊢
      obtain ⟨mode, keys, insert⟩ := open_.same first splitting inserting
      refine ⟨mode, ?_, insert⟩
      rw [← keys]
      exact Leaf.keys_congr rfl fun p _ => Leaf.key_setValue c.node (c.kxp.getD 0) p v

theorem state_store (c : Tcursor V) (value : Option V) : (c.store value).state = c.state := by
  cases value <;> rfl

/-! ### What is predicted -/

/-- `next_full_version_value` before `finish` is `full_version_value` after it. -/
def Predicts (c : Tcursor V) (prev : Bool) (state : Int) : Prop :=
  (c.finish prev state).node.fullVersionValue = c.nextFullVersionValue state

/-- `updated_version_value` and `new_nodes` have the versions of the leaves. -/
def Reports (c : Tcursor V) (prev : Bool) (state : Int) : Prop :=
  ((c.finish prev state).leaf 0).fullVersionValue = (c.finish prev state).updatedV ∧
    ∀ e ∈ (c.finish prev state).newNodes,
      e.1 < (c.finish prev state).nodes.length ∧ ((c.finish prev state).leaf e.1).fullVersionValue = e.2

theorem perm_finishRemove (l : Leaf V) (kxi : Nat) : (l.finishRemove kxi).perm = l.perm.remove kxi := by
  unfold Leaf.finishRemove
  split <;> rfl

theorem slots_finishRemove (l : Leaf V) (kxi : Nat) : (l.finishRemove kxi).slots = l.slots := by
  unfold Leaf.finishRemove
  split <;> rfl

theorem perm_finished (c : Tcursor V) : (c.finished prev state).perm =
    if state < 0 ∧ c.state = 1 then c.node.perm.remove c.kxi
    else if 0 < state ∧ c.state = 2 then c.node.perm.insertFromBack c.kxi else c.node.perm := by
  unfold finished
  split
  · dsimp only
    split <;> exact perm_finishRemove c.node c.kxi
  · split <;> rfl

theorem size_finished (open_ : c.Opened l) (prev : Bool) (state : Int) : (c.finished prev state).size =
    if state < 0 ∧ c.state = 1 then c.node.size - 1 else if 0 < state ∧ c.state = 2 then c.node.size + 1 else c.node.size := by
  rw [Leaf.size, perm_finished]
  split
  · rename_i removes
    exact List.length_eraseIdx_of_lt (open_.found removes.2).2.1
  · split
    · rename_i inserts
      exact List.length_insertIdx_of_le_length (open_.room inserts.2).2 _
    · rfl

theorem finished_wf (open_ : c.Opened l) (prev : Bool) (state : Int) : (c.finished prev state).unlock.Wf := by
  apply Leaf.unlock_wf
  · rw [perm_finished]
    split
    · rename_i removes
      exact open_.perm.remove (open_.found removes.2).2.1
    · split
      · rename_i inserts
        obtain ⟨room, le⟩ := open_.room inserts.2
        exact open_.perm.insertFromBack room le
      · exact open_.perm
  · have slots : (c.finished prev state).slots = c.node.slots := by
      unfold finished
      split
      · dsimp only
        split <;> exact slots_finishRemove c.node c.kxi
      · split <;> rfl
    rw [slots]
    exact open_.slots

/-- The remove that switches `modstate_` marks an insertion; nothing else in `finish` touches the version. -/
theorem version_finished (keeps : c.removesLeaf prev state = false) : (c.finished prev state).version =
    if (state < 0 ∧ c.state = 1) ∧ c.node.modstate = .insert then c.node.version.markInsert else c.node.version := by
  unfold finished
  by_cases removes : state < 0 ∧ c.state = 1
  · have stays : ¬((c.node.finishRemove c.kxi).size = 0 ∧ prev = true) := by
      intro empties
      rw [removesLeaf_iff.mpr ⟨removes, empties⟩] at keeps
      cases keeps
    rw [if_pos removes]
    dsimp only
    rw [if_neg stays]
    unfold Leaf.finishRemove
    by_cases insert : c.node.modstate = .insert
    · rw [if_pos insert, if_pos ⟨removes, insert⟩]
      rfl
    · rw [if_neg insert, if_neg (fun both => insert both.2)]
  · have none : ¬((state < 0 ∧ c.state = 1) ∧ c.node.modstate = .insert) := fun both => removes both.1
    rw [if_neg removes, if_neg none]
    split <;> rfl

theorem next_eq (open_ : c.Opened l) (known : c.state = 1 ∨ c.state = 2) (prev : Bool) : c.nextFullVersionValue state =
    (c.node.version.unlock <<< 4) + BitVec.ofNat 32 (c.finished prev state).size := by
  rw [size_finished open_ prev state]
  unfold nextFullVersionValue
  dsimp only
  by_cases removes : state < 0 ∧ c.state = 1
  · have odd : state < 0 ∧ c.state % 2 = 1 := ⟨removes.1, by rw [removes.2]⟩
    rw [if_pos odd, if_pos removes]
    have below := (open_.found removes.2).2.1
    have one : BitVec.ofNat 32 c.node.size = BitVec.ofNat 32 (c.node.size - 1) + 1 := by
      conv_lhs => rw [← Nat.sub_add_cancel (Nat.one_le_of_lt below)]
      exact BitVec.ofNat_add ..
    rw [one, ← BitVec.add_assoc, BitVec.add_sub_cancel]
  · have even : ¬(state < 0 ∧ c.state % 2 = 1) := by
      intro odd
      apply removes
      omega
    rw [if_neg even, if_neg removes]
    split
    · rw [BitVec.ofNat_add, ← BitVec.add_assoc]
      rfl
    · rfl

theorem predicts_iff (open_ : c.Opened l) (known : c.state = 1 ∨ c.state = 2) (keeps : c.removesLeaf prev state = false) :
    c.Predicts prev state ↔ ¬((state < 0 ∧ c.state = 1) ∧ c.node.modstate = .insert) := by
  have wf := finished_wf open_ prev state
  have small : (c.finished prev state).size < 16 := wf.size_lt
  unfold Predicts
  rw [node_finish open_.inside, next_eq open_ known prev]
  show (c.finished prev state).version.unlock <<< 4 + BitVec.ofNat 32 (c.finished prev state).size = _ ↔ _
  rw [version_finished keeps]
  by_cases switches : (state < 0 ∧ c.state = 1) ∧ c.node.modstate = .insert
  · rw [if_pos switches]
    refine ⟨fun same => absurd ?_ (Nodeversion.counter_unlock_ne (.inr (Nodeversion.inserting_markInsert c.node.version))),
      fun other => absurd switches other⟩
    obtain ⟨-, -, splitting, inserting⟩ := open_.found switches.1.2
    have values := congrArg BitVec.toNat same
    rw [full_toNat (Nodeversion.stable_unlock _) small, full_toNat (Nodeversion.stable_unlock _) small,
      Nodeversion.counter_unlock_clean splitting inserting] at values
    rw [Nodeversion.counter_markInsert]
    omega
  · rw [if_neg switches]
    exact ⟨fun _ => switches, fun _ => rfl⟩

theorem reports (open_ : c.Opened l) (keeps : c.removesLeaf prev state = false) : c.Reports prev state := by
  have locked : (c.finished prev state).version.has lockBit = true := by
    rw [version_finished keeps]
    split
    · rw [Nodeversion.locked_markInsert]
      exact open_.locked
    · exact open_.locked
  have version := Leaf.fullUnlocked_of_locked locked
  obtain ⟨nodes, -, updated, newNodes⟩ := nodes_conclude open_.inside (c.finished prev state)
  have kept : ¬c.removesLeaf prev state = true := by
    rw [keeps]
    decide
  unfold Reports leaf
  rw [finish_eq open_.inside, if_neg kept, nodes, updated, newNodes]
  have here : (c.nodes.set c.n (c.finished prev state).unlock).getD c.n .makeRoot = (c.finished prev state).unlock := by
    rw [List.getD_eq_getElem?_getD, List.getElem?_set_self open_.inside]
    rfl
  have there : ∀ {i : Nat} {m : Leaf V}, i ≠ c.n → c.nodes[i]? = some m →
      (c.nodes.set c.n (c.finished prev state).unlock).getD i .makeRoot = m := by
    intro i m other at_
    rw [List.getD_eq_getElem?_getD, List.getElem?_set_ne other.symm, at_]
    rfl
  have old : ∀ e ∈ c.newNodes, e.1 < (c.nodes.set c.n (c.finished prev state).unlock).length ∧
      ((c.nodes.set c.n (c.finished prev state).unlock).getD e.1 .makeRoot).fullVersionValue = e.2 := by
    intro e mem
    obtain ⟨-, other, made, at_, value⟩ := open_.reported e mem
    refine ⟨?_, ?_⟩
    · rw [List.length_set]
      exact (List.getElem?_eq_some_iff.mp at_).1
    · rw [there other at_, value]
  by_cases first : c.n = 0
  · rw [if_pos first, if_pos first]
    refine ⟨?_, old⟩
    rw [version, ← first, here]
  · rw [if_neg first, if_neg first]
    obtain ⟨l₀, at_, value, -⟩ := open_.left first
    refine ⟨?_, ?_⟩
    · rw [there (Ne.symm first) at_, value]
    · intro e mem
      rcases List.mem_append.mp mem with mem | mem
      · exact old e mem
      · rw [List.mem_singleton.mp mem]
        refine ⟨?_, ?_⟩
        · rw [List.length_set]
          exact open_.inside
        · rw [version, here]

end Tcursor

end Masstree.Tree
