import Masstree.Tree.Contents
import Masstree.Tree.Heap
import Masstree.Tree.Insertion

/-!
# What operations store in the leaves

An insertion, a cancelled one and a remove, by the entries that they leave.
-/

namespace Masstree.Tree
open Msgpack (Bytes)
open Nodeversion (unused1Bit deletedBit splittingBit insertingBit lockBit)

variable {V : Type}

/-! ### Sets of slots -/

section Sets
variable {e a s : Slot V} {E A B : List (Slot V)} {S : Set (Slot V)} {i : Nat}

theorem dropRank_putSlot (missing : ∀ s ∈ S, s.rank ≠ a.rank) : dropRank a.rank (putSlot a S) = S := by
  ext s
  rw [mem_dropRank, mem_putSlot]
  constructor
  · rintro ⟨rfl | there, other⟩
    · exact absurd rfl other
    · exact there.1
  · intro mem
    exact ⟨.inr ⟨mem, missing s mem⟩, missing s mem⟩

theorem set_insertIdx (le : i ≤ E.length) : (E.insertIdx i a).set i e = E.insertIdx i e := by
  have parts := List.take_append_drop i E
  have length := List.length_take_of_le le
  have middle := Positions.insertIdx_middle (E.take i) (E.drop i)
  have set_ := Positions.set_middle (E.take i) a (E.drop i) e
  rw [parts, length] at middle
  rw [length] at set_
  rw [middle, middle, set_]

/-- The entries with the value stored, or without the slot that was made for it. -/
def stored (ka : Key) (value : Option V) (S : Set (Slot V)) : Set (Slot V) :=
  value.elim S fun v => putSlot (.holding ka (some v)) S

theorem mem_stored {ka : Key} {value : Option V} (mem : s ∈ stored ka value S) : s ∈ S ∨ ∃ v, s = .holding ka (some v) := by
  cases value with
  | none => exact .inl mem
  | some v =>
    rcases mem with same | ⟨there, -⟩
    · exact .inr ⟨v, same⟩
    · exact .inl there

end Sets

/-! ### Leaves that are in use -/

/-- The leaf is not deleted, and its version has no carry in the flags. -/
structure Leaf.Alive (l : Leaf V) : Prop where
  clear : l.version.has unused1Bit = false
  kept : l.version.has deletedBit = false
  layer : l.modstate ≠ .deletedLayer

/-- A leaf between operations that is responsible for the ikeys from `lo` up to `hi`. -/
structure Leaf.Holds (lo hi : Nat) (l : Leaf V) : Prop where
  wf : l.Wf
  sorted : Increasing l.entries
  valid : ∀ s ∈ l.entries, s.Valid
  range : ∀ s ∈ l.entries, lo ≤ s.ikey0 ∧ s.ikey0 < hi
  bound : 0 < lo → l.ikeyBound = lo
  alive : l.Alive

namespace Leaf

variable {l : Leaf V} {lo hi hi' : Nat}

theorem extends_holds : Extends (Holds (V := V)) := by
  intro lo hi hi' l le holds
  exact ⟨holds.wf, holds.sorted, holds.valid, fun s mem => ⟨(holds.range s mem).1, Nat.lt_of_lt_of_le (holds.range s mem).2 le⟩,
    holds.bound, holds.alive⟩

theorem Alive.lock (alive : l.Alive) : l.lock.Alive where
  clear := by
    show l.version.lock.has unused1Bit = false
    rw [Nodeversion.lock, Nodeversion.has_or, alive.clear, show lockBit.has unused1Bit = false by decide, Bool.or_false]
  kept := by
    show l.version.lock.has deletedBit = false
    rw [Nodeversion.lock, Nodeversion.has_or, alive.kept, show lockBit.has deletedBit = false by decide, Bool.or_false]
  layer := alive.layer

theorem Alive.unlock (alive : l.Alive) : l.unlock.Alive where
  clear := Nodeversion.unused_unlock _
  kept := (Nodeversion.deleted_unlock alive.clear).trans alive.kept
  layer := alive.layer

theorem Alive.markInsert (alive : l.Alive) : l.markInsert.Alive where
  clear := by
    show l.version.markInsert.has unused1Bit = false
    rw [Nodeversion.markInsert, Nodeversion.has_or, alive.clear, show insertingBit.has unused1Bit = false by decide, Bool.or_false]
  kept := by
    show l.version.markInsert.has deletedBit = false
    rw [Nodeversion.markInsert, Nodeversion.has_or, alive.kept, show insertingBit.has deletedBit = false by decide, Bool.or_false]
  layer := alive.layer

theorem Alive.markSplit (alive : l.Alive) : l.markSplit.Alive where
  clear := by
    show l.version.markSplit.has unused1Bit = false
    rw [Nodeversion.markSplit, Nodeversion.has_or, alive.clear, show splittingBit.has unused1Bit = false by decide, Bool.or_false]
  kept := by
    show l.version.markSplit.has deletedBit = false
    rw [Nodeversion.markSplit, Nodeversion.has_or, alive.kept, show splittingBit.has deletedBit = false by decide, Bool.or_false]
  layer := alive.layer

/-- Only the version and `modstate_` count. -/
theorem Alive.congr {l' : Leaf V} (alive : l.Alive) (version : l'.version = l.version) (mode : l'.modstate = l.modstate) : l'.Alive :=
  ⟨version ▸ alive.clear, version ▸ alive.kept, mode ▸ alive.layer⟩

theorem Alive.startInsert (alive : l.Alive) : l.startInsert.Alive := by
  unfold Leaf.startInsert
  split
  · exact ⟨alive.markInsert.clear, alive.markInsert.kept, nofun⟩
  · exact alive

theorem Alive.finishRemove (alive : l.Alive) (kxi : Nat) : (l.finishRemove kxi).Alive := by
  unfold Leaf.finishRemove
  split
  · exact ⟨alive.markInsert.clear, alive.markInsert.kept, nofun⟩
  · exact ⟨alive.clear, alive.kept, alive.layer⟩

theorem alive_makeRoot : (makeRoot : Leaf V).Alive :=
  ⟨show Nodeversion.isleafBit.markRoot.has unused1Bit = false by decide,
    show Nodeversion.isleafBit.markRoot.has deletedBit = false by decide, nofun⟩

theorem Alive.found (alive : l.Alive) : l.deleted = false ∧ l.deletedLayer = false :=
  ⟨alive.kept, decide_eq_false alive.layer⟩

theorem holds_makeRoot (hi : Nat) : (makeRoot : Leaf V).Holds 0 hi where
  wf := wf_makeRoot
  sorted := .nil
  valid := by
    intro s mem
    cases mem
  range := by
    intro s mem
    cases mem
  bound := fun pos => absurd pos (Nat.lt_irrefl 0)
  alive := alive_makeRoot

@[simp] theorem entries_lock (l : Leaf V) : l.lock.entries = l.entries := rfl
@[simp] theorem entries_unlock (l : Leaf V) : l.unlock.entries = l.entries := rfl

theorem entries_startInsert (l : Leaf V) : l.startInsert.entries = l.entries := by
  unfold Leaf.startInsert
  split <;> rfl

theorem perm_startInsert (l : Leaf V) : l.startInsert.perm = l.perm := by
  unfold Leaf.startInsert
  split <;> rfl

end Leaf

/-! ### The end of an operation -/

namespace Tcursor

variable {l : Leaf V} {c : Tcursor V} {ka : Key} {prev next : Bool} {v : V}

theorem nodes_cancel (inside : c.n < c.nodes.length) (prev : Bool) :
    ((c.store none).finish prev 0).nodes = c.nodes.set c.n c.node.unlock := by
  show (c.finish prev 0).nodes = _
  rw [(nodes_finish inside prev 0).1, finished, if_neg (fun removes => absurd removes.1 (Int.lt_irrefl 0)),
    if_neg (fun adds => absurd adds.1 (Int.lt_irrefl 0))]

theorem nodes_update (inside : c.n < c.nodes.length) (one : c.state = 1) (prev : Bool) (v : V) :
    ((c.store (some v)).finish prev 1).nodes = c.nodes.set c.n (c.node.setValue (c.kxp.getD 0) v).unlock := by
  show ((c.setNode (c.node.setValue (c.kxp.getD 0) v)).finish prev 1).nodes = _
  have inside' : (c.setNode (c.node.setValue (c.kxp.getD 0) v)).n < (c.setNode (c.node.setValue (c.kxp.getD 0) v)).nodes.length := by
    show c.n < (c.nodes.set _ _).length
    rwa [List.length_set]
  rw [(nodes_finish inside' prev 1).1, finished, if_neg (fun removes => absurd removes.1 (by decide)),
    if_neg (fun adds => absurd (one.symm.trans adds.2) (by decide)), node_setNode inside]
  exact List.set_set ..

def withNew (c : Tcursor V) (v : V) : Leaf V :=
  { c.node.setValue (c.kxp.getD 0) v with perm := c.node.perm.insertFromBack c.kxi }

theorem nodes_insert (inside : c.n < c.nodes.length) (two : c.state = 2) (prev : Bool) (v : V) :
    ((c.store (some v)).finish prev 1).nodes = c.nodes.set c.n (c.withNew v).unlock := by
  show ((c.setNode (c.node.setValue (c.kxp.getD 0) v)).finish prev 1).nodes = _
  have inside' : (c.setNode (c.node.setValue (c.kxp.getD 0) v)).n < (c.setNode (c.node.setValue (c.kxp.getD 0) v)).nodes.length := by
    show c.n < (c.nodes.set _ _).length
    rwa [List.length_set]
  rw [(nodes_finish inside' prev 1).1, finished, if_neg (fun removes => absurd removes.1 (by decide)),
    if_pos ⟨by decide, two⟩, node_setNode inside]
  exact List.set_set ..

/-- The cursor is at a free slot, which has the new key. -/
structure Ready (c : Tcursor V) (ka : Key) : Prop where
  perm : c.node.perm.Wf
  slots : c.node.slots.length = width
  room : c.node.size < 15
  kxp : c.kxp = some c.node.perm.back
  slot : c.node.slot c.node.perm.back = .ofKey ka

theorem Ready.entries (ready : c.Ready ka) (v : V) :
    (c.withNew v).entries = c.node.entries.insertIdx c.kxi (.holding ka (some v)) := by
  have free := ready.perm.back_free ready.room
  have inside : c.node.perm.back < c.node.slots.length := by
    rw [ready.slots]
    exact ready.perm.back_lt ready.room
  have back : c.kxp.getD 0 = c.node.perm.back := by rw [ready.kxp]; rfl
  have entries := Leaf.entries_insertFromBack (c.node.setValue (c.kxp.getD 0) v) c.kxi
  have kept := Leaf.entries_modify_free (l := c.node) ({ · with lv := some v }) inside (ready.perm.not_live free)
  have slot := Leaf.slot_modify c.node ({ · with lv := some v }) inside c.node.perm.back
  rw [if_pos rfl, ready.slot] at slot
  rw [back] at entries
  rw [withNew, back]
  refine entries.trans ?_
  show List.insertIdx _ _ (Leaf.slot _ c.node.perm.back) = _
  exact congrArg₂ (fun E s => List.insertIdx E c.kxi s) kept slot

def outcome (c : Tcursor V) (value : Option V) : Leaf V := (value.elim c.node c.withNew).unlock

theorem nodes_outcome (inside : c.n < c.nodes.length) (two : c.state = 2) (prev : Bool) (value : Option V) :
    ((c.store value).finish prev (if value.isSome then 1 else 0)).nodes = c.nodes.set c.n (c.outcome value) := by
  cases value with
  | none => exact nodes_cancel inside prev
  | some v => exact nodes_insert inside two prev v

theorem ikeyBound_setValue (l : Leaf V) (p : Nat) (v : V) : (l.setValue p v).ikeyBound = l.ikeyBound :=
  congrArg Prod.fst (Leaf.key_setValue l p 0 v)

theorem ikeyBound_outcome (c : Tcursor V) (value : Option V) : (c.outcome value).ikeyBound = c.node.ikeyBound := by
  cases value with
  | none => rfl
  | some v => exact ikeyBound_setValue _ _ _

theorem alive_outcome (alive : c.node.Alive) (value : Option V) : (c.outcome value).Alive := by
  cases value with
  | none => exact alive.unlock
  | some v => exact (alive.congr rfl rfl : (c.withNew v).Alive).unlock

theorem Ready.wf (ready : c.Ready ka) (place : c.kxi ≤ c.node.size) (value : Option V) : (c.outcome value).Wf := by
  cases value with
  | none => exact Leaf.unlock_wf ready.perm ready.slots
  | some v =>
    refine Leaf.unlock_wf (ready.perm.insertFromBack ready.room place) ?_
    show (List.modify _ _ _).length = width
    rw [List.length_modify, ready.slots]

/-- With its slot finished the new entry is in the leaf, and else the slot is free. -/
theorem Ready.entries_outcome (ready : c.Ready ka) (value : Option V) : (c.outcome value).entries =
    value.elim c.node.entries fun v => c.node.entries.insertIdx c.kxi (.holding ka (some v)) := by
  cases value with
  | none => rfl
  | some v => exact ready.entries v

/-! ### Insertions -/

/-- A leaf that is left alone by an insertion has it, or two leaves that have its range. An empty leaf does not split. -/
def Inserted (lo hi : Nat) (S : Set (Slot V)) (nodes : List (Leaf V)) : Prop :=
  (∃ m, nodes = [m] ∧ m.Holds lo hi ∧ slotSet m.entries = S) ∨
    ∃ m m', nodes = [m, m'] ∧ lo < m'.ikeyBound ∧ m'.ikeyBound < hi ∧ m.Holds lo m'.ikeyBound ∧ m'.Holds m'.ikeyBound hi ∧
      slotSet (m.entries ++ m'.entries) = S ∧ S.Nonempty

section Insertions
variable {lo hi : Nat} {x : Leaf V} {value : Option V}

theorem stored_valid (holds : l.Holds lo hi) (low : lo ≤ ka.ikey) (high : ka.ikey < hi) {value : Option V} {s : Slot V}
    (mem : s ∈ stored ka value (slotSet l.entries)) : s.Valid ∧ lo ≤ s.ikey0 ∧ s.ikey0 < hi := by
  rcases mem_stored mem with old | ⟨v, rfl⟩
  · exact ⟨holds.valid s old, holds.range s old⟩
  · have ikey : (Slot.holding ka (some v)).ikey0 = ka.ikey := ikey_ofKey (V := V) ka
    exact ⟨.key ka v, ikey ▸ low, ikey ▸ high⟩

/-- The new key goes into a free slot of the leaf. -/
theorem inserted_here (holds : l.Holds lo hi) (low : lo ≤ ka.ikey) (high : ka.ikey < hi) (search : (l.lower ka).2 = none)
    (nodes : c.nodes = [x.assign x.perm.back ka]) (n : c.n = 0) (kxi : c.kxi = (l.lower ka).1) (kxp : c.kxp = some x.perm.back)
    (two : c.state = 2) (perm : x.perm.Wf) (slots : x.slots.length = width) (room : x.size < 15) (entries : x.entries = l.entries)
    (alive : x.Alive) (bound : 0 < lo → x.ikeyBound = lo) (first : x.perm.back = 0 → 0 < lo → ka.ikey = lo)
    (prev : Bool) (value : Option V) :
    Inserted lo hi (stored ka value (slotSet l.entries)) ((c.store value).finish prev (if value.isSome then 1 else 0)).nodes := by
  have node : c.node = x.assign x.perm.back ka := by
    rw [Tcursor.node, nodes, n]
    rfl
  have back := perm.back_lt room
  have inside : x.perm.back < x.slots.length := by rwa [slots]
  have slot := Leaf.slot_assign_self x ka inside
  have ready : c.Ready ka := by
    constructor
    · rwa [node]
    · rw [node]
      exact (List.length_set ..).trans slots
    · rwa [node]
    · rwa [node]
    · rw [node]
      exact slot
  have kept : c.node.entries = l.entries := by
    rw [node, Leaf.entries_assign (perm.not_live (perm.back_free room)), entries]
  have sizes : c.node.size = l.size := by rw [← Leaf.length_entries, ← Leaf.length_entries, kept]
  have pair : l.lower ka = ((l.lower ka).1, none) := by rw [← search]
  have place : c.kxi ≤ c.node.size := by
    rw [kxi, sizes]
    exact (l.lower_bounds ka).1
  have inserts : ∀ v : V, Increasing (l.entries.insertIdx c.kxi (.holding ka (some v))) ∧
      slotSet (l.entries.insertIdx c.kxi (.holding ka (some v))) = putSlot (.holding ka (some v)) (slotSet l.entries) := by
    intro v
    rw [kxi]
    exact (insert_lower holds.sorted pair (Slot.rank_holding ka (some v))).2
  have result : Increasing (c.outcome value).entries ∧
      slotSet (c.outcome value).entries = stored ka value (slotSet l.entries) := by
    rw [ready.entries_outcome, kept]
    cases value with
    | none => exact ⟨holds.sorted, rfl⟩
    | some v => exact inserts v
  have member : ∀ s ∈ (c.outcome value).entries, s ∈ stored ka value (slotSet l.entries) :=
    fun s mem => result.2 ▸ mem_slotSet.mpr mem
  refine .inl ⟨c.outcome value, ?_, ⟨ready.wf place value, result.1, ?_, ?_, ?_, ?_⟩, result.2⟩
  · rw [nodes_outcome (by rw [nodes, n]; exact Nat.one_pos) two, nodes, n]
    rfl
  · intro s mem
    exact (stored_valid holds low high (member s mem)).1
  · intro s mem
    exact (stored_valid holds low high (member s mem)).2
  · intro pos
    rw [ikeyBound_outcome, node]
    by_cases zero : x.perm.back = 0
    · rw [zero] at slot
      show ((x.assign x.perm.back ka).slot 0).ikey0 = lo
      rw [zero, slot, ikey_ofKey]
      exact first zero pos
    · show ((x.assign x.perm.back ka).slot 0).ikey0 = lo
      rw [Leaf.slot_assign x ka (Ne.symm zero)]
      exact bound pos
  · exact alive_outcome (by rw [node]; exact alive.congr rfl rfl) value

/-- What the cursor's leaf has in the end, by the entries with the new one. -/
theorem Ready.result (ready : c.Ready ka) (place : c.kxi ≤ c.node.size) (value : Option V) {X : List (Slot V)}
    (all : c.node.entries.insertIdx c.kxi (.ofKey ka) = X) (sorted : Increasing X) :
    Increasing (c.outcome value).entries ∧
      slotSet (c.outcome value).entries = stored ka value (dropRank ka.rank (slotSet X)) := by
  subst all
  have le : c.kxi ≤ c.node.entries.length := by rwa [Leaf.length_entries]
  have at_ : (c.node.entries.insertIdx c.kxi (.ofKey ka))[c.kxi]? = some (.ofKey ka) := by
    rw [List.getElem?_insertIdx_self, if_pos le]
  have rank : (Slot.ofKey ka : Slot V).rank = ka.rank := rank_ofKey ka
  rw [ready.entries_outcome]
  cases value with
  | none =>
    have erased := sorted.erase at_
    rw [List.eraseIdx_insertIdx_self, rank] at erased
    exact erased
  | some v =>
    have same : (Slot.holding ka (some v)).rank = ka.rank := Slot.rank_holding ka (some v)
    have set_ := sorted.set (s := .holding ka (some v)) at_ (rank.trans same.symm)
    rw [set_insertIdx le] at set_
    refine ⟨set_.1, set_.2.trans ?_⟩
    show putSlot _ _ = putSlot _ (dropRank ka.rank _)
    ext s
    rw [mem_putSlot, mem_putSlot, mem_dropRank, same]
    exact or_congr_right ⟨fun there => ⟨there, there.2⟩, And.left⟩

/-- A new key of two halves is in one of them. -/
theorem divided_set {X Y all O : List (Slot V)} {S : Set (Slot V)} {value : Option V}
    (parts : ∀ s, s ∈ all ↔ s ∈ X ∨ s ∈ Y) (apart : ∀ s ∈ Y, s.rank ≠ ka.rank) (set_ : slotSet all = putSlot (.ofKey ka) S)
    (missing : ∀ s ∈ S, s.rank ≠ ka.rank) (result : slotSet O = stored ka value (dropRank ka.rank (slotSet X))) :
    ∀ s, s ∈ O ∨ s ∈ Y ↔ s ∈ stored ka value S := by
  have rank : (Slot.ofKey ka : Slot V).rank = ka.rank := rank_ofKey ka
  have whole : ∀ s, s ∈ S ↔ (s ∈ X ∨ s ∈ Y) ∧ s.rank ≠ ka.rank := by
    intro s
    have dropped := dropRank_putSlot (a := .ofKey ka) (S := S) (by rwa [rank])
    rw [← set_, rank] at dropped
    rw [← dropped, mem_dropRank, mem_slotSet, parts]
  intro s
  rw [← mem_slotSet, result]
  cases value with
  | none =>
    show s ∈ dropRank _ _ ∨ s ∈ Y ↔ s ∈ S
    rw [mem_dropRank, mem_slotSet, whole]
    constructor
    · rintro (⟨here, other⟩ | there)
      · exact ⟨.inl here, other⟩
      · exact ⟨.inr there, apart s there⟩
    · rintro ⟨here | there, other⟩
      · exact .inl ⟨here, other⟩
      · exact .inr there
  | some v =>
    have same : (Slot.holding ka (some v)).rank = ka.rank := Slot.rank_holding ka (some v)
    show s ∈ putSlot _ (dropRank _ _) ∨ s ∈ Y ↔ s ∈ putSlot _ S
    rw [mem_putSlot, mem_putSlot, mem_dropRank, mem_slotSet, whole, same]
    constructor
    · rintro ((here | ⟨⟨old, other⟩, -⟩) | there)
      · exact .inl here
      · exact .inr ⟨⟨.inl old, other⟩, other⟩
      · exact .inr ⟨⟨.inr there, apart s there⟩, apart s there⟩
    · rintro (here | ⟨⟨old | there, other⟩, -⟩)
      · exact .inl (.inl here)
      · exact .inl (.inr ⟨⟨old, other⟩, other⟩)
      · exact .inr there

/-- A leaf's entries with the new one, of which `left` is to have the first half `X` and `right` the second half `Y`. -/
structure Halved (c : Tcursor V) (lo hi : Nat) (l : Leaf V) (ka : Key) (left right : Leaf V) (X Y : List (Slot V)) : Prop where
  nodes : c.nodes = [left, right]
  ready : c.Ready ka
  place : c.kxi ≤ c.node.size
  sorted : Increasing (X ++ Y)
  all : slotSet (X ++ Y) = putSlot (.ofKey ka) (slotSet l.entries)
  missing : ∀ s ∈ slotSet l.entries, s.rank ≠ ka.rank
  low : lo < right.ikeyBound
  high : right.ikeyBound < hi
  below : ∀ s ∈ X, s.ikey0 < right.ikeyBound
  above : ∀ s ∈ Y, right.ikeyBound ≤ s.ikey0
  leftHalf : (c.finishInsert.leaf 0).entries = X
  rightHalf : (c.finishInsert.leaf 1).entries = Y
  first : 0 < lo → left.ikeyBound = lo

theorem missing_of_lower (sorted : Increasing l.entries) {i : Nat} (search : l.lower ka = (i, none)) :
    ∀ s ∈ slotSet l.entries, s.rank ≠ ka.rank := by
  intro s mem
  rcases Leaf.lower_cases sorted ka with ⟨i', -, found, -⟩ | ⟨i', -, found, below, above⟩
  · cases found.symm.trans search
  · obtain mem | mem := List.mem_append.mp ((List.take_append_drop i' l.entries).symm ▸ mem_slotSet.mp mem)
    · exact Nat.ne_of_lt (below s mem)
    · exact Nat.ne_of_gt (above s mem)

theorem halved (holds : l.Holds lo hi) (low : lo ≤ ka.ikey) (high : ka.ikey < hi) {i mid : Nat} (search : l.lower ka = (i, none))
    (divides : c.Divides (l.entries.insertIdx i (.ofKey ka)) ka mid) (two : c.state = 2) (open_ : c.Opened l)
    (bound : 0 < lo → lo < (c.leaf 1).ikeyBound → (c.leaf 0).ikeyBound = lo) :
    ∃ left right, c.Halved lo hi l ka left right ((l.entries.insertIdx i (.ofKey ka)).take mid)
      ((l.entries.insertIdx i (.ofKey ka)).drop mid) ∧ c.n = if c.ka.ikey < right.ikeyBound then 0 else 1 := by
  obtain ⟨-, sorted, set_⟩ := insert_lower holds.sorted search (rank_ofKey (V := V) ka)
  generalize l.entries.insertIdx i (.ofKey ka) = all at divides sorted set_
  obtain ⟨left, right, nodes, -, -⟩ := divides.two
  have leaf₀ : c.leaf 0 = left := by rw [leaf, nodes]; rfl
  have leaf₁ : c.leaf 1 = right := by rw [leaf, nodes]; rfl
  obtain ⟨kxp, -, slot⟩ := divides.slot
  have ikey : (Slot.ofKey ka : Slot V).ikey0 = ka.ikey := ikey_ofKey ka
  have within : ∀ s ∈ all, lo ≤ s.ikey0 ∧ s.ikey0 < hi := by
    intro s mem
    rcases mem_putSlot.mp (set_ ▸ mem_slotSet.mpr mem) with rfl | ⟨old, -⟩
    · exact ⟨ikey ▸ low, ikey ▸ high⟩
    · exact holds.range s old
  have lowBound : lo < right.ikeyBound := by
    have inside : mid - 1 < all.length := Nat.lt_of_le_of_lt (Nat.sub_le mid 1) divides.inside
    have first : all[mid - 1] ∈ all.take mid := by
      refine List.mem_of_getElem? (i := mid - 1) ?_
      rw [List.getElem?_take_of_lt (Nat.sub_one_lt_of_lt divides.pos), List.getElem?_eq_getElem inside]
    have below := divides.below _ first
    rw [leaf₁] at below
    exact Nat.lt_of_le_of_lt (within _ (List.mem_of_mem_take first)).1 below
  have highBound : right.ikeyBound < hi := by
    have at_ := List.getElem?_eq_getElem divides.inside
    have begins := divides.bound _ at_
    rw [leaf₁] at begins
    exact begins ▸ (within _ (List.getElem_mem _)).2
  refine ⟨left, right, ?_, leaf₁ ▸ divides.here⟩
  constructor
  · exact nodes
  · exact ⟨open_.perm, open_.slots, (open_.room two).1, kxp, slot⟩
  · exact divides.place
  · rwa [List.take_append_drop]
  · rwa [List.take_append_drop]
  · exact missing_of_lower holds.sorted search
  · exact lowBound
  · exact highBound
  · exact leaf₁ ▸ divides.below
  · exact leaf₁ ▸ divides.above
  · exact divides.left
  · exact divides.right
  · exact fun pos => leaf₀ ▸ bound pos (leaf₁.symm ▸ lowBound)

/-- The half that gets the new key, once the cursor has finished, and the other one have what is stored. -/
theorem Ready.half (ready : c.Ready ka) (place : c.kxi ≤ c.node.size) (value : Option V) {X Y all : List (Slot V)} {S : Set (Slot V)}
    (whole : c.node.entries.insertIdx c.kxi (.ofKey ka) = X) (sorted : Increasing X) (parts : ∀ s, s ∈ all ↔ s ∈ X ∨ s ∈ Y)
    (apart : ∀ s ∈ X, ∀ s' ∈ Y, s.rank ≠ s'.rank) (set_ : slotSet all = putSlot (.ofKey ka) S)
    (missing : ∀ s ∈ S, s.rank ≠ ka.rank) : Increasing (c.outcome value).entries ∧
      (∀ s ∈ (c.outcome value).entries, s ∈ X ∨ s.ikey0 = ka.ikey) ∧
        ∀ s, s ∈ (c.outcome value).entries ∨ s ∈ Y ↔ s ∈ stored ka value S := by
  obtain ⟨increasing, result⟩ := ready.result place value whole sorted
  have mine : (Slot.ofKey ka : Slot V) ∈ X := by
    rw [← whole]
    exact List.mem_of_getElem? (i := c.kxi) (by
      rw [List.getElem?_insertIdx_self, if_pos (by rw [Leaf.length_entries]; exact place)])
  have rank : (Slot.ofKey ka : Slot V).rank = ka.rank := rank_ofKey ka
  refine ⟨increasing, ?_, divided_set parts (fun s mem => rank ▸ Ne.symm (apart _ mine s mem)) set_ missing result⟩
  intro s mem
  rcases mem_stored (result ▸ mem_slotSet.mpr mem) with old | ⟨v, rfl⟩
  · exact .inl (mem_dropRank.mp old).1
  · exact .inr (ikey_ofKey (V := V) ka)

/-- A half that has some of what is stored. -/
theorem holds_part (holds : l.Holds lo hi) (low : lo ≤ ka.ikey) (high : ka.ikey < hi) (value : Option V) {m : Leaf V} {a b : Nat}
    (wf : m.Wf) (sorted : Increasing m.entries) (alive : m.Alive) (bound : 0 < a → m.ikeyBound = a)
    (each : ∀ s ∈ m.entries, s ∈ stored ka value (slotSet l.entries) ∧ a ≤ s.ikey0 ∧ s.ikey0 < b) : m.Holds a b :=
  ⟨wf, sorted, fun s mem => (stored_valid holds low high (each s mem).1).1, fun s mem => (each s mem).2, bound, alive⟩

theorem inserted_first {left right : Leaf V} {X Y : List (Slot V)} (holds : l.Holds lo hi) (low : lo ≤ ka.ikey) (high : ka.ikey < hi)
    (halved : c.Halved lo hi l ka left right X Y) (open_ : c.Opened l) (two : c.state = 2) (alive : ∀ m ∈ c.nodes, m.Alive)
    (here : c.n = 0) (small : ka.ikey < right.ikeyBound) (some_ : (stored ka value (slotSet l.entries)).Nonempty) (prev : Bool) :
    Inserted lo hi (stored ka value (slotSet l.entries)) ((c.store value).finish prev (if value.isSome then 1 else 0)).nodes := by
  obtain ⟨first, second⟩ := finishInsert_first halved.nodes here
  have node : c.node = left := by rw [Tcursor.node, halved.nodes, here]; rfl
  have rest : right.entries = Y := by rw [← halved.rightHalf, second]
  have whole : c.node.entries.insertIdx c.kxi (.ofKey ka) = X := by
    rw [← halved.leftHalf, first, Leaf.entries_insertFromBack, ← node, halved.ready.slot]
  obtain ⟨sortedX, sortedY, across⟩ := List.pairwise_append.mp halved.sorted
  obtain ⟨increasing, mine, both⟩ := halved.ready.half halved.place value whole sortedX (fun s => List.mem_append)
    (fun s mem s' mem' => Nat.ne_of_lt (across s mem s' mem')) halved.all halved.missing
  have at_ : c.nodes[1]? = some right := by rw [halved.nodes]; rfl
  have aliveLeft : c.node.Alive := alive _ (by rw [node, halved.nodes]; exact List.mem_cons_self)
  have leftHolds : (c.outcome value).Holds lo right.ikeyBound := by
    refine holds_part holds low high value (halved.ready.wf halved.place value) increasing (alive_outcome aliveLeft value) ?_ ?_
    · intro pos
      rw [ikeyBound_outcome, node]
      exact halved.first pos
    · intro s mem
      have stored_ := (both s).mp (.inl mem)
      refine ⟨stored_, (stored_valid holds low high stored_).2.1, ?_⟩
      rcases mine s mem with old | ikey
      · exact halved.below s old
      · exact ikey.symm ▸ small
  have rightHolds : right.Holds right.ikeyBound hi := by
    refine holds_part holds low high value (open_.others 1 (by rw [here]; decide) right at_) (rest ▸ sortedY)
      (alive right (List.mem_of_getElem? at_)) (fun _ => rfl) ?_
    intro s mem
    rw [rest] at mem
    have stored_ := (both s).mp (.inr mem)
    exact ⟨stored_, halved.above s mem, (stored_valid holds low high stored_).2.2⟩
  refine .inr ⟨c.outcome value, right, ?_, halved.low, halved.high, leftHolds, rightHolds, ?_, some_⟩
  · rw [nodes_outcome open_.inside two prev value, halved.nodes, here]
    rfl
  · ext s
    rw [mem_slotSet, List.mem_append, rest]
    exact both s

theorem inserted_second {left right : Leaf V} {X Y : List (Slot V)} (holds : l.Holds lo hi) (low : lo ≤ ka.ikey) (high : ka.ikey < hi)
    (halved : c.Halved lo hi l ka left right X Y) (open_ : c.Opened l) (two : c.state = 2) (alive : ∀ m ∈ c.nodes, m.Alive)
    (here : c.n = 1) (great : right.ikeyBound ≤ ka.ikey) (some_ : (stored ka value (slotSet l.entries)).Nonempty) (prev : Bool) :
    Inserted lo hi (stored ka value (slotSet l.entries)) ((c.store value).finish prev (if value.isSome then 1 else 0)).nodes := by
  obtain ⟨first, second⟩ := finishInsert_second halved.nodes here
  have node : c.node = right := by rw [Tcursor.node, halved.nodes, here]; rfl
  have rest : left.entries = X := by rw [← halved.leftHalf, first]
  have whole : c.node.entries.insertIdx c.kxi (.ofKey ka) = Y := by
    rw [← halved.rightHalf, second, Leaf.entries_insertFromBack, ← node, halved.ready.slot]
  obtain ⟨sortedX, sortedY, across⟩ := List.pairwise_append.mp halved.sorted
  obtain ⟨increasing, mine, both⟩ := halved.ready.half halved.place value whole sortedY
    (fun s => List.mem_append.trans or_comm) (fun s mem s' mem' => Nat.ne_of_gt (across s' mem' s mem)) halved.all halved.missing
  have at_ : c.nodes[0]? = some left := by rw [halved.nodes]; rfl
  have same : (c.outcome value).ikeyBound = right.ikeyBound := by rw [ikeyBound_outcome, node]
  have aliveRight : c.node.Alive := alive _ (by rw [node, halved.nodes]; exact List.mem_cons_of_mem _ List.mem_cons_self)
  have leftHolds : left.Holds lo right.ikeyBound := by
    refine holds_part holds low high value (open_.others 0 (by rw [here]; decide) left at_) (rest ▸ sortedX)
      (alive left (List.mem_of_getElem? at_)) halved.first ?_
    intro s mem
    rw [rest] at mem
    have stored_ := (both s).mp (.inr mem)
    exact ⟨stored_, (stored_valid holds low high stored_).2.1, halved.below s mem⟩
  have rightHolds : (c.outcome value).Holds right.ikeyBound hi := by
    refine holds_part holds low high value (halved.ready.wf halved.place value) increasing (alive_outcome aliveRight value)
      (fun _ => same) ?_
    intro s mem
    have stored_ := (both s).mp (.inl mem)
    refine ⟨stored_, ?_, (stored_valid holds low high stored_).2.2⟩
    rcases mine s mem with old | ikey
    · exact halved.above s old
    · exact ikey.symm ▸ great
  refine .inr ⟨left, c.outcome value, ?_, same.symm ▸ halved.low, same.symm ▸ halved.high, same.symm ▸ leftHolds,
    same.symm ▸ rightHolds, ?_, some_⟩
  · rw [nodes_outcome open_.inside two prev value, halved.nodes, here]
    rfl
  · ext s
    rw [mem_slotSet, List.mem_append, rest, or_comm]
    exact both s

/-- The leaf splits. -/
theorem inserted_split {mid : Nat} (holds : l.Holds lo hi) (low : lo ≤ ka.ikey) (high : ka.ikey < hi) {i : Nat}
    (search : l.lower ka = (i, none)) (divides : c.Divides (l.entries.insertIdx i (.ofKey ka)) ka mid) (ckey : c.ka = ka)
    (two : c.state = 2) (open_ : c.Opened l) (alive : ∀ m ∈ c.nodes, m.Alive)
    (bound : 0 < lo → lo < (c.leaf 1).ikeyBound → (c.leaf 0).ikeyBound = lo) (prev : Bool) (value : Option V) :
    Inserted lo hi (stored ka value (slotSet l.entries)) ((c.store value).finish prev (if value.isSome then 1 else 0)).nodes := by
  have some_ : (stored ka value (slotSet l.entries)).Nonempty := by
    have le := (insert_lower holds.sorted search (rank_ofKey (V := V) ka)).1
    have inside := divides.inside
    have pos := divides.pos
    rw [List.length_insertIdx_of_le_length (by rwa [Leaf.length_entries])] at inside
    cases value with
    | none => exact ⟨_, List.getElem_mem (show 0 < l.entries.length by omega)⟩
    | some v => exact ⟨_, mem_putSlot.mpr (.inl rfl)⟩
  obtain ⟨left, right, halved, here⟩ := halved holds low high search divides two open_ bound
  rw [ckey] at here
  by_cases small : ka.ikey < right.ikeyBound
  · rw [if_pos small] at here
    exact inserted_first holds low high halved open_ two alive here small some_ prev
  · rw [if_neg small] at here
    exact inserted_second holds low high halved open_ two alive here (Nat.le_of_not_lt small) some_ prev

/-- The leaves of a split. -/
theorem split_leaves {c' : Tcursor V} (nodes : c.nodes = [x]) (first : c.n = 0)
    (full : ¬(x.size < width ∧ (x.perm.exchange x.size (width - 1)).back ≠ 0)) (made : c.makeSplit prev next = some c') :
    c'.state = c.state ∧ c'.ka = c.ka ∧ ∃ s, x.splitInto prev next c.ka c.kxi = some s ∧
      (c'.nodes = [(x.strip s.right).assign (x.strip s.right).perm.back c.ka, s.right.unlock] ∧ c'.n = 0 ∨
        c'.nodes = [(x.strip s.right).unlock, s.right] ∧ c'.n = 1) := by
  have node : c.node = x := by
    rw [Tcursor.node, nodes, first]
    rfl
  unfold makeSplit at made
  rw [node] at made
  dsimp only at made
  rw [if_neg full] at made
  obtain ⟨s, split_, same⟩ := Option.map_eq_some_iff.mp made
  split at same
  · rw [← same]
    exact ⟨rfl, rfl, s, split_, .inl ⟨rfl, first⟩⟩
  · rw [← same]
    exact ⟨rfl, rfl, s, split_, .inr ⟨rfl, rfl⟩⟩

/-- The slot that the left half takes for the new key is not the one with the leaf's bound. -/
theorem back_strip (crowded : x.Crowded) {right : Leaf V} (some_ : 0 < right.size) (le : right.size ≤ x.size)
    (zero : (x.strip right).perm.back = 0) : ∀ s ∈ x.entries, s.ikey0 ≤ x.ikeyBound := by
  rcases crowded.full with full | ⟨size, free⟩
  · have same : (x.strip right).perm = x.perm.setSize (x.size - right.size) := if_neg (fun other => other full)
    rw [same, Permuter.back, Permuter.get_setSize] at zero
    have last : x.entries[14]? = some (x.slot (x.perm.get 14)) := Leaf.getElem?_entries (by omega)
    rw [show x.perm.get 14 = 0 from zero] at last
    intro s mem
    obtain ⟨i, at_⟩ := List.mem_iff_getElem?.mp mem
    have inside := (List.getElem?_eq_some_iff.mp at_).1
    rw [Leaf.length_entries] at inside
    obtain ⟨j, rest⟩ := Nat.exists_eq_add_of_le (show i ≤ 14 by omega)
    rw [rest] at last
    exact ikey_le (Nat.le_trans (Nat.le_add_right _ _) (crowded.sorted.rank_add at_ last))
  · exfalso
    have same : (x.strip right).perm =
        (x.perm.setSize (x.size - right.size)).exchange (x.perm.setSize (x.size - right.size)).size (width - 1) :=
      if_pos (show x.size ≠ width by rw [size]; decide)
    have shrunk := Permuter.size_setSize crowded.perm (n := x.size - right.size) (by omega)
    rw [same, Permuter.back_exchange (crowded.perm.setSize _), Permuter.get_setSize, shrunk] at zero
    have live : x.perm.get (x.size - right.size) ∈ x.perm.live := Permuter.get_mem_live (show _ < x.size by omega)
    rw [zero] at live
    exact crowded.perm.not_live (by rw [free]; exact List.mem_singleton_self 0) live

theorem crowded_of_full (perm : x.perm.Wf) (slots : x.slots.length = width) (sorted : Increasing x.entries)
    (back : x.size < width → x.perm.back = 0) (full : ¬(x.size < width ∧ (x.perm.exchange x.size (width - 1)).back ≠ 0)) :
    x.Crowded := by
  refine ⟨perm, slots, sorted, ?_⟩
  have most : x.size ≤ 15 := perm.size_le
  by_cases size : x.size = 15
  · exact .inl size
  · right
    have less : x.size < width := Nat.lt_of_le_of_ne most size
    have many := size_of_full perm back (fun less => by
      by_contra other
      exact full ⟨less, other⟩)
    have exact_ : x.size = 14 := by
      unfold width at less
      omega
    have one : x.perm.free.length = 1 := by
      have length := perm.length
      change x.perm.live.length = 14 at exact_
      omega
    obtain ⟨s, free⟩ := List.length_eq_one_iff.mp one
    have last := perm.back_eq less
    simp only [free, List.getLast_singleton] at last
    exact ⟨exact_, by rw [free, ← last, back less]⟩

/-- The left half of a split keeps the bound. -/
theorem bound_split (crowded : x.Crowded) {c' : Tcursor V} {kxi mid : Nat} {right : Leaf V} (le : kxi ≤ x.size)
    (divides : c'.Divides (x.entries.insertIdx kxi (.ofKey ka)) ka mid) (ckey : c'.ka = ka)
    (leaves : c'.nodes = [(x.strip right).assign (x.strip right).perm.back ka, right.unlock] ∧ c'.n = 0 ∨
      c'.nodes = [(x.strip right).unlock, right] ∧ c'.n = 1) (above : x.ikeyBound < (c'.leaf 1).ikeyBound) :
    (c'.leaf 0).ikeyBound = x.ikeyBound := by
  rcases leaves with ⟨nodes, n⟩ | ⟨nodes, n⟩
  · obtain ⟨-, second⟩ := finishInsert_first nodes n
    have rest : right.entries = (x.entries.insertIdx kxi (.ofKey ka)).drop mid := by
      rw [← divides.right, second, Leaf.entries_unlock]
    have length := congrArg List.length rest
    have all : (x.entries.insertIdx kxi (.ofKey ka)).length = x.size + 1 := by
      rw [List.length_insertIdx_of_le_length (by rwa [Leaf.length_entries]), Leaf.length_entries]
    have inside := divides.inside
    have begins := divides.pos
    rw [Leaf.length_entries, List.length_drop, all] at length
    rw [all] at inside
    have kept : (x.strip right).perm.back ≠ 0 := by
      intro zero
      have least := back_strip crowded (by omega) (by omega) zero
      have bound := divides.bound _ (List.getElem?_eq_getElem divides.inside)
      have here := divides.here
      rw [n, ckey] at here
      rcases List.eq_or_mem_of_mem_insertIdx (List.getElem_mem divides.inside) with new | old
      · rw [new, ikey_ofKey] at bound
        rw [bound, if_neg (Nat.lt_irrefl _)] at here
        cases here
      · have le := least _ old
        rw [← bound] at le
        exact absurd above (Nat.not_lt_of_le le)
    rw [leaf, nodes]
    show (Leaf.slot (Leaf.assign _ _ _) 0).ikey0 = _
    rw [Leaf.slot_assign _ _ (Ne.symm kept)]
    rfl
  · rw [leaf, nodes]
    rfl

/-- A key that the leaf does not have. -/
theorem inserted_none (holds : l.Holds lo hi) (low : lo ≤ ka.ikey) (high : ka.ikey < hi) (search : (l.lower ka).2 = none)
    (before : prev = true ↔ 0 < lo) (next : Bool) : ∃ c, findInsert l prev next ka = some c ∧ ∀ value : Option V,
      Inserted lo hi (stored ka value (slotSet l.entries)) ((c.store value).finish prev (if value.isSome then 1 else 0)).nodes := by
  obtain ⟨alive, live⟩ := holds.alive.found
  have found : findInsert l prev next ka = _ := findInsert_none alive live search
  have aliveX : l.lock.startInsert.Alive := holds.alive.lock.startInsert
  have permX : l.lock.startInsert.perm = l.perm := Leaf.perm_startInsert _
  have slotsX : l.lock.startInsert.slots = l.slots := Leaf.slots_startInsert _
  have entriesX : l.lock.startInsert.entries = l.entries := Leaf.entries_startInsert _
  generalize l.lock.startInsert = x at found aliveX permX slotsX entriesX
  have wfX : x.perm.Wf := permX ▸ holds.wf.perm
  have lengthX : x.slots.length = width := slotsX ▸ holds.wf.slots
  have sizeX : x.size = l.size := by rw [Leaf.size, permX, Leaf.size]
  have boundX : x.ikeyBound = l.ikeyBound := by rw [Leaf.ikeyBound, Leaf.slot, slotsX, Leaf.ikeyBound, Leaf.slot]
  have searchX : x.lower ka = l.lower ka := by
    unfold Leaf.lower Leaf.size Leaf.slot
    rw [permX, slotsX]
  have pair : l.lower ka = ((l.lower ka).1, none) := by rw [← search]
  by_cases room : x.size < width ∧ (x.perm.back ≠ 0 ∨ ¬prev ∨ x.ikeyBound = ka.ikey)
  · -- the last free slot will do, unless it is the one with the bound
    rw [if_pos room] at found
    refine ⟨_, found, inserted_here holds low high search rfl rfl rfl rfl rfl wfX lengthX room.1 entriesX aliveX ?_ ?_ prev⟩
    · intro pos
      rw [boundX]
      exact holds.bound pos
    · intro zero pos
      rcases room.2 with other | none_ | same
      · exact absurd zero other
      · exact absurd (before.mpr pos) none_
      · rw [← same, boundX]
        exact holds.bound pos
  · rw [if_neg room] at found
    by_cases room' : x.size < width ∧ (x.perm.exchange x.size (width - 1)).back ≠ 0
    · -- another free slot comes in its place
      have made : makeSplit { absent l ka with nodes := [x] } prev next = some { absent l ka with
          nodes := [{ x with perm := x.perm.exchange x.size (width - 1) }.assign (x.perm.exchange x.size (width - 1)).back ka]
          kxp := some (x.perm.exchange x.size (width - 1)).back } := if_pos room'
      have exchanged : (x.perm.exchange x.size (width - 1)).live = x.perm.live :=
        Permuter.live_exchange (Nat.le_refl _) (Nat.le_of_lt_succ room'.1)
      have kept : ({ x with perm := x.perm.exchange x.size (width - 1) } : Leaf V).entries = x.entries :=
        Leaf.entries_congr exchanged fun _ _ => rfl
      have small : ({ x with perm := x.perm.exchange x.size (width - 1) } : Leaf V).size < 15 := by
        rw [← Leaf.length_entries, kept, Leaf.length_entries]
        exact room'.1
      exact ⟨_, found.trans made, inserted_here (x := { x with perm := x.perm.exchange x.size (width - 1) }) holds low high search
        rfl rfl rfl rfl rfl (wfX.exchange room'.1 (by decide)) lengthX small (kept.trans entriesX) (aliveX.congr rfl rfl)
        (fun pos => boundX.trans (holds.bound pos)) (fun zero _ => absurd zero room'.2) prev⟩
    · have crowded := crowded_of_full wfX lengthX (entriesX ▸ holds.sorted) (fun less => by
        by_contra other
        exact room ⟨less, .inl other⟩) room'
      obtain ⟨c', mid, made, divides⟩ := makeSplit_divides crowded (c := { absent l ka with nodes := [x] }) rfl rfl
        (searchX.trans pair) prev next
      change c'.Divides (x.entries.insertIdx (l.lower ka).1 (.ofKey ka)) ka mid at divides
      obtain ⟨state, ckey, s, split_, leaves⟩ := split_leaves rfl rfl room' made
      have open_ := findInsert_opened holds.wf (found.trans made)
      have le : (l.lower ka).1 ≤ x.size := by
        rw [sizeX]
        exact (l.lower_bounds ka).1
      have bound := bound_split crowded le divides ckey leaves
      rw [entriesX] at divides
      refine ⟨c', found.trans made, inserted_split holds low high pair divides ckey state open_ ?_ ?_ prev⟩
      · have aliveLeft : (x.strip s.right).Alive := aliveX.markSplit.congr rfl rfl
        have aliveRight : s.right.Alive := by
          obtain ⟨mid, -, rfl⟩ := Option.map_eq_some_iff.mp split_
          exact ⟨aliveX.clear, aliveX.kept, show Modstate.insert ≠ .deletedLayer by decide⟩
        intro m mem
        rcases leaves with ⟨nodes, -⟩ | ⟨nodes, -⟩
        · rw [nodes] at mem
          rcases List.mem_cons.mp mem with rfl | mem
          · exact aliveLeft.congr rfl rfl
          · rw [List.mem_singleton.mp mem]
            exact aliveRight.unlock
        · rw [nodes] at mem
          rcases List.mem_cons.mp mem with rfl | mem
          · exact aliveLeft.unlock
          · rw [List.mem_singleton.mp mem]
            exact aliveRight
      · intro pos above
        rw [boundX, holds.bound pos] at bound
        exact bound above

/-- The entry of the key's rank, where the search finds one. -/
theorem search_some (holds : l.Holds lo hi) {i p : Nat} (search : l.lower ka = (i, some p)) :
    i < l.size ∧ p = l.perm.get i ∧ (l.slot p).rank = ka.rank ∧ l.entries[i]? = some (l.slot p) := by
  rcases Leaf.lower_cases holds.sorted ka with ⟨i', lt, found, rank⟩ | ⟨i', -, found, -⟩
  · obtain ⟨rfl, same⟩ := Prod.mk.inj (found.symm.trans search)
    obtain rfl := Option.some.inj same
    exact ⟨lt, rfl, rank, Leaf.getElem?_entries lt⟩
  · cases found.symm.trans search

/-- Another slot of the same rank comes in the place of one. -/
theorem modified (holds : l.Holds lo hi) {i p : Nat} (search : l.lower ka = (i, some p)) {f : Slot V → Slot V} {e : Slot V}
    (same : f (l.slot p) = e) (rank : e.rank = ka.rank) (ikey : ∀ s : Slot V, (f s).ikey0 = s.ikey0) (valid : e.Valid) (m : Leaf V)
    (perm : m.perm = l.perm) (slots : m.slots = l.slots.modify p f) (alive : m.Alive) :
    m.unlock.Holds lo hi ∧ slotSet m.unlock.entries = putSlot e (slotSet l.entries) := by
  obtain ⟨lt, rfl, rank', at_⟩ := search_some holds search
  have entries : m.entries = l.entries.set i e := by
    have modify := Leaf.entries_modify holds.wf.perm holds.wf.slots f lt
    rw [same] at modify
    rw [← modify]
    unfold Leaf.entries Leaf.slot
    rw [perm, slots]
  obtain ⟨sorted, set_⟩ := holds.sorted.set at_ (rank'.trans rank.symm)
  rw [← entries] at sorted set_
  have old := holds.range _ (List.mem_of_getElem? at_)
  refine ⟨⟨?_, sorted, ?_, ?_, ?_, alive.unlock⟩, set_⟩
  · refine Leaf.unlock_wf (perm ▸ holds.wf.perm) ?_
    rw [slots, List.length_modify, holds.wf.slots]
  · intro s mem
    rcases mem_putSlot.mp (set_ ▸ mem_slotSet.mpr mem) with rfl | ⟨there, -⟩
    · exact valid
    · exact holds.valid s there
  · intro s mem
    rcases mem_putSlot.mp (set_ ▸ mem_slotSet.mpr mem) with rfl | ⟨there, -⟩
    · rw [← same, ikey]
      exact old
    · exact holds.range s there
  · intro pos
    rw [← holds.bound pos]
    show (m.slot 0).ikey0 = (l.slot 0).ikey0
    unfold Leaf.slot
    rw [slots, List.getD_eq_getElem?_getD, List.getD_eq_getElem?_getD, List.getElem?_modify]
    cases l.slots[0]? with
    | none => rfl
    | some s =>
      rw [Option.map_eq_map, Option.map_some, Option.getD_some, Option.getD_some]
      split
      · exact ikey s
      · rfl

/-- A leaf as it was. -/
theorem relocked (holds : l.Holds lo hi) : l.lock.unlock.Holds lo hi :=
  ⟨Leaf.unlock_wf holds.wf.perm holds.wf.slots, holds.sorted, holds.valid, holds.range, holds.bound, holds.alive.lock.unlock⟩

/-- A key that the leaf has. -/
theorem inserted_yes (holds : l.Holds lo hi) {i p : Nat} (search : l.lower ka = (i, some p))
    (matches_ : (l.slot p).ksufMatches ka = .yes) (prev next : Bool) : ∃ c, findInsert l prev next ka = some c ∧
      ∀ value : Option V, ∃ m, ((c.store value).finish prev (if value.isSome then 1 else 0)).nodes = [m] ∧ m.Holds lo hi ∧
        slotSet m.entries = stored ka value (slotSet l.entries) := by
  obtain ⟨alive, live⟩ := holds.alive.found
  obtain ⟨lt, -, rank, at_⟩ := search_some holds search
  have found : findInsert l prev next ka = _ := findInsert_yes alive live (by rw [search]) matches_
  refine ⟨_, found, ?_⟩
  intro value
  cases value with
  | none => exact ⟨_, nodes_cancel Nat.one_pos prev, relocked holds, rfl⟩
  | some v =>
    obtain ⟨v₀, slot⟩ := (holds.valid _ (List.mem_of_getElem? at_)).of_yes rank matches_
    have kxp : (absent l ka).kxp = some p := congrArg Prod.snd search
    have finished := nodes_update (c := { absent l ka with state := 1 }) Nat.one_pos rfl prev v
    obtain ⟨here, set_⟩ := modified holds search (f := ({ · with lv := some v })) (e := .holding ka (some v)) (by rw [slot]; rfl)
      (Slot.rank_holding _ _) (fun _ => rfl) (.key ka v) (l.lock.setValue ((absent l ka).kxp.getD 0) v) rfl (by rw [kxp]; rfl)
      (holds.alive.lock.congr rfl rfl)
    exact ⟨_, finished, here, set_⟩

end Insertions

/-! ### Removes -/

section Removes
variable {lo hi : Nat} {s : Slot V}

theorem removed (holds : l.Holds lo hi) (node : c.node = l.lock) (at_ : l.entries[c.kxi]? = some s) (prev : Bool) :
    slotSet (c.removeLayer prev).entries = dropRank s.rank (slotSet l.entries) ∧
      (c.removeLayer prev).ikeyBound = l.ikeyBound ∧
        ((c.removeLayer prev).size = 0 ∧ prev = true ∨ (c.removeLayer prev).Holds lo hi) := by
  obtain ⟨sorted, set_⟩ := holds.sorted.erase at_
  have inside : c.kxi < l.size := by
    have inside := (List.getElem?_eq_some_iff.mp at_).1
    rwa [Leaf.length_entries] at inside
  have perm : (l.lock.finishRemove c.kxi).perm = l.perm.remove c.kxi := by
    unfold Leaf.finishRemove
    dsimp only
    split <;> rfl
  have slots : (l.lock.finishRemove c.kxi).slots = l.slots := by
    unfold Leaf.finishRemove
    dsimp only
    split <;> rfl
  have entries : (l.lock.finishRemove c.kxi).entries = l.entries.eraseIdx c.kxi := by
    have erased := Leaf.entries_remove l c.kxi
    rw [← erased]
    unfold Leaf.entries Leaf.slot
    rw [perm, slots]
  have bound : (l.lock.finishRemove c.kxi).ikeyBound = l.ikeyBound := by
    rw [Leaf.ikeyBound, Leaf.slot, slots, Leaf.ikeyBound, Leaf.slot]
  have alive := holds.alive.lock.finishRemove c.kxi
  unfold removeLayer
  rw [node]
  dsimp only
  rw [← entries] at sorted set_
  generalize l.lock.finishRemove c.kxi = m at *
  by_cases goes : m.size = 0 ∧ prev = true
  · rw [if_pos goes]
    exact ⟨set_, bound, .inl goes⟩
  · rw [if_neg goes]
    refine ⟨set_, bound, .inr ⟨Leaf.unlock_wf ?_ ?_, sorted, ?_, ?_, ?_, alive.unlock⟩⟩
    · rw [perm]
      exact holds.wf.perm.remove inside
    · rw [slots, holds.wf.slots]
    · intro s mem
      exact holds.valid s (set_ ▸ mem_slotSet.mpr mem : s ∈ dropRank _ _).1
    · intro s mem
      exact holds.range s (set_ ▸ mem_slotSet.mpr mem : s ∈ dropRank _ _).1
    · intro pos
      exact bound.trans (holds.bound pos)

/-- `finish(-1)` where the key is. -/
theorem removed_yes (holds : l.Holds lo hi) {i p : Nat} (search : l.lower ka = (i, some p))
    (matches_ : (l.slot p).ksufMatches ka = .yes) (prev : Bool) : ∃ c m, findLocked l ka = some c ∧ c.state = 1 ∧
      (c.finish prev (-1)).leaf 0 = m ∧ slotSet m.entries = dropRank ka.rank (slotSet l.entries) ∧ m.ikeyBound = l.ikeyBound ∧
        (m.size = 0 ∧ prev = true ∨ m.Holds lo hi) := by
  obtain ⟨alive, live⟩ := holds.alive.found
  obtain ⟨lt, -, rank, at_⟩ := search_some holds search
  have found := findLocked_some alive live (show (l.lower ka).2 = some p by rw [search])
  rw [matches_, if_neg (by decide), if_pos rfl] at found
  refine ⟨_, _, found, rfl, rfl, ?_⟩
  have result := removed (c := ⟨[l.lock], 0, ka, (l.lower ka).1, some p, 1, 0, 0, []⟩) holds rfl (by rw [search]; exact at_) prev
  rw [removeLayer_eq, rank] at result
  have finished := (nodes_finish (c := ⟨[l.lock], 0, ka, (l.lower ka).1, some p, 1, 0, 0, []⟩) Nat.one_pos prev (-1)).1
  rw [leaf, finished]
  exact result

/-- `finish(0)` where it is not. -/
theorem removed_no (holds : l.Holds lo hi) (missing : ∀ p, (l.lower ka).2 = some p → (l.slot p).ksufMatches ka = .no) (prev : Bool) :
    ∃ c m, findLocked l ka = some c ∧ c.state ≠ 1 ∧ (c.finish prev 0).leaf 0 = m ∧ m.Holds lo hi ∧ m.entries = l.entries := by
  obtain ⟨alive, live⟩ := holds.alive.found
  have leaf_ : ∀ kxp : Option Nat, (finish ⟨[l.lock], 0, ka, (l.lower ka).1, kxp, 0, 0, 0, []⟩ prev 0).leaf 0 = l.lock.unlock := by
    intro kxp
    have finished := nodes_cancel (c := ⟨[l.lock], 0, ka, (l.lower ka).1, kxp, 0, 0, 0, []⟩) Nat.one_pos prev
    exact congrArg (fun nodes => nodes.getD 0 .makeRoot) finished
  cases search : (l.lower ka).2 with
  | none => exact ⟨_, _, findLocked_none alive live search, Nat.zero_ne_one, leaf_ none, relocked holds, rfl⟩
  | some p =>
    have found := findLocked_some alive live search
    rw [missing p search, if_neg (by decide), if_neg (by decide)] at found
    exact ⟨_, _, found, Nat.zero_ne_one, leaf_ (some p), relocked holds, rfl⟩

end Removes

end Tcursor

end Masstree.Tree
