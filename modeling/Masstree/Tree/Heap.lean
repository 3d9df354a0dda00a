import Masstree.Tree.Versions

/-!
# The leaves of a table

Inserts, removes and layer collections, as they change one leaf after another. Which leaf an operation comes to, what
neighbours that leaf has and which of its slices the key is at are left open.
-/

namespace Masstree.Tree
open Msgpack (Bytes)
open Nodeversion (lockBit insertingBit splittingBit rootBit)

variable {V : Type}

/-! ### Operations -/

namespace Tcursor

/-- The cursor of `gc_layer`, at the slot of the layer with the key. -/
def gcLayer (l : Leaf V) (ka : Key) : Option (Tcursor V) :=
  (findLocked l ka).bind fun c =>
    let kxi := if c.kxp.isSome then c.kxi + 1 else c.kxi
    let slot := l.slot (l.perm.get kxi)
    if ka.hasSuffix ∨ l.size ≤ kxi ∨ slot.ikey0 ≠ ka.ikey ∨ ¬slot.isLayer then none
    else some { c with kxi, kxp := some (l.perm.get kxi) }

/-- `finish_remove` and the unlocking in the callback of `gc_layer`. -/
def removeLayer (c : Tcursor V) (prev : Bool) : Leaf V :=
  let l := c.node.finishRemove c.kxi
  if l.size = 0 ∧ prev then l.markDeleted.unlock else l.unlock

end Tcursor

/-- What `gc_layer` does to the layer's one leaf. -/
def Leaf.markDeletedLayer (l : Leaf V) : Leaf V := { l.lock with modstate := .deletedLayer }.unlock

def Leaf.makeLayerRoot (l : Leaf V) : Leaf V := { l.lock with version := l.lock.version.markRoot }.unlock

/-- The leaves there have been, in the order they were made. -/
structure Heap (V : Type) where
  leaves : List (Leaf V)

namespace Heap

/-- Operations that come to leaf `i`, which has neighbours or not. -/
inductive Op (V : Type) where
  | insert (i : Nat) (prev next : Bool) (ka : Key) (value : Option V) (state : Int)
  | locked (i : Nat) (prev : Bool) (ka : Key) (value : Option V) (state : Int)
  /-- the layer whose one leaf is `j` -/
  | collect (i j : Nat) (prev : Bool) (ka : Key)
  | layerRoot (i : Nat)

def start : Heap V := ⟨[.makeRoot]⟩

def leaf (h : Heap V) (i : Nat) : Leaf V := h.leaves.getD i .makeRoot

/-- The cursor's first leaf was leaf `i`; the others are new. -/
def put (h : Heap V) (i : Nat) (c : Tcursor V) : Heap V := ⟨h.leaves.set i (c.leaf 0) ++ c.nodes.tail⟩

def step (h : Heap V) : Op V → Option (Heap V)
  | .insert i prev next ka value state =>
    (h.leaves[i]?).bind fun l => (Tcursor.findInsert l prev next ka).map fun c =>
      h.put i ((c.store value).finish prev state)
  | .locked i prev ka value state =>
    (h.leaves[i]?).bind fun l => (Tcursor.findLocked l ka).map fun c => h.put i ((c.store value).finish prev state)
  | .collect i j prev ka =>
    (h.leaves[i]?).bind fun l => (h.leaves[j]?).bind fun layer => (Tcursor.gcLayer l ka).bind fun c =>
      if i ≠ j ∧ layer.size = 0 ∧ layer.version.has rootBit then
        some ⟨(h.leaves.set i (c.removeLayer prev)).set j layer.markDeletedLayer⟩
      else none
  | .layerRoot i => (h.leaves[i]?).map fun l => ⟨h.leaves.set i l.makeLayerRoot⟩

/-- How far the counters of leaf `i` move over a run. -/
def advance (i : Nat) : Heap V → List (Op V) → Nat
  | _, [] => 0
  | h, op :: ops =>
    match h.step op with
    | none => 0
    | some next =>
      ((next.leaf i).version.counter + 2 ^ 25 - (h.leaf i).version.counter) % 2 ^ 25 + advance i next ops

end Heap

/-! ### What moves a leaf's counters -/

namespace Leaf

variable {l l' l'' : Leaf V}

/-- All that can happen to a leaf whose counters do not move: it only grows, or only shrinks. -/
structure Quiet (l l' : Leaf V) : Prop where
  mode : l'.modstate = l.modstate ∨ l'.modstate = .deletedLayer
  keys : l'.keys = l.keys ∨ (l.modstate = .insert ∧ l.size < l'.size) ∨ (l.modstate = .remove ∧ l'.size < l.size)

theorem Quiet.refl (l : Leaf V) : l.Quiet l := ⟨.inl rfl, .inl rfl⟩

theorem Quiet.trans (first : l.Quiet l') (second : l'.Quiet l'') : l.Quiet l'' := by
  have modes : ∀ m, m ≠ .deletedLayer → l'.modstate = m → l.modstate = m := by
    intro m live same
    rcases first.mode with kept | gone
    · rw [← kept, same]
    · exact absurd (same.symm.trans gone) live
  refine ⟨?_, ?_⟩
  · rcases second.mode with kept | gone
    · rw [kept]
      exact first.mode
    · exact .inr gone
  · have sizes : l'.keys = l.keys → l'.size = l.size := by
      intro same
      rw [size_eq_length_keys, size_eq_length_keys, same]
    have sizes' : l''.keys = l'.keys → l''.size = l'.size := by
      intro same
      rw [size_eq_length_keys, size_eq_length_keys, same]
    rcases first.keys with same | ⟨insert, grows⟩ | ⟨remove, shrinks⟩
    · rcases second.keys with same' | ⟨insert, grows⟩ | ⟨remove, shrinks⟩
      · exact .inl (same'.trans same)
      · exact .inr (.inl ⟨modes .insert nofun insert, by rw [← sizes same]; exact grows⟩)
      · exact .inr (.inr ⟨modes .remove nofun remove, by rw [← sizes same]; exact shrinks⟩)
    · rcases second.keys with same' | ⟨-, grows'⟩ | ⟨remove, -⟩
      · exact .inr (.inl ⟨insert, by rw [sizes' same']; exact grows⟩)
      · exact .inr (.inl ⟨insert, Nat.lt_trans grows grows'⟩)
      · exact absurd (insert.symm.trans (modes .remove nofun remove)) nofun
    · rcases second.keys with same' | ⟨insert, -⟩ | ⟨-, shrinks'⟩
      · exact .inr (.inr ⟨remove, by rw [sizes' same']; exact shrinks⟩)
      · exact absurd (remove.symm.trans (modes .insert nofun insert)) nofun
      · exact .inr (.inr ⟨remove, Nat.lt_trans shrinks' shrinks⟩)

def Moves (l l' : Leaf V) : Prop := l'.version.counter = l.version.counter → l.Quiet l'

theorem makeLayerRoot_moves (wf : l.Wf) : l.makeLayerRoot.Wf ∧ l.Moves l.makeLayerRoot :=
  ⟨unlock_wf wf.perm wf.slots, fun _ => ⟨.inl rfl, .inl rfl⟩⟩

theorem markDeletedLayer_moves (wf : l.Wf) : l.markDeletedLayer.Wf ∧ l.Moves l.markDeletedLayer :=
  ⟨unlock_wf wf.perm wf.slots, fun _ => ⟨.inr rfl, .inl rfl⟩⟩

end Leaf

namespace Tcursor

variable {l : Leaf V} {c : Tcursor V} {ka : Key} {prev : Bool} {state : Int}

/-- `finish` only marks the version: not at all, unless it switches `modstate_` or deletes the leaf. -/
theorem version_finished_cases (c : Tcursor V) (prev : Bool) (state : Int) :
    (c.finished prev state).version.counter = c.node.version.counter ∧
      ((c.finished prev state).version = c.node.version ∧ ¬((state < 0 ∧ c.state = 1) ∧ c.node.modstate = .insert) ∨
        (c.finished prev state).version.has splittingBit = true ∨ (c.finished prev state).version.has insertingBit = true) := by
  unfold finished
  by_cases removes : state < 0 ∧ c.state = 1
  · rw [if_pos removes]
    dsimp only
    have version : (c.node.finishRemove c.kxi).version =
        if c.node.modstate = .insert then c.node.version.markInsert else c.node.version := by
      unfold Leaf.finishRemove
      split <;> rfl
    have counter : (c.node.finishRemove c.kxi).version.counter = c.node.version.counter := by
      rw [version]
      split
      · exact Nodeversion.counter_markInsert _
      · rfl
    split
    · exact ⟨(Nodeversion.counter_markDeleted _).trans counter, .inr (.inl (Nodeversion.splitting_markDeleted _))⟩
    · refine ⟨counter, ?_⟩
      rw [version]
      split
      · exact .inr (.inr (Nodeversion.inserting_markInsert _))
      · rename_i other
        exact .inl ⟨rfl, fun both => other both.2⟩
  · have none : ¬((state < 0 ∧ c.state = 1) ∧ c.node.modstate = .insert) := fun both => removes both.1
    rw [if_neg removes]
    split <;> exact ⟨rfl, .inl ⟨rfl, none⟩⟩

theorem modstate_finished (keeps : ¬((state < 0 ∧ c.state = 1) ∧ c.node.modstate = .insert)) :
    (c.finished prev state).modstate = c.node.modstate := by
  unfold finished
  split
  · rename_i removes
    have mode : (c.node.finishRemove c.kxi).modstate = c.node.modstate := by
      unfold Leaf.finishRemove
      rw [if_neg (fun insert => keeps ⟨removes, insert⟩)]
    dsimp only
    split <;> exact mode
  · split <;> rfl

/-- A remove while inserting, an insert while removing, a split and a deletion all move the counters. -/
theorem finished_moves (open_ : c.Opened l) (first : c.n = 0) (alive : l.modstate ≠ .deletedLayer) :
    l.Moves (c.finished prev state).unlock := by
  intro still
  obtain ⟨counter, which⟩ := version_finished_cases c prev state
  have settled : (c.finished prev state).version.unlock.counter = (c.finished prev state).version.counter :=
    still.trans ((open_.counter first).symm.trans counter.symm)
  have clean : ¬((c.finished prev state).version.has splittingBit = true ∨
      (c.finished prev state).version.has insertingBit = true) :=
    fun dirty => Nodeversion.counter_unlock_ne dirty settled
  obtain ⟨version, keeps⟩ := which.resolve_right clean
  rw [version, not_or, Bool.not_eq_true, Bool.not_eq_true] at clean
  obtain ⟨mode, keys, inserts⟩ := open_.same first clean.1 clean.2
  have size : c.node.size = l.size := by
    rw [Leaf.size_eq_length_keys, Leaf.size_eq_length_keys, keys]
  have finishedSize := size_finished open_ prev state
  have modes : (c.finished prev state).modstate = l.modstate := (modstate_finished keeps).trans mode
  by_cases removes : state < 0 ∧ c.state = 1
  · have remove : l.modstate = .remove := by
      cases at_ : l.modstate with
      | insert => exact absurd ⟨removes, mode.trans at_⟩ keeps
      | remove => rfl
      | deletedLayer => exact absurd at_ alive
    have below := (open_.found removes.2).2.1
    rw [if_pos removes, size] at finishedSize
    refine ⟨.inl modes, .inr (.inr ⟨remove, ?_⟩)⟩
    show (c.finished prev state).size < l.size
    omega
  · rw [if_neg removes, size] at finishedSize
    by_cases adds : 0 < state ∧ c.state = 2
    · rw [if_pos adds] at finishedSize
      refine ⟨.inl modes, .inr (.inl ⟨inserts adds.2, ?_⟩)⟩
      show l.size < (c.finished prev state).size
      omega
    · refine ⟨.inl modes, .inl ?_⟩
      show (c.finished prev state).keys = l.keys
      unfold finished
      rw [if_neg removes, if_neg adds, keys]

/-- What a finished cursor has done to the leaf it came to. -/
theorem finish_moves (open_ : c.Opened l) (alive : l.modstate ≠ .deletedLayer) (prev : Bool) (state : Int) :
    l.Moves ((c.finish prev state).leaf 0) := by
  obtain ⟨nodes, -⟩ := nodes_finish open_.inside prev state
  unfold leaf
  rw [nodes, List.getD_eq_getElem?_getD]
  by_cases first : c.n = 0
  · rw [← first, List.getElem?_set_self open_.inside]
    exact finished_moves open_ first alive
  · obtain ⟨old, at_, -, moved⟩ := open_.left first
    rw [List.getElem?_set_ne first, at_]
    exact fun still => absurd still moved

theorem finish_wf (open_ : c.Opened l) (prev : Bool) (state : Int) : ∀ m ∈ (c.finish prev state).nodes, m.Wf := by
  intro m mem
  obtain ⟨nodes, -⟩ := nodes_finish open_.inside prev state
  rw [nodes] at mem
  obtain ⟨i, at_⟩ := List.mem_iff_getElem?.mp mem
  by_cases same : i = c.n
  · rw [same, List.getElem?_set_self open_.inside] at at_
    obtain rfl := Option.some.inj at_
    exact finished_wf open_ prev state
  · rw [List.getElem?_set_ne (Ne.symm same)] at at_
    exact open_.others i same m at_

/-- The cursor of `gc_layer` removes a slot as `finish` does. -/
theorem removeLayer_eq (c : Tcursor V) (prev : Bool) :
    c.removeLayer prev = (({ c with state := 1 } : Tcursor V).finished prev (-1)).unlock := by
  have removes : (-1 : Int) < 0 ∧ (1 : Nat) = 1 := ⟨by decide, rfl⟩
  unfold finished
  rw [if_pos removes]
  exact (apply_ite Leaf.unlock _ _ _).symm

theorem gcLayer_opened (wf : l.Wf) (found : gcLayer l ka = some c) :
    l.deletedLayer = false ∧ c.n = 0 ∧ ({ c with state := 1 } : Tcursor V).Opened l := by
  unfold gcLayer at found
  obtain ⟨c₀, locked, found⟩ := Option.bind_eq_some_iff.mp found
  obtain ⟨live, state, rfl, -⟩ := findLocked_cases locked
  dsimp only at found
  generalize (if (l.lower ka).2.isSome = true then (l.lower ka).1 + 1 else (l.lower ka).1) = kxi at found
  split at found
  · cases found
  · rename_i present
    obtain rfl := Option.some.inj found
    refine ⟨live, rfl, ?_⟩
    apply opened_lock wf rfl rfl rfl
    · intro _
      exact Nat.lt_of_not_le fun outside => present (.inr (.inl outside))
    · exact nofun

end Tcursor

/-! ### Runs -/

namespace Heap

variable {h h' : Heap V} {op : Op V} {ops : List (Op V)} {i : Nat}

def Wf (h : Heap V) : Prop := ∀ l ∈ h.leaves, l.Wf

theorem wf_start : (start : Heap V).Wf := by
  intro l mem
  rw [List.mem_singleton.mp mem]
  exact Leaf.wf_makeRoot

theorem leaf_eq {l : Leaf V} (at_ : h.leaves[i]? = some l) : h.leaf i = l := by
  rw [leaf, List.getD_eq_getElem?_getD, at_]
  rfl

/-- Leaves stay, and each moves as an operation may move it. -/
structure Extends (h h' : Heap V) : Prop where
  wf : h'.Wf
  more : h.leaves.length ≤ h'.leaves.length
  moves : ∀ i < h.leaves.length, (h.leaf i).Moves (h'.leaf i)

theorem alive {l : Leaf V} (live : l.deletedLayer = false) : l.modstate ≠ .deletedLayer := of_decide_eq_false live

theorem put_extends (wf : h.Wf) {l : Leaf V} (at_ : h.leaves[i]? = some l) {c : Tcursor V} (open_ : c.Opened l)
    (live : l.deletedLayer = false) (prev : Bool) (state : Int) : h.Extends (h.put i (c.finish prev state)) := by
  obtain ⟨inside, -⟩ := List.getElem?_eq_some_iff.mp at_
  have wfs := Tcursor.finish_wf open_ prev state
  have here : (c.finish prev state).leaf 0 ∈ (c.finish prev state).nodes := by
    obtain ⟨nodes, -⟩ := Tcursor.nodes_finish open_.inside prev state
    have first : 0 < (c.finish prev state).nodes.length := by
      rw [nodes, List.length_set]
      exact Nat.zero_lt_of_lt open_.inside
    unfold Tcursor.leaf
    rw [List.getD_eq_getElem _ _ first]
    exact List.getElem_mem first
  refine ⟨?_, ?_, ?_⟩
  · intro m mem
    rcases List.mem_append.mp mem with mem | mem
    · rcases List.mem_or_eq_of_mem_set mem with mem | rfl
      · exact wf m mem
      · exact wfs _ here
    · exact wfs m (List.mem_of_mem_tail mem)
  · show h.leaves.length ≤ (h.leaves.set i _ ++ _).length
    rw [List.length_append, List.length_set]
    exact Nat.le_add_right _ _
  · intro k below
    have kept : (h.put i (c.finish prev state)).leaf k =
        if i = k then (c.finish prev state).leaf 0 else h.leaf k := by
      show (h.leaves.set i _ ++ _).getD k .makeRoot = _
      rw [List.getD_eq_getElem?_getD, List.getElem?_append_left (by rwa [List.length_set]), List.getElem?_set]
      split
      · rename_i same
        rfl
      · rw [leaf, List.getD_eq_getElem?_getD]
    rw [kept]
    split
    · rename_i same
      rw [← same, leaf_eq at_]
      exact Tcursor.finish_moves open_ (alive live) prev state
    · exact fun _ => Leaf.Quiet.refl _

theorem leaf_set (h : Heap V) (l : Leaf V) (inside : i < h.leaves.length) (k : Nat) :
    (⟨h.leaves.set i l⟩ : Heap V).leaf k = if i = k then l else h.leaf k := by
  show (h.leaves.set i l).getD k .makeRoot = _
  rw [List.getD_eq_getElem?_getD, List.getElem?_set]
  split
  · rfl
  · rw [leaf, List.getD_eq_getElem?_getD]

theorem set_extends (wf : h.Wf) {l l' : Leaf V} (at_ : h.leaves[i]? = some l) (wf' : l'.Wf) (moves : l.Moves l') :
    h.Extends ⟨h.leaves.set i l'⟩ := by
  obtain ⟨inside, -⟩ := List.getElem?_eq_some_iff.mp at_
  refine ⟨?_, ?_, ?_⟩
  · intro m mem
    rcases List.mem_or_eq_of_mem_set mem with mem | rfl
    · exact wf m mem
    · exact wf'
  · exact Nat.le_of_eq (List.length_set ..).symm
  · intro k _
    rw [leaf_set h l' inside]
    split
    · rename_i same
      rwa [← same, leaf_eq at_]
    · exact fun _ => Leaf.Quiet.refl _

theorem step_extends (wf : h.Wf) (stepped : h.step op = some h') : h.Extends h' := by
  cases op with
  | insert i prev next ka value state =>
    obtain ⟨l, at_, ended⟩ := Option.bind_eq_some_iff.mp stepped
    obtain ⟨c, found, rfl⟩ := Option.map_eq_some_iff.mp ended
    obtain ⟨c₀, locked, -⟩ := Option.bind_eq_some_iff.mp found
    have open_ := Tcursor.findInsert_opened (wf l (List.mem_of_getElem? at_)) found
    exact put_extends wf at_ (open_.store value) (Tcursor.findLocked_cases locked).1 prev state
  | locked i prev ka value state =>
    obtain ⟨l, at_, ended⟩ := Option.bind_eq_some_iff.mp stepped
    obtain ⟨c, found, rfl⟩ := Option.map_eq_some_iff.mp ended
    have open_ := Tcursor.findLocked_opened (wf l (List.mem_of_getElem? at_)) found
    exact put_extends wf at_ (open_.store value) (Tcursor.findLocked_cases found).1 prev state
  | collect i j prev ka =>
    obtain ⟨l, at_, layered⟩ := Option.bind_eq_some_iff.mp stepped
    obtain ⟨layer, at_layer, located⟩ := Option.bind_eq_some_iff.mp layered
    obtain ⟨c, found, ended⟩ := Option.bind_eq_some_iff.mp located
    split at ended
    · rename_i empty
      obtain rfl := Option.some.inj ended
      obtain ⟨live, first, open_⟩ := Tcursor.gcLayer_opened (wf l (List.mem_of_getElem? at_)) found
      have removed := set_extends wf at_ (Tcursor.finished_wf open_ prev (-1))
        (Tcursor.finished_moves open_ first (alive live))
      rw [← Tcursor.removeLayer_eq] at removed
      have still : (⟨h.leaves.set i (c.removeLayer prev)⟩ : Heap V).leaves[j]? = some layer :=
        (List.getElem?_set_ne empty.1).trans at_layer
      obtain ⟨wf', moves'⟩ := Leaf.markDeletedLayer_moves (wf layer (List.mem_of_getElem? at_layer))
      have marked := set_extends removed.wf still wf' moves'
      refine ⟨marked.wf, Nat.le_trans removed.more marked.more, ?_⟩
      intro k below
      rw [leaf_set ⟨_⟩ _ (List.getElem?_eq_some_iff.mp still).1]
      split
      · rename_i same
        rwa [← same, leaf_eq at_layer]
      · exact removed.moves k below
    · cases ended
  | layerRoot i =>
    obtain ⟨l, at_, rfl⟩ := Option.map_eq_some_iff.mp stepped
    obtain ⟨wf', moves⟩ := Leaf.makeLayerRoot_moves (wf l (List.mem_of_getElem? at_))
    exact set_extends wf at_ wf' moves

theorem run_wf (wf : h.Wf) (ran : Steps.run step h ops = some h') : h'.Wf ∧ h.leaves.length ≤ h'.leaves.length := by
  induction ops generalizing h with
  | nil =>
    obtain rfl := Option.some.inj ran
    exact ⟨wf, Nat.le_refl _⟩
  | cons op ops ih =>
    obtain ⟨next, stepped, rest⟩ := Option.bind_eq_some_iff.mp ran
    have extends_ := step_extends wf stepped
    obtain ⟨wf', more⟩ := ih extends_.wf rest
    exact ⟨wf', Nat.le_trans extends_.more more⟩

/-- The counters of a leaf add up what they move, and where that is nothing the leaf has only grown or only shrunk. -/
theorem run_moves (wf : h.Wf) (ran : Steps.run step h ops = some h') (inside : i < h.leaves.length) :
    (h'.leaf i).version.counter = ((h.leaf i).version.counter + advance i h ops) % 2 ^ 25 ∧
      (advance i h ops = 0 → (h.leaf i).Quiet (h'.leaf i)) := by
  induction ops generalizing h with
  | nil =>
    obtain rfl := Option.some.inj ran
    have below := (h.leaf i).version.counter_lt
    refine ⟨?_, fun _ => Leaf.Quiet.refl _⟩
    rw [advance, Nat.add_zero, Nat.mod_eq_of_lt below]
  | cons op ops ih =>
    obtain ⟨next, stepped, rest⟩ := Option.bind_eq_some_iff.mp ran
    have extends_ := step_extends wf stepped
    obtain ⟨sum, quiet⟩ := ih extends_.wf rest (Nat.lt_of_lt_of_le inside extends_.more)
    have below := (h.leaf i).version.counter_lt
    have below' := (next.leaf i).version.counter_lt
    have total : advance i h (op :: ops) =
        ((next.leaf i).version.counter + 2 ^ 25 - (h.leaf i).version.counter) % 2 ^ 25 + advance i next ops := by
      rw [advance, stepped]
    rw [total]
    refine ⟨?_, ?_⟩
    · rw [sum]
      omega
    · intro none
      have still : (next.leaf i).version.counter = (h.leaf i).version.counter := by omega
      exact (extends_.moves i inside still).trans (quiet (by omega))

/-! ### Main results -/

theorem fullVersionValue_toNat {l : Leaf V} (wf : l.Wf) : l.fullVersionValue.toNat = l.version.counter * 128 + l.size :=
  full_toNat wf.stable wf.size_lt

theorem leaf_wf (wf : h.Wf) (inside : i < h.leaves.length) : (h.leaf i).Wf := by
  unfold leaf
  rw [List.getD_eq_getElem _ _ inside]
  exact wf _ (List.getElem_mem inside)

/-- Between two moments of a run over which the counters of a leaf move less than once around, the leaf's full version
differs if its set of keys does. -/
theorem keys_change_version {ops' : List (Op V)} (before : Steps.run step start ops = some h)
    (ran : Steps.run step h ops' = some h') (inside : i < h.leaves.length) (few : advance i h ops' < 2 ^ 25)
    (differ : ¬∀ key, key ∈ (h.leaf i).keys ↔ key ∈ (h'.leaf i).keys) :
    (h.leaf i).fullVersionValue ≠ (h'.leaf i).fullVersionValue := by
  obtain ⟨wf, -⟩ := run_wf wf_start before
  obtain ⟨wf', more⟩ := run_wf wf ran
  obtain ⟨sum, quiet⟩ := run_moves wf ran inside
  intro same
  have values := congrArg BitVec.toNat same
  have first := leaf_wf wf inside
  have second := leaf_wf wf' (Nat.lt_of_lt_of_le inside more)
  rw [fullVersionValue_toNat first, fullVersionValue_toNat second] at values
  have small := first.size_lt
  have small' := second.size_lt
  have below := (h.leaf i).version.counter_lt
  have still : advance i h ops' = 0 := by omega
  have sizes : (h'.leaf i).size = (h.leaf i).size := by omega
  apply differ
  rcases (quiet still).keys with keys | ⟨-, grows⟩ | ⟨-, shrinks⟩
  · intro key
    rw [keys]
  · omega
  · omega

def insertByte (b : UInt8) : Op Unit := .insert 0 false false (.ofStr [b]) (some ()) 1

def removeByte (b : UInt8) : Op Unit := .locked 0 false (.ofStr [b]) none (-1)

/-- An insert, and then the remove of another key: as many keys as before. -/
theorem keys_change_version_swap : ∃ h h' : Heap Unit,
    Steps.run step start [insertByte 1] = some h ∧ Steps.run step h [insertByte 2, removeByte 1] = some h' ∧
      (h.leaf 0).size = (h'.leaf 0).size ∧ (h.leaf 0).fullVersionValue ≠ (h'.leaf 0).fullVersionValue := by
  refine ⟨_, _, rfl, rfl, rfl, ?_⟩
  refine keys_change_version (show Steps.run step start [insertByte 1] = some _ from rfl)
    (show Steps.run step _ [insertByte 2, removeByte 1] = some _ from rfl) (by decide) (by decide) ?_
  intro same
  exact absurd ((same (2 * 2 ^ 56, 1, [])).mpr (by decide)) (by decide)

end Heap

namespace Tcursor

variable {l : Leaf V} {c : Tcursor V} {prev : Bool} {state : Int}

/-- `finish` is to remove the key and first switch `modstate_`. -/
def Switches (c : Tcursor V) (state : Int) : Prop := (state < 0 ∧ c.state = 1) ∧ c.node.modstate = .insert

/-- `full_unlocked_version_value` of the locked leaf is `full_version_value` after `unlock`. -/
def Unlocks (c : Tcursor V) : Prop := c.node.fullUnlockedVersionValue = c.node.unlock.fullVersionValue

/-- All versions are right, for every finishing state that does not delete the leaf, unless `finish` switches
`modstate_` to remove the key: `next_full_version_value` does not count that switch. -/
theorem versions_predicted {h : Heap V} {ops : List (Heap.Op V)} (ran : Steps.run Heap.step Heap.start ops = some h)
    (present : l ∈ h.leaves) (ka : Key) (value : Option V) :
    (∀ prev next c, findInsert l prev next ka = some c → ∀ state, (c.store value).removesLeaf prev state = false →
      ((c.store value).Predicts prev state ∧ (c.store value).Reports prev state ∧ (c.store value).Unlocks ↔
        ¬(c.store value).Switches state)) ∧
    (∀ prev c, findLocked l ka = some c → c.state = 1 → ∀ state, (c.store value).removesLeaf prev state = false →
      ((c.store value).Predicts prev state ∧ (c.store value).Unlocks ↔ ¬(c.store value).Switches state)) := by
  obtain ⟨wfs, -⟩ := Heap.run_wf Heap.wf_start ran
  have wf := wfs l present
  refine ⟨?_, ?_⟩
  · intro prev next c found state keeps
    have open_ := (findInsert_opened wf found).store value
    have known : (c.store value).state = 1 ∨ (c.store value).state = 2 := by
      rw [state_store]
      exact findInsert_state found
    rw [predicts_iff open_ known keeps]
    exact ⟨fun all => all.1, fun steady => ⟨steady, reports open_ keeps, Leaf.fullUnlocked_of_locked open_.locked⟩⟩
  · intro prev c found one state keeps
    have open_ := (findLocked_opened wf found).store value
    have known : (c.store value).state = 1 := by
      rwa [state_store]
    rw [predicts_iff open_ (.inl known) keeps]
    exact ⟨fun both => both.1, fun steady => ⟨steady, Leaf.fullUnlocked_of_locked open_.locked⟩⟩

/-- A key is inserted into an empty table, found by `find_locked` and its value is replaced. -/
theorem versions_predicted_update : ∃ (h : Heap Unit) (c : Tcursor Unit),
    Steps.run Heap.step Heap.start [Heap.insertByte 1] = some h ∧ findLocked (h.leaf 0) (.ofStr [1]) = some c ∧
      c.state = 1 ∧ (c.store (some ())).Predicts false 1 := by
  refine ⟨_, _, rfl, rfl, rfl, ?_⟩
  have predicted := versions_predicted (show Steps.run Heap.step Heap.start [Heap.insertByte 1] = some _ from rfl)
    List.mem_cons_self (.ofStr [1]) (some ())
  exact ((predicted.2 false _ rfl rfl 1 (by decide)).mpr (by unfold Switches; decide)).1

/-- Two keys are inserted into an empty table, and one of them is removed. -/
theorem remove_mispredicted : ∃ (h : Heap Unit) (c : Tcursor Unit),
    Steps.run Heap.step Heap.start [Heap.insertByte 1, Heap.insertByte 2] = some h ∧
      findLocked (h.leaf 0) (.ofStr [1]) = some c ∧ c.state = 1 ∧ c.removesLeaf false (-1) = false ∧
      c.nextFullVersionValue (-1) = 1 ∧ (c.finish false (-1)).node.fullVersionValue = 129 ∧ ¬c.Predicts false (-1) :=
  ⟨_, _, rfl, rfl, rfl, by decide, by decide, by decide, by unfold Predicts; decide⟩

end Tcursor

end Masstree.Tree
