import Masstree.Tree.Grow
import Masstree.Tree.Heap
import Masstree.Tree.Shrink
import Mathlib.Logic.Function.Basic

/-!
# Tables

A table is a trie of layers, and each layer is a B+ tree. A layer is found by its prefix, whole slices of eight bytes, and
held by its true root: what a slot, a callback or the table names is on the way down the first children from there.

The leaves have no suffix bags. By `suffixes_kept_of_short` and `RawTable.run_of_short` a run with bags does the same as long as its
keys are short.
-/

namespace Masstree.Tree
open Msgpack (Bytes)

variable {V : Type}

abbrev Layers (V : Type) := Bytes → Option (Node (Leaf V))

structure Table (V : Type) where
  layers : Layers V
  /-- how many parents above the node in its slot the root of a layer below the top is -/
  behind : Bytes → Nat
  /-- the prefixes of the registered `gc_layer_rcu_callback`s -/
  callbacks : List Bytes

/-- Where a search ends: what is left of the key, the leaf and its parents. -/
structure Place (V : Type) where
  ka : Key
  n : Leaf V
  path : List (Frame (Leaf V))

namespace Place

def prev (p : Place V) : Bool := hasPrev p.path
def next (p : Place V) : Bool := hasNext p.path

end Place

def Leaf.leadsOn (l : Leaf V) (ka : Key) : Bool := (l.lower ka).2.any fun p => (l.slot p).ksufMatches ka = .layer

namespace Layers

/-- The way of `find_locked` and `find_unlocked`. `fuel` bounds the layers. -/
def locate (layers : Layers V) : Nat → Key → Option (Place V)
  | 0, _ => none
  | fuel + 1, ka =>
    (layers ka.prefixString).bind fun root =>
      (root.reachLeaf ka.ikey root.height []).bind fun (n, path) =>
        if n.leadsOn ka then locate layers fuel ka.shift else some ⟨ka, n, path⟩

/-- The place is in the tree of its layer, and the search ends there. -/
theorem locate_at {layers : Layers V} {fuel : Nat} {ka : Key} {p : Place V} (found : layers.locate fuel ka = some p) :
    ∃ root, layers p.ka.prefixString = some root ∧ root.reachLeaf p.ka.ikey root.height [] = some (p.n, p.path) ∧
      p.n.leadsOn p.ka = false := by
  induction fuel generalizing ka with
  | zero => cases found
  | succ fuel ih =>
    rw [locate] at found
    obtain ⟨root, layer, found⟩ := Option.bind_eq_some_iff.mp found
    obtain ⟨⟨n, path⟩, reached, found⟩ := Option.bind_eq_some_iff.mp found
    dsimp only at found
    split at found
    · exact ih found
    · rename_i ends
      obtain rfl := Option.some.inj found
      exact ⟨root, layer, reached, Bool.not_eq_true _ ▸ ends⟩

/-- The leaves that `make_new_layer` makes, each alone in a layer below the one before. -/
def hang (layers : Layers V) : Key → List (Leaf V) → Layers V
  | _, [] => layers
  | ka, l :: twig => hang (Function.update layers ka.shift.prefixString (some (.leaf l))) ka.shift twig

end Layers

def Node.makeLayerRoot : Node (Leaf V) → Node (Leaf V)
  | .leaf l => .leaf l.makeLayerRoot
  | .internode p => .internode ({ p.lock with version := p.lock.version.markRoot } : Internode _).unlock

/-- The loop of `gc_layer` over redundant internodes. `none` is a null child. -/
def collapse : Nat → Node (Leaf V) → Option (Node (Leaf V))
  | _, .leaf l => some (.leaf l)
  | 0, .internode _ => none
  | fuel + 1, .internode p =>
    if 0 < p.size then some (.internode p) else p.first.bind fun n => collapse fuel n.makeLayerRoot

/-- What `split_into` has returned for the leaf, once both leaves are there. -/
def Tcursor.splitType (c : Tcursor V) : Nat := if c.n = 0 then 0 else if c.node.size = 0 then 2 else 1

namespace Table

/-- `initialize` -/
def start : Table V := ⟨fun at_ => if at_ = [] then some (.leaf .makeRoot) else none, fun _ => 0, []⟩

def locate (t : Table V) (key : Bytes) : Option (Place V) := t.layers.locate (key.length + 1) (.ofStr key)

/-- A slot that a search passes has the parent of its node afterwards, if that is not the root of the layer. -/
def arrive (t : Table V) (p : Place V) : Table V :=
  { t with behind := fun at_ => if at_ <+: p.ka.prefixString then t.behind at_ - 1 else t.behind at_ }

def setLayer (t : Table V) (at_ : Bytes) (root : Node (Leaf V)) : Table V :=
  { t with layers := Function.update t.layers at_ (some root) }

def setLeaf (t : Table V) (p : Place V) (l : Leaf V) : Table V := t.setLayer p.ka.prefixString (plug (.leaf l) p.path)

/-- A root above the old one leaves the slot behind. -/
def setSplit (t : Table V) (p : Place V) (splitType : Nat) (left right : Leaf V) : Table V :=
  let root := insertSplit splitType 0 (.leaf left) right.ikeyBound (.leaf right) p.path
  let new := (t.layers p.ka.prefixString).elim 0 Node.height < root.height
  { t.setLayer p.ka.prefixString root with
    behind := if new then Function.update t.behind p.ka.prefixString (t.behind p.ka.prefixString + 1) else t.behind }

/-- The leaves of a finished insertion, of which the last ones are new. `splitType` is that of a split. -/
def put (t : Table V) (p : Place V) (splitType : Nat) : List (Leaf V) → Table V
  | [] => t
  | [l] => t.setLeaf p l
  | left :: right :: twig =>
    if (p.n.lower p.ka).2.isSome then
      let t := t.setLeaf p left
      { t with
        layers := t.layers.hang p.ka (right :: twig)
        behind := fun at_ => if p.ka.prefixString.length < at_.length ∧ at_ <+: p.ka.fullString then 0 else t.behind at_ }
    else t.setSplit p splitType left right

def get (t : Table V) (key : Bytes) : Option V :=
  (t.locate key).bind fun p =>
    (p.n.lower p.ka).2.bind fun i => if (p.n.slot i).ksufMatches p.ka = .yes then (p.n.slot i).lv else none

/-- `find_insert`, and then either the value is stored and `finish(1)` called, or `finish(0)`. -/
def insert (t : Table V) (key : Bytes) (value : Option V) : Option (Table V) :=
  (t.locate key).bind fun p =>
    (Tcursor.findInsert p.n p.prev p.next p.ka).map fun c =>
      (t.arrive p).put p c.splitType ((c.store value).finish p.prev (if value.isSome then 1 else 0)).nodes

/-- The table with what `finish_remove` has made of the leaf; an empty leaf may go, or have its layer collected later. -/
def settle (t : Table V) (p : Place V) (l : Leaf V) : Option (Table V) :=
  if l.size ≠ 0 then some (t.setLeaf p l)
  else if p.prev then (removeNode l.ikeyBound none p.path).map (t.setLayer p.ka.prefixString)
  else
    let register := ¬p.next ∧ p.ka.prefixString ≠ []
    some { t.setLeaf p l with callbacks := if register then t.callbacks ++ [p.ka.prefixString] else t.callbacks }

/-- `find_locked`, and then `finish(-1)` if the key is there, else `finish(0)`. -/
def remove (t : Table V) (key : Bytes) : Option (Table V) :=
  (t.locate key).bind fun p =>
    (Tcursor.findLocked p.n p.ka).bind fun c =>
      if c.state = 1 then (t.arrive p).settle p ((c.finish p.prev (-1)).leaf 0)
      else some ((t.arrive p).setLeaf p ((c.finish p.prev 0).leaf 0))

/-- `gc_layer` for the layer with prefix `at_`, and `finish_remove` if it has collected the layer. -/
def gcLayer (t : Table V) (at_ : Bytes) : Option (Table V) :=
  (t.locate at_).bind fun p =>
    let t := t.arrive p
    match Tcursor.gcLayer p.n p.ka with
    | none => some t
    | some c =>
      let below := p.ka.fullString
      let t := { t with behind := Function.update t.behind below 0 }
      (t.layers below).bind fun root =>
        (collapse root.height root).bind fun
          | .leaf l =>
            if l.size = 0 then
              { t with layers := Function.update t.layers below none }.settle p (c.removeLayer p.prev)
            else some (t.setLayer below (.leaf l))
          | root => some (t.setLayer below root)

/-- What can be done to a table: a registered callback is run when its time has come. -/
inductive Op (V : Type) where
  | insert (key : Bytes) (value : V)
  | cancel (key : Bytes)
  | remove (key : Bytes)
  | collect (i : Nat)

/-- The key that an operation inserts, or cancels the insertion of. -/
def Op.inserted : Op V → Option Bytes
  | .insert key _ | .cancel key => some key
  | .remove _ | .collect _ => none

def step (t : Table V) : Op V → Option (Table V)
  | .insert key value => t.insert key (some value)
  | .cancel key => t.insert key none
  | .remove key => t.remove key
  | .collect i => (t.callbacks[i]?).bind fun at_ => { t with callbacks := t.callbacks.eraseIdx i }.gcLayer at_

def Reachable (t : Table V) : Prop := ∃ ops, Steps.run step start ops = some t

end Table

end Masstree.Tree
