import Masstree.Tree.Leaf

/-!
# Cursors

What a cursor does to the leaf it has locked, and to the leaves it makes.
-/

namespace Masstree.Tree
open Msgpack (Bytes)

variable {V : Type}

/-- A `tcursor`, from the leaf it locks first. The search that leads to the leaf has consumed the slices before `ka_`. -/
structure Tcursor (V : Type) where
  /-- `original_n_`, and the leaves made -/
  nodes : List (Leaf V)
  /-- `n_` -/
  n : Nat
  ka : Key
  kxi : Nat
  /-- `kx_.p`, unless it is -1 -/
  kxp : Option Nat
  state : Nat
  originalV : Nodeversion := 0
  updatedV : Nodeversion := 0
  newNodes : List (Nat × Nodeversion) := []

/-- The leaves that `make_new_layer` makes while the suffixes agree, and what is left of the keys. -/
def makeTwig : Nat → Key → Key → Option (List (Leaf V) × Key × Key)
  | 0, _, _ => none
  | fuel + 1, oka, ka =>
    if oka.compare ka.ikey ka.length = .eq then
      (makeTwig fuel oka.shift ka.shift).map fun (twig, rest) => (.ofLayer oka :: twig, rest)
    else some ([], oka, ka)

namespace Leaf

/-- The change of the leaf in `finish_remove`. -/
def finishRemove (l : Leaf V) (kxi : Nat) : Leaf V :=
  let l := if l.modstate = .insert then { l.markInsert with modstate := .remove } else l
  { l with perm := l.perm.remove kxi }

/-- "mark insertion if we are changing modification state" -/
def startInsert (l : Leaf V) : Leaf V :=
  if l.modstate ≠ .insert then { l.markInsert with modstate := .insert } else l

def setLayer (l : Leaf V) (p : Nat) : Leaf V :=
  { l.markInsert with slots := l.slots.modify p ({ · with keylenx := layerKeylenx, lv := none }) }

end Leaf

namespace Tcursor

def node (c : Tcursor V) : Leaf V := c.nodes.getD c.n .makeRoot

def setNode (c : Tcursor V) (l : Leaf V) : Tcursor V := { c with nodes := c.nodes.set c.n l }

/-- `find_locked`, once it has come to leaf `l`. `none` where the leaf is deleted, or the key is in a layer. -/
def findLocked (l : Leaf V) (ka : Key) : Option (Tcursor V) :=
  if l.deleted ∨ l.deletedLayer then none
  else
    let (kxi, kxp) := l.lower ka
    let found := kxp.elim .no fun p => (l.slot p).ksufMatches ka
    if found = .layer then none
    else some { nodes := [l.lock], n := 0, ka, kxi, kxp, state := if found = .yes then 1 else 0 }

def makeNewLayer (c : Tcursor V) (p : Nat) : Option (Tcursor V) :=
  let old := c.node.slot p
  (makeTwig (c.ka.length + 1) ⟨[], old.ksuf⟩ c.ka.shift).map fun (twig, oka, ka) =>
    let nl := (Leaf.ofTwo oka ka old.lv).lock
    let l := c.node.setLayer p
    let kx := if oka.compare ka.ikey ka.length = .lt then 1 else 0
    { c with
      nodes := l.unlock :: twig ++ [nl]
      n := twig.length + 1
      ka
      kxi := kx
      kxp := some kx
      updatedV := l.fullUnlockedVersionValue
      newNodes := twig.zipIdx.map fun (nl, i) => (i + 1, nl.fullUnlockedVersionValue) }

/-- `make_split`, where `prev` and `next` say whether the leaf has neighbours. -/
def makeSplit (c : Tcursor V) (prev next : Bool) : Option (Tcursor V) :=
  let l := c.node
  let perm := l.perm.exchange l.size (width - 1)
  if l.size < width ∧ perm.back ≠ 0 then
    some { c with nodes := [{ l with perm }.assign perm.back c.ka], kxp := some perm.back }
  else
    (l.splitInto prev next c.ka c.kxi).map fun s =>
      let left := l.strip s.right
      if s.splitType = 0 then
        { c with
          nodes := [left.assign left.perm.back c.ka, s.right.unlock]
          kxp := some left.perm.back
          newNodes := [(1, s.right.fullUnlockedVersionValue)] }
      else
        { c with
          nodes := [left.unlock, s.right]
          n := 1
          kxi := c.kxi - left.size
          kxp := some (c.kxi - left.size)
          updatedV := left.fullUnlockedVersionValue }

/-- `find_insert`, once it has come to leaf `l`. Slot 0 holds the leaf's bound. -/
def findInsert (l : Leaf V) (prev next : Bool) (ka : Key) : Option (Tcursor V) :=
  (findLocked l ka).bind fun c =>
    let c := { c with originalV := c.node.fullUnlockedVersionValue }
    if c.state = 1 then some c
    else
      let c := { c with state := 2 }
      match c.kxp with
      | some p => c.makeNewLayer p
      | none =>
        let l := c.node.startInsert
        let c := { c with nodes := [l] }
        if l.size < width ∧ (l.perm.back ≠ 0 ∨ ¬prev ∨ l.ikeyBound = c.ka.ikey) then
          some { c with nodes := [l.assign l.perm.back c.ka], kxp := some l.perm.back }
        else c.makeSplit prev next

/-- `n_->lv_[kx_.p].value() = v` -/
def setValue (c : Tcursor V) (v : V) : Tcursor V := c.setNode (c.node.setValue (c.kxp.getD 0) v)

def finishInsert (c : Tcursor V) : Tcursor V :=
  c.setNode { c.node with perm := c.node.perm.insertFromBack c.kxi }

/-- The end of `finish`. -/
def conclude (c : Tcursor V) : Tcursor V :=
  let v := c.node.fullUnlockedVersionValue
  if c.n = 0 then { c.setNode c.node.unlock with updatedV := v }
  else { c.setNode c.node.unlock with newNodes := c.newNodes ++ [(c.n, v)] }

def removesLeaf (c : Tcursor V) (prev : Bool) (state : Int) : Bool :=
  state < 0 ∧ c.state = 1 ∧ (c.node.finishRemove c.kxi).size = 0 ∧ prev

def finish (c : Tcursor V) (prev : Bool) (state : Int) : Tcursor V :=
  if state < 0 ∧ c.state = 1 then
    let l := c.node.finishRemove c.kxi
    if l.size = 0 ∧ prev then c.setNode l.markDeleted.unlock else (c.setNode l).conclude
  else if 0 < state ∧ c.state = 2 then c.finishInsert.conclude
  else c.conclude

def nextFullVersionValue (c : Tcursor V) (state : Int) : Nodeversion :=
  let result := (c.node.version.unlock <<< 4) + BitVec.ofNat 32 c.node.size
  if state < 0 ∧ c.state % 2 = 1 then result - 1
  else if 0 < state ∧ c.state = 2 then result + 1
  else result

end Tcursor

end Masstree.Tree
