import Masstree.Lib.BinarySearch
import Masstree.Tree.Key
import Masstree.Tree.Nodeversion
import Masstree.Tree.Permuter

/-!
# Leaves
-/

namespace Masstree.Tree
open Msgpack (Bytes)

structure Slot (V : Type) where
  ikey0 : Nat
  keylenx : Nat
  /-- the suffix, where `keylenx` is `ksuf_keylenx` -/
  ksuf : Bytes
  /-- the value, where `keylenx` is not `layer_keylenx`; a layer is found by its prefix -/
  lv : Option V

def ksufKeylenx : Nat := 64
def layerKeylenx : Nat := 128

inductive Match where
  | no
  | yes
  | layer
  deriving DecidableEq

inductive Modstate where
  | insert
  | remove
  | deletedLayer
  deriving DecidableEq

variable {V : Type}

namespace Slot

instance : Inhabited (Slot V) := ⟨⟨0, 0, [], none⟩⟩

def isLayer (s : Slot V) : Bool := 127 < s.keylenx

/-- `assign` and `assign_initialize` with a key. -/
def ofKey (ka : Key) : Slot V :=
  if ka.hasSuffix then ⟨ka.ikey, ksufKeylenx, ka.suffix, none⟩ else ⟨ka.ikey, ka.length, [], none⟩

/-- `assign_initialize_for_layer` -/
def ofLayer (ka : Key) : Slot V := ⟨ka.ikey, layerKeylenx, [], none⟩

def ksufMatches (s : Slot V) (ka : Key) : Match :=
  if s.keylenx < ksufKeylenx then .yes
  else if s.keylenx = layerKeylenx then .layer
  else if s.ksuf = ka.suffix then .yes else .no

def key (s : Slot V) : Nat × Nat × Bytes := (s.ikey0, s.keylenx, if s.keylenx = ksufKeylenx then s.ksuf else [])

end Slot

structure Leaf (V : Type) where
  perm : Permuter
  slots : List (Slot V)
  modstate : Modstate := .insert
  version : Nodeversion := Nodeversion.isleafBit

/-- What `split_into` leaves of a leaf, with the new leaf. -/
structure LeafSplit (V : Type) where
  right : Leaf V
  mid : Nat
  /-- 0 where the new key is in the old leaf, else 1, or 2 where it is alone in the new one -/
  splitType : Nat

/-- The rounds of `split_into` that look for a point between different ikeys, from the round `k` on. Once both sides
are passed they go on forever: `none`. -/
def splitRounds (ikey : Nat → Nat) (n mid : Nat) : Nat → Nat → Option Nat
  | 0, _ => none
  | fuel + 1, k =>
    if mid + 1 + k ≤ n ∧ ikey mid ≠ ikey (mid + 1 + k) then some (mid + 1 + k)
    else if k + 2 ≤ mid ∧ ikey mid ≠ ikey (mid - (k + 2)) then some (mid - (k + 2) + 1)
    else splitRounds ikey n mid fuel (k + 1)

def splitPoint (ikey : Nat → Nat) (n mid : Nat) : Option Nat :=
  if ikey mid = ikey (mid - 1) then splitRounds ikey n mid (width + 1) 0 else some mid

namespace Leaf

def makeRoot : Leaf V :=
  { perm := .makeEmpty, slots := List.replicate width default, version := Nodeversion.isleafBit.markRoot }

def size (l : Leaf V) : Nat := l.perm.size
def slot (l : Leaf V) (p : Nat) : Slot V := l.slots.getD p default
def ikeyBound (l : Leaf V) : Nat := (l.slot 0).ikey0

def keys (l : Leaf V) : List (Nat × Nat × Bytes) := l.perm.live.map fun p => (l.slot p).key

def fullVersionValue (l : Leaf V) : Nodeversion := (l.version <<< 4) + BitVec.ofNat 32 l.size

def fullUnlockedVersionValue (l : Leaf V) : Nodeversion :=
  let v := if l.version.has Nodeversion.lockBit then l.version.unlock else l.version
  (v <<< 4) + BitVec.ofNat 32 l.size

def lock (l : Leaf V) : Leaf V := { l with version := l.version.lock }
def unlock (l : Leaf V) : Leaf V := { l with version := l.version.unlock }
def markInsert (l : Leaf V) : Leaf V := { l with version := l.version.markInsert }
def markSplit (l : Leaf V) : Leaf V := { l with version := l.version.markSplit }
def markDeleted (l : Leaf V) : Leaf V := { l with version := l.version.markDeleted }
def deleted (l : Leaf V) : Bool := l.version.has Nodeversion.deletedBit
def deletedLayer (l : Leaf V) : Bool := l.modstate = .deletedLayer

/-- `bound_type::lower`: `kx_.i`, and `kx_.p` unless it is -1. -/
def lower (l : Leaf V) (ka : Key) : Nat × Option Nat :=
  let at_ (m : Nat) : Slot V := l.slot (l.perm.get m)
  let (i, found) := BinarySearch.lower (fun m => ka.compare (at_ m).ikey0 (at_ m).keylenx) l.size 0 l.size
  (i, if found then some (l.perm.get i) else none)

def assign (l : Leaf V) (p : Nat) (ka : Key) : Leaf V := { l with slots := l.slots.set p (.ofKey ka) }

def setValue (l : Leaf V) (p : Nat) (v : V) : Leaf V := { l with slots := l.slots.modify p ({ · with lv := some v }) }

def ikeyAfterInsert (l : Leaf V) (ka : Key) (kxi i : Nat) : Nat :=
  if i < kxi then (l.slot (l.perm.get i)).ikey0
  else if i = kxi then ka.ikey
  else (l.slot (l.perm.get (i - 1))).ikey0

/-- The slots that `split_into` moves to the new leaf, from the position `mid` on. -/
def movedSlots (l : Leaf V) (ka : Key) (kxi mid : Nat) : List (Slot V) :=
  (List.range' mid (l.size + 1 - mid)).map fun x =>
    if x = kxi then .ofKey ka else l.slot (l.perm.get (if kxi < x then x - 1 else x))

/-- `split_into` a new leaf, which has the version of the old one. -/
def splitInto (l : Leaf V) (prev next : Bool) (ka : Key) (kxi : Nat) : Option (LeafSplit V) :=
  let n := l.size
  let start := if kxi = 0 ∧ ¬prev then 1 else if kxi = n ∧ ¬next then n else width / 2 + 1
  (splitPoint (l.ikeyAfterInsert ka kxi) n start).map fun mid =>
    let moved := l.movedSlots ka kxi mid
    let sorted := Permuter.makeSorted (n + 1 - mid)
    let permr := if mid ≤ kxi then sorted.removeToBack (kxi - mid) else sorted
    { right := { perm := permr, slots := moved ++ List.replicate (width - moved.length) default, version := l.version }
      mid
      splitType := if kxi < mid then 0 else if mid = n then 2 else 1 }

/-- The part of `make_split` that strips the moved items from the left leaf. -/
def strip (l : Leaf V) (right : Leaf V) : Leaf V :=
  let n := l.size
  let shrunk := l.perm.setSize (n - right.size)
  let perml := if n ≠ width then shrunk.exchange shrunk.size (width - 1) else shrunk
  { l.markSplit with perm := perml }

/-- A leaf of `make_new_layer` with only a layer in it. -/
def ofLayer (oka : Key) : Leaf V :=
  { (makeRoot : Leaf V) with perm := .makeSorted 1, slots := .ofLayer oka :: List.replicate (width - 1) default }

/-- The last leaf of `make_new_layer`, with the old key and its value, and room for the new one. -/
def ofTwo (oka ka : Key) (old : Option V) : Leaf V :=
  let oldSlot := { (Slot.ofKey oka : Slot V) with lv := old }
  let padding := List.replicate (width - 2) default
  if oka.compare ka.ikey ka.length = .lt then
    { (makeRoot : Leaf V) with perm := .makeSorted 1, slots := oldSlot :: .ofKey ka :: padding }
  else { (makeRoot : Leaf V) with perm := (Permuter.makeSorted 2).removeToBack 0, slots := .ofKey ka :: oldSlot :: padding }

end Leaf

end Masstree.Tree
