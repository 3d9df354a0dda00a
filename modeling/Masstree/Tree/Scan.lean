import Masstree.Lib.Producer
import Masstree.Tree.RawKey
import Masstree.Tree.Table

/-!
# Scans

`basic_table::scan` on a table that nobody else changes: the key is in a buffer, and the slices of the layers that the scan is in are
written over each other there.
-/

namespace Masstree.Tree
open Msgpack (Bytes toNetOrder)

variable {V S : Type}

/-- `bound_type::lower_by` with the key of a scan. -/
def Leaf.lowerBy (l : Leaf V) (k : RawKey) : Nat × Option Nat :=
  let at_ (m : Nat) : Slot V := l.slot (l.perm.get m)
  let (i, found) := BinarySearch.lower (fun m => k.compare (at_ m).ikey0 (at_ m).keylenx) l.size 0 l.size
  (i, if found then some (l.perm.get i) else none)

/-- `kp`, and `none` for -1 -/
def Leaf.kp (l : Leaf V) (ki : Int) : Option Nat := if 0 ≤ ki ∧ ki < l.size then some (l.perm.get ki.toNat) else none

/-- `forward_scan_helper`, or `reverse_scan_helper` with its `upper_bound_`. -/
inductive Helper where
  | forward
  | reverse (upperBound : Bool)
  deriving DecidableEq, Repr

namespace Helper

def initialKsufMatch (ksufCompare : Ordering) (emitEqual : Bool) : Helper → Bool
  | forward => ksufCompare = .gt ∨ ksufCompare = .eq ∧ emitEqual
  | reverse _ => ksufCompare = .lt ∨ ksufCompare = .eq ∧ emitEqual

def isDuplicate (k : RawKey) (ikey keylenx : Nat) : Helper → Bool
  | forward => k.compare ikey keylenx ≠ .lt
  | reverse upperBound => k.compare ikey keylenx ≠ .gt ∧ ¬upperBound

def lowerWithPosition (k : RawKey) (l : Leaf V) : Helper → Int × Option Nat
  | forward => ((l.lowerBy k).1, (l.lowerBy k).2)
  | reverse _ => ((l.lowerBy k).1 - if (l.lowerBy k).2.isNone then 1 else 0, (l.lowerBy k).2)

def lower (k : RawKey) (l : Leaf V) : Helper → Int
  | forward => (l.lowerBy k).1
  | reverse upperBound => if upperBound then l.size - 1 else (lowerWithPosition k l (.reverse upperBound)).1

def markKeyComplete : Helper → Helper
  | forward => forward
  | reverse _ => reverse false

def next (ki : Int) : Helper → Int
  | forward => ki + 1
  | reverse _ => ki - 1

/-- The next leaf, as its place along `next_`, and the key. -/
def advance (h : Host) (leaves : List (Leaf V)) (n : Nat) (l : Leaf V) (k : RawKey) : Helper → Option Nat × RawKey
  | forward => (if n + 1 < leaves.length then some (n + 1) else none, k)
  | reverse _ =>
    (if n = 0 then none else some (n - 1), (k.assignStoreIkey h (BitVec.ofNat _ l.ikeyBound)).assignStoreLength 0)

/-- The loop of `reverse_scan_helper::stable`, for at most `fuel` leaves. -/
def settle (leaves : List (Leaf V)) (k : RawKey) : Nat → Nat → Nat
  | 0, n => n
  | fuel + 1, n =>
    match leaves[n + 1]? with
    | none => n
    | some next =>
      if k.ikey0.toNat < next.ikeyBound ∨ k.ikey0.toNat = next.ikeyBound ∧ k.len = 0 then n else settle leaves k fuel (n + 1)

def stable (leaves : List (Leaf V)) (k : RawKey) (n : Nat) : Helper → Nat
  | forward => n
  | reverse _ => settle leaves k leaves.length n

def shiftClear (k : RawKey) : Helper → Helper × RawKey
  | forward => (forward, k.shiftClear)
  | reverse _ => (reverse true, k.shiftClearReverse)

end Helper

/-- `scan_emit` to `scan_retry`, and where `scan` goes to `done`. -/
inductive ScanState where
  | emit
  | findNext
  | down
  | up
  | retry
  | done
  deriving DecidableEq, Repr

/-- The variables of `scan` with those of its `scanstackelt`. -/
structure Scan (V : Type) where
  state : ScanState := .retry
  helper : Helper
  ka : RawKey
  /-- the prefix of the layer of `root_` -/
  root : Bytes := []
  /-- `n_`, as its place along `next_` -/
  n : Nat := 0
  ki : Int := 0
  /-- the pairs in `node_stack_` of a `root_` and an `n_`, the last pushed first -/
  nodeStack : List (Bytes × Nat) := []
  entry : Option V := none

/-- The leaf `n` of a layer, and all leaves of the layer. -/
def Table.leaf (t : Table V) (at_ : Bytes) (n : Nat) : Option (List (Leaf V) × Leaf V) :=
  (t.layers at_).bind fun root => (root.leaves[n]?).map fun l => (root.leaves, l)

/-- `reach_leaf`. Before a leaf are the leaves of the children before those on the way to it. -/
def Table.reachLeaf (t : Table V) (at_ : Bytes) (ikey : Nat) : Option Nat :=
  (t.layers at_).bind fun root => (root.reachLeaf ikey root.height []).map fun (_, path) => (before path).length

namespace Scan

/-- `root_` and `n_` are pushed, and `root_` becomes the layer of the entry. -/
def push (c : Scan V) (ikey : Nat) : Scan V :=
  { c with nodeStack := (c.root, c.n) :: c.nodeStack, root := c.root ++ toNetOrder 8 ikey, state := .down }

def findInitial (t : Table V) (emitEqual : Bool) (c : Scan V) : Option (Scan V) :=
  (t.reachLeaf c.root c.ka.ikey0.toNat).bind fun n =>
    (t.leaf c.root n).bind fun (_, l) =>
      if l.deleted then none
      else
        let (ki, kp) := c.helper.lowerWithPosition c.ka l
        let c := { c with n, ki }
        match kp with
        | none => some { c with state := .findNext }
        | some kp =>
          let keylenx := (l.slot kp).keylenx
          let c := { c with entry := (l.slot kp).lv }
          let skipped := { c with ki := c.helper.next ki, state := .findNext }
          if (l.slot kp).isLayer then some (c.push (l.slot kp).ikey0)
          else if keylenx = ksufKeylenx then
            let suffix := (l.slot kp).ksuf
            if c.helper.initialKsufMatch (strCompare suffix c.ka.suffix) emitEqual then
              let (keylen, ka) := c.ka.assignStoreSuffix suffix
              some { c with ka := ka.assignStoreLength keylen, state := .emit }
            else some skipped
          else if emitEqual then some { c with state := .emit }
          else some skipped

def findRetry (t : Table V) (c : Scan V) : Option (Scan V) :=
  (t.reachLeaf c.root c.ka.ikey0.toNat).bind fun n =>
    (t.leaf c.root n).bind fun (_, l) =>
      if l.deleted then none else some { c with n, ki := c.helper.lower c.ka l, state := .findNext }

/-- `find_next` from `retry_entry` on, for at most `fuel` entries. It goes on with the next leaf where no entry is left. -/
def retryEntry (h : Host) (l : Leaf V) : Nat → Scan V → Scan V
  | 0, c => { c with state := .findNext }
  | fuel + 1, c =>
    match l.kp c.ki with
    | none => { c with state := .findNext }
    | some kp =>
      let ikey := (l.slot kp).ikey0
      let keylenx := (l.slot kp).keylenx
      let (keylen, ka) := if keylenx = ksufKeylenx then c.ka.assignStoreSuffix (l.slot kp).ksuf else (keylenx, c.ka)
      let c := { c with ka, entry := (l.slot kp).lv }
      if c.helper.isDuplicate ka ikey keylenx then retryEntry h l fuel { c with ki := c.helper.next c.ki }
      else
        let c := { c with ka := ka.assignStoreIkey h (BitVec.ofNat _ ikey), helper := c.helper.markKeyComplete }
        if (l.slot kp).isLayer then c.push ikey
        else { c with ka := c.ka.assignStoreLength keylen, state := .emit }

/-- What `find_next` does from `changed` on, and `scan` at `scan_up`. -/
def changed (t : Table V) (c : Scan V) : Option (Scan V) :=
  (t.layers c.root).bind fun root =>
    let n := c.helper.stable root.leaves c.ka c.n
    (root.leaves[n]?).map fun l => { c with n, ki := c.helper.lower c.ka l, state := .findNext }

def findNext (h : Host) (t : Table V) (c : Scan V) : Option (Scan V) :=
  (t.leaf c.root c.n).bind fun (leaves, l) =>
    if l.deleted then some { c with state := .retry }
    else
      let c := c.retryEntry h l (l.size + 1)
      if c.state ≠ .findNext then some c
      else
        match c.helper.advance h leaves c.n l c.ka with
        | (none, ka) => some { c with ka, helper := c.helper.markKeyComplete, state := .up }
        | (some n, ka) => { c with ka, n }.changed t

/-- The frames are popped until the key is not empty. -/
def pop (h : Host) (c : Scan V) : List (Bytes × Nat) → Option (Scan V)
  | [] => none
  | (root, n) :: nodeStack =>
    let ka := c.ka.unshift h
    if ka.empty then pop h { c with ka } nodeStack else some { c with ka, root, n, nodeStack }

/-- The second loop of `scan`, where the visitor is not called. -/
def step (h : Host) (t : Table V) (c : Scan V) : Option (Scan V) :=
  match c.state with
  | .emit => { c with ki := c.helper.next c.ki, state := .findNext }.findNext h t
  | .findNext => c.findNext h t
  | .up =>
    match c.pop h c.nodeStack with
    | none => some { c with state := .done }
    | some c => c.changed t
  | .down =>
    let (helper, ka) := c.helper.shiftClear c.ka
    { c with helper, ka }.findRetry t
  | .retry => c.findRetry t
  | .done => none

/-- Where the visitor is called with the key and the value. -/
def out (c : Scan V) : Option (Bytes × Option V) := if c.state = .emit then some (c.ka.fullString, c.entry) else none

def producer (h : Host) (t : Table V) : Producer (Scan V) (Bytes × Option V) where
  finished c := c.state = .done
  out := out
  step := step h t

/-- The first loop of `scan`, for at most `fuel` layers. -/
def descend (h : Host) (t : Table V) (emitFirstkey : Bool) : Nat → Scan V → Option (Scan V)
  | 0, _ => none
  | fuel + 1, c =>
    (c.findInitial t emitFirstkey).bind fun c =>
      if c.state ≠ .down then some c else descend h t emitFirstkey fuel { c with ka := c.ka.shift h }

end Scan

/-- `sizeof(keybuf)`, which is `MASSTREE_MAXKEYLEN` rounded up to whole slices. -/
def keybufSize : Nat := 256

namespace Table

/-- `scan` with a helper. `keybuf` is what the buffer has in it before, and `fuel` bounds the second loop. -/
def scanWith (t : Table V) (h : Host) (keybuf : Memory) (helper : Helper) (firstkey : Bytes) (emitFirstkey : Bool)
    (visit : S → Bytes × Option V → Bool × S) (scanner : S) (fuel : Nat) : Option (Nat × S) :=
  if firstkey.length ≤ keybufSize then
    let ka := RawKey.ofString h (copyBytes keybuf 0 firstkey) firstkey.length
    (Scan.descend h t emitFirstkey (firstkey.length + 1) { helper, ka }).bind fun c =>
      (Scan.producer h t).feed visit fuel c 0 scanner
  else none

def scan (t : Table V) (h : Host) (keybuf : Memory) : Bytes → Bool → (S → Bytes × Option V → Bool × S) → S → Nat → Option (Nat × S) :=
  t.scanWith h keybuf .forward

def rscan (t : Table V) (h : Host) (keybuf : Memory) : Bytes → Bool → (S → Bytes × Option V → Bool × S) → S → Nat → Option (Nat × S) :=
  t.scanWith h keybuf (.reverse false)

end Table

end Masstree.Tree
