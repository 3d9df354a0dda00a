import Masstree.Lib.BinarySearch
import Masstree.Tree.Nodeversion
import Masstree.Tree.Permuter

/-!
# Internodes and the way to a leaf

A trie layer is a B+ tree over ikeys. An internode holds a child, `child_[0]`, and pairs of an ikey and the child that
begins there; only `child_[0]` can be null. What the leaves hold does not matter here.
-/

namespace Masstree.Tree

/-- `N` is what the children are. -/
structure Internode (N : Type) where
  version : Nodeversion
  height : Nat
  /-- `child_[0]` -/
  first : Option N
  /-- `ikey0_[p]` and `child_[p + 1]` for `p < nkeys_` -/
  rest : List (Nat × N)

namespace Internode

variable {N : Type}

/-- `nkeys_` -/
def size (p : Internode N) : Nat := p.rest.length

def ikey (p : Internode N) (i : Nat) : Option Nat := p.rest[i]?.map Prod.fst

/-- `child_[i]`, where `none` is a null pointer or no child at all. -/
def child (p : Internode N) : Nat → Option N
  | 0 => p.first
  | i + 1 => p.rest[i]?.map Prod.snd

def upper (ikey : Nat) (p : Internode N) : Nat :=
  BinarySearch.upper (fun m => compare ikey ((p.ikey m).getD 0)) p.size 0 p.size

def lock (p : Internode N) : Internode N := { p with version := p.version.lock }
def unlock (p : Internode N) : Internode N := { p with version := p.version.unlock }
def markInsert (p : Internode N) : Internode N := { p with version := p.version.markInsert }
def markSplit (p : Internode N) : Internode N := { p with version := p.version.markSplit }
def markNonroot (p : Internode N) : Internode N := { p with version := p.version.markNonroot }

def setChild (p : Internode N) (kp : Nat) (n : N) : Internode N :=
  match kp with
  | 0 => { p with first := some n }
  | i + 1 => { p with rest := p.rest.modify i fun e => (e.1, n) }

def setIkey (p : Internode N) (i : Nat) (ikey : Nat) : Internode N :=
  { p with rest := p.rest.modify i fun e => (ikey, e.2) }

/-- `shift_up`, then `assign`. -/
def insert (p : Internode N) (kp : Nat) (ikey : Nat) (n : N) : Internode N :=
  { p with rest := p.rest.insertIdx kp (ikey, n) }

/-- `shift_down` over the child at `kp`. -/
def remove (p : Internode N) (kp : Nat) : Internode N := { p with rest := p.rest.eraseIdx (kp - 1) }

/-- `internode::split_into` of a full internode, with the insertion that `make_split` then makes: the left node, the
ikey between and the right node, made with `height` and the version of the old one. -/
def splitInto (p : Internode N) (height kp ka : Nat) (value : N) (splitType : Nat) :
    Internode N × Nat × Internode N :=
  let mid := if splitType = 2 then width else (width + 1) / 2
  if kp < mid then
    ({ p with rest := (p.rest.take (mid - 1)).insertIdx kp (ka, value) }, (p.ikey (mid - 1)).getD 0,
      ⟨p.version, height, p.child mid, p.rest.drop mid⟩)
  else if kp = mid then
    ({ p with rest := p.rest.take mid }, ka, ⟨p.version, height, some value, p.rest.drop mid⟩)
  else
    ({ p with rest := p.rest.take mid }, (p.ikey mid).getD 0,
      ⟨p.version, height, p.child (mid + 1), (p.rest.drop (mid + 1)).insertIdx (kp - (mid + 1)) (ka, value)⟩)

end Internode

/-- A node of a layer whose leaves are in `L`. -/
inductive Node (L : Type) where
  | leaf (l : L)
  | internode (p : Internode (Node L))

/-- A parent, and which of its children the descent went to. -/
structure Frame (L : Type) where
  p : Internode (Node L)
  kp : Nat

variable {L : Type}

namespace Node

def height : Node L → Nat
  | .leaf _ => 0
  | .internode p => p.height

/-- `reach_leaf` without concurrent writers: the leaf, and its parents from the nearest on. `fuel` bounds the levels;
the height is enough. `none` is a null child. -/
def reachLeaf (ikey : Nat) : Nat → Node L → List (Frame L) → Option (L × List (Frame L))
  | _, .leaf l, path => some (l, path)
  | 0, .internode _, _ => none
  | fuel + 1, .internode p, path =>
    let kp := p.upper ikey
    match p.child kp with
    | none => none
    | some n => reachLeaf ikey fuel n (⟨p, kp⟩ :: path)

end Node

/-- The root, after the node that the path leads to has become `n`. -/
def plug (n : Node L) : List (Frame L) → Node L
  | [] => n
  | f :: path => plug (.internode (f.p.setChild f.kp n)) path

/-! ### The leaves in order -/

mutual

def Node.leaves : Node L → List L
  | .leaf l => [l]
  | .internode ⟨_, _, first, rest⟩ => firstLeaves first ++ restLeaves rest

def firstLeaves : Option (Node L) → List L
  | none => []
  | some n => n.leaves

def restLeaves : List (Nat × Node L) → List L
  | [] => []
  | (_, n) :: rest => n.leaves ++ restLeaves rest

end

/-- The leaves of the children before the one that the descent went to. -/
def Frame.before (f : Frame L) : List L :=
  match f.kp with
  | 0 => []
  | i + 1 => firstLeaves f.p.first ++ restLeaves (f.p.rest.take i)

def Frame.after (f : Frame L) : List L := restLeaves (f.p.rest.drop f.kp)

def before : List (Frame L) → List L
  | [] => []
  | f :: path => before path ++ f.before

def after : List (Frame L) → List L
  | [] => []
  | f :: path => f.after ++ after path

/-- Whether the leaf that the path leads to has a `prev_`: leaves are linked in their order. -/
def hasPrev (path : List (Frame L)) : Bool := !(before path).isEmpty

def hasNext (path : List (Frame L)) : Bool := !(after path).isEmpty

end Masstree.Tree
