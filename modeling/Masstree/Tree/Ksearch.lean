import Masstree.Tree.Entries
import Masstree.Tree.Node

/-!
# Searching a node

The four searches of `ksearch.hh`: an upper and a lower bound, by halving and one key after another, through the permutation of the
node.
-/

namespace Masstree.Tree

open BinarySearch

/-- `key_permuter<T>::type` -/
structure Permutation where
  size : Nat
  slot : Nat → Nat

def identityKpermuter (size : Nat) : Permutation := ⟨size, id⟩

def Permuter.permutation (p : Permuter) : Permutation := ⟨p.size, p.get⟩

/-- A position and its slot, or -1. -/
structure KeyIndexedPosition where
  i : Nat
  p : Int
  deriving DecidableEq, Repr

namespace Permutation

variable (perm : Permutation) (comparator : Nat → Ordering)

def position (found : Nat × Bool) : KeyIndexedPosition := ⟨found.1, if found.2 then perm.slot found.1 else -1⟩

def keyUpperBoundBy : Nat := upper (fun m => comparator (perm.slot m)) perm.size 0 perm.size
def keyLowerBoundBy : KeyIndexedPosition := perm.position (lower (fun m => comparator (perm.slot m)) perm.size 0 perm.size)
def keyFindUpperBoundBy : Nat := scanUpper (fun l => comparator (perm.slot l)) perm.size 0 perm.size
def keyFindLowerBoundBy : KeyIndexedPosition := perm.position (scanLower (fun l => comparator (perm.slot l)) perm.size 0 perm.size)

end Permutation

def Internode.compareKey {N : Type} (p : Internode N) (a : Key) (bp : Nat) : Ordering := compare a.ikey ((p.ikey bp).getD 0)

def Leaf.compareKey {V : Type} (l : Leaf V) (a : Key) (bp : Nat) : Ordering := a.compare (l.slot bp).ikey0 (l.slot bp).keylenx

/-- What the searches for `key` return, `place` being what a slot is sorted by. -/
structure Searches (perm : Permutation) (comparator : Nat → Ordering) (key : Nat) (place : Nat → Nat) : Prop where
  upper : perm.keyUpperBoundBy comparator = numberUpTo key (fun i => place (perm.slot i)) perm.size
  findUpper : perm.keyFindUpperBoundBy comparator = numberUpTo key (fun i => place (perm.slot i)) perm.size
  lower : ∀ i < perm.size, place (perm.slot i) = key → perm.keyLowerBoundBy comparator = ⟨i, perm.slot i⟩
  findLower : ∀ i < perm.size, place (perm.slot i) = key → perm.keyFindLowerBoundBy comparator = ⟨i, perm.slot i⟩
  missing : (∀ i < perm.size, place (perm.slot i) ≠ key) →
    perm.keyLowerBoundBy comparator = ⟨numberBelow key (fun i => place (perm.slot i)) perm.size, -1⟩
  findMissing : (∀ i < perm.size, place (perm.slot i) ≠ key) →
    perm.keyFindLowerBoundBy comparator = ⟨numberBelow key (fun i => place (perm.slot i)) perm.size, -1⟩

theorem searches_of_compares {perm : Permutation} {comparator : Nat → Ordering} {key : Nat} {place : Nat → Nat}
    (compares : Compares (fun m => comparator (perm.slot m)) key (fun i => place (perm.slot i)) perm.size) :
    Searches perm comparator key place where
  upper := upper_eq compares
  findUpper := scanUpper_eq compares
  lower i lt same := congrArg perm.position ((lower_eq compares).1 i lt same)
  findLower i lt same := congrArg perm.position ((scanLower_eq compares).1 i lt same)
  missing none_ := congrArg perm.position ((lower_eq compares).2 none_)
  findMissing none_ := congrArg perm.position ((scanLower_eq compares).2 none_)

variable {N V : Type}

/-- Halving and scanning find the same, in every internode sorted by ikey and every leaf sorted by ikey and length class. -/
theorem searches_agree (p : Internode N) (l : Leaf V) (ka : Key) (sorted : p.rest.Pairwise fun x y => x.1 < y.1)
    (sortedLeaf : l.perm.live.Pairwise fun x y => (l.slot x).rank < (l.slot y).rank) :
    Searches (identityKpermuter p.size) (p.compareKey ka) ka.ikey (fun bp => (p.ikey bp).getD 0) ∧
      Searches l.perm.permutation (l.compareKey ka) ka.rank (fun bp => (l.slot bp).rank) := by
  refine ⟨searches_of_compares ⟨fun _ _ => rfl, fun i j lt bound => ?_⟩,
    searches_of_compares ⟨fun _ _ => Key.compare_eq ka _ _, fun i j lt bound => ?_⟩⟩
  · have second : j < p.rest.length := bound
    have first : i < p.rest.length := Nat.lt_trans lt second
    show ((p.rest[i]?).map Prod.fst).getD 0 < ((p.rest[j]?).map Prod.fst).getD 0
    rw [List.getElem?_eq_getElem first, List.getElem?_eq_getElem second]
    exact List.pairwise_iff_getElem.mp sorted i j first second lt
  · have second : j < l.perm.live.length := bound
    have first : i < l.perm.live.length := Nat.lt_trans lt second
    show (l.slot (l.perm.get i)).rank < (l.slot (l.perm.get j)).rank
    rw [Permuter.get_live first, Permuter.get_live second]
    exact List.pairwise_iff_getElem.mp sortedLeaf i j first second lt

/-- Two separators, and a leaf whose slots 1 and 0 hold keys of one ikey, three bytes long and longer than eight. -/
theorem searches_agree_two :
    Searches (identityKpermuter 2)
        (Internode.compareKey ⟨Nodeversion.isleafBit, 0, none, [(3, ()), (7, ())]⟩ (Key.ofStr [0, 0, 0, 0, 0, 0, 0, 7, 1]))
        (Key.ofStr [0, 0, 0, 0, 0, 0, 0, 7, 1]).ikey
        (fun bp => (Internode.ikey ⟨Nodeversion.isleafBit, 0, none, [(3, ()), (7, ())]⟩ bp).getD 0) ∧
      Searches (Permuter.permutation ⟨[1, 0], []⟩)
        (Leaf.compareKey { perm := ⟨[1, 0], []⟩, slots := [⟨7, 64, [1], some ()⟩, ⟨7, 3, [], some ()⟩] }
          (Key.ofStr [0, 0, 0, 0, 0, 0, 0, 7, 1]))
        (Key.ofStr [0, 0, 0, 0, 0, 0, 0, 7, 1]).rank
        (fun bp => (Leaf.slot { perm := ⟨[1, 0], []⟩, slots := [⟨7, 64, [1], some ()⟩, ⟨7, 3, [], some ()⟩] } bp).rank) :=
  searches_agree ⟨Nodeversion.isleafBit, 0, none, [(3, ()), (7, ())]⟩
    { perm := ⟨[1, 0], []⟩, slots := [⟨7, 64, [1], some ()⟩, ⟨7, 3, [], some ()⟩] } (Key.ofStr [0, 0, 0, 0, 0, 0, 0, 7, 1])
    (by decide) (by decide)

/-- The leaf and the internode of the tree search as `key_bound_binary` does. -/
theorem Leaf.lower_eq_keyLowerBoundBy (l : Leaf V) (ka : Key) :
    l.perm.permutation.keyLowerBoundBy (l.compareKey ka) = ⟨(l.lower ka).1, ((l.lower ka).2.map Int.ofNat).getD (-1)⟩ := by
  have read : ∀ found : Nat × Bool, l.perm.permutation.position found =
      ⟨found.1, ((if found.2 then some (l.perm.get found.1) else none).map Int.ofNat).getD (-1)⟩ := by
    rintro ⟨i, _ | _⟩ <;> rfl
  exact read _

theorem Internode.upper_eq_keyUpperBoundBy (p : Internode N) (ka : Key) :
    (identityKpermuter p.size).keyUpperBoundBy (p.compareKey ka) = p.upper ka.ikey := rfl

end Masstree.Tree
