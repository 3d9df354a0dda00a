import Masstree.Tree.Halves

/-!
# What a search for a place finds

`find_locked` and `find_insert` at a leaf, by what the leaf has for the key.
-/

namespace Masstree.Tree
open Msgpack (Bytes)

variable {V : Type}

theorem Leaf.slots_startInsert (l : Leaf V) : l.startInsert.slots = l.slots := by
  unfold startInsert
  split <;> rfl

namespace Tcursor

variable {l : Leaf V} {c : Tcursor V} {ka : Key} {prev next : Bool} {p : Nat}

/-- The cursor of `find_insert` at a leaf without the key. -/
def absent (l : Leaf V) (ka : Key) : Tcursor V where
  nodes := [l.lock]
  n := 0
  ka
  kxi := (l.lower ka).1
  kxp := (l.lower ka).2
  state := 2
  originalV := l.lock.fullUnlockedVersionValue

theorem findLocked_alive (found : findLocked l ka = some c) : l.deleted = false ∧ l.deletedLayer = false := by
  unfold findLocked at found
  split at found
  · cases found
  · rename_i live
    rw [not_or, Bool.not_eq_true, Bool.not_eq_true] at live
    exact live

theorem findLocked_none (alive : l.deleted = false) (live : l.deletedLayer = false) (search : (l.lower ka).2 = none) :
    findLocked l ka = some { nodes := [l.lock], n := 0, ka, kxi := (l.lower ka).1, kxp := none, state := 0 } := by
  unfold findLocked
  rw [alive, live]
  simp [search]

theorem findLocked_some (alive : l.deleted = false) (live : l.deletedLayer = false) (search : (l.lower ka).2 = some p) :
    findLocked l ka = if (l.slot p).ksufMatches ka = .layer then none
      else some (Tcursor.mk [l.lock] 0 ka (l.lower ka).1 (some p) (if (l.slot p).ksufMatches ka = .yes then 1 else 0) 0 0 []) := by
  unfold findLocked
  rw [alive, live]
  simp [search]

theorem findInsert_none (alive : l.deleted = false) (live : l.deletedLayer = false) (search : (l.lower ka).2 = none) :
    findInsert l prev next ka =
      if l.lock.startInsert.size < width ∧ (l.lock.startInsert.perm.back ≠ 0 ∨ ¬prev ∨ l.lock.startInsert.ikeyBound = ka.ikey) then
        some { absent l ka with
          nodes := [l.lock.startInsert.assign l.lock.startInsert.perm.back ka], kxp := some l.lock.startInsert.perm.back }
      else Tcursor.makeSplit { absent l ka with nodes := [l.lock.startInsert] } prev next := by
  unfold findInsert absent
  rw [findLocked_none alive live search, search]
  rfl

theorem findInsert_yes (alive : l.deleted = false) (live : l.deletedLayer = false) (search : (l.lower ka).2 = some p)
    (same : (l.slot p).ksufMatches ka = .yes) : findInsert l prev next ka = some { absent l ka with state := 1 } := by
  unfold findInsert absent
  rw [findLocked_some alive live search, same, search]
  rfl

theorem findInsert_no (alive : l.deleted = false) (live : l.deletedLayer = false) (search : (l.lower ka).2 = some p)
    (other : (l.slot p).ksufMatches ka = .no) : findInsert l prev next ka = (absent l ka).makeNewLayer p := by
  unfold findInsert absent
  rw [findLocked_some alive live search, other, search]
  rfl

end Tcursor

end Masstree.Tree
