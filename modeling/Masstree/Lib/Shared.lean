import Masstree.Lib.Positions
import Mathlib.Data.List.Perm.Basic

/-!
# Reference-counted cells

A cell counts the pointers to it, and goes with the last one. Where a cell is gone, an operation on it has no result. The pointers
are a list whose order does not matter: those of the program's variables and those it holds meanwhile.
-/

namespace Shared

variable {α : Type}

structure Cell (α : Type) where
  refcount : Nat
  value : α
  deriving DecidableEq, Repr

/-- The cells by their addresses, those freed as `none`. -/
abbrev Cells (α : Type) := List (Option (Cell α))

namespace Cells

variable (cells : Cells α)

def cell (c : Nat) : Option (Cell α) := cells[c]?.join

def value (c : Nat) : Option α := (cells.cell c).map (·.value)

def ref (c : Nat) : Option (Cells α) :=
  (cells.cell c).map fun cell => cells.set c (some { cell with refcount := cell.refcount + 1 })

def deref (c : Nat) : Option (Cells α) :=
  (cells.cell c).map fun cell =>
    cells.set c (if cell.refcount - 1 = 0 then none else some { cell with refcount := cell.refcount - 1 })

def alloc (a : α) : Cells α := cells ++ [some ⟨1, a⟩]

def put (c : Nat) (a : α) : Option (Cells α) := (cells.cell c).map fun cell => cells.set c (some { cell with value := a })

end Cells

/-- Every cell has as many pointers as it counts, and every pointer a cell. -/
structure Counted (cells : Cells α) (pointers : List (Option Nat)) : Prop where
  counts : ∀ c cell, cells.cell c = some cell → cell.refcount = pointers.count (some c)
  used : ∀ c cell, cells.cell c = some cell → some c ∈ pointers
  alive : ∀ c, some c ∈ pointers → ∃ cell, cells.cell c = some cell

variable {cells cells' : Cells α} {pointers pointers' : List (Option Nat)} {c d : Nat} {a : α}

theorem counted_nil : Counted ([] : Cells α) [] := by
  refine ⟨fun c cell at_ => ?_, fun c cell at_ => ?_, fun c mem => absurd mem List.not_mem_nil⟩
  · cases at_
  · cases at_

theorem Counted.perm (counted : Counted cells pointers) (perm : pointers.Perm pointers') : Counted cells pointers' :=
  ⟨fun c cell at_ => (counted.counts c cell at_).trans (perm.count_eq _), fun c cell at_ => perm.mem_iff.mp (counted.used c cell at_),
    fun c mem => counted.alive c (perm.mem_iff.mpr mem)⟩

/-- Null pointers count for nothing. -/
theorem counted_null : Counted cells (none :: pointers) ↔ Counted cells pointers := by
  have count : ∀ c, (none :: pointers).count (some c) = pointers.count (some c) := fun c => List.count_cons_of_ne (by simp)
  have mem : ∀ c, some c ∈ none :: pointers ↔ some c ∈ pointers := fun c => by simp
  constructor
  · rintro ⟨counts, used, alive⟩
    exact ⟨fun c cell at_ => (counts c cell at_).trans (count c), fun c cell at_ => (mem c).mp (used c cell at_),
      fun c here => alive c ((mem c).mpr here)⟩
  · rintro ⟨counts, used, alive⟩
    exact ⟨fun c cell at_ => (counts c cell at_).trans (count c).symm, fun c cell at_ => (mem c).mpr (used c cell at_),
      fun c here => alive c ((mem c).mp here)⟩

theorem lt_of_cell {cell : Cell α} (at_ : cells.cell c = some cell) : c < cells.length := by
  by_contra out
  rw [Cells.cell, List.getElem?_eq_none (by omega)] at at_
  cases at_

theorem cell_set {x : Option (Cell α)} (lt : c < cells.length) (d : Nat) :
    Cells.cell (cells.set c x) d = if d = c then x else cells.cell d := by
  unfold Cells.cell
  split
  · rename_i same
    rw [same, List.getElem?_set_self lt, Option.join_some]
  · rename_i other
    rw [List.getElem?_set_ne (Ne.symm other)]

theorem Counted.ref (counted : Counted cells pointers) (mem : some c ∈ pointers) :
    ∃ cells', cells.ref c = some cells' ∧ Counted cells' (some c :: pointers) ∧ ∀ d, cells'.value d = cells.value d := by
  obtain ⟨cell, at_⟩ := counted.alive c mem
  have lt := lt_of_cell at_
  refine ⟨_, by rw [Cells.ref, at_, Option.map_some], ⟨fun d cell' at' => ?_, fun d cell' at' => ?_, fun d here => ?_⟩, fun d => ?_⟩
  · rw [cell_set lt] at at'
    split at at'
    · rename_i same
      obtain rfl := Option.some.inj at'
      rw [same, List.count_cons_self, counted.counts c cell at_]
    · rename_i other
      rw [List.count_cons_of_ne fun eq => other (Option.some.inj eq).symm]
      exact counted.counts d cell' at'
  · rw [cell_set lt] at at'
    split at at'
    · rename_i same
      rw [same]
      exact List.mem_cons_self
    · exact List.mem_cons_of_mem _ (counted.used d cell' at')
  · rw [cell_set lt]
    split
    · exact ⟨_, rfl⟩
    · rename_i other
      rcases List.mem_cons.mp here with eq | old
      · exact absurd (Option.some.inj eq) other
      · exact counted.alive d old
  · rw [Cells.value, cell_set lt]
    split
    · rename_i same
      rw [same, Cells.value, at_, Option.map_some, Option.map_some]
    · rfl

theorem Counted.deref (counted : Counted cells (some c :: pointers)) :
    ∃ cells', cells.deref c = some cells' ∧ Counted cells' pointers ∧ ∀ d, some d ∈ pointers → cells'.value d = cells.value d := by
  obtain ⟨cell, at_⟩ := counted.alive c List.mem_cons_self
  have lt := lt_of_cell at_
  have count := counted.counts c cell at_
  rw [List.count_cons_self] at count
  refine ⟨_, by rw [Cells.deref, at_, Option.map_some], ⟨fun d cell' at' => ?_, fun d cell' at' => ?_, fun d here => ?_⟩,
    fun d here => ?_⟩
  · rw [cell_set lt] at at'
    split at at'
    · rename_i same
      split at at'
      · cases at'
      · obtain rfl := Option.some.inj at'
        rw [same]
        show cell.refcount - 1 = _
        omega
    · rename_i other
      have old := counted.counts d cell' at'
      rwa [List.count_cons_of_ne fun eq => other (Option.some.inj eq).symm] at old
  · rw [cell_set lt] at at'
    split at at'
    · rename_i same
      split at at'
      · cases at'
      · rename_i more
        rw [same]
        exact List.count_pos_iff.mp (by omega)
    · rename_i other
      rcases List.mem_cons.mp (counted.used d cell' at') with eq | old
      · exact absurd (Option.some.inj eq) other
      · exact old
  · rw [cell_set lt]
    split
    · rename_i same
      have more := List.count_pos_iff.mpr (same ▸ here)
      rw [if_neg (by omega)]
      exact ⟨_, rfl⟩
    · exact counted.alive d (List.mem_cons_of_mem _ here)
  · rw [Cells.value, cell_set lt]
    split
    · rename_i same
      have more := List.count_pos_iff.mpr (same ▸ here)
      rw [if_neg (by omega), same, Cells.value, at_, Option.map_some, Option.map_some]
    · rfl

theorem Counted.alloc (counted : Counted cells pointers) (a : α) :
    Counted (cells.alloc a) (some cells.length :: pointers) ∧ (cells.alloc a).value cells.length = some a ∧
      ∀ d, some d ∈ pointers → (cells.alloc a).value d = cells.value d := by
  have cell : ∀ d, (cells.alloc a).cell d = if d = cells.length then some ⟨1, a⟩ else cells.cell d := by
    intro d
    unfold Cells.alloc Cells.cell
    split
    · rename_i same
      rw [same, List.getElem?_concat_length, Option.join_some]
    · rename_i other
      rcases Nat.lt_or_ge d cells.length with lt | ge
      · rw [List.getElem?_append_left lt]
      · rw [List.getElem?_eq_none (by rw [List.length_append, List.length_singleton]; omega), List.getElem?_eq_none ge]
  have fresh : some cells.length ∉ pointers := by
    intro mem
    obtain ⟨_, at_⟩ := counted.alive _ mem
    exact absurd (lt_of_cell at_) (Nat.lt_irrefl _)
  refine ⟨⟨fun d cell' at' => ?_, fun d cell' at' => ?_, fun d here => ?_⟩, ?_, fun d here => ?_⟩
  · rw [cell] at at'
    split at at'
    · rename_i same
      obtain rfl := Option.some.inj at'
      rw [same, List.count_cons_self, List.count_eq_zero_of_not_mem fresh]
    · rename_i other
      rw [List.count_cons_of_ne fun eq => other (Option.some.inj eq).symm]
      exact counted.counts d cell' at'
  · rw [cell] at at'
    split at at'
    · rename_i same
      rw [same]
      exact List.mem_cons_self
    · exact List.mem_cons_of_mem _ (counted.used d cell' at')
  · rw [cell]
    split
    · exact ⟨_, rfl⟩
    · rename_i other
      rcases List.mem_cons.mp here with eq | old
      · exact absurd (Option.some.inj eq) other
      · exact counted.alive d old
  · rw [Cells.value, cell, if_pos rfl, Option.map_some]
  · have other : d ≠ cells.length := by
      rintro rfl
      exact fresh here
    rw [Cells.value, cell, if_neg other, Cells.value]

theorem Counted.put (counted : Counted cells pointers) (mem : some c ∈ pointers) (a : α) :
    ∃ cells', cells.put c a = some cells' ∧ Counted cells' pointers ∧ cells'.value c = some a ∧
    ∀ d ≠ c, cells'.value d = cells.value d := by
  obtain ⟨cell, at_⟩ := counted.alive c mem
  have lt := lt_of_cell at_
  refine ⟨_, by rw [Cells.put, at_, Option.map_some], ⟨fun d cell' at' => ?_, fun d cell' at' => ?_, fun d here => ?_⟩, ?_,
    fun d other => ?_⟩
  · rw [cell_set lt] at at'
    split at at'
    · rename_i same
      obtain rfl := Option.some.inj at'
      rw [same]
      exact counted.counts c cell at_
    · exact counted.counts d cell' at'
  · rw [cell_set lt] at at'
    split at at'
    · rename_i same
      rw [same]
      exact mem
    · exact counted.used d cell' at'
  · rw [cell_set lt]
    split
    · exact ⟨_, rfl⟩
    · exact counted.alive d here
  · rw [Cells.value, cell_set lt, if_pos rfl, Option.map_some]
  · rw [Cells.value, cell_set lt, if_neg other, Cells.value]

end Shared
