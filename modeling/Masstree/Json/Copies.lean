import Masstree.Json.Operations
import Masstree.Lib.Shared

/-!
# `Json` objects and their copies

Variables of type `Json` that hold objects. A copy shares the `ObjectJson`, and an operation that changes a shared one copies it first.
-/

namespace Masstree

open Shared

/-- The objects in memory, and `u_.o.x` of each variable. -/
structure Objects (K V : Type) where
  cells : Cells (ObjectJson K V)
  vars : List (Option Nat)
  deriving DecidableEq, Repr

namespace Objects

variable {K V : Type}

/-- One variable, from `make_object()`. -/
def start : Objects K V := ⟨[], [none]⟩

variable (s : Objects K V) (i : Nat)

def ojson : Option (ObjectJson K V) := s.vars[i]?.join.bind s.cells.value

def uniqueifyObject : Option (Objects K V) :=
  s.vars[i]?.bind fun x =>
    match x with
    | none => some ⟨s.cells.alloc .empty, s.vars.set i (some s.cells.length)⟩
    | some c =>
      (s.cells.cell c).bind fun cell =>
        if cell.refcount ≠ 1 then
          ((s.cells.alloc cell.value.copy).deref c).map fun cells => ⟨cells, s.vars.set i (some s.cells.length)⟩
        else some s

def update (o : ObjectJson K V) : Option (Objects K V) :=
  s.vars[i]?.join.bind fun c => (s.cells.put c o).map fun cells => { s with cells := cells }

/-- An operation on the object that the variable has for itself. -/
def modify {R : Type} (f : ObjectJson K V → Option (ObjectJson K V × R)) : Option (Objects K V × R) :=
  (s.uniqueifyObject i).bind fun s =>
    (s.ojson i).bind fun o => (f o).bind fun (o, r) => (s.update i o).map fun s => (s, r)

/-- `Json(const Json& x)` -/
def copy : Option (Objects K V) :=
  s.vars[i]?.bind fun x =>
    match x with
    | none => some { s with vars := s.vars ++ [none] }
    | some c => (s.cells.ref c).map fun cells => ⟨cells, s.vars ++ [some c]⟩

def derefVar (cells : Cells (ObjectJson K V)) (x : Option Nat) : Option (Cells (ObjectJson K V)) :=
  match x with
  | none => some cells
  | some c => cells.deref c

/-- `operator=(const Json& x)`, where `x` is variable `j`. -/
def assign (j : Nat) : Option (Objects K V) :=
  s.vars[i]?.bind fun old =>
    s.vars[j]?.bind fun x =>
      (match x with
      | none => some s.cells
      | some c => s.cells.ref c).bind fun cells =>
        (derefVar cells old).map fun cells => ⟨cells, s.vars.set i x⟩

def clear : Option (Objects K V) :=
  s.vars[i]?.bind fun x =>
    match x with
    | none => some s
    | some c =>
      (s.cells.cell c).bind fun cell =>
        if cell.refcount = 1 then s.update i cell.value.clear
        else (s.cells.deref c).map fun cells => ⟨cells, s.vars.set i none⟩

def size : Int := ((s.ojson i).map (·.size)).getD 0

def iterate : Option (List (K × V)) :=
  match s.ojson i with
  | none => some []
  | some o => o.iterate

/-- `obegin()` after `j` steps, which is at the end where there is no object. -/
def iterator (j : Nat) : Option Int :=
  match s.ojson i with
  | none => some (-1)
  | some o => o.iterator j

/-- The object that an operation finds, an empty one if the variable has none. -/
def own : ObjectJson K V := (s.ojson i).getD .empty

end Objects

namespace Objects

variable {K V : Type}

/-! ### Sharing -/

variable {s s' : Objects K V} {i j : Nat} {x : Option Nat}

theorem ojson_of_var (at_ : s.vars[i]? = some x) : s.ojson i = x.bind s.cells.value := by
  rw [ojson, at_, Option.join_some]

theorem own_of_null (at_ : s.vars[i]? = some none) : s.own i = .empty := by
  rw [own, ojson_of_var at_]
  rfl

theorem own_of_value {c : Nat} {o : ObjectJson K V} (at_ : s.vars[i]? = some (some c)) (value : s.cells.value c = some o) :
    s.own i = o := by
  rw [own, ojson_of_var at_, Option.bind_some, value, Option.getD_some]

theorem pointers_perm (at_ : s.vars[i]? = some x) : s.vars.Perm (x :: s.vars.eraseIdx i) := by
  obtain ⟨lt, rfl⟩ := List.getElem?_eq_some_iff.mp at_
  exact (List.getElem_cons_eraseIdx_perm lt).symm

theorem set_perm (lt : i < s.vars.length) (x : Option Nat) : (x :: s.vars.eraseIdx i).Perm (s.vars.set i x) :=
  (List.set_perm_cons_eraseIdx lt x).symm

theorem mem_rest (other : j ≠ i) (at_ : s.vars[j]? = some x) : x ∈ s.vars.eraseIdx i :=
  List.mem_eraseIdx_iff_getElem?.mpr ⟨j, other, at_⟩

/-- Variable `i` has the object and the other variables have theirs. -/
structure Changed (s s' : Objects K V) (i : Nat) (o : Option (ObjectJson K V)) : Prop where
  counted : Counted s'.cells s'.vars
  length : s'.vars.length = s.vars.length
  here : s'.ojson i = o
  others : ∀ j ≠ i, s'.ojson j = s.ojson j

/-- A new pointer of variable `i`, in memory where the objects of the others are as before. -/
theorem changed_of_set {cells : Cells (ObjectJson K V)} (lt : i < s.vars.length) (x : Option Nat)
    (counted : Counted cells (x :: s.vars.eraseIdx i))
    (same : ∀ d, some d ∈ s.vars.eraseIdx i → cells.value d = s.cells.value d) :
    Changed s ⟨cells, s.vars.set i x⟩ i (x.bind cells.value) := by
  refine ⟨counted.perm (set_perm lt x), List.length_set .., ojson_of_var (List.getElem?_set_self lt), fun j other => ?_⟩
  unfold ojson
  dsimp only
  rw [List.getElem?_set_ne (Ne.symm other)]
  cases at_ : s.vars[j]? with
  | none => rfl
  | some y =>
    rw [Option.join_some]
    cases y with
    | none => rfl
    | some d => exact same d (mem_rest other at_)

/-- `uniqueify_object` leaves the variable the only pointer to its object. -/
theorem uniqueify_spec (counted : Counted s.cells s.vars) (lt : i < s.vars.length) (copies : (s.own i).copy = s.own i) :
    ∃ cells c, s.uniqueifyObject i = some ⟨cells, s.vars.set i (some c)⟩ ∧ Counted cells (some c :: s.vars.eraseIdx i) ∧
      some c ∉ s.vars.eraseIdx i ∧ cells.value c = some (s.own i) ∧
      ∀ d, some d ∈ s.vars.eraseIdx i → cells.value d = s.cells.value d := by
  obtain ⟨x, at_⟩ : ∃ x, s.vars[i]? = some x := ⟨_, List.getElem?_eq_getElem lt⟩
  have pointers := counted.perm (pointers_perm at_)
  have fresh : ∀ {pointers}, Counted s.cells pointers → some s.cells.length ∉ pointers := by
    intro pointers counted mem
    obtain ⟨_, cell⟩ := counted.alive _ mem
    exact absurd (lt_of_cell cell) (Nat.lt_irrefl _)
  cases x with
  | none =>
    have rest := counted_null.mp pointers
    obtain ⟨counted', new, old⟩ := rest.alloc (.empty : ObjectJson K V)
    refine ⟨s.cells.alloc .empty, s.cells.length, ?_, counted', fresh rest, ?_, old⟩
    · rw [uniqueifyObject, at_, Option.bind_some]
    · rw [new, own_of_null at_]
  | some c =>
    obtain ⟨cell, cellAt⟩ := pointers.alive c List.mem_cons_self
    have value : s.cells.value c = some cell.value := by rw [Cells.value, cellAt, Option.map_some]
    have own := own_of_value at_ value
    by_cases alone : cell.refcount = 1
    · have count := pointers.counts c cell cellAt
      rw [alone, List.count_cons_self] at count
      have absent : some c ∉ s.vars.eraseIdx i := List.count_eq_zero.mp (by omega)
      have same : s.vars.set i (some c) = s.vars := by
        obtain ⟨_, eq⟩ := List.getElem?_eq_some_iff.mp at_
        rw [← eq, List.set_getElem_self]
      refine ⟨s.cells, c, ?_, pointers, absent, by rw [value, own], fun _ _ => rfl⟩
      rw [uniqueifyObject, at_, Option.bind_some, same]
      dsimp only
      rw [cellAt, Option.bind_some, if_neg (not_not.mpr alone)]
    · obtain ⟨counted₁, new, old⟩ := pointers.alloc cell.value.copy
      obtain ⟨cells, dereffed, counted₂, kept⟩ := (counted₁.perm (List.Perm.swap ..)).deref
      refine ⟨cells, s.cells.length, ?_, counted₂, fun mem => fresh pointers (List.mem_cons_of_mem _ mem), ?_, fun d mem => ?_⟩
      · rw [uniqueifyObject, at_, Option.bind_some]
        dsimp only
        rw [cellAt, Option.bind_some, if_pos alone, dereffed, Option.map_some]
      · rw [kept _ List.mem_cons_self, new, ← own, copies]
      · rw [kept d (List.mem_cons_of_mem _ mem), old d (List.mem_cons_of_mem _ mem)]

theorem modify_ok {R : Type} {f : ObjectJson K V → Option (ObjectJson K V × R)} {o : ObjectJson K V} {r : R}
    (counted : Counted s.cells s.vars) (lt : i < s.vars.length) (copies : (s.own i).copy = s.own i) (ran : f (s.own i) = some (o, r)) :
    ∃ s', s.modify i f = some (s', r) ∧ Changed s s' i (some o) := by
  obtain ⟨cells, c, unique, counted₁, absent, value, others⟩ := uniqueify_spec counted lt copies
  obtain ⟨cells', put, counted₂, here, frame⟩ := counted₁.put List.mem_cons_self o
  have at_ : (s.vars.set i (some c))[i]? = some (some c) := List.getElem?_set_self lt
  have changed := changed_of_set lt (some c) counted₂ fun d mem => by
    have other : d ≠ c := by
      rintro rfl
      exact absent mem
    rw [frame d other, others d mem]
  rw [Option.bind_some, here] at changed
  refine ⟨⟨cells', s.vars.set i (some c)⟩, ?_, changed⟩
  rw [modify, unique, Option.bind_some, ojson_of_var at_, Option.bind_some, value, Option.bind_some, ran, Option.bind_some]
  dsimp only
  rw [update]
  dsimp only
  rw [at_, Option.join_some, Option.bind_some, put, Option.map_some, Option.map_some]

theorem modify_fails {R : Type} {f : ObjectJson K V → Option (ObjectJson K V × R)} (counted : Counted s.cells s.vars)
    (lt : i < s.vars.length) (copies : (s.own i).copy = s.own i) (failed : f (s.own i) = none) : s.modify i f = none := by
  obtain ⟨cells, c, unique, _, _, value, _⟩ := uniqueify_spec counted lt copies
  have at_ : (s.vars.set i (some c))[i]? = some (some c) := List.getElem?_set_self lt
  rw [modify, unique, Option.bind_some, ojson_of_var at_, Option.bind_some, value, Option.bind_some, failed, Option.bind_none]

theorem clear_spec (counted : Counted s.cells s.vars) (lt : i < s.vars.length) :
    ∃ s' o, s.clear i = some s' ∧ Changed s s' i o ∧ (o = none ∨ o = some (s.own i).clear) := by
  obtain ⟨x, at_⟩ : ∃ x, s.vars[i]? = some x := ⟨_, List.getElem?_eq_getElem lt⟩
  have pointers := counted.perm (pointers_perm at_)
  cases x with
  | none =>
    refine ⟨s, none, by rw [clear, at_, Option.bind_some], ⟨counted, rfl, ?_, fun _ _ => rfl⟩, .inl rfl⟩
    rw [ojson_of_var at_]
    rfl
  | some c =>
    obtain ⟨cell, cellAt⟩ := pointers.alive c List.mem_cons_self
    have value : s.cells.value c = some cell.value := by rw [Cells.value, cellAt, Option.map_some]
    by_cases alone : cell.refcount = 1
    · have count := pointers.counts c cell cellAt
      rw [alone, List.count_cons_self] at count
      have absent : some c ∉ s.vars.eraseIdx i := List.count_eq_zero.mp (by omega)
      obtain ⟨cells, put, counted', here, frame⟩ := counted.put (List.mem_of_getElem? at_) cell.value.clear
      refine ⟨⟨cells, s.vars⟩, some cell.value.clear, ?_, ⟨counted', rfl, ?_, fun j other => ?_⟩, .inr ?_⟩
      · rw [clear, at_, Option.bind_some]
        dsimp only
        rw [cellAt, Option.bind_some, if_pos alone, update, at_, Option.join_some, Option.bind_some, put, Option.map_some]
      · rw [ojson_of_var (s := ⟨cells, s.vars⟩) at_, Option.bind_some, here]
      · unfold ojson
        dsimp only
        cases atj : s.vars[j]? with
        | none => rfl
        | some y =>
          cases y with
          | none => rfl
          | some d =>
            have apart : d ≠ c := by
              rintro rfl
              exact absent (mem_rest other atj)
            exact frame d apart
      · rw [own_of_value at_ value]
    · obtain ⟨cells, dereffed, counted', kept⟩ := pointers.deref
      have changed := changed_of_set lt none (counted_null.mpr counted') kept
      refine ⟨⟨cells, s.vars.set i none⟩, none, ?_, changed, .inl rfl⟩
      rw [clear, at_, Option.bind_some]
      dsimp only
      rw [cellAt, Option.bind_some, if_neg alone, dereffed, Option.map_some]

theorem assign_spec (counted : Counted s.cells s.vars) (lti : i < s.vars.length) (ltj : j < s.vars.length) :
    ∃ s', s.assign i j = some s' ∧ Changed s s' i (s.ojson j) := by
  obtain ⟨old, at_⟩ : ∃ x, s.vars[i]? = some x := ⟨_, List.getElem?_eq_getElem lti⟩
  obtain ⟨x, atj⟩ : ∃ x, s.vars[j]? = some x := ⟨_, List.getElem?_eq_getElem ltj⟩
  have pointers := counted.perm (pointers_perm at_)
  -- with the new pointer counted before the old one goes
  obtain ⟨cells₁, reffed, counted₁, same₁⟩ : ∃ cells, (match x with
      | none => some s.cells
      | some c => s.cells.ref c) = some cells ∧ Counted cells (old :: x :: s.vars.eraseIdx
        i) ∧ ∀ d, cells.value d = s.cells.value d := by
    cases x with
    | none => exact ⟨s.cells, rfl, ((counted_null.mpr pointers).perm (List.Perm.swap ..)), fun _ => rfl⟩
    | some c =>
      obtain ⟨cells, reffed, counted', same⟩ := pointers.ref ((pointers_perm at_).mem_iff.mp (List.mem_of_getElem? atj))
      exact ⟨cells, reffed, counted'.perm (List.Perm.swap ..), same⟩
  obtain ⟨cells₂, dereffed, counted₂, same₂⟩ : ∃ cells, derefVar cells₁ old = some cells ∧ Counted cells (x :: s.vars.eraseIdx i) ∧
      ∀ d, some d ∈ x :: s.vars.eraseIdx i → cells.value d = cells₁.value d := by
    cases old with
    | none => exact ⟨cells₁, rfl, counted_null.mp counted₁, fun _ _ => rfl⟩
    | some c => exact counted₁.deref
  have changed := changed_of_set lti x counted₂ fun d mem => (same₂ d (List.mem_cons_of_mem _ mem)).trans (same₁ d)
  have value : x.bind cells₂.value = s.ojson j := by
    rw [ojson_of_var atj]
    cases x with
    | none => rfl
    | some c => exact (same₂ c List.mem_cons_self).trans (same₁ c)
  rw [value] at changed
  refine ⟨⟨cells₂, s.vars.set i x⟩, ?_, changed⟩
  rw [assign, at_, Option.bind_some, atj, Option.bind_some, reffed, Option.bind_some, dereffed, Option.map_some]

theorem copy_spec (counted : Counted s.cells s.vars) (lt : i < s.vars.length) :
    ∃ s', s.copy i = some s' ∧ Counted s'.cells s'.vars ∧ s'.vars.length = s.vars.length + 1 ∧ s'.ojson s.vars.length = s.ojson i ∧
      ∀ j < s.vars.length, s'.ojson j = s.ojson j := by
  obtain ⟨x, at_⟩ : ∃ x, s.vars[i]? = some x := ⟨_, List.getElem?_eq_getElem lt⟩
  obtain ⟨cells, copied, counted', same⟩ : ∃ cells, s.copy i = some ⟨cells, s.vars ++ [x]⟩ ∧ Counted cells (x :: s.vars) ∧
      ∀ d, cells.value d = s.cells.value d := by
    cases x with
    | none => exact ⟨s.cells, by rw [copy, at_, Option.bind_some], counted_null.mpr counted, fun _ => rfl⟩
    | some c =>
      obtain ⟨cells, reffed, counted', same⟩ := counted.ref (List.mem_of_getElem? at_)
      refine ⟨cells, ?_, counted', same⟩
      rw [copy, at_, Option.bind_some]
      dsimp only
      rw [reffed, Option.map_some]
  have values : cells.value = s.cells.value := funext same
  refine ⟨⟨cells, s.vars ++ [x]⟩, copied, counted'.perm (List.perm_append_singleton x s.vars).symm, ?_, ?_, fun j ltj => ?_⟩
  · rw [List.length_append, List.length_singleton]
  · have last : (s.vars ++ [x])[s.vars.length]? = some x := List.getElem?_concat_length ..
    rw [ojson_of_var (s := ⟨cells, s.vars ++ [x]⟩) last, ojson_of_var at_]
    dsimp only
    rw [values]
  · unfold ojson
    dsimp only
    rw [List.getElem?_append_left ltj, values]

end Objects

end Masstree
