import Mathlib.Data.List.Basic
import Mathlib.Data.List.Nodup
import Mathlib.Logic.Function.Basic

/-!
# Maps that keep the order of insertion

A key keeps its place while it has a value, and comes last when it gets one again. A list of entries represents a map when it has the
keys in that order, each with its value.
-/

@[ext]
structure InsertionMap (K V : Type) where
  order : List K
  value : K → Option V
  nodup : order.Nodup
  mem_order : ∀ k, k ∈ order ↔ (value k).isSome

namespace InsertionMap

variable {K V : Type}

def empty : InsertionMap K V := ⟨[], fun _ => none, List.nodup_nil, fun _ => by simp⟩

def entry (m : InsertionMap K V) (j : Nat) : Option (K × V) := m.order[j]?.bind fun k => (m.value k).map fun v => (k, v)

/-- The entries in order are those of the map. -/
structure Represents (m : InsertionMap K V) (es : List (K × V)) : Prop where
  keys : es.map Prod.fst = m.order
  values : ∀ e ∈ es, m.value e.1 = some e.2

variable {m : InsertionMap K V} {es X Y : List (K × V)} {k : K} {v : V}

theorem represents_empty : Represents (empty : InsertionMap K V) [] := ⟨rfl, fun _ mem => absurd mem List.not_mem_nil⟩

theorem Represents.mem_iff (rep : Represents m es) : k ∈ m.order ↔ k ∈ es.map Prod.fst := by rw [rep.keys]

theorem Represents.value_eq_none (rep : Represents m es) (absent : k ∉ es.map Prod.fst) : m.value k = none := by
  rw [← rep.mem_iff, m.mem_order, Bool.not_eq_true, Option.isSome_eq_false_iff, Option.isNone_iff_eq_none] at absent
  exact absent

theorem Represents.entry (rep : Represents m es) (j : Nat) : m.entry j = es[j]? := by
  rw [InsertionMap.entry, ← rep.keys, List.getElem?_map]
  cases at_ : es[j]? with
  | none => rfl
  | some e => rw [Option.map_some, Option.bind_some, rep.values e (List.mem_of_getElem? at_), Option.map_some]

/-- No other entry has the key of the one in the middle. -/
theorem Represents.other_keys (rep : Represents m (X ++ (k, v) :: Y)) : (∀ e ∈ X, e.1 ≠ k) ∧ ∀ e ∈ Y, e.1 ≠ k := by
  have nodup := m.nodup
  rw [← rep.keys, List.map_append, List.map_cons] at nodup
  obtain ⟨_, tail, apart⟩ := List.nodup_append.mp nodup
  constructor
  · intro e mem
    exact apart e.1 (List.mem_map_of_mem mem) k List.mem_cons_self
  · rintro e mem rfl
    exact (List.nodup_cons.mp tail).1 (List.mem_map.mpr ⟨e, mem, rfl⟩)

variable [DecidableEq K]

section
variable (m : InsertionMap K V)

def set (k : K) (v : V) : InsertionMap K V where
  order := if k ∈ m.order then m.order else m.order ++ [k]
  value := Function.update m.value k (some v)
  nodup := by
    split
    · exact m.nodup
    · rename_i absent
      exact m.nodup.append (List.nodup_singleton k) (List.disjoint_singleton.mpr absent)
  mem_order k' := by
    rw [Function.update_apply]
    by_cases same : k' = k
    · subst same
      split <;> simp [*]
    · have old := m.mem_order k'
      split <;> simp [*]

/-- A key that has a value keeps it. -/
def insert (k : K) (v : V) : InsertionMap K V := if k ∈ m.order then m else m.set k v

def erase (k : K) : InsertionMap K V where
  order := m.order.filter (· ≠ k)
  value := Function.update m.value k none
  nodup := m.nodup.filter _
  mem_order k' := by
    rw [Function.update_apply, List.mem_filter, m.mem_order]
    by_cases same : k' = k <;> simp [same]

def eraseAt (j : Nat) : InsertionMap K V :=
  match m.order[j]? with
  | none => m
  | some k => m.erase k

end

theorem set_insert (m : InsertionMap K V) (k : K) (v v' : V) : (m.insert k v).set k v' = m.set k v' := by
  unfold insert
  split
  · rfl
  · rename_i absent
    have present : k ∈ (m.set k v).order := ((m.set k v).mem_order k).mpr (by simp [set])
    have order : (m.set k v).order = (m.set k v').order := rfl
    refine InsertionMap.ext ?_ ?_
    · show (if k ∈ (m.set k v).order then (m.set k v).order else (m.set k v).order ++ [k]) = (m.set k v').order
      rw [if_pos present, order]
    · show Function.update (Function.update m.value k (some v)) k (some v') = Function.update m.value k (some v')
      rw [Function.update_idem]

theorem Represents.append (rep : Represents m es) (absent : k ∉ es.map Prod.fst) (v : V) : Represents (m.set k v) (es ++ [(k, v)]) := by
  constructor
  · show _ = if k ∈ m.order then m.order else m.order ++ [k]
    rw [if_neg (rep.mem_iff.not.mpr absent), List.map_append, rep.keys]
    rfl
  · intro e mem
    show Function.update m.value k (some v) e.1 = some e.2
    rcases List.mem_append.mp mem with old | new
    · have other : e.1 ≠ k := by
        rintro rfl
        exact absent (List.mem_map_of_mem old)
      rw [Function.update_of_ne other, rep.values e old]
    · obtain rfl := List.mem_singleton.mp new
      exact Function.update_self ..

theorem Represents.replace (rep : Represents m (X ++ (k, v) :: Y)) (v' : V) : Represents (m.set k v') (X ++ (k, v') :: Y) := by
  obtain ⟨left, right⟩ := rep.other_keys
  have present : k ∈ m.order := by
    rw [rep.mem_iff, List.map_append, List.map_cons]
    exact List.mem_append_right _ List.mem_cons_self
  constructor
  · show _ = if k ∈ m.order then m.order else m.order ++ [k]
    rw [if_pos present, ← rep.keys, List.map_append, List.map_append, List.map_cons, List.map_cons]
  · intro e mem
    show Function.update m.value k (some v') e.1 = some e.2
    rcases List.mem_append.mp mem with before | rest
    · rw [Function.update_of_ne (left e before), rep.values e (List.mem_append_left _ before)]
    · rcases List.mem_cons.mp rest with rfl | after
      · exact Function.update_self ..
      · rw [Function.update_of_ne (right e after), rep.values e (List.mem_append_right _ (List.mem_cons_of_mem _ after))]

theorem Represents.erase (rep : Represents m (X ++ (k, v) :: Y)) : Represents (m.erase k) (X ++ Y) := by
  obtain ⟨left, right⟩ := rep.other_keys
  have kept : ∀ {Z : List (K × V)}, (∀ e ∈ Z, e.1 ≠ k) → (Z.map Prod.fst).filter (· ≠ k) = Z.map Prod.fst := by
    intro Z other
    refine List.filter_eq_self.mpr fun k' mem => ?_
    obtain ⟨e, inside, rfl⟩ := List.mem_map.mp mem
    exact decide_eq_true (other e inside)
  constructor
  · show _ = m.order.filter (· ≠ k)
    rw [← rep.keys, List.map_append, List.map_append, List.map_cons, List.filter_append, kept left,
      List.filter_cons_of_neg (by simp), kept right]
  · intro e mem
    show Function.update m.value k none e.1 = some e.2
    rcases List.mem_append.mp mem with before | after
    · rw [Function.update_of_ne (left e before), rep.values e (List.mem_append_left _ before)]
    · rw [Function.update_of_ne (right e after), rep.values e (List.mem_append_right _ (List.mem_cons_of_mem _ after))]

theorem Represents.erase_absent (rep : Represents m es) (absent : k ∉ es.map Prod.fst) : Represents (m.erase k) es := by
  have other : ∀ e ∈ es, e.1 ≠ k := by
    rintro e mem rfl
    exact absent (List.mem_map_of_mem mem)
  constructor
  · show _ = m.order.filter (· ≠ k)
    rw [← rep.keys]
    refine (List.filter_eq_self.mpr fun k' mem => ?_).symm
    exact decide_eq_true fun same => absent (same ▸ mem)
  · intro e mem
    show Function.update m.value k none e.1 = some e.2
    rw [Function.update_of_ne (other e mem), rep.values e mem]

theorem Represents.eraseAt (rep : Represents m (X ++ (k, v) :: Y)) : Represents (m.eraseAt X.length) (X ++ Y) := by
  have at_ : m.order[X.length]? = some k := by
    rw [← rep.keys, List.getElem?_map, List.getElem?_append_right (Nat.le_refl _), Nat.sub_self]
    rfl
  rw [InsertionMap.eraseAt, at_]
  exact rep.erase

end InsertionMap
