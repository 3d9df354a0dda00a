import Mathlib.Data.List.Sort
import Mathlib.Logic.Function.Basic

/-!
# Maps with their entries in key order

Lookup, insertion and removal, and the entries from a key on in either direction.
-/

structure OrderedMap (K V : Type) [LT K] where
  entries : List (K × V)
  sorted : entries.Pairwise fun p q => p.1 < q.1

/-- The first elements that meet a condition are all that do, where it holds of what is before them. -/
theorem List.Pairwise.takeWhile_eq_filter {α : Type} {keep : α → Bool} {l : List α}
    (before : l.Pairwise fun a b => keep b = true → keep a = true) : l.takeWhile keep = l.filter keep := by
  induction l with
  | nil => rfl
  | cons a l ih =>
    obtain ⟨first, later⟩ := List.pairwise_cons.mp before
    rw [List.takeWhile_cons, List.filter_cons, ih later]
    cases kept : keep a with
    | true => rfl
    | false =>
      refine (List.filter_eq_nil_iff.mpr fun b mem yes => ?_).symm
      rw [first b mem yes] at kept
      cases kept

namespace OrderedMap

variable {K V : Type}

def empty [LT K] : OrderedMap K V := ⟨[], .nil⟩

/-! ### Entries -/

section lists
variable [DecidableEq K]

def find? (key : K) (entries : List (K × V)) : Option V := (entries.find? (·.1 = key)).map (·.2)

theorem find?_cons (p : K × V) (rest : List (K × V)) (key : K) :
    find? key (p :: rest) = if p.1 = key then some p.2 else find? key rest := by
  unfold find?
  by_cases same : p.1 = key <;> simp [same]

theorem find?_eq_none {entries : List (K × V)} {key : K} : find? key entries = none ↔ ∀ p ∈ entries, p.1 ≠ key := by
  simp [find?]

theorem mem_of_find? {entries : List (K × V)} {key : K} {v : V} (found : find? key entries = some v) :
    (key, v) ∈ entries := by
  obtain ⟨p, found, same⟩ := Option.map_eq_some_iff.mp found
  have named : p.1 = key := by simpa using List.find?_some found
  rw [← named, ← same]
  exact List.mem_of_find?_eq_some found

section insertion
variable [LT K] [DecidableLT K]

def insertEntry (key : K) (v : V) : List (K × V) → List (K × V)
  | [] => [(key, v)]
  | p :: rest =>
    if key < p.1 then (key, v) :: p :: rest
    else if p.1 = key then (key, v) :: rest
    else p :: insertEntry key v rest

theorem mem_insertEntry {key : K} {v : V} {entries : List (K × V)} {q : K × V}
    (member : q ∈ insertEntry key v entries) : q = (key, v) ∨ q ∈ entries := by
  induction entries with
  | nil => exact .inl (by simpa [insertEntry] using member)
  | cons p rest ih =>
    unfold insertEntry at member
    split at member
    · exact List.mem_cons.mp member
    · split at member
      · exact (List.mem_cons.mp member).imp id (List.mem_cons_of_mem _)
      · rcases List.mem_cons.mp member with same | later
        · exact .inr (same ▸ List.mem_cons_self)
        · exact (ih later).imp id (List.mem_cons_of_mem _)

theorem find?_insertEntry (key : K) (v : V) (entries : List (K × V)) (key' : K) :
    find? key' (insertEntry key v entries) = if key' = key then some v else find? key' entries := by
  induction entries with
  | nil =>
    rw [insertEntry, find?_cons]
    exact if_congr eq_comm rfl rfl
  | cons p rest ih =>
    unfold insertEntry
    split
    · rw [find?_cons]
      exact if_congr eq_comm rfl rfl
    · split
      · rename_i same
        rw [find?_cons, find?_cons, same]
        by_cases here : key = key'
        · rw [if_pos here, if_pos here.symm]
        · rw [if_neg here, if_neg (Ne.symm here), if_neg here]
      · rename_i other
        rw [find?_cons, find?_cons, ih]
        by_cases here : p.1 = key'
        · rw [if_pos here, if_neg (here ▸ other), if_pos here]
        · rw [if_neg here, if_neg here]

end insertion

variable [LT K] [LE K] [Std.LawfulOrderLT K]

/-- In a sorted list the first entry with a key is the only one. -/
theorem find?_of_mem {entries : List (K × V)} (sorted : entries.Pairwise fun p q => p.1 < q.1) {key : K} {v : V}
    (member : (key, v) ∈ entries) : find? key entries = some v := by
  induction entries with
  | nil => cases member
  | cons p rest ih =>
    obtain ⟨first, later⟩ := List.pairwise_cons.mp sorted
    rw [find?_cons]
    rcases List.mem_cons.mp member with same | member
    · rw [← same, if_pos rfl]
    · rw [if_neg (Std.ne_of_lt (first _ member)), ih later member]

theorem sorted_insertEntry [Std.IsLinearOrder K] [DecidableLT K] {key : K} {v : V} {entries : List (K × V)}
    (sorted : entries.Pairwise fun p q => p.1 < q.1) :
    (insertEntry key v entries).Pairwise fun p q => p.1 < q.1 := by
  induction entries with
  | nil => simp [insertEntry]
  | cons p rest ih =>
    obtain ⟨first, later⟩ := List.pairwise_cons.mp sorted
    unfold insertEntry
    split
    · rename_i before
      refine List.pairwise_cons.mpr ⟨fun q member => ?_, sorted⟩
      rcases List.mem_cons.mp member with rfl | member
      · exact before
      · exact Std.lt_trans before (first q member)
    · rename_i notBefore
      split
      · rename_i same
        exact List.pairwise_cons.mpr ⟨fun q member => same ▸ first q member, later⟩
      · rename_i other
        refine List.pairwise_cons.mpr ⟨fun q member => ?_, ih later⟩
        rcases mem_insertEntry member with rfl | member
        · exact Std.lt_of_le_of_ne (Std.not_lt.mp notBefore) other
        · exact first q member

end lists

/-! ### Maps -/

section operations
variable [LT K] [DecidableEq K] (m : OrderedMap K V)

def find (key : K) : Option V := find? key m.entries

def insert [LE K] [Std.IsLinearOrder K] [Std.LawfulOrderLT K] [DecidableLT K] (key : K) (v : V) : OrderedMap K V :=
  ⟨insertEntry key v m.entries, sorted_insertEntry m.sorted⟩

def erase (key : K) : OrderedMap K V := ⟨m.entries.filter (·.1 ≠ key), m.sorted.filter _⟩

/-- The entries from `key` on, in ascending order. -/
def upFrom [LE K] [DecidableLE K] (key : K) : List (K × V) := m.entries.filter (key ≤ ·.1)

/-- The entries from `key` on, in descending order. -/
def downFrom [LE K] [DecidableLE K] (key : K) : List (K × V) := (m.entries.filter (·.1 ≤ key)).reverse

variable {m}

@[simp] theorem find_empty (key : K) : (empty : OrderedMap K V).find key = none := rfl

variable [LE K] [Std.LawfulOrderLT K]

theorem find_eq_some {key : K} {v : V} : m.find key = some v ↔ (key, v) ∈ m.entries :=
  ⟨mem_of_find?, find?_of_mem m.sorted⟩

/-- A map is what it finds. -/
theorem ext_find {m' : OrderedMap K V} (same : m.find = m'.find) : m = m' := by
  have members : ∀ p : K × V, p ∈ m.entries ↔ p ∈ m'.entries := fun p => by rw [← find_eq_some, ← find_eq_some, same]
  have irreflexive : Std.Irrefl fun p q : K × V => p.1 < q.1 := ⟨fun _ => Std.lt_irrefl⟩
  obtain ⟨entries, sorted⟩ := m
  obtain ⟨entries', sorted'⟩ := m'
  obtain rfl : entries = entries' := sorted.eq_of_mem_iff sorted' fun {p} => members p
  rfl

theorem find_insert [Std.IsLinearOrder K] [DecidableLT K] (key : K) (v : V) :
    (m.insert key v).find = Function.update m.find key (some v) := by
  funext key'
  rw [find, insert, find?_insertEntry, Function.update_apply]
  rfl

theorem find_erase (key : K) : (m.erase key).find = Function.update m.find key none := by
  funext key'
  rw [Function.update_apply]
  split
  · rename_i same
    rw [find, erase, find?_eq_none]
    intro p member
    rw [same]
    simpa using (List.mem_filter.mp member).2
  · rename_i other
    cases found : m.find key' with
    | none =>
      rw [find, find?_eq_none] at found
      rw [find, erase, find?_eq_none]
      exact fun p member => found p ((List.mem_filter.mp member).1)
    | some v =>
      rw [find_eq_some] at found ⊢
      exact List.mem_filter.mpr ⟨found, by simpa using other⟩

theorem mem_upFrom [DecidableLE K] {key key' : K} {v : V} :
    (key', v) ∈ m.upFrom key ↔ m.find key' = some v ∧ key ≤ key' := by
  rw [upFrom, List.mem_filter, find_eq_some]
  simp

theorem mem_downFrom [DecidableLE K] {key key' : K} {v : V} :
    (key', v) ∈ m.downFrom key ↔ m.find key' = some v ∧ key' ≤ key := by
  rw [downFrom, List.mem_reverse, List.mem_filter, find_eq_some]
  simp

end operations

end OrderedMap
