import Masstree.Log.Replay
import Masstree.Row.Arrays

/-!
# Who deallocates the column strings

The updates of one key with a row type that points to column strings: those of `query`, and those of the replay of a log.
-/

namespace Masstree
open Msgpack (Bytes)

/-- A type of rows that point to column strings. -/
class RowType (R : Type) where
  timestamp : R → Nat
  /-- `cols_`, up to `ncol_` -/
  columns : R → List Column
  create : Changes → Nat → Strings → Option (R × Strings)
  create1 : Bytes → Nat → Strings → R × Strings
  /-- The row, and whether it is the old one. -/
  update : R → Changes → Nat → Strings → Option (R × Bool × Strings)
  /-- `deallocate` and `deallocate_rcu` -/
  deallocate : R → Strings → Strings
  /-- `deallocate_rcu_after_update` -/
  deallocateAfterUpdate : R → Changes → Strings → Strings

instance : RowType ValueArray where
  timestamp := ValueArray.timestamp
  columns := ValueArray.cols
  create := ValueArray.create
  create1 := ValueArray.create1
  update r changes ts m := (r.update changes ts m).map fun u => (u.1, false, u.2)
  deallocate := ValueArray.deallocate
  deallocateAfterUpdate := ValueArray.deallocateAfterUpdate

instance : RowType VersionedArray where
  timestamp := VersionedArray.timestamp
  columns r := r.cols.take r.ncol
  create := VersionedArray.create
  create1 := VersionedArray.create1
  update r changes ts m := r.update changes ts m
  deallocate := VersionedArray.deallocate
  deallocateAfterUpdate := VersionedArray.deallocateAfterUpdate

/-- What a value pointer leads to: nothing, a row, or a row that is a delta marker. -/
inductive Chain (R : Type) where
  | null
  | row (r : R)
  | delta (r : R) (prevTs : Nat) (prev : Chain R)
  deriving DecidableEq

namespace Chain

section replay
variable {R : Type} [RowType R]

open RowType

def newest : Chain R → Option R
  | null => none
  | row r | delta r _ _ => some r

/-- The delta markers newer than `ts`, newest first, and the point to insert the change. -/
def walk (ts : Nat) : Chain R → List (R × Nat) × Chain R
  | delta r prevTs prev =>
    if ts < timestamp r then
      let (newer, cur) := walk ts prev
      ((r, prevTs) :: newer, cur)
    else ([], delta r prevTs prev)
  | c => ([], c)

def plug (newer : List (R × Nat)) (cur : Chain R) : Chain R := newer.foldr (fun m c => delta m.1 m.2 c) cur

def outOfDate (ts : Nat) (cur : Chain R) : Bool := cur.newest.elim false fun r => ts ≤ timestamp r

/-- "if not modifying, delete everything earlier" -/
def deallocateAll : Chain R → Strings → Strings
  | null, m => m
  | row r, m => deallocate r m
  | delta r _ prev, m => deallocateAll prev (deallocate r m)

/-- The bytes at the start of a first column that a marker's fields are laid over. -/
def request (r : R) (m : Strings) : Option Bytes :=
  let req := m.read ((columns r).getD 0 none)
  if sizeofDeltaMarker ≤ req.length then some (req.drop sizeofDeltaMarker) else none

/-- `update`, and `deallocate` of the old row. -/
def updateRow (old : R) (changes : Changes) (ts : Nat) (m : Strings) : Option (R × Bool × Strings) := do
  let (r, here, m) ← update old changes ts m
  return (r, here, if here then m else deallocate old m)

/-- "actually apply change", at its insertion point -/
def change (lr : LogRecord) (cur : Chain R) (m : Strings) : Option (Chain R × Strings) :=
  if lr.command = .modify then
    match cur with
    | row old =>
      if timestamp old = lr.prevTs then do
        let changes ← parseChangeset lr.val
        let (r, _, m) ← updateRow old changes lr.ts m
        return (row r, m)
      else storeDelta cur
    | delta old prevTs prev =>
      if timestamp old = lr.prevTs then do
        let changes ← parseChangeset lr.val
        let (r, here, m) ← updateRow old changes lr.ts m
        -- a marker updated in place is one as long as its fields are there
        if here then if changes.any (·.1 = 0) then none else some (delta r prevTs prev, m)
        else some (row r, m)
      else storeDelta cur
    | null => storeDelta cur
  else
    let m := deallocateAll cur m
    if lr.command = .replace then
      let (r, m) := create1 lr.val lr.ts m
      some (row r, m)
    else do
      let changes ← parseChangeset lr.val
      let (r, m) ← create changes lr.ts m
      return (row r, m)
where
  storeDelta (cur : Chain R) : Option (Chain R × Strings) :=
    let (r, m) := create1 (markerHeader ++ lr.val) (lr.ts ||| 1) m
    some (delta r lr.prevTs cur, m)

/-- The oldest delta marker is applied to the row under it, if it modifies that row. The inner `none` leaves the chain
as it is. -/
def collapse : Chain R → Strings → Option (Option (Chain R × Strings))
  | delta marker prevTs (row base), m =>
    if prevTs = timestamp base then do
      let changes ← parseChangeset (← request marker m)
      let (r, _, m) ← updateRow base changes (timestamp marker - 1) m
      return some (row r, deallocate marker m)
    else some none
  | delta marker prevTs prev, m => do return (← collapse prev m).map fun c => (delta marker prevTs c.1, c.2)
  | _, _ => some none

def cleanUp : Nat → Chain R → Strings → Option (Chain R × Strings)
  | 0, c, m => some (c, m)
  | fuel + 1, c, m => do
    match ← collapse c m with
    | some (c, m) => cleanUp fuel c m
    | none => some (c, m)

def markers : Chain R → Nat
  | delta _ _ prev => prev.markers + 1
  | _ => 0

def apply (lr : LogRecord) (value : Chain R) (m : Strings) : Option (Chain R × Strings) :=
  if outOfDate lr.ts (walk lr.ts value).2 then some (value, m)
  else do
    let (cur, m) ← change lr (walk lr.ts value).2 m
    let c := plug (walk lr.ts value).1 cur
    cleanUp c.markers c m

/-! ### Live updates -/

/-- `query::apply_put`, with the timestamp it assigns. -/
def applyPut (changes : Changes) (ts : Nat) : Chain R → Strings → Option (Chain R × Strings)
  | null, m => (create changes ts m).map fun r => (row r.1, r.2)
  | row old, m =>
    if timestamp old % 2 = 1 then (create changes ts (deallocate old m)).map fun r => (row r.1, r.2)
    else do
      let (r, here, m) ← update old changes ts m
      return (row r, if here then m else deallocateAfterUpdate old changes m)
  | delta old _ _, m => (create changes ts (deallocate old m)).map fun r => (row r.1, r.2)

def deallocateValue (value : Chain R) (m : Strings) : Strings := value.newest.elim m fun r => deallocate r m

def applyReplace (v : Bytes) (ts : Nat) (value : Chain R) (m : Strings) : Chain R × Strings :=
  let (r, m) := create1 v ts (deallocateValue value m)
  (row r, m)

/-- `query::apply_remove`, and the removal from the table. -/
def applyRemove (value : Chain R) (m : Strings) : Chain R × Strings := (null, deallocateValue value m)

end replay

end Chain

inductive Update where
  | put (changes : Changes) (ts : Nat)
  | replace (v : Bytes) (ts : Nat)
  | remove
  | replay (lr : LogRecord)

structure KeyState (R : Type) where
  value : Chain R := .null
  strings : Strings := {}
  deriving DecidableEq

namespace KeyState

variable {R : Type} [RowType R]

def step (s : KeyState R) : Update → Option (KeyState R)
  | .put changes ts => (s.value.applyPut changes ts s.strings).map fun r => ⟨r.1, r.2⟩
  | .replace v ts =>
    let (value, strings) := s.value.applyReplace v ts s.strings
    some ⟨value, strings⟩
  | .remove =>
    let (value, strings) := s.value.applyRemove s.strings
    some ⟨value, strings⟩
  | .replay lr => (s.value.apply lr s.strings).map fun r => ⟨r.1, r.2⟩

def run : KeyState R → List Update → Option (KeyState R)
  | s, [] => some s
  | s, u :: us => (s.step u).bind fun s => s.run us

end KeyState

/-! ### When a step does its part -/

/-- The columns are strictly increasing, as `update` requires. -/
def Sorted (changes : Changes) : Prop := changes.Pairwise fun p q => p.1 < q.1

/-- Some columns, in order, none of which makes a row of `2 ^ 15` columns. -/
structure Storable (changes : Changes) : Prop where
  some_ : changes ≠ []
  sorted : Sorted changes
  narrow : ∀ p ∈ changes, p.1 + 1 < shortLimit

/-- What is to be known of a row type. -/
class RowLaws (R : Type) [RowType R] where
  valid : R → Prop
  /-- No string of the row is in the row that an update of these columns makes of it, or deallocated by that update. -/
  unshared : R → Changes → Prop
  create_some {changes : Changes} {ts : Nat} {m : Strings} : Storable changes → ∃ r : R × Strings, RowType.create changes ts m = some r
  update_some {old : R} {changes : Changes} {ts : Nat} {m : Strings} : valid old → Storable changes → RowType.timestamp old ≤ ts →
    ∃ u, RowType.update old changes ts m = some u
  create_balance {changes : Changes} {ts : Nat} {m m' : Strings} {r : R} : Sorted changes →
    RowType.create changes ts m = some (r, m') → valid r ∧ ∀ p,
      pointers (RowType.columns r) p + m'.freed.count p + m.allocated p = m.freed.count p + m'.allocated p
  create1_balance {v : Bytes} {ts : Nat} {m m' : Strings} {r : R} : RowType.create1 v ts m = (r, m') → valid r ∧ ∀ p,
    pointers (RowType.columns r) p + m'.freed.count p + m.allocated p = m.freed.count p + m'.allocated p
  deallocate_balance {r : R} {m : Strings} : (RowType.deallocate r m).held = m.held ∧ ∀ p,
    (RowType.deallocate r m).freed.count p = m.freed.count p + pointers (RowType.columns r) p
  put_balance {old r : R} {changes : Changes} {ts : Nat} {m m' : Strings} {here : Bool} : valid old → Sorted changes →
    RowType.update old changes ts m = some (r, here, m') → valid r ∧
      (if here then m' else RowType.deallocateAfterUpdate old changes m').held = m'.held ∧ ∀ p,
        pointers (RowType.columns r) p +
            (if here then m' else RowType.deallocateAfterUpdate old changes m').freed.count p + m.allocated p =
          pointers (RowType.columns old) p + m.freed.count p + m'.allocated p
  replay_balance {old r : R} {changes : Changes} {ts : Nat} {m m' : Strings} {here : Bool} : valid old → Sorted changes →
    unshared old changes → Chain.updateRow old changes ts m = some (r, here, m') → valid r ∧ ∀ p,
      pointers (RowType.columns r) p + m'.freed.count p + m.allocated p =
        pointers (RowType.columns old) p + m.freed.count p + m'.allocated p

namespace Chain

variable {R : Type} [RowType R] [RowLaws R]

open RowType

/-- A modify that is applied names columns that the row can take, and deallocates a plain row that shares no string. -/
def ChangeMeets (lr : LogRecord) (cur : Chain R) : Prop :=
  if lr.command = .modify then
    match cur with
    | row old => timestamp old = lr.prevTs → ∃ changes, parseChangeset lr.val = some changes ∧ Storable changes ∧
        RowLaws.unshared old changes
    | delta old _ _ => timestamp old ≠ lr.prevTs
    | null => True
  else lr.command ≠ .replace → ∃ changes, parseChangeset lr.val = some changes ∧ Storable changes

def CollapseMeets : Chain R → Strings → Prop
  | delta marker prevTs (row base), m => prevTs = timestamp base → timestamp base ≤ timestamp marker - 1 ∧ ∃ changes,
      (request marker m).bind parseChangeset = some changes ∧ Storable changes ∧ RowLaws.unshared base changes
  | delta _ _ prev, m => CollapseMeets prev m
  | _, _ => True

def CleanUpMeets : Nat → Chain R → Strings → Prop
  | 0, _, _ => True
  | fuel + 1, c, m => CollapseMeets c m ∧ ∀ next, collapse c m = some (some next) → CleanUpMeets fuel next.1 next.2

def ApplyMeets (lr : LogRecord) (value : Chain R) (m : Strings) : Prop :=
  outOfDate lr.ts (walk lr.ts value).2 = false → ChangeMeets lr (walk lr.ts value).2 ∧
    ∀ next, change lr (walk lr.ts value).2 m = some next →
      CleanUpMeets (plug (walk lr.ts value).1 next.1).markers (plug (walk lr.ts value).1 next.1) next.2

/-- A live update does not find a delta marker, under which there may be another row. -/
def Plain (value : Chain R) : Prop := ∀ r prevTs prev, value ≠ delta r prevTs prev

def strings : Chain R → Nat → Nat
  | null, _ => 0
  | row r, p => pointers (columns r) p
  | delta r _ prev, p => pointers (columns r) p + prev.strings p

def Valid : Chain R → Prop
  | null => True
  | row r => RowLaws.valid r
  | delta r _ prev => RowLaws.valid r ∧ prev.Valid

end Chain

namespace KeyState

variable {R : Type} [RowType R] [RowLaws R]

def Meets (s : KeyState R) : Update → Prop
  | .put changes ts => Storable changes ∧ s.value.Plain ∧ ∀ r ∈ s.value.newest, RowType.timestamp r ≤ ts
  | .replace _ _ | .remove => s.value.Plain
  | .replay lr => s.value.ApplyMeets lr s.strings

def Each (condition : KeyState R → Update → Prop) : KeyState R → List Update → Prop
  | _, [] => True
  | s, u :: us => condition s u ∧ ∀ next, s.step u = some next → next.Each condition us

/-- The rows point to strings that are not deallocated, and every other string has been, once. -/
structure Owned (s : KeyState R) : Prop where
  live : ∀ p, 0 < s.value.strings p → p < s.strings.held.length ∧ p ∉ s.strings.freed
  dead : ∀ p, p < s.strings.held.length → s.value.strings p = 0 → s.strings.freed.count p = 1

end KeyState

/-! ### The row types -/

theorem Storable.le_last (storable : Storable changes) : ∃ p, changes.getLast? = some p ∧ p.1 + 1 < shortLimit ∧
    ∀ q ∈ changes, q.1 < p.1 + 1 := by
  have last := List.getLast?_eq_some_getLast storable.some_
  generalize changes.getLast storable.some_ = p at last
  refine ⟨p, last, storable.narrow p (List.mem_of_getLast? last), fun q mem => ?_⟩
  have bound := ValueBag.lt_width mem 0
  rwa [width_last storable.sorted last, Nat.zero_max] at bound

theorem ValueArray.update_some {r : ValueArray} {ts : Nat} (narrow : r.ncol < shortLimit) (storable : Storable changes)
    (later : r.ts ≤ ts) (m : Strings) : ∃ u, r.update changes ts m = some u := by
  obtain ⟨p, last, short, below⟩ := storable.le_last
  obtain ⟨cols', m', set⟩ := @setColumns_some (r.cols ++ List.replicate (max r.ncol (p.1 + 1) - r.ncol) none) changes m fun q mem => by
    have lt := below q mem
    rw [List.length_append, List.length_replicate]
    unfold ncol
    omega
  refine ⟨⟨{ ts, cols := cols' }, m'⟩, ?_⟩
  simp only [update, last, Option.bind_eq_bind, Option.bind_some]
  rw [if_pos ⟨later, Nat.max_lt.mpr ⟨narrow, short⟩⟩, set]
  rfl

theorem VersionedArray.update_some {r : VersionedArray} (whole : r.Whole) (storable : Storable changes) {copy : Bool}
    (new : copy = true → r.ncol = 0) (ts : Nat) (m : Strings) : ∃ u, r.update changes ts m copy = some u := by
  obtain ⟨p, last, short, below⟩ := storable.le_last
  have size : r.cols.length = r.ncol := whole.symm
  have extended : (r.cols ++ List.replicate (p.1 + 1 - r.ncol) none).length = max r.ncol (p.1 + 1) := by
    rw [List.length_append, List.length_replicate]
    omega
  simp only [update, last, Option.bind_eq_bind, Option.bind_some, whole.extended]
  rw [if_pos short]
  by_cases grows : r.cap < p.1 + 1 ∨ copy = true
  · have fits : r.ncol ≤ p.1 + 1 := by
      rcases grows with more | copied
      · rw [← whole] at more
        exact Nat.le_of_lt more
      · rw [new copied]
        exact Nat.zero_le _
    obtain ⟨cols', m', set⟩ := @setColumns_some ((r.cols ++ List.replicate (p.1 + 1 - r.ncol) none).take (p.1 + 1)) changes
      m fun q mem => by
      have lt := below q mem
      rw [List.length_take, extended]
      omega
    rw [if_pos grows, if_pos fits, set]
    exact ⟨_, rfl⟩
  · obtain ⟨cols', m', set⟩ := @setColumns_some (r.cols ++ List.replicate (p.1 + 1 - r.ncol) none) changes m fun q mem => by
      have lt := below q mem
      omega
    rw [if_neg grows, set]
    exact ⟨_, rfl⟩

/-- Where every string is in a column that the changes name, the changes replace them all. -/
theorem replaced_all {cols : List Column} {changes : Changes} (sorted : Sorted changes)
    (named : ∀ i, i < cols.length → cols.getD i none ≠ none → ∃ q ∈ changes, q.1 = i) (p : Nat) :
    pointers cols p = replaced cols changes p := by
  induction changes generalizing cols with
  | nil =>
    change cols.count (some p) = 0
    rw [List.count_eq_zero]
    intro mem
    obtain ⟨i, inside, here⟩ := List.getElem_of_mem mem
    obtain ⟨q, none_, -⟩ := named i inside (by rw [List.getD_eq_getElem _ _ inside, here]; exact Option.some_ne_none p)
    cases none_
  | cons q rest ih =>
    obtain ⟨idx, v⟩ := q
    obtain ⟨below, sorted⟩ := List.pairwise_cons.mp sorted
    rw [replaced_cons]
    by_cases inside : idx < cols.length
    · have later := @ih (cols.set idx none) sorted (by
        intro i bound some_
        rw [List.length_set] at bound
        by_cases same : idx = i
        · subst same
          rw [List.getD_eq_getElem _ _ (by rw [List.length_set]; exact bound), List.getElem_set_self] at some_
          exact absurd rfl some_
        · rw [List.getD_eq_getElem?_getD, List.getElem?_set_ne same, ← List.getD_eq_getElem?_getD] at some_
          obtain ⟨q, mem, here⟩ := named i bound some_
          rcases List.mem_cons.mp mem with rfl | later
          · exact absurd here same
          · exact ⟨q, later, here⟩)
      have set := pointers_set inside none p
      have zero : pointers [(none : Column)] p = 0 := rfl
      rw [replaced_set below] at later
      omega
    · have later := ih sorted (by
        intro i bound some_
        obtain ⟨q, mem, here⟩ := named i bound some_
        rcases List.mem_cons.mp mem with rfl | later
        · exact absurd bound (here ▸ inside)
        · exact ⟨q, later, here⟩)
      have zero : pointers [cols.getD idx none] p = 0 := by
        rw [List.getD_eq_default _ _ (Nat.le_of_not_lt inside)]
        rfl
      omega

theorem replaced_nil (changes : Changes) (p : Nat) : replaced [] changes p = 0 := by
  induction changes with
  | nil => rfl
  | cons q rest ih =>
    obtain ⟨idx, v⟩ := q
    rw [replaced_cons, ih]
    rfl

theorem updateRow_eq_some {R : Type} [RowType R] {old r : R} {changes : Changes} {ts : Nat} {m m' : Strings} {here : Bool}
    (updated : Chain.updateRow old changes ts m = some (r, here, m')) : ∃ m₁,
      RowType.update old changes ts m = some (r, here, m₁) ∧ m' = if here then m₁ else RowType.deallocate old m₁ := by
  obtain ⟨⟨r', here', m₁⟩, made, same⟩ := Option.bind_eq_some_iff.mp updated
  cases same
  exact ⟨m₁, made, rfl⟩

theorem makeColumn_row {m : Strings} {v : Bytes} (p : Nat) : pointers [(m.makeColumn v).1] p +
    (m.makeColumn v).2.freed.count p + m.allocated p = m.freed.count p + (m.makeColumn v).2.allocated p := by
  obtain ⟨allocated, freed⟩ := makeColumn_balance m v p
  rw [allocated, freed]
  omega

theorem ValueArray.create_balance {changes : Changes} {ts : Nat} {m m' : Strings} {r : ValueArray} (sorted : Sorted changes)
    (made : RowType.create changes ts m = some (r, m')) : r.ncol < shortLimit ∧ ∀ p,
      pointers (RowType.columns r) p + m'.freed.count p + m.allocated p = m.freed.count p + m'.allocated p := by
  obtain ⟨narrow, freed, balance⟩ := ValueArray.update_balance sorted made
  refine ⟨narrow, ?_⟩
  intro p
  have kept := balance p
  have none_ : pointers ({} : ValueArray).cols p = 0 := rfl
  have nothing : replaced ({} : ValueArray).cols changes p = 0 := replaced_nil changes p
  rw [freed]
  change pointers (ValueArray.cols _) p + _ + _ = _
  omega

theorem ValueArray.create1_balance {v : Bytes} {ts : Nat} {m m' : Strings} {r : ValueArray} (made : RowType.create1 v ts m = (r, m')) :
    r.ncol < shortLimit ∧ ∀ p,
      pointers (RowType.columns r) p + m'.freed.count p + m.allocated p = m.freed.count p + m'.allocated p := by
  cases made
  exact ⟨show 1 < shortLimit by decide, makeColumn_row⟩

theorem ValueArray.deallocate_balance (r : ValueArray) (m : Strings) : (RowType.deallocate r m).held = m.held ∧ ∀ p,
    (RowType.deallocate r m).freed.count p = m.freed.count p + pointers (RowType.columns r) p := by
  have balance := fun p => foldl_deallocateColumn r.cols m p
  exact ⟨(balance 0).2, fun p => (balance p).1⟩

theorem ValueArray.put_balance {old r : ValueArray} {changes : Changes} {ts : Nat} {m m' : Strings} {here : Bool}
    (sorted : Sorted changes) (made : RowType.update old changes ts m = some (r, here, m')) : r.ncol < shortLimit ∧
      (if here then m' else RowType.deallocateAfterUpdate old changes m').held = m'.held ∧ ∀ p,
        pointers (RowType.columns r) p +
            (if here then m' else RowType.deallocateAfterUpdate old changes m').freed.count p + m.allocated p =
          pointers (RowType.columns old) p + m.freed.count p + m'.allocated p := by
  obtain ⟨⟨r', m₁⟩, updated, same⟩ := Option.map_eq_some_iff.mp made
  cases same
  obtain ⟨narrow, freed, balance⟩ := ValueArray.update_balance sorted updated
  have after := fun p => deallocateAfterUpdate_balance old sorted m₁ p
  refine ⟨narrow, (after 0).2, ?_⟩
  intro p
  have kept := balance p
  have more := (after p).1
  rw [freed] at more
  change pointers r'.cols p + (old.deallocateAfterUpdate changes m₁).freed.count p + _ =
    pointers old.cols p + _ + m₁.allocated p
  omega

theorem ValueArray.replay_balance {old r : ValueArray} {changes : Changes} {ts : Nat} {m m' : Strings} {here : Bool}
    (sorted : Sorted changes)
    (unshared : ∀ i, i < old.ncol → old.cols.getD i none ≠ none → ∃ q ∈ changes, q.1 = i)
    (updated : Chain.updateRow old changes ts m = some (r, here, m')) : r.ncol < shortLimit ∧ ∀ p,
      pointers (RowType.columns r) p + m'.freed.count p + m.allocated p =
        pointers (RowType.columns old) p + m.freed.count p + m'.allocated p := by
  obtain ⟨m₁, made, same⟩ := updateRow_eq_some updated
  obtain ⟨⟨r', m₂⟩, set, here⟩ := Option.map_eq_some_iff.mp made
  cases here
  obtain ⟨narrow, freed, balance⟩ := ValueArray.update_balance sorted set
  have all := replaced_all sorted unshared
  refine ⟨narrow, ?_⟩
  intro p
  have kept := balance p
  have gone := foldl_deallocateColumn old.cols m₂ p
  rw [freed] at gone
  rw [same]
  change pointers r'.cols p + (old.cols.foldl Strings.deallocateColumn m₂).freed.count p + _ =
    pointers old.cols p + _ + (old.cols.foldl Strings.deallocateColumn m₂).allocated p
  rw [gone.1, Strings.allocated, Strings.allocated, gone.2]
  unfold Strings.allocated at kept
  have whole := all p
  omega

instance : RowLaws ValueArray where
  valid r := r.ncol < shortLimit
  unshared r changes := ∀ i, i < r.ncol → r.cols.getD i none ≠ none → ∃ q ∈ changes, q.1 = i
  create_some storable := ValueArray.update_some (show ({} : ValueArray).ncol < shortLimit by decide) storable (Nat.zero_le _) _
  update_some narrow storable later := by
    obtain ⟨u, updated⟩ := ValueArray.update_some narrow storable later _
    exact ⟨_, congrArg (Option.map _) updated⟩
  create_balance := ValueArray.create_balance
  create1_balance := ValueArray.create1_balance
  deallocate_balance := ValueArray.deallocate_balance _ _
  put_balance _ := ValueArray.put_balance
  replay_balance _ := ValueArray.replay_balance

theorem VersionedArray.Whole.columns {r : VersionedArray} (whole : r.Whole) : RowType.columns r = r.cols :=
  List.take_of_length_le (Nat.le_of_eq whole.symm)

/-- An update within the width is in place. -/
theorem VersionedArray.update_here {old r : VersionedArray} {changes : Changes} {ts : Nat} {m m' : Strings} {here : Bool}
    {p : Nat × Bytes} (whole : old.Whole) (last : changes.getLast? = some p) (inside : p.1 < old.ncol)
    (made : old.update changes ts m = some (r, here, m')) : here = true := by
  have cap : old.cap = old.ncol := whole.symm
  simp only [VersionedArray.update, last, Option.bind_eq_bind, Option.bind_some] at made
  split at made
  · rw [if_neg (by simp; omega)] at made
    obtain ⟨⟨cols', m₁⟩, -, same⟩ := Option.bind_eq_some_iff.mp made
    cases same
    rfl
  · cases made

theorem VersionedArray.create_balance {changes : Changes} {ts : Nat} {m m' : Strings} {r : VersionedArray}
    (made : RowType.create changes ts m = some (r, m')) : r.Whole ∧ ∀ p,
      pointers (RowType.columns r) p + m'.freed.count p + m.allocated p = m.freed.count p + m'.allocated p := by
  obtain ⟨⟨r, here, m'⟩, updated, same⟩ := Option.map_eq_some_iff.mp made
  cases same
  obtain ⟨whole, balance⟩ := VersionedArray.update_balance (show ({} : VersionedArray).Whole from rfl) updated
  refine ⟨whole, ?_⟩
  intro p
  have kept := balance p
  have none_ : pointers ({} : VersionedArray).cols p = 0 := rfl
  rw [whole.columns]
  dsimp only
  omega

theorem VersionedArray.create1_balance {v : Bytes} {ts : Nat} {m m' : Strings} {r : VersionedArray}
    (made : RowType.create1 v ts m = (r, m')) : r.Whole ∧ ∀ p,
      pointers (RowType.columns r) p + m'.freed.count p + m.allocated p = m.freed.count p + m'.allocated p := by
  cases made
  exact ⟨rfl, makeColumn_row⟩

theorem VersionedArray.deallocate_balance (r : VersionedArray) (m : Strings) : (RowType.deallocate r m).held = m.held ∧ ∀ p,
    (RowType.deallocate r m).freed.count p = m.freed.count p + pointers (RowType.columns r) p := by
  have balance := fun p => foldl_deallocateColumn (r.cols.take r.ncol) m p
  exact ⟨(balance 0).2, fun p => (balance p).1⟩

theorem VersionedArray.put_balance {old r : VersionedArray} {changes : Changes} {ts : Nat} {m m' : Strings} {here : Bool}
    (whole : old.Whole) (made : RowType.update old changes ts m = some (r, here, m')) : r.Whole ∧
      (if here then m' else RowType.deallocateAfterUpdate old changes m').held = m'.held ∧ ∀ p,
        pointers (RowType.columns r) p +
            (if here then m' else RowType.deallocateAfterUpdate old changes m').freed.count p + m.allocated p =
          pointers (RowType.columns old) p + m.freed.count p + m'.allocated p := by
  obtain ⟨whole', balance⟩ := VersionedArray.update_balance whole made
  have same : (if here then m' else RowType.deallocateAfterUpdate old changes m') = m' := by
    cases here <;> rfl
  rw [same, whole.columns, whole'.columns]
  exact ⟨whole', rfl, balance⟩

theorem VersionedArray.replay_balance {old r : VersionedArray} {changes : Changes} {ts : Nat} {m m' : Strings} {here : Bool}
    (whole : old.Whole)
    (unshared : (∃ p, changes.getLast? = some p ∧ p.1 < old.ncol) ∨ ∀ c ∈ old.cols, c = none)
    (updated : Chain.updateRow old changes ts m = some (r, here, m')) : r.Whole ∧ ∀ p,
      pointers (RowType.columns r) p + m'.freed.count p + m.allocated p =
        pointers (RowType.columns old) p + m.freed.count p + m'.allocated p := by
  obtain ⟨m₁, made, same⟩ := updateRow_eq_some updated
  obtain ⟨whole', balance⟩ := VersionedArray.update_balance whole made
  refine ⟨whole', ?_⟩
  intro p
  have kept := balance p
  rw [whole.columns, whole'.columns, same]
  by_cases stays : here = true
  · rw [if_pos stays]
    exact kept
  · have none_ : ∀ c ∈ old.cols, c = none := by
      apply unshared.resolve_left
      intro ⟨q, last, inside⟩
      exact stays (VersionedArray.update_here whole last inside made)
    have zero : pointers old.cols p = 0 := by
      rw [pointers, List.count_eq_zero]
      intro mem
      cases none_ _ mem
    have gone := foldl_deallocateColumn (old.cols.take old.ncol) m₁ p
    rw [List.take_of_length_le (Nat.le_of_eq whole.symm), zero] at gone
    have freed : (RowType.deallocate old m₁).freed.count p = m₁.freed.count p := by
      change ((old.cols.take old.ncol).foldl Strings.deallocateColumn m₁).freed.count p = _
      rw [List.take_of_length_le (Nat.le_of_eq whole.symm)]
      exact gone.1
    have held : (RowType.deallocate old m₁).allocated p = m₁.allocated p := by
      change ((old.cols.take old.ncol).foldl Strings.deallocateColumn m₁).allocated p = _
      rw [List.take_of_length_le (Nat.le_of_eq whole.symm), Strings.allocated, gone.2, Strings.allocated]
    rw [if_neg stays, freed, held]
    exact kept

instance : RowLaws VersionedArray where
  valid := VersionedArray.Whole
  unshared r changes := (∃ p, changes.getLast? = some p ∧ p.1 < r.ncol) ∨ ∀ c ∈ r.cols, c = none
  create_some storable := by
    obtain ⟨u, updated⟩ := VersionedArray.update_some (show ({} : VersionedArray).Whole from rfl) storable (fun _ => rfl) _ _
    exact ⟨_, congrArg (Option.map _) updated⟩
  update_some whole storable _ := VersionedArray.update_some whole storable (fun copy => Bool.noConfusion copy) _ _
  create_balance _ := VersionedArray.create_balance
  create1_balance := VersionedArray.create1_balance
  deallocate_balance := VersionedArray.deallocate_balance _ _
  put_balance whole _ := VersionedArray.put_balance whole
  replay_balance whole _ := VersionedArray.replay_balance whole

/-! ### Every step -/

section steps
variable {R : Type} [RowType R] [RowLaws R] {a b c cur : Chain R} {m m' m₁ : Strings} {lr : LogRecord}

namespace Chain

/-- From one value to another no string is lost and none is deallocated twice. -/
structure Kept (a : Chain R) (m : Strings) (b : Chain R) (m' : Strings) : Prop where
  valid : b.Valid
  balance : ∀ p, b.strings p + m'.freed.count p + m.allocated p = a.strings p + m.freed.count p + m'.allocated p

theorem Kept.trans (first : Kept a m b m₁) (second : Kept b m₁ c m') : Kept a m c m' := by
  refine ⟨second.valid, ?_⟩
  intro p
  have before := first.balance p
  have after := second.balance p
  omega

theorem deallocateAll_balance (c : Chain R) (m : Strings) : (deallocateAll c m).held = m.held ∧ ∀ p,
    (deallocateAll c m).freed.count p = m.freed.count p + c.strings p := by
  induction c generalizing m with
  | null => exact ⟨rfl, fun p => rfl⟩
  | row r => exact RowLaws.deallocate_balance
  | delta r prevTs prev ih =>
    obtain ⟨held, freed⟩ := @RowLaws.deallocate_balance R _ _ r m
    obtain ⟨held', freed'⟩ := ih (RowType.deallocate r m)
    refine ⟨held'.trans held, ?_⟩
    intro p
    have first := freed p
    have rest := freed' p
    change (deallocateAll prev (RowType.deallocate r m)).freed.count p = m.freed.count p + (_ + prev.strings p)
    omega

theorem allocated_congr (held : m'.held = m.held) (p : Nat) : m'.allocated p = m.allocated p := by
  rw [Strings.allocated, held, Strings.allocated]

/-- A row made after the old value is deallocated. -/
theorem kept_created {r : R} (valid : RowLaws.valid r) (held : m₁.held = m.held)
    (freed : ∀ p, m₁.freed.count p = m.freed.count p + a.strings p)
    (made : ∀ p, pointers (RowType.columns r) p + m'.freed.count p + m₁.allocated p =
      m₁.freed.count p + m'.allocated p) : Kept a m (row r) m' := by
  refine ⟨valid, ?_⟩
  intro p
  have new := made p
  have old := freed p
  rw [allocated_congr held] at new
  change pointers (RowType.columns r) p + _ + _ = _
  omega

omit [RowLaws R] in
theorem plug_strings (newer : List (R × Nat)) (cur : Chain R) (p : Nat) :
    (plug newer cur).strings p = (plug newer null).strings p + cur.strings p := by
  induction newer with
  | nil => exact (Nat.zero_add _).symm
  | cons marker newer ih =>
    change _ + (plug newer cur).strings p = (_ + (plug newer null).strings p) + _
    omega

theorem plug_valid (newer : List (R × Nat)) (cur : Chain R) :
    (plug newer cur).Valid ↔ (plug newer null).Valid ∧ cur.Valid := by
  induction newer with
  | nil => exact ⟨fun valid => ⟨trivial, valid⟩, fun valid => valid.2⟩
  | cons marker newer ih =>
    change RowLaws.valid marker.1 ∧ (plug newer cur).Valid ↔ (RowLaws.valid marker.1 ∧ (plug newer null).Valid) ∧ _
    rw [ih, and_assoc]

omit [RowLaws R] in
theorem plug_walk (ts : Nat) (c : Chain R) : plug (walk ts c).1 (walk ts c).2 = c := by
  induction c with
  | null | row r => rfl
  | delta r prevTs prev ih =>
    rw [walk]
    split
    · exact congrArg (delta r prevTs) ih
    · rfl

theorem Kept.plug (kept : Kept a m b m') (newer : List (R × Nat)) (valid : (plug newer a).Valid) :
    Kept (Chain.plug newer a) m (Chain.plug newer b) m' := by
  refine ⟨(plug_valid newer b).mpr ⟨((plug_valid newer a).mp valid).1, kept.valid⟩, ?_⟩
  intro p
  have balance := kept.balance p
  have before := plug_strings newer a p
  have after := plug_strings newer b p
  omega

theorem storeDelta_kept (valid : cur.Valid) {next : Chain R × Strings}
    (stored : change.storeDelta lr m cur = some next) : Kept cur m next.1 next.2 := by
  obtain ⟨r, m', created⟩ : ∃ r m', RowType.create1 (markerHeader ++ lr.val) (lr.ts ||| 1) m = ((r : R), m') :=
    ⟨_, _, rfl⟩
  obtain ⟨made, balance⟩ := RowLaws.create1_balance created
  unfold change.storeDelta at stored
  rw [created] at stored
  obtain rfl := Option.some.inj stored
  refine ⟨⟨made, valid⟩, ?_⟩
  intro p
  have new := balance p
  change (pointers (RowType.columns r) p + cur.strings p) + m'.freed.count p + _ = cur.strings p + _ + m'.allocated p
  omega

theorem change_kept (valid : cur.Valid) (meets : ChangeMeets lr cur) {next : Chain R × Strings}
    (changed : change lr cur m = some next) : Kept cur m next.1 next.2 := by
  unfold change at changed
  unfold ChangeMeets at meets
  split at changed
  · rename_i modify
    rw [if_pos modify] at meets
    cases cur with
    | null => exact storeDelta_kept valid changed
    | row old =>
      dsimp only at changed meets
      split at changed
      · rename_i same
        obtain ⟨changes, parsed, changed⟩ := Option.bind_eq_some_iff.mp changed
        obtain ⟨⟨r, here, m'⟩, updated, changed⟩ := Option.bind_eq_some_iff.mp changed
        obtain rfl := Option.some.inj changed
        obtain ⟨changes', parsed', storable, unshared⟩ := meets same
        obtain rfl := Option.some.inj (parsed'.symm.trans parsed)
        obtain ⟨made, balance⟩ := RowLaws.replay_balance valid storable.sorted unshared updated
        exact ⟨made, balance⟩
      · exact storeDelta_kept valid changed
    | delta old prevTs prev =>
      dsimp only at changed meets
      rw [if_neg meets] at changed
      exact storeDelta_kept valid changed
  · rename_i other
    rw [if_neg other] at meets
    obtain ⟨held, freed⟩ := deallocateAll_balance cur m
    dsimp only at changed
    split at changed
    · obtain rfl := Option.some.inj changed
      obtain ⟨made, balance⟩ := @RowLaws.create1_balance R _ _ lr.val lr.ts (deallocateAll cur m) _ _ rfl
      exact kept_created made held freed balance
    · rename_i unreplaced
      obtain ⟨changes, parsed, changed⟩ := Option.bind_eq_some_iff.mp changed
      obtain ⟨⟨r, m'⟩, created, changed⟩ := Option.bind_eq_some_iff.mp changed
      obtain rfl := Option.some.inj changed
      obtain ⟨changes', parsed', storable⟩ := meets unreplaced
      obtain rfl := Option.some.inj (parsed'.symm.trans parsed)
      obtain ⟨made, balance⟩ := RowLaws.create_balance storable.sorted created
      exact kept_created made held freed balance

theorem collapse_kept {next : Chain R × Strings} (valid : c.Valid) (meets : CollapseMeets c m)
    (collapsed : collapse c m = some (some next)) : Kept c m next.1 next.2 := by
  induction c generalizing next with
  | null | row r => cases collapsed
  | delta marker prevTs prev ih =>
    cases prev with
    | null => simp [collapse] at collapsed
    | row base =>
      rw [collapse] at collapsed
      split at collapsed
      · rename_i same
        simp only [Option.bind_eq_bind, Option.bind_eq_some_iff] at collapsed
        obtain ⟨req, asked, changes, parsed, ⟨r, here, m'⟩, updated, collapsed⟩ := collapsed
        obtain rfl := Option.some.inj (Option.some.inj collapsed)
        obtain ⟨-, changes', parsed', storable, unshared⟩ := meets same
        rw [asked, Option.bind_some, parsed] at parsed'
        obtain rfl := Option.some.inj parsed'
        obtain ⟨made, balance⟩ := RowLaws.replay_balance valid.2 storable.sorted unshared updated
        obtain ⟨held, freed⟩ := @RowLaws.deallocate_balance R _ _ marker m'
        refine ⟨made, ?_⟩
        intro p
        have moved := balance p
        have gone := freed p
        change pointers (RowType.columns r) p + (RowType.deallocate marker m').freed.count p + _ =
          (pointers (RowType.columns marker) p + pointers (RowType.columns base) p) + _ +
            (RowType.deallocate marker m').allocated p
        rw [allocated_congr held]
        omega
      · cases Option.some.inj collapsed
    | delta marker' prevTs' prev =>
      rw [collapse] at collapsed
      on_goal 2 => exact fun _ same => nomatch same
      obtain ⟨inner, found, same⟩ := Option.bind_eq_some_iff.mp collapsed
      cases inner with
      | none => cases same
      | some inner =>
        obtain rfl := Option.some.inj (Option.some.inj same)
        exact (ih valid.2 meets found).plug [(marker, prevTs)] valid

theorem cleanUp_kept {fuel : Nat} {next : Chain R × Strings} (valid : c.Valid) (meets : CleanUpMeets fuel c m)
    (cleaned : cleanUp fuel c m = some next) : Kept c m next.1 next.2 := by
  induction fuel generalizing c m with
  | zero =>
    obtain rfl := Option.some.inj cleaned
    exact ⟨valid, fun p => rfl⟩
  | succ fuel ih =>
    obtain ⟨first, rest⟩ := meets
    obtain ⟨result, collapsed, cleaned⟩ := Option.bind_eq_some_iff.mp cleaned
    cases result with
    | none =>
      obtain rfl := Option.some.inj cleaned
      exact ⟨valid, fun p => rfl⟩
    | some once =>
      have kept := collapse_kept valid first collapsed
      exact kept.trans (ih kept.valid (rest once collapsed) cleaned)

theorem apply_kept {value : Chain R} {next : Chain R × Strings} (valid : value.Valid) (meets : ApplyMeets lr value m)
    (applied : apply lr value m = some next) : Kept value m next.1 next.2 := by
  unfold apply at applied
  split at applied
  · obtain rfl := Option.some.inj applied
    exact ⟨valid, fun p => rfl⟩
  · rename_i current
    obtain ⟨first, rest⟩ := meets (by simpa using current)
    obtain ⟨changed, made, cleaned⟩ := Option.bind_eq_some_iff.mp applied
    have whole := plug_walk lr.ts value
    have parts := valid
    rw [← whole] at parts
    have kept := (change_kept ((plug_valid _ _).mp parts).2 first made).plug _ parts
    rw [whole] at kept
    exact kept.trans (cleanUp_kept kept.valid (rest changed made) cleaned)

omit [RowType R] [RowLaws R] in
theorem plain_cases {value : Chain R} (plain : value.Plain) : value = null ∨ ∃ r, value = row r := by
  cases value with
  | null => exact .inl rfl
  | row r => exact .inr ⟨r, rfl⟩
  | delta r prevTs prev => exact absurd rfl (plain r prevTs prev)

theorem deallocateValue_balance {value : Chain R} (plain : value.Plain) (m : Strings) :
    (deallocateValue value m).held = m.held ∧ ∀ p,
      (deallocateValue value m).freed.count p = m.freed.count p + value.strings p := by
  rcases plain_cases plain with rfl | ⟨r, rfl⟩
  · exact ⟨rfl, fun p => rfl⟩
  · exact RowLaws.deallocate_balance

theorem applyPut_kept {value : Chain R} {changes : Changes} {ts : Nat} {next : Chain R × Strings} (valid : value.Valid)
    (sorted : Sorted changes) (plain : value.Plain) (put : applyPut changes ts value m = some next) :
    Kept value m next.1 next.2 := by
  rcases plain_cases plain with rfl | ⟨old, rfl⟩
  · obtain ⟨⟨r, m'⟩, created, rfl⟩ := Option.map_eq_some_iff.mp put
    obtain ⟨made, balance⟩ := RowLaws.create_balance sorted created
    exact kept_created made rfl (fun p => rfl) balance
  · rw [applyPut] at put
    split at put
    · obtain ⟨⟨r, m'⟩, created, rfl⟩ := Option.map_eq_some_iff.mp put
      obtain ⟨made, balance⟩ := RowLaws.create_balance sorted created
      obtain ⟨held, freed⟩ := @RowLaws.deallocate_balance R _ _ old m
      exact kept_created made held freed balance
    · obtain ⟨⟨r, here, m'⟩, updated, same⟩ := Option.bind_eq_some_iff.mp put
      obtain rfl := Option.some.inj same
      obtain ⟨made, held, balance⟩ := RowLaws.put_balance valid sorted updated
      refine ⟨made, ?_⟩
      intro p
      have moved := balance p
      change pointers (RowType.columns r) p + _ + _ = pointers (RowType.columns old) p + _ + _
      rw [allocated_congr held]
      exact moved

/-! ### No step fails -/

theorem updateRow_some {old : R} {changes : Changes} {ts : Nat} (valid : RowLaws.valid old) (storable : Storable changes)
    (later : RowType.timestamp old ≤ ts) (m : Strings) : ∃ u, updateRow old changes ts m = some u := by
  obtain ⟨u, updated⟩ := RowLaws.update_some (m := m) valid storable later
  rw [updateRow, updated]
  exact ⟨_, rfl⟩

theorem change_some (valid : cur.Valid) (meets : ChangeMeets lr cur) (current : outOfDate lr.ts cur = false) (m : Strings) :
    ∃ next, change lr cur m = some next := by
  unfold ChangeMeets at meets
  unfold change
  split
  · rename_i modify
    rw [if_pos modify] at meets
    cases cur with
    | null => exact ⟨_, rfl⟩
    | row old =>
      dsimp only at meets ⊢
      split
      · rename_i same
        obtain ⟨changes, parsed, storable, -⟩ := meets same
        have later : RowType.timestamp old ≤ lr.ts := by
          have newer := of_decide_eq_false current
          omega
        obtain ⟨u, updated⟩ := updateRow_some valid storable later m
        rw [parsed, Option.bind_eq_bind, Option.bind_some, updated]
        exact ⟨_, rfl⟩
      · exact ⟨_, rfl⟩
    | delta old prevTs prev =>
      dsimp only at meets ⊢
      rw [if_neg meets]
      exact ⟨_, rfl⟩
  · rename_i other
    rw [if_neg other] at meets
    dsimp only
    split
    · exact ⟨_, rfl⟩
    · rename_i unreplaced
      obtain ⟨changes, parsed, storable⟩ := meets unreplaced
      obtain ⟨r, created⟩ := @RowLaws.create_some R _ _ _ lr.ts (deallocateAll cur m) storable
      rw [parsed, Option.bind_eq_bind, Option.bind_some, created]
      exact ⟨_, rfl⟩

theorem collapse_some (valid : c.Valid) (meets : CollapseMeets c m) : ∃ next, collapse c m = some next := by
  induction c with
  | null | row r => exact ⟨_, rfl⟩
  | delta marker prevTs prev ih =>
    cases prev with
    | null => exact ⟨_, rfl⟩
    | row base =>
      rw [collapse]
      split
      · rename_i same
        obtain ⟨later, changes, parsed, storable, -⟩ := meets same
        obtain ⟨req, asked, parsed⟩ := Option.bind_eq_some_iff.mp parsed
        obtain ⟨u, updated⟩ := updateRow_some valid.2 storable later m
        simp only [asked, parsed, updated, Option.bind_eq_bind, Option.bind_some]
        exact ⟨_, rfl⟩
      · exact ⟨_, rfl⟩
    | delta marker' prevTs' prev =>
      obtain ⟨next, collapsed⟩ := ih valid.2 meets
      rw [collapse]
      on_goal 2 => exact fun _ same => nomatch same
      rw [collapsed]
      exact ⟨_, rfl⟩

theorem cleanUp_some {fuel : Nat} (valid : c.Valid) (meets : CleanUpMeets fuel c m) : ∃ next, cleanUp fuel c m = some next := by
  induction fuel generalizing c m with
  | zero => exact ⟨_, rfl⟩
  | succ fuel ih =>
    obtain ⟨first, rest⟩ := meets
    obtain ⟨result, collapsed⟩ := collapse_some valid first
    rw [cleanUp, collapsed]
    cases result with
    | none => exact ⟨_, rfl⟩
    | some once => exact ih (collapse_kept valid first collapsed).valid (rest once collapsed)

theorem apply_some {value : Chain R} (valid : value.Valid) (meets : ApplyMeets lr value m) : ∃ next, apply lr value m = some next := by
  unfold apply
  cases current : outOfDate lr.ts (walk lr.ts value).2 with
  | true => exact ⟨_, rfl⟩
  | false =>
    obtain ⟨first, rest⟩ := meets current
    have whole := plug_walk lr.ts value
    have parts := valid
    rw [← whole] at parts
    have under := ((plug_valid _ _).mp parts).2
    obtain ⟨changed, made⟩ := change_some under first current m
    obtain ⟨next, cleaned⟩ := cleanUp_some ((change_kept under first made).plug _ parts).valid (rest changed made)
    rw [if_neg Bool.false_ne_true, made]
    exact ⟨next, cleaned⟩

theorem applyPut_some {value : Chain R} {changes : Changes} {ts : Nat} (valid : value.Valid) (storable : Storable changes)
    (plain : value.Plain) (later : ∀ r ∈ value.newest, RowType.timestamp r ≤ ts) (m : Strings) :
    ∃ next, applyPut changes ts value m = some next := by
  rcases plain_cases plain with rfl | ⟨old, rfl⟩
  · obtain ⟨r, created⟩ := @RowLaws.create_some R _ _ _ ts m storable
    exact ⟨_, congrArg (Option.map _) created⟩
  · rw [applyPut]
    split
    · obtain ⟨r, created⟩ := @RowLaws.create_some R _ _ _ ts (RowType.deallocate old m) storable
      exact ⟨_, congrArg (Option.map _) created⟩
    · obtain ⟨u, updated⟩ := RowLaws.update_some (m := m) valid storable (later old rfl)
      rw [updated]
      exact ⟨_, rfl⟩

end Chain

namespace KeyState

variable {s s' : KeyState R} {u : Update} {us : List Update}

/-- Every string is pointed to or deallocated, once. -/
structure Balanced (s : KeyState R) : Prop where
  valid : s.value.Valid
  once : ∀ p, s.value.strings p + s.strings.freed.count p = s.strings.allocated p

theorem Balanced.kept (balanced : s.Balanced) (next : Chain R × Strings)
    (kept : Chain.Kept s.value s.strings next.1 next.2) : Balanced ⟨next.1, next.2⟩ := by
  refine ⟨kept.valid, ?_⟩
  intro p
  have before := balanced.once p
  have moved := kept.balance p
  dsimp only
  omega

theorem Balanced.step (balanced : s.Balanced) (meets : s.Meets u) (stepped : s.step u = some s') : s'.Balanced := by
  cases u with
  | put changes ts =>
    obtain ⟨next, put, rfl⟩ := Option.map_eq_some_iff.mp stepped
    exact balanced.kept next (Chain.applyPut_kept balanced.valid meets.1.sorted meets.2.1 put)
  | replace v ts =>
    obtain rfl := Option.some.inj stepped
    obtain ⟨held, freed⟩ := Chain.deallocateValue_balance meets s.strings
    obtain ⟨made, balance⟩ := @RowLaws.create1_balance R _ _ v ts (s.value.deallocateValue s.strings) _ _ rfl
    exact balanced.kept (s.value.applyReplace v ts s.strings) (Chain.kept_created made held freed balance)
  | remove =>
    obtain rfl := Option.some.inj stepped
    obtain ⟨held, freed⟩ := Chain.deallocateValue_balance meets s.strings
    refine balanced.kept (s.value.applyRemove s.strings) ⟨trivial, ?_⟩
    intro p
    have gone := freed p
    change 0 + (s.value.deallocateValue s.strings).freed.count p + _ =
      _ + (s.value.deallocateValue s.strings).allocated p
    rw [Chain.allocated_congr held]
    omega
  | replay lr =>
    obtain ⟨next, applied, rfl⟩ := Option.map_eq_some_iff.mp stepped
    exact balanced.kept _ (Chain.apply_kept balanced.valid meets applied)

theorem Balanced.step_some (balanced : s.Balanced) (meets : s.Meets u) : ∃ s', s.step u = some s' := by
  cases u with
  | put changes ts =>
    obtain ⟨next, put⟩ := Chain.applyPut_some balanced.valid meets.1 meets.2.1 meets.2.2 s.strings
    exact ⟨_, congrArg (Option.map _) put⟩
  | replace v ts => exact ⟨_, rfl⟩
  | remove => exact ⟨_, rfl⟩
  | replay lr =>
    obtain ⟨next, applied⟩ := Chain.apply_some balanced.valid meets
    exact ⟨_, congrArg (Option.map _) applied⟩

theorem Balanced.run (balanced : s.Balanced) (meets : s.Each Meets us) : ∃ s', s.run us = some s' ∧ s'.Balanced := by
  induction us generalizing s with
  | nil => exact ⟨s, rfl, balanced⟩
  | cons u us ih =>
    obtain ⟨first, rest⟩ := meets
    obtain ⟨next, stepped⟩ := balanced.step_some first
    rw [run, stepped]
    exact ih (balanced.step first stepped) (rest next stepped)

theorem Balanced.owned (balanced : s.Balanced) : s.Owned := by
  constructor
  · intro p pointed
    have once := balanced.once p
    unfold Strings.allocated at once
    split at once
    · refine ⟨‹_›, ?_⟩
      intro freed
      have again := List.count_pos_iff.mpr freed
      omega
    · omega
  · intro p inside none_
    have once := balanced.once p
    unfold Strings.allocated at once
    rw [if_pos inside] at once
    omega

theorem balanced_empty : ({} : KeyState R).Balanced := ⟨trivial, fun _ => rfl⟩

omit [RowLaws R] in
theorem each_cons {condition : KeyState R → Update → Prop} (meets : condition s u) (stepped : s.step u = some s')
    (rest : s'.Each condition us) : s.Each condition (u :: us) := by
  refine ⟨meets, fun next stepped' => ?_⟩
  obtain rfl := Option.some.inj (stepped.symm.trans stepped')
  exact rest

/-- A modify that is applied to a row meets the condition if the row can take its columns and shares no string. -/
theorem meets_modify {old : R} {m : Strings} {lr : LogRecord} {changes : Changes} (modify : lr.command = .modify)
    (same : RowType.timestamp old = lr.prevTs) (parsed : parseChangeset lr.val = some changes) (storable : Storable changes)
    (unshared : RowLaws.unshared old changes) : Meets ⟨.row old, m⟩ (.replay lr) := by
  have alone : Chain.walk lr.ts (.row old) = ([], .row old) := rfl
  refine fun _ => ⟨?_, fun next changed => ?_⟩
  · rw [alone, Chain.ChangeMeets, if_pos modify]
    exact fun _ => ⟨changes, parsed, storable, unshared⟩
  · rw [alone, Chain.change, if_pos modify] at changed
    dsimp only at changed
    rw [if_pos same, parsed, Option.bind_eq_bind, Option.bind_some] at changed
    obtain ⟨u, -, made⟩ := Option.bind_eq_some_iff.mp changed
    obtain rfl := Option.some.inj made
    trivial

end KeyState

end steps

/-- A run whose updates each meet the condition goes through, and the strings that the value points to are there, and every other one is
deallocated once. -/
theorem strings_owned (us : List Update) :
    (({} : KeyState ValueArray).Each KeyState.Meets us → ∃ s, ({} : KeyState ValueArray).run us = some s ∧ s.Owned) ∧
    (({} : KeyState VersionedArray).Each KeyState.Meets us → ∃ s, ({} : KeyState VersionedArray).run us = some s ∧ s.Owned) := by
  constructor
  · intro meets
    obtain ⟨s, ran, balanced⟩ := KeyState.balanced_empty.run meets
    exact ⟨s, ran, balanced.owned⟩
  · intro meets
    obtain ⟨s, ran, balanced⟩ := KeyState.balanced_empty.run meets
    exact ⟨s, ran, balanced.owned⟩

/-- A row of two columns, a modify of both that is replayed, a put of a third, a replace and a remove. -/
def fiveUpdates : List Update :=
  [.put [(0, [7]), (1, [8])] 2, .replay { command := .modify, val := [0x00, 0xA1, 9, 0x01, 0xA0], ts := 4, prevTs := 2 },
    .put [(0, []), (2, [5])] 6, .replace [6] 8, .remove]

theorem parse_fiveUpdates : parseChangeset [0x00, 0xA1, 9, 0x01, 0xA0] = some [(0, [9]), (1, [])] := by decide

theorem storable_fiveUpdates : Storable [(0, [7]), (1, [8])] ∧ Storable [(0, [9]), (1, [])] ∧ Storable [(0, []), (2, [5])] :=
  ⟨⟨by decide, by simp [Sorted], by decide⟩, ⟨by decide, by simp [Sorted], by decide⟩, ⟨by decide, by simp [Sorted], by decide⟩⟩

theorem strings_owned_five : (∃ s, ({} : KeyState ValueArray).run fiveUpdates = some s ∧ s.Owned) ∧
    ∃ s, ({} : KeyState VersionedArray).run fiveUpdates = some s ∧ s.Owned := by
  obtain ⟨put, modify, later⟩ := storable_fiveUpdates
  constructor
  · refine (strings_owned fiveUpdates).1 ?_
    have stepped : ({} : KeyState ValueArray).step (.put [(0, [7]), (1, [8])] 2) =
        some ⟨.row ⟨2, [some 0, some 1]⟩, ⟨[[7], [8]], []⟩⟩ := by decide
    have stepped' : (⟨.row ⟨2, [some 0, some 1]⟩, ⟨[[7], [8]], []⟩⟩ : KeyState ValueArray).step
        (.replay { command := .modify, val := [0x00, 0xA1, 9, 0x01, 0xA0], ts := 4, prevTs := 2 }) =
          some ⟨.row ⟨4, [some 2, none]⟩, ⟨[[7], [8], [9]], [0, 1]⟩⟩ := by decide
    have stepped'' : (⟨.row ⟨4, [some 2, none]⟩, ⟨[[7], [8], [9]], [0, 1]⟩⟩ : KeyState ValueArray).step (.put [(0, []), (2, [5])] 6) =
        some ⟨.row ⟨6, [none, none, some 3]⟩, ⟨[[7], [8], [9], [5]], [0, 1, 2]⟩⟩ := by decide
    refine KeyState.each_cons ⟨put, nofun, nofun⟩ stepped ?_
    refine KeyState.each_cons (KeyState.meets_modify rfl rfl parse_fiveUpdates modify ?_) stepped' ?_
    · show ∀ i, i < 2 → _
      decide
    refine KeyState.each_cons ⟨later, nofun, ?_⟩ stepped'' (KeyState.each_cons nofun rfl (KeyState.each_cons nofun rfl trivial))
    rintro r ⟨⟩
    decide
  · refine (strings_owned fiveUpdates).2 ?_
    have stepped : ({} : KeyState VersionedArray).step (.put [(0, [7]), (1, [8])] 2) =
        some ⟨.row ⟨2, 0, 2, [some 0, some 1]⟩, ⟨[[7], [8]], []⟩⟩ := by decide
    have stepped' : (⟨.row ⟨2, 0, 2, [some 0, some 1]⟩, ⟨[[7], [8]], []⟩⟩ : KeyState VersionedArray).step
        (.replay { command := .modify, val := [0x00, 0xA1, 9, 0x01, 0xA0], ts := 4, prevTs := 2 }) =
          some ⟨.row ⟨2, 1, 2, [some 2, none]⟩, ⟨[[7], [8], [9]], [0, 1]⟩⟩ := by decide
    have stepped'' : (⟨.row ⟨2, 1, 2, [some 2, none]⟩, ⟨[[7], [8], [9]], [0, 1]⟩⟩ : KeyState VersionedArray).step
        (.put [(0, []), (2, [5])] 6) = some ⟨.row ⟨6, 0, 3, [none, none, some 3]⟩,
        ⟨[[7], [8], [9], [5]], [0, 1, 2]⟩⟩ := by decide
    refine KeyState.each_cons ⟨put, nofun, nofun⟩ stepped ?_
    refine KeyState.each_cons (KeyState.meets_modify rfl rfl parse_fiveUpdates modify (.inl ⟨_, rfl, by decide⟩)) stepped' ?_
    refine KeyState.each_cons ⟨later, nofun, ?_⟩ stepped'' (KeyState.each_cons nofun rfl (KeyState.each_cons nofun rfl trivial))
    rintro r ⟨⟩
    decide

/-- A put of two columns, and the replay of a modify of the first. -/
def twoColumns : List Update :=
  [.put [(0, [7]), (1, [8])] 2, .replay { command := .modify, val := [0x00, 0xA1, 9], ts := 4, prevTs := 2 }]

def nextColumn : List Update :=
  [.put [(0, [7])] 2, .replay { command := .modify, val := [0x01, 0xA1, 9], ts := 4, prevTs := 2 }]

/-- The replay deallocates strings that its new row points to. -/
theorem replay_deallocates_shared :
    (∃ s : KeyState ValueArray, ({} : KeyState ValueArray).run twoColumns = some s ∧ ¬ s.Owned) ∧
    ∃ s : KeyState VersionedArray, ({} : KeyState VersionedArray).run nextColumn = some s ∧ ¬ s.Owned := by
  constructor
  · refine ⟨_, rfl, ?_⟩
    intro owned
    exact absurd (owned.live 1 (by decide)).2 (by decide)
  · refine ⟨_, rfl, ?_⟩
    intro owned
    exact absurd (owned.live 0 (by decide)).2 (by decide)

end Masstree
