import Masstree.Checkpoint.Fuzzy
import Masstree.Query.Run
import Masstree.Row.Arrays

/-!
# The row types beside one another

A row of each type through the same calls, with the `query_helper` of the versioned array, and the replies that
`emit_fields` and `emit_fields1` make of it.
-/

namespace Masstree
open Msgpack (Bytes Json)

/-- A reply to a get and what a scan adds for the row, from one row type. -/
structure Reply where
  fields : List Json
  field1 : Item
  deriving DecidableEq, Repr

def RowView.reply (f : List Int) (row : RowView) : Reply := ⟨row.emitFields f, row.emitFields1 f⟩

structure Replies where
  bag : Reply
  array : Reply
  versioned : Reply
  deriving DecidableEq, Repr

structure Rows where
  bag : ValueBag := .empty
  array : ValueArray := {}
  arrayStrings : Strings := {}
  versioned : VersionedArray := {}
  versionedStrings : Strings := {}
  /-- `snapshot_` -/
  storage : Option VersionedArray := none
  deriving DecidableEq, Repr

inductive Call where
  | create (changes : Changes) (ts : Nat)
  | create1 (v : Bytes) (ts : Nat)
  | update (changes : Changes) (ts : Nat)
  | reply (f : List Int)

namespace Rows

def step (r : Rows) : Call → Option (Rows × List Replies)
  | .create changes ts => do
    let bag ← ValueBag.create changes ts
    let (array, arrayStrings) ← ValueArray.create changes ts r.arrayStrings
    let (versioned, versionedStrings) ← VersionedArray.create changes ts r.versionedStrings
    return ({ r with bag, array, arrayStrings, versioned, versionedStrings }, [])
  | .create1 v ts =>
    let (array, arrayStrings) := ValueArray.create1 v ts r.arrayStrings
    let (versioned, versionedStrings) := VersionedArray.create1 v ts r.versionedStrings
    some ({ r with bag := ValueBag.create1 v ts, array, arrayStrings, versioned, versionedStrings }, [])
  | .update changes ts => do
    let bag ← r.bag.update changes ts
    let (array, arrayStrings) ← r.array.update changes ts r.arrayStrings
    let (versioned, _, versionedStrings) ← r.versioned.update changes ts r.versionedStrings
    return ({ r with bag, array, arrayStrings, versioned, versionedStrings }, [])
  | .reply f => do
    let (snapshot, versionedStrings) ← r.versioned.snapshot r.storage f r.versionedStrings
    return ({ r with versionedStrings, storage := some snapshot },
      [{ bag := r.bag.view.reply f
         array := RowView.reply f ⟨r.array.ncol, r.array.strAt r.arrayStrings⟩
         versioned := RowView.reply f ⟨snapshot.ncol, snapshot.strAt versionedStrings⟩ }])

def run : Rows → List Call → Option (Rows × List Replies)
  | r, [] => some (r, [])
  | r, call :: calls => do
    let (r, replies) ← r.step call
    let (r, more) ← r.run calls
    return (r, replies ++ more)

end Rows

/-! ### What the calls ask for -/

namespace Call

def changes : Call → Option Changes
  | .create changes _ | .update changes _ => some changes
  | _ => none

def ts : Call → Option Nat
  | .create _ ts | .create1 _ ts | .update _ ts => some ts
  | .reply _ => none

def given (last : Nat → Bytes) : Call → Nat → Bytes
  | .create changes _ => fun i => (requested changes i).getD []
  | .create1 v _ => fun i => if i = 0 then v else []
  | .update changes _ => fun i => (requested changes i).getD (last i)
  | .reply _ => last

end Call

def lastTimestamp (calls : List Call) : Nat := (calls.filterMap Call.ts).getLast?.getD 0

def lastGiven (calls : List Call) : Nat → Bytes := calls.foldl Call.given fun _ => []

/-- Column lists are not empty and strictly increasing, and the timestamps increase. -/
structure Proper (calls : List Call) : Prop where
  columns : ∀ call ∈ calls, ∀ changes, call.changes = some changes →
    changes ≠ [] ∧ changes.Pairwise fun p q => p.1 < q.1
  timestamps : (calls.filterMap Call.ts).Pairwise (· < ·)

/-- Each type has the timestamp and the columns, in strings that are not deallocated, and writes them to a checkpoint and
reads them back. -/
structure Rows.Agree (r : Rows) (ts : Nat) (given : Nat → Bytes) : Prop where
  timestamp : r.bag.timestamp = ts ∧ r.array.timestamp = ts ∧ r.versioned.timestamp = ts
  col : ∀ i : Nat, r.bag.colAt i = given i ∧ r.array.col r.arrayStrings i = given i ∧
    r.versioned.col r.versionedStrings i = given i
  live : ∀ p, (some p ∈ r.array.cols → p ∉ r.arrayStrings.freed) ∧
    (some p ∈ r.versioned.cols → p ∉ r.versionedStrings.freed)
  bag : checkpointRead ⟨r.bag.timestamp, r.bag.s.take (r.bag.posAt r.bag.ncol)⟩ = r.bag
  array : ∀ m, ∃ row m', ValueArray.checkpointRead (r.array.checkpointWrite r.arrayStrings) r.array.timestamp m =
    some (row, m') ∧ row.timestamp = ts ∧ row.ncol = r.array.ncol ∧ ∀ i : Nat, row.col m' i = given i
  versioned : ∀ m, ∃ row m', VersionedArray.checkpointRead (r.versioned.checkpointWrite r.versionedStrings)
    r.versioned.timestamp m = some (row, m') ∧ row.timestamp = ts ∧ row.ncol = r.versioned.ncol ∧
      ∀ i : Nat, row.col m' i = given i

def Replies.Same (r : Replies) : Prop := r.array = r.bag ∧ r.versioned = r.bag

/-- The bag's offsets fit their 16 bits, an update is of a column past the row's width, one requested column is in the
row, no requested column in the row is empty, and the snapshot's storage is wide enough or points to nothing. -/
def Rows.Meets (r : Rows) : Call → Prop
  | .create changes _ => ValueBag.layoutSize (applyChanges [] changes) < 2 ^ 16
  | .create1 v _ => ValueBag.layoutSize [v] < 2 ^ 16
  | .update changes _ => ValueBag.layoutSize (applyChanges r.bag.columns changes) < 2 ^ 16 ∧
      ∃ p, changes.getLast? = some p ∧ r.versioned.ncol ≤ p.1
  | .reply f => (∀ c, f = [c] → 0 ≤ c ∧ c < r.versioned.ncol) ∧ (∀ c, f = [] ∨ c ∈ f → r.bag.strAt c ≠ some []) ∧
      ∀ s, r.storage = some s → r.versioned.ncol ≤ s.cap ∨ ∀ c ∈ s.cols.take s.ncol, c = none

/-- Every call of the run meets a condition on the state before it. -/
def Rows.Each (condition : Rows → Call → Prop) : Rows → List Call → Prop
  | _, [] => True
  | r, call :: calls => condition r call ∧ ∀ next, r.step call = some next → next.1.Each condition calls

namespace Rows

/-- The row in each type, with these columns. -/
structure Laid (r : Rows) (ts : Nat) (cols : List Bytes) : Prop where
  fits : ValueBag.layoutSize cols < 2 ^ 16
  bag : r.bag = ValueBag.ofColumns ts cols
  arrayTs : r.array.ts = ts
  array : r.arrayStrings.Holds r.array.cols cols
  arrayFreed : r.arrayStrings.freed = []
  versionedTs : r.versioned.ts = ts
  versionedNcol : r.versioned.ncol = cols.length
  versioned : r.versionedStrings.Holds r.versioned.cols cols
  /-- no string is pointed to twice, or pointed to and deallocated -/
  apart : ∀ p, pointers r.versioned.cols p + r.versionedStrings.freed.count p ≤ r.versionedStrings.allocated p

variable {r : Rows} {ts : Nat} {cols : List Bytes}

theorem fits_short (fits : ValueBag.layoutSize cols < 2 ^ 16) : cols.length < shortLimit := by
  unfold ValueBag.layoutSize at fits
  unfold shortLimit
  omega

theorem fits_column (fits : ValueBag.layoutSize cols < 2 ^ 16) {v : Bytes} (mem : v ∈ cols) : v.length < 2 ^ 32 := by
  obtain ⟨before, after, rfl⟩ := List.append_of_mem mem
  unfold ValueBag.layoutSize at fits
  simp only [List.flatten_append, List.flatten_cons, List.length_append] at fits
  omega

/-! ### A row as it is read -/

theorem whole_ofColumns (fits : ValueBag.layoutSize cols < 2 ^ 16) : (ValueBag.ofColumns ts cols).Whole := by
  constructor
  · have short := fits_short fits
    unfold shortLimit at short
    exact Nat.lt_trans short (by decide)
  · simp [ValueBag.ofColumns]
  · intro p mem
    obtain ⟨i, -, rfl⟩ := List.mem_map.mp mem
    exact Nat.lt_of_le_of_lt (ValueBag.columnStart_le cols i) fits
  · have ncol : (ValueBag.ofColumns ts cols).ncol = cols.length := rfl
    rw [ncol, ValueBag.ofColumns_posAt (Nat.le_refl _), ValueBag.columnStart_length, ValueBag.s, ValueBag.ofColumns]
    simp only [List.length_append, ValueBag.flatMap_le16_length, List.length_map, List.length_range]
    simp [ValueBag.le16, ValueBag.layoutSize, ValueBag.sizeofBagdata]
    omega

/-- A column of an array is a string or a null pointer, which is all that an empty column is. -/
theorem holds_str {pointed : List Column} {m : Strings} (holds : m.Holds pointed cols) {i : Nat} (inside : i < cols.length) :
    (m.str (pointed.getD i none)).getD [] = cols[i] ∧
      (cols[i] ≠ [] → m.str (pointed.getD i none) = some cols[i]) := by
  have read : m.read (pointed.getD i none) = cols[i] := by rw [holds.read, List.getD_eq_getElem _ _ inside]
  refine ⟨(m.str_getD _).trans read, fun some_ => ?_⟩
  rw [← read] at some_ ⊢
  exact Strings.str_eq some_

theorem array_strAt (row : ValueArray) {m : Strings} (holds : m.Holds row.cols cols) (c : Int) :
    (row.strAt m c).getD [] = (columnAt cols c).getD [] ∧
      (columnAt cols c ≠ some [] → row.strAt m c = columnAt cols c) := by
  have ncol : row.ncol = cols.length := holds.length
  unfold ValueArray.strAt columnAt
  rw [ncol]
  by_cases low : 0 ≤ c
  · rw [if_pos low]
    by_cases high : c < cols.length
    · have inside : c.toNat < cols.length := by omega
      rw [if_pos ⟨low, high⟩, List.getElem?_eq_getElem inside]
      simpa using holds_str holds inside
    · rw [if_neg (fun h => high h.2), List.getElem?_eq_none (by omega)]
      exact ⟨rfl, fun _ => rfl⟩
  · rw [if_neg low, if_neg (fun h => low h.1)]
    exact ⟨rfl, fun _ => rfl⟩

/-- A versioned row as a plain one. -/
theorem versioned_strAt (row : VersionedArray) {m : Strings} (ncol : row.ncol = cols.length)
    (holds : m.Holds row.cols cols) (c : Int) : (row.strAt m c).getD [] = (columnAt cols c).getD [] ∧
      (columnAt cols c ≠ some [] → row.strAt m c = columnAt cols c) := by
  have same : row.strAt m c = ValueArray.strAt { ts := row.ts, cols := row.cols } m c := by
    unfold VersionedArray.strAt ValueArray.strAt ValueArray.ncol
    rw [ncol, holds.length]
  rw [same]
  exact array_strAt { ts := row.ts, cols := row.cols } holds c

theorem columnAt_nat (cols : List Bytes) (i : Nat) : (columnAt cols i).getD [] = cols.getD i [] := by
  rw [columnAt, if_pos (Int.natCast_nonneg i), Int.toNat_natCast, List.getD_eq_getElem?_getD]

theorem bag_colAt (fits : ValueBag.layoutSize cols < 2 ^ 16) (i : Nat) :
    (ValueBag.ofColumns ts cols).colAt i = cols.getD i [] := by
  rw [ValueBag.colAt, strAt_ofColumns fits, columnAt_nat]

theorem array_col (row : ValueArray) {m : Strings} (holds : m.Holds row.cols cols) (i : Nat) :
    row.col m i = cols.getD i [] := by
  rw [ValueArray.col, (array_strAt row holds i).1, columnAt_nat]

theorem versioned_col (row : VersionedArray) {m : Strings} (ncol : row.ncol = cols.length)
    (holds : m.Holds row.cols cols) (i : Nat) : row.col m i = cols.getD i [] := by
  rw [VersionedArray.col, (versioned_strAt row ncol holds i).1, columnAt_nat]

theorem checkpointRead_array {row : ValueArray} {m : Strings} (holds : m.Holds row.cols cols)
    (fits : ValueBag.layoutSize cols < 2 ^ 16) (ts : Nat) (m₀ : Strings) : ∃ cols' m',
      ValueArray.checkpointRead (row.checkpointWrite m) ts m₀ = some ({ ts, cols := cols' }, m') ∧
        m'.Holds cols' cols := by
  have short := fits_short fits
  obtain ⟨cols', m', read, -, final⟩ := readColumns_write cols (fun v => fits_column fits) m₀
  have wide : cols.length < 2 ^ 32 := Nat.lt_trans short (by decide)
  refine ⟨cols', m', ?_, final⟩
  rw [ValueArray.checkpointRead, ValueArray.checkpointWrite, writeColumns_holds holds, readArraySize_write wide]
  simp only [Option.bind_eq_bind, Option.bind_some]
  rw [if_pos short, read]
  rfl

theorem checkpointRead_versioned {row : VersionedArray} {m : Strings} (ncol : row.ncol = cols.length)
    (holds : m.Holds row.cols cols) (fits : ValueBag.layoutSize cols < 2 ^ 16) (ts : Nat) (m₀ : Strings) :
    ∃ cols' m', VersionedArray.checkpointRead (row.checkpointWrite m) ts m₀ =
      some ({ ts, ncol := cols.length, cols := cols' }, m') ∧ m'.Holds cols' cols := by
  have short := fits_short fits
  obtain ⟨cols', m', read, -, final⟩ := readColumns_write cols (fun v => fits_column fits) m₀
  have wide : cols.length < 2 ^ 32 := Nat.lt_trans short (by decide)
  have all : row.cols.take row.ncol = row.cols := List.take_of_length_le (by rw [ncol, holds.length])
  refine ⟨cols', m', ?_, final⟩
  rw [VersionedArray.checkpointRead, VersionedArray.checkpointWrite, all, writeColumns_holds holds,
    readArraySize_write wide]
  simp only [Option.bind_eq_bind, Option.bind_some]
  rw [if_pos short, read]
  rfl

/-- Rows with the same columns agree. -/
theorem Laid.agree (laid : r.Laid ts cols) {given : Nat → Bytes} (same : ∀ i, cols.getD i [] = given i) :
    r.Agree ts given := by
  constructor
  · refine ⟨?_, laid.arrayTs, laid.versionedTs⟩
    rw [laid.bag]
    rfl
  · intro i
    rw [laid.bag, bag_colAt laid.fits, array_col _ laid.array, versioned_col _ laid.versionedNcol laid.versioned, same]
    exact ⟨rfl, rfl, rfl⟩
  · intro p
    constructor
    · intro _
      rw [laid.arrayFreed]
      exact List.not_mem_nil
    · intro mem freed
      have pointed : 0 < pointers r.versioned.cols p := List.count_pos_iff.mpr mem
      have again := List.count_pos_iff.mpr freed
      have once := laid.apart p
      unfold Strings.allocated at once
      split at once <;> omega
  · rw [laid.bag]
    exact checkpointRead_bytes (whole_ofColumns laid.fits)
  · intro m
    obtain ⟨cols', m', read, holds⟩ := checkpointRead_array laid.array laid.fits r.array.timestamp m
    refine ⟨_, m', read, laid.arrayTs, ?_, ?_⟩
    · change cols'.length = r.array.cols.length
      rw [holds.length, laid.array.length]
    · intro i
      rw [← same]
      exact array_col { ts := r.array.timestamp, cols := cols' } holds i
  · intro m
    obtain ⟨cols', m', read, holds⟩ :=
      checkpointRead_versioned laid.versionedNcol laid.versioned laid.fits r.versioned.timestamp m
    refine ⟨_, m', read, laid.versionedTs, laid.versionedNcol.symm, ?_⟩
    intro i
    rw [← same]
    exact versioned_col { ts := r.versioned.timestamp, ncol := cols.length, cols := cols' } rfl holds i

/-! ### Replies -/

theorem reply_congr {f : List Int} {a b : RowView} (ncol : a.ncol = b.ncol) (named : ∀ c ∈ f, a.col c = b.col c)
    (all : f = [] → ∀ c, a.col c = b.col c) : a.reply f = b.reply f := by
  have fields : a.emitFields f = b.emitFields f := by
    unfold RowView.emitFields
    split
    · rename_i none_
      rw [ncol]
      exact List.map_congr_left fun i _ => congrArg stable (all (List.isEmpty_iff.mp none_) i)
    · exact List.map_congr_left fun c asked => congrArg stable (named c asked)
  have first : a.col (f.headD 0) = b.col (f.headD 0) ∨ f.length ≠ 1 ∧ f ≠ [] := by
    rcases f with _ | ⟨c, _ | ⟨d, f⟩⟩
    · exact .inl (all rfl 0)
    · exact .inl (named c List.mem_cons_self)
    · exact .inr ⟨by simp, by simp⟩
  have field1 : a.emitFields1 f = b.emitFields1 f := by
    unfold RowView.emitFields1
    rw [fields, ncol]
    split
    · rename_i single
      rcases first with same | ⟨other, some_⟩
      · rw [same]
      · rcases single with ⟨none_, -⟩ | one
        · exact absurd (List.isEmpty_iff.mp none_) some_
        · exact absurd one other
    · rfl
  rw [RowView.reply, RowView.reply, fields, field1]

section snapshot
variable {row s : VersionedArray} {storage : Option VersionedArray} {f : List Int} {m : Strings}

/-- The storage that is written to is wide enough, and no string is deallocated for it. -/
theorem storageFor_wide (room : ∀ s, storage = some s → row.ncol ≤ s.cap ∨ ∀ c ∈ s.cols.take s.ncol, c = none) :
    row.ncol ≤ (row.storageFor storage m).1.cap ∧ (row.storageFor storage m).2.held = m.held ∧
      ∀ p, (row.storageFor storage m).2.freed.count p = m.freed.count p := by
  have fresh : row.ncol ≤ (VersionedArray.makeSizedRow row.ncol row.ts).cap := by
    unfold VersionedArray.cap VersionedArray.makeSizedRow
    rw [List.length_replicate]
  cases storage with
  | none => exact ⟨fresh, rfl, fun _ => rfl⟩
  | some s =>
    rw [VersionedArray.storageFor]
    split
    · rename_i narrow
      have empty := (room s rfl).resolve_left (Nat.not_le.mpr narrow)
      have freed := fun p => foldl_deallocateColumn (s.cols.take s.ncol) m p
      refine ⟨fresh, (freed 0).2, ?_⟩
      intro p
      have nothing : pointers (s.cols.take s.ncol) p = 0 := by
        rw [pointers, List.count_eq_zero]
        intro mem
        cases empty _ mem
      have total := (freed p).1
      rw [nothing] at total
      exact total
    · exact ⟨Nat.le_of_not_lt ‹_›, rfl, fun _ => rfl⟩

theorem copyColumns_one {c : Int} (low : 0 ≤ c) (high : c < row.ncol) (whole : row.Whole) (wide : row.ncol ≤ s.cap) :
    ∃ copy, row.copyColumns s [c] = some copy ∧ copy.ncol = row.ncol ∧ ∀ m : Strings, copy.strAt m c = row.strAt m c := by
  have cap : row.cap = row.ncol := whole.symm
  refine ⟨_, if_pos ⟨low, by omega, by omega⟩, rfl, ?_⟩
  intro m
  unfold VersionedArray.strAt
  rw [if_pos ⟨low, high⟩, if_pos ⟨low, high⟩]
  have inside : c.toNat < s.cols.length := by
    unfold VersionedArray.cap at wide
    omega
  dsimp only
  rw [List.getD_eq_getElem _ _ (by rw [List.length_set]; exact inside), List.getElem_set_self]

theorem copyColumns_all (other : ∀ c, f ≠ [c]) (whole : row.Whole) : ∃ copy, row.copyColumns s f = some copy ∧
    copy.ncol = row.ncol ∧ ∀ (m : Strings) (c : Int), copy.strAt m c = row.strAt m c := by
  have all : row.cols.take row.ncol = row.cols := List.take_of_length_le (Nat.le_of_eq whole.symm)
  have copied : row.copyColumns s f =
      some { s with ncol := row.ncol, cols := row.cols.take row.ncol ++ s.cols.drop row.ncol } := by
    rcases f with _ | ⟨c, _ | ⟨d, f⟩⟩
    · rfl
    · exact absurd rfl (other c)
    · rfl
  refine ⟨_, copied, rfl, ?_⟩
  intro m c
  unfold VersionedArray.strAt
  dsimp only
  rw [all]
  split
  · rename_i inside
    have size : row.cols.length = row.ncol := whole.symm
    rw [List.getD_append _ _ _ _ (by omega)]
  · rfl

theorem snapshot_reply (whole : row.Whole) (inside : ∀ c, f = [c] → 0 ≤ c ∧ c < row.ncol)
    (room : ∀ s, storage = some s → row.ncol ≤ s.cap ∨ ∀ c ∈ s.cols.take s.ncol, c = none) :
    ∃ copy m', row.snapshot storage f m = some (copy, m') ∧ m'.held = m.held ∧
      (∀ p, m'.freed.count p = m.freed.count p) ∧
        RowView.reply f ⟨copy.ncol, copy.strAt m'⟩ = RowView.reply f ⟨row.ncol, row.strAt m'⟩ := by
  obtain ⟨wide, held, freed⟩ := @storageFor_wide row storage m room
  by_cases single : ∃ c, f = [c]
  · obtain ⟨c, rfl⟩ := single
    obtain ⟨low, high⟩ := inside c rfl
    obtain ⟨copy, copied, ncol, same⟩ := copyColumns_one low high whole wide
    refine ⟨copy, _, by rw [VersionedArray.snapshot, copied]; rfl, held, freed, reply_congr ncol ?_ ?_⟩
    · intro d mem
      obtain rfl := List.mem_singleton.mp mem
      exact same _
    · intro none_
      cases none_
  · obtain ⟨copy, copied, ncol, same⟩ := @copyColumns_all row (row.storageFor storage m).1 f
      (fun c one => single ⟨c, one⟩) whole
    refine ⟨copy, _, by rw [VersionedArray.snapshot, copied]; rfl, held, freed, reply_congr ncol ?_ ?_⟩
    · exact fun c _ => same _ c
    · exact fun _ c => same _ c

end snapshot

/-! ### Calls -/

def columnsAfter (cols : List Bytes) : Call → List Bytes
  | .create changes _ => applyChanges [] changes
  | .create1 v _ => [v]
  | .update changes _ => applyChanges cols changes
  | .reply _ => cols

theorem columnsAfter_getD (cols : List Bytes) (call : Call) (i : Nat) :
    (columnsAfter cols call).getD i [] = call.given (fun i => cols.getD i []) i := by
  cases call with
  | create changes ts => exact applyChanges_getD [] changes i
  | create1 v ts => cases i <;> rfl
  | update changes ts => exact applyChanges_getD cols changes i
  | reply f => rfl

theorem apart_row {row : VersionedArray} {m m' : Strings}
    (balance : ∀ p, pointers row.cols p + m'.freed.count p + m.allocated p ≤ m.freed.count p + m'.allocated p)
    (apart : ∀ p, m.freed.count p ≤ m.allocated p) (p : Nat) :
    pointers row.cols p + m'.freed.count p ≤ m'.allocated p := by
  have kept := balance p
  have before := apart p
  omega

theorem Laid.freed (laid : r.Laid ts cols) (p : Nat) : r.versionedStrings.freed.count p ≤ r.versionedStrings.allocated p :=
  Nat.le_trans (Nat.le_add_left _ _) (laid.apart p)

theorem Laid.create {changes : Changes} {t : Nat} (laid : r.Laid ts cols) (some_ : changes ≠ [])
    (sorted : changes.Pairwise fun p q => p.1 < q.1)
    (fits : ValueBag.layoutSize (applyChanges [] changes) < 2 ^ 16) :
    ∃ r', r.step (.create changes t) = some (r', []) ∧ r'.Laid t (applyChanges [] changes) := by
  have short : width 0 changes < shortLimit := by
    have short := fits_short fits
    rwa [applyChanges_length] at short
  have empty (m : Strings) : m.Holds [] [] := ⟨rfl, fun p mem => by cases mem⟩
  obtain ⟨array, arrayStrings, madeArray, arrayTs, holds⟩ := @ValueArray.update_holds r.arrayStrings [] changes {} t
    (empty _) some_ sorted (Nat.zero_le t) short
  have last := List.getLast?_eq_some_getLast some_
  obtain ⟨versioned, versionedStrings, madeVersioned, versionedTs, ncol, holds'⟩ :=
    @VersionedArray.update_holds r.versionedStrings [] changes {} t _ true (empty _) rfl last sorted (Nat.zero_le _) short
  obtain ⟨-, balance⟩ := VersionedArray.update_balance (show ({} : VersionedArray).Whole from rfl) madeVersioned
  refine ⟨{ r with bag := ValueBag.ofColumns t (applyChanges [] changes), array, arrayStrings, versioned,
                   versionedStrings }, ?_, fits, rfl, arrayTs, holds, ?_, versionedTs, ncol, holds', ?_⟩
  · simp only [step, Option.bind_eq_bind, ValueBag.create_eq sorted fits, ValueArray.create, madeArray,
      VersionedArray.create, madeVersioned, Option.bind_some, Option.map_some]
    rfl
  · exact (ValueArray.update_balance sorted madeArray).2.1.trans laid.arrayFreed
  · refine apart_row ?_ laid.freed
    intro p
    have kept := balance p
    have none_ : pointers ({} : VersionedArray).cols p = 0 := rfl
    dsimp only
    omega

theorem Laid.create1 {v : Bytes} {t : Nat} (laid : r.Laid ts cols) (fits : ValueBag.layoutSize [v] < 2 ^ 16) :
    ∃ r', r.step (.create1 v t) = some (r', []) ∧ r'.Laid t [v] := by
  have made (m : Strings) : (m.makeColumn v).2.Holds [(m.makeColumn v).1] [v] := by
    obtain ⟨-, reads, inside⟩ := makeColumn_holds m v
    refine ⟨by rw [List.map_singleton, reads], ?_⟩
    intro p mem
    exact inside p (List.mem_singleton.mp mem).symm
  refine ⟨_, rfl, fits, ValueBag.create1_eq fits, rfl, made _, ?_, rfl, rfl, made _, ?_⟩
  · exact (makeColumn_balance r.arrayStrings v 0).2.trans laid.arrayFreed
  · refine apart_row ?_ laid.freed
    intro p
    obtain ⟨allocated, freed⟩ := makeColumn_balance r.versionedStrings v p
    change pointers [(r.versionedStrings.makeColumn v).1] p + (r.versionedStrings.makeColumn v).2.freed.count p + _ ≤
      _ + (r.versionedStrings.makeColumn v).2.allocated p
    rw [allocated, freed]
    omega

theorem Laid.update {changes : Changes} {t : Nat} {p : Nat × Bytes} (laid : r.Laid ts cols) (some_ : changes ≠ [])
    (sorted : changes.Pairwise fun p q => p.1 < q.1) (later : ts ≤ t)
    (fits : ValueBag.layoutSize (applyChanges cols changes) < 2 ^ 16) (last : changes.getLast? = some p)
    (past : r.versioned.ncol ≤ p.1) :
    ∃ r', r.step (.update changes t) = some (r', []) ∧ r'.Laid t (applyChanges cols changes) := by
  have short : width cols.length changes < shortLimit := by
    have short := fits_short fits
    rwa [applyChanges_length] at short
  obtain ⟨array, arrayStrings, madeArray, arrayTs, holds⟩ :=
    @ValueArray.update_holds _ _ _ r.array t laid.array some_ sorted (by rw [laid.arrayTs]; exact later) short
  obtain ⟨versioned, versionedStrings, madeVersioned, versionedTs, ncol, holds'⟩ :=
    @VersionedArray.update_holds _ _ _ _ t _ false laid.versioned laid.versionedNcol last sorted past short
  have whole : r.versioned.Whole := laid.versionedNcol.trans laid.versioned.length.symm
  obtain ⟨-, balance⟩ := VersionedArray.update_balance whole madeVersioned
  refine ⟨{ r with bag := ValueBag.ofColumns t (applyChanges cols changes), array, arrayStrings, versioned,
                   versionedStrings }, ?_, fits, rfl, arrayTs, holds, ?_, versionedTs, ncol, holds', ?_⟩
  · simp only [step, Option.bind_eq_bind, laid.bag, ValueBag.update_ofColumns sorted laid.fits fits, madeArray,
      madeVersioned, Option.bind_some]
    rfl
  · exact (ValueArray.update_balance sorted madeArray).2.1.trans laid.arrayFreed
  · intro p
    have kept := balance p
    have before := laid.apart p
    dsimp only
    omega

theorem Laid.reply {f : List Int} (laid : r.Laid ts cols) (inside : ∀ c, f = [c] → 0 ≤ c ∧ c < r.versioned.ncol)
    (given : ∀ c, f = [] ∨ c ∈ f → r.bag.strAt c ≠ some [])
    (room : ∀ s, r.storage = some s → r.versioned.ncol ≤ s.cap ∨ ∀ c ∈ s.cols.take s.ncol, c = none) :
    ∃ r' replies, r.step (.reply f) = some (r', [replies]) ∧ r'.Laid ts cols ∧ replies.Same := by
  have whole : r.versioned.Whole := laid.versionedNcol.trans laid.versioned.length.symm
  obtain ⟨copy, m', copied, held, freed, same⟩ := @snapshot_reply _ _ _ r.versionedStrings whole inside room
  have holds : m'.Holds r.versioned.cols cols := laid.versioned.mono ⟨[], (List.append_nil _).trans held.symm⟩
  have bag : r.bag.view = ⟨cols.length, columnAt cols⟩ := by
    rw [laid.bag]
    exact congrArg (RowView.mk _) (funext (strAt_ofColumns laid.fits))
  have string : ∀ c, f = [] ∨ c ∈ f → columnAt cols c ≠ some [] := by
    intro c asked
    have string := given c asked
    rwa [laid.bag, strAt_ofColumns laid.fits] at string
  refine ⟨{ r with versionedStrings := m', storage := some copy },
    { bag := r.bag.view.reply f
      array := RowView.reply f ⟨r.array.ncol, r.array.strAt r.arrayStrings⟩
      versioned := RowView.reply f ⟨copy.ncol, copy.strAt m'⟩ }, ?_, ⟨laid.fits, laid.bag, laid.arrayTs, laid.array,
    laid.arrayFreed, laid.versionedTs, laid.versionedNcol, holds, ?_⟩, ?_, ?_⟩
  · simp only [step, copied, Option.bind_eq_bind, Option.bind_some]
    rfl
  · intro p
    have before := laid.apart p
    change pointers r.versioned.cols p + m'.freed.count p ≤ m'.allocated p
    rw [freed, Strings.allocated, held]
    exact before
  · rw [bag]
    refine reply_congr laid.array.length ?_ ?_
    · exact fun c asked => (array_strAt r.array laid.array c).2 (string c (.inr asked))
    · exact fun all c => (array_strAt r.array laid.array c).2 (string c (.inl all))
  · rw [bag]
    refine same.trans (reply_congr laid.versionedNcol ?_ ?_)
    · exact fun c asked => (versioned_strAt r.versioned laid.versionedNcol holds c).2 (string c (.inr asked))
    · exact fun all c => (versioned_strAt r.versioned laid.versionedNcol holds c).2 (string c (.inl all))

theorem Laid.step {call : Call} (laid : r.Laid ts cols)
    (columns : ∀ changes, call.changes = some changes → changes ≠ [] ∧ changes.Pairwise fun p q => p.1 < q.1)
    (later : ∀ t, call.ts = some t → ts ≤ t) (meets : r.Meets call) :
    ∃ r' replies, r.step call = some (r', replies) ∧ r'.Laid (call.ts.getD ts) (columnsAfter cols call) ∧
      ∀ reply ∈ replies, reply.Same := by
  have none_ : ∀ reply ∈ ([] : List Replies), reply.Same := fun reply mem => by cases mem
  cases call with
  | create changes t =>
    obtain ⟨some_, sorted⟩ := columns changes rfl
    obtain ⟨r', made, laid'⟩ := laid.create (t := t) some_ sorted meets
    exact ⟨r', [], made, laid', none_⟩
  | create1 v t =>
    obtain ⟨r', made, laid'⟩ := laid.create1 (t := t) meets
    exact ⟨r', [], made, laid', none_⟩
  | update changes t =>
    obtain ⟨some_, sorted⟩ := columns changes rfl
    obtain ⟨fits, p, last, past⟩ := meets
    have read : r.bag.columns = cols := by
      rw [laid.bag]
      exact ValueBag.ofColumns_columns laid.fits
    rw [read] at fits
    obtain ⟨r', made, laid'⟩ := laid.update some_ sorted (later t rfl) fits last past
    exact ⟨r', [], made, laid', none_⟩
  | reply f =>
    obtain ⟨inside, given, room⟩ := meets
    obtain ⟨r', replies, made, laid', same⟩ := laid.reply inside given room
    refine ⟨r', [replies], made, laid', ?_⟩
    intro reply mem
    rwa [List.mem_singleton.mp mem]

theorem lastTs_cons (call : Call) (calls : List Call) (ts : Nat) :
    (((call :: calls).filterMap Call.ts).getLast?).getD ts =
      ((calls.filterMap Call.ts).getLast?).getD (call.ts.getD ts) := by
  rw [List.filterMap_cons]
  cases call.ts with
  | none => rfl
  | some t =>
    rw [List.getLast?_cons]
    cases (calls.filterMap Call.ts).getLast? <;> rfl

theorem Laid.run {calls : List Call} (laid : r.Laid ts cols)
    (columns : ∀ call ∈ calls, ∀ changes, call.changes = some changes →
      changes ≠ [] ∧ changes.Pairwise fun p q => p.1 < q.1)
    (increasing : (calls.filterMap Call.ts).Pairwise (· < ·)) (later : ∀ t ∈ calls.filterMap Call.ts, ts ≤ t)
    (meets : r.Each Meets calls) : ∃ r' replies, r.run calls = some (r', replies) ∧
      (∃ cols', r'.Laid (((calls.filterMap Call.ts).getLast?).getD ts) cols' ∧
        ∀ i, cols'.getD i [] = calls.foldl Call.given (fun i => cols.getD i []) i) ∧
      ∀ reply ∈ replies, reply.Same := by
  induction calls generalizing r ts cols with
  | nil => exact ⟨r, [], rfl, ⟨cols, laid, fun _ => rfl⟩, fun reply mem => by cases mem⟩
  | cons call calls ih =>
    obtain ⟨first, rest⟩ := meets
    have stamps : (call.ts.toList ++ calls.filterMap Call.ts).Pairwise (· < ·) := by
      rw [List.filterMap_cons] at increasing
      cases stamp : call.ts <;> rw [stamp] at increasing <;> exact increasing
    have among : ∀ t, t ∈ call.ts.toList ∨ t ∈ calls.filterMap Call.ts → ts ≤ t := by
      intro t mem
      apply later
      rw [List.filterMap_cons]
      cases stamp : call.ts with
      | none =>
        rw [stamp] at mem
        exact mem.resolve_left List.not_mem_nil
      | some u =>
        rw [stamp] at mem
        exact List.mem_cons.mpr (mem.imp_left List.mem_singleton.mp)
    obtain ⟨r₁, replies, stepped, laid₁, same⟩ := laid.step (columns call List.mem_cons_self)
      (fun t stamp => among t (.inl (by rw [stamp]; exact List.mem_singleton_self t))) first
    have above : ∀ t ∈ calls.filterMap Call.ts, call.ts.getD ts ≤ t := by
      intro t mem
      cases stamp : call.ts with
      | none => exact among t (.inr mem)
      | some u =>
        rw [stamp] at stamps
        exact Nat.le_of_lt ((List.pairwise_append.mp stamps).2.2 u (List.mem_singleton_self u) t mem)
    obtain ⟨r₂, more, went, ⟨cols', laid₂, given⟩, same'⟩ := ih laid₁
      (fun next mem => columns next (List.mem_cons_of_mem _ mem)) (List.pairwise_append.mp stamps).2.1 above
      (rest _ stepped)
    refine ⟨r₂, replies ++ more, ?_, ⟨cols', by rw [lastTs_cons]; exact laid₂, ?_⟩, ?_⟩
    · simp only [Rows.run, stepped, went, Option.bind_eq_bind, Option.bind_some]
      rfl
    · intro i
      have start : (fun i => (columnsAfter cols call).getD i []) = call.given fun i => cols.getD i [] :=
        funext fun i => columnsAfter_getD cols call i
      rw [given, List.foldl_cons, start]
    · intro reply mem
      rcases List.mem_append.mp mem with old | new
      · exact same reply old
      · exact same' reply new

theorem laid_empty : ({} : Rows).Laid 0 [] := by
  have none_ (m : Strings) : m.Holds [] [] := ⟨rfl, fun p mem => by cases mem⟩
  exact ⟨by decide, rfl, rfl, none_ _, rfl, rfl, rfl, none_ _, fun p => Nat.zero_le _⟩

/-- After calls that each meet the condition, the three types have the timestamp and the columns last given, and every
reply was the same. -/
theorem interchangeable {calls : List Call} (proper : Proper calls) (meets : ({} : Rows).Each Meets calls) :
    ∃ r replies, ({} : Rows).run calls = some (r, replies) ∧ r.Agree (lastTimestamp calls) (lastGiven calls) ∧
      ∀ reply ∈ replies, reply.Same := by
  obtain ⟨r, replies, went, ⟨cols, laid, given⟩, same⟩ :=
    laid_empty.run proper.columns proper.timestamps (fun t _ => Nat.zero_le t) meets
  exact ⟨r, replies, went, laid.agree given, same⟩

theorem each_cons {condition : Rows → Call → Prop} {r r' : Rows} {call : Call} {calls : List Call}
    (meets : condition r call) (stepped : (r.step call).map Prod.fst = some r') (rest : r'.Each condition calls) :
    r.Each condition (call :: calls) := by
  refine ⟨meets, fun next stepped' => ?_⟩
  rw [stepped', Option.map_some, Option.some_inj] at stepped
  rwa [stepped]

theorem strAt_ne {row : ValueBag} (given : ∀ v ∈ row.columns, v ≠ []) (c : Int) : row.strAt c ≠ some [] := by
  intro empty
  obtain ⟨⟨low, high⟩, empty⟩ := Option.ite_none_right_eq_some.mp empty
  exact given _ (List.mem_map.mpr ⟨c.toNat, List.mem_range.mpr (by omega), rfl⟩) (Option.some.inj empty)

/-- Two columns with a gap, an update of the gap and of a column past the row, replies for all columns and for two with
one that the row does not have, and a row of one column with its reply. -/
def sixCalls : List Call :=
  [.create [(0, [7]), (2, [9])] 2, .update [(1, [8]), (3, [1])] 4, .reply [], .reply [0, 3, 9], .create1 [5] 6, .reply [0]]

def fourColumns : Rows where
  bag := ValueBag.ofColumns 4 [[7], [8], [9], [1]]
  array := { ts := 4, cols := [some 0, some 2, some 1, some 3] }
  arrayStrings := { held := [[7], [9], [8], [1]] }
  versioned := { ts := 4, ncol := 4, cols := [some 0, some 2, some 1, some 3] }
  versionedStrings := { held := [[7], [9], [8], [1]] }

theorem interchangeable_six : ∃ r replies, ({} : Rows).run sixCalls = some (r, replies) ∧
    r.Agree (lastTimestamp sixCalls) (lastGiven sixCalls) ∧ ∀ reply ∈ replies, reply.Same := by
  apply interchangeable
  · constructor
    · intro call mem changes named
      simp only [sixCalls, List.mem_cons, List.not_mem_nil, or_false] at mem
      rcases mem with rfl | rfl | rfl | rfl | rfl | rfl <;> cases named
      · exact ⟨by decide, by decide⟩
      · exact ⟨by decide, by decide⟩
    · decide
  · have created : (({} : Rows).step (.create [(0, [7]), (2, [9])] 2)).map Prod.fst = some
        { bag := ValueBag.ofColumns 2 [[7], [], [9]]
          array := { ts := 2, cols := [some 0, none, some 1] }
          arrayStrings := { held := [[7], [9]] }
          versioned := { ts := 2, ncol := 3, cols := [some 0, none, some 1] }
          versionedStrings := { held := [[7], [9]] } } := by decide
    have one : ({ fourColumns with storage := some fourColumns.versioned } : Rows).step (.create1 [5] 6) = some
        ({ bag := ValueBag.ofColumns 6 [[5]]
           array := { ts := 6, cols := [some 4] }
           arrayStrings := { held := [[7], [9], [8], [1], [5]] }
           versioned := { ts := 6, ncol := 1, cols := [some 4] }
           versionedStrings := { held := [[7], [9], [8], [1], [5]] }
           storage := some fourColumns.versioned }, []) := by decide
    have wide : ∀ c : Int, fourColumns.bag.strAt c ≠ some [] := strAt_ne (by decide)
    refine each_cons (by decide : _ < _) created ?_
    refine @each_cons _ _ fourColumns _ _ ⟨by decide, _, rfl, by decide⟩ (by decide) ?_
    refine @each_cons _ _ { fourColumns with storage := some fourColumns.versioned } _ _ ⟨nofun, fun c _ => wide c, nofun⟩
      (by decide) ?_
    refine @each_cons _ _ { fourColumns with storage := some fourColumns.versioned } _ _ ⟨nofun, fun c _ => wide c, ?_⟩
      (by decide) ?_
    · rintro s ⟨⟩
      exact .inl (by decide)
    refine each_cons (by decide : _ < _) (congrArg (Option.map Prod.fst) one)
      ⟨⟨?_, fun c _ => strAt_ne (by decide) c, ?_⟩, fun _ _ => trivial⟩
    · rintro c ⟨⟩
      decide
    · rintro s ⟨⟩
      exact .inl (by decide)

/-- An update within the width leaves the old timestamp in the versioned array. -/
theorem narrow_update_timestamp : Proper [.create1 [7] 2, .update [(0, [8])] 4] ∧
    ∃ r replies, ({} : Rows).run [.create1 [7] 2, .update [(0, [8])] 4] = some (r, replies) ∧
      ¬ r.Agree (lastTimestamp [.create1 [7] 2, .update [(0, [8])] 4])
        (lastGiven [.create1 [7] 2, .update [(0, [8])] 4]) := by
  constructor
  · constructor
    · intro call mem changes named
      rcases List.mem_pair.mp mem with rfl | rfl
      · cases named
      · obtain rfl := Option.some.inj named
        exact ⟨by decide, by decide⟩
    · decide
  · refine ⟨_, _, rfl, ?_⟩
    intro agree
    exact absurd agree.timestamp.2.2 (by decide)

end Rows

end Masstree
