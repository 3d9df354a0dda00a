import Masstree.Msgpack.Json
import Masstree.Row.Columns

/-!
# `value_array` and `value_versioned_array`

The other row types. `cols_` points to column strings, which a row and its successor may share; a null pointer is an
empty column. A failed assertion, an access outside `cols_` and a width that the `short` `ncol_` cannot hold are `none`.
-/

namespace Masstree
open Msgpack (Bytes)

/-- A `lcdf::inline_string*`. -/
abbrev Column := Option Nat

/-- The column strings: what each one holds, in the order they were allocated, and which were deallocated, each as often
as it was. -/
structure Strings where
  held : List Bytes := []
  freed : List Nat := []
  deriving DecidableEq, Repr

namespace Strings

def makeColumn (m : Strings) (v : Bytes) : Column × Strings :=
  if v.isEmpty then (none, m) else (some m.held.length, { m with held := m.held ++ [v] })

/-- `value_array::deallocate_column`, and `deallocate_column_rcu`, which deallocates it later. -/
def deallocateColumn (m : Strings) (col : Column) : Strings := { m with freed := m.freed ++ col.toList }

def read (m : Strings) (col : Column) : Bytes := col.elim [] fun p => m.held.getD p []

/-- The `Str` of a column, which is `Str()` for a null pointer. -/
def str (m : Strings) (col : Column) : Option Bytes := col.map fun p => m.held.getD p []

theorem str_getD (m : Strings) (col : Column) : (m.str col).getD [] = m.read col := by cases col <;> rfl

/-- A column with bytes has a string. -/
theorem str_eq {m : Strings} {col : Column} (some_ : m.read col ≠ []) : m.str col = some (m.read col) := by
  cases col with
  | none => exact absurd rfl some_
  | some p => rfl

end Strings

def shortLimit : Nat := 2 ^ 15

/-- `parser::read_array_header` -/
def readArraySize : Bytes → Option (Nat × Bytes)
  | [] => none
  | b :: rest =>
    if Msgpack.Format.isFixarray b then some (b.toNat - 0x90, rest)
    else match b.toNat with
      | 0xDC => (Msgpack.take? 2 rest).map fun r => (Msgpack.netOrder r.1, r.2)
      | 0xDD => (Msgpack.take? 4 rest).map fun r => (Msgpack.netOrder r.1, r.2)
      | _ => none

/-- The loop of `checkpoint_read`. -/
def readColumns : Nat → Bytes → Strings → Option (List Column × Strings)
  | 0, _, m => some ([], m)
  | n + 1, s, m => do
    let (v, s) ← Msgpack.readStr s
    let (c, m) := m.makeColumn v
    let (cols, m) ← readColumns n s m
    return (c :: cols, m)

/-- `checkpoint_write` of either type, for the columns up to `ncol_`. -/
def writeColumns (m : Strings) (cols : List Column) : Bytes :=
  Msgpack.writeArrayHeader cols.length ++ cols.flatMap fun c => Msgpack.writeString (m.read c)

structure ValueArray where
  ts : Nat := 0
  /-- `cols_`, `ncol_` of them -/
  cols : List Column := []
  deriving DecidableEq, Repr

namespace ValueArray

def ncol (r : ValueArray) : Nat := r.cols.length

def timestamp (r : ValueArray) : Nat := r.ts

/-- `value_array::col` -/
def strAt (r : ValueArray) (m : Strings) (i : Int) : Option Bytes :=
  if 0 ≤ i ∧ i < r.ncol then m.str (r.cols.getD i.toNat none) else none

/-- The bytes of `value_array::col` -/
def col (r : ValueArray) (m : Strings) (i : Int) : Bytes := (r.strAt m i).getD []

/-- The loop of `update`. -/
def setColumns : Changes → List Column → Strings → Option (List Column × Strings)
  | [], cols, m => some (cols, m)
  | (idx, v) :: rest, cols, m =>
    if idx < cols.length then
      let (c, m) := m.makeColumn v
      setColumns rest (cols.set idx c) m
    else none

def update (r : ValueArray) (changes : Changes) (ts : Nat) (m : Strings) : Option (ValueArray × Strings) := do
  let (last, _) ← changes.getLast?
  let ncol := max r.ncol (last + 1)
  if r.ts ≤ ts ∧ ncol < shortLimit then do
    let (cols, m) ← setColumns changes (r.cols ++ List.replicate (ncol - r.ncol) none) m
    return ({ ts, cols }, m)
  else none

def create (changes : Changes) (ts : Nat) (m : Strings) : Option (ValueArray × Strings) := update {} changes ts m

def create1 (v : Bytes) (ts : Nat) (m : Strings) : ValueArray × Strings :=
  let (c, m) := m.makeColumn v
  ({ ts, cols := [c] }, m)

/-- `deallocate` and `deallocate_rcu` -/
def deallocate (r : ValueArray) (m : Strings) : Strings := r.cols.foldl Strings.deallocateColumn m

def deallocateAfterUpdate (r : ValueArray) : Changes → Strings → Strings
  | [], m => m
  | (idx, _) :: rest, m =>
    if idx < r.ncol then deallocateAfterUpdate r rest (m.deallocateColumn (r.cols.getD idx none)) else m

def checkpointWrite (r : ValueArray) (m : Strings) : Bytes := writeColumns m r.cols

def checkpointRead (s : Bytes) (ts : Nat) (m : Strings) : Option (ValueArray × Strings) := do
  let (ncol, s) ← readArraySize s
  if ncol < shortLimit then do
    let (cols, m) ← readColumns ncol s m
    return ({ ts, cols }, m)
  else none

end ValueArray

structure VersionedArray where
  ts : Nat := 0
  /-- `ver_`, which is never seen dirty here -/
  ver : Nat := 0
  ncol : Nat := 0
  /-- `cols_`, `ncol_cap_` of them -/
  cols : List Column := []
  deriving DecidableEq, Repr

namespace VersionedArray

def cap (r : VersionedArray) : Nat := r.cols.length

def timestamp (r : VersionedArray) : Nat := r.ts

/-- `value_versioned_array::col` -/
def strAt (r : VersionedArray) (m : Strings) (i : Int) : Option Bytes :=
  if 0 ≤ i ∧ i < r.ncol then m.str (r.cols.getD i.toNat none) else none

/-- The bytes of `value_versioned_array::col` -/
def col (r : VersionedArray) (m : Strings) (i : Int) : Bytes := (r.strAt m i).getD []

/-- The loop of `update`. -/
def setColumns : Changes → List Column → Strings → Option (List Column × Strings)
  | [], cols, m => some (cols, m)
  | (idx, v) :: rest, cols, m =>
    if idx < cols.length then
      let (c, m) := (m.deallocateColumn (cols.getD idx none)).makeColumn v
      setColumns rest (cols.set idx c) m
    else none

/-- `row->cols_` before the loop: the old columns, and null ones up to `ncol`. -/
def extended (r : VersionedArray) (ncol : Nat) : List Column :=
  r.cols.take r.ncol ++ List.replicate (ncol - r.ncol) none ++ r.cols.drop (max r.ncol ncol)

/-- The row, whether it is `this`, and the strings. -/
def update (r : VersionedArray) (changes : Changes) (ts : Nat) (m : Strings) (alwaysCopy : Bool := false) :
    Option (VersionedArray × Bool × Strings) := do
  let (last, _) ← changes.getLast?
  let ncol := last + 1
  if ncol < shortLimit then
    if r.cap < ncol ∨ alwaysCopy then
      if r.ncol ≤ ncol then do
        let (cols, m) ← setColumns changes ((r.extended ncol).take ncol) m
        return ({ ts, ver := 0, ncol, cols }, false, m)
      else none
    else do
      let (cols, m) ← setColumns changes (r.extended ncol) m
      return ({ r with ver := (r.ver + 1) % 2 ^ 31, ncol := max r.ncol ncol, cols }, true, m)
  else none

def create (changes : Changes) (ts : Nat) (m : Strings) : Option (VersionedArray × Strings) :=
  (update {} changes ts m true).map fun r => (r.1, r.2.2)

def create1 (v : Bytes) (ts : Nat) (m : Strings) : VersionedArray × Strings :=
  let (c, m) := m.makeColumn v
  ({ ts, ncol := 1, cols := [c] }, m)

/-- `deallocate` and `deallocate_rcu` -/
def deallocate (r : VersionedArray) (m : Strings) : Strings := (r.cols.take r.ncol).foldl Strings.deallocateColumn m

/-- `deallocate_rcu_after_update`: only the row itself. -/
def deallocateAfterUpdate (_ : VersionedArray) (_ : Changes) (m : Strings) : Strings := m

def makeSizedRow (ncol ts : Nat) : VersionedArray := { ts, ncol, cols := List.replicate ncol none }

/-- The start of `snapshot`: the storage of a `query_helper`, if it is wide enough, or a new row. -/
def storageFor (r : VersionedArray) : Option VersionedArray → Strings → VersionedArray × Strings
  | none, m => (makeSizedRow r.ncol r.ts, m)
  | some storage, m =>
    if storage.cap < r.ncol then (makeSizedRow r.ncol r.ts, storage.deallocate m) else (storage, m)

/-- The copy that `snapshot` makes of the columns in `f`: of one column only, or of all. -/
def copyColumns (r storage : VersionedArray) : List Int → Option VersionedArray
  | [c] =>
    if 0 ≤ c ∧ c < r.cap ∧ c < storage.cap then
      some { storage with ncol := r.ncol, cols := storage.cols.set c.toNat (r.cols.getD c.toNat none) }
    else none
  | _ => some { storage with ncol := r.ncol, cols := r.cols.take r.ncol ++ storage.cols.drop r.ncol }

def snapshot (r : VersionedArray) (storage : Option VersionedArray) (f : List Int) (m : Strings) :
    Option (VersionedArray × Strings) :=
  (r.copyColumns (r.storageFor storage m).1 f).map fun copy => (copy, (r.storageFor storage m).2)

def checkpointWrite (r : VersionedArray) (m : Strings) : Bytes := writeColumns m (r.cols.take r.ncol)

def checkpointRead (s : Bytes) (ts : Nat) (m : Strings) : Option (VersionedArray × Strings) := do
  let (ncol, s) ← readArraySize s
  if ncol < shortLimit then do
    let (cols, m) ← readColumns ncol s m
    return ({ ts, ncol, cols }, m)
  else none

end VersionedArray

/-! ### What the columns hold -/

/-- The columns are strings that are allocated, with these values. -/
structure Strings.Holds (m : Strings) (cols : List Column) (values : List Bytes) : Prop where
  reads : cols.map m.read = values
  inside : ∀ p, some p ∈ cols → p < m.held.length

def setAll (values : List Bytes) (changes : Changes) : List Bytes := changes.foldl (fun vs p => vs.set p.1 p.2) values

section holds
variable {m m' : Strings} {cols values' : List Column} {values : List Bytes} {c : Column} {v : Bytes} {changes : Changes}

theorem setAll_length (values : List Bytes) (changes : Changes) : (setAll values changes).length = values.length := by
  induction changes generalizing values with
  | nil => rfl
  | cons p rest ih =>
    change (setAll (values.set p.1 p.2) rest).length = _
    rw [ih, List.length_set]

theorem setAll_getD (values : List Bytes) (changes : Changes) {i : Nat} (inside : i < values.length) :
    (setAll values changes).getD i [] = (requested changes i).getD (values.getD i []) := by
  induction changes generalizing values with
  | nil => rfl
  | cons p rest ih =>
    obtain ⟨idx, v⟩ := p
    change (setAll (values.set idx v) rest).getD i [] = _
    rw [ih (values.set idx v) (by rw [List.length_set]; exact inside), ValueBag.requested_cons]
    cases requested rest i with
    | some w => rfl
    | none =>
      by_cases same : idx = i
      · subst same
        simp [inside]
      · simp [same, List.getD]

/-- Setting the columns of the extended row is applying the changes. -/
theorem setAll_extended (values : List Bytes) (changes : Changes) {n : Nat} (size : n = width values.length changes)
    (more : values.length ≤ n) :
    setAll (values ++ List.replicate (n - values.length) []) changes = applyChanges values changes := by
  have length : (values ++ List.replicate (n - values.length) []).length = n := by
    rw [List.length_append, List.length_replicate]
    omega
  refine List.ext_getElem ?_ fun i lt lt' => ?_
  · rw [setAll_length, length, size]
    unfold applyChanges
    rw [List.length_map, List.length_range]
  · rw [setAll_length, length] at lt
    have old : (values ++ List.replicate (n - values.length) []).getD i [] = values.getD i [] := by
      by_cases inside : i < values.length
      · rw [List.getD_append _ _ _ _ inside]
      · rw [List.getD_append_right _ _ _ _ (Nat.le_of_not_lt inside), List.getD_replicate _ (by omega),
          List.getD_eq_default _ _ (Nat.le_of_not_lt inside)]
    have set := setAll_getD (values ++ List.replicate (n - values.length) []) changes (by rw [length]; exact lt)
    rw [List.getD_eq_getElem _ _ (by rw [setAll_length, length]; exact lt), old] at set
    rw [set]
    simp only [applyChanges, List.getElem_map, List.getElem_range]

theorem width_last {changes : Changes} {p : Nat × Bytes} (sorted : changes.Pairwise fun p q => p.1 < q.1)
    (last : changes.getLast? = some p) (n : Nat) : width n changes = max n (p.1 + 1) := by
  induction changes with
  | nil => cases last
  | cons q rest ih =>
    obtain ⟨idx, v⟩ := q
    obtain ⟨below, later⟩ := List.pairwise_cons.mp sorted
    rw [ValueBag.width_cons]
    cases rest with
    | nil =>
      obtain rfl := Option.some.inj last
      rfl
    | cons r rest =>
      have last' : (r :: rest).getLast? = some p := by rw [← last, List.getLast?_cons_cons]
      have bound := below p (List.mem_of_getLast? last')
      rw [ih later last']
      dsimp only at bound
      omega

theorem read_mono (grows : m.held <+: m'.held) (inside : ∀ p, c = some p → p < m.held.length) :
    m'.read c = m.read c := by
  cases c with
  | none => rfl
  | some p =>
    have lt := inside p rfl
    obtain ⟨more, same⟩ := grows
    change m'.held.getD p [] = m.held.getD p []
    rw [← same, List.getD_append _ _ _ _ lt]

theorem Strings.Holds.mono (holds : m.Holds cols values) (grows : m.held <+: m'.held) : m'.Holds cols values := by
  constructor
  · rw [← holds.reads]
    apply List.map_congr_left
    intro c mem
    exact read_mono grows fun p same => holds.inside p (same ▸ mem)
  · intro p mem
    exact Nat.lt_of_lt_of_le (holds.inside p mem) grows.length_le

/-- A column made for a value holds it. -/
theorem makeColumn_holds (m : Strings) (v : Bytes) : m.held <+: (m.makeColumn v).2.held ∧
    (m.makeColumn v).2.read (m.makeColumn v).1 = v ∧
      ∀ p, (m.makeColumn v).1 = some p → p < (m.makeColumn v).2.held.length := by
  unfold Strings.makeColumn
  split
  · rename_i empty
    rw [List.isEmpty_iff] at empty
    refine ⟨List.prefix_rfl, empty.symm, ?_⟩
    intro p none
    cases none
  · refine ⟨List.prefix_append _ _, ?_, ?_⟩
    · simp [Strings.read]
    · intro p same
      cases same
      simp

theorem Strings.Holds.set (holds : m.Holds cols values) (idx : Nat) (inside : ∀ p, c = some p → p < m.held.length) :
    m.Holds (cols.set idx c) (values.set idx (m.read c)) := by
  constructor
  · rw [List.map_set, holds.reads]
  · intro p mem
    rcases List.mem_or_eq_of_mem_set mem with old | new
    · exact holds.inside p old
    · exact inside p new.symm

theorem ValueArray.setColumns_holds (changes : Changes) (holds : m.Holds cols values) (inside : ∀ p ∈ changes, p.1 < cols.length) :
    ∃ cols' m', setColumns changes cols m = some (cols', m') ∧ m'.Holds cols' (setAll values changes) ∧
      cols'.length = cols.length := by
  induction changes generalizing m cols values with
  | nil => exact ⟨cols, m, rfl, holds, rfl⟩
  | cons p rest ih =>
    obtain ⟨idx, v⟩ := p
    obtain ⟨grows, reads, made⟩ := makeColumn_holds m v
    have next := (holds.mono grows).set idx made
    rw [reads] at next
    obtain ⟨cols', m', set, final, length⟩ := ih next (by
      intro q mem
      rw [List.length_set]
      exact inside q (List.mem_cons_of_mem _ mem))
    refine ⟨cols', m', ?_, final, length.trans (List.length_set ..)⟩
    rw [setColumns, if_pos (inside _ List.mem_cons_self)]
    exact set

theorem VersionedArray.setColumns_holds (changes : Changes) (holds : m.Holds cols values) (inside : ∀ p ∈ changes, p.1 < cols.length) :
    ∃ cols' m', setColumns changes cols m = some (cols', m') ∧ m'.Holds cols' (setAll values changes) ∧
      cols'.length = cols.length := by
  induction changes generalizing m cols values with
  | nil => exact ⟨cols, m, rfl, holds, rfl⟩
  | cons p rest ih =>
    obtain ⟨idx, v⟩ := p
    obtain ⟨grows, reads, made⟩ := makeColumn_holds (m.deallocateColumn (cols.getD idx none)) v
    have next := (holds.mono grows).set idx made
    rw [reads] at next
    obtain ⟨cols', m', set, final, length⟩ := ih next (by
      intro q mem
      rw [List.length_set]
      exact inside q (List.mem_cons_of_mem _ mem))
    refine ⟨cols', m', ?_, final, length.trans (List.length_set ..)⟩
    rw [setColumns, if_pos (inside _ List.mem_cons_self)]
    exact set

theorem Strings.Holds.append (holds : m.Holds cols values) (n : Nat) :
    m.Holds (cols ++ List.replicate n none) (values ++ List.replicate n []) := by
  constructor
  · rw [List.map_append, holds.reads, List.map_replicate]
    rfl
  · intro p mem
    rcases List.mem_append.mp mem with old | new
    · exact holds.inside p old
    · cases (List.mem_replicate.mp new).2

theorem Strings.Holds.length (holds : m.Holds cols values) : cols.length = values.length := by
  rw [← holds.reads, List.length_map]

theorem Strings.Holds.read (holds : m.Holds cols values) (i : Nat) : m.read (cols.getD i none) = values.getD i [] := by
  rw [← holds.reads]
  by_cases inside : i < cols.length
  · rw [List.getD_eq_getElem _ _ inside, List.getD_eq_getElem _ _ (by rw [List.length_map]; exact inside),
      List.getElem_map]
  · rw [List.getD_eq_default _ _ (Nat.le_of_not_lt inside),
      List.getD_eq_default _ _ (by rw [List.length_map]; exact Nat.le_of_not_lt inside)]
    rfl

/-! ### Updates -/

theorem ValueArray.update_holds {r : ValueArray} {ts : Nat} (holds : m.Holds r.cols values) (some_ : changes ≠ [])
    (sorted : changes.Pairwise fun p q => p.1 < q.1) (later : r.ts ≤ ts)
    (short : width values.length changes < shortLimit) : ∃ row m', r.update changes ts m = some (row, m') ∧
      row.ts = ts ∧ m'.Holds row.cols (applyChanges values changes) := by
  have last := List.getLast?_eq_some_getLast some_
  generalize changes.getLast some_ = p at last
  have size := width_last sorted last values.length
  have wide := le_width values.length changes
  have ncol : r.ncol = values.length := holds.length
  have extended := holds.append (width values.length changes - values.length)
  obtain ⟨cols', m', set, final, -⟩ := setColumns_holds changes extended (by
    intro q mem
    have bound := ValueBag.lt_width mem values.length
    rw [List.length_append, List.length_replicate, holds.length]
    omega)
  rw [setAll_extended values changes rfl wide] at final
  refine ⟨{ ts, cols := cols' }, m', ?_, rfl, final⟩
  rw [size] at set short
  rw [update, last]
  simp only [Option.bind_eq_bind, Option.bind_some, ncol]
  rw [if_pos ⟨later, short⟩, set]
  rfl

/-- An update past the row's width makes a new row. -/
theorem VersionedArray.update_holds {r : VersionedArray} {ts : Nat} {p : Nat × Bytes} {copy : Bool}
    (holds : m.Holds r.cols values) (whole : r.ncol = values.length) (last : changes.getLast? = some p)
    (sorted : changes.Pairwise fun p q => p.1 < q.1) (past : r.ncol ≤ p.1)
    (short : width values.length changes < shortLimit) : ∃ row m', r.update changes ts m copy = some (row, false, m') ∧
      row.ts = ts ∧ row.ncol = (applyChanges values changes).length ∧
        m'.Holds row.cols (applyChanges values changes) := by
  have size := width_last sorted last values.length
  have cap : r.cap = r.ncol := by rw [whole, ← holds.length, cap]
  have ncol : width values.length changes = p.1 + 1 := by omega
  have extended := holds.append (p.1 + 1 - r.ncol)
  have start : (r.extended (p.1 + 1)).take (p.1 + 1) = r.cols ++ List.replicate (p.1 + 1 - r.ncol) none := by
    have all : r.cols.take r.ncol = r.cols := List.take_of_length_le (by rw [whole, holds.length])
    rw [VersionedArray.extended, all]
    apply List.take_left'
    rw [List.length_append, List.length_replicate, holds.length]
    omega
  obtain ⟨cols', m', set, final, length⟩ := setColumns_holds changes extended (by
    intro q mem
    have bound := ValueBag.lt_width mem values.length
    rw [List.length_append, List.length_replicate, holds.length]
    omega)
  rw [whole, setAll_extended values changes ncol.symm (by omega)] at final
  refine ⟨{ ts, ver := 0, ncol := p.1 + 1, cols := cols' }, m', ?_, rfl, ?_, final⟩
  · rw [update, last]
    simp only [Option.bind_eq_bind, Option.bind_some]
    rw [if_pos (by omega), if_pos (by left; omega), if_pos (by omega), start, set]
    rfl
  · rw [applyChanges_length, ncol]

/-! ### Checkpoints -/

theorem encodesStr_writeString (small : v.length < 2 ^ 32) : Msgpack.EncodesStr v (Msgpack.writeString v) := by
  unfold Msgpack.writeString
  split
  · exact .fix ‹_›
  split
  · exact .str8 (.inl rfl) ‹_›
  split
  · exact .str16 (.inl rfl) ‹_›
  · exact .str32 (.inl rfl) small

theorem readArraySize_write {n : Nat} (small : n < 2 ^ 32) (rest : Bytes) :
    readArraySize (Msgpack.writeArrayHeader n ++ rest) = some (n, rest) := by
  have word (k : Nat) (fits : n < 2 ^ (8 * k)) :
      (Msgpack.take? k (Msgpack.toNetOrder k n ++ rest)).map (fun r => (Msgpack.netOrder r.1, r.2)) = some (n, rest) := by
    rw [Msgpack.take?_append _ _ (Msgpack.toNetOrder_length k n).symm, Option.map_some,
      Msgpack.netOrder_toNetOrder k fits]
  unfold Msgpack.writeArrayHeader
  split
  · have byte := Msgpack.ofNat_toNat (x := 0x90 + n) (by omega)
    rw [List.singleton_append, readArraySize, if_pos (by rw [Msgpack.isFixarray_iff, byte]; omega), byte,
      Nat.add_sub_cancel_left]
  split
  · exact word 2 ‹_›
  · exact word 4 small

theorem readColumns_write (values : List Bytes) (small : ∀ v ∈ values, v.length < 2 ^ 32) (m : Strings) :
    ∃ cols m', readColumns values.length (values.flatMap Msgpack.writeString) m = some (cols, m') ∧
      m.held <+: m'.held ∧ m'.Holds cols values := by
  induction values generalizing m with
  | nil =>
    refine ⟨[], m, rfl, List.prefix_rfl, rfl, ?_⟩
    intro p mem
    cases mem
  | cons v values ih =>
    obtain ⟨grows, reads, made⟩ := makeColumn_holds m v
    obtain ⟨cols, m', rest, more, holds⟩ := ih (fun w mem => small w (List.mem_cons_of_mem _ mem)) (m.makeColumn v).2
    refine ⟨(m.makeColumn v).1 :: cols, m', ?_, grows.trans more, ?_, ?_⟩
    · rw [List.length_cons, readColumns, List.flatMap_cons,
        Msgpack.readStr_encodes (encodesStr_writeString (small v List.mem_cons_self))]
      simp only [Option.bind_eq_bind, Option.bind_some, rest]
      rfl
    · rw [List.map_cons, holds.reads, read_mono more made, reads]
    · intro p mem
      rcases List.mem_cons.mp mem with new | old
      · exact Nat.lt_of_lt_of_le (made p new.symm) more.length_le
      · exact holds.inside p old

theorem writeColumns_holds (holds : m.Holds cols values) :
    writeColumns m cols = Msgpack.writeArrayHeader values.length ++ values.flatMap Msgpack.writeString := by
  rw [writeColumns, holds.length, ← holds.reads, List.flatMap_map]

/-! ### What becomes of the strings -/

def pointers (cols : List Column) (p : Nat) : Nat := cols.count (some p)

def Strings.allocated (m : Strings) (p : Nat) : Nat := if p < m.held.length then 1 else 0

theorem makeColumn_balance (m : Strings) (v : Bytes) (p : Nat) :
    (m.makeColumn v).2.allocated p = m.allocated p + pointers [(m.makeColumn v).1] p ∧
      (m.makeColumn v).2.freed = m.freed := by
  unfold Strings.makeColumn
  split
  · exact ⟨rfl, rfl⟩
  · refine ⟨?_, rfl⟩
    simp only [Strings.allocated, pointers, List.length_append, List.length_singleton, List.count_singleton]
    by_cases same : m.held.length = p
    · simp [same]
    · have other : (some m.held.length == some p) = false := by simp [same]
      rw [other]
      split <;> split <;> simp_all <;> omega

theorem deallocateColumn_balance (m : Strings) (c : Column) (p : Nat) :
    (m.deallocateColumn c).freed.count p = m.freed.count p + pointers [c] p := by
  cases c with
  | none => simp [Strings.deallocateColumn, pointers]
  | some q => simp [Strings.deallocateColumn, pointers, List.count_singleton]

theorem pointers_set {idx : Nat} (inside : idx < cols.length) (c : Column) (p : Nat) :
    pointers (cols.set idx c) p + pointers [cols.getD idx none] p = pointers cols p + pointers [c] p := by
  induction cols generalizing idx with
  | nil => cases inside
  | cons d cols ih =>
    cases idx with
    | zero =>
      simp only [pointers, List.set_cons_zero, List.getD_cons_zero, List.count_cons, List.count_nil]
      omega
    | succ idx =>
      have rest := ih (Nat.lt_of_succ_lt_succ inside)
      simp only [pointers, List.set_cons_succ, List.getD_cons_succ, List.count_cons, List.count_nil] at rest ⊢
      omega

theorem VersionedArray.setColumns_balance (set : setColumns changes cols m = some (values', m')) (p : Nat) :
    pointers values' p + m'.freed.count p + m.allocated p = pointers cols p + m.freed.count p + m'.allocated p := by
  induction changes generalizing m cols with
  | nil =>
    obtain ⟨rfl, rfl⟩ := Prod.mk.inj (Option.some.inj set)
    rfl
  | cons q rest ih =>
    obtain ⟨idx, v⟩ := q
    rw [setColumns] at set
    split at set
    · rename_i inside
      have later := @ih ((m.deallocateColumn (cols.getD idx none)).makeColumn v).2
        (cols.set idx ((m.deallocateColumn (cols.getD idx none)).makeColumn v).1) set
      obtain ⟨allocated, freed⟩ := makeColumn_balance (m.deallocateColumn (cols.getD idx none)) v p
      have old := deallocateColumn_balance m (cols.getD idx none) p
      have new := pointers_set inside ((m.deallocateColumn (cols.getD idx none)).makeColumn v).1 p
      have same : (m.deallocateColumn (cols.getD idx none)).allocated p = m.allocated p := rfl
      rw [freed] at later
      omega
    · cases set

/-- How often the columns that the changes name point to a string. -/
def replaced (cols : List Column) (changes : Changes) (p : Nat) : Nat :=
  (changes.map fun q => pointers [cols.getD q.1 none] p).sum

theorem replaced_cons (cols : List Column) (idx : Nat) (v : Bytes) (rest : Changes) (p : Nat) :
    replaced cols ((idx, v) :: rest) p = pointers [cols.getD idx none] p + replaced cols rest p := by
  rw [replaced, List.map_cons, List.sum_cons, replaced]

theorem replaced_set {idx : Nat} (above : ∀ q ∈ changes, idx < q.1) (c : Column) (p : Nat) :
    replaced (cols.set idx c) changes p = replaced cols changes p := by
  have same : ∀ q ∈ changes, pointers [(cols.set idx c).getD q.1 none] p = pointers [cols.getD q.1 none] p := by
    intro q mem
    have other : idx ≠ q.1 := Nat.ne_of_lt (above q mem)
    rw [List.getD_eq_getElem?_getD, List.getElem?_set_ne other, ← List.getD_eq_getElem?_getD]
  rw [replaced, replaced, List.map_congr_left same]

theorem replaced_append {n : Nat} (p : Nat) :
    replaced (cols ++ List.replicate n none) changes p = replaced cols changes p := by
  have same : ∀ q ∈ changes, pointers [(cols ++ List.replicate n none).getD q.1 none] p =
      pointers [cols.getD q.1 none] p := by
    intro q _
    by_cases inside : q.1 < cols.length
    · rw [List.getD_append _ _ _ _ inside]
    · rw [List.getD_append_right _ _ _ _ (Nat.le_of_not_lt inside), List.getD_eq_default cols _ (Nat.le_of_not_lt inside)]
      by_cases short : q.1 - cols.length < n
      · rw [List.getD_replicate _ short]
      · rw [List.getD_eq_default _ _ (by rw [List.length_replicate]; omega)]
  rw [replaced, replaced, List.map_congr_left same]

theorem ValueArray.setColumns_balance (sorted : changes.Pairwise fun p q => p.1 < q.1)
    (set : setColumns changes cols m = some (values', m')) (p : Nat) :
    pointers values' p + replaced cols changes p + m.allocated p = pointers cols p + m'.allocated p ∧
      m'.freed = m.freed := by
  induction changes generalizing m cols with
  | nil =>
    obtain ⟨rfl, rfl⟩ := Prod.mk.inj (Option.some.inj set)
    exact ⟨rfl, rfl⟩
  | cons q rest ih =>
    obtain ⟨idx, v⟩ := q
    obtain ⟨below, sorted⟩ := List.pairwise_cons.mp sorted
    rw [setColumns] at set
    split at set
    · rename_i inside
      obtain ⟨later, kept⟩ := @ih (m.makeColumn v).2 (cols.set idx (m.makeColumn v).1) sorted set
      obtain ⟨allocated, freed⟩ := makeColumn_balance m v p
      have new := pointers_set inside (m.makeColumn v).1 p
      rw [replaced_set below] at later
      rw [replaced_cons, kept, freed]
      exact ⟨by omega, rfl⟩
    · cases set

theorem ValueArray.setColumns_some (m : Strings) (inside : ∀ p ∈ changes, p.1 < cols.length) :
    ∃ cols' m', setColumns changes cols m = some (cols', m') := by
  induction changes generalizing cols m with
  | nil => exact ⟨cols, m, rfl⟩
  | cons q rest ih =>
    obtain ⟨here, later⟩ := List.forall_mem_cons.mp inside
    rw [setColumns, if_pos here]
    exact ih _ fun p mem => by rw [List.length_set]; exact later p mem

theorem ValueArray.setColumns_length (set : setColumns changes cols m = some (values', m')) : values'.length = cols.length := by
  induction changes generalizing cols m with
  | nil =>
    obtain ⟨rfl, -⟩ := Prod.mk.inj (Option.some.inj set)
    rfl
  | cons q rest ih =>
    rw [setColumns] at set
    split at set
    · rw [ih set, List.length_set]
    · cases set

theorem foldl_deallocateColumn (cols : List Column) (m : Strings) (p : Nat) :
    (cols.foldl Strings.deallocateColumn m).freed.count p = m.freed.count p + pointers cols p ∧
      (cols.foldl Strings.deallocateColumn m).held = m.held := by
  induction cols generalizing m with
  | nil => exact ⟨rfl, rfl⟩
  | cons c cols ih =>
    obtain ⟨later, held⟩ := ih (m.deallocateColumn c)
    have first := deallocateColumn_balance m c p
    refine ⟨?_, held⟩
    rw [List.foldl_cons, later, first]
    simp only [pointers, List.count_cons, List.count_nil]
    omega

theorem deallocateAfterUpdate_balance (r : ValueArray) (sorted : changes.Pairwise fun p q => p.1 < q.1) (m : Strings)
    (p : Nat) : (r.deallocateAfterUpdate changes m).freed.count p = m.freed.count p + replaced r.cols changes p ∧
      (r.deallocateAfterUpdate changes m).held = m.held := by
  induction changes generalizing m with
  | nil => exact ⟨rfl, rfl⟩
  | cons q rest ih =>
    obtain ⟨idx, v⟩ := q
    obtain ⟨below, sorted⟩ := List.pairwise_cons.mp sorted
    rw [ValueArray.deallocateAfterUpdate]
    split
    · obtain ⟨later, held⟩ := ih sorted (m.deallocateColumn (r.cols.getD idx none))
      have first := deallocateColumn_balance m (r.cols.getD idx none) p
      refine ⟨?_, held⟩
      rw [later, first, replaced_cons]
      omega
    · -- the changes are increasing, so that those left name no old column either
      rename_i past
      have none_ : ∀ q ∈ (idx, v) :: rest, pointers [r.cols.getD q.1 none] p = 0 := by
        intro q named
        have wide : r.cols.length ≤ q.1 := by
          rcases List.mem_cons.mp named with rfl | later
          · exact Nat.le_of_not_lt past
          · exact Nat.le_trans (Nat.le_of_not_lt past) (Nat.le_of_lt (below q later))
        rw [List.getD_eq_default _ _ wide]
        rfl
      have zero : replaced r.cols ((idx, v) :: rest) p = 0 := by
        rw [replaced, List.map_congr_left none_, List.map_const', List.sum_replicate_nat, Nat.mul_zero]
      exact ⟨by omega, rfl⟩

theorem pointers_append (a b : List Column) (p : Nat) : pointers (a ++ b) p = pointers a p + pointers b p :=
  List.count_append

theorem pointers_replicate (n p : Nat) : pointers (List.replicate n none) p = 0 := by
  rw [pointers, List.count_eq_zero]
  intro mem
  cases (List.mem_replicate.mp mem).2

theorem VersionedArray.setColumns_some (m : Strings) (inside : ∀ p ∈ changes, p.1 < cols.length) :
    ∃ cols' m', setColumns changes cols m = some (cols', m') := by
  induction changes generalizing cols m with
  | nil => exact ⟨cols, m, rfl⟩
  | cons q rest ih =>
    obtain ⟨here, later⟩ := List.forall_mem_cons.mp inside
    rw [setColumns, if_pos here]
    exact ih _ fun p mem => by rw [List.length_set]; exact later p mem

theorem VersionedArray.setColumns_length (set : setColumns changes cols m = some (values', m')) :
    values'.length = cols.length := by
  induction changes generalizing m cols with
  | nil =>
    obtain ⟨rfl, -⟩ := Prod.mk.inj (Option.some.inj set)
    rfl
  | cons q rest ih =>
    obtain ⟨idx, v⟩ := q
    rw [setColumns] at set
    split at set
    · have later := @ih ((m.deallocateColumn (cols.getD idx none)).makeColumn v).2
        (cols.set idx ((m.deallocateColumn (cols.getD idx none)).makeColumn v).1) set
      rw [later, List.length_set]
    · cases set

/-- A row has as many columns as there is room for. -/
def VersionedArray.Whole (r : VersionedArray) : Prop := r.ncol = r.cap

theorem VersionedArray.Whole.extended {r : VersionedArray} (whole : r.Whole) (n : Nat) :
    r.extended n = r.cols ++ List.replicate (n - r.ncol) none := by
  have size : r.cols.length = r.ncol := whole.symm
  rw [VersionedArray.extended, ← size, List.take_length, List.drop_eq_nil_of_le (Nat.le_max_left _ _), List.append_nil]

theorem VersionedArray.update_balance {r row : VersionedArray} {ts : Nat} {copy here : Bool} (whole : r.Whole)
    (updated : r.update changes ts m copy = some (row, here, m')) : row.Whole ∧ ∀ p,
      pointers row.cols p + m'.freed.count p + m.allocated p =
        pointers r.cols p + m.freed.count p + m'.allocated p := by
  have balance (n : Nat) {cols' : List Column} {m' : Strings}
      (set : setColumns changes (r.cols ++ List.replicate (n - r.ncol) none) m = some (cols', m')) (p : Nat) :
      pointers cols' p + m'.freed.count p + m.allocated p = pointers r.cols p + m.freed.count p + m'.allocated p := by
    have balance := setColumns_balance set p
    rw [pointers_append, pointers_replicate] at balance
    exact balance
  have size : r.cols.length = r.ncol := whole.symm
  simp only [update, Option.bind_eq_bind, Option.bind_eq_some_iff, whole.extended] at updated
  obtain ⟨⟨last, v⟩, -, updated⟩ := updated
  dsimp only at updated
  split at updated
  · split at updated
    · split at updated
      · rename_i le
        have all : (r.cols ++ List.replicate (last + 1 - r.ncol) none).take (last + 1) =
            r.cols ++ List.replicate (last + 1 - r.ncol) none := by
          apply List.take_of_length_le
          rw [List.length_append, List.length_replicate]
          omega
        rw [all] at updated
        obtain ⟨⟨cols', m''⟩, set, same⟩ := Option.bind_eq_some_iff.mp updated
        cases same
        refine ⟨?_, balance _ set⟩
        have length := setColumns_length set
        rw [List.length_append, List.length_replicate] at length
        change last + 1 = cols'.length
        omega
      · cases updated
    · rename_i inside
      obtain ⟨⟨cols', m''⟩, set, same⟩ := Option.bind_eq_some_iff.mp updated
      cases same
      refine ⟨?_, balance _ set⟩
      have length := setColumns_length set
      have room : ¬ r.cols.length < last + 1 := fun small => inside (.inl small)
      rw [List.length_append, List.length_replicate] at length
      change max r.ncol (last + 1) = cols'.length
      omega
  · cases updated

theorem ValueArray.update_balance {r row : ValueArray} {ts : Nat} (sorted : changes.Pairwise fun p q => p.1 < q.1)
    (updated : r.update changes ts m = some (row, m')) : row.ncol < shortLimit ∧ m'.freed = m.freed ∧ ∀ p,
      pointers row.cols p + replaced r.cols changes p + m.allocated p = pointers r.cols p + m'.allocated p := by
  simp only [update, Option.bind_eq_bind, Option.bind_eq_some_iff] at updated
  obtain ⟨⟨last, v⟩, -, updated⟩ := updated
  dsimp only at updated
  split at updated
  · rename_i narrow
    obtain ⟨⟨cols', m''⟩, set, same⟩ := Option.bind_eq_some_iff.mp updated
    cases same
    refine ⟨?_, (setColumns_balance sorted set 0).2, ?_⟩
    · have length := setColumns_length set
      rw [List.length_append, List.length_replicate] at length
      have wide : r.cols.length ≤ max r.ncol (last + 1) := Nat.le_max_left ..
      have short := narrow.2
      change cols'.length < shortLimit
      unfold ncol at *
      omega
    · intro p
      have balance := (setColumns_balance sorted set p).1
      rw [pointers_append, pointers_replicate, replaced_append] at balance
      exact balance
  · cases updated

end holds

end Masstree
