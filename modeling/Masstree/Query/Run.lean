import Masstree.Lib.OrderedMap
import Masstree.Log.Sequential
import Masstree.Msgpack.Json
import Masstree.Row.Columns
import Masstree.Tree.Scan

/-!
# The query layer

`query::run_get`, `run_get1`, `run_put`, `run_replace`, `run_remove`, `run_scan` and `run_rscan` on a table with its
rows in key order. Replies are built in place over the request array. A failed assertion is `none`.
-/

namespace Masstree
open Msgpack (Bytes Json)
open Masstree.Tree (keybufSize)

/-- A server whose table is in key order. -/
structure Store where
  rows : OrderedMap Bytes ValueBag := .empty
  phantom : Nat → Nat := fun _ => 0
  ts : Nat := 2

/-- An element of a reply. An array of columns has no form in `Json`. -/
inductive Item where
  | json (j : Json)
  | columns (cs : List Json)
  deriving DecidableEq, Repr

inductive Result where
  | inserted
  | updated
  deriving DecidableEq, Repr

/-- `Inserted` and `Updated` of `result_t` -/
def Result.code : Result → Int
  | .inserted => 1
  | .updated => 2

def short (x : Int) : Int := x.bmod (2 ^ 16)

/-- What replies are made of in a row of some type. A `Str()`, which points nowhere, is `none`. -/
structure RowView where
  ncol : Nat
  col : Int → Option Bytes

/-- `String::make_stable`, as a `Json`: without data it is null. -/
def stable (s : Option Bytes) : Json := s.elim .null .str

def RowView.emitFields (f : List Int) (row : RowView) : List Json :=
  if f.isEmpty then (List.range row.ncol).map fun i : Nat => stable (row.col i) else f.map fun c => stable (row.col c)

/-- `query::emit_fields1`, whose value starts as null. -/
def RowView.emitFields1 (f : List Int) (row : RowView) : Item :=
  if f.isEmpty ∧ row.ncol = 1 ∨ f.length = 1 then .json (stable (row.col (f.headD 0)))
  else match row.emitFields f with
    | [] => .json .null
    | cs => .columns cs

/-- `value_bag::col` of an `int` -/
def ValueBag.strAt (r : ValueBag) (c : Int) : Option Bytes := if 0 ≤ c ∧ c < r.ncol then some (r.col c.toNat) else none

/-- The bytes of `value_bag::col` -/
def ValueBag.colAt (r : ValueBag) (c : Int) : Bytes := (r.strAt c).getD []

def ValueBag.view (r : ValueBag) : RowView := ⟨r.ncol, r.strAt⟩

/-- A row that is found and is no marker. -/
def ordinary (value : Option ValueBag) : Option ValueBag := value.filter fun row => !rowIsMarker row

/-- `f_`, from the elements of the request. -/
def fieldsOf (js : List Json) : Option (List Int) := js.mapM fun j => j.asI.map short

def string (v : Bytes) : Item := .json (.str v)

namespace Store

def server (s : Store) : Server := { table := s.rows.find, phantom := s.phantom, ts := s.ts }

/-- The leaves change as the cursor finds its place. -/
def moved (s : Store) (site : Site) : Store := { s with phantom := Server.move s.phantom site.moves }

def seen (s : Store) (site : Site) (key : Bytes) : Nat := s.server.seen site key

def store (s : Store) (key : Bytes) (row : ValueBag) (times : QueryTimes) : Store :=
  { s with rows := s.rows.insert key row, ts := times.ts }

/-- `query::run_get`. Without an ordinary row the request stays as it is. -/
def runGet (s : Store) (request : List Json) : Option (List Item) := do
  let key ← (request.getD 2 .null).asS
  match ordinary (s.rows.find key) with
  | none => some (request.map .json)
  | some row => do
    let f ← fieldsOf (request.drop 3)
    some ((request.take 2).map .json ++ (row.view.emitFields f).map .json)

def runGet1 (s : Store) (key : Bytes) (col : Int) : Option Bytes :=
  (ordinary (s.rows.find key)).map (·.colAt col)

/-- What `run_put` and `run_replace` return. -/
def inserts (value : Option ValueBag) : Result :=
  match value with
  | none => .inserted
  | some old => if rowIsMarker old then .inserted else .updated

def runPut (s : Store) (site : Site) (key : Bytes) (changes : Changes) : Option (Store × QueryTimes × Result) :=
  let s := s.moved site
  if s.server.takes site key then do
    let (row, times) ← applyPut (s.seen site key) (s.rows.find key) changes
    some (s.store key row times, times, inserts (s.rows.find key))
  else none

def runReplace (s : Store) (site : Site) (key value : Bytes) : Option (Store × QueryTimes × Result) :=
  let s := s.moved site
  if s.server.takes site key then
    let (row, times) := applyReplace (s.seen site key) (s.rows.find key) value
    some (s.store key row times, times, inserts (s.rows.find key))
  else none

/-- `query::run_remove`. The times are those of the row it finds. -/
def runRemove (s : Store) (site : Site) (key : Bytes) : Store × Option QueryTimes :=
  let s := s.moved site
  match s.rows.find key with
  | none => (s, none)
  | some old =>
    let (times, nodeTs) := applyRemove s.ts (s.phantom site.leaf) old
    ({ rows := s.rows.erase key, ts := times.ts, phantom := Function.update s.phantom site.leaf nodeTs }, some times)

/-- `query_json_scanner::visit_value` over the rows of a scan, with `nleft_` left. -/
def visit (f : List Int) : List (Bytes × ValueBag) → Int → Option (List Item)
  | [], _ => some []
  | (key, row) :: rest, nleft =>
    if keybufSize < key.length then none
    else if rowIsMarker row then visit f rest nleft
    else if nleft = -2 ^ 31 then none
    else if nleft - 1 = 0 then some [string key, row.view.emitFields1 f]
    else (visit f rest (nleft - 1)).map ([string key, row.view.emitFields1 f] ++ ·)

/-- The rows a scan passes until `nleft` of them are reported. -/
def met : List (Bytes × ValueBag) → Int → List (Bytes × ValueBag)
  | [], _ => []
  | p :: rest, nleft => p :: if rowIsMarker p.2 then met rest nleft else if nleft - 1 = 0 then [] else met rest (nleft - 1)

/-- The rows on the way of a scan from `first`, with `first` itself. -/
def scanned (s : Store) (reverse : Bool) (first : Bytes) : List (Bytes × ValueBag) :=
  if reverse then s.rows.downFrom first else s.rows.upFrom first

def runScan (s : Store) (reverse : Bool) (request : List Json) : Option (List Item) := do
  let count ← (request.getD 3 .null).asI
  if 0 < count then do
    let f ← fieldsOf (request.drop 4)
    let first ← (request.getD 2 .null).asS
    if first.length ≤ keybufSize then
      (visit f (s.scanned reverse first) (count.bmod (2 ^ 32))).map ((request.take 2).map .json ++ ·)
    else none
  else none

/-! ### The map the store stands for -/

def contents (s : Store) (key : Bytes) : Option (List Bytes) := (ordinary (s.rows.find key)).map ValueBag.columns

/-- A row laid out within its 16-bit offsets. -/
def LaidOut (row : ValueBag) : Prop :=
  ∃ cols, ValueBag.layoutSize cols < 2 ^ 16 ∧ row = ValueBag.ofColumns row.ts cols

/-- Rows are ordinary or markers, and no row the threads write will be a marker. -/
structure Valid (s : Store) : Prop where
  rows : ∀ key row, ordinary (s.rows.find key) = some row → LaidOut row
  ts : s.ts % 2 = 0
  phantom : ∀ leaf, s.phantom leaf % 2 = 0

theorem valid_initial : Valid {} := ⟨by simp [ordinary], rfl, fun _ => rfl⟩

end Store

/-- What a column number that is not cut off asks for. -/
def columnAt (cols : List Bytes) (c : Int) : Option Bytes := if 0 ≤ c then cols[c.toNat]? else none

/-- The requested columns, or all of them. One that the row does not have is null. -/
def select (columns : List Int) (cols : List Bytes) : List Json :=
  if columns.isEmpty then cols.map .str else columns.map fun c => stable (columnAt cols c)

/-- A row in the reply of a scan. One column is not put in an array. -/
def reported : List Json → Item
  | [] => .json .null
  | [c] => .json c
  | cs => .columns cs

/-- The queries, with their column numbers as the request has them. -/
inductive Query where
  | get (seq command : Json) (key : Bytes) (columns : List Int)
  | get1 (key : Bytes) (column : Int)
  | put (key : Bytes) (changes : Changes)
  | replace (key value : Bytes)
  | remove (key : Bytes)
  | scan (reverse : Bool) (seq command : Json) (first : Bytes) (count : Int) (columns : List Int)

namespace Store

/-- The rows a scan with enough room reports. -/
def inRange (s : Store) (reverse : Bool) (first : Bytes) : List (Bytes × List Bytes) :=
  ((s.scanned reverse first).filter fun p => !rowIsMarker p.2).map fun p => (p.1, p.2.columns)

def scanReply (columns : List Int) (found : List (Bytes × List Bytes)) : List Item :=
  found.flatMap fun p => [string p.1, reported (select columns p.2)]

/-- The query does what it does to a map from keys to columns, and leaves a table it can be asked of again. -/
def Correct (s : Store) (site : Site) : Query → Prop
  | .get seq command key columns => ∃ reply,
      s.runGet (seq :: command :: .str key :: columns.map .int) = some reply ∧
        match s.contents key with
        | some cols => reply = [.json seq, .json command] ++ (select columns cols).map .json
        | none => reply.length ≤ 2
  | .get1 key column => s.runGet1 key column = (s.contents key).map fun cols => (columnAt cols column).getD []
  | .put key changes => changes.Pairwise (fun p q => p.1 < q.1) ∧
      ∃ s' times result, s.runPut site key changes = some (s', times, result) ∧ s'.Valid ∧
        (result = .inserted ↔ s.contents key = none) ∧
        s'.contents = Function.update s.contents key (some (applyChanges ((s.contents key).getD []) changes))
  | .replace key value => ∃ s' times result, s.runReplace site key value = some (s', times, result) ∧ s'.Valid ∧
      (result = .inserted ↔ s.contents key = none) ∧ s'.contents = Function.update s.contents key (some [value])
  | .remove key => ∃ s' times, s.runRemove site key = (s', times) ∧ s'.Valid ∧
      (times.isSome ↔ (s.contents key).isSome) ∧ s'.contents = Function.update s.contents key none
  | .scan reverse seq command first count columns =>
      s.runScan reverse (seq :: command :: .str first :: .int count :: columns.map .int) =
        some ([.json seq, .json command] ++ scanReply columns ((s.inRange reverse first).take count.toNat))

/-- The column numbers read the same once they are cut off. -/
def ShortReads (columns : List Int) (cols : List Bytes) : Prop :=
  ∀ c ∈ columns, columnAt cols (short c) = columnAt cols c

/-- A count that is negative as an `int` reaches zero only by overflow. -/
def CountFits (count : Int) (found : Nat) : Prop :=
  let n := count.bmod (2 ^ 32)
  n = count ∨ 0 < n ∧ found ≤ n ∨ n ≤ 0 ∧ found ≤ n + 2 ^ 31

def Answers (s : Store) (site : Site) : Query → Prop
  | .get _ _ key columns => ∃ cols, s.contents key = some cols ∧ ShortReads columns cols
  | .get1 _ _ => True
  | .put key changes => s.server.takes site key = true ∧ changes.Pairwise (fun p q => p.1 < q.1) ∧
      ValueBag.layoutSize (applyChanges ((s.contents key).getD []) changes) < 2 ^ 16
  | .replace key value => s.server.takes site key = true ∧ ValueBag.layoutSize [value] < 2 ^ 16
  | .remove key => ∀ row, s.rows.find key = some row → rowIsMarker row = false
  | .scan reverse _ _ first count columns => 0 < count ∧ first.length ≤ keybufSize ∧
      (∀ p ∈ met (s.scanned reverse first) (count.bmod (2 ^ 32)), p.1.length ≤ keybufSize) ∧
      CountFits count (s.inRange reverse first).length ∧
      ∀ p ∈ (s.inRange reverse first).take count.toNat, ShortReads columns p.2

end Store

/-! ### Reading rows -/

section reading
variable {cols : List Bytes} {ts : Nat}

theorem ordinary_eq_some {value : Option ValueBag} {row : ValueBag} :
    ordinary value = some row ↔ value = some row ∧ rowIsMarker row = false := by
  simp [ordinary, Option.filter_eq_some_iff]

theorem strAt_ofColumns (fits : ValueBag.layoutSize cols < 2 ^ 16) (c : Int) :
    (ValueBag.ofColumns ts cols).strAt c = columnAt cols c := by
  have ncol : (ValueBag.ofColumns ts cols).ncol = cols.length := rfl
  unfold ValueBag.strAt columnAt
  rw [ValueBag.ofColumns_col fits, ncol]
  by_cases low : 0 ≤ c
  · by_cases high : c < cols.length
    · rw [if_pos ⟨low, high⟩, if_pos low, List.getElem?_eq_getElem (by omega), List.getD_eq_getElem _ _ (by omega)]
    · rw [if_neg (fun h => high h.2), if_pos low, List.getElem?_eq_none (by omega)]
  · rw [if_neg (fun h => low h.1), if_neg low]

theorem emitFields_ofColumns (fits : ValueBag.layoutSize cols < 2 ^ 16) (f : List Int) :
    (ValueBag.ofColumns ts cols).view.emitFields f = select f cols := by
  have ncol : (ValueBag.ofColumns ts cols).view.ncol = cols.length := rfl
  have col : (ValueBag.ofColumns ts cols).view.col = columnAt cols := funext (strAt_ofColumns fits)
  unfold RowView.emitFields select
  rw [ncol, col]
  split
  · refine List.ext_getElem (by simp) fun i low high => ?_
    have inside : i < cols.length := by simpa using high
    simp [columnAt, stable, List.getElem?_eq_getElem inside]
  · rfl

theorem emitFields1_ofColumns (fits : ValueBag.layoutSize cols < 2 ^ 16) (f : List Int) :
    (ValueBag.ofColumns ts cols).view.emitFields1 f = reported (select f cols) := by
  have ncol : (ValueBag.ofColumns ts cols).view.ncol = cols.length := rfl
  have col : (ValueBag.ofColumns ts cols).view.col = columnAt cols := funext (strAt_ofColumns fits)
  unfold RowView.emitFields1
  rw [emitFields_ofColumns fits, ncol, col]
  rcases f with _ | ⟨c, _ | ⟨d, f⟩⟩
  · rcases cols with _ | ⟨v, _ | ⟨w, cols⟩⟩
    · rfl
    · rfl
    · rfl
  · rfl
  · rfl

theorem stable_injective : Function.Injective stable := by
  intro a b same
  cases a <;> cases b <;> simp_all [stable]

/-- A row without columns is reported as one null column is. -/
theorem reported_inj {a b : List Json} (length : a.length = b.length) : reported a = reported b ↔ a = b := by
  rcases a with _ | ⟨x, _ | ⟨y, a⟩⟩ <;> rcases b with _ | ⟨z, _ | ⟨w, b⟩⟩ <;> simp_all [reported]

theorem select_length (columns : List Int) (cols : List Bytes) :
    (select (columns.map short) cols).length = (select columns cols).length := by
  unfold select
  rw [List.isEmpty_map]
  split <;> simp

theorem select_short (columns : List Int) (cols : List Bytes) :
    select (columns.map short) cols = select columns cols ↔ Store.ShortReads columns cols := by
  unfold select Store.ShortReads
  rw [List.isEmpty_map]
  split
  · rename_i none_
    rw [List.isEmpty_iff] at none_
    simp [none_]
  · rw [List.map_map, List.map_inj_left]
    exact forall₂_congr fun c _ => stable_injective.eq_iff

end reading

namespace Store

theorem LaidOut.columns {row : ValueBag} (laid : LaidOut row) :
    ValueBag.layoutSize row.columns < 2 ^ 16 ∧ row = ValueBag.ofColumns row.ts row.columns := by
  obtain ⟨cols, fits, same⟩ := laid
  have read : row.columns = cols := by
    rw [same]
    exact ValueBag.ofColumns_columns fits
  rw [read]
  exact ⟨fits, same⟩

theorem LaidOut.emitFields {row : ValueBag} (laid : LaidOut row) (f : List Int) :
    row.view.emitFields f = select f row.columns := by
  obtain ⟨fits, same⟩ := laid.columns
  conv_lhs => rw [same]
  exact emitFields_ofColumns fits f

theorem LaidOut.emitFields1 {row : ValueBag} (laid : LaidOut row) (f : List Int) :
    row.view.emitFields1 f = reported (select f row.columns) := by
  obtain ⟨fits, same⟩ := laid.columns
  conv_lhs => rw [same]
  exact emitFields1_ofColumns fits f

theorem laidOut_ofColumns {cols : List Bytes} (fits : ValueBag.layoutSize cols < 2 ^ 16) (ts : Nat) :
    LaidOut (ValueBag.ofColumns ts cols) := ⟨cols, fits, rfl⟩

variable {s : Store}

theorem Valid.contents_fits (valid : s.Valid) {key : Bytes} {cols : List Bytes} (found : s.contents key = some cols) :
    ValueBag.layoutSize cols < 2 ^ 16 := by
  obtain ⟨row, ordinary_, same⟩ := Option.map_eq_some_iff.mp found
  rw [← same]
  exact (valid.rows key row ordinary_).columns.1

/-! ### Scans -/

/-- The reply of a scan whose columns are cut off. -/
def shortReply (columns : List Int) (found : List (Bytes × List Bytes)) : List Item :=
  found.flatMap fun p => [string p.1, reported (select (columns.map short) p.2)]

/-- What the visitor adds for each row it reports. -/
def report (f : List Int) (p : Bytes × ValueBag) : List Item := [string p.1, p.2.view.emitFields1 f]

/-- A scan that comes to its end has room for the keys it has passed. -/
theorem visit_keys {f : List Int} {rows : List (Bytes × ValueBag)} {n : Int} {found : List Item}
    (visited : visit f rows n = some found) : ∀ p ∈ met rows n, p.1.length ≤ keybufSize := by
  induction rows generalizing n found with
  | nil => exact fun p member => absurd member List.not_mem_nil
  | cons p rest ih =>
    obtain ⟨key, row⟩ := p
    rw [visit, Option.ite_none_left_eq_some] at visited
    obtain ⟨fits, visited⟩ := visited
    rw [met, List.forall_mem_cons]
    refine ⟨Nat.le_of_not_lt fits, ?_⟩
    split at visited
    · rename_i marker
      rw [if_pos marker]
      exact ih visited
    · rename_i plain
      rw [if_neg plain]
      rw [Option.ite_none_left_eq_some] at visited
      obtain ⟨-, visited⟩ := visited
      split at visited
      · rename_i last
        rw [if_pos last]
        exact fun p member => absurd member List.not_mem_nil
      · rename_i more
        rw [if_neg more]
        obtain ⟨found', visited, -⟩ := Option.map_eq_some_iff.mp visited
        exact ih visited

theorem visit_eq (f : List Int) {rows : List (Bytes × ValueBag)} {n : Int}
    (keys : ∀ p ∈ met rows n, p.1.length ≤ keybufSize) (least : -2 ^ 31 ≤ n) :
    visit f rows n = if 0 < n then some (((rows.filter fun p => !rowIsMarker p.2).take n.toNat).flatMap (report f))
      else if (rows.filter fun p => !rowIsMarker p.2).length ≤ n + 2 ^ 31 then
        some ((rows.filter fun p => !rowIsMarker p.2).flatMap (report f))
      else none := by
  induction rows generalizing n with
  | nil =>
    have room : ((([] : List (Bytes × ValueBag)).filter fun p => !rowIsMarker p.2).length : Int) ≤ n + 2 ^ 31 := by
      rw [List.filter_nil, List.length_nil]
      omega
    rw [visit, if_pos room, List.filter_nil, List.take_nil, List.flatMap_nil, ite_self]
  | cons p rest ih =>
    obtain ⟨key, row⟩ := p
    have fits : ¬ keybufSize < key.length := Nat.not_lt.mpr (keys _ List.mem_cons_self)
    have later := fun p member => keys p (List.mem_cons_of_mem _ member)
    dsimp only at later
    rw [visit, if_neg fits]
    cases marker : rowIsMarker row with
    | true =>
      rw [marker, if_pos rfl] at later
      rw [if_pos rfl, ih later least, List.filter_cons_of_neg (by simp [marker])]
    | false =>
      rw [marker, if_neg Bool.false_ne_true] at later
      have kept : ((key, row) :: rest).filter (fun p => !rowIsMarker p.2) =
          (key, row) :: rest.filter fun p => !rowIsMarker p.2 := List.filter_cons_of_pos (by simp [marker])
      rw [if_neg Bool.false_ne_true, kept]
      generalize hfound : rest.filter (fun p => !rowIsMarker p.2) = found at ih
      by_cases lowest : n = -2 ^ 31
      · have tight : ¬ (((key, row) :: found).length : Int) ≤ n + 2 ^ 31 := by
          rw [List.length_cons]
          omega
        rw [if_pos lowest, if_neg (by omega), if_neg tight]
      · rw [if_neg lowest]
        by_cases last : n - 1 = 0
        · have one : n.toNat = 1 := by omega
          rw [if_pos last, if_pos (by omega), one]
          rfl
        · rw [if_neg last] at later
          rw [if_neg last, ih later (by omega)]
          by_cases positive : 0 < n
          · have more : n.toNat = (n - 1).toNat + 1 := by omega
            rw [if_pos (by omega), if_pos positive, more]
            rfl
          · have shift : ((found.length : Int) ≤ n - 1 + 2 ^ 31) ↔ (((key, row) :: found).length : Int) ≤ n + 2 ^ 31 := by
              rw [List.length_cons]
              omega
            rw [if_neg (by omega), if_neg positive]
            by_cases room : (found.length : Int) ≤ n - 1 + 2 ^ 31
            · rw [if_pos room, if_pos (shift.mp room)]
              rfl
            · rw [if_neg room, if_neg (fun h => room (shift.mpr h))]
              rfl

/-- The pieces of a reply are pairs, so a reply determines them. -/
theorem pairs_inj {α β γ : Type} {a : List α} {b : List β} {f g : α → γ} {f' g' : β → γ}
    (same : a.flatMap (fun p => [f p, g p]) = b.flatMap fun p => [f' p, g' p]) :
    a.map (fun p => (f p, g p)) = b.map fun p => (f' p, g' p) := by
  induction a generalizing b with
  | nil =>
    cases b with
    | nil => rfl
    | cons q b => simp at same
  | cons p a ih =>
    cases b with
    | nil => simp at same
    | cons q b =>
      simp only [List.flatMap_cons, List.cons_append, List.nil_append, List.cons.injEq] at same
      obtain ⟨first, second, rest⟩ := same
      rw [List.map_cons, List.map_cons, ih rest, first, second]

/-- The rows of a scan are those in range. -/
theorem mem_scanned {reverse : Bool} {first : Bytes} {p : Bytes × ValueBag} :
    p ∈ s.scanned reverse first ↔
      s.rows.find p.1 = some p.2 ∧ if reverse = true then p.1 ≤ first else first ≤ p.1 := by
  unfold scanned
  cases reverse with
  | true => exact OrderedMap.mem_downFrom
  | false => exact OrderedMap.mem_upFrom

theorem scanned_laidOut (valid : s.Valid) (reverse : Bool) (first : Bytes) :
    ∀ p ∈ (s.scanned reverse first).filter (fun p => !rowIsMarker p.2), LaidOut p.2 := by
  intro p member
  obtain ⟨member, plain⟩ := List.mem_filter.mp member
  exact valid.rows p.1 p.2 (ordinary_eq_some.mpr ⟨(mem_scanned.mp member).1, by simpa using plain⟩)

theorem visit_scanned (valid : s.Valid) (reverse : Bool) (first : Bytes) (columns : List Int) (n : Int)
    (keys : ∀ p ∈ met (s.scanned reverse first) n, p.1.length ≤ keybufSize) (least : -2 ^ 31 ≤ n) :
    visit (columns.map short) (s.scanned reverse first) n =
      if 0 < n then some (shortReply columns ((s.inRange reverse first).take n.toNat))
      else if (s.inRange reverse first).length ≤ n + 2 ^ 31 then some (shortReply columns (s.inRange reverse first))
      else none := by
  have read : ∀ rows : List (Bytes × ValueBag), (∀ p ∈ rows, LaidOut p.2) →
      rows.flatMap (report (columns.map short)) = shortReply columns (rows.map fun p => (p.1, p.2.columns)) := by
    intro rows laid
    rw [shortReply, List.flatMap_map]
    refine List.flatMap_congr fun p member => ?_
    rw [report, (laid p member).emitFields1]
  have laid := scanned_laidOut valid reverse first
  rw [visit_eq _ keys least, inRange, List.length_map, ← List.map_take,
    read _ laid, read _ fun p member => laid p (List.mem_of_mem_take member)]

theorem shortReply_eq {columns : List Int} {found : List (Bytes × List Bytes)} {m k : Nat} :
    shortReply columns (found.take m) = scanReply columns (found.take k) ↔
      min m found.length = min k found.length ∧ ∀ p ∈ found.take k, ShortReads columns p.2 := by
  have cut : min m found.length = min k found.length ↔ found.take m = found.take k := by
    rw [List.take_eq_take_iff]
  constructor
  · intro same
    have pairs := pairs_inj same
    have length := congrArg List.length pairs
    rw [List.length_map, List.length_map, List.length_take, List.length_take] at length
    rw [cut.mp length, List.map_inj_left] at pairs
    refine ⟨length, fun p member => ?_⟩
    have columns_ := (Prod.mk.inj (pairs p member)).2
    exact (select_short columns p.2).mp ((reported_inj (select_length columns p.2)).mp columns_)
  · rintro ⟨length, reads⟩
    rw [cut.mp length, shortReply, scanReply]
    refine List.flatMap_congr fun p member => ?_
    rw [(select_short columns p.2).mpr (reads p member)]

theorem visit_iff (valid : s.Valid) (reverse : Bool) (first : Bytes) {count : Int} (columns : List Int)
    (positive : 0 < count) :
    visit (columns.map short) (s.scanned reverse first) (count.bmod (2 ^ 32)) =
        some (scanReply columns ((s.inRange reverse first).take count.toNat)) ↔
      (∀ p ∈ met (s.scanned reverse first) (count.bmod (2 ^ 32)), p.1.length ≤ keybufSize) ∧
        CountFits count (s.inRange reverse first).length ∧
          ∀ p ∈ (s.inRange reverse first).take count.toNat, ShortReads columns p.2 := by
  by_cases keys : ∀ p ∈ met (s.scanned reverse first) (count.bmod (2 ^ 32)), p.1.length ≤ keybufSize
  swap
  · exact iff_of_false (fun visited => keys (visit_keys visited)) fun fits => keys fits.1
  rw [and_iff_right keys]
  generalize cut : count.bmod (2 ^ 32) = n
  have least : -2 ^ 31 ≤ n := by
    have := @Int.le_bmod count (2 ^ 32) (by decide)
    omega
  obtain ⟨q, turns⟩ : ∃ q, count = n + 2 ^ 32 * q := ⟨count.bdiv (2 ^ 32), by
    have := @Int.bmod_add_bdiv count (2 ^ 32)
    omega⟩
  have most : n < 2 ^ 31 := by
    have := @Int.bmod_lt count (2 ^ 32) (by decide)
    omega
  rw [cut] at keys
  rw [visit_scanned valid reverse first columns n keys least]
  generalize s.inRange reverse first = found
  have counted : CountFits count found.length ↔
      (0 < n ∧ min n.toNat found.length = min count.toNat found.length) ∨ (n ≤ 0 ∧ found.length ≤ n + 2 ^ 31) := by
    unfold CountFits
    rw [cut]
    omega
  by_cases low : 0 < n
  · rw [if_pos low, Option.some_inj, shortReply_eq, counted]
    constructor
    · rintro ⟨length, reads⟩
      exact ⟨.inl ⟨low, length⟩, reads⟩
    · rintro ⟨length | wrong, reads⟩
      · exact ⟨length.2, reads⟩
      · omega
  · rw [if_neg low]
    by_cases room : (found.length : Int) ≤ n + 2 ^ 31
    · have all : found = found.take found.length := List.take_length.symm
      have length : min found.length found.length = min count.toNat found.length := by omega
      have reads := @shortReply_eq columns found found.length count.toNat
      rw [← all] at reads
      rw [if_pos room, Option.some_inj, reads, counted]
      constructor
      · rintro ⟨length, reads⟩
        exact ⟨.inr ⟨by omega, room⟩, reads⟩
      · rintro ⟨-, reads⟩
        exact ⟨length, reads⟩
    · rw [if_neg room]
      constructor
      · intro h
        cases h
      · rintro ⟨length, -⟩
        have := counted.mp length
        omega

theorem fieldsOf_eq (js : List Json) : fieldsOf js = (js.mapM Json.asI).map (·.map short) := by
  unfold fieldsOf
  induction js with
  | nil => rfl
  | cons j js ih =>
    rw [List.mapM_cons, List.mapM_cons, ih]
    cases j.asI with
    | none => rfl
    | some c => cases js.mapM Json.asI <;> rfl

/-- A scan depends on its request only through the numbers and the first key. -/
theorem runScan_eq (s : Store) (reverse : Bool) {request : List Json} {first : Bytes} {count : Int} {columns : List Int}
    (key : request.getD 2 .null = .str first) (number : (request.getD 3 .null).asI = some count)
    (fields : (request.drop 4).mapM Json.asI = some columns) :
    s.runScan reverse request = if 0 < count ∧ first.length ≤ keybufSize then
      (visit (columns.map short) (s.scanned reverse first) (count.bmod (2 ^ 32))).map
        ((request.take 2).map .json ++ ·)
      else none := by
  unfold runScan
  rw [key, number, fieldsOf_eq, fields]
  simp only [Json.asS, Option.bind_eq_bind, Option.bind_some, Option.map_some]
  split
  · rename_i positive
    rw [if_congr (and_iff_right positive) rfl rfl]
  · rename_i negative
    rw [if_neg fun h => negative h.1]

theorem asI_ints (columns : List Int) : (columns.map Json.int).mapM Json.asI = some columns := by
  induction columns with
  | nil => rfl
  | cons c columns ih =>
    rw [List.map_cons, List.mapM_cons, ih]
    rfl

theorem scan_iff (valid : s.Valid) (reverse : Bool) (seq command : Json) (first : Bytes) (count : Int)
    (columns : List Int) (site : Site) :
    s.Correct site (.scan reverse seq command first count columns) ↔
      s.Answers site (.scan reverse seq command first count columns) := by
  have ran := @runScan_eq s reverse (seq :: command :: .str first :: .int count :: columns.map .int) first count
    columns rfl rfl (asI_ints columns)
  unfold Correct Answers
  dsimp only
  rw [ran]
  by_cases allowed : 0 < count ∧ first.length ≤ keybufSize
  · rw [if_pos allowed, ← and_assoc, ← visit_iff valid reverse first columns allowed.1]
    have inj : Function.Injective ([Item.json seq, Item.json command] ++ · : List Item → List Item) :=
      fun a b same => List.append_cancel_left same
    constructor
    · intro whole
      exact ⟨allowed, Option.map_injective inj (whole.trans rfl)⟩
    · rintro ⟨-, same⟩
      rw [same]
      rfl
  · rw [if_neg allowed]
    constructor
    · intro h
      cases h
    · rintro ⟨positive, short, -⟩
      exact absurd ⟨positive, short⟩ allowed

/-! ### Gets -/

theorem runGet_absent {request : List Json} {key : Bytes} (named : request.getD 2 .null = .str key)
    (absent : s.contents key = none) : s.runGet request = some (request.map .json) := by
  have none_ : ordinary (s.rows.find key) = none := Option.map_eq_none_iff.mp absent
  unfold runGet
  rw [named]
  simp only [Json.asS, Option.bind_eq_bind, Option.bind_some, none_]

theorem runGet_present (valid : s.Valid) {request : List Json} {key : Bytes} {cols : List Bytes}
    (named : request.getD 2 .null = .str key) (present : s.contents key = some cols) :
    s.runGet request = ((request.drop 3).mapM Json.asI).map fun columns =>
      (request.take 2).map .json ++ (select (columns.map short) cols).map Item.json := by
  obtain ⟨row, found, rfl⟩ := Option.map_eq_some_iff.mp present
  unfold runGet
  rw [named]
  simp only [Json.asS, Option.bind_eq_bind, Option.bind_some, found, fieldsOf_eq]
  cases (request.drop 3).mapM Json.asI with
  | none => rfl
  | some columns => simp only [Option.map_some, Option.bind_some, (valid.rows key row found).emitFields]

theorem items_iff (columns : List Int) (cols : List Bytes) :
    (select (columns.map short) cols).map Item.json = (select columns cols).map Item.json ↔ ShortReads columns cols := by
  have items : Function.Injective Item.json := fun a b same => Item.json.inj same
  rw [items.list_map.eq_iff, select_short]

theorem get_iff (valid : s.Valid) (seq command : Json) (key : Bytes) (columns : List Int) (site : Site) :
    s.Correct site (.get seq command key columns) ↔ s.Answers site (.get seq command key columns) := by
  have named : (seq :: command :: Json.str key :: columns.map Json.int).getD 2 .null = .str key := rfl
  unfold Correct Answers
  dsimp only
  cases found : s.contents key with
  | none =>
    rw [runGet_absent named found]
    constructor
    · rintro ⟨reply, same, short⟩
      rw [← Option.some_inj.mp same] at short
      simp at short
    · rintro ⟨cols, present, -⟩
      cases present
  | some cols =>
    have ran := runGet_present valid named found
    rw [List.drop_succ_cons, List.drop_succ_cons, List.drop_succ_cons, List.drop_zero, asI_ints, Option.map_some] at ran
    rw [ran]
    constructor
    · rintro ⟨reply, same, whole⟩
      dsimp only at whole
      rw [← Option.some_inj.mp same] at whole
      exact ⟨cols, rfl, (items_iff columns cols).mp (List.append_cancel_left whole)⟩
    · rintro ⟨cols, same, reads⟩
      cases same
      exact ⟨_, rfl, congrArg _ ((items_iff columns _).mpr reads)⟩

theorem get1_correct (valid : s.Valid) (key : Bytes) (column : Int) (site : Site) :
    s.Correct site (.get1 key column) := by
  unfold Correct
  dsimp only
  unfold runGet1 contents
  rw [Option.map_map]
  refine Option.map_congr fun row found => ?_
  obtain ⟨fits, same⟩ := (valid.rows key row found).columns
  conv_lhs => rw [same]
  exact congrArg (Option.getD · []) (strAt_ofColumns fits column)

/-! ### Changes -/

theorem contents_store (s : Store) (key : Bytes) {cols : List Bytes} (fits : ValueBag.layoutSize cols < 2 ^ 16)
    {times : QueryTimes} (even : times.ts % 2 = 0) :
    (s.store key (ValueBag.ofColumns times.ts cols) times).contents = Function.update s.contents key (some cols) := by
  have plain : ordinary (some (ValueBag.ofColumns times.ts cols)) = some (ValueBag.ofColumns times.ts cols) :=
    ordinary_eq_some.mpr ⟨rfl, by simp [rowIsMarker, ValueBag.timestamp, ValueBag.ofColumns, even]⟩
  funext key'
  unfold contents store
  rw [OrderedMap.find_insert, Function.update_apply, Function.update_apply]
  split
  · rw [plain, Option.map_some, ValueBag.ofColumns_columns fits]
  · rfl

theorem Valid.store (valid : s.Valid) {key : Bytes} {cols : List Bytes}
    (fits : ValueBag.layoutSize cols < 2 ^ 16) {times : QueryTimes} (even : times.ts % 2 = 0) :
    (s.store key (ValueBag.ofColumns times.ts cols) times).Valid where
  rows key' row found := by
    rw [Store.store, OrderedMap.find_insert, Function.update_apply] at found
    split at found
    · rw [← Option.some_inj.mp (ordinary_eq_some.mp found).1]
      exact laidOut_ofColumns fits _
    · exact valid.rows key' row found
  ts := even
  phantom := valid.phantom

theorem Valid.moved (valid : s.Valid) (site : Site) : (s.moved site).Valid :=
  ⟨valid.rows, valid.ts, Server.move_even valid.phantom site.moves⟩

theorem time_mod {live : Server} (ts : live.ts % 2 = 0) (phantom : ∀ leaf, live.phantom leaf % 2 = 0) (site : Site)
    (key : Bytes) : live.seen site key % 2 = 0 := by
  have observed := phantom site.leaf
  unfold Server.seen observePhantoms
  split
  · split
    · exact observed
    · exact ts
  · exact ts

theorem seen_mod (valid : s.Valid) (site : Site) (key : Bytes) : s.seen site key % 2 = 0 :=
  @time_mod s.server valid.ts valid.phantom site key

theorem inserts_iff {value : Option ValueBag} : inserts value = .inserted ↔ ordinary value = none := by
  cases value with
  | none => simp [inserts, ordinary]
  | some old =>
    cases marker : rowIsMarker old <;> simp [inserts, ordinary, marker]

/-- `apply_put` by increasing columns, as long as the result fits. -/
theorem applyPut_eq {value : Option ValueBag} {changes : Changes} {ts : Nat} (even : ts % 2 = 0)
    (laid : ∀ row, ordinary value = some row → LaidOut row) (sorted : changes.Pairwise fun p q => p.1 < q.1)
    (fits : ValueBag.layoutSize (applyChanges (((ordinary value).map ValueBag.columns).getD []) changes) < 2 ^ 16) :
    ∃ times : QueryTimes, times.ts % 2 = 0 ∧ applyPut ts value changes =
      some (ValueBag.ofColumns times.ts (applyChanges (((ordinary value).map ValueBag.columns).getD []) changes), times) := by
  cases value with
  | none => exact ⟨⟨ts, 0⟩, even, by rw [applyPut, ValueBag.create_eq sorted fits]; rfl⟩
  | some old =>
    have stamp := @Server.updateTimestamp_even ts old.timestamp even
    cases marker : rowIsMarker old with
    | true =>
      have none_ : ordinary (some old) = none := by simp [ordinary, marker]
      rw [none_] at fits ⊢
      refine ⟨⟨updateTimestamp ts old.timestamp, 0⟩, stamp, ?_⟩
      rw [applyPut]
      dsimp only
      rw [if_pos marker, ValueBag.create_eq sorted fits]
      rfl
    | false =>
      have found : ordinary (some old) = some old := ordinary_eq_some.mpr ⟨rfl, marker⟩
      obtain ⟨small, same⟩ := (laid old found).columns
      rw [found] at fits ⊢
      refine ⟨⟨updateTimestamp ts old.timestamp, old.timestamp⟩, stamp, ?_⟩
      have updated := @ValueBag.update_ofColumns old.columns changes old.ts (updateTimestamp ts old.timestamp) sorted small fits
      rw [← same] at updated
      rw [applyPut]
      dsimp only
      rw [if_neg (by simp [marker]), updated]
      rfl

theorem put_iff (valid : s.Valid) (key : Bytes) (changes : Changes) (site : Site) :
    s.Correct site (.put key changes) ↔ s.Answers site (.put key changes) := by
  have valid' := valid.moved site
  unfold Correct Answers
  dsimp only
  constructor
  · rintro ⟨sorted, s', times, result, ran, after, -, holds⟩
    have stored : s'.contents key = some (applyChanges ((s.contents key).getD []) changes) := by
      rw [holds, Function.update_self]
    exact ⟨(Option.ite_none_right_eq_some.mp ran).1, sorted, after.contents_fits stored⟩
  · rintro ⟨takes, sorted, fits⟩
    obtain ⟨times, even, applied⟩ := applyPut_eq (seen_mod valid' site key)
      (fun row found => valid.rows key row found) sorted fits
    refine ⟨sorted, _, times, inserts (s.rows.find key), ?_, valid'.store fits even, ?_,
      contents_store (s.moved site) key fits even⟩
    · have same : (s.moved site).rows = s.rows := rfl
      have takes' : (s.moved site).server.takes site key = true := takes
      rw [runPut]
      dsimp only
      rw [if_pos takes', same, applied]
      rfl
    · rw [inserts_iff, contents, Option.map_eq_none_iff]

theorem replace_iff (valid : s.Valid) (key value : Bytes) (site : Site) :
    s.Correct site (.replace key value) ↔ s.Answers site (.replace key value) := by
  have valid' := valid.moved site
  unfold Correct Answers
  dsimp only
  constructor
  · rintro ⟨s', times, result, ran, after, -, holds⟩
    have stored : s'.contents key = some [value] := by rw [holds, Function.update_self]
    exact ⟨(Option.ite_none_right_eq_some.mp ran).1, after.contents_fits stored⟩
  · rintro ⟨takes, fits⟩
    have seen := seen_mod valid' site key
    obtain ⟨row, times, applied⟩ : ∃ row times,
        applyReplace ((s.moved site).seen site key) (s.rows.find key) value = (row, times) := ⟨_, _, rfl⟩
    have even : times.ts % 2 = 0 := by
      have time := congrArg (fun r => r.2.ts) applied
      dsimp only at time
      rw [← time]
      unfold applyReplace
      cases s.rows.find key with
      | none => exact seen
      | some old => exact Server.updateTimestamp_even seen
    have laid : row = ValueBag.ofColumns times.ts [value] := by
      unfold applyReplace at applied
      obtain ⟨made, time⟩ := Prod.mk.inj applied
      rw [time] at made
      rw [← made]
      exact ValueBag.create1_eq fits
    have ran : s.runReplace site key value =
        some ((s.moved site).store key row times, times, inserts (s.rows.find key)) := by
      have same : (s.moved site).rows = s.rows := rfl
      have takes' : (s.moved site).server.takes site key = true := takes
      rw [runReplace]
      dsimp only
      rw [if_pos takes', same, applied]
    rw [ran, laid]
    refine ⟨_, times, _, rfl, valid'.store fits even, ?_, contents_store (s.moved site) key fits even⟩
    rw [inserts_iff, contents, Option.map_eq_none_iff]

theorem contents_erase (s : Store) (key : Bytes) (phantom : Nat → Nat) (ts : Nat) :
    (Store.mk (s.rows.erase key) phantom ts).contents = Function.update s.contents key none := by
  funext key'
  unfold contents
  rw [OrderedMap.find_erase, Function.update_apply, Function.update_apply]
  split
  · rfl
  · rfl

theorem Valid.erase (valid : s.Valid) (key : Bytes) {phantom : Nat → Nat} {ts : Nat} (even : ts % 2 = 0)
    (phantoms : ∀ leaf, phantom leaf % 2 = 0) : (Store.mk (s.rows.erase key) phantom ts).Valid where
  rows key' row found := by
    dsimp only at found
    rw [OrderedMap.find_erase, Function.update_apply] at found
    split at found
    · cases found
    · exact valid.rows key' row found
  ts := even
  phantom := phantoms

/-- A remove is wrong only about what it returns for a marker. -/
theorem runRemove_eq (valid : s.Valid) (key : Bytes) (site : Site) :
    ∃ s' times, s.runRemove site key = (s', times) ∧ s'.Valid ∧ (times.isSome ↔ (s.rows.find key).isSome) ∧
      s'.contents = Function.update s.contents key none := by
  have valid' := valid.moved site
  have same : (s.moved site).rows = s.rows := rfl
  cases found : s.rows.find key with
  | none =>
    have absent : s.contents key = none := by rw [contents, found]; rfl
    have ran : s.runRemove site key = (s.moved site, none) := by
      rw [runRemove]
      dsimp only
      rw [same, found]
    refine ⟨_, _, ran, valid', by simp, ?_⟩
    rw [← absent, Function.update_eq_self]
    rfl
  | some old =>
    have stamp := @Server.updateTimestamp_even s.ts old.timestamp valid.ts
    have leaf := valid'.phantom
    obtain ⟨times, nodeTs, applied⟩ : ∃ times nodeTs,
        applyRemove s.ts ((s.moved site).phantom site.leaf) old = (times, nodeTs) := ⟨_, _, rfl⟩
    have time : updateTimestamp s.ts old.timestamp = times.ts := congrArg (fun r => r.1.ts) applied
    have node : (if (s.moved site).phantom site.leaf ≤ times.ts then times.ts + 2
        else (s.moved site).phantom site.leaf) = nodeTs := by
      rw [← time]
      exact congrArg (fun r => r.2) applied
    have ran : s.runRemove site key =
        (⟨s.rows.erase key, Function.update (s.moved site).phantom site.leaf nodeTs, times.ts⟩, some times) := by
      have same_ : (s.moved site).ts = s.ts := rfl
      rw [runRemove]
      dsimp only
      rw [same, found]
      dsimp only
      rw [same_, applied]
    refine ⟨_, _, ran, valid.erase key (time ▸ stamp) fun leaf' => ?_, by simp, contents_erase s key _ _⟩
    rw [Function.update_apply]
    split
    · rw [← node, ← time]
      split
      · omega
      · exact leaf _
    · exact leaf leaf'

theorem remove_iff (valid : s.Valid) (key : Bytes) (site : Site) :
    s.Correct site (.remove key) ↔ s.Answers site (.remove key) := by
  obtain ⟨s', times, ran, after, found, holds⟩ := runRemove_eq valid key site
  have plain : ((s.rows.find key).isSome ↔ (s.contents key).isSome) ↔
      ∀ row, s.rows.find key = some row → rowIsMarker row = false := by
    unfold contents ordinary
    cases s.rows.find key with
    | none => simp
    | some row => cases marker : rowIsMarker row <;> simp [marker]
  unfold Correct Answers
  dsimp only
  rw [ran, ← plain, ← found]
  constructor
  · rintro ⟨s'', times', same, -, returned, -⟩
    rw [(Prod.mk.inj same).2]
    exact returned
  · intro returned
    exact ⟨s', times, rfl, after, returned, holds⟩

/-- Two rows, and the marker row of a key between theirs. -/
def mixed : Store :=
  { rows := ((OrderedMap.empty.insert [97] (ValueBag.ofColumns 2 [[7], []])).insert [98] (ValueBag.create1 removeMarker 3)).insert
      [99] (ValueBag.ofColumns 4 [[8]]) }

theorem valid_mixed : mixed.Valid := by
  refine ⟨fun key row found => ?_, rfl, fun _ => rfl⟩
  obtain ⟨found, plain⟩ := ordinary_eq_some.mp found
  simp only [mixed, OrderedMap.find_insert, Function.update_apply] at found
  split at found
  · cases found
    exact laidOut_ofColumns (by decide) 4
  · split at found
    · cases found
      exact absurd plain (by decide)
    · split at found
      · cases found
        exact laidOut_ofColumns (by decide) 2
      · cases found

example : mixed.runScan false [.int 1, .int 4, .str [97], .int 5, .int 0, .int 1] = some [.json (.int 1), .json (.int 4),
    string [97], .columns [.str [7], .str []], string [99], .columns [.str [8], .null]] := by decide

/-- A table as recovery leaves it once the key `a` was removed. -/
def recovered : Store := { rows := OrderedMap.empty.insert [97] (ValueBag.create1 removeMarker 3) }

end Store

end Masstree
