import Masstree.Lib.Service
import Masstree.Query.Run
import Masstree.Tree.ScanTable

/-!
# Queries on a masstree

The queries as they run on a `basic_table`, and that their replies are those of rows in key order, whenever the callbacks that collect
layers run.
-/

namespace Masstree
open Msgpack (Bytes Json)
open Masstree.Tree (Host Memory keybufSize)

/-- A server whose rows are in a `basic_table`. -/
structure QueryTable where
  table : Tree.Table ValueBag := .start
  phantom : Nat → Nat := fun _ => 0
  ts : Nat := 2

/-- What a thread does: a query, or one of the callbacks that are registered. -/
inductive QueryTable.Work where
  | get (request : List Json)
  | get1 (key : Bytes) (col : Int)
  | put (site : Site) (key : Bytes) (changes : Changes)
  | replace (site : Site) (key value : Bytes)
  | remove (site : Site) (key : Bytes)
  | scan (reverse : Bool) (request : List Json)
  | collect (i : Nat)

inductive QueryTable.Answer where
  | items (reply : List Item)
  | value (found : Option Bytes)
  | result (times : QueryTimes) (result : Result)
  | removed (times : Option QueryTimes)
  | nothing

/-- Keys that a scan has room for. -/
def QueryTable.Work.Fits : QueryTable.Work → Prop
  | .put _ key _ => key.length ≤ keybufSize
  | .replace _ key _ => key.length ≤ keybufSize
  | _ => True

/-- The queries on rows in key order, where nothing is to be collected. -/
def Store.work (s : Store) : QueryTable.Work → Option (Store × QueryTable.Answer)
  | .get request => (s.runGet request).map fun reply => (s, .items reply)
  | .get1 key col => some (s, .value (s.runGet1 key col))
  | .put site key changes => (s.runPut site key changes).map fun a => (a.1, .result a.2.1 a.2.2)
  | .replace site key value => (s.runReplace site key value).map fun a => (a.1, .result a.2.1 a.2.2)
  | .remove site key => (some (s.runRemove site key)).map fun a => (a.1, .removed a.2)
  | .scan reverse request => (s.runScan reverse request).map fun reply => (s, .items reply)
  | .collect _ => some (s, .nothing)

/-- `query_json_scanner::visit_value` with `request_` and `nleft_`, which are `none` once it has failed. -/
def visitValue (f : List Int) (scanner : Option (List Item × Int)) (p : Bytes × Option ValueBag) : Bool × Option (List Item × Int) :=
  match scanner, p.2 with
  | some (request, nleft), some row =>
    if rowIsMarker row then (true, some (request, nleft))
    else if nleft = -2 ^ 31 then (false, none)
    else (nleft - 1 ≠ 0, some (request ++ [string p.1, row.view.emitFields1 f], nleft - 1))
  | _, _ => (false, none)

namespace QueryTable

def moved (s : QueryTable) (site : Site) : QueryTable := { s with phantom := Server.move s.phantom site.moves }

def seen (s : QueryTable) (site : Site) (key : Bytes) : Nat :=
  if (s.table.get key).isNone then observePhantoms s.ts (s.phantom site.leaf) else s.ts

/-- The cursor is at a row, or its leaf takes a new one. -/
def takes (s : QueryTable) (site : Site) (key : Bytes) : Bool := (s.table.get key).isSome || site.room

/-- `finish(1)` -/
def store (s : QueryTable) (key : Bytes) (row : ValueBag) (times : QueryTimes) : Option QueryTable :=
  (s.table.insert key (some row)).map fun table => { s with table, ts := times.ts }

def runGet (s : QueryTable) (request : List Json) : Option (List Item) := do
  let key ← (request.getD 2 .null).asS
  match ordinary (s.table.get key) with
  | none => some (request.map .json)
  | some row => do
    let f ← fieldsOf (request.drop 3)
    some ((request.take 2).map .json ++ (row.view.emitFields f).map .json)

def runGet1 (s : QueryTable) (key : Bytes) (col : Int) : Option Bytes := (ordinary (s.table.get key)).map (·.colAt col)

def runPut (s : QueryTable) (site : Site) (key : Bytes) (changes : Changes) : Option (QueryTable × QueryTimes × Result) :=
  let s := s.moved site
  if s.takes site key then do
    let (row, times) ← applyPut (s.seen site key) (s.table.get key) changes
    let s' ← s.store key row times
    some (s', times, Store.inserts (s.table.get key))
  else none

def runReplace (s : QueryTable) (site : Site) (key value : Bytes) : Option (QueryTable × QueryTimes × Result) :=
  let s := s.moved site
  if s.takes site key then do
    let (row, times) := applyReplace (s.seen site key) (s.table.get key) value
    let s' ← s.store key row times
    some (s', times, Store.inserts (s.table.get key))
  else none

def runRemove (s : QueryTable) (site : Site) (key : Bytes) : Option (QueryTable × Option QueryTimes) :=
  let s := s.moved site
  (s.table.remove key).map fun table =>
    match s.table.get key with
    | none => ({ s with table }, none)
    | some old =>
      let (times, nodeTs) := applyRemove s.ts (s.phantom site.leaf) old
      ({ table, ts := times.ts, phantom := Function.update s.phantom site.leaf nodeTs }, some times)

/-- What the scanner has added to the request when `scan` or `rscan` returns. -/
def scan (s : QueryTable) (h : Host) (keybuf : Memory) (fuel : Nat) (reverse : Bool) (first : Bytes) (f : List Int) (request : List Item)
    (nleft : Int) : Option (List Item) :=
  (if reverse then s.table.rscan h keybuf first true (visitValue f) (some (request, nleft)) fuel
    else s.table.scan h keybuf first true (visitValue f) (some (request, nleft)) fuel).bind fun r => r.2.map Prod.fst

def runScan (s : QueryTable) (h : Host) (keybuf : Memory) (fuel : Nat) (reverse : Bool) (request : List Json) : Option (List Item) := do
  let count ← (request.getD 3 .null).asI
  if 0 < count then do
    let f ← fieldsOf (request.drop 4)
    let first ← (request.getD 2 .null).asS
    if first.length ≤ keybufSize then s.scan h keybuf fuel reverse first f ((request.take 2).map .json) (count.bmod (2 ^ 32))
    else none
  else none

def work (h : Host) (keybuf : Memory) (fuel : Nat) (s : QueryTable) : Work → Option (QueryTable × Answer)
  | .get request => (s.runGet request).map fun reply => (s, .items reply)
  | .get1 key col => some (s, .value (s.runGet1 key col))
  | .put site key changes => (s.runPut site key changes).map fun a => (a.1, .result a.2.1 a.2.2)
  | .replace site key value => (s.runReplace site key value).map fun a => (a.1, .result a.2.1 a.2.2)
  | .remove site key => (s.runRemove site key).map fun a => (a.1, .removed a.2)
  | .scan reverse request => (s.runScan h keybuf fuel reverse request).map fun reply => (s, .items reply)
  | .collect i =>
    if i < s.table.callbacks.length then (s.table.step (.collect i)).map fun table => ({ s with table }, .nothing)
    else some (s, .nothing)

/-! ### Rows in key order -/

structure Serves (s : QueryTable) (m : Store) : Prop where
  good : s.table.Good
  rows : s.table.get = m.rows.find
  phantom : s.phantom = m.phantom
  ts : s.ts = m.ts
  keys : ∀ p ∈ m.rows.entries, p.1.length ≤ keybufSize

variable {s : QueryTable} {m : Store} {site : Site} {key : Bytes} {row : ValueBag} {times : QueryTimes}

theorem serves_start : Serves {} {} :=
  ⟨Tree.Table.start_good, Tree.Table.start_get, rfl, rfl, fun _ mem => absurd mem List.not_mem_nil⟩

theorem Serves.moved (serves : Serves s m) (site : Site) : Serves (s.moved site) (m.moved site) :=
  { serves with phantom := congrArg (Server.move · site.moves) serves.phantom }

theorem Serves.seen (serves : Serves s m) (site : Site) (key : Bytes) : s.seen site key = m.seen site key := by
  unfold QueryTable.seen
  rw [serves.rows, serves.phantom, serves.ts]
  rfl

theorem Serves.takes (serves : Serves s m) (site : Site) (key : Bytes) : s.takes site key = m.server.takes site key := by
  unfold QueryTable.takes
  rw [serves.rows]
  rfl

theorem Serves.store (serves : Serves s m) (fits : key.length ≤ keybufSize) (row : ValueBag) (times : QueryTimes) :
    ∃ s', s.store key row times = some s' ∧ Serves s' (m.store key row times) := by
  obtain ⟨table, inserted, good, contents⟩ := Tree.Table.step_spec serves.good
    (show (Tree.Table.Op.insert key row).Enabled s.table from trivial)
  refine ⟨_, congrArg (Option.map _) inserted, good, ?_, serves.phantom, rfl, ?_⟩
  · rw [contents, serves.rows]
    exact (OrderedMap.find_insert key row).symm
  · intro p mem
    rcases OrderedMap.mem_insertEntry mem with rfl | mem
    · exact fits
    · exact serves.keys p mem

theorem Serves.runGet (serves : Serves s m) (request : List Json) : s.runGet request = m.runGet request := by
  unfold QueryTable.runGet
  rw [serves.rows]
  rfl

theorem Serves.runGet1 (serves : Serves s m) (key : Bytes) (col : Int) : s.runGet1 key col = m.runGet1 key col := by
  unfold QueryTable.runGet1
  rw [serves.rows]
  rfl

theorem Serves.runPut (serves : Serves s m) (site : Site) (fits : key.length ≤ keybufSize) (changes : Changes) :
    Service.Agree Serves (s.runPut site key changes) (m.runPut site key changes) := by
  have moved := serves.moved site
  unfold QueryTable.runPut Store.runPut
  dsimp only
  rw [moved.takes, moved.seen, moved.rows]
  cases (m.moved site).server.takes site key with
  | false => exact .none
  | true =>
  rw [if_pos rfl, if_pos rfl]
  cases applyPut ((m.moved site).seen site key) ((m.moved site).rows.find key) changes with
  | none => exact .none
  | some made =>
    obtain ⟨s', stored, serves'⟩ := moved.store fits made.1 made.2
    simp only [Option.bind_eq_bind, Option.bind_some, stored]
    exact .some ⟨serves', rfl⟩

theorem Serves.runReplace (serves : Serves s m) (site : Site) (fits : key.length ≤ keybufSize) (value : Bytes) :
    Service.Agree Serves (s.runReplace site key value) (m.runReplace site key value) := by
  have moved := serves.moved site
  unfold QueryTable.runReplace Store.runReplace
  dsimp only
  rw [moved.takes, moved.seen, moved.rows]
  cases (m.moved site).server.takes site key with
  | false => exact .none
  | true =>
  rw [if_pos rfl, if_pos rfl]
  obtain ⟨s', stored, serves'⟩ := moved.store fits (applyReplace ((m.moved site).seen site key) ((m.moved site).rows.find key) value).1
    (applyReplace ((m.moved site).seen site key) ((m.moved site).rows.find key) value).2
  simp only [Option.bind_eq_bind, Option.bind_some, stored]
  exact .some ⟨serves', rfl⟩

theorem Serves.runRemove (serves : Serves s m) (site : Site) (key : Bytes) :
    Service.Agree Serves (s.runRemove site key) (some (m.runRemove site key)) := by
  have moved := serves.moved site
  obtain ⟨table, removed, good, contents⟩ := Tree.Table.step_spec moved.good (show (Tree.Table.Op.remove key).Enabled _ from trivial)
  unfold QueryTable.runRemove Store.runRemove
  dsimp only
  rw [show (s.moved site).table.remove key = some table from removed, Option.map_some, moved.rows]
  have same : (m.moved site).rows.find = m.rows.find := rfl
  rw [moved.rows, same] at contents
  rw [same]
  cases found : m.rows.find key with
  | none =>
    have unchanged : table.get = m.rows.find := by
      rw [contents]
      show Function.update m.rows.find key none = _
      rw [← found, Function.update_eq_self]
    exact .some ⟨⟨good, unchanged, moved.phantom, moved.ts, moved.keys⟩, rfl⟩
  | some old =>
    refine .some ⟨⟨good, ?_, ?_, ?_, fun p mem => serves.keys p (List.mem_of_mem_filter mem)⟩, ?_⟩
    · rw [contents]
      exact (OrderedMap.find_erase key).symm
    · dsimp only
      rw [moved.phantom, moved.ts]
    · dsimp only
      rw [moved.phantom, moved.ts]
    · dsimp only
      rw [moved.phantom, moved.ts]

theorem Serves.collect (serves : Serves s m) {i : Nat} (pending : i < s.table.callbacks.length) :
    ∃ table, s.table.step (.collect i) = some table ∧ Serves { s with table } m := by
  obtain ⟨table, collected, good, contents⟩ := Tree.Table.step_spec serves.good
    (show (Tree.Table.Op.collect i).Enabled s.table from pending)
  exact ⟨table, collected, { serves with good, rows := contents.trans serves.rows }⟩

/-! ### Scans -/

theorem visitAll_visitValue (f : List Int) {rows : List (Bytes × ValueBag)} (keys : ∀ p ∈ rows, p.1.length ≤ keybufSize) (n : Nat)
    (request : List Item) (nleft : Int) :
    (Producer.visitAll (visitValue f) (rows.map fun p => (p.1, some p.2)) n (some (request, nleft))).2.map Prod.fst =
      (Store.visit f rows nleft).map (request ++ ·) := by
  induction rows generalizing n request nleft with
  | nil => exact congrArg some (List.append_nil request).symm
  | cons p rows ih =>
    obtain ⟨key, row⟩ := p
    rw [List.forall_mem_cons] at keys
    obtain ⟨fits, keys⟩ := keys
    rw [List.map_cons, Producer.visitAll, Store.visit, if_neg (Nat.not_lt.mpr fits)]
    conv_lhs => rw [visitValue]
    dsimp only
    by_cases marker : rowIsMarker row = true
    · rw [if_pos marker, if_pos marker]
      exact ih keys (n + 1) request nleft
    · rw [if_neg marker, if_neg marker]
      by_cases least : nleft = -2 ^ 31
      · rw [if_pos least, if_pos least]
        rfl
      · rw [if_neg least, if_neg least]
        by_cases last : nleft - 1 = 0
        · rw [if_neg (by rw [decide_eq_true_iff]; exact not_not.mpr last), if_pos last]
          rfl
        · rw [if_pos (decide_eq_true last), if_neg last]
          refine (ih keys (n + 1) _ _).trans ?_
          rw [Option.map_map]
          refine Option.map_congr fun rest _ => ?_
          exact List.append_assoc ..

/-- The visitor of a scan has been called with the rows of the store. -/
theorem Serves.scan (serves : Serves s m) (h : Host) (keybuf : Memory) (reverse : Bool) {first : Bytes}
    (short : first.length ≤ keybufSize) (f : List Int) (request : List Item) (nleft : Int) : ∃ enough, ∀ fuel ≥ enough,
      s.scan h keybuf fuel reverse first f request nleft = (Store.visit f (m.scanned reverse first) nleft).map (request ++ ·) := by
  have keys : ∀ p ∈ m.scanned reverse first, p.1.length ≤ keybufSize :=
    fun p mem => serves.keys p (OrderedMap.find_eq_some.mp (Store.mem_scanned.mp mem).1)
  have visits := visitAll_visitValue f keys 0 request nleft
  obtain ⟨enough, both⟩ := serves.good.toOk.scan_rows serves.rows.symm h keybuf short true (visitValue f) (some (request, nleft))
  refine ⟨enough, fun fuel le => ?_⟩
  obtain ⟨up, down⟩ := both fuel le
  rw [← visits, QueryTable.scan]
  cases reverse with
  | false =>
    have rows : m.rows.entries.filter (fun p => first < p.1 ∨ p.1 = first ∧ true) = m.scanned false first :=
      List.filter_congr fun p _ => decide_eq_decide.mpr (by rw [Std.le_iff_lt_or_eq]; simp [eq_comm])
    rw [if_neg Bool.false_ne_true, up, rows, Option.bind_some]
  | true =>
    have rows : (m.rows.entries.filter fun p => p.1 < first ∨ p.1 = first ∧ true).reverse = m.scanned true first :=
      congrArg List.reverse (List.filter_congr fun p _ => decide_eq_decide.mpr (by rw [Std.le_iff_lt_or_eq]; simp))
    rw [if_pos rfl, down, rows, Option.bind_some]

theorem Serves.runScan (serves : Serves s m) (h : Host) (keybuf : Memory) (reverse : Bool) (request : List Json) :
    ∃ enough, ∀ fuel ≥ enough, s.runScan h keybuf fuel reverse request = m.runScan reverse request := by
  unfold QueryTable.runScan Store.runScan
  simp only [Option.bind_eq_bind]
  cases (request.getD 3 .null).asI with
  | none => exact ⟨0, fun _ _ => rfl⟩
  | some count =>
    cases fieldsOf (request.drop 4) with
    | none => exact ⟨0, fun _ _ => rfl⟩
    | some f =>
      cases (request.getD 2 .null).asS with
      | none => exact ⟨0, fun _ _ => rfl⟩
      | some first =>
        simp only [Option.bind_some]
        by_cases short : first.length ≤ keybufSize
        · obtain ⟨enough, scans⟩ := serves.scan h keybuf reverse short f ((request.take 2).map Item.json) (count.bmod (2 ^ 32))
          refine ⟨enough, fun fuel le => ?_⟩
          rw [if_pos short, if_pos short, scans fuel le]
        · refine ⟨0, fun fuel _ => ?_⟩
          rw [if_neg short, if_neg short]

/-! ### Runs -/

theorem Serves.work (serves : Serves s m) (h : Host) (keybuf : Memory) {e : Work} (fits : e.Fits) :
    ∃ enough r, (∀ fuel ≥ enough, s.work h keybuf fuel e = r) ∧ Service.Agree Serves r (m.work e) := by
  cases e with
  | get request =>
    refine ⟨0, (s.runGet request).map fun reply => (s, .items reply), fun _ _ => rfl, ?_⟩
    rw [serves.runGet]
    exact .keep serves Answer.items _
  | get1 key col => exact ⟨0, some (s, .value (s.runGet1 key col)), fun _ _ => rfl,
    .some ⟨serves, congrArg Answer.value (serves.runGet1 key col)⟩⟩
  | put site key changes =>
    refine ⟨0, _, ?_, (serves.runPut site fits changes).map fun a => Answer.result a.1 a.2⟩
    exact fun _ _ => rfl
  | replace site key value =>
    refine ⟨0, _, ?_, (serves.runReplace site fits value).map fun a => Answer.result a.1 a.2⟩
    exact fun _ _ => rfl
  | remove site key =>
    refine ⟨0, _, ?_, (serves.runRemove site key).map Answer.removed⟩
    exact fun _ _ => rfl
  | scan reverse request =>
    obtain ⟨enough, scans⟩ := serves.runScan h keybuf reverse request
    refine ⟨enough, (m.runScan reverse request).map fun reply => (s, .items reply), fun fuel le => ?_, .keep serves Answer.items _⟩
    rw [QueryTable.work, scans fuel le]
  | collect i =>
    by_cases pending : i < s.table.callbacks.length
    · obtain ⟨table, collected, serves'⟩ := serves.collect pending
      refine ⟨0, some ({ s with table }, .nothing), fun fuel _ => ?_, .some ⟨serves', rfl⟩⟩
      rw [QueryTable.work, if_pos pending, collected]
      rfl
    · exact ⟨0, some (s, .nothing), fun _ _ => if_neg pending, .some ⟨serves, rfl⟩⟩

/-- Whatever is asked of a masstree, and whenever its layers are collected, it answers as rows in key order do. -/
theorem answers_as_store (h : Host) (keybuf : Memory) {es : List Work} (fits : ∀ e ∈ es, e.Fits) : ∃ enough, ∀ fuel ≥ enough,
    (Service.serve (work h keybuf fuel) {} es).map Prod.snd = (Service.serve Store.work {} es).map Prod.snd := by
  have agrees : ∀ s m (e : Work), Serves s m → e.Fits → ∃ enough r, (∀ fuel ≥ enough, s.work h keybuf fuel e = r) ∧
      Service.Agree Serves r (m.work e) := fun s m e serves fits => serves.work h keybuf fits
  obtain ⟨enough, r, served, agree⟩ := Service.serve_agrees agrees serves_start fits
  refine ⟨enough, fun fuel le => ?_⟩
  rw [served fuel le]
  exact agree.map_snd

/-- Two rows, of which a scan reports one. -/
theorem answers_as_store_two : ∃ enough, ∀ fuel ≥ enough,
    (Service.serve (work ⟨false, true⟩ (fun _ => 0) fuel) {} [.replace {} [1, 2] [7], .replace {} [1] [8], .collect 0,
        .scan true [.int 1, .int 4, .str [1, 1], .int 5]]).map Prod.snd =
      (Service.serve Store.work {} [.replace {} [1, 2] [7], .replace {} [1] [8], .collect 0,
        .scan true [.int 1, .int 4, .str [1, 1], .int 5]]).map Prod.snd := by
  refine answers_as_store ⟨false, true⟩ (fun _ => 0) fun e mem => ?_
  simp only [List.mem_cons, List.not_mem_nil, or_false] at mem
  rcases mem with rfl | rfl | rfl | rfl <;> simp [Work.Fits, keybufSize]

end QueryTable

end Masstree
