import Masstree.Log.Replay

/-!
# Queries and the records they log

`query::run_put`, `run_replace` and `run_remove` by one thread, on a table that maps keys to rows,
and the record `loginfo::record` writes for each. A cursor's leaf matters only for its phantom epoch.
-/

namespace Masstree
open Msgpack (Bytes)

abbrev Table := Bytes → Option ValueBag

/-- The leaf a cursor stops at, after splits and leaf removals that copy phantom epochs, and the memory of the request's key. -/
structure Site where
  moves : List (Nat × Nat) := []
  leaf : Nat := 0
  /-- The leaf's bag has room for the suffix of a new key. -/
  room : Bool := true
  /-- What lies where the key was, if `request[2]` alone held its string and has freed it for the result. -/
  reused : Option (Nat → UInt8) := none

/-- The bytes that `Str key` points to once the result has been assigned to `request[2]`. -/
def Site.logged (site : Site) (key : Bytes) : Bytes := site.reused.elim key fun memory => (List.range key.length).map memory

inductive Request where
  | put (key : Bytes) (changes : Changes) (wire : Bytes)
  | replace (key : Bytes) (value : Bytes)
  | remove (key : Bytes)

structure QueryTimes where
  ts : Nat
  prevTs : Nat

structure Server where
  table : Table := fun _ => none
  /-- `phantom_epoch_[0]` of each leaf -/
  phantom : Nat → Nat := fun _ => 0
  /-- `ti.ts_` -/
  ts : Nat := 2

/-- `threadinfo::update_timestamp(x)`. The result is above `x` and no marker timestamp. -/
def updateTimestamp (ts x : Nat) : Nat := if ts ≤ x then (x ||| 1) + 1 else ts

def observePhantoms (ts phantom : Nat) : Nat := if ts < phantom then phantom else ts

/-- `query::apply_put` with `ti.ts_`. The time of the query is also the new `ti.ts_`. -/
def applyPut (ts : Nat) (value : Option ValueBag) (changes : Changes) : Option (ValueBag × QueryTimes) :=
  match value with
  | none => do return (← ValueBag.create changes ts, ⟨ts, 0⟩)
  | some old =>
    let ts := updateTimestamp ts old.timestamp
    if rowIsMarker old then do return (← ValueBag.create changes ts, ⟨ts, 0⟩)
    else do return (← old.update changes ts, ⟨ts, old.timestamp⟩)

def applyReplace (ts : Nat) (value : Option ValueBag) (newValue : Bytes) : ValueBag × QueryTimes :=
  let times : QueryTimes := match value with
    | none => ⟨ts, 0⟩
    | some old => ⟨updateTimestamp ts old.timestamp, old.timestamp⟩
  (ValueBag.create1 newValue times.ts, times)

/-- `query::apply_remove`: the times and the leaf's new phantom epoch. -/
def applyRemove (ts nodeTs : Nat) (old : ValueBag) : QueryTimes × Nat :=
  let times : QueryTimes := ⟨updateTimestamp ts old.timestamp, old.timestamp⟩
  (times, if nodeTs ≤ times.ts then times.ts + 2 else nodeTs)

/-- The record `loginfo::record` appends. A put over a row that is no marker is logged as a modify. -/
def logRecord (command : LogCommand) (times : QueryTimes) (key value : Bytes) : LogRecord :=
  if command = .put ∧ times.prevTs ≠ 0 ∧ times.prevTs % 2 = 0 then
    { command := .modify, key, val := value, ts := times.ts, prevTs := times.prevTs }
  else { command, key, val := value, ts := times.ts }

namespace Server

def move (phantom : Nat → Nat) (moves : List (Nat × Nat)) : Nat → Nat :=
  moves.foldl (fun p m => Function.update p m.2 (p m.1)) phantom

/-- The thread's timestamp once the cursor has found the key or seen its leaf without it. -/
def seen (s : Server) (site : Site) (key : Bytes) : Nat :=
  if (s.table key).isNone then observePhantoms s.ts (s.phantom site.leaf) else s.ts

/-- The cursor is at a row, or its leaf takes a new one. -/
def takes (s : Server) (site : Site) (key : Bytes) : Bool := (s.table key).isSome || site.room

def store (s : Server) (key : Bytes) (row : ValueBag) (times : QueryTimes) : Server :=
  { s with table := Function.update s.table key (some row), ts := times.ts }

/-- One request as `onego` runs and logs it. A remove that finds nothing is not logged, and one that removes is logged
before its key is freed. -/
def onego (s : Server) (site : Site) (request : Request) : Option (Server × Option LogRecord) :=
  let s := { s with phantom := move s.phantom site.moves }
  match request with
  | .put key changes wire =>
    if s.takes site key then do
      let (row, times) ← applyPut (s.seen site key) (s.table key) changes
      return (s.store key row times, some (logRecord .put times (site.logged key) wire))
    else none
  | .replace key value =>
    if s.takes site key then
      let (row, times) := applyReplace (s.seen site key) (s.table key) value
      some (s.store key row times, some (logRecord .replace times (site.logged key) value))
    else none
  | .remove key =>
    match s.table key with
    | none => some (s, none)
    | some old =>
      let (times, nodeTs) := applyRemove s.ts (s.phantom site.leaf) old
      some ({ table := Function.update s.table key none, ts := times.ts
              phantom := Function.update s.phantom site.leaf nodeTs },
        some (logRecord .remove times key []))

def run : List (Site × Request) → Server → Option (Server × List LogRecord)
  | [], s => some (s, [])
  | (site, request) :: rest, s => do
    let (s, logged) ← s.onego site request
    let (s, log) ← run rest s
    return (s, logged.toList ++ log)

end Server

end Masstree
