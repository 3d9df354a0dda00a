import Masstree.Log.Query

/-!
# Replaying a sequential log

The records of a sequence of requests, replayed in order into an empty table, rebuild the live table
until the first record of a remove: its marker bytes are parsed as a changeset.
-/

namespace Masstree
open Msgpack (Bytes)

def replayLog (log : List LogRecord) (t : ReplayTable) : Option ReplayTable :=
  log.foldlM (fun t lr => lr.run t) t

/-- Replay ends, present keys have the live row, and a logged key that is absent has a marker row. -/
def Reproduces (log : List LogRecord) (live : Table) : Prop :=
  ∃ t, replayLog log (fun _ => none) = some t ∧ ∀ key,
    match live key with
    | some bag => t key = some (.row bag) ∧ rowIsMarker bag = false
    | none =>
      if ∃ lr ∈ log, lr.key = key then ∃ bag, t key = some (.row bag) ∧ rowIsMarker bag = true
      else t key = none

namespace Request

def Encoded : Request → Prop
  | .put _ changes wire => EncodesChanges changes wire
  | _ => True

def key : Request → Bytes
  | .put key _ _ => key
  | .replace key _ => key
  | .remove key => key

def Keeps (site : Site) : Request → Prop
  | .put key _ _ => site.logged key = key
  | .replace key _ => site.logged key = key
  | .remove _ => True

def stored (present : Bytes → Bool) : Request → Bytes → Bool
  | .put key _ _ => Function.update present key true
  | .replace key _ => Function.update present key true
  | .remove key => Function.update present key false

/-- Some remove meets a key that was stored and not removed since. -/
def RemovesStored : List (Site × Request) → (Bytes → Bool) → Prop
  | [], _ => False
  | (_, request) :: rest, present =>
    (∃ key, request = .remove key ∧ present key = true) ∨ RemovesStored rest (stored present request)

end Request

namespace Server

/-- The table as replay holds it. -/
def replayed (live : Table) : ReplayTable := fun key => (live key).map .row

def present (s : Server) (key : Bytes) : Bool := (s.table key).isSome

/-- Timestamps are even, so that no live row is a marker, and positive, so that a put over a row is a
modify. -/
structure Even (s : Server) : Prop where
  ts : s.ts % 2 = 0 ∧ 0 < s.ts
  phantom : ∀ leaf, s.phantom leaf % 2 = 0
  rows : ∀ key bag, s.table key = some bag → bag.timestamp % 2 = 0 ∧ 0 < bag.timestamp

theorem even_initial : Even {} := ⟨⟨rfl, by decide⟩, fun _ => rfl, by simp⟩

theorem updateTimestamp_gt (ts x : Nat) : x < updateTimestamp ts x := by
  have := Nat.left_le_or (n := x) (m := 1)
  unfold updateTimestamp
  split <;> omega

theorem updateTimestamp_even {ts x : Nat} (even : ts % 2 = 0) : updateTimestamp ts x % 2 = 0 := by
  have : (x ||| 1) % 2 = 1 := Nat.or_mod_two_eq_one.mpr (Or.inr rfl)
  unfold updateTimestamp
  split <;> omega

theorem move_even {phantom : Nat → Nat} (even : ∀ leaf, phantom leaf % 2 = 0) (moves : List (Nat × Nat)) :
    ∀ leaf, move phantom moves leaf % 2 = 0 := by
  induction moves generalizing phantom with
  | nil => exact even
  | cons m moves ih =>
    refine ih fun leaf => ?_
    by_cases same : leaf = m.2
    · subst same
      simp [even]
    · simp [same, even]

theorem seen_even {s : Server} (even : s.Even) (site : Site) (key : Bytes) :
    s.seen site key % 2 = 0 ∧ 0 < s.seen site key := by
  have := even.ts
  have := even.phantom site.leaf
  unfold seen observePhantoms
  split
  · split <;> omega
  · exact even.ts

/-! ### One request and its record -/

/-- What replay holds for a live value. -/
def rowChain (value : Option ValueBag) : RowChain := (value.map .row).getD .null

theorem rowChain_markers (value : Option ValueBag) : (rowChain value).markers = 0 := by
  cases value <;> rfl

theorem rowChain_current {value : Option ValueBag} {ts : Nat}
    (newer : ∀ bag, value = some bag → bag.timestamp < ts) : outOfDate ts (rowChain value) = false := by
  cases value with
  | none => rfl
  | some bag => simpa [rowChain, outOfDate] using newer bag rfl

/-- A record newer than the live row replays as its change. -/
theorem apply_rowChain {lr : LogRecord} {value : Option ValueBag} {row : ValueBag}
    (newer : ∀ bag, value = some bag → bag.timestamp < lr.ts)
    (changed : change lr (rowChain value) = some (.row row)) : apply lr (rowChain value) = some (.row row) := by
  rw [apply_of_current (rowChain_markers value) (rowChain_current newer), changed]
  rw [changed]
  rintro d ⟨⟩
  rfl

/-- A record and the row it leaves over a live value. -/
structure Stored (value : Option ValueBag) (lr : LogRecord) (row : ValueBag) : Prop where
  command : lr.command = .put ∨ lr.command = .replace ∨ lr.command = .modify
  applied : apply lr (rowChain value) = some (.row row)
  stamp : row.timestamp = lr.ts
  even : lr.ts % 2 = 0
  newer : ∀ bag, value = some bag → bag.timestamp < lr.ts
  chained : lr.command = .modify → ∃ bag, value = some bag ∧ lr.prevTs = bag.timestamp

theorem logRecord_ts (command : LogCommand) (times : QueryTimes) (key value : Bytes) :
    (logRecord command times key value).ts = times.ts := by
  unfold logRecord
  split <;> rfl

theorem applyPut_replays (key : Bytes) {ts : Nat} {value : Option ValueBag} {changes : Changes} {row : ValueBag}
    {times : QueryTimes} {wire : Bytes} (encoded : EncodesChanges changes wire) (time : ts % 2 = 0)
    (even : ∀ bag, value = some bag → bag.timestamp % 2 = 0 ∧ 0 < bag.timestamp)
    (h : applyPut ts value changes = some (row, times)) :
    Stored value (logRecord .put times key wire) row ∧
      (times.ts = ts ∨ ∃ bag, value = some bag ∧ times.ts = updateTimestamp ts bag.timestamp) := by
  have parsed := parseChangeset_encodes encoded
  cases value with
  | none =>
    simp only [applyPut, Option.bind_eq_bind, Option.bind_eq_some_iff] at h
    obtain ⟨row, created, h⟩ := h
    cases h
    have logged : logRecord .put ⟨ts, 0⟩ key wire = { command := .put, key, val := wire, ts } := by simp [logRecord]
    refine ⟨⟨?_, apply_rowChain (by simp) ?_, ?_, ?_, by simp, ?_⟩, Or.inl rfl⟩
    · simp [logged]
    · simp [logRecord, change, parsed, created]
    · rw [logRecord_ts]
      exact ValueBag.update_timestamp created
    · rwa [logRecord_ts]
    · simp [logged]
  | some old =>
    obtain ⟨even, positive⟩ := even old rfl
    have live : rowIsMarker old = false := by simp [rowIsMarker, even]
    simp only [applyPut, live, Bool.false_eq_true, if_false, Option.bind_eq_bind, Option.bind_eq_some_iff] at h
    obtain ⟨row, updated, h⟩ := h
    cases h
    have logged : logRecord .put ⟨updateTimestamp ts old.timestamp, old.timestamp⟩ key wire =
        { command := .modify, key, val := wire, ts := updateTimestamp ts old.timestamp, prevTs := old.timestamp } := by
      simp [logRecord, even]
      omega
    have newer : ∀ bag, some old = some bag → bag.timestamp < updateTimestamp ts old.timestamp := by
      rintro bag ⟨⟩
      exact updateTimestamp_gt ts old.timestamp
    rw [logged]
    refine ⟨⟨Or.inr (Or.inr rfl), apply_rowChain newer ?_, ValueBag.update_timestamp updated,
      updateTimestamp_even time, newer, fun _ => ⟨old, rfl, rfl⟩⟩, Or.inr ⟨old, rfl, rfl⟩⟩
    simp [change, rowChain, RowChain.bag?, parsed, updated]

theorem applyReplace_replays (key : Bytes) {ts : Nat} {value : Option ValueBag} {newValue : Bytes} {row : ValueBag}
    {times : QueryTimes} (time : ts % 2 = 0) (h : applyReplace ts value newValue = (row, times)) :
    Stored value (logRecord .replace times key newValue) row ∧
      (times.ts = ts ∨ ∃ bag, value = some bag ∧ times.ts = updateTimestamp ts bag.timestamp) := by
  obtain ⟨rfl, times_eq⟩ : row = ValueBag.create1 newValue times.ts ∧ times.ts = (match value with
      | none => ts
      | some old => updateTimestamp ts old.timestamp) := by
    cases h
    cases value <;> exact ⟨rfl, rfl⟩
  have logged : logRecord .replace times key newValue =
      { command := .replace, key, val := newValue, ts := times.ts } := by simp [logRecord]
  have chosen : (times.ts = ts ∨ ∃ bag, value = some bag ∧ times.ts = updateTimestamp ts bag.timestamp) ∧
      ∀ bag, value = some bag → bag.timestamp < times.ts := by
    rw [times_eq]
    cases value with
    | none => exact ⟨Or.inl rfl, by simp⟩
    | some old =>
      refine ⟨Or.inr ⟨old, rfl, rfl⟩, ?_⟩
      rintro bag ⟨⟩
      exact updateTimestamp_gt ts old.timestamp
  obtain ⟨chosen, newer⟩ := chosen
  rw [logged]
  refine ⟨⟨Or.inr (Or.inl rfl), apply_rowChain newer (by simp [change]), rfl, ?_, newer, by simp⟩, chosen⟩
  rcases chosen with same | ⟨bag, -, same⟩
  · rwa [same]
  · rw [same]
    exact updateTimestamp_even time

/-- The marker bytes of a remove are no changeset: the string after index 1 is missing. -/
theorem parseChangeset_removeMarker : parseChangeset removeMarker = none := by decide

/-- Replaying the remove of a live row fails the parser's assertion. -/
theorem run_remove {lr : LogRecord} {t : ReplayTable} {bag : ValueBag} (remove : lr.command = .remove)
    (live : t lr.key = some (.row bag)) (newer : bag.timestamp < lr.ts) : lr.run t = none := by
  have stamped : bag.timestamp < lr.ts ||| 1 := Nat.lt_of_lt_of_le newer Nat.left_le_or
  have marked : change { lr with ts := lr.ts ||| 1, val := removeMarker } (.row bag) = none := by
    simp [change, remove, parseChangeset_removeMarker]
  have failed : apply { lr with ts := lr.ts ||| 1, val := removeMarker } (.row bag) = none := by
    rw [apply_of_current rfl (by simpa [outOfDate] using stamped) (by simp [marked]), marked]
  rw [remove] at failed
  simp [LogRecord.run, remove, live, failed]

theorem run_of_apply {lr : LogRecord} {live : Table} {row : ValueBag} (keep : lr.command ≠ .remove)
    (applied : apply lr (rowChain (live lr.key)) = some (.row row)) :
    lr.run (replayed live) = some (replayed (Function.update live lr.key (some row))) := by
  have value : ((replayed live) lr.key).getD .null = rowChain (live lr.key) := rfl
  have stored : Function.update (replayed live) lr.key (some (.row row)) =
      replayed (Function.update live lr.key (some row)) := by
    funext key
    by_cases same : key = lr.key
    · simp [replayed, same]
    · simp [replayed, same]
  simp [LogRecord.run, keep, value, applied, stored]

/-! ### One request -/

inductive Outcome (s s' : Server) (request : Request) (logged : Option LogRecord) : Prop where
  /-- A remove finds nothing. -/
  | missed (key : Bytes) : request = .remove key → s.table key = none → logged = none →
      s'.table = s.table → Outcome s s' request logged
  | removed (key : Bytes) (old : ValueBag) (lr : LogRecord) : request = .remove key → s.table key = some old →
      logged = some lr → lr.command = .remove → lr.key = key → old.timestamp < lr.ts →
      s'.table = Function.update s.table key none → Outcome s s' request logged
  | stored (row : ValueBag) (lr : LogRecord) : (∀ key, request ≠ .remove key) →
      Request.stored s.present request = Function.update s.present lr.key true → logged = some lr →
      Stored (s.table lr.key) lr row → s'.table = Function.update s.table lr.key (some row) → Outcome s s' request logged

theorem logRecord_key (command : LogCommand) (times : QueryTimes) (key value : Bytes) :
    (logRecord command times key value).key = key := by
  unfold logRecord
  split <;> rfl

theorem Stored.keep {value : Option ValueBag} {lr : LogRecord} {row : ValueBag} (stored : Stored value lr row) :
    lr.command ≠ .remove := by
  rcases stored.command with h | h | h <;> simp [h]

theorem Even.store {s : Server} (even : s.Even) {key : Bytes} {row : ValueBag} {times : QueryTimes}
    (stamp : row.timestamp = times.ts) (time : times.ts % 2 = 0 ∧ 0 < times.ts) : (s.store key row times).Even := by
  refine ⟨time, even.phantom, fun k bag found => ?_⟩
  by_cases same : k = key
  · subst same
    have : row = bag := by simpa [Server.store] using found
    rw [← this, stamp]
    exact time
  · exact even.rows k bag (by simpa [Server.store, same] using found)

theorem time_even {s : Server} (even : s.Even) {site : Site} {key : Bytes} {time : Nat}
    (chosen : time = s.seen site key ∨
      ∃ bag, s.table key = some bag ∧ time = updateTimestamp (s.seen site key) bag.timestamp) :
    time % 2 = 0 ∧ 0 < time := by
  have seen := seen_even even site key
  rcases chosen with rfl | ⟨bag, -, rfl⟩
  · exact seen
  · exact ⟨updateTimestamp_even seen.1, Nat.zero_lt_of_lt (updateTimestamp_gt _ _)⟩

theorem onego_outcome {s s' : Server} {site : Site} {request : Request} {logged : Option LogRecord}
    (even : s.Even) (encoded : request.Encoded) (keeps : request.Keeps site)
    (h : s.onego site request = some (s', logged)) : Outcome s s' request logged ∧ s'.Even := by
  have moved : Even { s with phantom := move s.phantom site.moves } :=
    ⟨even.ts, move_even even.phantom site.moves, even.rows⟩
  cases request with
  | put key changes wire =>
    have named : site.logged key = key := keeps
    simp only [onego, named, Option.bind_eq_bind, Option.ite_none_right_eq_some, Option.bind_eq_some_iff] at h
    obtain ⟨-, ⟨row, times⟩, applied, h⟩ := h
    cases h
    obtain ⟨stored, chosen⟩ := applyPut_replays key encoded (seen_even moved site key).1 (even.rows key) applied
    have name := logRecord_key .put times key wire
    have stamp : row.timestamp = times.ts := stored.stamp.trans (logRecord_ts _ _ _ _)
    refine ⟨.stored row _ (by simp) (by rw [name]; rfl) rfl ?_ ?_, moved.store stamp (time_even moved chosen)⟩
    · rw [name]
      exact stored
    · rw [name]
      rfl
  | replace key value =>
    have named : site.logged key = key := keeps
    simp only [onego, named, Option.ite_none_right_eq_some, Option.some.injEq] at h
    obtain ⟨-, h⟩ := h
    cases applied : applyReplace (seen { s with phantom := move s.phantom site.moves } site key) (s.table key) value with
    | mk row times =>
    rw [applied] at h
    cases h
    obtain ⟨stored, chosen⟩ := applyReplace_replays key (seen_even moved site key).1 applied
    have name := logRecord_key .replace times key value
    have stamp : row.timestamp = times.ts := stored.stamp.trans (logRecord_ts _ _ _ _)
    refine ⟨.stored row _ (by simp) (by rw [name]; rfl) rfl ?_ ?_, moved.store stamp (time_even moved chosen)⟩
    · rw [name]
      exact stored
    · rw [name]
      rfl
  | remove key =>
    cases found : s.table key with
    | none =>
      simp only [onego, found] at h
      cases h
      exact ⟨.missed key rfl found rfl rfl, moved⟩
    | some old =>
      simp only [onego, found] at h
      cases h
      have later := updateTimestamp_gt s.ts old.timestamp
      have time := updateTimestamp_even (x := old.timestamp) even.ts.1
      refine ⟨.removed key old _ rfl found rfl (by simp [logRecord]) (logRecord_key _ _ _ _) ?_ rfl, ?_⟩
      · simpa [logRecord, applyRemove] using later
      · refine ⟨⟨time, Nat.zero_lt_of_lt later⟩, fun leaf => ?_, fun k bag kept => ?_⟩
        · by_cases here : leaf = site.leaf
          · subst here
            simp only [applyRemove, Function.update_self]
            split
            · omega
            · exact moved.phantom _
          · simpa [here] using moved.phantom leaf
        · by_cases same : k = key
          · simp [same] at kept
          · exact even.rows k bag (by simpa [same] using kept)

theorem onego_key {s s' : Server} {site : Site} {request : Request} {lr : LogRecord} (keeps : request.Keeps site)
    (h : s.onego site request = some (s', some lr)) : lr.key = request.key := by
  cases request with
  | put key changes wire =>
    have named : site.logged key = key := keeps
    simp only [onego, named, Option.bind_eq_bind, Option.ite_none_right_eq_some, Option.bind_eq_some_iff] at h
    obtain ⟨-, ⟨row, times⟩, -, h⟩ := h
    cases h
    exact logRecord_key _ _ _ _
  | replace key value =>
    have named : site.logged key = key := keeps
    simp only [onego, named, Option.ite_none_right_eq_some, Option.some.injEq] at h
    obtain ⟨-, h⟩ := h
    cases h
    exact logRecord_key _ _ _ _
  | remove key =>
    unfold onego at h
    dsimp only at h
    split at h
    · cases h
    · cases h
      exact logRecord_key _ _ _ _

/-- Only a remove is logged as one. -/
theorem onego_command {s s' : Server} {site : Site} {request : Request} {lr : LogRecord} (even : s.Even)
    (encoded : request.Encoded) (keeps : request.Keeps site) (plain : ∀ key, request ≠ .remove key)
    (h : s.onego site request = some (s', some lr)) : lr.command ≠ .remove := by
  cases (onego_outcome even encoded keeps h).1 with
  | missed key remove => exact absurd remove (plain key)
  | removed key old lr remove => exact absurd remove (plain key)
  | stored row lr' _ _ same stored =>
    cases same
    exact stored.keep

/-! ### A whole sequence -/

theorem replayLog_cons (lr : LogRecord) (log : List LogRecord) (t : ReplayTable) :
    replayLog (lr :: log) t = (lr.run t).bind (replayLog log) := rfl

theorem present_update (s' : Server) {live : Table} {key : Bytes} {value : Option ValueBag}
    (table : s'.table = Function.update live key value) :
    s'.present = Function.update (fun k => (live k).isSome) key value.isSome := by
  funext k
  by_cases same : k = key
  · simp [present, table, same]
  · simp [present, table, same]

/-- While no remove finds its key, replay follows the live table; the first that does stops it. -/
theorem run_replays {requests : List (Site × Request)} {s s' : Server} {log : List LogRecord} (even : s.Even)
    (encoded : ∀ r ∈ requests, r.2.Encoded) (keeps : ∀ r ∈ requests, r.2.Keeps r.1)
    (live : run requests s = some (s', log)) :
    (Request.RemovesStored requests s.present → replayLog log (replayed s.table) = none) ∧
      (¬ Request.RemovesStored requests s.present → replayLog log (replayed s.table) = some (replayed s'.table) ∧
        s'.Even ∧ (∀ key, s.present key = true → s'.present key = true) ∧
        ∀ lr ∈ log, s'.present lr.key = true) := by
  induction requests generalizing s log with
  | nil =>
    cases live
    exact ⟨False.elim, fun _ => ⟨rfl, even, fun _ => id, by simp⟩⟩
  | cons r rest ih =>
    obtain ⟨site, request⟩ := r
    simp only [run, Option.bind_eq_bind, Option.bind_eq_some_iff] at live
    obtain ⟨⟨mid, logged⟩, one, ⟨last, later⟩, many, live⟩ := live
    cases live
    obtain ⟨outcome, evenMid⟩ := onego_outcome even (encoded _ List.mem_cons_self) (keeps _ List.mem_cons_self) one
    have ih := ih evenMid (fun r member => encoded r (List.mem_cons_of_mem _ member))
      (fun r member => keeps r (List.mem_cons_of_mem _ member)) many
    cases outcome with
    | missed key remove absent quiet same =>
      have remove : request = .remove key := remove
      subst remove
      have unchanged : Request.stored s.present (.remove key) = mid.present := by
        funext k
        simp only [Request.stored, present, same, Function.update_apply]
        split
        · rename_i self
          simp [self, absent]
        · rfl
      have next : Request.RemovesStored ((site, .remove key) :: rest) s.present ↔
          Request.RemovesStored rest mid.present := by
        simp [Request.RemovesStored, unchanged, present, absent]
      have kept : s.present = mid.present := by
        funext k
        simp [present, same]
      rw [next, kept, ← same]
      simpa [quiet] using ih
    | removed key old lr remove found loud command name newer same =>
      have meets : Request.RemovesStored ((site, request) :: rest) s.present :=
        Or.inl ⟨key, remove, by simp [present, found]⟩
      have failed : lr.run (replayed s.table) = none :=
        run_remove command (by simp [replayed, name, found]) newer
      refine ⟨fun _ => ?_, fun keep => absurd meets keep⟩
      simp [loud, replayLog_cons, failed]
    | stored row lr keep present loud change same =>
      have next : Request.RemovesStored ((site, request) :: rest) s.present ↔
          Request.RemovesStored rest mid.present := by
        rw [present_update mid same]
        simp only [Request.RemovesStored, present]
        exact ⟨fun h => h.elim (fun ⟨key, remove, _⟩ => absurd remove (keep key)) id, Or.inr⟩
      have first : lr.run (replayed s.table) = some (replayed mid.table) := by
        rw [run_of_apply change.keep change.applied, same]
      rw [next]
      simp only [loud, Option.toList_some, List.singleton_append, replayLog_cons, first, Option.bind_some]
      refine ⟨ih.1, fun keep => ?_⟩
      obtain ⟨follows, evenLast, grows, logs⟩ := ih.2 keep
      have stored : mid.present lr.key = true := by simp [Server.present, same]
      refine ⟨follows, evenLast, fun key here => grows key ?_, fun l member => ?_⟩
      · rw [present_update mid same]
        by_cases self : key = lr.key
        · simp [self]
        · simpa [self, Server.present] using here
      · rcases List.mem_cons.mp member with rfl | member
        · exact grows _ stored
        · exact logs l member

/-- Of keys that are logged as they were given, sequential replay reproduces the live table exactly when no remove finds
its key. -/
theorem reproduces_iff_no_remove {requests : List (Site × Request)} {s : Server} {log : List LogRecord}
    (encoded : ∀ r ∈ requests, r.2.Encoded) (keeps : ∀ r ∈ requests, r.2.Keeps r.1)
    (live : run requests {} = some (s, log)) :
    Reproduces log s.table ↔ ¬ Request.RemovesStored requests (fun _ => false) := by
  obtain ⟨stops, follows⟩ := run_replays even_initial encoded keeps live
  have empty : replayed (fun _ => none) = fun _ => none := rfl
  have start : (present {}) = fun _ => false := rfl
  rw [empty, start] at stops follows
  constructor
  · rintro ⟨t, replays, -⟩ removes
    rw [stops removes] at replays
    cases replays
  · intro keeps
    obtain ⟨replays, even, -, logs⟩ := follows keeps
    refine ⟨replayed s.table, replays, fun key => ?_⟩
    cases found : s.table key with
    | some bag =>
      have := (even.rows key bag found).1
      simp [replayed, found, rowIsMarker, this]
    | none =>
      have unlogged : ¬ ∃ lr ∈ log, lr.key = key := by
        rintro ⟨lr, member, rfl⟩
        simpa [present, found] using logs lr member
      simp [unlogged, replayed, found]

theorem encoded_byte (key : Bytes) : (Request.put key [(0, [7])] [0, 0xA1, 7]).Encoded :=
  .cons (.fix (by decide)) (.fix (by decide)) .nil

/-- Two puts of one key, a remove of another that is not there, and a replace of it. -/
def keptRequests : List (Site × Request) :=
  [({}, .put [107] [(0, [7])] [0, 0xA1, 7]), ({ leaf := 1 }, .put [107] [(0, [7])] [0, 0xA1, 7]), ({}, .remove [108]),
    ({ moves := [(1, 2)], leaf := 2, reused := some fun _ => 108 }, .replace [108] [9])]

theorem reproduces_kept : ∃ s log, run keptRequests {} = some (s, log) ∧ Reproduces log s.table := by
  obtain ⟨⟨s, log⟩, live⟩ := Option.isSome_iff_exists.mp (show (run keptRequests {}).isSome = true by decide)
  refine ⟨s, log, live, (reproduces_iff_no_remove ?_ ?_ live).mpr ?_⟩
  · simpa [keptRequests, Request.Encoded] using encoded_byte [107]
  · simp [keptRequests, Request.Keeps, Site.logged]
  · simp [keptRequests, Request.RemovesStored, Request.stored]

/-- A key that no record names stays as it was. -/
theorem replayLog_unnamed {log : List LogRecord} {t t' : ReplayTable} {key : Bytes} (replays : replayLog log t = some t')
    (unnamed : ∀ lr ∈ log, lr.key ≠ key) : t' key = t key := by
  induction log generalizing t with
  | nil =>
    cases replays
    rfl
  | cons lr log ih =>
    rw [replayLog_cons, Option.bind_eq_some_iff] at replays
    obtain ⟨mid, ran, later⟩ := replays
    obtain ⟨value, -, stored⟩ := Option.bind_eq_some_iff.mp ran
    have other := unnamed lr List.mem_cons_self
    have named : (if lr.command = .remove then { lr with ts := lr.ts ||| 1, val := removeMarker } else lr).key = lr.key := by
      split <;> rfl
    rw [ih later fun l member => unnamed l (List.mem_cons_of_mem _ member), ← Option.some.inj stored, named,
      Function.update_of_ne (Ne.symm other)]

/-- A log that reproduces the live table names its keys, so that a key logged as other bytes is lost. -/
theorem named_of_reproduces {log : List LogRecord} {live : Table} {key : Bytes} {row : ValueBag}
    (reproduces : Reproduces log live) (found : live key = some row) : ∃ lr ∈ log, lr.key = key := by
  obtain ⟨t, replays, holds⟩ := reproduces
  by_contra unnamed
  have absent := replayLog_unnamed replays fun lr member same => unnamed ⟨lr, member, same⟩
  have present := holds key
  rw [found] at present
  rw [present.1] at absent
  cases absent

example : (run [({ reused := some fun _ => 108 }, .replace [107] [9])] {}).map
    (fun r => (r.1.present [107], r.2.map LogRecord.key)) = some (true, [[108]]) := by decide

/-- A put and the remove of its key. -/
theorem remove_not_reproduced : ¬ ∀ (requests : List (Site × Request)) (s : Server) (log : List LogRecord),
    (∀ r ∈ requests, r.2.Encoded) → run requests {} = some (s, log) → Reproduces log s.table := by
  intro claim
  have encoded : ∀ r ∈ [(({} : Site), Request.put [107] [(0, [7])] [0, 0xA1, 7]), ({}, .remove [107])],
      r.2.Encoded := by simpa [Request.Encoded] using encoded_byte [107]
  obtain ⟨⟨s, log⟩, live⟩ := Option.isSome_iff_exists.mp
    (show (run [({}, .put [107] [(0, [7])] [0, 0xA1, 7]), ({}, .remove [107])] {}).isSome = true by decide)
  obtain ⟨t, replays, -⟩ := claim _ s log encoded live
  have stops := (run_replays even_initial encoded (by simp [Request.Keeps, Site.logged]) live).1
    (by simp [Request.RemovesStored, Request.stored])
  exact absurd (replays.symm.trans stops) (by simp)

end Server

end Masstree
