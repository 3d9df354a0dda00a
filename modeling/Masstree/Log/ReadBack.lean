import Masstree.Log.Sequential
import Masstree.Log.Stored

/-!
# Reading back what was logged

The records a server appends to a log, for the requests `onego` accepts and in any order of its workers, are
those that come back from its bytes, but for keys that `extract` rejects or replay passes over.
-/

namespace Masstree
open Msgpack (Bytes)

/-- The record, without the epoch of its worker. -/
def LogEntry.undated : LogEntry Dated → LogEntry LogRecord
  | .epoch e => .epoch e
  | .op x => .op x.2
  | .wake => .wake
  | .quiesce => .quiesce

/-- `onego` accepts some request and logs `r` for it. The 64-bit timestamps have not wrapped. -/
def LogRecord.Accepted (r : LogRecord) : Prop :=
  ∃ (s s' : Server) (site : Site) (request : Request), s.onego site request = some (s', some r) ∧ s'.ts < 2 ^ 64

theorem logRecord_storable {command : LogCommand} {times : QueryTimes} (key : Bytes) {value : Bytes}
    (kind : command = .put ∨ command = .replace ∨ command = .remove) (older : times.prevTs ≤ times.ts)
    (range : times.ts < 2 ^ 64) (small : (logRecord command times key value).storedSize < 2 ^ 32) :
    LogBytes.Storable (logRecord command times key value) := by
  unfold logRecord at small ⊢
  split at small
  · rename_i modify
    rw [if_pos modify]
    exact ⟨.inr (.inr (.inr rfl)), fun no => absurd rfl no, rfl, range, Nat.lt_of_le_of_lt older range, small⟩
  · rename_i plain
    rw [if_neg plain]
    refine ⟨?_, fun _ => rfl, rfl, range, Nat.lt_of_le_of_lt (Nat.zero_le _) range, small⟩
    rcases kind with rfl | rfl | rfl
    · exact .inl rfl
    · exact .inr (.inl rfl)
    · exact .inr (.inr (.inl rfl))

theorem applyPut_times {ts : Nat} {value : Option ValueBag} {changes : Changes} {row : ValueBag} {times : QueryTimes}
    (put : applyPut ts value changes = some (row, times)) : times.prevTs ≤ times.ts := by
  unfold applyPut at put
  split at put
  · obtain ⟨row, -, same⟩ := Option.bind_eq_some_iff.mp put
    cases same
    exact Nat.zero_le _
  · rename_i old
    have later := Nat.le_of_lt (Server.updateTimestamp_gt ts old.timestamp)
    dsimp only at put
    split at put
    · obtain ⟨row, -, same⟩ := Option.bind_eq_some_iff.mp put
      cases same
      exact Nat.zero_le _
    · obtain ⟨row, -, same⟩ := Option.bind_eq_some_iff.mp put
      cases same
      exact later

theorem applyReplace_times (ts : Nat) (value : Option ValueBag) (v : Bytes) :
    (applyReplace ts value v).2.prevTs ≤ (applyReplace ts value v).2.ts := by
  cases value with
  | none => exact Nat.zero_le _
  | some old => exact Nat.le_of_lt (Server.updateTimestamp_gt ts old.timestamp)

theorem LogRecord.Accepted.storable {r : LogRecord} (accepted : r.Accepted) (small : r.storedSize < 2 ^ 32) :
    LogBytes.Storable r := by
  obtain ⟨s, s', site, request, ran, range⟩ := accepted
  cases request with
  | put key changes wire =>
    obtain ⟨-, ran⟩ := Option.ite_none_right_eq_some.mp ran
    obtain ⟨⟨row, times⟩, put, same⟩ := Option.bind_eq_some_iff.mp ran
    cases same
    exact logRecord_storable _ (.inl rfl) (applyPut_times put) range small
  | replace key value =>
    obtain ⟨-, ran⟩ := Option.ite_none_right_eq_some.mp ran
    cases ran
    exact logRecord_storable _ (.inr (.inl rfl)) (applyReplace_times _ _ value) range small
  | remove key =>
    unfold Server.onego at ran
    dsimp only at ran
    split at ran
    · cases ran
    · rename_i old found
      cases ran
      exact logRecord_storable key (.inr (.inr rfl)) (Nat.le_of_lt (Server.updateTimestamp_gt _ _)) range small

namespace BusyLog

structure Appended (s : BusyLog) : Prop where
  positive : 0 < s.globalLogEpoch
  current : s.log.logEpoch = s.log.stream.lastEpoch 0
  dated : ∀ p ∈ s.log.stream.ops 0, p.1 ≠ 0
  bounded : ∀ e ∈ s.log.stream.epochs, e ≤ s.globalLogEpoch
  fits : ∀ x, .op x ∈ s.log.stream → x.2.Accepted ∧ x.2.storedSize ≤ s.len
  holder : ∀ e x, s.log.holder = some (e, x) → 0 < e ∧ e ≤ s.globalLogEpoch
  waiting : ∀ x ∈ s.waiting, 0 < x.1 ∧ x.1 ≤ s.globalLogEpoch ∧ x.2.Accepted
  landed : s.log.flying = false → s.log.flight = []

/-- The record of the event, if it has one, was logged for a request. -/
def Requested : BusyEvent → Prop
  | .record r => r.Accepted
  | _ => True

theorem storedSize_le_room (r : LogRecord) : r.storedSize ≤ r.room := by
  unfold LogRecord.storedSize LogRecord.room
  split <;> omega

theorem appended_started (epoch len : Nat) : (started epoch len).Appended := by
  refine ⟨Nat.succ_pos _, rfl, ?_, ?_, ?_, ?_, ?_, fun _ => rfl⟩
  all_goals simp [started, LogState.stream, LogFile.ops, LogFile.epochs]

theorem appended_append {s : BusyLog} (good : s.Appended) {x : Dated} {waiting : List Dated} (fits : s.Fits x.2)
    (positive : 0 < x.1) (bound : x.1 ≤ s.globalLogEpoch) (accepted : x.2.Accepted)
    (left : waiting.Sublist s.waiting) : (s.append x waiting).Appended := by
  obtain ⟨epoch, wake, appends, dated, free, kind, kind'⟩ := LogState.record_appends s.globalWakeEpoch x.1 x s.log
  have stream := appends.stream
  rw [good.current] at kind
  have ops : LogFile.ops (s.log.stream.lastEpoch 0) (epoch ++ wake ++ [LogEntry.op x]) = [(x.1, x)] := by
    rcases kind with rfl | ⟨rfl, same⟩ <;> rcases kind' with rfl | rfl
    all_goals simp [LogFile.ops]
    all_goals exact same
  have last : LogFile.lastEpoch (s.log.stream.lastEpoch 0) (epoch ++ wake ++ [LogEntry.op x]) = x.1 := by
    rcases kind with rfl | ⟨rfl, same⟩ <;> rcases kind' with rfl | rfl
    all_goals simp
    all_goals exact same
  have epochs : ∀ e ∈ LogFile.epochs (epoch ++ wake ++ [LogEntry.op x]), e = x.1 := by
    rcases kind with rfl | ⟨rfl, -⟩ <;> rcases kind' with rfl | rfl
    all_goals simp [LogFile.epochs]
  have members : ∀ y, .op y ∈ epoch ++ wake ++ [LogEntry.op x] → y = x := by
    intro y member
    rcases kind with rfl | ⟨rfl, -⟩ <;> rcases kind' with rfl | rfl
    all_goals simpa using member
  refine ⟨good.positive, ?_, ?_, ?_, ?_, by simp [append, free], fun y member => good.waiting y (left.subset member), ?_⟩
  · exact dated.trans (by rw [append, stream, LogFile.lastEpoch_append, last])
  · simp only [append]
    rw [stream, LogFile.ops_append, ops]
    intro p member
    rcases List.mem_append.mp member with old | new
    · exact good.dated p old
    · rw [List.mem_singleton.mp new]
      exact Nat.ne_of_gt positive
  · simp only [append]
    rw [stream, LogFile.epochs_append]
    intro e member
    rcases List.mem_append.mp member with old | new
    · exact good.bounded e old
    · rw [epochs e new]
      exact bound
  · simp only [append]
    rw [stream]
    intro y member
    rcases List.mem_append.mp member with old | new
    · exact good.fits y old
    · rw [members y new]
      refine ⟨accepted, Nat.le_trans (storedSize_le_room x.2) ?_⟩
      unfold Fits at fits
      omega
  · simp only [append]
    rw [appends.flying, appends.flight]
    exact good.landed

theorem appended_poll {s : BusyLog} (good : s.Appended) (free : s.log.holder = none) (idle : s.log.flying = false) :
    Appended { s with log := s.pollLog } := by
  obtain ⟨polled, file, holder, -⟩ := pollLog_polled s
  have empty := good.landed idle
  have unheld : ∀ e x, s.pollLog.holder = some (e, x) → 0 < e ∧ e ≤ s.globalLogEpoch := by simp [holder, free]
  have same : s.pollLog.stream = s.log.stream → s.pollLog.logEpoch = s.log.logEpoch →
      (s.pollLog.flying = false → s.pollLog.flight = []) → Appended { s with log := s.pollLog } := by
    intro stream logEpoch landed
    refine ⟨good.positive, ?_, ?_, ?_, ?_, unheld, good.waiting, landed⟩
    · rw [stream, logEpoch]
      exact good.current
    all_goals rw [stream]
    · exact good.dated
    · exact good.bounded
    · exact good.fits
  cases polled with
  | idle buf flight flying logEpoch quiescent none =>
    refine same ?_ logEpoch (by rw [flying, flight]; exact good.landed)
    simp [LogState.stream, file, flight, buf, none]
  | notice buf flight flying xEpoch logEpoch none alone =>
    have stream : s.pollLog.stream = s.log.stream ++ [.epoch s.globalLogEpoch, .quiesce] := by
      simp [LogState.stream, file, flight, buf, none, empty]
    refine ⟨good.positive, ?_, ?_, ?_, ?_, unheld, good.waiting, by simp [flying]⟩
    · rw [stream, LogFile.lastEpoch_append]
      exact logEpoch
    all_goals rw [stream]
    · rw [LogFile.ops_append]
      simpa [LogFile.ops] using good.dated
    · rw [LogFile.epochs_append]
      intro e member
      rcases List.mem_append.mp member with old | new
      · exact good.bounded e old
      · rw [List.mem_singleton.mp new]
    · intro x member
      exact good.fits x (by simpa using member)
  | swap buf flight flying xEpoch logEpoch quiescent =>
    refine same ?_ logEpoch (by simp [flying])
    simp [LogState.stream, file, flight, buf, empty]

theorem appended_write {s : BusyLog} (good : s.Appended) {entry : LogEntry Dated} {rest : LogFile Dated}
    (flight : s.log.flight = entry :: rest) :
    Appended { s with log := { s.log with file := s.log.file ++ [entry], flight := rest } } := by
  have stream : (LogState.stream { s.log with file := s.log.file ++ [entry], flight := rest }) = s.log.stream := by
    simp [LogState.stream, flight]
  refine ⟨good.positive, ?_, ?_, ?_, ?_, good.holder, good.waiting, ?_⟩
  · rw [stream]
    exact good.current
  · rw [stream]
    exact good.dated
  · rw [stream]
    exact good.bounded
  · rw [stream]
    exact good.fits
  · intro landed
    rw [good.landed landed] at flight
    cases flight

theorem step_appended {s : BusyLog} (good : s.Appended) {event : BusyEvent} (requested : Requested event) :
    (s.step event).Appended := by
  cases event with
  | acquire =>
    simp only [step]
    split
    · refine { good with holder := ?_ }
      rintro e x ⟨⟩
      exact ⟨good.positive, Nat.le_refl _⟩
    · exact good
  | record r =>
    simp only [step]
    split
    · rename_i e x held
      obtain ⟨positive, bound⟩ := good.holder e x held
      split
      · rename_i fits
        exact appended_append good fits positive bound requested (List.Sublist.refl _)
      · refine { good with holder := by simp, waiting := ?_ }
        intro y member
        rcases List.mem_append.mp member with old | new
        · exact good.waiting y old
        · rw [List.mem_singleton.mp new]
          exact ⟨positive, bound, requested⟩
    · exact good
  | retry i =>
    simp only [step]
    split
    · rename_i x free queued
      split
      · rename_i turn
        obtain ⟨positive, bound, accepted⟩ := good.waiting x (List.mem_of_getElem? queued)
        exact appended_append good turn.2 positive bound accepted (List.tail_sublist _)
      · exact good
    · exact good
  | poll =>
    simp only [step]
    split
    · rename_i ready
      exact appended_poll good (by simpa using ready.1) ready.2
    · exact good
  | write =>
    simp only [step]
    split
    · exact appended_write good ‹_›
    · exact good
  | fsync =>
    simp only [step]
    split
    · rename_i ready
      exact { good with landed := fun _ => by simpa using ready.2 }
    · exact good
  | tick =>
    refine { good with positive := Nat.succ_pos _, bounded := ?_, holder := ?_, waiting := ?_ }
    · exact fun e member => Nat.le_succ_of_le (good.bounded e member)
    · intro e x held
      obtain ⟨positive, bound⟩ := good.holder e x held
      exact ⟨positive, Nat.le_succ_of_le bound⟩
    · intro x member
      obtain ⟨positive, bound, accepted⟩ := good.waiting x member
      exact ⟨positive, Nat.le_succ_of_le bound, accepted⟩
  | otherWake e => exact { good with }

theorem step_len (s : BusyLog) (event : BusyEvent) : (s.step event).len = s.len := by
  cases event with
  | tick | otherWake => rfl
  | acquire | poll | write | fsync =>
    simp only [step]
    split <;> rfl
  | record r =>
    simp only [step]
    split
    · split <;> rfl
    · rfl
  | retry i =>
    simp only [step]
    split
    · split <;> rfl
    · rfl

theorem run_appended {s : BusyLog} (good : s.Appended) {events : List BusyEvent}
    (requested : ∀ event ∈ events, Requested event) : (s.run events).Appended ∧ (s.run events).len = s.len := by
  induction events generalizing s with
  | nil => exact ⟨good, rfl⟩
  | cons event rest ih =>
    obtain ⟨later, len⟩ := ih (step_appended good (requested event List.mem_cons_self))
      fun event member => requested event (List.mem_cons_of_mem _ member)
    exact ⟨later, len.trans (step_len s event)⟩

end BusyLog

namespace LogFile

def undated (f : LogFile Dated) : LogFile LogRecord := f.map LogEntry.undated

theorem ops_undated (e : Nat) (f : LogFile Dated) : f.undated.ops e = (f.ops e).map fun p => (p.1, p.2.2) := by
  induction f generalizing e with
  | nil => rfl
  | cons entry f ih =>
    cases entry with
    | epoch e' => exact ih e'
    | op x => exact congrArg _ (ih e)
    | _ => exact ih e

theorem epochs_undated (f : LogFile Dated) : f.undated.epochs = f.epochs := by
  induction f with
  | nil => rfl
  | cons entry f ih =>
    cases entry with
    | epoch e => exact congrArg _ ih
    | _ => exact ih

theorem epoch_mem {f : LogFile Dated} {e : Nat} (member : .epoch e ∈ f) : e ∈ f.epochs := by
  induction f with
  | nil => cases member
  | cons entry f ih =>
    rcases List.mem_cons.mp member with rfl | later
    · exact List.mem_cons_self
    · cases entry with
      | epoch e' => exact List.mem_cons_of_mem _ (ih later)
      | _ => exact ih later

end LogFile

namespace BusyLog

/-- What a server appends to a log is read back, whatever a torn write leaves after it, if no key is empty or
longer than `MASSTREE_MAXKEYLEN`. -/
theorem reads_back_iff {epoch len : Nat} {events : List BusyEvent} (requested : ∀ event ∈ events, Requested event)
    (range : len < 2 ^ 32) (unwrapped : ((started epoch len).run events).globalLogEpoch + 1 < 2 ^ 63)
    {tail file : Bytes} (torn : ¬ LogBytes.Whole tail)
    (stores : LogBytes.Stores tail ((started epoch len).run events).log.stream.undated file) :
    LogBytes.ReadsBack ((started epoch len).run events).log.stream.undated tail file ↔
      ∀ r, .op r ∈ ((started epoch len).run events).log.stream.undated → r.key ≠ [] ∧ r.key.length ≤ maxKeyLen := by
  obtain ⟨good, same⟩ := run_appended (appended_started epoch len) requested
  generalize (started epoch len).run events = s at *
  refine LogBytes.readsBack_stores torn stores ?_ ?_ unwrapped ?_
  · intro entry member
    obtain ⟨dated, within, rfl⟩ := List.mem_map.mp member
    cases dated with
    | epoch e =>
      have bound := good.bounded e (LogFile.epoch_mem within)
      exact Nat.lt_of_le_of_lt bound (Nat.lt_of_succ_lt unwrapped)
    | op x =>
      obtain ⟨accepted, fits⟩ := good.fits x within
      refine accepted.storable (Nat.lt_of_le_of_lt fits ?_)
      rw [same]
      exact range
    | wake => trivial
    | quiesce => trivial
  · intro e member
    rw [LogFile.epochs_undated] at member
    exact Nat.lt_succ_of_le (good.bounded e member)
  · intro p member
    rw [LogFile.ops_undated] at member
    obtain ⟨q, dated, rfl⟩ := List.mem_map.mp member
    exact good.dated q dated

def replaceRecord (key : Bytes) : LogRecord := { command := .replace, key, val := [7], ts := 2 }

def replaceEvents (key : Bytes) : List BusyEvent := [.acquire, .record (replaceRecord key)]

def replaceFile (key : Bytes) : Bytes :=
  LogBytes.storeEpoch 1 ++ (LogBytes.storeKv (replaceRecord key) [0, 0, 0, 0] ++ [])

theorem replaceEvents_requested (key : Bytes) : ∀ event ∈ replaceEvents key, Requested event := by
  intro event member
  rcases List.mem_cons.mp member with rfl | later
  · trivial
  · rw [List.mem_singleton.mp later]
    have ts : 2 < 2 ^ 64 := by decide
    exact ⟨{}, _, {}, .replace key [7], rfl, ts⟩

theorem reads_back_small :
    LogBytes.ReadsBack ((started 0 bufferLength).run (replaceEvents [1])).log.stream.undated [] (replaceFile [1]) := by
  refine (reads_back_iff (replaceEvents_requested [1]) (by decide) (by decide) (by decide)
    (.epoch (.kv (by decide) rfl .nil))).mpr fun r member => ?_
  have only : ((started 0 bufferLength).run (replaceEvents [1])).log.stream.undated =
    [.epoch 1, .op (replaceRecord [1])] := rfl
  rw [only] at member
  obtain rfl : r = replaceRecord [1] := by simpa using member
  decide

theorem empty_key_skipped :
    (∀ event ∈ replaceEvents [], Requested event) ∧
    LogBytes.Stores [] ((started 0 bufferLength).run (replaceEvents [])).log.stream.undated (replaceFile []) ∧
    ¬ LogBytes.ReadsBack ((started 0 bufferLength).run (replaceEvents [])).log.stream.undated [] (replaceFile []) := by
  refine ⟨replaceEvents_requested [], .epoch (.kv (by decide) rfl .nil), fun back => ?_⟩
  have skipped : LogBytes.replayScan 0 2 (replaceFile []) = some [] := by decide
  have replay := back.replay 0 2 (by decide) (by decide)
  rw [skipped] at replay
  cases replay

end BusyLog

end Masstree
