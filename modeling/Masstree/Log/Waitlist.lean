import Masstree.Log.Logset
import Masstree.Log.Query

/-!
# Workers that wait for room in a log

A log's buffer has a fixed length. A worker whose record does not fit joins the log's wait list, releases
the log and tries again when it is the first one waiting; the epoch it read stays that of its record.
Any number of workers share the log. What the other logs do to `global_wake_epoch` is a step of its own.
-/

namespace Masstree
open Msgpack (Bytes)

/-- A record and the epoch its worker read when it acquired the log. -/
abbrev Dated := Nat × LogRecord

/-- `logrec_kv::store` and `logrec_kvdelta::store`: the bytes a record takes. -/
def LogRecord.storedSize (r : LogRecord) : Nat :=
  (if r.command = .modify then 32 else 24) + r.key.length + r.val.length

def LogEntry.storedSize : LogEntry Dated → Nat
  | .epoch _ => 16
  | .wake | .quiesce => 8
  | .op x => x.2.storedSize

/-- The room `loginfo::record` asks for: a `logrec_kvdelta`, an epoch record and a wake. -/
def LogRecord.room (r : LogRecord) : Nat := 32 + r.key.length + r.val.length + 16 + 8

/-- One log, its wait list and the two global epochs. -/
structure BusyLog where
  globalLogEpoch : Nat
  globalWakeEpoch : Nat
  /-- `len_` -/
  len : Nat
  log : LogState Dated
  /-- `f_.waiting_` -/
  waiting : List Dated

inductive BusyEvent where
  | acquire
  | record (r : LogRecord)
  | retry (i : Nat)
  | poll
  | write
  | fsync
  | tick
  | otherWake (e : Nat)
  deriving DecidableEq

namespace BusyLog

def pos (s : BusyLog) : Nat := (s.log.buf.map LogEntry.storedSize).sum

/-- `len_ - pos_ >= n` -/
def Fits (s : BusyLog) (r : LogRecord) : Prop := s.pos + r.room ≤ s.len

instance (s : BusyLog) (r : LogRecord) : Decidable (s.Fits r) := inferInstanceAs (Decidable (_ ≤ _))

def append (s : BusyLog) (x : Dated) (waiting : List Dated) : BusyLog :=
  let (log, we) := s.log.record s.globalWakeEpoch x.1 x
  { s with log, globalWakeEpoch := we, waiting }

/-- One round of the log's thread up to the release of the lock. With workers waiting it writes no notice. -/
def pollLog (s : BusyLog) : LogState Dated :=
  let log := s.log.copyWake s.globalWakeEpoch
  (if s.waiting.isEmpty then log.notice s.globalLogEpoch s.globalWakeEpoch else log).swap

/-- One step of a worker, of the log's thread or of the epochs. A step that cannot happen changes nothing. -/
def step (s : BusyLog) : BusyEvent → BusyLog
  | .acquire =>
    match s.log.holder with
    | none => { s with log := { s.log with holder := some (s.globalLogEpoch, none) } }
    | some _ => s
  | .record r =>
    match s.log.holder with
    | some (e, _) =>
      if s.Fits r then s.append (e, r) s.waiting
      else { s with log := { s.log with holder := none }, waiting := s.waiting ++ [(e, r)] }
    | none => s
  | .retry i =>
    match s.log.holder, s.waiting[i]? with
    | none, some x => if i = 0 ∧ s.Fits x.2 then s.append x s.waiting.tail else s
    | _, _ => s
  | .poll => if s.log.holder.isNone ∧ s.log.flying = false then { s with log := s.pollLog } else s
  | .write =>
    match s.log.flight with
    | entry :: rest => { s with log := { s.log with file := s.log.file ++ [entry], flight := rest } }
    | [] => s
  | .fsync =>
    if s.log.flying ∧ s.log.flight.isEmpty then
      { s with log := { s.log with flying := false, flushedEpoch := s.log.xEpoch } }
    else s
  | .tick => { s with globalLogEpoch := s.globalLogEpoch + 1 }
  | .otherWake e => { s with globalWakeEpoch := max s.globalWakeEpoch e }

def run (s : BusyLog) : List BusyEvent → BusyLog
  | [] => s
  | event :: rest => run (s.step event) rest

def started (epoch len : Nat) : BusyLog :=
  { globalLogEpoch := epoch + 1, globalWakeEpoch := 0, len, log := {}, waiting := [] }

def Submitted (s : BusyLog) (x : Dated) : Prop := .op x ∈ s.log.stream ∨ x ∈ s.waiting

/-- Epoch records never go backwards, each data record comes after the epoch record of its own epoch with no
other in between, and all records from before `flushed_epoch_` are on disk. -/
structure EpochsOk (s : BusyLog) : Prop where
  sorted : s.log.stream.epochs.Pairwise (· ≤ ·)
  dated : ∀ (before after : LogFile Dated) x, s.log.stream = before ++ .op x :: after →
    .epoch x.1 ∈ before ∧ before.lastEpoch 0 = x.1
  flushed : ∀ x, s.Submitted x → x.1 < s.log.flushedEpoch → .op x ∈ s.log.file

/-- No worker that is not waiting finds room while others wait. -/
def InTurn (s : BusyLog) : BusyEvent → Prop
  | .record r => s.waiting = [] ∨ ¬ s.Fits r
  | _ => True

def Orderly (s : BusyLog) : List BusyEvent → Prop
  | [] => True
  | event :: rest => s.InTurn event ∧ Orderly (s.step event) rest

instance (s : BusyLog) (event : BusyEvent) : Decidable (s.InTurn event) :=
  match event with
  | .record r => inferInstanceAs (Decidable (s.waiting = [] ∨ ¬ s.Fits r))
  | .acquire | .retry _ | .poll | .write | .fsync | .tick | .otherWake _ => inferInstanceAs (Decidable True)

instance decidableOrderly : (s : BusyLog) → (events : List BusyEvent) → Decidable (s.Orderly events)
  | _, [] => inferInstanceAs (Decidable True)
  | s, event :: rest =>
    have := decidableOrderly (s.step event) rest
    inferInstanceAs (Decidable (s.InTurn event ∧ Orderly (s.step event) rest))

/-! ### The invariant -/

structure Good (s : BusyLog) : Prop where
  positive : 0 < s.globalLogEpoch
  follows : s.log.stream.Follows 0
  current : s.log.logEpoch = s.log.stream.lastEpoch 0
  bounded : s.log.logEpoch ≤ s.globalLogEpoch
  own : ∀ p ∈ s.log.stream.ops 0, p.1 = p.2.1
  queue : s.waiting.Pairwise fun x y => x.1 ≤ y.1
  waiting : ∀ x ∈ s.waiting, s.log.logEpoch ≤ x.1 ∧ x.1 ≤ s.globalLogEpoch ∧ 0 < x.1
  holder : ∀ e x, s.log.holder = some (e, x) →
    s.log.logEpoch ≤ e ∧ e ≤ s.globalLogEpoch ∧ 0 < e ∧ ∀ y ∈ s.waiting, y.1 ≤ e
  landed : s.log.flying = false → s.log.flight = []
  flushed : s.log.flushedEpoch ≤ s.log.logEpoch
  unflushed : ∀ x, .op x ∈ s.log.flight ++ s.log.buf → s.log.flushedEpoch ≤ x.1
  flying : s.log.flying = true → s.log.xEpoch ≤ s.log.logEpoch ∧ ∀ x, .op x ∈ s.log.buf → s.log.xEpoch ≤ x.1
  quiet : s.log.quiescentEpoch ≠ 0 → ∀ x, .op x ∉ s.log.flight ++ s.log.buf

/-- What `record` does to the variables that are no record. -/
theorem record_frame (we e : Nat) (x : Dated) (l : LogState Dated) :
    (l.record we e x).1.quiescentEpoch = 0 ∧ (l.record we e x).1.xEpoch = l.xEpoch ∧
      ((l.record we e x).1.flushedEpoch = l.flushedEpoch ∨
        l.quiescentEpoch ≠ 0 ∧ (l.record we e x).1.flushedEpoch = e) := by
  have first : (l.recordEpoch e).quiescentEpoch = l.quiescentEpoch ∧ (l.recordEpoch e).xEpoch = l.xEpoch ∧
      (l.recordEpoch e).flushedEpoch = l.flushedEpoch := by
    unfold LogState.recordEpoch
    split <;> exact ⟨rfl, rfl, rfl⟩
  have last : ∀ (we : Nat) (l : LogState Dated), (l.recordWake we e).quiescentEpoch = l.quiescentEpoch ∧
      (l.recordWake we e).xEpoch = l.xEpoch ∧ (l.recordWake we e).flushedEpoch = l.flushedEpoch := by
    intro we l
    unfold LogState.recordWake
    generalize (if we ≠ l.wakeEpoch ∧ e < we then e else we) = we
    dsimp only
    split <;> exact ⟨rfl, rfl, rfl⟩
  obtain ⟨quiescent, xEpoch, flushed⟩ := last ((l.recordEpoch e).awaken we e).2 ((l.recordEpoch e).awaken we e).1
  unfold LogState.record
  dsimp only
  rw [quiescent, xEpoch, flushed, ← first.1, ← first.2.1, ← first.2.2]
  unfold LogState.awaken
  split
  · rename_i awake
    dsimp only
    refine ⟨rfl, rfl, ?_⟩
    split
    · exact .inr ⟨awake, rfl⟩
    · exact .inl rfl
  · rename_i asleep
    exact ⟨by simpa using asleep, rfl, .inl rfl⟩

theorem started_good (epoch len : Nat) : (started epoch len).Good := by
  refine ⟨Nat.succ_pos _, trivial, rfl, Nat.zero_le _, ?_, .nil, ?_, ?_, fun _ => rfl, Nat.le_refl _, ?_, ?_, ?_⟩
  all_goals simp [started, LogState.stream, LogFile.ops]

/-- The records of the worker whose turn it is are no older than what is in the log, and no later than what
waits behind it. -/
theorem good_append {s : BusyLog} (good : s.Good) {x : Dated} {waiting : List Dated}
    (late : s.log.logEpoch ≤ x.1) (bound : x.1 ≤ s.globalLogEpoch) (positive : 0 < x.1)
    (left : waiting.Sublist s.waiting) (first : ∀ y ∈ waiting, x.1 ≤ y.1) : (s.append x waiting).Good := by
  obtain ⟨epoch, wake, appends, dated, free, kind, kind'⟩ :=
    LogState.record_appends s.globalWakeEpoch x.1 x s.log
  obtain ⟨awake, xEpoch, flushed⟩ := record_frame s.globalWakeEpoch x.1 x s.log
  rw [good.current] at late kind
  obtain ⟨follows, last, ops, -, -⟩ := LogState.record_entries (x := x) late positive kind kind' rfl
  have stream := appends.stream
  have members : ∀ y, .op y ∈ epoch ++ wake ++ [LogEntry.op x] → y = x := by
    intro y member
    rcases kind with rfl | ⟨rfl, -⟩ <;> rcases kind' with rfl | rfl
    all_goals simpa using member
  have older : s.log.flushedEpoch ≤ x.1 := Nat.le_trans good.flushed (by rw [good.current]; exact late)
  unfold append
  refine ⟨good.positive, ?_, ?_, ?_, ?_, good.queue.sublist left, ?_, by simp [free], ?_, ?_, ?_, ?_, ?_⟩
  · rw [stream, LogFile.follows_append]
    exact ⟨good.follows, follows⟩
  · rw [stream, LogFile.lastEpoch_append, last, dated]
  · rw [dated]
    exact bound
  · rw [stream, LogFile.ops_append, ops]
    intro p member
    rcases List.mem_append.mp member with old | new
    · exact good.own p old
    · rw [List.mem_singleton.mp new]
  · intro y member
    obtain ⟨-, above, nonzero⟩ := good.waiting y (left.subset member)
    rw [dated]
    exact ⟨first y member, above, nonzero⟩
  · rw [appends.flying, appends.flight]
    exact good.landed
  · rw [dated]
    rcases flushed with same | ⟨-, same⟩
    · rw [same]
      exact older
    · rw [same]
  · rw [appends.flight, appends.buf, ← List.append_assoc]
    intro y member
    rcases List.mem_append.mp member with old | new
    · rcases flushed with same | ⟨quiescent, -⟩
      · rw [same]
        exact good.unflushed y old
      · exact absurd old (good.quiet quiescent y)
    · rw [members y new]
      rcases flushed with same | ⟨-, same⟩
      · rw [same]
        exact older
      · rw [same]
  · rw [appends.flying, xEpoch, dated, appends.buf]
    intro flying
    obtain ⟨before, after⟩ := good.flying flying
    rw [good.current] at before
    refine ⟨Nat.le_trans before late, fun y member => ?_⟩
    rcases List.mem_append.mp member with old | new
    · exact after y old
    · rw [members y new]
      exact Nat.le_trans before late
  · rw [awake]
    exact fun absurd_ => absurd rfl absurd_

/-- A worker whose record does not fit is the youngest of those that wait. -/
theorem good_stall {s : BusyLog} (good : s.Good) {e : Nat} {x : Option Dated} (held : s.log.holder = some (e, x))
    (r : LogRecord) :
    Good { s with log := { s.log with holder := none }, waiting := s.waiting ++ [(e, r)] } := by
  obtain ⟨late, bound, positive, first⟩ := good.holder e x held
  refine { good with queue := ?_, waiting := ?_, holder := by simp }
  · refine List.pairwise_append.mpr ⟨good.queue, List.pairwise_singleton _ _, fun y member z last => ?_⟩
    rw [List.mem_singleton.mp last]
    exact first y member
  · intro y member
    rcases List.mem_append.mp member with old | new
    · exact good.waiting y old
    · rw [List.mem_singleton.mp new]
      exact ⟨late, bound, positive⟩

theorem good_acquire {s : BusyLog} (good : s.Good) :
    Good { s with log := { s.log with holder := some (s.globalLogEpoch, none) } } := by
  refine { good with holder := ?_ }
  rintro e x ⟨⟩
  exact ⟨good.bounded, Nat.le_refl _, good.positive, fun y member => (good.waiting y member).2.1⟩

/-- What a poll leaves: a log with nothing to write, a notice in flight, or the buffer in flight. -/
inductive Polled (s : BusyLog) (l : LogState Dated) : Prop where
  | idle : l.buf = [] → l.flight = s.log.flight → l.flying = s.log.flying → l.logEpoch = s.log.logEpoch →
      (l.quiescentEpoch = s.log.quiescentEpoch ∨ l.quiescentEpoch = 0) → s.log.buf = [] → Polled s l
  | notice : l.buf = [] → l.flight = [.epoch s.globalLogEpoch, .quiesce] → l.flying = true →
      l.xEpoch = s.globalLogEpoch → l.logEpoch = s.globalLogEpoch → s.log.buf = [] → s.waiting = [] → Polled s l
  | swap : l.buf = [] → l.flight = s.log.buf → l.flying = true → l.xEpoch = s.log.logEpoch →
      l.logEpoch = s.log.logEpoch → (l.quiescentEpoch = s.log.quiescentEpoch ∨ l.quiescentEpoch = 0) → Polled s l

theorem pollLog_polled (s : BusyLog) : Polled s s.pollLog ∧ s.pollLog.file = s.log.file ∧
    s.pollLog.holder = s.log.holder ∧ s.pollLog.flushedEpoch = s.log.flushedEpoch := by
  obtain ⟨quiescent, copied, kept⟩ : ∃ quiescent, s.log.copyWake s.globalWakeEpoch =
      { s.log with wakeEpoch := s.globalWakeEpoch, quiescentEpoch := quiescent } ∧
        (quiescent = s.log.quiescentEpoch ∨ quiescent = 0) := by
    unfold LogState.copyWake
    split
    · exact ⟨0, rfl, .inr rfl⟩
    · rename_i same
      have same : s.log.wakeEpoch = s.globalWakeEpoch := by simpa using same
      rw [← same]
      exact ⟨s.log.quiescentEpoch, rfl, .inl rfl⟩
  have swapped : Polled s (LogState.swap { s.log with wakeEpoch := s.globalWakeEpoch, quiescentEpoch := quiescent }) ∧
      (LogState.swap { s.log with wakeEpoch := s.globalWakeEpoch, quiescentEpoch := quiescent }).file = s.log.file ∧
      (LogState.swap { s.log with wakeEpoch := s.globalWakeEpoch, quiescentEpoch := quiescent }).holder = s.log.holder ∧
      (LogState.swap { s.log with wakeEpoch := s.globalWakeEpoch, quiescentEpoch := quiescent }).flushedEpoch =
        s.log.flushedEpoch := by
    unfold LogState.swap
    split
    · rename_i empty
      have empty : s.log.buf = [] := by simpa using empty
      exact ⟨.idle empty rfl rfl rfl kept empty, rfl, rfl, rfl⟩
    · exact ⟨.swap rfl rfl rfl rfl rfl kept, rfl, rfl, rfl⟩
  unfold pollLog
  rw [copied]
  dsimp only
  split
  · rename_i alone
    have alone : s.waiting = [] := by simpa using alone
    unfold LogState.notice
    split
    · rename_i quiet
      obtain ⟨empty, -, -, other⟩ := quiet
      have empty : s.log.buf = [] := by simpa using empty
      have unwoken : ¬ s.globalLogEpoch = s.globalWakeEpoch := other
      simp only [if_neg unwoken, List.nil_append, LogState.swap]
      exact ⟨.notice rfl rfl rfl rfl rfl empty alone, rfl, rfl, rfl⟩
    · exact swapped
  · exact swapped

theorem good_poll {s : BusyLog} (good : s.Good) (free : s.log.holder = none) (idle : s.log.flying = false) :
    Good { s with log := s.pollLog } := by
  obtain ⟨polled, file, holder, flushed⟩ := pollLog_polled s
  have empty := good.landed idle
  have unheld : ∀ e x, s.pollLog.holder = some (e, x) → s.pollLog.logEpoch ≤ e ∧ e ≤ s.globalLogEpoch ∧ 0 < e ∧
      ∀ y ∈ s.waiting, y.1 ≤ e := by simp [holder, free]
  cases polled with
  | idle buf flight flying logEpoch quiescent none =>
    have stream : s.pollLog.stream = s.log.stream := by simp [LogState.stream, file, flight, buf, none]
    refine ⟨good.positive, by rw [stream]; exact good.follows, ?_, ?_, by rw [stream]; exact good.own, good.queue, ?_,
      unheld, ?_, ?_, ?_, ?_, ?_⟩
    · rw [stream, logEpoch]
      exact good.current
    · rw [logEpoch]
      exact good.bounded
    · rw [logEpoch]
      exact good.waiting
    · rw [flying, flight]
      exact good.landed
    · rw [flushed, logEpoch]
      exact good.flushed
    · simp [flight, empty, buf]
    · rw [flying, idle]
      intro impossible
      cases impossible
    · simp [flight, empty, buf]
  | notice buf flight flying xEpoch logEpoch none alone =>
    have stream : s.pollLog.stream = s.log.stream ++ [.epoch s.globalLogEpoch, .quiesce] := by
      simp [LogState.stream, file, flight, buf, none, empty]
    have late : s.log.stream.lastEpoch 0 ≤ s.globalLogEpoch := by
      rw [← good.current]
      exact good.bounded
    refine ⟨good.positive, ?_, ?_, ?_, ?_, good.queue, ?_, unheld, ?_, ?_, ?_, ?_, ?_⟩
    · rw [stream, LogFile.follows_append]
      exact ⟨good.follows, late, good.positive, good.positive, trivial⟩
    · rw [stream, LogFile.lastEpoch_append]
      exact logEpoch
    · exact Nat.le_of_eq logEpoch
    · rw [stream, LogFile.ops_append]
      simpa [LogFile.ops] using good.own
    · simp [alone]
    · simp [flying]
    · rw [flushed, logEpoch]
      exact Nat.le_trans good.flushed good.bounded
    · simp [flight, buf]
    · rw [xEpoch, logEpoch, buf]
      exact fun _ => ⟨Nat.le_refl _, by simp⟩
    · simp [flight, buf]
  | swap buf flight flying xEpoch logEpoch quiescent =>
    have stream : s.pollLog.stream = s.log.stream := by simp [LogState.stream, file, flight, buf, empty]
    refine ⟨good.positive, by rw [stream]; exact good.follows, ?_, ?_, by rw [stream]; exact good.own, good.queue, ?_,
      unheld, ?_, ?_, ?_, ?_, ?_⟩
    · rw [stream, logEpoch]
      exact good.current
    · rw [logEpoch]
      exact good.bounded
    · rw [logEpoch]
      exact good.waiting
    · simp [flying]
    · rw [flushed, logEpoch]
      exact good.flushed
    · rw [flight, buf, flushed, List.append_nil]
      exact fun x member => good.unflushed x (List.mem_append_right _ member)
    · rw [xEpoch, logEpoch, buf]
      exact fun _ => ⟨Nat.le_refl _, by simp⟩
    · rw [flight, buf, List.append_nil]
      rcases quiescent with same | zero
      · rw [same]
        exact fun awake x member => good.quiet awake x (List.mem_append_right _ member)
      · rw [zero]
        exact fun absurd_ => absurd rfl absurd_

theorem good_write {s : BusyLog} (good : s.Good) {entry : LogEntry Dated} {rest : LogFile Dated}
    (flight : s.log.flight = entry :: rest) :
    Good { s with log := { s.log with file := s.log.file ++ [entry], flight := rest } } := by
  have stream : (LogState.stream { s.log with file := s.log.file ++ [entry], flight := rest }) = s.log.stream := by
    simp [LogState.stream, flight]
  have within : ∀ x, .op x ∈ rest ++ s.log.buf → .op x ∈ s.log.flight ++ s.log.buf := by
    intro x member
    rw [flight]
    exact List.mem_cons_of_mem _ member
  refine { good with follows := ?_, current := ?_, own := ?_, landed := ?_, unflushed := ?_, quiet := ?_ }
  · rw [stream]
    exact good.follows
  · rw [stream]
    exact good.current
  · rw [stream]
    exact good.own
  · intro landed
    rw [good.landed landed] at flight
    cases flight
  · exact fun x member => good.unflushed x (within x member)
  · exact fun awake x member => good.quiet awake x (within x member)

theorem good_fsync {s : BusyLog} (good : s.Good) (flying : s.log.flying = true) (empty : s.log.flight = []) :
    Good { s with log := { s.log with flying := false, flushedEpoch := s.log.xEpoch } } := by
  obtain ⟨before, after⟩ := good.flying flying
  refine { good with landed := fun _ => empty, flushed := before, unflushed := ?_, flying := by simp }
  intro x member
  rw [empty, List.nil_append] at member
  exact after x member

/-! ### Runs -/

theorem step_good {s : BusyLog} (good : s.Good) {event : BusyEvent} (inTurn : s.InTurn event) : (s.step event).Good := by
  cases event with
  | acquire =>
    simp only [step]
    split
    · exact good_acquire good
    · exact good
  | record r =>
    simp only [step]
    split
    · rename_i e x held
      obtain ⟨late, bound, positive, -⟩ := good.holder e x held
      split
      · rename_i fits
        have alone : s.waiting = [] := inTurn.resolve_right (not_not_intro fits)
        exact good_append good late bound positive (List.Sublist.refl _) (by simp [alone])
      · exact good_stall good held r
    · exact good
  | retry i =>
    simp only [step]
    split
    · rename_i x free queued
      split
      · rename_i turn
        rw [turn.1] at queued
        obtain ⟨rest, waiting⟩ : ∃ rest, s.waiting = x :: rest := by
          cases h : s.waiting with
          | nil => simp [h] at queued
          | cons y rest =>
            rw [h, List.getElem?_cons_zero] at queued
            exact ⟨rest, by rw [Option.some.inj queued]⟩
        obtain ⟨late, bound, positive⟩ := good.waiting x (by rw [waiting]; exact List.mem_cons_self)
        have queue := good.queue
        rw [waiting] at queue ⊢
        refine good_append good late bound positive ?_ (List.pairwise_cons.mp queue).1
        rw [waiting]
        exact List.sublist_cons_self x rest
      · exact good
    · exact good
  | poll =>
    simp only [step]
    split
    · rename_i ready
      exact good_poll good (by simpa using ready.1) ready.2
    · exact good
  | write =>
    simp only [step]
    split
    · exact good_write good ‹_›
    · exact good
  | fsync =>
    simp only [step]
    split
    · rename_i ready
      exact good_fsync good ready.1 (by simpa using ready.2)
    · exact good
  | tick =>
    refine { good with positive := Nat.succ_pos _, bounded := Nat.le_succ_of_le good.bounded, waiting := ?_, holder := ?_ }
    · intro x member
      obtain ⟨late, bound, positive⟩ := good.waiting x member
      exact ⟨late, Nat.le_succ_of_le bound, positive⟩
    · intro e x held
      obtain ⟨late, bound, rest⟩ := good.holder e x held
      exact ⟨late, Nat.le_succ_of_le bound, rest⟩
  | otherWake e => exact { good with }

theorem run_good {s : BusyLog} (good : s.Good) {events : List BusyEvent} (orderly : s.Orderly events) :
    (s.run events).Good := by
  induction events generalizing s with
  | nil => exact good
  | cons event rest ih => exact ih (step_good good orderly.1) orderly.2

theorem orderly_take {s : BusyLog} {events : List BusyEvent} (orderly : s.Orderly events) (k : Nat) :
    s.Orderly (events.take k) := by
  induction events generalizing s k with
  | nil => simp [Orderly]
  | cons event rest ih =>
    cases k with
    | zero => trivial
    | succ k => exact ⟨orderly.1, ih orderly.2 k⟩

theorem epochs_sorted {e : Nat} {f : LogFile Dated} (follows : f.Follows e) : f.epochs.Pairwise (· ≤ ·) := by
  induction f generalizing e with
  | nil => exact .nil
  | cons entry f ih =>
    cases entry with
    | epoch e' => exact List.pairwise_cons.mpr ⟨fun x member => (LogFile.epochs_le follows.2.2 member).1, ih follows.2.2⟩
    | _ => exact ih follows.2

theorem lastEpoch_mem (e : Nat) (f : LogFile Dated) : f.lastEpoch e = e ∨ .epoch (f.lastEpoch e) ∈ f := by
  induction f generalizing e with
  | nil => exact .inl rfl
  | cons entry f ih =>
    cases entry with
    | epoch e' =>
      rcases ih e' with same | member
      · exact .inr (by rw [LogFile.lastEpoch_epoch, same]; exact List.mem_cons_self)
      · exact .inr (List.mem_cons_of_mem _ member)
    | _ => exact (ih e).imp id (List.mem_cons_of_mem _)

theorem good_ok {s : BusyLog} (good : s.Good) : s.EpochsOk := by
  refine ⟨epochs_sorted good.follows, fun before after x shape => ?_, fun x submitted early => ?_⟩
  · have follows := good.follows
    rw [shape, LogFile.follows_append] at follows
    have own : LogFile.lastEpoch 0 before = x.1 := by
      refine good.own (LogFile.lastEpoch 0 before, x) ?_
      rw [shape, LogFile.ops_append]
      exact List.mem_append_right _ List.mem_cons_self
    refine ⟨?_, own⟩
    rcases lastEpoch_mem 0 before with none | member
    · have positive := follows.2.1
      omega
    · rwa [own] at member
  · rcases submitted with stored | waits
    · rw [LogState.stream, List.append_assoc] at stored
      rcases List.mem_append.mp stored with onDisk | left
      · exact onDisk
      · have := good.unflushed x left
        omega
    · have := (good.waiting x waits).1
      have := good.flushed
      omega

/-- As long as no worker overtakes those that wait, `flushed_epoch_` means what its comment says, after every
step. -/
theorem epochs_in_order (epoch len : Nat) (events : List BusyEvent) (orderly : (started epoch len).Orderly events)
    (k : Nat) : ((started epoch len).run (events.take k)).EpochsOk :=
  good_ok (run_good (started_good epoch len) (orderly_take orderly k))

def smallRecord : LogRecord := { command := .remove, key := [1], ts := 2 }

/-- It fits in an empty buffer only. -/
def largeRecord : LogRecord := { command := .put, key := [2], val := List.replicate 40 0, ts := 3 }

/-- A worker waits for the buffer to be taken and is the next one to record. -/
def stalled : List BusyEvent :=
  [.acquire, .record smallRecord, .acquire, .record largeRecord, .tick, .poll, .retry 0, .write, .write, .fsync, .poll, .acquire,
    .record smallRecord]

theorem epochs_in_order_stalled : ((started 0 100).run (stalled.take 4)).waiting = [(1, largeRecord)] ∧
    ((started 0 100).run (stalled.take 13)).EpochsOk := ⟨rfl, epochs_in_order 0 100 stalled (by decide) 13⟩

/-! ### A worker that overtakes -/

/-- The big record's worker stalls behind a small record. In the next epoch another small record is appended past
it, and the big one once the buffer has been taken to be written. -/
def overtaking (big : LogRecord) : List BusyEvent :=
  [.acquire, .record smallRecord, .acquire, .record big, .tick, .acquire, .record smallRecord, .poll, .retry 0]

theorem overtaking_epochs (big : LogRecord) (roomy : 100 ≤ big.room) :
    ((started 0 big.room).run (overtaking big)).log.stream.epochs = [1, 2, 1] := by
  have small : smallRecord.room = 57 := rfl
  have stored : smallRecord.storedSize = 25 := rfl
  have first : 57 ≤ big.room := by omega
  have second : 41 + 57 ≤ big.room := by omega
  have third : ¬ 41 + big.room ≤ big.room := by omega
  simp [overtaking, run, step, started, Fits, pos, append, small, stored, first, second, third, LogState.record,
    LogState.recordEpoch, LogState.awaken, LogState.recordWake, LogEntry.storedSize, pollLog, LogState.copyWake,
    LogState.swap, LogState.stream, LogFile.epochs]

/-- `len_` of a log -/
def bufferLength : Nat := 20 * 1024 * 1024

/-- The big record fits in an empty buffer and in no other. -/
theorem epochs_go_backwards :
    ¬ ∀ (events : List BusyEvent) (k : Nat), ((started 0 bufferLength).run (events.take k)).EpochsOk := by
  intro all
  obtain ⟨val, length⟩ : ∃ val : Bytes, val.length = bufferLength - 57 := ⟨List.replicate _ 0, List.length_replicate⟩
  have room : ({ command := .put, key := [2], val, ts := 2 } : LogRecord).room = bufferLength := by
    show 32 + 1 + val.length + 16 + 8 = bufferLength
    rw [length, bufferLength]
  have ok := all (overtaking { command := .put, key := [2], val, ts := 2 }) 9
  have sorted := ok.sorted
  rw [← room, show (overtaking { command := .put, key := [2], val, ts := 2 }).take 9 = overtaking _ from rfl,
    overtaking_epochs _ (by rw [room, bufferLength]; omega)] at sorted
  exact absurd sorted (by decide)

end BusyLog

end Masstree
