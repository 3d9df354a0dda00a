import Masstree.Log.File

/-!
# The logs of a running server

Workers acquire a log, read the global epoch, publish their change and append its record
(`loginfo::record`); each log's thread polls, writing quiesce records and flushing (`loginfo::run`). A
flush moves the buffer in flight to the file record by record, so that a crash may leave any part of it.
-/

namespace Masstree

variable {α : Type} {n : Nat}

structure LogState (α : Type) where
  file : LogFile α := []
  /-- `x_buf`: what is being written -/
  flight : LogFile α := []
  buf : LogFile α := []
  flying : Bool := false
  xEpoch : Nat := 0
  logEpoch : Nat := 0
  quiescentEpoch : Nat := 0
  wakeEpoch : Nat := 0
  flushedEpoch : Nat := 0
  /-- The lock's holder: the epoch it read and, once published, its operation. -/
  holder : Option (Nat × Option α) := none
  /-- Every operation published so far, with its epoch. The code keeps no such list. -/
  applied : List (Nat × α) := []

structure Logset (n : Nat) (α : Type) where
  globalLogEpoch : Nat
  globalWakeEpoch : Nat
  logs : Fin n → LogState α

namespace LogState

def recordEpoch (e : Nat) (l : LogState α) : LogState α :=
  if e ≠ l.logEpoch then { l with logEpoch := e, buf := l.buf ++ [.epoch e] } else l

/-- A record on a log that has been quiescent raises the global wake epoch, which is returned. If the
quiescence marker has been flushed, epochs before the record's count as flushed. -/
def awaken (globalWakeEpoch e : Nat) (l : LogState α) : LogState α × Nat :=
  if l.quiescentEpoch ≠ 0 then
    ({ l with flushedEpoch := if l.flushedEpoch = l.quiescentEpoch then e else l.flushedEpoch
              quiescentEpoch := 0 }, max globalWakeEpoch e)
  else (l, globalWakeEpoch)

/-- Potentially records a wake, of the earlier of the wake epoch and the record's. -/
def recordWake (we e : Nat) (l : LogState α) : LogState α :=
  let we := if we ≠ l.wakeEpoch ∧ e < we then e else we
  if we ≠ l.wakeEpoch then { l with wakeEpoch := we, buf := l.buf ++ [.wake] } else l

/-- `loginfo::record` of operation `x` of epoch `e`, and the new `global_wake_epoch`. -/
def record (globalWakeEpoch e : Nat) (x : α) (l : LogState α) : LogState α × Nat :=
  let (l, we) := (l.recordEpoch e).awaken globalWakeEpoch e
  let l := l.recordWake we e
  ({ l with buf := l.buf ++ [.op x], holder := none }, we)

/-- The log's thread takes over the global wake epoch. It writes no wake record. -/
def copyWake (globalWakeEpoch : Nat) (l : LogState α) : LogState α :=
  if l.wakeEpoch ≠ globalWakeEpoch then { l with wakeEpoch := globalWakeEpoch, quiescentEpoch := 0 } else l

/-- A quiescence notification, if the writing threads appear quiescent. -/
def notice (globalLogEpoch globalWakeEpoch : Nat) (l : LogState α) : LogState α :=
  if l.buf.isEmpty ∧ l.quiescentEpoch = 0 ∧ globalLogEpoch ≠ l.logEpoch ∧ globalLogEpoch ≠ globalWakeEpoch then
    { l with quiescentEpoch := globalLogEpoch, logEpoch := globalLogEpoch
             buf := .epoch globalLogEpoch ::
               ((if globalLogEpoch = l.wakeEpoch then [.wake] else []) ++ [.quiesce]) }
  else l

/-- The buffer, if it has anything, is swapped out to be written. -/
def swap (l : LogState α) : LogState α :=
  if l.buf.isEmpty then l
  else { l with flight := l.buf, buf := [], flying := true, xEpoch := l.logEpoch }

/-- One round of the loop of `loginfo::run` up to the release of the lock. -/
def poll (globalLogEpoch globalWakeEpoch : Nat) (l : LogState α) : LogState α :=
  ((l.copyWake globalWakeEpoch).notice globalLogEpoch globalWakeEpoch).swap

end LogState

inductive Event (n : Nat) (α : Type) where
  | acquire (i : Fin n)
  | publish (i : Fin n) (x : α)
  | record (i : Fin n)
  | poll (i : Fin n)
  | write (i : Fin n)
  | fsync (i : Fin n)
  | tick
  deriving DecidableEq

namespace Logset

def update (s : Logset n α) (i : Fin n) (l : LogState α) : Logset n α :=
  { s with logs := Function.update s.logs i l }

/-- One step of a worker, of a log's thread or of the epoch. A step that cannot happen changes nothing. -/
def step (s : Logset n α) : Event n α → Logset n α
  | .acquire i =>
    match (s.logs i).holder with
    | none => s.update i { s.logs i with holder := some (s.globalLogEpoch, none) }
    | some _ => s
  | .publish i x =>
    match (s.logs i).holder with
    | some (e, none) =>
      s.update i { s.logs i with holder := some (e, some x), applied := (s.logs i).applied ++ [(e, x)] }
    | _ => s
  | .record i =>
    match (s.logs i).holder with
    | some (e, some x) =>
      let (l, we) := (s.logs i).record s.globalWakeEpoch e x
      { s.update i l with globalWakeEpoch := we }
    | _ => s
  | .poll i =>
    if (s.logs i).holder.isNone ∧ (s.logs i).flying = false then
      s.update i ((s.logs i).poll s.globalLogEpoch s.globalWakeEpoch)
    else s
  | .write i =>
    match (s.logs i).flight with
    | entry :: rest => s.update i { s.logs i with file := (s.logs i).file ++ [entry], flight := rest }
    | [] => s
  | .fsync i =>
    if (s.logs i).flying ∧ (s.logs i).flight.isEmpty then
      s.update i { s.logs i with flying := false, flushedEpoch := (s.logs i).xEpoch }
    else s
  | .tick => { s with globalLogEpoch := s.globalLogEpoch + 1 }

def run (s : Logset n α) : List (Event n α) → Logset n α
  | [] => s
  | event :: rest => run (s.step event) rest

def files (s : Logset n α) (i : Fin n) : LogFile α := (s.logs i).file

def started (globalLogEpoch : Nat) (files : Fin n → LogFile α) : Logset n α :=
  { globalLogEpoch, globalWakeEpoch := 0
    logs := fun i => { file := files i, applied := (files i).ops 0 } }

end Logset

/-! ### One log -/

namespace LogState

def stream (l : LogState α) : LogFile α := l.file ++ l.flight ++ l.buf

def published : Option (Nat × Option α) → List (Nat × α)
  | some (e, some x) => [(e, x)]
  | _ => []

structure Good (globalLogEpoch : Nat) (l : LogState α) : Prop where
  follows : l.stream.Follows 0
  bounded : l.stream.lastEpoch 0 ≤ globalLogEpoch
  current : l.logEpoch = 0 ∨ l.logEpoch = l.stream.lastEpoch 0
  holder : ∀ e x, l.holder = some (e, x) → l.stream.lastEpoch 0 ≤ e ∧ e ≤ globalLogEpoch ∧ 0 < e
  landed : l.flying = false → l.flight = []
  loud : .quiesce ∉ l.buf
  notice : .quiesce ∉ l.flight ∨ (∃ e, l.flight = [.epoch e, .quiesce]) ∨ l.flight = [.quiesce]
  applied : l.applied = l.stream.ops 0 ++ published l.holder

/-- `l'` is `l` with these records appended to the buffer, and with other epoch variables. -/
structure Appends (l l' : LogState α) (added : LogFile α) : Prop where
  buf : l'.buf = l.buf ++ added
  file : l'.file = l.file
  flight : l'.flight = l.flight
  flying : l'.flying = l.flying
  applied : l'.applied = l.applied

theorem Appends.stream {l l' : LogState α} {added : LogFile α} (h : Appends l l' added) :
    l'.stream = l.stream ++ added := by
  simp [LogState.stream, h.buf, h.file, h.flight]

theorem Appends.trans {l l' l'' : LogState α} {a b : LogFile α} (h : Appends l l' a) (h' : Appends l' l'' b) :
    Appends l l'' (a ++ b) :=
  ⟨by rw [h'.buf, h.buf, List.append_assoc], h'.file.trans h.file, h'.flight.trans h.flight,
    h'.flying.trans h.flying, h'.applied.trans h.applied⟩

theorem recordEpoch_appends (e : Nat) (l : LogState α) :
    ∃ added, Appends l (l.recordEpoch e) added ∧ (l.recordEpoch e).logEpoch = e ∧
      (added = [.epoch e] ∨ added = [] ∧ l.logEpoch = e) := by
  unfold recordEpoch
  split
  · exact ⟨[.epoch e], ⟨rfl, rfl, rfl, rfl, rfl⟩, rfl, Or.inl rfl⟩
  · rename_i same
    have same : e = l.logEpoch := by simpa using same
    exact ⟨[], ⟨by simp, rfl, rfl, rfl, rfl⟩, same.symm, Or.inr ⟨rfl, same.symm⟩⟩

theorem awaken_appends (globalWakeEpoch e : Nat) (l : LogState α) :
    Appends l (l.awaken globalWakeEpoch e).1 [] ∧ (l.awaken globalWakeEpoch e).1.logEpoch = l.logEpoch := by
  unfold awaken
  split
  · exact ⟨⟨by simp, rfl, rfl, rfl, rfl⟩, rfl⟩
  · exact ⟨⟨by simp, rfl, rfl, rfl, rfl⟩, rfl⟩

theorem recordWake_appends (we e : Nat) (l : LogState α) :
    ∃ added, Appends l (l.recordWake we e) added ∧ (l.recordWake we e).logEpoch = l.logEpoch ∧
      (added = [.wake] ∨ added = []) := by
  unfold recordWake
  generalize (if we ≠ l.wakeEpoch ∧ e < we then e else we) = we
  dsimp only
  split
  · exact ⟨[.wake], ⟨rfl, rfl, rfl, rfl, rfl⟩, rfl, Or.inl rfl⟩
  · exact ⟨[], ⟨by simp, rfl, rfl, rfl, rfl⟩, rfl, Or.inr rfl⟩

/-- What `record` appends: perhaps an epoch record, perhaps a wake, and the operation. -/
theorem record_appends (globalWakeEpoch e : Nat) (x : α) (l : LogState α) :
    ∃ epoch wake, Appends l (l.record globalWakeEpoch e x).1 (epoch ++ wake ++ [.op x]) ∧
      (l.record globalWakeEpoch e x).1.logEpoch = e ∧ (l.record globalWakeEpoch e x).1.holder = none ∧
      (epoch = [.epoch e] ∨ epoch = [] ∧ l.logEpoch = e) ∧ (wake = [.wake] ∨ wake = []) := by
  obtain ⟨epoch, first, dated, kind⟩ := recordEpoch_appends e l
  obtain ⟨second, same⟩ := awaken_appends globalWakeEpoch e (l.recordEpoch e)
  obtain ⟨wake, third, same', kind'⟩ :=
    recordWake_appends ((l.recordEpoch e).awaken globalWakeEpoch e).2 e ((l.recordEpoch e).awaken globalWakeEpoch e).1
  have all := (first.trans second).trans third
  rw [List.append_nil] at all
  refine ⟨epoch, wake, ⟨?_, all.file, all.flight, all.flying, all.applied⟩, ?_, rfl, kind, kind'⟩
  · simp [record, all.buf]
  · exact same'.trans (same.trans dated)

/-- The records `record` appends are of epoch `e`. -/
theorem record_entries {e last : Nat} {x : α} {epoch wake added : LogFile α} (late : last ≤ e) (positive : 0 < e)
    (kind : epoch = [.epoch e] ∨ epoch = [] ∧ last = e) (kind' : wake = [.wake] ∨ wake = [])
    (shape : added = epoch ++ wake ++ [.op x]) :
    added.Follows last ∧ added.lastEpoch last = e ∧ added.ops last = [(e, x)] ∧ .quiesce ∉ added ∧
      ∀ w ∈ added.wakes last, w = e := by
  rcases kind with rfl | ⟨rfl, rfl⟩ <;> rcases kind' with rfl | rfl
  all_goals simp [shape, LogFile.Follows, LogFile.ops, LogFile.wakes, late, positive]

/-- The three outcomes of a poll: nothing written, a quiesce record put in flight, or the buffer. -/
inductive Polled (ge : Nat) (l l' : LogState α) : Prop where
  | idle : l.buf = [] → l'.buf = [] → l'.flight = l.flight → l'.flying = l.flying → l'.xEpoch = l.xEpoch →
      l'.logEpoch = l.logEpoch → Polled ge l l'
  | notice : l.buf = [] → l'.buf = [] → l'.flight = [.epoch ge, .quiesce] → l'.flying = true → l'.xEpoch = ge →
      l'.logEpoch = ge → Polled ge l l'
  | swap : l.buf ≠ [] → l'.buf = [] → l'.flight = l.buf → l'.flying = true → l'.xEpoch = l.logEpoch →
      l'.logEpoch = l.logEpoch → Polled ge l l'

theorem copyWake_frame (we : Nat) (l : LogState α) :
    ∃ quiescent, l.copyWake we = { l with wakeEpoch := we, quiescentEpoch := quiescent } := by
  unfold copyWake
  split
  · exact ⟨0, rfl⟩
  · rename_i same
    have same : l.wakeEpoch = we := by simpa using same
    subst same
    exact ⟨l.quiescentEpoch, rfl⟩

theorem poll_polled (ge we : Nat) (l : LogState α) : Polled ge l (l.poll ge we) ∧
    (l.poll ge we).file = l.file ∧ (l.poll ge we).holder = l.holder ∧ (l.poll ge we).applied = l.applied ∧
      (l.poll ge we).flushedEpoch = l.flushedEpoch := by
  obtain ⟨quiescent, copied⟩ := copyWake_frame we l
  unfold poll
  rw [copied]
  unfold notice
  split
  · rename_i quiet
    obtain ⟨empty, -, -, other⟩ := quiet
    have empty : l.buf = [] := by simpa using empty
    have unwoken : ¬ ge = we := other
    simp only [if_neg unwoken, List.nil_append, swap]
    exact ⟨.notice empty rfl rfl rfl rfl rfl, rfl, rfl, rfl, rfl⟩
  · unfold swap
    split
    · rename_i empty
      have empty : l.buf = [] := by simpa using empty
      exact ⟨.idle empty empty rfl rfl rfl rfl, rfl, rfl, rfl, rfl⟩
    · rename_i full
      have full : l.buf ≠ [] := by simpa using full
      exact ⟨.swap full rfl rfl rfl rfl rfl, rfl, rfl, rfl, rfl⟩

/-! ### One step -/

theorem good_started {ge : Nat} {f : LogFile α} (follows : f.Follows 0) (bounded : f.lastEpoch 0 ≤ ge) :
    Good ge { file := f, applied := f.ops 0 } := by
  have stream : (stream { file := f, applied := f.ops 0 }) = f := by simp [LogState.stream]
  exact ⟨by rwa [stream], by rwa [stream], Or.inl rfl, by simp, fun _ => rfl, by simp, Or.inl (by simp),
    by rw [stream]; simp [published]⟩

theorem good_tick {ge : Nat} {l : LogState α} (good : Good ge l) : Good (ge + 1) l :=
  { good with
    bounded := Nat.le_succ_of_le good.bounded
    holder := fun e x held => by
      have := good.holder e x held
      omega }

theorem good_acquire {ge : Nat} {l : LogState α} (good : Good ge l) (free : l.holder = none) (positive : 0 < ge) :
    Good ge { l with holder := some (ge, none) } :=
  { good with
    holder := by
      rintro e x ⟨⟩
      exact ⟨good.bounded, Nat.le_refl _, positive⟩
    applied := by
      have := good.applied
      rw [free] at this
      exact this }

theorem good_publish {ge e : Nat} {l : LogState α} {x : α} (good : Good ge l) (held : l.holder = some (e, none)) :
    Good ge { l with holder := some (e, some x), applied := l.applied ++ [(e, x)] } :=
  { good with
    holder := by
      rintro e' x' ⟨⟩
      exact good.holder e none held
    applied := by
      have := good.applied
      simp only [held, published, List.append_nil] at this
      simp only [this, published]
      rfl }

theorem good_record (we : Nat) {ge e : Nat} {l : LogState α} {x : α} (good : Good ge l)
    (held : l.holder = some (e, some x)) : Good ge (l.record we e x).1 := by
  obtain ⟨epoch, wake, appends, dated, free, kind, kind'⟩ := record_appends we e x l
  obtain ⟨late, bound, positive⟩ := good.holder e _ held
  have kind : epoch = [.epoch e] ∨ epoch = [] ∧ l.stream.lastEpoch 0 = e :=
    kind.imp id fun ⟨skipped, same⟩ => ⟨skipped, by rcases good.current with zero | last <;> omega⟩
  obtain ⟨follows, last, ops, loud, -⟩ := record_entries (x := x) late positive kind kind' rfl
  have stream := appends.stream
  refine ⟨?_, ?_, Or.inr ?_, by simp [free], ?_, ?_, ?_, ?_⟩
  · rw [stream, LogFile.follows_append]
    exact ⟨good.follows, follows⟩
  · rw [stream, LogFile.lastEpoch_append, last]
    exact bound
  · rw [stream, LogFile.lastEpoch_append, last, dated]
  · rw [appends.flying, appends.flight]
    exact good.landed
  · rw [appends.buf]
    simpa using ⟨good.loud, by simpa using loud⟩
  · rw [appends.flight]
    exact good.notice
  · rw [appends.applied, good.applied, stream, LogFile.ops_append, ops, held, free]
    simp [published]

theorem good_poll {ge we : Nat} {l : LogState α} (good : Good ge l) (free : l.holder = none)
    (landed : l.flying = false) (positive : 0 < ge) : Good ge (l.poll ge we) := by
  obtain ⟨polled, file, holder, applied, -⟩ := poll_polled ge we l
  have empty := good.landed landed
  have unheld : (l.poll ge we).holder = none := holder.trans free
  have held : ∀ e x, (l.poll ge we).holder = some (e, x) →
      (l.poll ge we).stream.lastEpoch 0 ≤ e ∧ e ≤ ge ∧ 0 < e := by simp [unheld]
  cases polled with
  | idle none buf flight flying _ logEpoch =>
    have stream : (l.poll ge we).stream = l.stream := by simp [LogState.stream, file, flight, buf, none]
    refine ⟨by rw [stream]; exact good.follows, by rw [stream]; exact good.bounded, ?_, held, ?_, by simp [buf], ?_, ?_⟩
    · rw [stream, logEpoch]
      exact good.current
    · rw [flying, flight]
      exact good.landed
    · rw [flight]
      exact good.notice
    · rw [stream, applied, holder]
      exact good.applied
  | notice none buf flight flying _ logEpoch =>
    have stream : (l.poll ge we).stream = l.stream ++ [.epoch ge, .quiesce] := by
      simp [LogState.stream, file, flight, buf, none, empty]
    refine ⟨?_, ?_, Or.inr ?_, held, by simp [flying], by simp [buf], Or.inr (Or.inl ⟨ge, flight⟩), ?_⟩
    · rw [stream, LogFile.follows_append]
      exact ⟨good.follows, good.bounded, positive, positive, trivial⟩
    · rw [stream, LogFile.lastEpoch_append]
      exact Nat.le_refl ge
    · rw [stream, LogFile.lastEpoch_append, logEpoch]
      rfl
    · rw [stream, applied, holder, LogFile.ops_append, good.applied]
      simp [LogFile.ops]
  | swap some_ buf flight flying _ logEpoch =>
    have stream : (l.poll ge we).stream = l.stream := by simp [LogState.stream, file, flight, buf, empty]
    refine ⟨by rw [stream]; exact good.follows, by rw [stream]; exact good.bounded, ?_, held, by simp [flying],
      by simp [buf], Or.inl (by rw [flight]; exact good.loud), ?_⟩
    · rw [stream, logEpoch]
      exact good.current
    · rw [stream, applied, holder]
      exact good.applied

theorem good_write {ge : Nat} {l : LogState α} {entry : LogEntry α} {rest : LogFile α} (good : Good ge l)
    (flight : l.flight = entry :: rest) : Good ge { l with file := l.file ++ [entry], flight := rest } := by
  have stream : (LogState.stream { l with file := l.file ++ [entry], flight := rest }) = l.stream := by
    simp [LogState.stream, flight]
  refine ⟨by rw [stream]; exact good.follows, by rw [stream]; exact good.bounded, by rw [stream]; exact good.current,
    by rw [stream]; exact good.holder, fun landed => ?_, good.loud, ?_, by rw [stream]; exact good.applied⟩
  · rw [good.landed landed] at flight
    cases flight
  · rcases good.notice with loud | ⟨e, shape⟩ | shape
    · rw [flight] at loud
      exact Or.inl fun member => loud (List.mem_cons_of_mem _ member)
    · rw [flight] at shape
      cases shape
      exact Or.inr (Or.inr rfl)
    · rw [flight] at shape
      cases shape
      exact Or.inl (by simp)

inductive Change (ge : Nat) (l : LogState α) : LogState α → Prop where
  | acquire : l.holder = none → Change ge l { l with holder := some (ge, none) }
  | publish (e : Nat) (x : α) : l.holder = some (e, none) →
      Change ge l { l with holder := some (e, some x), applied := l.applied ++ [(e, x)] }
  | record (we e : Nat) (x : α) : l.holder = some (e, some x) → Change ge l (l.record we e x).1
  | poll (we : Nat) : l.holder = none → l.flying = false → Change ge l (l.poll ge we)
  | write (entry : LogEntry α) (rest : LogFile α) : l.flight = entry :: rest →
      Change ge l { l with file := l.file ++ [entry], flight := rest }
  | fsync : l.flying = true → l.flight = [] → Change ge l { l with flying := false, flushedEpoch := l.xEpoch }

theorem good_change {ge : Nat} {l l' : LogState α} (positive : 0 < ge) (good : Good ge l) (change : Change ge l l') :
    Good ge l' := by
  cases change with
  | acquire free => exact good_acquire good free positive
  | publish e x held => exact good_publish good held
  | record we e x held => exact good_record we good held
  | poll we free landed => exact good_poll good free landed positive
  | write entry rest flight => exact good_write good flight
  | fsync _ empty => exact { good with landed := fun _ => empty }

end LogState

namespace Logset

/-- A step changes nothing, one log, or the global epoch. -/
theorem step_cases (s : Logset n α) (event : Event n α) :
    s.step event = s ∨
    (∃ i l, LogState.Change s.globalLogEpoch (s.logs i) l ∧
      (s.step event).globalLogEpoch = s.globalLogEpoch ∧ (s.step event).logs = Function.update s.logs i l) ∨
    (event = .tick ∧ (s.step event).globalLogEpoch = s.globalLogEpoch + 1 ∧ (s.step event).logs = s.logs) := by
  cases event with
  | acquire i =>
    simp only [step]
    split
    · exact Or.inr (Or.inl ⟨i, _, .acquire ‹_›, rfl, rfl⟩)
    · exact Or.inl rfl
  | publish i x =>
    simp only [step]
    split
    · exact Or.inr (Or.inl ⟨i, _, .publish _ x ‹_›, rfl, rfl⟩)
    · exact Or.inl rfl
  | record i =>
    simp only [step]
    split
    · exact Or.inr (Or.inl ⟨i, _, .record s.globalWakeEpoch _ _ ‹_›, rfl, rfl⟩)
    · exact Or.inl rfl
  | poll i =>
    simp only [step]
    split
    · rename_i ready
      exact Or.inr (Or.inl ⟨i, _, .poll s.globalWakeEpoch (by simpa using ready.1) ready.2, rfl, rfl⟩)
    · exact Or.inl rfl
  | write i =>
    simp only [step]
    split
    · exact Or.inr (Or.inl ⟨i, _, .write _ _ ‹_›, rfl, rfl⟩)
    · exact Or.inl rfl
  | fsync i =>
    simp only [step]
    split
    · rename_i ready
      exact Or.inr (Or.inl ⟨i, _, .fsync ready.1 (by simpa using ready.2), rfl, rfl⟩)
    · exact Or.inl rfl
  | tick => exact Or.inr (Or.inr ⟨rfl, rfl, rfl⟩)

structure Good (s : Logset n α) : Prop where
  positive : 0 < s.globalLogEpoch
  logs : ∀ i, (s.logs i).Good s.globalLogEpoch

theorem step_good {s : Logset n α} (good : s.Good) (event : Event n α) : (s.step event).Good := by
  rcases step_cases s event with same | ⟨i, l, change, epoch, logs⟩ | ⟨-, epoch, logs⟩
  · rw [same]
    exact good
  · refine ⟨epoch ▸ good.positive, fun j => ?_⟩
    rw [epoch, logs]
    by_cases same : j = i
    · subst same
      rw [Function.update_self]
      exact LogState.good_change good.positive (good.logs j) change
    · rw [Function.update_of_ne same]
      exact good.logs j
  · refine ⟨by omega, fun j => ?_⟩
    rw [epoch, logs]
    exact LogState.good_tick (good.logs j)

theorem run_good {s : Logset n α} (good : s.Good) (events : List (Event n α)) : (s.run events).Good := by
  induction events generalizing s with
  | nil => exact good
  | cons event rest ih => exact ih (step_good good event)

theorem started_good {ge : Nat} {files : Fin n → LogFile α} (positive : 0 < ge)
    (wellFormed : ∀ i, (files i).Follows 0) (bounded : ∀ i, (files i).lastEpoch 0 ≤ ge) :
    (started ge files).Good :=
  ⟨positive, fun i => LogState.good_started (wellFormed i) (bounded i)⟩

end Logset

end Masstree
