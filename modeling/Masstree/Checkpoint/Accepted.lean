import Masstree.Checkpoint.Kvd
import Masstree.Log.CutSound
import Masstree.Log.Stored

/-!
# Recovery accepts what a crash leaves

Once a checkpoint is committed, recovery asserts that every log starts before the checkpoint and that the
cut lies past it. `Beyond` is what a log must have on disk for that; no later step of the server undoes
it, so it needs to hold only when a checkpoint is committed. What the logs hold can be replayed, as long as
nothing is published that `extract` rejects or whose replay aborts.
-/

namespace Masstree
open Msgpack (Bytes)

variable {α : Type} {n : Nat}

namespace LogState

/-- The log will say nothing more about epochs up to `maxEpoch`. -/
structure Ahead (maxEpoch : Nat) (l : LogState α) : Prop where
  unwritten : l.flight ++ l.buf = [] ∨ ∃ e g, l.flight ++ l.buf = .epoch e :: g ∧ maxEpoch < e
  holder : ∀ e x, l.holder = some (e, x) → maxEpoch < e

/-- On disk the log starts before `minEpoch`, and is past `maxEpoch` or quiescent. -/
structure Beyond (minEpoch maxEpoch : Nat) (l : LogState α) : Prop where
  first : ∃ e g, l.file = .epoch e :: g ∧ e < minEpoch
  last : maxEpoch < l.file.lastEpoch 0 ∨ l.file.Quiescent ∧ l.Ahead maxEpoch

/-- A step leaves a log's file alone or writes the next record to it. -/
theorem change_file {ge : Nat} {l l' : LogState α} (change : Change ge l l') :
    l'.file = l.file ∨ ∃ entry rest, l.flight = entry :: rest ∧ l'.file = l.file ++ [entry] := by
  cases change with
  | record we e x held =>
    obtain ⟨_, _, appends, -⟩ := record_appends we e x l
    exact Or.inl appends.file
  | poll we => exact Or.inl (poll_polled ge we l).2.1
  | write entry rest flight => exact Or.inr ⟨entry, rest, flight, rfl⟩
  | _ => exact Or.inl rfl

theorem file_follows {ge : Nat} {l : LogState α} (good : l.Good ge) : l.file.Follows 0 := by
  have follows := good.follows
  rw [LogState.stream, List.append_assoc, LogFile.follows_append] at follows
  exact follows.1

/-- Of a log that is ahead, the next record to be written is that of a later epoch. -/
theorem Ahead.write {maxEpoch : Nat} {l : LogState α} {entry : LogEntry α} {rest : LogFile α} (ahead : l.Ahead maxEpoch)
    (flight : l.flight = entry :: rest) : ∃ e, entry = .epoch e ∧ maxEpoch < e := by
  rcases ahead.unwritten with none | ⟨e, g, shape, late⟩
  · simp [flight] at none
  · rw [flight] at shape
    exact ⟨e, (List.cons.inj shape).1, late⟩

theorem ahead_change {maxEpoch ge : Nat} {l l' : LogState α} (good : l.Good ge) (late : maxEpoch < ge)
    (short : l.file.lastEpoch 0 ≤ maxEpoch) (ahead : l.Ahead maxEpoch) (change : Change ge l l')
    (same : l'.file = l.file) : l'.Ahead maxEpoch := by
  obtain ⟨unwritten, holder⟩ := ahead
  cases change with
  | acquire free =>
    refine ⟨unwritten, ?_⟩
    rintro e x ⟨⟩
    exact late
  | publish e x held =>
    refine ⟨unwritten, ?_⟩
    rintro e' x' ⟨⟩
    exact holder e none held
  | record we e x held =>
    obtain ⟨epoch, wake, appends, -, free, kind, -⟩ := record_appends we e x l
    refine ⟨Or.inr ?_, by simp [free]⟩
    rw [appends.flight, appends.buf, ← List.append_assoc]
    have past := holder e _ held
    rcases unwritten with none | ⟨e', g, shape, bound⟩
    · -- The log's epoch is that of its file, so the record writes a new one.
      have fresh : epoch = [.epoch e] := kind.resolve_right fun ⟨_, same⟩ => by
        have stream : l.stream = l.file := by rw [LogState.stream, List.append_assoc, none, List.append_nil]
        have current := good.current
        rw [stream] at current
        omega
      exact ⟨e, wake ++ [.op x], by simp [none, fresh], past⟩
    · exact ⟨e', g ++ (epoch ++ wake ++ [.op x]), by rw [shape]; rfl, bound⟩
  | poll we free landed =>
    obtain ⟨polled, -, held, -, -⟩ := poll_polled ge we l
    have empty := good.landed landed
    refine ⟨?_, by rw [held]; exact holder⟩
    cases polled with
    | idle none_ buf flight =>
      rw [flight, buf]
      rwa [none_] at unwritten
    | notice none_ buf flight => exact Or.inr ⟨ge, [.quiesce], by rw [flight, buf]; rfl, late⟩
    | swap _ buf flight =>
      rw [flight, buf, List.append_nil]
      rwa [empty, List.nil_append] at unwritten
  | write entry rest flight =>
    have := congrArg List.length same
    simp at this
  | fsync => exact ⟨unwritten, holder⟩

theorem beyond_change {minEpoch maxEpoch ge : Nat} {l l' : LogState α} (good : l.Good ge) (good' : l'.Good ge)
    (late : maxEpoch < ge) (beyond : l.Beyond minEpoch maxEpoch) (change : Change ge l l') :
    l'.Beyond minEpoch maxEpoch := by
  obtain ⟨⟨e, g, shape, early⟩, last⟩ := beyond
  by_cases past : maxEpoch < l.file.lastEpoch 0
  · rcases change_file change with same | ⟨entry, rest, -, grown⟩
    · exact ⟨⟨e, g, by rw [same, shape], early⟩, Or.inl (by rwa [same])⟩
    · refine ⟨⟨e, g ++ [entry], by rw [grown, shape]; rfl, early⟩, Or.inl (Nat.lt_of_lt_of_le past ?_)⟩
      have follows := file_follows good'
      rw [grown, LogFile.follows_append] at follows
      rw [grown, LogFile.lastEpoch_append]
      exact LogFile.le_lastEpoch follows.2
  · obtain ⟨quiet, ahead⟩ := last.resolve_left past
    rcases change_file change with same | ⟨entry, rest, flight, grown⟩
    · refine ⟨⟨e, g, by rw [same, shape], early⟩, Or.inr ⟨by rwa [same], ?_⟩⟩
      exact ahead_change good late (Nat.le_of_not_lt past) ahead change same
    · obtain ⟨e', rfl, past⟩ := ahead.write flight
      refine ⟨⟨e, g ++ [.epoch e'], by rw [grown, shape]; rfl, early⟩, Or.inl ?_⟩
      rw [grown, LogFile.lastEpoch_append]
      exact past

end LogState

namespace Logset

/-- Recovery accepts a checkpoint of these epochs now and after any later steps. -/
structure Accepts (minEpoch maxEpoch : Nat) (s : Logset n α) : Prop where
  range : 0 < minEpoch ∧ minEpoch ≤ maxEpoch
  past : maxEpoch < s.globalLogEpoch
  logs : ∀ i, (s.logs i).Beyond minEpoch maxEpoch
  /-- No wake record up to `maxEpoch` is news to a log that stopped before it. -/
  wakes : ∀ i, (s.files i).lastEpoch 0 ≤ maxEpoch → ∀ j, ∀ w ∈ (s.files j).wakes 0,
    (s.files i).lastEpoch 0 ≤ w → maxEpoch < w

theorem step_accepts {minEpoch maxEpoch : Nat} {s : Logset n α} (good : s.Good) (accepts : s.Accepts minEpoch maxEpoch)
    (event : Event n α) : (s.step event).Accepts minEpoch maxEpoch := by
  have good' := step_good good event
  rcases step_cases s event with same | ⟨k, l, change, epoch, logs⟩ | ⟨-, epoch, logs⟩
  · rwa [same]
  · have here : (s.step event).logs k = l := by rw [logs, Function.update_self]
    have there : ∀ j, j ≠ k → (s.step event).logs j = s.logs j := fun j other => by
      rw [logs, Function.update_of_ne other]
    have good'' : l.Good s.globalLogEpoch := by
      have := good'.logs k
      rwa [here, epoch] at this
    have grows : ∀ j, (s.files j).lastEpoch 0 ≤ ((s.step event).files j).lastEpoch 0 ∧
        ∀ w ∈ ((s.step event).files j).wakes 0, w ∈ (s.files j).wakes 0 ∨ maxEpoch < w := by
      intro j
      by_cases other : j = k
      · subst other
        rw [files, files, here]
        rcases LogState.change_file change with same | ⟨entry, rest, flight, grown⟩
        · rw [same]
          exact ⟨Nat.le_refl _, fun w member => Or.inl member⟩
        · have follows := LogState.file_follows good''
          rw [grown, LogFile.follows_append] at follows
          rw [grown, LogFile.lastEpoch_append, LogFile.wakes_append]
          refine ⟨LogFile.le_lastEpoch follows.2, fun w member => (List.mem_append.mp member).imp id fun new => ?_⟩
          rcases (accepts.logs j).last with past | ⟨-, ahead⟩
          · exact Nat.lt_of_lt_of_le past (LogFile.wakes_le follows.2 new).1
          · obtain ⟨e, rfl, -⟩ := ahead.write flight
            simp [LogFile.wakes] at new
      · rw [files, files, there j other]
        exact ⟨Nat.le_refl _, fun w member => Or.inl member⟩
    refine ⟨accepts.range, by rw [epoch]; exact accepts.past, fun j => ?_, fun i short j w wake bound => ?_⟩
    · by_cases other : j = k
      · subst other
        rw [here]
        exact LogState.beyond_change (good.logs j) good'' accepts.past (accepts.logs j) change
      · rw [there j other]
        exact accepts.logs j
    · have longer := (grows i).1
      rcases (grows j).2 w wake with old | new
      · exact accepts.wakes i (by omega) j w old (by omega)
      · exact new
  · have unchanged : (s.step event).files = s.files := by
      funext i
      rw [files, files, logs]
    refine ⟨accepts.range, ?_, fun i => by rw [logs]; exact accepts.logs i, by rw [unchanged]; exact accepts.wakes⟩
    have := accepts.past
    omega

/-- No bound on the cut is as low as the checkpoint. -/
theorem Accepts.lt_bound {minEpoch maxEpoch c : Nat} {s : Logset n α} (accepts : s.Accepts minEpoch maxEpoch)
    (bound : CutBound maxEpoch s.files c) : maxEpoch < c := by
  have positive : maxEpoch ≠ 0 := by
    have := accepts.range
    omega
  rcases bound with ⟨start, -, -⟩ | ⟨i, -, loud, rfl⟩ | ⟨i, j, -, wake, bound⟩
  · rw [if_pos positive] at start
    exact start
  · rcases (accepts.logs i).last with past | ⟨quiet, -⟩
    · exact past
    · exact absurd quiet loud
  · by_cases past : maxEpoch < (s.files i).lastEpoch 0
    · omega
    · exact accepts.wakes i (Nat.le_of_not_lt past) j c wake bound

theorem Accepts.checked {minEpoch maxEpoch : Nat} {s : Logset n α} (good : s.Good)
    (accepts : s.Accepts minEpoch maxEpoch) (garbage : Fin n → Bool) :
    ckpChecked minEpoch maxEpoch garbage s.files = true := by
  have follows : ∀ i, (s.files i).Follows 0 := fun i => LogState.file_follows (good.logs i)
  have written : ∀ i, s.files i = [] → garbage i = false := fun i empty => by
    obtain ⟨⟨e, g, shape, -⟩, -⟩ := accepts.logs i
    rw [files, shape] at empty
    cases empty
  have past : maxEpoch < cut garbage maxEpoch s.files := accepts.lt_bound (cut_isLeast follows written).1
  have range := accepts.range
  simp only [ckpChecked, decide_eq_true_eq]
  refine Or.inr ⟨?_, by omega, past⟩
  rcases (maxNonzero_spec LogInfo.firstEpoch 0 (logInfos garbage s.files)).2.2 with none | ⟨it, member, first⟩
  · rw [maxFirstEpoch, none]
    omega
  · obtain ⟨i, rfl⟩ := mem_logInfos.mp member
    obtain ⟨⟨e, g, shape, early⟩, -⟩ := accepts.logs i
    have here : s.files i = .epoch e :: g := shape
    rw [maxFirstEpoch, ← first, readInfo, if_neg (by simp [here]), LogFile.info_firstEpoch (follows i), here]
    simpa [LogFile.epochs] using early

/-- No other event publishes an operation. -/
theorem applied_step {α : Type} (s : Logset n α) {event : Event n α} (other : ∀ i x, event ≠ .publish i x) (k : Fin n) :
    ((s.step event).logs k).applied = (s.logs k).applied := by
  have kept : ∀ (i : Fin n) (l : LogState α), l.applied = (s.logs i).applied →
      (Function.update s.logs i l k).applied = (s.logs k).applied := by
    intro i l same
    by_cases here : k = i
    · subst here
      rw [Function.update_self, same]
    · rw [Function.update_of_ne here]
  cases event with
  | acquire i =>
    rw [step]
    split
    · exact kept i _ rfl
    · rfl
  | publish i x => exact absurd rfl (other i x)
  | record i =>
    rw [step]
    split
    · rename_i e x held
      obtain ⟨_, _, appends, -⟩ := LogState.record_appends s.globalWakeEpoch e x (s.logs i)
      exact kept i _ appends.applied
    · rfl
  | poll i =>
    rw [step]
    split
    · exact kept i _ (LogState.poll_polled s.globalLogEpoch s.globalWakeEpoch (s.logs i)).2.2.2.1
    · rfl
  | write i =>
    rw [step]
    split
    · exact kept i _ rfl
    · rfl
  | fsync i =>
    rw [step]
    split
    · exact kept i _ rfl
    · rfl
  | tick => rfl

end Logset

/-- Replay takes the record: `extract` allows its key, and a marker for its change is not too long. -/
structure LogRecord.Replayable (lr : LogRecord) : Prop where
  within : LogBytes.Within (.op lr)
  plain : lr.command ≠ .remove
  fits : lr.command = .modify → lr.val.length + sizeofDeltaMarker < 2 ^ 16

theorem onego_replayable {s s' : Server} {site : Site} {request : Request} {lr : LogRecord} (keeps : request.Keeps site)
    (plain : ∀ key, request ≠ .remove key) (short : request.key.length ≤ maxKeyLen)
    (narrow : ∀ key changes wire, request = .put key changes wire → (s.table key).isSome = true →
      wire.length + sizeofDeltaMarker < 2 ^ 16)
    (ran : s.onego site request = some (s', some lr)) : lr.Replayable := by
  have within : LogBytes.Within (.op lr) := by
    rw [← Server.onego_key keeps ran] at short
    exact short
  cases request with
  | put key changes wire =>
    obtain ⟨-, ran⟩ := Option.ite_none_right_eq_some.mp ran
    obtain ⟨⟨row, times⟩, put, same⟩ := Option.bind_eq_some_iff.mp ran
    cases same
    refine ⟨within, ?_, fun modify => ?_⟩
    · unfold logRecord
      split <;> simp
    · have value : (logRecord .put times (site.logged key) wire).val = wire := by
        unfold logRecord
        split <;> rfl
      rw [value]
      refine narrow key changes wire rfl ?_
      cases found : s.table key with
      | some _ => rfl
      | none =>
        -- A put of a key that is not there has no earlier timestamp.
        have fresh : times.prevTs = 0 := by
          have put : applyPut _ (s.table key) changes = some (row, times) := put
          rw [found] at put
          obtain ⟨_, _, same⟩ := Option.bind_eq_some_iff.mp put
          cases same
          rfl
        simp [logRecord, fresh] at modify
  | replace key value =>
    obtain ⟨-, ran⟩ := Option.ite_none_right_eq_some.mp ran
    cases ran
    refine ⟨within, ?_, fun modify => ?_⟩
    · simp [logRecord]
    · simp [logRecord] at modify
  | remove key => exact absurd rfl (plain key)

namespace Kvd

/-- Only a step that publishes adds to what has been published. -/
theorem step_applied {s s' : Kvd n} {move : Move n} (step : Step s move s')
    (other : ∀ i worker site key request, move ≠ .publish i worker site key request) :
    (∀ i, (s'.logs.logs i).applied = (s.logs.logs i).applied) ∧ s'.history = s.history := by
  have apart : ∀ event : Event n LogRecord, (∀ i x, event ≠ .publish i x) →
      ∀ i, ((s.logs.step event).logs i).applied = (s.logs.logs i).applied := fun event => Logset.applied_step s.logs
  cases step with
  | publish i worker site key request => exact absurd rfl (other i worker site key request)
  | acquire i key => exact ⟨apart (.acquire i) nofun, rfl⟩
  | record i => exact ⟨apart (.record i) nofun, rfl⟩
  | poll i => exact ⟨apart (.poll i) nofun, rfl⟩
  | write i => exact ⟨apart (.write i) nofun, rfl⟩
  | fsync i => exact ⟨apart (.fsync i) nofun, rfl⟩
  | tick => exact ⟨apart .tick nofun, rfl⟩
  | _ => exact ⟨fun _ => rfl, rfl⟩

/-- A publication adds its record to one log. -/
theorem published_applied {s : Kvd n} {i : Fin n} {e : Nat} (held : (s.logs.logs i).holder = some (e, none))
    (worker : Nat) (key : Bytes) (lr : LogRecord) (live : Server) (k : Fin n) :
    ((s.published i worker key e lr live).logs.logs k).applied =
      Function.update (fun k => (s.logs.logs k).applied) i ((s.logs.logs i).applied ++ [(e, { lr with epoch := e })]) k := by
  have logs : (s.published i worker key e lr live).logs.logs = Function.update s.logs.logs i
      { s.logs.logs i with holder := some (e, some { lr with epoch := e }),
                           applied := (s.logs.logs i).applied ++ [(e, { lr with epoch := e })] } := by
    unfold published
    dsimp only [Logset.step]
    rw [held]
    rfl
  rw [logs]
  by_cases here : k = i
  · subst here
    rw [Function.update_self, Function.update_self]
  · rw [Function.update_of_ne here, Function.update_of_ne here]

def recover (s : Kvd n) (garbage : Fin n → Bool) : Option (Recovered n LogRecord) :=
  Masstree.recover garbage ((s.committed.map (·.minEpoch)).getD 0) ((s.committed.map (·.maxEpoch)).getD 0) s.logs.files

/-- A checkpoint is committed only when recovery would accept it. -/
def CommitsAccepted (s : Kvd n) (move : Move n) : Prop :=
  move = .commit → ∀ c, s.checkpointer = .uncommitted c → s.logs.Accepts c.minEpoch c.maxEpoch

def Accepted (s : Kvd n) : Prop :=
  s.logs.Good ∧ ∀ c, s.committed = some c → s.logs.Accepts c.minEpoch c.maxEpoch

theorem step_accepted {s s' : Kvd n} {move : Move n} (accepted : s.Accepted) (allowed : s.CommitsAccepted move)
    (step : Step s move s') : s'.Accepted := by
  refine ⟨step_good step accepted.1, fun c held => ?_⟩
  have logs : s.logs.Accepts c.minEpoch c.maxEpoch → s'.logs.Accepts c.minEpoch c.maxEpoch := by
    intro before
    rcases step_logs step with same | ⟨event, same⟩
    · rwa [same]
    · rw [same]
      exact Logset.step_accepts accepted.1 before event
  cases step with
  | commit c' ready =>
    cases held
    exact allowed rfl _ ready
  | _ => exact logs (accepted.2 c held)

def Replays (s : Kvd n) : Prop := ∀ i, ∀ p ∈ (s.logs.logs i).applied, p.2.Replayable

/-- Nothing is published that replay stumbles over, and checkpoints are committed when recovery accepts them. -/
structure Restarts (len : Nat) (s : Kvd n) (move : Move n) : Prop where
  regular : s.Regular len move
  narrow : ∀ i worker site owner key changes wire, move = .publish i worker site owner (.put key changes wire) →
    (s.table key).isSome = true → wire.length + sizeofDeltaMarker < 2 ^ 16
  accepted : s.CommitsAccepted move

theorem step_replays {s s' : Kvd n} {move : Move n} {len : Nat} (replays : s.Replays) (restarts : s.Restarts len move)
    (step : Step s move s') : s'.Replays := by
  by_cases publishes : ∃ i worker site key request, move = .publish i worker site key request
  · obtain ⟨i, worker, site, key, request, rfl⟩ := publishes
    have regular := restarts.regular
    cases step with
    | publish _ _ _ _ _ e lr live dated held ran named encoded =>
      have short := regular.short _ _ _ _ _ rfl
      rw [← named] at short
      have new : lr.Replayable := onego_replayable (regular.keeps _ _ _ _ _ rfl) (regular.plain _ _ _ _ _ rfl) short
        (by rintro key' changes wire rfl; exact restarts.narrow _ _ _ _ _ _ _ rfl) ran
      intro k p member
      rw [published_applied held] at member
      by_cases here : k = i
      · subst here
        rw [Function.update_self] at member
        rcases List.mem_append.mp member with old | now
        · exact replays k p old
        · rw [List.mem_singleton.mp now]
          exact ⟨new.within, new.plain, new.fits⟩
      · rw [Function.update_of_ne here] at member
        exact replays k p member
  · obtain ⟨applied, -⟩ := step_applied step
      fun i worker site key request same => publishes ⟨i, worker, site, key, request, same⟩
    intro i p member
    rw [applied] at member
    exact replays i p member

def scanned (s : Kvd n) : Checkpoint :=
  { s.visit (fun _ => true) { minEpoch := s.logs.globalLogEpoch } with maxEpoch := s.logs.globalLogEpoch }

theorem Run.scan {allowed : Kvd n → Move n → Prop} {s s' : Kvd n} (run : Run allowed s s')
    (ready : s'.checkpointer = .ready) (start : allowed s' .start)
    (ok : ∀ c, allowed { s' with checkpointer := .scanning c } (.visit fun _ => true) ∧
      allowed { s' with checkpointer := .scanning c } .prepare) :
    Run allowed s { s' with checkpointer := .uncommitted s'.scanned } := by
  have scanning := run.step .start start (.start ready)
  have visited := scanning.step (.visit fun _ => true) (ok _).1 (.visit _ _ rfl)
  exact visited.step .prepare (ok _).2 (.prepare _ rfl fun _ => rfl)

/-- The log's thread notes that nothing happens, and writes that to disk. -/
def quiet : List (Event 1 LogRecord) := [.poll 0, .write 0, .write 0, .fsync 0]

theorem regular_of_other {len : Nat} {s : Kvd n} {move : Move n}
    (unpublished : ∀ i worker site key request, move ≠ .publish i worker site key request)
    (unrecorded : ∀ i, move ≠ .record i) : s.Regular len move where
  plain i worker site key request same := absurd same (unpublished i worker site key request)
  keeps i worker site key request same := absurd same (unpublished i worker site key request)
  short i worker site key request same := absurd same (unpublished i worker site key request)
  room i _ _ same := absurd same (unrecorded i)

theorem restarts_other {len : Nat} {s : Kvd n} {move : Move n}
    (unpublished : ∀ i worker site key request, move ≠ .publish i worker site key request)
    (unrecorded : ∀ i, move ≠ .record i) (uncommitted : move ≠ .commit) : s.Restarts len move where
  regular := regular_of_other unpublished unrecorded
  narrow i worker site owner _ _ _ same := absurd same (unpublished i worker site owner _)
  accepted same := absurd same uncommitted

/-- A log that an earlier life left. -/
def found : Fin 1 → LogFile LogRecord := fun _ =>
  [.epoch 1, .op { command := .put, key := [1], val := [0, 0xA1, 7], ts := 2 }]

end Kvd

end Masstree
