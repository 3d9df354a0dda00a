import Masstree.Log.Logset
import Masstree.Log.Recover

/-!
# The cut of a crash

Whatever a crash leaves of the logs, an operation before the cut has its record on disk: provided that
the epoch does not pass a log that is waking up before every other log has noted the wake.
-/

namespace Masstree

variable {α : Type} {n : Nat}

def LogEntry.isQuiesce : LogEntry α → Bool
  | .quiesce => true
  | _ => false

namespace LogState

/-- What is on disk, or will be once a quiesce record in flight has landed. -/
def settled (l : LogState α) : LogFile α :=
  if l.flight.any LogEntry.isQuiesce then l.file ++ l.flight else l.file

def rest (l : LogState α) : LogFile α :=
  if l.flight.any LogEntry.isQuiesce then l.buf else l.flight ++ l.buf

/-- The epochs of the operations after the settled part, that of the lock's holder last. -/
def unsettled (l : LogState α) : List Nat :=
  (l.rest.ops (l.settled.lastEpoch 0)).map (·.1) ++ (l.holder.map (·.1)).toList

/-- Recovery would take the log for empty or quiescent, though it has an operation. -/
def Waking (l : LogState α) : Prop :=
  (l.settled = [] ∨ l.settled.Quiescent) ∧ l.unsettled ≠ []

instance [DecidableEq α] (l : LogState α) : Decidable l.Waking := by
  unfold Waking LogFile.Quiescent
  infer_instance

theorem settled_append_rest (l : LogState α) : l.settled ++ l.rest = l.stream := by
  unfold settled rest LogState.stream
  split <;> simp

theorem isQuiesce_iff {entry : LogEntry α} : entry.isQuiesce = true ↔ entry = .quiesce := by
  cases entry <;> simp [LogEntry.isQuiesce]

theorem any_quiesce {f : LogFile α} : f.any LogEntry.isQuiesce = true ↔ .quiesce ∈ f := by
  simp [isQuiesce_iff]

theorem settled_of_loud {l : LogState α} (loud : .quiesce ∉ l.flight) :
    l.settled = l.file ∧ l.rest = l.flight ++ l.buf := by
  rw [← any_quiesce] at loud
  simp [settled, rest, loud]

theorem settled_of_notice {l : LogState α} (notice : .quiesce ∈ l.flight) :
    l.settled = l.file ++ l.flight ∧ l.rest = l.buf := by
  rw [← any_quiesce] at notice
  simp [settled, rest, notice]

theorem Good.unsettled_le {ge e : Nat} {l : LogState α} (good : Good ge l) (member : e ∈ l.unsettled) : e ≤ ge := by
  have follows := good.follows
  have bounded := good.bounded
  rw [← settled_append_rest, LogFile.follows_append] at follows
  rw [← settled_append_rest, LogFile.lastEpoch_append] at bounded
  rcases List.mem_append.mp member with recorded | held
  · obtain ⟨p, written, rfl⟩ := List.mem_map.mp recorded
    have := (LogFile.ops_le follows.2 written).2
    omega
  · cases holder : l.holder with
    | none => simp [holder] at held
    | some p =>
      have : e = p.1 := by simpa [holder] using held
      have := good.holder p.1 p.2 holder
      omega

end LogState

namespace Logset

/-- Every log that is waking up has something on disk, and every other log has a wake record for an epoch
from its last one up to the current one. -/
def Fenced (s : Logset n α) : Prop :=
  ∀ i, (s.logs i).Waking → (s.logs i).file ≠ [] ∧ ∀ j, j ≠ i →
    ∃ w ∈ (s.logs j).stream.wakes 0, (s.logs i).settled.lastEpoch 0 ≤ w ∧ w ≤ s.globalLogEpoch

/-- Whenever the epoch ticks, the logs are fenced. -/
def FencedRun (s : Logset n α) : List (Event n α) → Prop
  | [] => True
  | event :: rest => (event = .tick → s.Fenced) ∧ FencedRun (s.step event) rest

instance [DecidableEq α] (s : Logset n α) : Decidable s.Fenced := by
  unfold Fenced
  infer_instance

instance decidableFencedRun [DecidableEq α] (s : Logset n α) :
    ∀ events : List (Event n α), Decidable (s.FencedRun events)
  | [] => isTrue trivial
  | event :: rest =>
    have := decidableFencedRun (s.step event) rest
    inferInstanceAs (Decidable ((event = .tick → s.Fenced) ∧ _))

/-- A waking log's operations of past epochs are fenced by a wake record in every other log. -/
def Covered (s : Logset n α) : Prop :=
  ∀ i, (s.logs i).settled = [] ∨ (s.logs i).settled.Quiescent → ∀ e ∈ (s.logs i).unsettled,
    e < s.globalLogEpoch → (s.logs i).file ≠ [] ∧ ∀ j, j ≠ i →
      ∃ w ∈ (s.logs j).stream.wakes 0, (s.logs i).settled.lastEpoch 0 ≤ w ∧ w ≤ e

theorem started_covered {ge : Nat} {files : Fin n → LogFile α} : (started ge files).Covered := by
  intro i _ e member
  simp [started, LogState.unsettled, LogState.rest, LogFile.ops] at member

theorem tick_covered {s s' : Logset n α} (good : s.Good) (covered : s.Covered) (fenced : s.Fenced)
    (logs : s'.logs = s.logs) : s'.Covered := by
  intro i quiet e member past
  rw [logs] at quiet member ⊢
  have bound := LogState.Good.unsettled_le (good.logs i) member
  by_cases old : e < s.globalLogEpoch
  · exact covered i quiet e member old
  · have now : e = s.globalLogEpoch := Nat.le_antisymm bound (Nat.le_of_not_lt old)
    obtain ⟨written, noted⟩ := fenced i ⟨quiet, List.ne_nil_of_mem member⟩
    exact ⟨written, fun j other => by
      obtain ⟨w, wake, above, below⟩ := noted j other
      exact ⟨w, wake, above, now ▸ below⟩⟩

/-- How a change of one log bears on the cover: its stream only grows, and what it has unsettled, if it
looks empty or quiescent, was unsettled before or is of the current epoch. -/
structure Keeps (ge : Nat) (l l' : LogState α) (added : LogFile α) : Prop where
  stream : l'.stream = l.stream ++ added
  written : l.file ≠ [] → l'.file ≠ []
  unsettled : l'.settled = [] ∨ l'.settled.Quiescent →
    l'.settled = l.settled ∧ (∀ e ∈ l'.unsettled, e < ge → e ∈ l.unsettled) ∨ ∀ e ∈ l'.unsettled, ge ≤ e

theorem update_covered {s s' : Logset n α} {i : Fin n} {l : LogState α} {added : LogFile α} (covered : s.Covered)
    (keeps : Keeps s.globalLogEpoch (s.logs i) l added) (epoch : s'.globalLogEpoch = s.globalLogEpoch)
    (logs : s'.logs = Function.update s.logs i l) : s'.Covered := by
  have grown : ∀ j, ∀ w ∈ (s.logs j).stream.wakes 0, w ∈ (s'.logs j).stream.wakes 0 := by
    intro j w member
    by_cases same : j = i
    · subst same
      simp only [logs, Function.update_self, keeps.stream, LogFile.wakes_append]
      exact List.mem_append_left _ member
    · simpa [logs, same] using member
  intro j quiet e member past
  rw [epoch] at past
  by_cases same : j = i
  · subst same
    simp only [logs, Function.update_self] at quiet member ⊢
    rcases keeps.unsettled quiet with ⟨settled, before⟩ | late
    · rw [settled] at quiet ⊢
      obtain ⟨some_, noted⟩ := covered j quiet e (before e member past) past
      refine ⟨keeps.written some_, fun k other => ?_⟩
      obtain ⟨w, wake, bounds⟩ := noted k other
      exact ⟨w, logs ▸ grown k w wake, bounds⟩
    · exact absurd past (Nat.not_lt.mpr (late e member))
  · have here : s'.logs j = s.logs j := by simp [logs, same]
    rw [here] at quiet member ⊢
    obtain ⟨some_, noted⟩ := covered j quiet e member past
    refine ⟨some_, fun k other => ?_⟩
    obtain ⟨w, wake, bounds⟩ := noted k other
    exact ⟨w, grown k w wake, bounds⟩

theorem record_keeps {ge we e : Nat} {l : LogState α} {x : α} (good : l.Good ge)
    (held : l.holder = some (e, some x)) : ∃ added, Keeps ge l (l.record we e x).1 added := by
  obtain ⟨epoch, wake, appends, dated, free, kind, kind'⟩ := LogState.record_appends we e x l
  obtain ⟨late, bound, positive⟩ := good.holder e _ held
  have kind : epoch = [.epoch e] ∨ epoch = [] ∧ l.stream.lastEpoch 0 = e :=
    kind.imp id fun ⟨skipped, same⟩ => ⟨skipped, by rcases good.current with zero | last <;> omega⟩
  obtain ⟨-, -, ops, -, -⟩ := LogState.record_entries (x := x) late positive kind kind' rfl
  generalize (l.record we e x).1 = l' at appends free
  have settled : l'.settled = l.settled := by simp [LogState.settled, appends.flight, appends.file]
  have rest : l'.rest = l.rest ++ (epoch ++ wake ++ [.op x]) := by
    simp only [LogState.rest, appends.flight, appends.buf]
    split <;> simp
  have stream : l.stream.lastEpoch 0 = l.rest.lastEpoch (l.settled.lastEpoch 0) := by
    rw [← LogState.settled_append_rest, LogFile.lastEpoch_append]
  refine ⟨_, appends.stream, by rw [appends.file]; exact id, fun _ => Or.inl ⟨settled, fun e' member _ => ?_⟩⟩
  simp only [LogState.unsettled, settled, rest, free, LogFile.ops_append, ← stream, ops, Option.map_none,
    Option.toList_none, List.append_nil, List.map_append, List.map_cons, List.map_nil] at member
  simp only [LogState.unsettled, held, Option.map_some, Option.toList_some]
  exact member

theorem poll_keeps {ge we : Nat} {l : LogState α} (good : l.Good ge) (free : l.holder = none)
    (landed : l.flying = false) : ∃ added, Keeps ge l (l.poll ge we) added := by
  obtain ⟨polled, file, holder, -, -⟩ := LogState.poll_polled ge we l
  have empty := good.landed landed
  generalize l.poll ge we = l' at polled file holder
  have before := LogState.settled_of_loud (l := l) (by simp [empty])
  have written : l.file ≠ [] → l'.file ≠ [] := by
    rw [file]
    exact id
  cases polled with
  | idle none buf flight =>
    have settled : l'.settled = l.settled := by simp [LogState.settled, flight, file]
    have rest : l'.rest = l.rest := by simp [LogState.rest, flight, buf, none]
    refine ⟨[], by simp [LogState.stream, file, flight, buf, none], written,
      fun _ => Or.inl ⟨settled, fun e member _ => ?_⟩⟩
    rwa [LogState.unsettled, rest, settled, holder] at member
  | notice none buf flight =>
    obtain ⟨-, rest⟩ := LogState.settled_of_notice (l := l') (by simp [flight])
    refine ⟨[.epoch ge, .quiesce], by simp [LogState.stream, file, flight, buf, none, empty], written,
      fun _ => Or.inr fun e member => ?_⟩
    simp [LogState.unsettled, rest, buf, holder, free, LogFile.ops] at member
  | swap some_ buf flight =>
    obtain ⟨settled, rest⟩ := LogState.settled_of_loud (l := l') (by rw [flight]; exact good.loud)
    have settled : l'.settled = l.settled := by rw [settled, before.1, file]
    have rest : l'.rest = l.rest := by simp [rest, before.2, flight, buf, empty]
    refine ⟨[], by simp [LogState.stream, file, flight, buf, empty], written,
      fun _ => Or.inl ⟨settled, fun e member _ => ?_⟩⟩
    rwa [LogState.unsettled, rest, settled, holder] at member

theorem write_keeps {ge : Nat} {l : LogState α} {entry : LogEntry α} {rest : LogFile α} (good : l.Good ge)
    (flight : l.flight = entry :: rest) : Keeps ge l { l with file := l.file ++ [entry], flight := rest } [] := by
  refine ⟨by simp [LogState.stream, flight], by simp, fun quiet => ?_⟩
  rcases good.notice with loud | notice
  · -- The record on disk is the last of the settled part now, and no quiesce.
    have other : entry ≠ .quiesce := by
      rintro rfl
      simp [flight] at loud
    obtain ⟨settled, -⟩ := LogState.settled_of_loud (l := { l with file := l.file ++ [entry], flight := rest })
      (fun member => loud (by rw [flight]; exact List.mem_cons_of_mem _ member))
    rw [settled] at quiet
    rcases quiet with none | quiet
    · simp at none
    · simp [LogFile.Quiescent, other] at quiet
  · obtain ⟨settled, after⟩ := LogState.settled_of_notice (l := l) (by
      rcases notice with ⟨e, shape⟩ | shape <;> simp [shape])
    have same : ∀ l' : LogState α, l' = { l with file := l.file ++ [entry], flight := rest } →
        l'.settled = l.settled ∧ l'.rest = l.rest := by
      rintro l' rfl
      rw [settled, after, flight]
      rcases notice with ⟨e, shape⟩ | shape
      · rw [flight] at shape
        cases shape
        simp [LogState.settled, LogState.rest, LogEntry.isQuiesce]
      · rw [flight] at shape
        cases shape
        simp [LogState.settled, LogState.rest]
    obtain ⟨settled, after⟩ := same _ rfl
    refine Or.inl ⟨settled, fun e member _ => ?_⟩
    rwa [LogState.unsettled, settled, after] at member

theorem change_keeps {ge : Nat} {l l' : LogState α} (good : l.Good ge) (change : LogState.Change ge l l') :
    ∃ added, Keeps ge l l' added := by
  cases change with
  | acquire free =>
    refine ⟨[], by simp [LogState.stream], id, fun _ => Or.inl ⟨rfl, fun e member past => ?_⟩⟩
    rcases List.mem_append.mp member with recorded | held
    · exact List.mem_append_left _ recorded
    · have : e = ge := by simpa using held
      omega
  | publish e x held =>
    refine ⟨[], by simp [LogState.stream], id, fun _ => Or.inl ⟨rfl, fun e' member _ => ?_⟩⟩
    simpa [LogState.unsettled, LogState.rest, LogState.settled, held] using member
  | record we e x held => exact record_keeps good held
  | poll we free landed => exact poll_keeps good free landed
  | write entry rest flight => exact ⟨[], write_keeps good flight⟩
  | fsync => exact ⟨[], by simp [LogState.stream], id, fun _ => Or.inl ⟨rfl, fun _ member _ => member⟩⟩

theorem step_covered {s : Logset n α} (good : s.Good) (covered : s.Covered) {event : Event n α}
    (fenced : event = .tick → s.Fenced) : (s.step event).Covered := by
  rcases step_cases s event with same | ⟨i, l, change, epoch, logs⟩ | ⟨tick, -, logs⟩
  · rw [same]
    exact covered
  · obtain ⟨added, keeps⟩ := change_keeps (good.logs i) change
    exact update_covered covered keeps epoch logs
  · exact tick_covered good covered (fenced tick) logs

theorem run_covered {s : Logset n α} (good : s.Good) (covered : s.Covered) {events : List (Event n α)}
    (fenced : s.FencedRun events) : (s.run events).Covered := by
  induction events generalizing s with
  | nil => exact covered
  | cons event rest ih => exact ih (step_good good event) (step_covered good covered fenced.1) fenced.2

/-! ### A crash -/

def lost (s : Logset n α) (i : Fin n) : List (Nat × α) :=
  ((s.logs i).flight ++ (s.logs i).buf).ops ((s.files i).lastEpoch 0) ++ LogState.published (s.logs i).holder

theorem applied_eq {s : Logset n α} (good : s.Good) (i : Fin n) :
    (s.logs i).applied = (s.files i).ops 0 ++ s.lost i := by
  rw [(good.logs i).applied, LogState.stream, List.append_assoc, LogFile.ops_append, List.append_assoc]
  rfl

theorem files_follows {s : Logset n α} (good : s.Good) (i : Fin n) :
    (s.files i).Follows 0 ∧ ((s.logs i).flight ++ (s.logs i).buf).Follows ((s.files i).lastEpoch 0) := by
  have := (good.logs i).follows
  rwa [LogState.stream, List.append_assoc, LogFile.follows_append] at this

theorem files_bounded {s : Logset n α} (good : s.Good) (i : Fin n) :
    (s.files i).lastEpoch 0 ≤ s.globalLogEpoch := by
  have bounded := (good.logs i).bounded
  have := LogFile.le_lastEpoch (files_follows good i).2
  rw [LogState.stream, List.append_assoc, LogFile.lastEpoch_append] at bounded
  exact Nat.le_trans this bounded

theorem lost_le {s : Logset n α} (good : s.Good) {i : Fin n} {p : Nat × α} (lost : p ∈ s.lost i) :
    (s.files i).lastEpoch 0 ≤ p.1 := by
  have follows := (files_follows good i).2
  rcases List.mem_append.mp lost with written | held
  · exact (LogFile.ops_le follows written).1
  · cases holder : (s.logs i).holder with
    | none => simp [holder, LogState.published] at held
    | some h =>
      obtain ⟨e, x⟩ := h
      cases x with
      | none => simp [holder, LogState.published] at held
      | some x =>
        have same : p = (e, x) := by simpa [holder, LogState.published] using held
        have late := ((good.logs i).holder e _ holder).1
        have := LogFile.le_lastEpoch follows
        rw [LogState.stream, List.append_assoc, LogFile.lastEpoch_append] at late
        subst same
        exact Nat.le_trans this late

/-- A lost operation of a log that recovery takes for empty or quiescent is unsettled. -/
theorem lost_unsettled {s : Logset n α} (good : s.Good) {i : Fin n} {p : Nat × α} (lost : p ∈ s.lost i)
    (quiet : s.files i = [] ∨ (s.files i).Quiescent) :
    ((s.logs i).settled = [] ∨ (s.logs i).settled.Quiescent) ∧ p.1 ∈ (s.logs i).unsettled := by
  have held : p ∈ LogState.published (s.logs i).holder → p.1 ∈ ((s.logs i).holder.map (·.1)).toList := by
    cases (s.logs i).holder with
    | none => simp [LogState.published]
    | some h =>
      obtain ⟨e, x⟩ := h
      cases x <;> simp [LogState.published]
      rintro rfl
      rfl
  by_cases notice : .quiesce ∈ (s.logs i).flight
  · obtain ⟨settled, rest⟩ := LogState.settled_of_notice notice
    have shape := (good.logs i).notice.resolve_left (not_not_intro notice)
    have last : (s.logs i).settled.Quiescent := by
      rw [settled, LogFile.Quiescent]
      rcases shape with ⟨e, shape⟩ | shape <;> simp [shape]
    have unwritten : (s.logs i).flight.ops ((s.files i).lastEpoch 0) = [] := by
      rcases shape with ⟨e, shape⟩ | shape <;> simp [shape, LogFile.ops]
    refine ⟨Or.inr last, ?_⟩
    rw [LogState.unsettled, settled, rest]
    rcases List.mem_append.mp lost with written | pending
    · rw [LogFile.ops_append, unwritten, List.nil_append] at written
      refine List.mem_append_left _ (List.mem_map_of_mem ?_)
      rwa [LogFile.lastEpoch_append]
    · exact List.mem_append_right _ (held pending)
  · obtain ⟨settled, rest⟩ := LogState.settled_of_loud notice
    rw [LogState.unsettled, settled, rest]
    refine ⟨quiet, ?_⟩
    rcases List.mem_append.mp lost with written | pending
    · exact List.mem_append_left _ (List.mem_map_of_mem written)
    · exact List.mem_append_right _ (held pending)

/-- No lost operation past the checkpoint is before the cut. -/
theorem cut_le_lost {s : Logset n α} (good : s.Good) (covered : s.Covered) {garbage : Fin n → Bool} {ckpMaxEpoch : Nat}
    (clear : ∀ i, s.files i = [] → garbage i = false) {i : Fin n} {p : Nat × α} (lost : p ∈ s.lost i)
    (saved : ckpMaxEpoch ≠ 0 → ckpMaxEpoch < p.1) : cut garbage ckpMaxEpoch s.files ≤ p.1 := by
  have least : IsLeast {c | CutBound ckpMaxEpoch s.files c} (cut garbage ckpMaxEpoch s.files) :=
    cut_isLeast (fun i => (files_follows good i).1) clear
  by_contra beyond
  have beyond : p.1 < cut garbage ckpMaxEpoch s.files := Nat.lt_of_not_le beyond
  -- Some other log has gone past the epoch of the lost operation.
  obtain ⟨j, past⟩ : ∃ j, p.1 < (s.files j).lastEpoch 0 := by
    rcases least.1 with ⟨-, -, start | ⟨j, same⟩⟩ | ⟨j, -, -, same⟩ | ⟨-, j, -, wake, -⟩
    · split at start
      · have := saved ‹_›
        omega
      · omega
    · exact ⟨j, by omega⟩
    · exact ⟨j, by omega⟩
    · have := (LogFile.wakes_le (files_follows good j).1 wake).2.1
      exact ⟨j, by omega⟩
  have late := lost_le good lost
  have other : j ≠ i := by
    rintro rfl
    omega
  by_cases active : s.files i ≠ [] ∧ ¬ (s.files i).Quiescent
  · have := least.2 (CutBound.active i active.1 active.2 rfl)
    omega
  · have quiet : s.files i = [] ∨ (s.files i).Quiescent := by
      by_contra loud
      exact active (not_or.mp loud)
    obtain ⟨settledQuiet, unsettled⟩ := lost_unsettled good lost quiet
    have old : p.1 < s.globalLogEpoch := Nat.lt_of_lt_of_le past (files_bounded good j)
    obtain ⟨written, noted⟩ := covered i settledQuiet p.1 unsettled old
    obtain ⟨w, wake, above, below⟩ := noted j other
    have wake : w ∈ (s.files j).wakes 0 := by
      have follows := (good.logs j).follows
      rw [LogState.stream, List.append_assoc] at follows wake
      exact LogFile.wake_before follows past wake below
    have settled : (s.files i).lastEpoch 0 ≤ (s.logs i).settled.lastEpoch 0 := by
      unfold LogState.settled
      split
      · have := (LogFile.follows_append.mp (files_follows good i).2).1
        rw [LogFile.lastEpoch_append]
        exact LogFile.le_lastEpoch this
      · exact Nat.le_refl _
    have := least.2 (CutBound.missed i j (quiet.resolve_left written) wake (by omega))
    omega

/-- Recovery after a crash replays exactly the operations before the cut. -/
theorem cut_sound {ge : Nat} {files : Fin n → LogFile α} (positive : 0 < ge)
    (wellFormed : ∀ i, (files i).Follows 0) (bounded : ∀ i, (files i).lastEpoch 0 ≤ ge)
    {events : List (Event n α)} (fenced : (started ge files).FencedRun events) {garbage : Fin n → Bool}
    (clear : ∀ i, ((started ge files).run events).files i = [] → garbage i = false) :
    ∃ r, recover garbage 0 0 ((started ge files).run events).files = some r ∧
      ∀ i, r.replayed i = (((started ge files).run events).logs i).applied.filter
        (·.1 < cut garbage 0 ((started ge files).run events).files) := by
  have good := run_good (started_good positive wellFormed bounded) events
  have covered := run_covered (started_good positive wellFormed bounded) started_covered fenced
  generalize (started ge files).run events = s at good covered clear
  have checked : ckpChecked 0 0 garbage s.files = true := by simp [ckpChecked]
  obtain ⟨r, ran, -, cleaned⟩ := recover_completes (fun i => (files_follows good i).1) checked
  refine ⟨r, ran, fun i => ?_⟩
  have none : (s.lost i).filter (·.1 < cut garbage 0 s.files) = [] := by
    refine List.filter_eq_nil_iff.mpr fun p member => ?_
    have := cut_le_lost good covered clear member fun none => absurd rfl none
    simpa using this
  rw [(cleaned i).ops, applied_eq good, List.filter_append, none, List.append_nil]
  simp

/-- An operation on log `i`, from the epoch it reads to its record. -/
def operate (i : Fin n) (x : α) : List (Event n α) := [.acquire i, .publish i x, .record i]

/-- A poll of log `i` whose flush of `k` records reaches the disk. -/
def flush (i : Fin n) (k : Nat) : List (Event n α) := .poll i :: (List.replicate k (.write i) ++ [.fsync i])

def bothWake : List (Event 2 Nat) :=
  flush 0 2 ++ flush 1 2 ++ [.tick] ++ operate 1 7 ++ operate 0 8 ++ [.tick] ++ operate 0 9 ++ flush 0 5

theorem cut_sound_bothWake : ∃ r, recover (fun _ => false) 0 0 ((started 1 fun _ => []).run bothWake).files = some r ∧
    ∀ i, r.replayed i = (((started 1 fun _ => []).run bothWake).logs i).applied.filter
      (·.1 < cut (fun _ => false) 0 ((started 1 fun _ => []).run bothWake).files) := by
  have empty : ∀ _ : Fin 2, LogFile.Follows 0 ([] : LogFile Nat) := fun _ => trivial
  have fenced : (started 1 fun _ => []).FencedRun bothWake := by decide
  exact cut_sound (by decide) empty (fun _ => Nat.zero_le 1) fenced fun _ _ => rfl

/-- Log 1 wakes in epoch 2. The thread of log 0 takes over the wake epoch without a wake record, so the
operations of log 0 in epochs 3 and 4 leave no trace of it. -/
def wakeUnrecorded : List (Event 2 Nat) :=
  flush 0 2 ++ flush 1 2 ++ [.tick] ++ operate 1 7 ++ [.poll 0, .tick] ++ operate 0 8 ++ flush 0 2 ++ [.tick] ++
    operate 0 9 ++ flush 0 2

theorem cut_unsound : ¬ ∀ events : List (Event 2 Nat),
    ∃ r, recover (fun _ => false) 0 0 ((started 1 fun _ => []).run events).files = some r ∧
      ∀ i, r.replayed i = (((started 1 fun _ => []).run events).logs i).applied.filter
        (·.1 < cut (fun _ => false) 0 ((started 1 fun _ => []).run events).files) := by
  intro claim
  obtain ⟨r, ran, replays⟩ := claim wakeUnrecorded
  have applied : (((started 1 fun _ => []).run wakeUnrecorded).logs 1).applied = [(2, 7)] := by decide
  have cut4 : cut (fun _ => false) 0 ((started 1 fun _ => []).run wakeUnrecorded).files = 4 := by decide
  have lost : ((recover (fun _ => false) 0 0 ((started 1 fun _ => []).run wakeUnrecorded).files).map
      fun r => r.replayed 1) = some [] := by decide
  have kept := replays 1
  rw [ran] at lost
  rw [applied, cut4] at kept
  simp_all

end Logset

end Masstree
