import Masstree.Checkpoint.Accepted
import Masstree.Checkpoint.Fuzzy
import Masstree.Log.CutSound

/-!
# A checkpoint and the logs a crash leaves

What recovery replays of a key, from the files of all logs, are the records published for it from the checkpoint's first
epoch to the cut. No record before the cut is missing on disk, as long as the epoch waits for logs that wake up.
-/

namespace Masstree
open Msgpack (Bytes)
open ChainedReplay (Waits)
open Server (rowChain)

variable {n : Nat}

/-- Appending to one of several lists appends to what they have together. -/
theorem flatMap_update {ι α : Type} [DecidableEq ι] {l : List ι} {i : ι} (nodup : l.Nodup) (mem : i ∈ l) (f : ι → List α)
    (added : List α) : (l.flatMap (Function.update f i (f i ++ added))).Perm (l.flatMap f ++ added) := by
  induction l with
  | nil => cases mem
  | cons j l ih =>
    obtain ⟨fresh, nodup⟩ := List.nodup_cons.mp nodup
    rw [List.flatMap_cons, List.flatMap_cons]
    by_cases same : i = j
    · subst same
      have rest : l.flatMap (Function.update f i (f i ++ added)) = l.flatMap f :=
        List.flatMap_congr fun k other => Function.update_of_ne (ne_of_mem_of_not_mem other fresh) _ _
      rw [Function.update_self, rest, List.append_assoc, List.append_assoc]
      exact (List.perm_append_comm).append_left _
    · rw [Function.update_of_ne (Ne.symm same), List.append_assoc]
      exact (ih nodup ((List.mem_cons.mp mem).resolve_left same)).append_left _

namespace Logset

/-- A lost operation is past the epochs of a checkpoint that recovery accepts. -/
theorem Accepts.lost_gt {α : Type} {minEpoch maxEpoch : Nat} {s : Logset n α} (good : s.Good)
    (accepts : s.Accepts minEpoch maxEpoch) {i : Fin n} {p : Nat × α} (lost : p ∈ s.lost i) : maxEpoch < p.1 := by
  rcases (accepts.logs i).last with past | ⟨-, ahead⟩
  · exact Nat.lt_of_lt_of_le past (lost_le good lost)
  · have follows := (files_follows good i).2
    rcases List.mem_append.mp lost with unwritten | held
    · rcases ahead.unwritten with none | ⟨e, g, shape, late⟩
      · rw [none] at unwritten
        cases unwritten
      · rw [shape] at unwritten follows
        exact Nat.lt_of_lt_of_le late (LogFile.ops_le follows.2.2 unwritten).1
    · cases holder : (s.logs i).holder with
      | none => simp [holder, LogState.published] at held
      | some h =>
        obtain ⟨e, x⟩ := h
        cases x with
        | none => simp [holder, LogState.published] at held
        | some x =>
          obtain rfl : p = (e, x) := by simpa [holder, LogState.published] using held
          exact ahead.holder e _ holder

end Logset

/-- The records of a key that recovery replays, in the order of the logs. -/
def Recovered.records (r : Recovered n LogRecord) (key : Bytes) : List LogRecord :=
  (List.finRange n).flatMap fun i => ((r.replayed i).map Prod.snd).filter (·.key = key)

namespace Kvd

/-! ### The operations of the logs -/

def logged (s : Kvd n) (key : Bytes) : List LogRecord :=
  (List.finRange n).flatMap fun i => ((s.logs.logs i).applied.map Prod.snd).filter (·.key = key)

/-- The records published for each key are those of the logs, none of them a remove. -/
structure Logged (s : Kvd n) : Prop where
  even : s.Even
  dated : ∀ i, ∀ p ∈ (s.logs.logs i).applied, p.2.epoch = p.1
  history : ∀ key, (s.history key).Perm (s.logged key)
  unremoved : ∀ key, Unremoved (s.history key)

theorem published_logged {s : Kvd n} {i : Fin n} {e : Nat} (held : (s.logs.logs i).holder = some (e, none))
    (worker : Nat) (key : Bytes) (lr : LogRecord) (live : Server) (key' : Bytes) :
    ((s.published i worker key e lr live).logged key').Perm
      (s.logged key' ++ [{ lr with epoch := e }].filter (·.key = key')) := by
  have same : (s.published i worker key e lr live).logged key' = (List.finRange n).flatMap (Function.update
      (fun k => ((s.logs.logs k).applied.map Prod.snd).filter (·.key = key')) i
      (((s.logs.logs i).applied.map Prod.snd).filter (·.key = key') ++ [{ lr with epoch := e }].filter (·.key = key'))) := by
    refine List.flatMap_congr fun k _ => ?_
    rw [published_applied held]
    by_cases here : k = i
    · subst here
      rw [Function.update_self, Function.update_self, List.map_append, List.filter_append]
      rfl
    · rw [Function.update_of_ne here, Function.update_of_ne here]
  rw [same]
  exact flatMap_update (List.nodup_finRange n) (List.mem_finRange i) _ _

theorem step_logged {s s' : Kvd n} {move : Move n} {len : Nat} (inv : s.Logged) (regular : s.Regular len move)
    (step : Step s move s') : s'.Logged := by
  have even := (step_touches inv.even regular step []).2
  by_cases publishes : ∃ i worker site key request, move = .publish i worker site key request
  · obtain ⟨i, worker, site, key, request, rfl⟩ := publishes
    cases step with
    | publish _ _ _ _ _ e lr live dated held ran named encoded =>
      have keeps := regular.keeps _ _ _ _ _ rfl
      have command := Server.onego_command (inv.even worker) encoded keeps (regular.plain _ _ _ _ _ rfl) ran
      have same := (Server.onego_key keeps ran).trans named
      have history : (s.published i worker key e lr live).history =
          Function.update s.history key (s.history key ++ [{ lr with epoch := e }]) := rfl
      refine ⟨even, fun k p member => ?_, fun key' => ?_, fun key' => ?_⟩
      · rw [published_applied held] at member
        by_cases here : k = i
        · subst here
          rw [Function.update_self] at member
          rcases List.mem_append.mp member with old | new
          · exact inv.dated k p old
          · rw [List.mem_singleton.mp new]
        · rw [Function.update_of_ne here] at member
          exact inv.dated k p member
      · refine List.Perm.trans ?_ (published_logged held worker key lr live key').symm
        rw [history]
        by_cases here : key' = key
        · subst here
          rw [Function.update_self, List.filter_cons_of_pos (by simpa using same), List.filter_nil]
          exact (inv.history key').append_right _
        · rw [Function.update_of_ne here, List.filter_cons_of_neg (by simpa [same] using Ne.symm here), List.filter_nil,
            List.append_nil]
          exact inv.history key'
      · rw [history]
        by_cases here : key' = key
        · subst here
          rw [Function.update_self]
          intro lr' member
          rcases List.mem_append.mp member with old | new
          · exact inv.unremoved key' lr' old
          · rw [List.mem_singleton.mp new]
            exact command
        · rw [Function.update_of_ne here]
          exact inv.unremoved key'
  · obtain ⟨applied, history⟩ := step_applied step
      fun i worker site key request same => publishes ⟨i, worker, site, key, request, same⟩
    have logged : s'.logged = s.logged := by
      funext key
      unfold logged
      simp only [applied]
    refine ⟨even, fun i p member => inv.dated i p ?_, ?_, ?_⟩
    · rwa [← applied]
    · rw [history, logged]
      exact inv.history
    · rw [history]
      exact inv.unremoved

theorem started_logged (ge : Nat) : Logged { logs := Logset.started (n := n) ge fun _ => [] } := by
  refine ⟨fun _ => Server.even_initial, ?_, fun key => ?_, fun key lr member => ?_⟩
  · simp [Logset.started, LogFile.ops]
  · have none : (({ logs := Logset.started (n := n) ge fun _ => [] } : Kvd n).logged key) = [] := by
      simp [logged, Logset.started, LogFile.ops]
    rw [none]
  · cases member

/-! ### What recovery replays -/

theorem step_covered {s s' : Kvd n} {move : Move n} (good : s.logs.Good) (covered : s.logs.Covered)
    (awake : move = .tick → s.logs.Fenced) (step : Step s move s') : s'.logs.Covered := by
  have kept : ∀ event : Event n LogRecord, (event = .tick → s.logs.Fenced) → (s.logs.step event).Covered :=
    fun event => Logset.step_covered good covered
  cases step with
  | publish i worker site key request e lr => exact kept (.publish i { lr with epoch := e }) nofun
  | acquire i => exact kept (.acquire i) nofun
  | record i => exact kept (.record i) nofun
  | poll i => exact kept (.poll i) nofun
  | write i => exact kept (.write i) nofun
  | fsync i => exact kept (.fsync i) nofun
  | tick => exact kept .tick fun _ => awake rfl
  | _ => exact covered

/-- The steps of a server whose checkpoint stands for the records of `key` that the logs no longer have: checkpoints
are committed when recovery accepts them, and the epoch passes no log that is waking up alone. -/
structure Survives (len : Nat) (key : Bytes) (s : Kvd n) (move : Move n) : Prop where
  regular : s.Regular len move
  visited : s.Fenced key move
  accepted : s.CommitsAccepted move
  awake : move = .tick → s.logs.Fenced

/-- What holds of a key and of the logs throughout such a run. -/
structure Survived (key : Bytes) (s : Kvd n) : Prop where
  inv : s.Inv key
  logged : s.Logged
  accepted : s.Accepted
  covered : s.logs.Covered

theorem step_survived {s s' : Kvd n} {move : Move n} {key : Bytes} {len : Nat} (survived : s.Survived key)
    (survives : s.Survives len key move) (step : Step s move s') : s'.Survived key where
  inv := step_inv survived.inv survives.regular survives.visited step
  logged := step_logged survived.logged survives.regular step
  accepted := step_accepted survived.accepted survives.accepted step
  covered := step_covered survived.accepted.1 survived.covered survives.awake step

theorem started_survived {ge : Nat} (positive : 0 < ge) (key : Bytes) :
    Survived key { logs := Logset.started (n := n) ge fun _ => [] } where
  inv := started_inv _ key
  logged := started_logged ge
  accepted := ⟨Logset.started_good positive (fun _ => trivial) fun _ => Nat.zero_le ge, fun _ held => by cases held⟩
  covered := Logset.started_covered

/-- No log is empty once a checkpoint is committed, and recovery replays from each what was published on it from the
checkpoint's first epoch to the cut. -/
theorem recover_committed {s : Kvd n} {key : Bytes} {ckp : Checkpoint} (survived : s.Survived key)
    (committed : s.committed = some ckp) (garbage : Fin n → Bool) :
    ∃ r c, s.recover garbage = some r ∧ r.globalLogEpoch = c + 1 ∧ ckp.maxEpoch < c ∧
      ∀ i, r.replayed i = ((s.logs.logs i).applied.filter fun p => ckp.minEpoch ≤ p.1 ∧ p.1 < c) := by
  have good := survived.accepted.1
  have accepts := survived.accepted.2 ckp committed
  have follows := fun i => (Logset.files_follows good i).1
  have written : ∀ i, s.logs.files i = [] → garbage i = false := by
    intro i empty
    obtain ⟨e, g, shape, -⟩ := (accepts.logs i).first
    exact absurd (shape.symm.trans empty) nofun
  obtain ⟨r, ran, epoch, cleaned⟩ := recover_completes follows (accepts.checked good garbage)
  have past := accepts.lt_bound (cut_isLeast follows written).1
  refine ⟨r, cut garbage ckp.maxEpoch s.logs.files, by rw [recover, committed]; exact ran, epoch, past, fun i => ?_⟩
  have none : (s.logs.lost i).filter (fun p => ckp.minEpoch ≤ p.1 ∧ p.1 < cut garbage ckp.maxEpoch s.logs.files) = [] := by
    refine List.filter_eq_nil_iff.mpr fun p lost => ?_
    have := Logset.cut_le_lost good survived.covered written lost fun _ => accepts.lost_gt good lost
    simp
    omega
  rw [(cleaned i).ops, Logset.applied_eq good, List.filter_append, none, List.append_nil]

/-- The records of a key that recovery replays are those published for it from the checkpoint's first epoch to the cut. -/
theorem records_perm {s : Kvd n} {key : Bytes} {r : Recovered n LogRecord} {lo c : Nat} (inv : s.Logged)
    (replayed : ∀ i, r.replayed i = ((s.logs.logs i).applied.filter fun p => lo ≤ p.1 ∧ p.1 < c)) :
    (r.records key).Perm ((s.below key c).filter (lo ≤ ·.epoch)) := by
  have same : r.records key = (s.logged key).filter fun lr => lo ≤ lr.epoch ∧ lr.epoch < c := by
    rw [Recovered.records, logged, List.filter_flatMap]
    refine List.flatMap_congr fun i _ => ?_
    rw [replayed, List.filter_filter, List.filter_map, List.filter_map, List.filter_filter]
    refine congrArg _ (List.filter_congr fun p member => ?_)
    simp only [Function.comp, inv.dated i p member, Bool.decide_and, Bool.and_comm]
  rw [same, below, List.filter_filter]
  refine ((inv.history key).symm.filter _).trans (List.Perm.of_eq (List.filter_congr fun lr _ => ?_))
  simp

/-- Numbers of records, in an order of these, are those of the records in question, each once. -/
theorem order_spec {recs replayed : List LogRecord} {order : List Nat} {lo : Nat} {key : Bytes} (named : key ≠ [])
    (keys : ∀ lr ∈ replayed, lr.key = key) (increasing : recs.Pairwise (·.ts < ·.ts))
    (perm : replayed.Perm (recs.filter (lo ≤ ·.epoch))) (ordered : (order.map fun i => recs.getD i {}).Perm replayed) :
    order.Nodup ∧ ∀ i, i ∈ order ↔ i < recs.length ∧ lo ≤ (recs.getD i {}).epoch := by
  have distinct : recs.Nodup := increasing.imp fun earlier same => by
    rw [same] at earlier
    exact Nat.lt_irrefl _ earlier
  have whole := ordered.trans perm
  refine ⟨List.Nodup.of_map _ (whole.nodup_iff.mpr (distinct.filter _)), fun i => ⟨fun member => ?_, ?_⟩⟩
  · have there := List.mem_map_of_mem (f := fun i => recs.getD i {}) member
    have inside : i < recs.length := by
      by_contra outside
      have default : recs.getD i {} = {} := List.getD_eq_default _ _ (Nat.le_of_not_lt outside)
      have := keys _ (ordered.mem_iff.mp there)
      rw [default] at this
      exact named this.symm
    have := (List.mem_filter.mp (whole.mem_iff.mp there)).2
    exact ⟨inside, by simpa using this⟩
  · rintro ⟨inside, late⟩
    have there : recs.getD i {} ∈ recs.filter (lo ≤ ·.epoch) := by
      refine List.mem_filter.mpr ⟨?_, by simpa using late⟩
      rw [List.getD_eq_getElem _ _ inside]
      exact List.getElem_mem inside
    obtain ⟨j, member, same⟩ := List.mem_map.mp (whole.mem_iff.mpr there)
    have inside' : j < recs.length := by
      by_contra outside
      have default : recs.getD j {} = {} := List.getD_eq_default _ _ (Nat.le_of_not_lt outside)
      have := keys _ (ordered.mem_iff.mp (List.mem_map_of_mem member))
      rw [default] at this
      exact named this.symm
    rw [List.getD_eq_getElem _ _ inside, List.getD_eq_getElem _ _ inside'] at same
    rwa [← (distinct.getElem_inj_iff).mp same]

def aKey : Bytes := [1]

theorem create1_whole {v : Bytes} (short : v.length + 6 < 2 ^ 16) (ts : Nat) : (ValueBag.create1 v ts).Whole := by
  have last : ValueBag.offset (4 + 2 + v.length) = 6 + v.length := Nat.mod_eq_of_lt (by omega)
  have shape : ValueBag.create1 v ts = { ts, ncol := 1, pos := [6, 6 + v.length], body := v } := by
    rw [ValueBag.create1, ValueBag.sizeofBagdata, last]
  rw [shape]
  refine ⟨by simp, rfl, ?_, ?_⟩
  · intro p member
    have : p = 6 ∨ p = 6 + v.length := List.mem_pair.mp member
    omega
  · simp [ValueBag.posAt, ValueBag.s, ValueBag.le16]
    omega

def replaced (value : UInt8) (ts epoch : Nat) : LogRecord :=
  { command := .replace, key := aKey, val := [value], ts, epoch }

/-- No condition of a run that survives is about this move. -/
def unruled : Move n → Bool
  | .publish .. | .record _ | .visit _ | .commit | .tick => false
  | _ => true

theorem survives_other {len : Nat} {key : Bytes} {s : Kvd n} {move : Move n} (other : unruled move = true) :
    s.Survives len key move where
  regular := by
    refine regular_of_other (fun i worker site key request same => ?_) fun i same => ?_ <;>
    · subst same
      cases other
  visited keys same := by
    subst same
    cases other
  accepted same := by
    subst same
    cases other
  awake same := by
    subst same
    cases other

theorem survives_replace {len : Nat} (key : Bytes) (s : Kvd n) (i : Fin n) (value : UInt8) :
    s.Survives len key (.publish i 0 {} aKey (.replace aKey [value])) where
  regular := by
    refine ⟨?_, ?_, ?_, nofun⟩
    · rintro _ _ _ _ _ ⟨⟩ key' ⟨⟩
    · rintro _ _ _ _ _ ⟨⟩
      rfl
    · rintro _ _ _ _ _ ⟨⟩
      decide
  visited := nofun
  accepted := nofun
  awake := nofun

theorem survives_record {len : Nat} (key : Bytes) {s : Kvd n} {i : Fin n}
    (room : ∀ e lr, (s.logs.logs i).holder = some (e, some lr) → (s.logs.logs i).pos + lr.room ≤ len) :
    s.Survives len key (.record i) where
  regular := by
    refine ⟨nofun, nofun, nofun, ?_⟩
    rintro _ e lr ⟨⟩
    exact room e lr
  visited := nofun
  accepted := nofun
  awake := nofun

theorem survives_tick {len : Nat} (key : Bytes) {s : Kvd n} (fenced : s.logs.Fenced) : s.Survives len key .tick where
  regular := regular_of_other nofun nofun
  visited := nofun
  accepted := nofun
  awake _ := fenced

/-- A whole replace of the key, from the lock of its leaf to its record. -/
theorem Run.replace {len : Nat} {s s' : Kvd n} (run : Run (Survives len aKey) s s') (i : Fin n) (value : UInt8) (ts e : Nat)
    {live : Server} (free : s'.leaf aKey = .free) (unheld : (s'.logs.logs i).holder = none)
    (epoch : s'.logs.globalLogEpoch = e)
    (ran : (s'.live 0).onego {} (.replace aKey [value]) = some (live, some (replaced value ts 0)))
    (room : (s'.logs.logs i).pos + (replaced value ts e).room ≤ len) :
    ∃ s'', Run (Survives len aKey) s s'' ∧ s''.logs = s'.logs.run (Logset.operate i (replaced value ts e)) ∧
      s''.live 0 = live ∧ s''.leaf aKey = .free ∧ s''.history aKey = s'.history aKey ++ [replaced value ts e] ∧
      s''.checkpointer = s'.checkpointer ∧ s''.committed = s'.committed := by
  subst epoch
  have taken : s'.logs.step (.acquire i) = s'.logs.update i { s'.logs.logs i with holder := some (s'.logs.globalLogEpoch, none) } := by
    rw [Logset.step, unheld]
  have held : ((s'.logs.step (.acquire i)).logs i).holder = some (s'.logs.globalLogEpoch, none) := by
    rw [taken]
    simp [Logset.update]
  have locked := run.step (.lock aKey) (survives_other rfl) (.lock aKey free)
  have dated := locked.step (.acquire i aKey) (survives_other rfl)
    (.acquire i aKey (by simp) unheld)
  have stored := dated.step (.publish i 0 {} aKey (.replace aKey [value])) (survives_replace aKey _ i value)
    (.publish i 0 {} aKey _ s'.logs.globalLogEpoch (replaced value ts 0) live (by simp) held ran rfl trivial)
  refine ⟨_, stored.step (.record i) (survives_record aKey fun e lr now => ?_) (.record i), rfl, ?_, ?_, ?_, rfl, rfl⟩
  · have wrote : ((s'.logs.step (.acquire i)).step (.publish i (replaced value ts s'.logs.globalLogEpoch))).logs i =
        { s'.logs.logs i with
          holder := some (s'.logs.globalLogEpoch, some (replaced value ts s'.logs.globalLogEpoch))
          applied := (s'.logs.logs i).applied ++ [(s'.logs.globalLogEpoch, replaced value ts s'.logs.globalLogEpoch)] } := by
      dsimp only [Logset.step] at held ⊢
      rw [held, ← Logset.step, taken]
      simp [Logset.update]
    have now : (((s'.logs.step (.acquire i)).step (.publish i (replaced value ts s'.logs.globalLogEpoch))).logs i).holder =
      some (e, some lr) := now
    rw [wrote] at now
    cases now
    have same : (((s'.logs.step (.acquire i)).step (.publish i (replaced value ts s'.logs.globalLogEpoch))).logs i).pos =
        (s'.logs.logs i).pos := by
      rw [wrote]
      rfl
    exact Nat.le_trans (Nat.le_of_eq (congrArg (· + _) same)) room
  · simp [Kvd.live, Kvd.published]
  · simp [Kvd.published]
  · simp [Kvd.published]
    rfl

/-- The threads of the logs need nothing but time to flush. -/
theorem Run.flush {len : Nat} {s s' : Kvd n} {key : Bytes} (run : Run (Survives len key) s s') (i : Fin n) (k : Nat) :
    Run (Survives len key) s { s' with logs := s'.logs.run (Logset.flush i k) } := by
  have members : ∀ event ∈ (Logset.flush i k : List (Event n LogRecord)), event = .poll i ∨ event = .write i ∨ event = .fsync i := by
    intro event member
    simp only [Logset.flush, List.mem_cons, List.mem_append, List.mem_replicate, List.not_mem_nil, or_false] at member
    exact member.imp id (Or.imp And.right id)
  refine run.events _ (fun event member => ?_) fun s event member move same => ?_
  · rcases members event member with rfl | rfl | rfl <;> rfl
  · rcases members event member with rfl | rfl | rfl <;> cases same <;>
      exact survives_other rfl

def overlapEvents (i : Fin n) : List (Event n LogRecord) :=
  Logset.flush i 2 ++ [.tick] ++ Logset.operate i (replaced 7 2 2) ++ [.tick] ++ Logset.operate i (replaced 8 4 3) ++
    [.tick] ++ Logset.flush i 5 ++ Logset.flush i 2

theorem overlap_accepts : (fresh.logs.run (overlapEvents 0)).Accepts 2 3 := by
  have file : (fresh.logs.run (overlapEvents 0)).files 0 = [.epoch 1, .quiesce, .epoch 2, .wake, .op (replaced 7 2 2),
      .epoch 3, .op (replaced 8 4 3), .epoch 4, .quiesce] := by decide
  have beyond : ((fresh.logs.run (overlapEvents 0)).logs 0).Beyond 2 3 := ⟨⟨1, _, file, by decide⟩, Or.inl (by decide)⟩
  refine ⟨by decide, by decide, Fin.forall_fin_one.mpr beyond, Fin.forall_fin_one.mpr fun early => ?_⟩
  rw [file] at early
  exact absurd early (by decide)

/-- The checkpoint has the replace of epoch 2 and the log has it too; the log alone has that of epoch 3. -/
theorem overlap_run : ∃ (s : Kvd 1) (ckp : Checkpoint), Run (Survives BusyLog.bufferLength aKey) fresh s ∧
    s.committed = some ckp ∧ ckp.minEpoch = 2 ∧ ckp.maxEpoch = 3 ∧ (ckp.load aKey).isSome = true ∧
    s.logs = fresh.logs.run (overlapEvents 0) ∧ s.history aKey = [replaced 7 2 2, replaced 8 4 3] := by
  have ready := ((Run.nil : Run (Survives BusyLog.bufferLength aKey) fresh fresh).flush 0 2).step .tick
    (survives_tick aKey (by decide)) .tick
  obtain ⟨s, run, logs, live, free, history, checkpointer, committed⟩ :=
    ready.replace 0 7 2 2 rfl rfl rfl rfl (by decide)
  have logs : s.logs = fresh.logs.run (Logset.flush 0 2 ++ [.tick] ++ Logset.operate 0 (replaced 7 2 2)) := logs
  have row : s.table aKey = some (ValueBag.create1 [7] 2) := by
    have same : (s.live 0).table aKey = s.table aKey := rfl
    rw [← same, live]
    rfl
  have started := run.step .start (survives_other rfl) (.start checkpointer)
  have fenced : ∀ s' : Kvd 1, s'.leaf aKey = .free → s'.table aKey = some (ValueBag.create1 [7] 2) →
      s'.Fenced aKey (.visit fun _ => true) := by
    intro s' free row keys _ _ c _ _
    refine ⟨fun i e held => ?_, fun row' found => ?_⟩
    · rw [free] at held
      cases held
    · rw [row] at found
      cases found
      exact create1_whole (by decide) 2
  have visited := started.step (.visit fun _ => true) ⟨regular_of_other nofun nofun, fenced _ free row, nofun, nofun⟩
    (.visit _ _ rfl)
  have ready := visited.step .tick (survives_tick aKey (show s.logs.Fenced by rw [logs]; decide)) .tick
  have holder : ((s.logs.step .tick).logs 0).holder = none := by
    rw [logs]
    decide
  have epoch : (s.logs.step .tick).globalLogEpoch = 3 := by
    rw [logs]
    decide
  have room : ((s.logs.step .tick).logs 0).pos + (replaced 8 4 3).room ≤ BusyLog.bufferLength := by
    rw [logs]
    decide
  obtain ⟨s₂, run₂, logs₂, -, -, history₂, checkpointer₂, -⟩ :=
    ready.replace 0 8 4 3 free holder epoch (show (s.live 0).onego _ _ = _ by rw [live]; rfl) room
  have logs₂ : s₂.logs = (s.logs.step .tick).run (Logset.operate 0 (replaced 8 4 3)) := logs₂
  have prepared := run₂.step .prepare (survives_other rfl) (.prepare _ checkpointer₂ fun _ => rfl)
  have ticked := prepared.step .tick (survives_tick aKey (show s₂.logs.Fenced by rw [logs₂, logs]; decide)) .tick
  have flushed := (ticked.flush 0 5).flush 0 2
  have all : ((s₂.logs.step .tick).run (Logset.flush 0 5)).run (Logset.flush 0 2) = fresh.logs.run (overlapEvents 0) := by
    rw [logs₂, logs]
    rfl
  have epochs : s.logs.globalLogEpoch = 2 ∧ s₂.logs.globalLogEpoch = 3 := by
    rw [logs₂, logs]
    decide
  have accepts : (((s₂.logs.step .tick).run (Logset.flush 0 5)).run (Logset.flush 0 2)).Accepts s.logs.globalLogEpoch
      s₂.logs.globalLogEpoch := by
    rw [all, epochs.1, epochs.2]
    exact overlap_accepts
  have past : s₂.logs.globalLogEpoch < maxFlushedEpoch (((s₂.logs.step .tick).run (Logset.flush 0 5)).run (Logset.flush 0 2)) := by
    rw [all, epochs.2]
    decide
  have committed₂ := flushed.step .commit ⟨regular_of_other nofun nofun, nofun, fun _ c held => by cases held; exact accepts,
    nofun⟩ (.commit _ rfl (Or.inr past))
  refine ⟨_, _, committed₂, rfl, epochs.1, epochs.2, ?_, all, ?_⟩
  · simp [Checkpoint.load, visit, row]
    rfl
  · simp [history₂, history]
    rfl

/-- What the log does when a worker of epoch 1 publishes after the visit of a checkpoint of epoch 2. -/
def lateEvents (i : Fin n) : List (Event n LogRecord) :=
  Logset.flush i 2 ++ [.acquire i, .tick, .publish i (replaced 7 2 1), .record i] ++ Logset.flush i 2 ++ [.tick] ++
    Logset.flush i 2

theorem late_run : ∃ (s : Kvd 1) (ckp : Checkpoint), Run (fun _ _ => True) fresh s ∧ s.committed = some ckp ∧
    ckp.minEpoch = 2 ∧ ckp.maxEpoch = 2 ∧ ckp.load aKey = none ∧ s.logs = fresh.logs.run (lateEvents 0) ∧
    s.history aKey = [replaced 7 2 1] := by
  have moves : ∀ k, ∀ event ∈ (Logset.flush 0 k : List (Event 1 LogRecord)), (Move.ofEvent event).isSome = true := by
    intro k event member
    simp only [Logset.flush, List.mem_cons, List.mem_append, List.mem_replicate, List.not_mem_nil, or_false] at member
    rcases member with rfl | ⟨-, rfl⟩ | rfl <;> rfl
  have noted := (Run.nil : Run (fun _ _ => True) fresh fresh).events (Logset.flush 0 2) (moves 2) fun _ _ _ _ _ => trivial
  have locked := noted.step (.lock aKey) trivial (.lock aKey rfl)
  have dated := locked.step (.acquire 0 aKey) trivial (.acquire 0 aKey (by simp) rfl)
  have late := dated.step .tick trivial .tick
  have started := late.step .start trivial (.start rfl)
  have visited := started.step (.visit fun _ => true) trivial (.visit _ _ rfl)
  have published := visited.step (.publish 0 0 {} aKey (.replace aKey [7])) trivial
    (.publish 0 0 {} aKey _ 1 (replaced 7 2 0) _ (by simp; rfl) rfl rfl rfl trivial)
  have logged := published.step (.record 0) trivial (.record 0)
  have flushed := logged.events (Logset.flush 0 2) (moves 2) fun _ _ _ _ _ => trivial
  have prepared := flushed.step .prepare trivial (.prepare _ rfl fun _ => rfl)
  have ticked := prepared.step .tick trivial .tick
  have quiet := ticked.events (Logset.flush 0 2) (moves 2) fun _ _ _ _ _ => trivial
  have committed := quiet.step .commit trivial (.commit _ rfl (by decide))
  exact ⟨_, _, committed, rfl, rfl, rfl, rfl, rfl, rfl⟩

end Kvd

end Masstree
