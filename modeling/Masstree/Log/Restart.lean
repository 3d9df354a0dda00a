import Mathlib.Logic.Relation
import Masstree.Log.CutSound

/-!
# Repeated crash and recovery

A recovered server writes epochs from the one after the cut on. If every cleaned log ends before that
epoch, the log of the next life follows it, the next cut is no earlier, and what was replayed once is
replayed again.
-/

namespace Masstree

variable {α : Type} {n : Nat}

namespace LogFile

/-- The first epoch of a log at or past `c` is `c`. -/
def Meets (c : Nat) (f : LogFile α) : Prop := ∀ e, (epochs f).find? (c ≤ ·) = some e → e = c

/-- A log goes no further than `c`, or is cut off at its first epoch record at or past `c`. -/
inductive Through (c : Nat) (f : LogFile α) : Prop where
  | whole : (epochs f).find? (c ≤ ·) = none → through c f = f → Through c f
  | stop (e : Nat) (p : LogFile α) : (epochs f).find? (c ≤ ·) = some e → through c f = p ++ [.epoch e] →
      (∀ x ∈ epochs p, x < c) → p ++ [.epoch e] <+: f → Through c f

theorem through_cases (c : Nat) (f : LogFile α) : Through c f := by
  induction f with
  | nil => exact .whole rfl rfl
  | cons entry f ih =>
    have pass : through c (entry :: f) = entry :: through c f →
        (epochs (entry :: f)).find? (c ≤ ·) = (epochs f).find? (c ≤ ·) →
        (∀ x ∈ epochs [entry], x < c) → Through c (entry :: f) := fun unfolded same early => by
      rcases ih with ⟨last, whole⟩ | ⟨e, p, found, cut, before, front⟩
      · exact .whole (same.trans last) (by rw [unfolded, whole])
      · refine .stop e (entry :: p) (same.trans found) (by rw [unfolded, cut]; rfl) (fun x member => ?_) ?_
        · rw [← List.singleton_append, epochs_append] at member
          rcases List.mem_append.mp member with here | later
          · exact early x here
          · exact before x later
        · exact (List.prefix_cons_inj entry).mpr front
    cases entry with
    | epoch e =>
      by_cases late : c ≤ e
      · have none : ∀ x ∈ epochs ([] : LogFile α), x < c := fun x member => nomatch member
        exact .stop e [] (by simp [epochs, late]) (by simp [through, late]) none (by simp)
      · exact pass (by simp [through, late]) (by simp [epochs, late]) (by simpa [epochs] using late)
    | _ => exact pass rfl rfl (by simp [epochs])

theorem through_prefix (c : Nat) (f : LogFile α) : through c f <+: f := by
  rcases through_cases c f with ⟨-, whole⟩ | ⟨e, p, -, cut, -, front⟩
  · exact ⟨[], by rw [whole, List.append_nil]⟩
  · rwa [cut]

theorem lastEpoch_mem {e : Nat} (f : LogFile α) : lastEpoch e f = e ∨ lastEpoch e f ∈ epochs f := by
  induction f generalizing e with
  | nil => exact Or.inl rfl
  | cons entry f ih =>
    cases entry with
    | epoch e' =>
      rcases ih (e := e') with same | member
      · exact Or.inr (by simp [epochs, same])
      · exact Or.inr (by simp [epochs, member])
    | _ => exact ih

theorem Starts.lastEpoch {f : LogFile α} (starts : Starts f) (e e' : Nat) : lastEpoch e f = lastEpoch e' f := by
  obtain ⟨e, f, rfl⟩ := starts
  rfl

theorem Starts.wakes {f : LogFile α} (starts : Starts f) (e e' : Nat) : wakes e f = wakes e' f := by
  obtain ⟨e, f, rfl⟩ := starts
  rfl

theorem Starts.follows {f : LogFile α} (starts : Starts f) {e : Nat} (follows : Follows e f) : Follows 0 f := by
  obtain ⟨e, f, rfl⟩ := starts
  exact ⟨Nat.zero_le _, follows.2⟩

/-- The epochs kept are all before the one after the cut exactly if the log meets the cut. -/
theorem kept_epochs_iff {minEpoch c : Nat} {f kept : LogFile α} {replayed : List (Nat × α)}
    (cleaned : Replayed minEpoch c f kept replayed) : (∀ e ∈ epochs kept, e < c + 1) ↔ Meets c f := by
  obtain ⟨a, cut, starts, -⟩ := cleaned.kept
  rcases through_cases c f with ⟨last, whole⟩ | ⟨e, p, found, stop, before, -⟩
  · constructor
    · intro _ e found
      rw [last] at found
      cases found
    · intro _ e member
      have inside : e ∈ epochs f := by
        rw [← whole, cut, epochs_append]
        exact List.mem_append_right _ member
      have := List.find?_eq_none.mp last e inside
      simp at this
      omega
  · have final : e ∈ epochs kept := by
      obtain ⟨k, last, rfl⟩ : ∃ k last, kept = k ++ [last] := by
        obtain ⟨e', k, rfl⟩ := starts
        exact ⟨_, _, (List.dropLast_append_getLast (by simp)).symm⟩
      have same : last = .epoch e := by
        have := cut.symm.trans stop
        rw [← List.append_assoc] at this
        exact (List.append_inj' this rfl).2 |> fun h => by simpa using h
      rw [same, epochs_append]
      simp [epochs]
    have others : ∀ x ∈ epochs kept, x < c ∨ x = e := by
      intro x member
      have inside : x ∈ epochs (p ++ [(.epoch e : LogEntry α)]) := by
        rw [← stop, cut, epochs_append]
        exact List.mem_append_right _ member
      rw [epochs_append] at inside
      rcases List.mem_append.mp inside with early | here
      · exact Or.inl (before x early)
      · exact Or.inr (by simpa [epochs] using here)
    have late : c ≤ e := by simpa using List.find?_some found
    constructor
    · intro small x found'
      rw [found] at found'
      cases found'
      have := small e final
      omega
    · intro meets x member
      have := meets e found
      have := others x member
      omega

structure Kept (minEpoch c : Nat) (f kept : LogFile α) : Prop where
  follows : kept.Follows 0
  bounded : kept.lastEpoch 0 ≤ c
  reaches : c ≤ f.lastEpoch 0 → kept.lastEpoch 0 = c
  tail : f.lastEpoch 0 < c → kept <:+ f ∧ kept.lastEpoch 0 = f.lastEpoch 0
  starts : Starts kept
  wakes : ∀ w ∈ kept.wakes 0, w ∈ f.wakes 0
  ops : ∀ p ∈ f.ops 0, minEpoch ≤ p.1 → p.1 < c → p ∈ kept.ops 0

theorem Replayed.kept_of_meets {minEpoch c : Nat} {f kept : LogFile α} {replayed : List (Nat × α)}
    (cleaned : Replayed minEpoch c f kept replayed) (follows : f.Follows 0) (positive : 0 < c) (meets : Meets c f) :
    Kept minEpoch c f kept := by
  have small := (kept_epochs_iff cleaned).mpr meets
  obtain ⟨a, cut, starts, -⟩ := cleaned.kept
  obtain ⟨g, front⟩ := through_prefix c f
  rw [cut] at front
  have follows' := follows
  rw [← front, follows_append, follows_append] at follows'
  have last : kept.lastEpoch 0 = (a ++ kept).lastEpoch 0 := by
    rw [lastEpoch_append]
    exact starts.lastEpoch _ _
  refine ⟨starts.follows follows'.1.2, ?_, fun reach => ?_, fun short => ?_, starts, fun w member => ?_, fun p member late early => ?_⟩
  · rcases lastEpoch_mem (e := 0) kept with zero | member
    · omega
    · have := small _ member
      omega
  · rcases through_cases c f with ⟨none_, whole⟩ | ⟨e, p, found, stop, -, -⟩
    · rcases lastEpoch_mem (e := 0) f with zero | member
      · omega
      · have := List.find?_eq_none.mp none_ _ member
        simp at this
        omega
    · rw [last, ← cut, stop, lastEpoch_append, meets e found]
      rfl
  · rcases through_cases c f with ⟨-, whole⟩ | ⟨e, p, found, stop, -, front'⟩
    · rw [whole] at cut
      exact ⟨⟨a, cut.symm⟩, by rw [last, ← cut]⟩
    · obtain ⟨g', front'⟩ := front'
      have := meets e found
      have below : e ≤ f.lastEpoch 0 := by
        rw [← front'] at follows ⊢
        have := le_lastEpoch (follows_append.mp follows).2
        simp only [lastEpoch_append] at this ⊢
        exact this
      omega
  · rw [← front, wakes_append, wakes_append]
    exact List.mem_append_left _ (List.mem_append_right _ (by rwa [starts.wakes _ 0]))
  · exact cleaned.ops_kept follows member late early

end LogFile

/-! ### One life of the server -/

namespace LogState

/-- A log that was `f` when epoch `start` was the current one. -/
structure Extends (f : LogFile α) (start : Nat) (l : LogState α) : Prop where
  file : f <+: l.file
  stream : l.stream = f ∧ l.logEpoch = 0 ∨ ∃ e g, l.stream = f ++ .epoch e :: g ∧ start ≤ e
  holder : ∀ e x, l.holder = some (e, x) → start ≤ e

theorem extends_change {f : LogFile α} {start ge : Nat} {l l' : LogState α} (good : l.Good ge)
    (late : start ≤ ge) (ext : Extends f start l) (change : Change ge l l') : Extends f start l' := by
  cases change with
  | acquire free =>
    refine ⟨ext.file, ext.stream, ?_⟩
    rintro e x ⟨⟩
    exact late
  | publish e x held =>
    refine ⟨ext.file, ext.stream, ?_⟩
    rintro e' x' ⟨⟩
    exact ext.holder e none held
  | record we e x held =>
    obtain ⟨epoch, wake, appends, -, free, kind, -⟩ := record_appends we e x l
    refine ⟨by rw [appends.file]; exact ext.file, Or.inr ?_, by simp [free]⟩
    rw [appends.stream]
    rcases ext.stream with ⟨same, zero⟩ | ⟨e', g, same, bound⟩
    · have fresh : epoch = [.epoch e] := kind.resolve_right fun ⟨_, same⟩ => by
        have := (good.holder e _ held).2.2
        omega
      exact ⟨e, wake ++ [.op x], by rw [same, fresh]; simp, ext.holder e _ held⟩
    · exact ⟨e', g ++ (epoch ++ wake ++ [.op x]), by rw [same]; simp, bound⟩
  | poll we free landed =>
    obtain ⟨polled, file, holder, -, -⟩ := poll_polled ge we l
    have empty := good.landed landed
    refine ⟨by rw [file]; exact ext.file, ?_, by simp [holder, free]⟩
    cases polled with
    | idle none_ buf flight _ _ logEpoch =>
      have stream : (l.poll ge we).stream = l.stream := by simp [LogState.stream, file, flight, buf, none_]
      rw [stream, logEpoch]
      exact ext.stream
    | notice none_ buf flight _ _ logEpoch =>
      have stream : (l.poll ge we).stream = l.stream ++ [.epoch ge, .quiesce] := by
        simp [LogState.stream, file, flight, buf, none_, empty]
      rw [stream]
      rcases ext.stream with ⟨same, -⟩ | ⟨e, g, same, bound⟩
      · exact Or.inr ⟨ge, [.quiesce], by rw [same], late⟩
      · exact Or.inr ⟨e, g ++ [.epoch ge, .quiesce], by rw [same]; simp, bound⟩
    | swap _ buf flight _ _ logEpoch =>
      have stream : (l.poll ge we).stream = l.stream := by simp [LogState.stream, file, flight, buf, empty]
      rw [stream, logEpoch]
      exact ext.stream
  | write entry rest flight =>
    have stream : (LogState.stream { l with file := l.file ++ [entry], flight := rest }) = l.stream := by
      simp [LogState.stream, flight]
    exact ⟨ext.file.trans (List.prefix_append _ _), by rw [stream]; exact ext.stream, ext.holder⟩
  | fsync => exact ⟨ext.file, ext.stream, ext.holder⟩

/-- What is on disk at a crash: the log as it was, and perhaps records from an epoch record on. -/
theorem Extends.on_disk {f : LogFile α} {start : Nat} {l : LogState α} (ext : Extends f start l) :
    l.file = f ∨ ∃ e g, l.file = f ++ .epoch e :: g ∧ start ≤ e := by
  obtain ⟨a, same⟩ := ext.file
  cases a with
  | nil => exact Or.inl (by simpa using same.symm)
  | cons entry a =>
    rcases ext.stream with ⟨whole, -⟩ | ⟨e, g, whole, bound⟩
    · rw [LogState.stream, ← same, List.append_assoc, List.append_assoc] at whole
      have := List.append_right_eq_self.mp whole
      simp at this
    · rw [LogState.stream, ← same, List.append_assoc, List.append_assoc] at whole
      have tail := List.append_cancel_left whole
      have : entry = .epoch e := by simpa using (List.cons.inj tail).1
      exact Or.inr ⟨e, a, by rw [← same, this], bound⟩

end LogState

namespace Logset

theorem step_extends {s : Logset n α} {files : Fin n → LogFile α} {start : Nat} (good : s.Good)
    (late : start ≤ s.globalLogEpoch) (ext : ∀ i, (s.logs i).Extends (files i) start) (event : Event n α) :
    start ≤ (s.step event).globalLogEpoch ∧ ∀ i, ((s.step event).logs i).Extends (files i) start := by
  rcases step_cases s event with same | ⟨i, l, change, epoch, logs⟩ | ⟨-, epoch, logs⟩
  · rw [same]
    exact ⟨late, ext⟩
  · rw [epoch, logs]
    refine ⟨late, fun j => ?_⟩
    by_cases same : j = i
    · subst same
      rw [Function.update_self]
      exact LogState.extends_change (good.logs j) late (ext j) change
    · rw [Function.update_of_ne same]
      exact ext j
  · rw [epoch, logs]
    exact ⟨by omega, ext⟩

theorem run_extends {s : Logset n α} {files : Fin n → LogFile α} {start : Nat} (good : s.Good)
    (late : start ≤ s.globalLogEpoch) (ext : ∀ i, (s.logs i).Extends (files i) start)
    (events : List (Event n α)) :
    start ≤ (s.run events).globalLogEpoch ∧ ∀ i, ((s.run events).logs i).Extends (files i) start := by
  induction events generalizing s with
  | nil => exact ⟨late, ext⟩
  | cons event rest ih =>
    obtain ⟨late, ext⟩ := step_extends good late ext event
    exact ih (step_good good event) late ext

theorem started_extends (ge : Nat) (files : Fin n → LogFile α) (i : Fin n) :
    ((started ge files).logs i).Extends (files i) ge :=
  ⟨List.prefix_rfl, Or.inl ⟨by simp [started, LogState.stream], rfl⟩, by simp [started]⟩

end Logset

/-! ### Many lives -/

/-- What survives a crash: the logs, the epochs of the committed checkpoint (0 for none), and the
operations the checkpoint accounts for. -/
structure Disk (n : Nat) (α : Type) where
  files : Fin n → LogFile α
  ckpMinEpoch : Nat := 0
  ckpMaxEpoch : Nat := 0
  saved : Fin n → List (Nat × α) := fun _ => []

namespace Disk

def recover (d : Disk n α) (garbage : Fin n → Bool) : Option (Recovered n α) :=
  Masstree.recover garbage d.ckpMinEpoch d.ckpMaxEpoch d.files

/-- The flag of a log that is empty, which recovery reads though nothing set it, is false. -/
def Clear (d : Disk n α) (garbage : Fin n → Bool) : Prop := ∀ i, d.files i = [] → garbage i = false

structure Sound (d : Disk n α) : Prop where
  files : ∀ i, (d.files i).Follows 0
  ckp : d.ckpMinEpoch = 0 ↔ d.ckpMaxEpoch = 0

/-- The logs are sound, and the checkpoint has what happened before its first epoch. -/
structure WellFormed (d : Disk n α) : Prop extends d.Sound where
  saved : ∀ i, ∀ p ∈ (d.files i).ops 0, p.1 < d.ckpMinEpoch → p ∈ d.saved i

/-- Every log with an epoch record at or past the least of the bounds on the cut has one at that bound. -/
def Gapless (d : Disk n α) : Prop :=
  ∀ c, IsLeast {c | CutBound d.ckpMaxEpoch d.files c} c → ∀ i, (d.files i).Meets c

/-- An operation is in the recovered state: from the checkpoint, or replayed. -/
def Present (d : Disk n α) (r : Recovered n α) (i : Fin n) (p : Nat × α) : Prop :=
  p ∈ d.saved i ∨ p ∈ r.replayed i

/-- The checkpoint found after a life: the one from before, or one this life took of its state. -/
inductive Checkpointed (d d' : Disk n α) (r : Recovered n α) : Prop where
  | old : d'.ckpMinEpoch = d.ckpMinEpoch → d'.ckpMaxEpoch = d.ckpMaxEpoch → d'.saved = d.saved →
      Checkpointed d d' r
  | new : r.globalLogEpoch ≤ d'.ckpMinEpoch → d'.ckpMinEpoch ≤ d'.ckpMaxEpoch →
      (∀ i p, d.Present r i p → p ∈ d'.saved i) → Checkpointed d d' r

/-- A recovery, a run of the server and a crash. -/
inductive Life (d d' : Disk n α) : Prop where
  | life (garbage : Fin n → Bool) (r : Recovered n α) (events : List (Event n α)) : d.Clear garbage →
      d.recover garbage = some r →
      d'.files = ((Logset.started r.globalLogEpoch r.files).run events).files →
      Checkpointed d d' r → Life d d'

theorem least_cut {d : Disk n α} (sound : d.Sound) {garbage : Fin n → Bool} (clear : d.Clear garbage) :
    IsLeast {c | CutBound d.ckpMaxEpoch d.files c} (cut garbage d.ckpMaxEpoch d.files) :=
  cut_isLeast sound.files clear

theorem cut_pos {d : Disk n α} (sound : d.Sound) {c : Nat} (bound : CutBound d.ckpMaxEpoch d.files c)
    {i : Fin n} (some_ : d.files i ≠ []) : 0 < c := by
  rcases bound with ⟨-, lasts, -⟩ | ⟨j, active, -, same⟩ | ⟨-, j, -, wake, -⟩
  · exact Nat.lt_of_lt_of_le (LogFile.lastEpoch_pos (sound.files i) some_) (lasts i)
  · exact same ▸ LogFile.lastEpoch_pos (sound.files j) active
  · exact (LogFile.wakes_le (sound.files j) wake).2.2

/-- A log through one recovery with cut `c` and the life after it. -/
structure Carried (minEpoch c : Nat) (f f' kept : LogFile α) : Prop where
  cleaned : f = [] ∧ kept = [] ∨ f ≠ [] ∧ LogFile.Kept minEpoch c f kept
  grown : f' = kept ∨ ∃ e g, f' = kept ++ .epoch e :: g ∧ c < e
  follows : f'.Follows 0

structure Lived (d d' : Disk n α) (c : Nat) : Prop where
  least : IsLeast {c | CutBound d.ckpMaxEpoch d.files c} c
  start : d.ckpMinEpoch ≤ c
  carried : ∀ i, ∃ kept, Carried d.ckpMinEpoch c (d.files i) (d'.files i) kept
  ckp : d'.ckpMinEpoch = d.ckpMinEpoch ∧ d'.ckpMaxEpoch = d.ckpMaxEpoch ∧ d'.saved = d.saved ∨
    c < d'.ckpMinEpoch ∧ d'.ckpMinEpoch ≤ d'.ckpMaxEpoch ∧ ∀ i p, p ∈ d.saved i ∨ p ∈ (d.files i).ops 0 ∧
      d.ckpMinEpoch ≤ p.1 ∧ p.1 < c → p ∈ d'.saved i

/-- Recovery of a gapless disk keeps of each log what the next life needs. -/
theorem recover_kept {d : Disk n α} {garbage : Fin n → Bool} {r : Recovered n α} (sound : d.Sound)
    (clear : d.Clear garbage) (recovered : d.recover garbage = some r) (gapless : d.Gapless) (i : Fin n) :
    d.files i = [] ∧ r.files i = [] ∨
      d.files i ≠ [] ∧ LogFile.Kept d.ckpMinEpoch (cut garbage d.ckpMaxEpoch d.files) (d.files i) (r.files i) := by
  have least := least_cut sound clear
  obtain ⟨-, -, cleaned⟩ := recover_some sound.files recovered
  rcases cleaned i with ⟨empty, none_, -⟩ | ⟨some_, facts⟩
  · exact Or.inl ⟨empty, none_⟩
  · exact Or.inr ⟨some_, facts.kept_of_meets (sound.files i) (cut_pos sound least.1 some_) (gapless _ least i)⟩

theorem restarted_good {d : Disk n α} {garbage : Fin n → Bool} {r : Recovered n α} (sound : d.Sound)
    (clear : d.Clear garbage) (recovered : d.recover garbage = some r) (gapless : d.Gapless) :
    (Logset.started r.globalLogEpoch r.files).Good := by
  obtain ⟨-, epoch, -⟩ := recover_some sound.files recovered
  have kept := recover_kept sound clear recovered gapless
  refine Logset.started_good (by omega) (fun i => ?_) fun i => ?_
  · rcases kept i with ⟨-, none_⟩ | ⟨-, facts⟩
    · simp [none_, LogFile.Follows]
    · exact facts.follows
  · rcases kept i with ⟨-, none_⟩ | ⟨-, facts⟩
    · simp [none_]
    · have := facts.bounded
      omega

theorem life_lived {d d' : Disk n α} (sound : d.Sound) (gapless : d.Gapless) (life : Life d d') :
    ∃ c, Lived d d' c := by
  obtain ⟨garbage, r, events, clear, recovered, files, ckp⟩ := life
  obtain ⟨checked, epoch, cleaned⟩ := recover_some sound.files recovered
  have start : d.ckpMinEpoch ≤ cut garbage d.ckpMaxEpoch d.files := by
    simp only [ckpChecked, decide_eq_true_eq] at checked
    omega
  have good := restarted_good sound clear recovered gapless
  obtain ⟨-, ext⟩ := Logset.run_extends good (Nat.le_refl _) (Logset.started_extends _ _) events
  refine ⟨_, least_cut sound clear, start, fun i => ⟨r.files i, recover_kept sound clear recovered gapless i, ?_, ?_⟩, ?_⟩
  · rw [files]
    rcases (ext i).on_disk with same | ⟨e, g, same, bound⟩
    · exact Or.inl same
    · have bound : r.globalLogEpoch ≤ e := bound
      exact Or.inr ⟨e, g, same, by omega⟩
  · rw [files]
    have := ((Logset.run_good good events).logs i).follows
    rw [LogState.stream, List.append_assoc, LogFile.follows_append] at this
    exact this.1
  · rcases ckp with ⟨min, max, saved⟩ | ⟨late, range, saved⟩
    · exact Or.inl ⟨min, max, saved⟩
    · refine Or.inr ⟨by omega, range, fun i p held => saved i p ?_⟩
      rw [Present, (cleaned i).ops, List.mem_filter]
      rcases held with old | ⟨member, first, early⟩
      · exact Or.inl old
      · exact Or.inr ⟨member, by simpa using ⟨first, early⟩⟩

theorem Lived.sound {d d' : Disk n α} {c : Nat} (lived : Lived d d' c) (sound : d.Sound) : d'.Sound := by
  refine ⟨fun i => ?_, ?_⟩
  · obtain ⟨kept, carried⟩ := lived.carried i
    exact carried.follows
  · rcases lived.ckp with ⟨same, same', -⟩ | ⟨late, range, -⟩
    · rw [same, same']
      exact sound.ckp
    · omega

theorem Carried.lastEpoch {minEpoch c : Nat} {f f' kept : LogFile α} (carried : Carried minEpoch c f f' kept) :
    kept.lastEpoch 0 ≤ f'.lastEpoch 0 ∧ (f' ≠ kept → c < f'.lastEpoch 0) := by
  rcases carried.grown with same | ⟨e, g, same, late⟩
  · rw [same]
    exact ⟨Nat.le_refl _, fun other => absurd rfl other⟩
  · have follows := carried.follows
    rw [same, LogFile.follows_append] at follows
    have := LogFile.le_lastEpoch follows.2
    have := LogFile.le_lastEpoch follows.2.2.2
    rw [same, LogFile.lastEpoch_append]
    simp only [LogFile.lastEpoch_epoch] at *
    exact ⟨by omega, fun _ => by omega⟩

/-- A log that goes on no further is kept whole at its end. -/
theorem Carried.short {minEpoch c : Nat} {f f' kept : LogFile α} (carried : Carried minEpoch c f f' kept)
    (short : f'.lastEpoch 0 < c) : f' = kept ∧ kept.lastEpoch 0 = f.lastEpoch 0 ∧
      (kept ≠ [] → f ≠ [] ∧ (kept.Quiescent ↔ f.Quiescent)) := by
  have last := carried.lastEpoch
  have same : f' = kept := by
    by_contra other
    have := last.2 other
    omega
  refine ⟨same, ?_⟩
  rcases carried.cleaned with ⟨empty, none_⟩ | ⟨some_, facts⟩
  · simp [empty, none_]
  · have below : f.lastEpoch 0 < c := by
      by_contra reach
      have := facts.reaches (by omega)
      omega
    obtain ⟨⟨a, whole⟩, lastSame⟩ := facts.tail below
    refine ⟨lastSame, fun nonempty => ⟨some_, ?_⟩⟩
    rw [← whole, LogFile.Quiescent, LogFile.Quiescent, List.getLast?_append_of_ne_nil _ nonempty]

/-- The next cut is no earlier. -/
theorem Lived.cut_le {d d' : Disk n α} {c c' : Nat} (lived : Lived d d' c) (sound : d.Sound)
    (bound : CutBound d'.ckpMaxEpoch d'.files c') : c ≤ c' := by
  by_contra earlier
  have earlier : c' < c := Nat.lt_of_not_le earlier
  rcases bound with ⟨start, lasts, -⟩ | ⟨i, active, loud, same⟩ | ⟨i, j, quiet, wake, bound⟩
  · -- Some log, or the checkpoint, reached the first cut.
    have reached : ∀ i, (d.files i).lastEpoch 0 < c := by
      intro i
      obtain ⟨kept, carried⟩ := lived.carried i
      rcases carried.cleaned with ⟨empty, -⟩ | ⟨-, facts⟩
      · simp [empty]
        omega
      · by_contra reach
        have := facts.reaches (by omega)
        have := carried.lastEpoch.1
        have := lasts i
        omega
    rcases lived.least.1 with ⟨-, -, top | ⟨i, same⟩⟩ | ⟨i, -, -, same⟩ | ⟨-, j, -, wake, -⟩
    · rcases lived.ckp with ⟨-, same, -⟩ | ⟨late, range, -⟩
      · rw [same] at start
        omega
      · have : d'.ckpMaxEpoch ≠ 0 := by omega
        simp only [if_pos this] at start
        omega
    · have := reached i
      omega
    · have := reached i
      omega
    · have := (LogFile.wakes_le (sound.files j) wake).2.1
      have := reached j
      omega
  · obtain ⟨kept, carried⟩ := lived.carried i
    obtain ⟨whole, last, facts⟩ := carried.short (by omega)
    rw [whole] at active loud same
    obtain ⟨some_, quiescent⟩ := facts active
    have := lived.least.2 (CutBound.active i some_ (fun quiet => loud (quiescent.mpr quiet)) rfl)
    omega
  · obtain ⟨kept, carried⟩ := lived.carried i
    obtain ⟨whole, last, facts⟩ := carried.short (by omega)
    rw [whole] at quiet bound
    obtain ⟨some_, quiescent⟩ := facts quiet.ne_nil
    obtain ⟨kept', carried'⟩ := lived.carried j
    have old : c' ∈ (d.files j).wakes 0 := by
      have here : c' ∈ kept'.wakes 0 := by
        rcases carried'.grown with same | ⟨e, g, same, late⟩
        · rwa [same] at wake
        · have follows := carried'.follows
          rw [same, LogFile.follows_append] at follows
          rw [same, LogFile.wakes_append] at wake
          rcases List.mem_append.mp wake with here | new
          · exact here
          · have := (LogFile.wakes_le follows.2.2.2 new).1
            omega
      rcases carried'.cleaned with ⟨-, none_⟩ | ⟨-, facts⟩
      · simp [none_, LogFile.wakes] at here
      · exact facts.wakes _ here
    have := lived.least.2 (CutBound.missed i j (quiescent.mp quiet) old (by omega))
    omega

/-- An operation that recovery accounts for: the checkpoint has it, or it is on disk before the cut. -/
def Durable (d : Disk n α) (i : Fin n) (p : Nat × α) : Prop :=
  p ∈ d.saved i ∨ p ∈ (d.files i).ops 0 ∧ d.ckpMinEpoch ≤ p.1 ∧
    ∀ c, IsLeast {c | CutBound d.ckpMaxEpoch d.files c} c → p.1 < c

theorem Lived.durable {d d' : Disk n α} {c : Nat} (lived : Lived d d' c) (sound : d.Sound) {i : Fin n}
    {p : Nat × α} (durable : d.Durable i p) : d'.Durable i p := by
  have held : p ∈ d.saved i ∨ p ∈ (d.files i).ops 0 ∧ d.ckpMinEpoch ≤ p.1 ∧ p.1 < c :=
    durable.imp id fun ⟨member, late, early⟩ => ⟨member, late, early c lived.least⟩
  rcases lived.ckp with ⟨min, -, saved⟩ | ⟨-, -, saved⟩
  · rw [Durable, saved, min]
    refine held.imp id fun ⟨member, late, early⟩ =>
      ⟨?_, late, fun c' least => Nat.lt_of_lt_of_le early (lived.cut_le sound least.1)⟩
    obtain ⟨kept, carried⟩ := lived.carried i
    have here : p ∈ kept.ops 0 := by
      rcases carried.cleaned with ⟨empty, -⟩ | ⟨-, facts⟩
      · simp [empty, LogFile.ops] at member
      · exact facts.ops p member late early
    rcases carried.grown with same | ⟨e, g, same, -⟩
    · rwa [same]
    · rw [same, LogFile.ops_append]
      exact List.mem_append_left _ here
  · exact Or.inl (saved i p held)

theorem Durable.present {d : Disk n α} {garbage : Fin n → Bool} {r : Recovered n α} {i : Fin n} {p : Nat × α}
    (durable : d.Durable i p) (sound : d.Sound) (clear : d.Clear garbage) (recovered : d.recover garbage = some r) :
    d.Present r i p := by
  obtain ⟨-, -, cleaned⟩ := recover_some sound.files recovered
  refine durable.imp id fun ⟨member, late, early⟩ => ?_
  rw [(cleaned i).ops, List.mem_filter]
  exact ⟨member, by simpa using ⟨late, early _ (least_cut sound clear)⟩⟩

abbrev Lives : Disk n α → Disk n α → Prop := Relation.ReflTransGen fun d d' => d.Gapless ∧ Life d d'

theorem lives_durable {d d' : Disk n α} (sound : d.Sound) (lives : Lives d d') :
    d'.Sound ∧ ∀ i p, d.Durable i p → d'.Durable i p := by
  induction lives with
  | refl => exact ⟨sound, fun _ _ => id⟩
  | tail _ step ih =>
    obtain ⟨sound', kept⟩ := ih
    obtain ⟨c, lived⟩ := life_lived sound' step.1 step.2
    exact ⟨lived.sound sound', fun i p durable => lived.durable sound' (kept i p durable)⟩

/-- The epoch records kept precede the first epoch of the next life exactly if the disk is gapless. -/
theorem kept_precede_iff {d : Disk n α} {garbage : Fin n → Bool} {r : Recovered n α} (sound : d.Sound)
    (clear : d.Clear garbage) (recovered : d.recover garbage = some r) :
    (∀ i, ∀ e ∈ (r.files i).epochs, e < r.globalLogEpoch) ↔ d.Gapless := by
  obtain ⟨-, epoch, cleaned⟩ := recover_some sound.files recovered
  have least := least_cut sound clear
  constructor
  · intro small c other i
    rw [other.unique least]
    rcases cleaned i with ⟨empty, -⟩ | ⟨-, facts⟩
    · simp [empty, LogFile.Meets, LogFile.epochs]
    · exact (LogFile.kept_epochs_iff facts).mp fun e member => epoch ▸ small i e member
  · intro gapless i e member
    rw [epoch]
    rcases cleaned i with ⟨-, none_, -⟩ | ⟨-, facts⟩
    · simp [none_, LogFile.epochs] at member
    · exact (LogFile.kept_epochs_iff facts).mpr (gapless _ least i) e member

/-- What the next life adds to a log has no epoch before its first one. -/
theorem written_late {d : Disk n α} {garbage : Fin n → Bool} {r : Recovered n α} (sound : d.Sound)
    (clear : d.Clear garbage) (recovered : d.recover garbage = some r) (gapless : d.Gapless)
    (events : List (Event n α)) (i : Fin n) :
    ∃ g, ((Logset.started r.globalLogEpoch r.files).run events).files i = r.files i ++ g ∧
      ∀ e ∈ LogFile.epochs g, r.globalLogEpoch ≤ e := by
  have good := restarted_good sound clear recovered gapless
  obtain ⟨-, ext⟩ := Logset.run_extends good (Nat.le_refl _) (Logset.started_extends _ _) events
  have follows := ((Logset.run_good good events).logs i).follows
  rw [LogState.stream, List.append_assoc, LogFile.follows_append] at follows
  rcases (ext i).on_disk with same | ⟨e, g, same, late⟩
  · exact ⟨[], by simpa [Logset.files] using same, by simp [LogFile.epochs]⟩
  · refine ⟨.epoch e :: g, same, fun e' member => ?_⟩
    have late : r.globalLogEpoch ≤ e := late
    rw [same, LogFile.follows_append] at follows
    rcases List.mem_cons.mp member with rfl | later
    · exact late
    · have := (LogFile.epochs_le follows.1.2.2.2 later).1
      omega

/-- What a recovery leaves precedes all that follows exactly on a gapless disk, and as long as every disk
is gapless, what was on disk before the cut of one recovery is there after each later one. -/
theorem recovery_durable {d : Disk n α} {garbage : Fin n → Bool} {r : Recovered n α} (wellFormed : d.WellFormed)
    (clear : d.Clear garbage) (recovered : d.recover garbage = some r) :
    ((∀ i, ∀ e ∈ (r.files i).epochs, e < r.globalLogEpoch) ↔ d.Gapless) ∧
    (d.Gapless → ∀ events i, ∃ g,
      ((Logset.started r.globalLogEpoch r.files).run events).files i = r.files i ++ g ∧
        ∀ j, ∀ e ∈ (r.files j).epochs, ∀ e' ∈ LogFile.epochs g, e < e') ∧
    ∀ i, ∀ p ∈ (d.files i).ops 0, p.1 + 1 < r.globalLogEpoch → ∀ d', Lives d d' → ∀ garbage' r',
      d'.Clear garbage' → d'.recover garbage' = some r' → d'.Present r' i p := by
  have precede := kept_precede_iff wellFormed.toSound clear recovered
  refine ⟨precede, fun gapless events i => ?_, fun i p member early d' lives garbage' r' clear' recovered' => ?_⟩
  · obtain ⟨g, grown, late⟩ := written_late wellFormed.toSound clear recovered gapless events i
    refine ⟨g, grown, fun j e kept e' written => ?_⟩
    exact Nat.lt_of_lt_of_le (precede.mpr gapless j e kept) (late e' written)
  · obtain ⟨-, epoch, -⟩ := recover_some wellFormed.files recovered
    have durable : d.Durable i p := by
      by_cases old : p.1 < d.ckpMinEpoch
      · exact Or.inl (wellFormed.saved i p member old)
      · refine Or.inr ⟨member, by omega, fun c least => ?_⟩
        rw [least.unique (least_cut wellFormed.toSound clear)]
        omega
    obtain ⟨sound, kept⟩ := lives_durable wellFormed.toSound lives
    exact (kept i p durable).present sound clear' recovered'

instance (c : Nat) (f : LogFile α) : Decidable (f.Meets c) :=
  decidable_of_iff ((LogFile.epochs f).find? (c ≤ ·) = none ∨ (LogFile.epochs f).find? (c ≤ ·) = some c) <| by
    unfold LogFile.Meets
    cases (LogFile.epochs f).find? (c ≤ ·) <;> simp

theorem gapless_iff {d : Disk n α} {garbage : Fin n → Bool} (sound : d.Sound) (clear : d.Clear garbage) :
    d.Gapless ↔ ∀ i, (d.files i).Meets (cut garbage d.ckpMaxEpoch d.files) := by
  have least := least_cut sound clear
  exact ⟨fun gapless => gapless _ least, fun meets c other => other.unique least ▸ meets⟩

def pair (f g : LogFile Nat) (i : Fin 2) : LogFile Nat := if i.val = 0 then f else g

theorem recover_pair {d : Disk 2 Nat} {garbage : Fin 2 → Bool} {ge : Nat} {f g : LogFile Nat}
    (ran : (d.recover garbage).map (fun r => (r.globalLogEpoch, r.files 0, r.files 1)) = some (ge, f, g)) :
    ∃ r, d.recover garbage = some r ∧ r.globalLogEpoch = ge ∧ r.files = pair f g := by
  obtain ⟨r, ran, same⟩ := Option.map_eq_some_iff.mp ran
  simp only [Prod.mk.injEq] at same
  obtain ⟨epoch, zero, one⟩ := same
  refine ⟨r, ran, epoch, ?_⟩
  funext i
  rcases Fin.exists_fin_two.mp ⟨i, rfl⟩ with rfl | rfl
  · exact zero
  · exact one

theorem clear_false (d : Disk 2 Nat) : d.Clear fun _ => false := fun _ _ => rfl

/-- Two operations of epoch 1 are on disk; the next life runs one in epoch 3. -/
def onDisk : Disk 2 Nat where
  files := pair [.epoch 1, .op 7, .epoch 2] [.epoch 1, .op 8, .epoch 2, .op 9]

def onDiskAgain : Disk 2 Nat where
  files := ((Logset.started 3 (pair [.epoch 1, .op 7, .epoch 2] [.epoch 1, .op 8, .epoch 2])).run
    (Logset.operate (Fin.last 1) 10 ++ Logset.flush (Fin.last 1) 2)).files

theorem recovery_durable_onDisk : ∃ r, onDiskAgain.recover (fun _ => false) = some r ∧
    onDiskAgain.Present r 1 (1, 8) := by
  have wellFormed : onDisk.WellFormed :=
    ⟨⟨by simp [onDisk, pair, Fin.forall_fin_two, LogFile.Follows], by decide⟩, by decide⟩
  obtain ⟨r, ran, epoch, files⟩ := recover_pair (by decide : (onDisk.recover fun _ => false).map
    (fun r => (r.globalLogEpoch, r.files 0, r.files 1)) =
      some (3, [.epoch 1, .op 7, .epoch 2], [.epoch 1, .op 8, .epoch 2]))
  have gapless : onDisk.Gapless := (gapless_iff wellFormed.toSound (clear_false _)).mpr (by decide)
  have life : Life onDisk onDiskAgain :=
    .life _ r (Logset.operate 1 10 ++ Logset.flush 1 2) (clear_false _) ran (by rw [epoch, files]; rfl) (.old rfl rfl rfl)
  obtain ⟨r', ran'⟩ := Option.isSome_iff_exists.mp (by decide : (onDiskAgain.recover fun _ => false).isSome = true)
  exact ⟨r', ran', (recovery_durable wellFormed (clear_false _) ran).2.2 1 (1, 8) (by decide) (by omega) onDiskAgain
    (.single ⟨gapless, life⟩) _ r' (clear_false _) ran'⟩

/-- Log 0 goes from epoch 1 on to 7, and log 1 stops at 2. The record of epoch 7 is kept, and the server
restarts at epoch 3. -/
def gap : Disk 2 Nat where
  files := pair [.epoch 1, .op 0, .epoch 7, .op 1] [.epoch 2, .op 2]

def gapAgain : Disk 2 Nat where
  files := ((Logset.started 3 (pair [.epoch 1, .op 0, .epoch 7] [.epoch 2])).run
    (Logset.operate ⟨0, Nat.two_pos⟩ 9 ++ [.tick, .tick] ++ Logset.operate ⟨0, Nat.two_pos⟩ 3 ++
      Logset.flush ⟨0, Nat.two_pos⟩ 4 ++ Logset.operate (Fin.last 1) 4 ++ Logset.flush (Fin.last 1) 2)).files

/-- The next recovery stops replaying log 0 at the record of epoch 7. -/
theorem gap_loses : gap.WellFormed ∧ ∃ r, gap.recover (fun _ => false) = some r ∧ Life gap gapAgain ∧
    ¬ (∀ i, ∀ e ∈ (r.files i).epochs, e < r.globalLogEpoch) ∧
    ∃ r', gapAgain.recover (fun _ => false) = some r' ∧ (3, 9) ∈ (gapAgain.files 0).ops 0 ∧
      3 + 1 < r'.globalLogEpoch ∧ ¬ gapAgain.Present r' 0 (3, 9) := by
  obtain ⟨r, ran, epoch, files⟩ := recover_pair (by decide : (gap.recover fun _ => false).map
    (fun r => (r.globalLogEpoch, r.files 0, r.files 1)) = some (3, [.epoch 1, .op 0, .epoch 7], [.epoch 2]))
  obtain ⟨r', ran', again⟩ := Option.map_eq_some_iff.mp (by decide : (gapAgain.recover fun _ => false).map
    (fun r => (r.globalLogEpoch, r.replayed 0)) = some (6, [(1, 0)]))
  obtain ⟨epoch', replayed⟩ := Prod.mk.inj again
  refine ⟨⟨⟨by simp [gap, pair, Fin.forall_fin_two, LogFile.Follows], by decide⟩, by decide⟩, r, ran, ?_, ?_,
    r', ran', by decide, by omega, ?_⟩
  · exact .life _ r _ (clear_false _) ran (by rw [epoch, files]; rfl) (.old rfl rfl rfl)
  · rw [epoch, files]
    decide
  · rw [Present, replayed]
    decide

end Disk

end Masstree
