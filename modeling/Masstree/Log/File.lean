import Mathlib.Data.List.Basic
import Mathlib.Tactic.Common

/-!
# Log files

A log file as the list of its complete records. `LogFile.info` and `minPostQuiescentWakeEpoch` are what
recovery reads from it, `replayandclean1` what it replays and keeps. Epochs are natural numbers, and 0
stands for none, as in the source.
-/

namespace Masstree

variable {α : Type}

/-- A log record. The four commands that change a row are one: `op`. -/
inductive LogEntry (α : Type) where
  | epoch (e : Nat)
  | op (x : α)
  | wake
  | quiesce
  deriving DecidableEq, Repr

abbrev LogFile (α : Type) := List (LogEntry α)

structure LogInfo where
  firstEpoch : Nat := 0
  lastEpoch : Nat := 0
  wakeEpoch : Nat := 0
  minPostQuiescentWakeEpoch : Nat := 0
  quiescent : Bool := true
  deriving DecidableEq, Repr

namespace LogFile

/-- One record of the loop of `logreplay::info`. -/
def infoStep (x : LogInfo) : LogEntry α → LogInfo
  | .epoch e =>
    { x with quiescent := false, lastEpoch := e
             firstEpoch := if x.firstEpoch = 0 then e else x.firstEpoch
             wakeEpoch := if x.wakeEpoch ≠ 0 ∧ e < x.wakeEpoch then 0 else x.wakeEpoch }
  | .wake => { x with quiescent := false, wakeEpoch := x.lastEpoch }
  | .quiesce => { x with quiescent := true }
  | .op _ => { x with quiescent := false }

def info (f : LogFile α) : LogInfo := f.foldl infoStep {}

/-- The loop of `min_post_quiescent_wake_epoch`, at epoch `e`. -/
def minPostQuiescentWakeEpoch (quiescentEpoch : Nat) : Nat → LogFile α → Nat
  | _, [] => 0
  | _, .epoch e :: f => minPostQuiescentWakeEpoch quiescentEpoch e f
  | e, .wake :: f =>
    if e ≠ 0 ∧ quiescentEpoch ≤ e then e else minPostQuiescentWakeEpoch quiescentEpoch e f
  | e, _ :: f => minPostQuiescentWakeEpoch quiescentEpoch e f

/-- The variables of `replayandclean1`: positions count records, and `replayed` has the operations run. -/
structure Replay (α : Type) where
  pos : Nat := 0
  repbegin : Option Nat := none
  repend : Option Nat := none
  epoch : Nat := 0
  replayed : List (Nat × α) := []

def run (epoch : Nat) : LogEntry α → List (Nat × α)
  | .op x => [(epoch, x)]
  | _ => []

/-- A record past the test of its epoch: skipped before the checkpoint, else replayed. -/
def Replay.advance (minEpoch : Nat) (r : Replay α) (entry : LogEntry α) : Option (Replay α) :=
  if r.epoch = 0 ∨ minEpoch ≠ 0 ∧ r.epoch < minEpoch then
    some { r with pos := r.pos + 1, repend := if r.repbegin.isSome then some (r.pos + 1) else r.repend }
  else if r.repbegin.isNone then none
  else some { r with pos := r.pos + 1, repend := some (r.pos + 1), replayed := r.replayed ++ run r.epoch entry }

/-- The loop of `replayandclean1`. A failed assertion on `repbegin` is `none`. -/
def replayLoop (minEpoch maxEpoch : Nat) : LogFile α → Replay α → Option (Replay α)
  | [], r => some r
  | .epoch e :: f, r =>
    let r := { r with epoch := e
                      repbegin := if minEpoch ≠ 0 ∧ e < minEpoch ∨ minEpoch = 0 ∧ r.repbegin = none
                        then some r.pos else r.repbegin }
    if maxEpoch ≤ e then
      if r.repbegin.isNone then none else some { r with repend := some (r.pos + 1) }
    else (r.advance minEpoch (.epoch e)).bind (replayLoop minEpoch maxEpoch f)
  | entry :: f, r => (r.advance minEpoch entry).bind (replayLoop minEpoch maxEpoch f)

def Replay.kept (r : Replay α) (f : LogFile α) : LogFile α :=
  match r.repbegin with
  | none => []
  | some start => (f.take (r.repend.getD r.pos)).drop start

/-- `logreplay::replayandclean1`: the log it leaves and the operations it replays, with their epochs. -/
def replayandclean1 (minEpoch maxEpoch : Nat) (f : LogFile α) : Option (LogFile α × List (Nat × α)) :=
  (replayLoop minEpoch maxEpoch f {}).map fun r => (r.kept f, r.replayed)

/-! ### Well-formed logs -/

/-- The epoch after the records of `f`, from epoch `e`. -/
def lastEpoch (e : Nat) (f : LogFile α) : Nat :=
  f.foldl (fun e entry => match entry with | .epoch e' => e' | _ => e) e

/-- From epoch `e` on, epochs never decrease, and only an epoch record may come before the first one. -/
def Follows : Nat → LogFile α → Prop
  | _, [] => True
  | e, .epoch e' :: f => e ≤ e' ∧ 0 < e' ∧ Follows e' f
  | e, _ :: f => 0 < e ∧ Follows e f

def ops : Nat → LogFile α → List (Nat × α)
  | _, [] => []
  | _, .epoch e :: f => ops e f
  | e, .op x :: f => (e, x) :: ops e f
  | e, _ :: f => ops e f

def wakes : Nat → LogFile α → List Nat
  | _, [] => []
  | _, .epoch e :: f => wakes e f
  | e, .wake :: f => e :: wakes e f
  | e, _ :: f => wakes e f

def epochs : LogFile α → List Nat
  | [] => []
  | .epoch e :: f => e :: epochs f
  | _ :: f => epochs f

/-- The log through its first epoch record at or after `maxEpoch`. -/
def through (maxEpoch : Nat) : LogFile α → LogFile α
  | [] => []
  | .epoch e :: f => if maxEpoch ≤ e then [.epoch e] else .epoch e :: through maxEpoch f
  | entry :: f => entry :: through maxEpoch f

@[simp] theorem lastEpoch_nil (e : Nat) : lastEpoch e ([] : LogFile α) = e := rfl

@[simp] theorem lastEpoch_epoch (e e' : Nat) (f : LogFile α) : lastEpoch e (.epoch e' :: f) = lastEpoch e' f := rfl

@[simp] theorem lastEpoch_op (e : Nat) (x : α) (f : LogFile α) : lastEpoch e (.op x :: f) = lastEpoch e f := rfl

@[simp] theorem lastEpoch_wake (e : Nat) (f : LogFile α) : lastEpoch e (.wake :: f) = lastEpoch e f := rfl

@[simp] theorem lastEpoch_quiesce (e : Nat) (f : LogFile α) : lastEpoch e (.quiesce :: f) = lastEpoch e f := rfl

theorem lastEpoch_append (e : Nat) (f g : LogFile α) : lastEpoch e (f ++ g) = lastEpoch (lastEpoch e f) g := by
  simp [lastEpoch]

theorem follows_append {e : Nat} {f g : LogFile α} :
    Follows e (f ++ g) ↔ Follows e f ∧ Follows (lastEpoch e f) g := by
  induction f generalizing e with
  | nil => simp [Follows]
  | cons entry f ih => cases entry <;> simp [Follows, ih, and_assoc]

theorem ops_append (e : Nat) (f g : LogFile α) : ops e (f ++ g) = ops e f ++ ops (lastEpoch e f) g := by
  induction f generalizing e with
  | nil => simp [ops]
  | cons entry f ih => cases entry <;> simp [ops, ih]

theorem wakes_append (e : Nat) (f g : LogFile α) : wakes e (f ++ g) = wakes e f ++ wakes (lastEpoch e f) g := by
  induction f generalizing e with
  | nil => simp [wakes]
  | cons entry f ih => cases entry <;> simp [wakes, ih]

theorem le_lastEpoch {e : Nat} {f : LogFile α} (follows : Follows e f) : e ≤ lastEpoch e f := by
  induction f generalizing e with
  | nil => exact Nat.le_refl e
  | cons entry f ih =>
    cases entry with
    | epoch e' => exact Nat.le_trans follows.1 (ih follows.2.2)
    | _ => exact ih follows.2

theorem ops_le {e : Nat} {f : LogFile α} (follows : Follows e f) {p : Nat × α} (member : p ∈ ops e f) :
    e ≤ p.1 ∧ p.1 ≤ lastEpoch e f := by
  induction f generalizing e with
  | nil => simp [ops] at member
  | cons entry f ih =>
    cases entry with
    | epoch e' =>
      have := ih follows.2.2 member
      exact ⟨Nat.le_trans follows.1 this.1, this.2⟩
    | op x =>
      rcases List.mem_cons.mp member with rfl | later
      · exact ⟨Nat.le_refl _, le_lastEpoch (f := .op x :: f) follows⟩
      · exact ih follows.2 later
    | _ => exact ih follows.2 member

theorem wakes_le {e : Nat} {f : LogFile α} (follows : Follows e f) {w : Nat} (member : w ∈ wakes e f) :
    e ≤ w ∧ w ≤ lastEpoch e f ∧ 0 < w := by
  induction f generalizing e with
  | nil => simp [wakes] at member
  | cons entry f ih =>
    cases entry with
    | epoch e' =>
      have := ih follows.2.2 member
      exact ⟨Nat.le_trans follows.1 this.1, this.2⟩
    | wake =>
      rcases List.mem_cons.mp member with rfl | later
      · exact ⟨Nat.le_refl _, le_lastEpoch (f := .wake :: f) follows, follows.1⟩
      · exact ih follows.2 later
    | _ => exact ih follows.2 member

theorem epochs_append (f g : LogFile α) : epochs (f ++ g) = epochs f ++ epochs g := by
  induction f with
  | nil => rfl
  | cons entry f ih => cases entry <;> simp [epochs, ih]

theorem epochs_le {e : Nat} {f : LogFile α} (follows : Follows e f) {x : Nat} (member : x ∈ epochs f) :
    e ≤ x ∧ x ≤ lastEpoch e f := by
  induction f generalizing e with
  | nil => simp [epochs] at member
  | cons entry f ih =>
    cases entry with
    | epoch e' =>
      rcases List.mem_cons.mp member with rfl | later
      · exact ⟨follows.1, le_lastEpoch follows.2.2⟩
      · have := ih follows.2.2 later
        exact ⟨Nat.le_trans follows.1 this.1, this.2⟩
    | _ => exact ih follows.2 member

/-- An epoch past `e` appears only after every wake record up to `e`. -/
theorem wake_before {e₀ e w : Nat} {f g : LogFile α} (follows : Follows e₀ (f ++ g)) (past : e < lastEpoch e₀ f)
    (member : w ∈ wakes e₀ (f ++ g)) (early : w ≤ e) : w ∈ wakes e₀ f := by
  rw [wakes_append] at member
  rcases List.mem_append.mp member with here | later
  · exact here
  · have := (wakes_le (follows_append.mp follows).2 later).1
    omega

/-! ### What `info` reads -/

theorem info_lastEpoch (f : LogFile α) : (info f).lastEpoch = lastEpoch 0 f := by
  have loop : ∀ x : LogInfo, (f.foldl infoStep x).lastEpoch = lastEpoch x.lastEpoch f := by
    induction f with
    | nil => intro x; rfl
    | cons entry f ih =>
      intro x
      rw [List.foldl_cons, ih]
      cases entry <;> rfl
  exact loop {}

theorem info_minPost (f : LogFile α) : (info f).minPostQuiescentWakeEpoch = 0 := by
  have loop : ∀ x : LogInfo, (f.foldl infoStep x).minPostQuiescentWakeEpoch = x.minPostQuiescentWakeEpoch := by
    induction f with
    | nil => intro x; rfl
    | cons entry f ih =>
      intro x
      rw [List.foldl_cons, ih]
      cases entry <;> rfl
  exact loop {}

/-- The last record is a quiesce. -/
def Quiescent (f : LogFile α) : Prop := f.getLast? = some .quiesce

theorem Quiescent.ne_nil {f : LogFile α} (quiet : Quiescent f) : f ≠ [] := by
  rintro rfl
  simp [Quiescent] at quiet

theorem info_quiescent {f : LogFile α} (some_ : f ≠ []) : (info f).quiescent = true ↔ Quiescent f := by
  rcases List.eq_nil_or_concat f with rfl | ⟨f, entry, rfl⟩
  · exact absurd rfl some_
  · rw [List.concat_eq_append, info, List.foldl_append]
    cases entry <;> simp [infoStep, Quiescent]

theorem lastEpoch_pos {f : LogFile α} (follows : Follows 0 f) (some_ : f ≠ []) : 0 < lastEpoch 0 f := by
  cases f with
  | nil => exact absurd rfl some_
  | cons entry f =>
    cases entry with
    | epoch e => exact Nat.lt_of_lt_of_le follows.2.1 (le_lastEpoch follows.2.2)
    | _ => exact absurd follows.1 (Nat.lt_irrefl 0)

/-- The wake epoch `info` reads is the largest of the wake records, or 0 without one. -/
theorem info_wakeEpoch {f : LogFile α} (follows : Follows 0 f) :
    (∀ w ∈ wakes 0 f, w ≤ (info f).wakeEpoch) ∧ ((info f).wakeEpoch = 0 ∨ (info f).wakeEpoch ∈ wakes 0 f) := by
  have loop : ∀ x : LogInfo, x.wakeEpoch ≤ x.lastEpoch → Follows x.lastEpoch f →
      x.wakeEpoch ≤ (f.foldl infoStep x).wakeEpoch ∧
      (∀ w ∈ wakes x.lastEpoch f, w ≤ (f.foldl infoStep x).wakeEpoch) ∧
      ((f.foldl infoStep x).wakeEpoch = x.wakeEpoch ∨ (f.foldl infoStep x).wakeEpoch ∈ wakes x.lastEpoch f) := by
    clear follows
    induction f with
    | nil => exact fun x _ _ => ⟨Nat.le_refl _, by simp [wakes], Or.inl rfl⟩
    | cons entry f ih =>
      intro x bound follows
      rw [List.foldl_cons]
      cases entry with
      | epoch e =>
        have current : ¬ (x.wakeEpoch ≠ 0 ∧ e < x.wakeEpoch) := by
          have := follows.1
          omega
        have next := ih (infoStep x (.epoch e : LogEntry α))
        simp only [infoStep, if_neg current] at next ⊢
        exact next (Nat.le_trans bound follows.1) follows.2.2
      | wake =>
        obtain ⟨least, above, read⟩ := ih (infoStep x (.wake : LogEntry α)) (Nat.le_refl _) follows.2
        refine ⟨Nat.le_trans bound least, fun w member => ?_, Or.inr ?_⟩
        · rcases List.mem_cons.mp member with rfl | later
          · exact least
          · exact above w later
        · rcases read with same | later
          · exact List.mem_cons.mpr (Or.inl same)
          · exact List.mem_cons_of_mem _ later
      | op y => exact ih (infoStep x (.op y)) bound follows.2
      | quiesce => exact ih (infoStep x (.quiesce : LogEntry α)) bound follows.2
  exact (loop {} (Nat.le_refl _) follows).2

/-- The first wake record at or after the quiescent epoch, or 0 without one. -/
theorem minPostQuiescentWakeEpoch_spec {q e : Nat} {f : LogFile α} (follows : Follows e f) :
    (∀ w ∈ wakes e f, q ≤ w → minPostQuiescentWakeEpoch q e f ≠ 0 ∧ minPostQuiescentWakeEpoch q e f ≤ w) ∧
    (minPostQuiescentWakeEpoch q e f = 0 ∨
      minPostQuiescentWakeEpoch q e f ∈ wakes e f ∧ q ≤ minPostQuiescentWakeEpoch q e f) := by
  induction f generalizing e with
  | nil => simp [minPostQuiescentWakeEpoch, wakes]
  | cons entry f ih =>
    cases entry with
    | epoch e' => exact ih follows.2.2
    | wake =>
      obtain ⟨above, read⟩ := ih follows.2
      have positive := follows.1
      rw [minPostQuiescentWakeEpoch, wakes]
      by_cases here : e ≠ 0 ∧ q ≤ e
      · rw [if_pos here]
        refine ⟨fun w member _ => ⟨here.1, ?_⟩, Or.inr ⟨List.mem_cons_self, here.2⟩⟩
        rcases List.mem_cons.mp member with rfl | later
        · exact Nat.le_refl _
        · exact (wakes_le follows.2 later).1
      · rw [if_neg here]
        refine ⟨fun w member bound => ?_, read.imp id fun ⟨later, bound⟩ => ⟨List.mem_cons_of_mem _ later, bound⟩⟩
        rcases List.mem_cons.mp member with rfl | later
        · omega
        · exact above w later bound
    | _ => exact ih follows.2

theorem info_firstEpoch {f : LogFile α} (follows : Follows 0 f) :
    (info f).firstEpoch = (epochs f).headD 0 := by
  have kept : ∀ (f : LogFile α) (x : LogInfo), x.firstEpoch ≠ 0 →
      (f.foldl infoStep x).firstEpoch = x.firstEpoch := by
    intro f
    induction f with
    | nil => intro x _; rfl
    | cons entry f ih =>
      intro x some_
      rw [List.foldl_cons]
      cases entry with
      | epoch e =>
        have same : (infoStep x (.epoch e : LogEntry α)).firstEpoch = x.firstEpoch := by simp [infoStep, some_]
        rw [ih _ (by rwa [same]), same]
      | _ => exact ih _ some_
  cases f with
  | nil => rfl
  | cons entry f =>
    cases entry with
    | epoch e =>
      rw [info, List.foldl_cons, kept]
      · rfl
      · exact Nat.ne_of_gt follows.2.1
    | _ => exact absurd follows.1 (Nat.lt_irrefl 0)

/-! ### What `replayandclean1` replays and keeps -/

/-- Only the part of a log through its first epoch record at `maxEpoch` has earlier operations. -/
theorem ops_through {maxEpoch e : Nat} {f : LogFile α} (follows : Follows e f) (early : e < maxEpoch) :
    (ops e (through maxEpoch f)).filter (·.1 < maxEpoch) = (ops e f).filter (·.1 < maxEpoch) := by
  induction f generalizing e with
  | nil => rfl
  | cons entry f ih =>
    cases entry with
    | epoch e' =>
      rw [through]
      split
      · rename_i late
        have none : (ops e' f).filter (·.1 < maxEpoch) = [] := by
          refine List.filter_eq_nil_iff.mpr fun p member => ?_
          have := (ops_le follows.2.2 member).1
          simp
          omega
        simpa [ops] using none.symm
      · exact ih follows.2.2 (by omega)
    | op x =>
      have := ih follows.2 early
      simp [through, ops, early, this]
    | _ => exact ih follows.2 early

/-- A log kept from an epoch record on. -/
def Starts (f : LogFile α) : Prop := ∃ e g, f = .epoch e :: g

theorem Starts.append {f : LogFile α} (starts : Starts f) (g : LogFile α) : Starts (f ++ g) := by
  obtain ⟨e, f, rfl⟩ := starts
  exact ⟨e, f ++ g, rfl⟩

theorem Starts.ops {f : LogFile α} (starts : Starts f) (e e' : Nat) : ops e f = ops e' f := by
  obtain ⟨e, f, rfl⟩ := starts
  rfl

/-- The loop after the records of `p`, of which `b` would be kept. -/
structure Replaying (minEpoch : Nat) (a b : LogFile α) (r : Replay α) : Prop where
  pos : r.pos = (a ++ b).length
  repbegin : r.repbegin = some a.length
  repend : r.repend = some (a ++ b).length
  epoch : r.epoch = lastEpoch 0 (a ++ b)
  replayed : r.replayed = (ops 0 (a ++ b)).filter (minEpoch ≤ ·.1)
  starts : Starts b
  whole : minEpoch = 0 → a = []
  before : ∀ e ∈ epochs a, e < minEpoch
  covered : ∀ p ∈ ops 0 a, p.1 < minEpoch

/-- What `replayandclean1` does to a well-formed log: it replays the operations of the epochs from
`minEpoch` up to `maxEpoch`, and drops what lies before `minEpoch` and after the first epoch record at
or past `maxEpoch`. -/
structure Replayed (minEpoch maxEpoch : Nat) (f kept : LogFile α) (replayed : List (Nat × α)) : Prop where
  ops : replayed = (ops 0 f).filter fun p => minEpoch ≤ p.1 ∧ p.1 < maxEpoch
  kept : ∃ a, through maxEpoch f = a ++ kept ∧ Starts kept ∧ (minEpoch = 0 → a = []) ∧
    (∀ e ∈ epochs a, e < minEpoch) ∧ ∀ p ∈ LogFile.ops 0 a, p.1 < minEpoch

/-- A record that is no epoch record is skipped or replayed, and would be kept. -/
theorem replaying_entry {minEpoch : Nat} {a b : LogFile α} {r : Replay α} {entry : LogEntry α}
    (inv : Replaying minEpoch a b r) (positive : 0 < r.epoch) (kind : ∀ e, entry ≠ .epoch e) :
    ∃ r', r.advance minEpoch entry = some r' ∧ Replaying minEpoch a (b ++ [entry]) r' := by
  have same : lastEpoch 0 (a ++ (b ++ [entry])) = lastEpoch 0 (a ++ b) := by
    rw [← List.append_assoc, lastEpoch_append]
    cases entry with
    | epoch e => exact absurd rfl (kind e)
    | _ => rfl
  have grown : (a ++ (b ++ [entry])).length = (a ++ b).length + 1 := by simp [Nat.add_assoc]
  have added : ops 0 (a ++ (b ++ [entry])) = ops 0 (a ++ b) ++ ops r.epoch [entry] := by
    rw [← List.append_assoc, ops_append, inv.epoch]
  have begun : r.repbegin.isSome = true := by simp [inv.repbegin]
  by_cases old : minEpoch ≠ 0 ∧ r.epoch < minEpoch
  · refine ⟨_, by simp only [Replay.advance, if_pos (Or.inr old)]; rfl, ?_⟩
    have none : (ops r.epoch [entry]).filter (fun p => decide (minEpoch ≤ p.1)) = [] := by
      cases entry with
      | op x => simp [ops, old.2]
      | epoch e => exact absurd rfl (kind e)
      | _ => rfl
    refine ⟨?_, inv.repbegin, ?_, ?_, ?_, inv.starts.append _, inv.whole, inv.before, inv.covered⟩
    · rw [grown, inv.pos]
    · simp [begun, grown, inv.pos]
    · rw [same]
      exact inv.epoch
    · rw [added, List.filter_append, none, List.append_nil]
      exact inv.replayed
  · have kept : ¬ (r.epoch = 0 ∨ minEpoch ≠ 0 ∧ r.epoch < minEpoch) := by omega
    refine ⟨_, by rw [Replay.advance, if_neg kept, if_neg (by simp [inv.repbegin])], ?_⟩
    refine ⟨?_, inv.repbegin, ?_, ?_, ?_, inv.starts.append _, inv.whole, inv.before, inv.covered⟩
    · rw [grown, inv.pos]
    · simp [grown, inv.pos]
    · rw [same]
      exact inv.epoch
    · rw [added, List.filter_append, ← inv.replayed]
      cases entry with
      | op x =>
        have : minEpoch ≤ r.epoch := by omega
        simp [ops, run, this]
      | epoch e => exact absurd rfl (kind e)
      | _ => simp [ops, run]

/-- An epoch record below `maxEpoch` is kept; one before `minEpoch` is where the kept log starts. -/
theorem replaying_epoch {minEpoch e : Nat} {a b : LogFile α} {r : Replay α} (inv : Replaying minEpoch a b r)
    (follows : Follows 0 (a ++ b)) (later : lastEpoch 0 (a ++ b) ≤ e) :
    ∃ a' b', a' ++ b' = a ++ b ++ [.epoch e] ∧
      Replaying minEpoch a' b'
        { r with epoch := e, pos := r.pos + 1, repend := some (r.pos + 1)
                 repbegin := if minEpoch ≠ 0 ∧ e < minEpoch ∨ minEpoch = 0 ∧ r.repbegin = none
                   then some r.pos else r.repbegin } := by
  have opsSame : ops 0 (a ++ b ++ [.epoch e]) = ops 0 (a ++ b) := by
    rw [ops_append 0 (a ++ b)]
    simp [ops]
  have begun : ¬ r.repbegin = none := by simp [inv.repbegin]
  by_cases old : e < minEpoch
  · refine ⟨a ++ b, [.epoch e], rfl, ?_⟩
    refine ⟨?_, ?_, ?_, ?_, ?_, ⟨e, [], rfl⟩, fun none => by omega, fun x member => ?_, fun p member => ?_⟩
    · simp [inv.pos, Nat.add_assoc]
    · simp [inv.pos, old, show minEpoch ≠ 0 by omega]
    · simp [inv.pos, Nat.add_assoc]
    · simp [lastEpoch_append]
    · rw [opsSame]
      exact inv.replayed
    · have := (epochs_le follows member).2
      omega
    · have := (ops_le follows member).2
      omega
  · refine ⟨a, b ++ [.epoch e], by simp, ?_⟩
    refine ⟨?_, ?_, ?_, ?_, ?_, inv.starts.append _, inv.whole, inv.before, inv.covered⟩
    · simp [inv.pos, Nat.add_assoc]
    · simp [old, inv.repbegin]
    · simp [inv.pos, Nat.add_assoc]
    · rw [← List.append_assoc, lastEpoch_append]
      rfl
    · rw [← List.append_assoc, opsSame]
      exact inv.replayed

/-- `advance` after an epoch record only counts it. -/
theorem advance_epoch {minEpoch : Nat} {r : Replay α} {e : Nat} (begun : r.repbegin.isSome = true) :
    r.advance minEpoch (.epoch e) = some { r with pos := r.pos + 1, repend := some (r.pos + 1) } := by
  unfold Replay.advance
  split
  · simp
  · rw [if_neg (by cases h : r.repbegin <;> simp_all)]
    simp [run]

theorem replayLoop_entry {minEpoch maxEpoch : Nat} {entry : LogEntry α} (kind : ∀ e, entry ≠ .epoch e)
    (f : LogFile α) (r : Replay α) : replayLoop minEpoch maxEpoch (entry :: f) r =
      (r.advance minEpoch entry).bind (replayLoop minEpoch maxEpoch f) := by
  cases entry with
  | epoch e => exact absurd rfl (kind e)
  | _ => rfl

theorem through_append {maxEpoch e : Nat} {p : LogFile α} (f : LogFile α) (follows : Follows e p)
    (below : lastEpoch e p < maxEpoch) : through maxEpoch (p ++ f) = p ++ through maxEpoch f := by
  induction p generalizing e with
  | nil => rfl
  | cons entry p ih =>
    cases entry with
    | epoch e' =>
      have : e' ≤ lastEpoch e' p := le_lastEpoch follows.2.2
      have early : ¬ maxEpoch ≤ e' := by simp only [lastEpoch_epoch] at below; omega
      simp [through, early, ih follows.2.2 below]
    | _ => simp [through, ih follows.2 below]

/-- The loop stopped after `a ++ b`, and no later operation is below `maxEpoch`. -/
theorem replaying_done {minEpoch : Nat} (maxEpoch : Nat) {a b : LogFile α} (f : LogFile α) {r : Replay α}
    (inv : Replaying minEpoch a b r) (cut : through maxEpoch (a ++ b ++ f) = a ++ b)
    (early : ∀ p ∈ ops 0 (a ++ b), p.1 < maxEpoch)
    (late : ∀ p ∈ ops (lastEpoch 0 (a ++ b)) f, maxEpoch ≤ p.1) :
    Replayed minEpoch maxEpoch (a ++ b ++ f) (r.kept (a ++ b ++ f)) r.replayed := by
  have kept : r.kept (a ++ b ++ f) = b := by
    simp only [Replay.kept, inv.repbegin, inv.repend, Option.getD_some]
    rw [List.take_left, List.drop_left]
  refine ⟨?_, a, ?_⟩
  · rw [ops_append, List.filter_append, inv.replayed]
    have first : (ops 0 (a ++ b)).filter (fun p => decide (minEpoch ≤ p.1 ∧ p.1 < maxEpoch)) =
        (ops 0 (a ++ b)).filter (minEpoch ≤ ·.1) := by
      refine List.filter_congr fun p member => ?_
      simp [early p member]
    have rest : (ops (lastEpoch 0 (a ++ b)) f).filter (fun p => decide (minEpoch ≤ p.1 ∧ p.1 < maxEpoch)) = [] := by
      refine List.filter_eq_nil_iff.mpr fun p member => ?_
      have := late p member
      simp
      omega
    rw [first, rest, List.append_nil]
  · rw [kept]
    exact ⟨cut, inv.starts, inv.whole, inv.before, inv.covered⟩

theorem replayLoop_replayed {minEpoch : Nat} (maxEpoch : Nat) {a b f : LogFile α} {r : Replay α}
    (inv : Replaying minEpoch a b r) (follows : Follows 0 (a ++ b ++ f))
    (below : lastEpoch 0 (a ++ b) < maxEpoch) :
    ∃ r', replayLoop minEpoch maxEpoch f r = some r' ∧
      Replayed minEpoch maxEpoch (a ++ b ++ f) (r'.kept (a ++ b ++ f)) r'.replayed := by
  induction f generalizing a b r with
  | nil =>
    refine ⟨r, rfl, replaying_done maxEpoch [] inv ?_ (fun p member => ?_) (by simp [ops])⟩
    · rw [through_append _ (follows_append.mp follows).1 below, through, List.append_nil]
    · have := (ops_le (follows_append.mp follows).1 member).2
      omega
  | cons entry f ih =>
    have here := follows_append.mp follows
    have replay_entry : (∀ e, entry ≠ .epoch e) → 0 < lastEpoch 0 (a ++ b) → Follows (lastEpoch 0 (a ++ b)) f →
        ∃ r', replayLoop minEpoch maxEpoch (entry :: f) r = some r' ∧ Replayed minEpoch maxEpoch
          (a ++ b ++ entry :: f) (r'.kept (a ++ b ++ entry :: f)) r'.replayed := by
      intro kind positive rest
      obtain ⟨r', advanced, next⟩ := replaying_entry inv (by rwa [inv.epoch]) kind
      have shape : a ++ b ++ entry :: f = a ++ (b ++ [entry]) ++ f := by simp
      have last : lastEpoch 0 (a ++ (b ++ [entry])) = lastEpoch 0 (a ++ b) := by
        rw [← List.append_assoc, lastEpoch_append]
        cases entry with
        | epoch e => exact absurd rfl (kind e)
        | _ => rfl
      rw [replayLoop_entry kind, advanced, Option.bind_some, shape]
      exact ih next (by rw [← shape]; exact follows) (by rwa [last])
    cases entry with
    | epoch e =>
      obtain ⟨a', b', same, next⟩ := replaying_epoch (e := e) inv here.1 here.2.1
      have shape : a ++ b ++ .epoch e :: f = a' ++ b' ++ f := by simp [same]
      have last : lastEpoch 0 (a' ++ b') = e := by simp [same, lastEpoch_append]
      have begun := next.repbegin
      simp only at begun
      by_cases late : maxEpoch ≤ e
      · refine ⟨_, by rw [replayLoop, if_pos late, if_neg (by simp [begun])], ?_⟩
        have done := replaying_done maxEpoch f next ?_ (fun p member => ?_) (fun p member => ?_)
        · rw [shape]
          exact done
        · rw [← shape, through_append _ here.1 below, through, if_pos late, same]
        · rw [same, ops_append] at member
          have := (ops_le here.1 (by simpa [ops] using member)).2
          omega
        · rw [last] at member
          have := (ops_le here.2.2.2 member).1
          omega
      · rw [replayLoop, if_neg late, advance_epoch (by simp [begun]), Option.bind_some, shape]
        exact ih next (by rw [← shape]; exact follows) (by omega)
    | op x => exact replay_entry (by simp) here.2.1 here.2.2
    | wake => exact replay_entry (by simp) here.2.1 here.2.2
    | quiesce => exact replay_entry (by simp) here.2.1 here.2.2

/-- `replayandclean1` on a well-formed log whose first epoch, if there is a checkpoint, is before it. -/
theorem replayandclean1_replayed {minEpoch : Nat} (maxEpoch : Nat) {f : LogFile α} (follows : Follows 0 f)
    (some_ : f ≠ []) (first : minEpoch = 0 ∨ (info f).firstEpoch < minEpoch) :
    ∃ kept replayed, replayandclean1 minEpoch maxEpoch f = some (kept, replayed) ∧
      Replayed minEpoch maxEpoch f kept replayed := by
  cases f with
  | nil => exact absurd rfl some_
  | cons entry f =>
    cases entry with
    | epoch e =>
      have before : minEpoch = 0 ∨ e < minEpoch := by simpa [info_firstEpoch follows, epochs] using first
      have begun : minEpoch ≠ 0 ∧ e < minEpoch ∨ minEpoch = 0 := by omega
      have inv : Replaying minEpoch [] [(.epoch e : LogEntry α)]
          { pos := 1, repbegin := some 0, repend := some 1, epoch := e } :=
        ⟨rfl, rfl, rfl, rfl, rfl, ⟨e, [], rfl⟩, fun _ => rfl, by simp [epochs], by simp [ops]⟩
      by_cases late : maxEpoch ≤ e
      · refine ⟨_, _, by
          simp only [replayandclean1, replayLoop, and_true, if_pos begun, if_pos late]
          rfl, ?_⟩
        refine replaying_done maxEpoch f inv ?_ (by simp [ops]) fun p member => ?_
        · simp [through, late]
        · exact Nat.le_trans late (ops_le follows.2.2 member).1
      · obtain ⟨r, looped, done⟩ := replayLoop_replayed maxEpoch inv follows (by simpa using late)
        refine ⟨_, _, ?_, done⟩
        simp only [replayandclean1, replayLoop, and_true, if_pos begun, if_neg late]
        rw [advance_epoch rfl, Option.bind_some, looped]
        rfl
    | _ => exact absurd follows.1 (Nat.lt_irrefl 0)

/-- What cleaning keeps of the operations a checkpoint leaves to the log. -/
theorem Replayed.ops_kept {minEpoch c : Nat} {f kept : LogFile α} {replayed : List (Nat × α)}
    (cleaned : Replayed minEpoch c f kept replayed) (follows : Follows 0 f) {p : Nat × α}
    (member : p ∈ LogFile.ops 0 f) (late : minEpoch ≤ p.1) (early : p.1 < c) : p ∈ LogFile.ops 0 kept := by
  obtain ⟨a, cut, starts, -, -, covered⟩ := cleaned.kept
  have inside : p ∈ (Masstree.LogFile.ops 0 (through c f)).filter (·.1 < c) := by
    rw [ops_through follows (by omega)]
    simpa using ⟨member, early⟩
  rw [cut, List.mem_filter, ops_append] at inside
  rcases List.mem_append.mp inside.1 with before | kept
  · have := covered p before
    omega
  · rwa [starts.ops _ 0] at kept

end LogFile

end Masstree
