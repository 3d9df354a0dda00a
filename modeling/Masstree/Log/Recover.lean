import Mathlib.Data.List.FinRange
import Mathlib.Order.Bounds.Basic
import Masstree.Log.File

/-!
# Recovery

`recover` reads each log's information, chooses the cut `rec_replay_max_epoch`, checks it against the
checkpoint and has every log replayed and cleaned. For a log whose file is empty the information is
never written, so its `quiescent` flag is whatever the memory held.
-/

namespace Masstree

variable {α : Type} {n : Nat}

/-- The loops of `recover` that take the largest of the nonzero epochs `epoch it`. -/
def maxNonzero (epoch : LogInfo → Nat) (start : Nat) (infos : List LogInfo) : Nat :=
  infos.foldl (fun m it => if epoch it ≠ 0 ∧ (m = 0 ∨ m < epoch it) then epoch it else m) start

/-- `max_epoch`: the logs' and, if there is a checkpoint, the epoch after its last. -/
def maxEpoch (ckpMaxEpoch : Nat) (infos : List LogInfo) : Nat :=
  maxNonzero LogInfo.lastEpoch (if ckpMaxEpoch ≠ 0 then ckpMaxEpoch + 1 else 0) infos

def maxFirstEpoch (infos : List LogInfo) : Nat := maxNonzero LogInfo.firstEpoch 0 infos

def maxWakeEpoch (infos : List LogInfo) : Nat := maxNonzero LogInfo.wakeEpoch 0 infos

def minQuiescentLastEpoch (infos : List LogInfo) : Nat :=
  infos.foldl (fun m it => if it.quiescent ∧ (m = 0 ∨ m > it.lastEpoch) then it.lastEpoch else m) 0

def replayMinQuiescentLastEpoch (infos : List LogInfo) : Nat :=
  if maxWakeEpoch infos ≠ 0 ∧ minQuiescentLastEpoch infos ≤ maxWakeEpoch infos then
    minQuiescentLastEpoch infos
  else 0

/-- The phase `REC_LOG_ANALYZE_WAKE` of one log. -/
def analyzeWake (minQuiescent : Nat) (f : LogFile α) (x : LogInfo) : LogInfo :=
  if f ≠ [] ∧ minQuiescent ≠ 0 ∧ minQuiescent ≤ x.wakeEpoch then
    { x with minPostQuiescentWakeEpoch := f.minPostQuiescentWakeEpoch minQuiescent 0 }
  else x

def replayMaxEpoch (maxEpoch : Nat) (infos : List LogInfo) : Nat :=
  infos.foldl (fun m it =>
    let m := if it.quiescent = false ∧ it.lastEpoch ≠ 0 ∧ it.lastEpoch < m then it.lastEpoch else m
    if it.minPostQuiescentWakeEpoch ≠ 0 ∧ it.minPostQuiescentWakeEpoch < m then it.minPostQuiescentWakeEpoch
    else m) maxEpoch

/-- The entry of `rec_log_infos` for a log; `garbage` is the flag of an entry never written. -/
def readInfo (garbage : Bool) (f : LogFile α) : LogInfo :=
  if f = [] then { quiescent := garbage } else f.info

def logInfos (garbage : Fin n → Bool) (files : Fin n → LogFile α) : List LogInfo :=
  (List.finRange n).map fun i => readInfo (garbage i) (files i)

def analyzed (garbage : Fin n → Bool) (files : Fin n → LogFile α) : List LogInfo :=
  let q := replayMinQuiescentLastEpoch (logInfos garbage files)
  (List.finRange n).map fun i => analyzeWake q (files i) (readInfo (garbage i) (files i))

/-- The epoch recovery replays up to. -/
def cut (garbage : Fin n → Bool) (ckpMaxEpoch : Nat) (files : Fin n → LogFile α) : Nat :=
  replayMaxEpoch (maxEpoch ckpMaxEpoch (logInfos garbage files)) (analyzed garbage files)

structure Recovered (n : Nat) (α : Type) where
  globalLogEpoch : Nat
  files : Fin n → LogFile α
  replayed : Fin n → List (Nat × α)

/-- The assertions of `recover` on a checkpoint's epochs. -/
def ckpChecked (ckpMinEpoch ckpMaxEpoch : Nat) (garbage : Fin n → Bool) (files : Fin n → LogFile α) : Bool :=
  ckpMinEpoch = 0 ∨ maxFirstEpoch (logInfos garbage files) < ckpMinEpoch ∧
    ckpMinEpoch < cut garbage ckpMaxEpoch files ∧ ckpMaxEpoch < cut garbage ckpMaxEpoch files

/-- What the thread of one log leaves and replays. An empty log has nothing to replay. -/
def cleaned (minEpoch maxEpoch : Nat) (f : LogFile α) : Option (LogFile α × List (Nat × α)) :=
  if f = [] then some ([], []) else f.replayandclean1 minEpoch maxEpoch

/-- `recover`, from the checkpoint's epochs, 0 for none, and the log files. -/
def recover (garbage : Fin n → Bool) (ckpMinEpoch ckpMaxEpoch : Nat) (files : Fin n → LogFile α) :
    Option (Recovered n α) :=
  let c := cut garbage ckpMaxEpoch files
  if ckpChecked ckpMinEpoch ckpMaxEpoch garbage files then
    if h : ∀ i, (cleaned ckpMinEpoch c (files i)).isSome then
      some { globalLogEpoch := c + 1
             files := fun i => ((cleaned ckpMinEpoch c (files i)).get (h i)).1
             replayed := fun i => ((cleaned ckpMinEpoch c (files i)).get (h i)).2 }
    else none
  else none

/-! ### The cut -/

theorem maxNonzero_spec (epoch : LogInfo → Nat) (start : Nat) (infos : List LogInfo) :
    start ≤ maxNonzero epoch start infos ∧ (∀ it ∈ infos, epoch it ≤ maxNonzero epoch start infos) ∧
      (maxNonzero epoch start infos = start ∨ ∃ it ∈ infos, epoch it = maxNonzero epoch start infos) := by
  induction infos generalizing start with
  | nil => exact ⟨Nat.le_refl _, by simp, Or.inl rfl⟩
  | cons it infos ih =>
    obtain ⟨least, above, read⟩ := ih (if epoch it ≠ 0 ∧ (start = 0 ∨ start < epoch it) then epoch it else start)
    have unfolded : maxNonzero epoch start (it :: infos) =
        maxNonzero epoch (if epoch it ≠ 0 ∧ (start = 0 ∨ start < epoch it) then epoch it else start) infos := rfl
    rw [unfolded]
    split at least <;> rename_i grows
    · simp only [if_pos grows] at above read ⊢
      refine ⟨by omega, fun x member => ?_, read.elim (fun same => ?_) fun ⟨x, member, same⟩ => ?_⟩
      · rcases List.mem_cons.mp member with rfl | later
        · exact least
        · exact above x later
      · exact Or.inr ⟨it, List.mem_cons_self, same.symm⟩
      · exact Or.inr ⟨x, List.mem_cons_of_mem _ member, same⟩
    · simp only [if_neg grows] at above read ⊢
      refine ⟨least, fun x member => ?_, read.elim Or.inl fun ⟨x, member, same⟩ => ?_⟩
      · rcases List.mem_cons.mp member with rfl | later
        · omega
        · exact above x later
      · exact Or.inr ⟨x, List.mem_cons_of_mem _ member, same⟩

/-- While quiescent logs have an epoch, the minimum is the least of them, or 0 without one. -/
theorem minQuiescentLastEpoch_spec {infos : List LogInfo}
    (dated : ∀ it ∈ infos, it.quiescent = true → it.lastEpoch ≠ 0) :
    (∀ it ∈ infos, it.quiescent = true → minQuiescentLastEpoch infos ≠ 0 ∧
      minQuiescentLastEpoch infos ≤ it.lastEpoch) ∧
    (minQuiescentLastEpoch infos = 0 ∨
      ∃ it ∈ infos, it.quiescent = true ∧ it.lastEpoch = minQuiescentLastEpoch infos) := by
  have loop : ∀ m : Nat, ∃ r, infos.foldl
      (fun m it => if it.quiescent ∧ (m = 0 ∨ m > it.lastEpoch) then it.lastEpoch else m) m = r ∧
      (m ≠ 0 → r ≠ 0 ∧ r ≤ m) ∧ (∀ it ∈ infos, it.quiescent = true → r ≠ 0 ∧ r ≤ it.lastEpoch) ∧
      (r = m ∨ ∃ it ∈ infos, it.quiescent = true ∧ it.lastEpoch = r) := by
    induction infos with
    | nil => exact fun m => ⟨m, rfl, fun some_ => ⟨some_, Nat.le_refl m⟩, by simp, Or.inl rfl⟩
    | cons it infos ih =>
      intro m
      have here := dated it List.mem_cons_self
      have ih := ih fun x member => dated x (List.mem_cons_of_mem _ member)
      rw [List.foldl_cons]
      by_cases takes : it.quiescent = true ∧ (m = 0 ∨ m > it.lastEpoch)
      · rw [if_pos takes]
        obtain ⟨r, same, below, least, read⟩ := ih it.lastEpoch
        have first := below (here takes.1)
        refine ⟨r, same, fun some_ => ⟨first.1, by omega⟩, fun x member quiet => ?_, ?_⟩
        · rcases List.mem_cons.mp member with rfl | later
          · exact first
          · exact least x later quiet
        · rcases read with same | ⟨x, member, quiet, same⟩
          · exact Or.inr ⟨it, List.mem_cons_self, takes.1, same.symm⟩
          · exact Or.inr ⟨x, List.mem_cons_of_mem _ member, quiet, same⟩
      · rw [if_neg takes]
        obtain ⟨r, same, below, least, read⟩ := ih m
        refine ⟨r, same, below, fun x member quiet => ?_, read.imp id fun ⟨x, member, facts⟩ =>
          ⟨x, List.mem_cons_of_mem _ member, facts⟩⟩
        rcases List.mem_cons.mp member with rfl | later
        · have kept : m ≠ 0 ∧ m ≤ x.lastEpoch := by
            refine ⟨fun none => takes ⟨quiet, Or.inl none⟩, ?_⟩
            by_contra above
            exact takes ⟨quiet, Or.inr (by omega)⟩
          have := below kept.1
          exact ⟨this.1, by omega⟩
        · exact least x later quiet
  obtain ⟨r, same, -, least, read⟩ := loop 0
  have same : minQuiescentLastEpoch infos = r := same
  rw [same]
  exact ⟨least, read⟩

theorem replayMaxEpoch_spec (start : Nat) (infos : List LogInfo) :
    replayMaxEpoch start infos ≤ start ∧
    (∀ it ∈ infos, it.quiescent = false → it.lastEpoch ≠ 0 → replayMaxEpoch start infos ≤ it.lastEpoch) ∧
    (∀ it ∈ infos, it.minPostQuiescentWakeEpoch ≠ 0 →
      replayMaxEpoch start infos ≤ it.minPostQuiescentWakeEpoch) ∧
    (replayMaxEpoch start infos = start ∨
      (∃ it ∈ infos, it.quiescent = false ∧ it.lastEpoch ≠ 0 ∧ it.lastEpoch = replayMaxEpoch start infos) ∨
      ∃ it ∈ infos, it.minPostQuiescentWakeEpoch ≠ 0 ∧
        it.minPostQuiescentWakeEpoch = replayMaxEpoch start infos) := by
  induction infos generalizing start with
  | nil => exact ⟨Nat.le_refl _, by simp, by simp, Or.inl rfl⟩
  | cons it infos ih =>
    have unfolded : ∃ m, replayMaxEpoch start (it :: infos) = replayMaxEpoch m infos ∧ m ≤ start ∧
        (it.quiescent = false → it.lastEpoch ≠ 0 → m ≤ it.lastEpoch) ∧
        (it.minPostQuiescentWakeEpoch ≠ 0 → m ≤ it.minPostQuiescentWakeEpoch) ∧
        (m = start ∨ (it.quiescent = false ∧ it.lastEpoch ≠ 0 ∧ it.lastEpoch = m) ∨
          (it.minPostQuiescentWakeEpoch ≠ 0 ∧ it.minPostQuiescentWakeEpoch = m)) := by
      refine ⟨_, rfl, ?_⟩
      by_cases quiet : it.quiescent = false ∧ it.lastEpoch ≠ 0 ∧ it.lastEpoch < start
      · simp only [if_pos quiet]
        split
        · refine ⟨by omega, fun _ _ => by omega, fun _ => Nat.le_refl _, Or.inr (Or.inr ⟨by omega, rfl⟩)⟩
        · refine ⟨by omega, fun _ _ => Nat.le_refl _, fun _ => by omega, Or.inr (Or.inl ⟨quiet.1, by omega, rfl⟩)⟩
      · simp only [if_neg quiet]
        have kept : it.quiescent = false → it.lastEpoch ≠ 0 → start ≤ it.lastEpoch := fun a b => by
          by_contra below
          exact quiet ⟨a, b, by omega⟩
        split
        · refine ⟨by omega, fun a b => ?_, fun _ => Nat.le_refl _, Or.inr (Or.inr ⟨by omega, rfl⟩)⟩
          have := kept a b
          omega
        · exact ⟨Nat.le_refl _, kept, fun _ => by omega, Or.inl rfl⟩
    obtain ⟨m, same, below, quiet, woken, read⟩ := unfolded
    obtain ⟨least, quiets, wokens, reads⟩ := ih m
    rw [same]
    refine ⟨by omega, fun x member a b => ?_, fun x member a => ?_, ?_⟩
    · rcases List.mem_cons.mp member with rfl | later
      · have := quiet a b
        omega
      · exact quiets x later a b
    · rcases List.mem_cons.mp member with rfl | later
      · have := woken a
        omega
      · exact wokens x later a
    · rcases reads with here | ⟨x, member, facts⟩ | ⟨x, member, facts⟩
      · rw [here]
        exact read.imp id (Or.imp (fun facts => ⟨it, List.mem_cons_self, facts⟩)
          fun facts => ⟨it, List.mem_cons_self, facts⟩)
      · exact Or.inr (Or.inl ⟨x, List.mem_cons_of_mem _ member, facts⟩)
      · exact Or.inr (Or.inr ⟨x, List.mem_cons_of_mem _ member, facts⟩)

/-- A number the cut is at most: the last epoch of all, the last epoch of a log that is not quiescent, or
the epoch of a wake record that some quiescent log missed. -/
inductive CutBound (ckpMaxEpoch : Nat) (files : Fin n → LogFile α) (c : Nat) : Prop where
  | last : (if ckpMaxEpoch ≠ 0 then ckpMaxEpoch + 1 else 0) ≤ c → (∀ i, (files i).lastEpoch 0 ≤ c) →
      c = (if ckpMaxEpoch ≠ 0 then ckpMaxEpoch + 1 else 0) ∨ (∃ i, (files i).lastEpoch 0 = c) →
      CutBound ckpMaxEpoch files c
  | active (i : Fin n) : files i ≠ [] → ¬ (files i).Quiescent → (files i).lastEpoch 0 = c →
      CutBound ckpMaxEpoch files c
  | missed (i j : Fin n) : (files i).Quiescent → c ∈ (files j).wakes 0 → (files i).lastEpoch 0 ≤ c →
      CutBound ckpMaxEpoch files c

section WellFormed

variable {garbage : Fin n → Bool} {ckpMaxEpoch : Nat} {files : Fin n → LogFile α}

theorem readInfo_lastEpoch (garbage : Bool) (f : LogFile α) : (readInfo garbage f).lastEpoch = f.lastEpoch 0 := by
  unfold readInfo
  split
  · rename_i empty
    simp [empty]
  · exact LogFile.info_lastEpoch f

theorem readInfo_quiescent {garbage : Bool} {f : LogFile α} (clear : f = [] → garbage = false) :
    (readInfo garbage f).quiescent = true ↔ f.Quiescent := by
  unfold readInfo
  split
  · rename_i empty
    simp [clear empty, empty, LogFile.Quiescent]
  · rename_i some_
    exact LogFile.info_quiescent some_

theorem readInfo_wakeEpoch (garbage : Bool) {f : LogFile α} (follows : f.Follows 0) :
    (∀ w ∈ f.wakes 0, w ≤ (readInfo garbage f).wakeEpoch) ∧
      ((readInfo garbage f).wakeEpoch = 0 ∨ (readInfo garbage f).wakeEpoch ∈ f.wakes 0) := by
  unfold readInfo
  split
  · rename_i empty
    simp [empty, LogFile.wakes]
  · exact LogFile.info_wakeEpoch follows

theorem mem_logInfos {it : LogInfo} : it ∈ logInfos garbage files ↔ ∃ i, readInfo (garbage i) (files i) = it := by
  simp [logInfos]

theorem mem_analyzed {it : LogInfo} : it ∈ analyzed garbage files ↔
    ∃ i, analyzeWake (replayMinQuiescentLastEpoch (logInfos garbage files)) (files i)
      (readInfo (garbage i) (files i)) = it := by
  simp [analyzed]

theorem readInfo_minPost (garbage : Bool) (f : LogFile α) :
    (readInfo garbage f).minPostQuiescentWakeEpoch = 0 := by
  unfold readInfo
  split
  · rfl
  · exact LogFile.info_minPost f

@[simp] theorem analyzeWake_quiescent (q : Nat) (f : LogFile α) (x : LogInfo) :
    (analyzeWake q f x).quiescent = x.quiescent := by
  unfold analyzeWake
  split <;> rfl

@[simp] theorem analyzeWake_lastEpoch (q : Nat) (f : LogFile α) (x : LogInfo) :
    (analyzeWake q f x).lastEpoch = x.lastEpoch := by
  unfold analyzeWake
  split <;> rfl

variable (follows : ∀ i, (files i).Follows 0) (clear : ∀ i, files i = [] → garbage i = false)

include follows clear

theorem minQuiescent_spec :
    (∀ i, (files i).Quiescent → minQuiescentLastEpoch (logInfos garbage files) ≠ 0 ∧
      minQuiescentLastEpoch (logInfos garbage files) ≤ (files i).lastEpoch 0) ∧
    (minQuiescentLastEpoch (logInfos garbage files) = 0 ∨
      ∃ i, (files i).Quiescent ∧ (files i).lastEpoch 0 = minQuiescentLastEpoch (logInfos garbage files)) := by
  have dated : ∀ it ∈ logInfos garbage files, it.quiescent = true → it.lastEpoch ≠ 0 := by
    intro it member quiet
    obtain ⟨i, rfl⟩ := mem_logInfos.mp member
    have quiet := (readInfo_quiescent (clear i)).mp quiet
    rw [readInfo_lastEpoch]
    exact Nat.ne_of_gt (LogFile.lastEpoch_pos (follows i) quiet.ne_nil)
  obtain ⟨least, read⟩ := minQuiescentLastEpoch_spec dated
  refine ⟨fun i quiet => ?_, read.imp id ?_⟩
  · have := least _ (mem_logInfos.mpr ⟨i, rfl⟩) ((readInfo_quiescent (clear i)).mpr quiet)
    rwa [readInfo_lastEpoch] at this
  · rintro ⟨it, member, quiet, same⟩
    obtain ⟨i, rfl⟩ := mem_logInfos.mp member
    rw [readInfo_lastEpoch] at same
    exact ⟨i, (readInfo_quiescent (clear i)).mp quiet, same⟩

/-- The cut is the least of its bounds. -/
theorem cut_isLeast : IsLeast {c | CutBound ckpMaxEpoch files c} (cut garbage ckpMaxEpoch files) := by
  obtain ⟨below, active, woken, read⟩ :=
    replayMaxEpoch_spec (maxEpoch ckpMaxEpoch (logInfos garbage files)) (analyzed garbage files)
  obtain ⟨least, quiets⟩ := minQuiescent_spec follows clear
  obtain ⟨start, above, last⟩ := maxNonzero_spec LogInfo.lastEpoch
    (if ckpMaxEpoch ≠ 0 then ckpMaxEpoch + 1 else 0) (logInfos garbage files)
  constructor
  · rcases read with same | ⟨it, member, quiet, dated, same⟩ | ⟨it, member, some_, same⟩
    · have same : cut garbage ckpMaxEpoch files = maxEpoch ckpMaxEpoch (logInfos garbage files) := same
      refine .last (by rw [same]; exact start) (fun i => ?_) ?_
      · have := above _ (mem_logInfos.mpr ⟨i, rfl⟩)
        rwa [readInfo_lastEpoch, ← maxEpoch, ← same] at this
      · refine last.imp (fun eq => same.trans eq) fun ⟨it, member, eq⟩ => ?_
        obtain ⟨i, rfl⟩ := mem_logInfos.mp member
        rw [readInfo_lastEpoch] at eq
        exact ⟨i, eq.trans same.symm⟩
    · obtain ⟨i, rfl⟩ := mem_analyzed.mp member
      rw [analyzeWake_lastEpoch, readInfo_lastEpoch] at same dated
      rw [analyzeWake_quiescent] at quiet
      refine .active i (fun empty => dated (by simp [empty])) (fun other => ?_) same
      rw [(readInfo_quiescent (clear i)).mpr other] at quiet
      cases quiet
    · obtain ⟨j, rfl⟩ := mem_analyzed.mp member
      have analyzed : files j ≠ [] ∧ replayMinQuiescentLastEpoch (logInfos garbage files) ≠ 0 ∧
          replayMinQuiescentLastEpoch (logInfos garbage files) ≤ (readInfo (garbage j) (files j)).wakeEpoch := by
        by_contra skipped
        rw [analyzeWake, if_neg skipped, readInfo_minPost] at some_
        exact some_ rfl
      rw [analyzeWake, if_pos analyzed] at same some_
      obtain ⟨-, woke⟩ := LogFile.minPostQuiescentWakeEpoch_spec
        (q := replayMinQuiescentLastEpoch (logInfos garbage files)) (follows j)
      obtain ⟨member, late⟩ := woke.resolve_left some_
      have missed : replayMinQuiescentLastEpoch (logInfos garbage files) =
          minQuiescentLastEpoch (logInfos garbage files) := by
        by_contra other
        simp only [replayMinQuiescentLastEpoch] at other analyzed
        split at other <;> simp_all
      rcases quiets with none | ⟨i, quiet, first⟩
      · rw [missed] at analyzed
        exact absurd none analyzed.2.1
      · have same : LogFile.minPostQuiescentWakeEpoch (replayMinQuiescentLastEpoch (logInfos garbage files)) 0
            (files j) = cut garbage ckpMaxEpoch files := same
        rw [same] at member late
        exact .missed i j quiet member (by rwa [first, ← missed])
  · rintro c (⟨start, lasts, -⟩ | ⟨i, some_, loud, same⟩ | ⟨i, j, quiet, wake, bound⟩)
    · refine Nat.le_trans below ?_
      rcases last with eq | ⟨it, member, eq⟩
      · exact Nat.le_trans (Nat.le_of_eq eq) start
      · obtain ⟨i, rfl⟩ := mem_logInfos.mp member
        rw [readInfo_lastEpoch] at eq
        exact Nat.le_trans (Nat.le_of_eq eq.symm) (lasts i)
    · have bound := active _ (mem_analyzed.mpr ⟨i, rfl⟩)
      rw [analyzeWake_lastEpoch, analyzeWake_quiescent, readInfo_lastEpoch] at bound
      rw [← same]
      refine bound ?_ (Nat.ne_of_gt (LogFile.lastEpoch_pos (follows i) some_))
      rw [← Bool.not_eq_true, readInfo_quiescent (clear i)]
      exact loud
    · obtain ⟨some_, first⟩ := least i quiet
      have seen := (readInfo_wakeEpoch (garbage j) (follows j)).1 c wake
      have latest := (maxNonzero_spec LogInfo.wakeEpoch 0 (logInfos garbage files)).2.1 _ (mem_logInfos.mpr ⟨j, rfl⟩)
      have positive := (LogFile.wakes_le (follows j) wake).2.2
      have missed : replayMinQuiescentLastEpoch (logInfos garbage files) =
          minQuiescentLastEpoch (logInfos garbage files) := by
        rw [replayMinQuiescentLastEpoch, maxWakeEpoch, if_pos (by omega)]
      have written : files j ≠ [] := by
        intro empty
        simp [empty, LogFile.wakes] at wake
      have bound' := woken _ (mem_analyzed.mpr ⟨j, rfl⟩)
      rw [analyzeWake, missed, if_pos ⟨written, some_, by omega⟩] at bound'
      obtain ⟨woke, -⟩ := LogFile.minPostQuiescentWakeEpoch_spec
        (q := minQuiescentLastEpoch (logInfos garbage files)) (follows j)
      obtain ⟨nonzero, le⟩ := woke c wake (by omega)
      exact Nat.le_trans (bound' nonzero) le

end WellFormed

/-! ### What recovery leaves -/

section Cleaning

variable {garbage : Fin n → Bool} {ckpMaxEpoch : Nat} {files : Fin n → LogFile α}

/-- The first epochs are before the checkpoint, if there is one. -/
theorem firstEpoch_lt {ckpMinEpoch : Nat} (checked : ckpChecked ckpMinEpoch ckpMaxEpoch garbage files = true)
    (i : Fin n) : files i ≠ [] → ckpMinEpoch = 0 ∨ (files i).info.firstEpoch < ckpMinEpoch := by
  intro some_
  simp only [ckpChecked, decide_eq_true_eq] at checked
  refine checked.imp id fun ⟨first, _, _⟩ => ?_
  have := (maxNonzero_spec LogInfo.firstEpoch 0 (logInfos garbage files)).2.1 _ (mem_logInfos.mpr ⟨i, rfl⟩)
  rw [readInfo, if_neg some_, ← maxFirstEpoch] at this
  omega

/-- What recovery leaves of a log and replays from it. -/
def Cleaned (minEpoch maxEpoch : Nat) (f kept : LogFile α) (replayed : List (Nat × α)) : Prop :=
  f = [] ∧ kept = [] ∧ replayed = [] ∨ f ≠ [] ∧ LogFile.Replayed minEpoch maxEpoch f kept replayed

theorem Cleaned.ops {minEpoch maxEpoch : Nat} {f kept : LogFile α} {replayed : List (Nat × α)}
    (cleaned : Cleaned minEpoch maxEpoch f kept replayed) :
    replayed = (f.ops 0).filter fun p => minEpoch ≤ p.1 ∧ p.1 < maxEpoch := by
  rcases cleaned with ⟨rfl, -, rfl⟩ | ⟨-, cleaned⟩
  · rfl
  · exact cleaned.ops

variable (follows : ∀ i, (files i).Follows 0)

include follows

theorem cleaned_spec {ckpMinEpoch c : Nat} (checked : ckpChecked ckpMinEpoch ckpMaxEpoch garbage files = true)
    (i : Fin n) : ∃ kept replayed, cleaned ckpMinEpoch c (files i) = some (kept, replayed) ∧
      Cleaned ckpMinEpoch c (files i) kept replayed := by
  by_cases empty : files i = []
  · exact ⟨[], [], by simp [cleaned, empty], Or.inl ⟨empty, rfl, rfl⟩⟩
  · obtain ⟨kept, replayed, ran, facts⟩ :=
      LogFile.replayandclean1_replayed c (follows i) empty (firstEpoch_lt checked i empty)
    exact ⟨kept, replayed, by rw [cleaned, if_neg empty, ran], Or.inr ⟨empty, facts⟩⟩

/-- Once the checkpoint's epochs pass the checks, recovery completes. -/
theorem recover_completes {ckpMinEpoch : Nat} (checked : ckpChecked ckpMinEpoch ckpMaxEpoch garbage files = true) :
    ∃ r, recover garbage ckpMinEpoch ckpMaxEpoch files = some r ∧
      r.globalLogEpoch = cut garbage ckpMaxEpoch files + 1 ∧
      ∀ i, Cleaned ckpMinEpoch (cut garbage ckpMaxEpoch files) (files i) (r.files i) (r.replayed i) := by
  have every : ∀ i, (cleaned ckpMinEpoch (cut garbage ckpMaxEpoch files) (files i)).isSome = true := by
    intro i
    obtain ⟨kept, replayed, ran, -⟩ := cleaned_spec follows (c := cut garbage ckpMaxEpoch files) checked i
    simp [ran]
  refine ⟨_, by rw [recover, if_pos checked, dif_pos every], rfl, fun i => ?_⟩
  obtain ⟨kept, replayed, ran, facts⟩ := cleaned_spec follows (c := cut garbage ckpMaxEpoch files) checked i
  simpa [ran] using facts

/-- A recovery that completes has passed the checks. -/
theorem recover_some {ckpMinEpoch : Nat} {r : Recovered n α}
    (h : recover garbage ckpMinEpoch ckpMaxEpoch files = some r) :
    ckpChecked ckpMinEpoch ckpMaxEpoch garbage files = true ∧
      r.globalLogEpoch = cut garbage ckpMaxEpoch files + 1 ∧
      ∀ i, Cleaned ckpMinEpoch (cut garbage ckpMaxEpoch files) (files i) (r.files i) (r.replayed i) := by
  by_cases checked : ckpChecked ckpMinEpoch ckpMaxEpoch garbage files = true
  · obtain ⟨r', ran, facts⟩ := recover_completes follows checked
    rw [h] at ran
    cases ran
    exact ⟨checked, facts⟩
  · rw [recover, if_neg checked] at h
    cases h

end Cleaning

end Masstree
