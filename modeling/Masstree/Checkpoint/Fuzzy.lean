import Mathlib.Data.List.Nodup
import Masstree.Checkpoint.Kvd
import Masstree.Log.Converge

/-!
# A checkpoint taken while updates go on

The row a checkpoint has of a key stands for the records published before the visit. If no worker that
read an epoch before `min_epoch` has yet to publish then, every later record is replayed from the log,
and any order of the replay gives the row of the whole history.
-/

namespace Masstree
open Msgpack (Bytes)
open ChainedReplay (Meets Waits)
open Server (rowChain Stored)

variable {n : Nat}

/-! ### Rows in a checkpoint file -/

/-- The row's offsets and column count fit their 16 bits, so that its last offset is its length. -/
structure ValueBag.Whole (r : ValueBag) : Prop where
  ncol : r.ncol < 2 ^ 16
  pos : r.pos.length = r.ncol + 1
  offsets : ∀ p ∈ r.pos, p < 2 ^ 16
  size : r.posAt r.ncol = r.s.length

theorem le16_read {x : Nat} (small : x < 2 ^ 16) :
    (UInt8.ofNat x).toNat + 256 * (UInt8.ofNat (x / 256)).toNat = x := by
  simp
  omega

theorem readOffsets_le16 (pos : List Nat) (small : ∀ p ∈ pos, p < 2 ^ 16) (body : Bytes) :
    readOffsets pos.length (pos.flatMap ValueBag.le16 ++ body) = pos := by
  induction pos with
  | nil => rfl
  | cons p pos ih =>
    have first := le16_read (small p List.mem_cons_self)
    have rest := ih fun q member => small q (List.mem_cons_of_mem _ member)
    simp only [List.flatMap_cons, ValueBag.le16, List.cons_append, List.nil_append, List.length_cons, readOffsets, rest,
      first]

theorem flatMap_le16_length (pos : List Nat) : (pos.flatMap ValueBag.le16).length = 2 * pos.length := by
  induction pos with
  | nil => rfl
  | cons p pos ih =>
    simp only [List.flatMap_cons, List.length_append, ih, ValueBag.le16, List.length_cons, List.length_nil]
    omega

/-- The bytes of a row whose offsets fit are read as the row. -/
theorem checkpointRead_bytes {r : ValueBag} (whole : r.Whole) :
    checkpointRead ⟨r.ts, r.s.take (r.posAt r.ncol)⟩ = r := by
  have bytes : r.s.take (r.posAt r.ncol) = ValueBag.le16 r.ncol ++ (r.pos.flatMap ValueBag.le16 ++ r.body) := by
    rw [whole.size, List.take_length, ValueBag.s, List.append_assoc]
  have ncol := le16_read whole.ncol
  have pos := readOffsets_le16 r.pos whole.offsets r.body
  have length := flatMap_le16_length r.pos
  rw [whole.pos] at pos length
  have body : (r.pos.flatMap ValueBag.le16 ++ r.body).drop (2 * (r.ncol + 1)) = r.body := by
    rw [← length, List.drop_left]
  simp only [checkpointRead, bytes, ValueBag.le16, List.cons_append, List.nil_append, ncol, pos, body]

/-- A row whose offsets fit is read back from the checkpoint as it was. -/
theorem checkpointRead_write {r : ValueBag} (whole : r.Whole) (live : rowIsMarker r = false) :
    (checkpointWrite r).map checkpointRead = some r := by
  simp only [checkpointWrite, live, Bool.false_eq_true, if_false, Option.map_some, ValueBag.timestamp,
    checkpointRead_bytes whole]

/-! ### The records of a key -/

/-- These records, none of them a remove, made this value of the live table. -/
structure Recorded (recs : List LogRecord) (value : Option ValueBag) : Prop where
  commands : ∀ lr ∈ recs, lr.command = .put ∨ lr.command = .replace ∨ lr.command = .modify
  even : ∀ lr ∈ recs, lr.ts % 2 = 0
  increasing : recs.Pairwise (·.ts < ·.ts)
  chained : ∀ i, (recs.getD i {}).command = .modify → ∃ j, i = j + 1 ∧ (recs.getD i {}).prevTs = (recs.getD j {}).ts
  replayed : recs.foldlM (fun row lr => apply lr row) .null = some (rowChain value)
  empty : value = none → recs = []
  last : ∀ bag, value = some bag → ∃ j, recs.length = j + 1 ∧ bag.timestamp = (recs.getD j {}).ts

theorem recorded_nil : Recorded [] none :=
  ⟨by simp, by simp, by simp, by simp, rfl, fun _ => rfl, by simp⟩

def Recorded.history {recs : List LogRecord} {value : Option ValueBag} (recorded : Recorded recs value) : History :=
  ⟨recs, recorded.commands, recorded.even, recorded.increasing, recorded.chained⟩

theorem Recorded.older {recs : List LogRecord} {value : Option ValueBag} {lr : LogRecord} {row : ValueBag}
    (recorded : Recorded recs value) (stored : Stored value lr row) : ∀ r ∈ recs, r.ts < lr.ts := by
  intro r member
  cases live : value with
  | none => simp [recorded.empty live] at member
  | some bag =>
    have newer := stored.newer bag live
    obtain ⟨j, length, stamp⟩ := recorded.last bag live
    obtain ⟨i, inside, rfl⟩ := List.mem_iff_getElem.mp member
    rw [List.getD_eq_getElem _ _ (by omega : j < recs.length)] at stamp
    rcases Nat.lt_or_ge i j with earlier | same
    · have := List.pairwise_iff_getElem.mp recorded.increasing i j inside (by omega) earlier
      omega
    · obtain rfl : i = j := by omega
      omega

theorem Recorded.snoc {recs : List LogRecord} {value : Option ValueBag} {lr : LogRecord} {row : ValueBag}
    (recorded : Recorded recs value) (stored : Stored value lr row) : Recorded (recs ++ [lr]) (some row) := by
  have at_last : (recs ++ [lr]).getD recs.length {} = lr := by
    rw [List.getD_append_right _ _ _ _ (Nat.le_refl _), Nat.sub_self]
    rfl
  refine ⟨?_, ?_, ?_, fun i modify => ?_, ?_, by simp, ?_⟩
  · intro r member
    rcases List.mem_append.mp member with old | new
    · exact recorded.commands r old
    · rw [List.mem_singleton.mp new]
      exact stored.command
  · intro r member
    rcases List.mem_append.mp member with old | new
    · exact recorded.even r old
    · rw [List.mem_singleton.mp new]
      exact stored.even
  · rw [List.pairwise_append]
    exact ⟨recorded.increasing, by simp, fun a old b new => List.mem_singleton.mp new ▸ recorded.older stored a old⟩
  · rcases Nat.lt_trichotomy i recs.length with old | rfl | out
    · rw [List.getD_append _ _ _ _ old] at modify ⊢
      obtain ⟨j, rfl, prev⟩ := recorded.chained i modify
      exact ⟨j, rfl, by rw [prev, List.getD_append _ _ _ _ (by omega)]⟩
    · rw [at_last] at modify ⊢
      obtain ⟨bag, live, prev⟩ := stored.chained modify
      obtain ⟨j, length, stamp⟩ := recorded.last bag live
      exact ⟨j, length, by rw [prev, stamp, List.getD_append _ _ _ _ (by omega)]⟩
    · rw [List.getD_eq_default _ _ (by simp; omega)] at modify
      cases modify
  · have last : [lr].foldlM (fun row lr => apply lr row) (rowChain value) = some (rowChain (some row)) := by
      rw [List.foldlM_cons, stored.applied]
      rfl
    rw [List.foldlM_append, recorded.replayed]
    exact last
  · rintro bag ⟨⟩
    exact ⟨recs.length, by simp, by rw [at_last]; exact stored.stamp⟩

def Unremoved (recs : List LogRecord) : Prop := ∀ lr ∈ recs, lr.command ≠ .remove

theorem Unremoved.of_prefix {p recs : List LogRecord} (kept : Unremoved recs) (front : p <+: recs) : Unremoved p :=
  fun lr member => kept lr (front.subset member)

namespace Kvd

/-! ### What a step does to one key -/

/-- The steps as one key sees them: its row changes by a record of the epoch its lock's holder read. -/
inductive Touches (s s' : Kvd n) (key : Bytes) : Prop where
  | apart : s'.history key = s.history key → s'.table key = s.table key →
      (∀ i e, s'.leaf key = .dated i e → s.leaf key = .dated i e ∨ e = s.logs.globalLogEpoch) → Touches s s' key
  | removed (i : Fin n) (e : Nat) (lr : LogRecord) : s.leaf key = .dated i e → lr.epoch = e → lr.command = .remove →
      s'.history key = s.history key ++ [lr] → s'.leaf key = .free → Touches s s' key
  | stored (i : Fin n) (e : Nat) (lr : LogRecord) (row : ValueBag) : s.leaf key = .dated i e → lr.epoch = e →
      Stored (s.table key) lr row → s'.history key = s.history key ++ [lr] → s'.table key = some row →
      s'.leaf key = .free → Touches s s' key

def live (s : Kvd n) (worker : Nat) : Server := { table := s.table, phantom := s.phantom, ts := s.ts worker }

def Even (s : Kvd n) : Prop := ∀ worker, (s.live worker).Even

theorem Stored.at_epoch {value : Option ValueBag} {lr : LogRecord} {row : ValueBag} (stored : Stored value lr row)
    (e : Nat) : Stored value { lr with epoch := e } row :=
  ⟨stored.command, stored.applied, stored.stamp, stored.even, stored.newer, stored.chained⟩

theorem published_touches {s : Kvd n} {i : Fin n} {worker : Nat} {site : Site} {owner key : Bytes} {request : Request}
    {e : Nat} {lr : LogRecord} {live : Server} (even : s.Even) (dated : s.leaf owner = .dated i e)
    (ran : (s.live worker).onego site request = some (live, some lr)) (named : request.key = owner)
    (encoded : request.Encoded) (keeps : request.Keeps site) :
    Touches s (s.published i worker owner e lr live) key ∧ (s.published i worker owner e lr live).Even := by
  obtain ⟨outcome, evenLive⟩ := Server.onego_outcome (even worker) encoded keeps ran
  rw [← Server.onego_key keeps ran] at named
  have table : ∃ value, live.table = Function.update s.table owner value := by
    cases outcome with
    | missed _ _ _ loud => cases loud
    | removed name old lr' _ _ loud _ named' _ table =>
      cases loud
      exact ⟨none, by rw [table, ← named', named]; rfl⟩
    | stored row lr' _ _ loud _ table =>
      cases loud
      exact ⟨some row, by rw [table, named]; rfl⟩
  have touches : Touches s (s.published i worker owner e lr live) key := by
    by_cases same : key = owner
    · subst same
      cases outcome with
      | missed _ _ _ loud => cases loud
      | removed name old lr' _ _ loud remove _ _ _ =>
        cases loud
        exact .removed i e { lr with epoch := e } dated rfl remove (by simp [published]) (by simp [published])
      | stored row lr' _ _ loud stored table =>
        cases loud
        have value : (s.live worker).table lr.key = s.table key := by rw [named]; rfl
        rw [value] at stored
        refine .stored i e { lr with epoch := e } row dated rfl (Stored.at_epoch stored e) (by simp [published]) ?_
          (by simp [published])
        simp [published, table, named]
    · obtain ⟨value, table⟩ := table
      refine .apart (by simp [published, same]) (by simp [published, table, same]) fun i' e' held => Or.inl ?_
      simpa [published, same] using held
  refine ⟨touches, fun w => ⟨?_, evenLive.phantom, evenLive.rows⟩⟩
  by_cases same : w = worker
  · subst same
    simpa [Kvd.live, published] using evenLive.ts
  · simpa [Kvd.live, published, same] using (even w).ts

theorem step_touches {s s' : Kvd n} {move : Move n} {len : Nat} (even : s.Even) (regular : s.Regular len move)
    (step : Step s move s') (key : Bytes) : Touches s s' key ∧ s'.Even := by
  cases step with
  | lock owner free =>
    refine ⟨.apart rfl rfl fun i e held => Or.inl ?_, even⟩
    by_cases same : key = owner
    · simp [same] at held
    · simpa [same] using held
  | unlock owner held =>
    refine ⟨.apart rfl rfl fun i e held => Or.inl ?_, even⟩
    by_cases same : key = owner
    · simp [same] at held
    · simpa [same] using held
  | acquire i owner locked free =>
    refine ⟨.apart rfl rfl fun i' e held => ?_, even⟩
    by_cases same : key = owner
    · simp only [same, Function.update_self, LeafLock.dated.injEq] at held
      exact Or.inr held.2.symm
    · exact Or.inl (by simpa [same] using held)
  | publish i worker site owner request e lr live dated held ran named encoded =>
    exact published_touches even dated ran named encoded (regular.keeps _ _ _ _ _ rfl)
  | _ => exact ⟨.apart rfl rfl fun _ _ => Or.inl, even⟩

/-! ### The history of a key -/

/-- A key's records are in the order of their epochs, and stand for its row until a remove. -/
structure Line (s : Kvd n) (key : Bytes) : Prop where
  epochs : (s.history key).Pairwise (·.epoch ≤ ·.epoch)
  bounded : ∀ lr ∈ s.history key, lr.epoch ≤ s.logs.globalLogEpoch
  dated : ∀ i e, s.leaf key = .dated i e → e ≤ s.logs.globalLogEpoch ∧ ∀ lr ∈ s.history key, lr.epoch ≤ e
  recorded : ∀ p, p <+: s.history key → Unremoved p → ∃ value, Recorded p value
  current : Unremoved (s.history key) → Recorded (s.history key) (s.table key)

theorem epochs_snoc {recs : List LogRecord} {lr : LogRecord} (sorted : recs.Pairwise (·.epoch ≤ ·.epoch))
    (last : ∀ r ∈ recs, r.epoch ≤ lr.epoch) : (recs ++ [lr]).Pairwise (·.epoch ≤ ·.epoch) := by
  rw [List.pairwise_append]
  exact ⟨sorted, by simp, fun a old b new => List.mem_singleton.mp new ▸ last a old⟩

theorem step_line {s s' : Kvd n} {move : Move n} {key : Bytes} {len : Nat} (even : s.Even) (line : s.Line key)
    (regular : s.Regular len move) (step : Step s move s') : s'.Line key := by
  have later := step_epoch_le step
  have grown : ∀ {lr : LogRecord} {e : Nat}, (∀ r ∈ s.history key, r.epoch ≤ e) → e ≤ s.logs.globalLogEpoch →
      lr.epoch = e → s'.history key = s.history key ++ [lr] → s'.leaf key = .free →
      (s'.history key).Pairwise (·.epoch ≤ ·.epoch) ∧ (∀ r ∈ s'.history key, r.epoch ≤ s'.logs.globalLogEpoch) ∧
      ∀ i e, s'.leaf key = .dated i e → e ≤ s'.logs.globalLogEpoch ∧ ∀ r ∈ s'.history key, r.epoch ≤ e := by
    intro lr e last bound epoch history free
    rw [history]
    refine ⟨epochs_snoc line.epochs (by rwa [epoch]), fun r member => ?_, by simp [free]⟩
    rcases List.mem_append.mp member with old | new
    · exact Nat.le_trans (line.bounded r old) later
    · rw [List.mem_singleton.mp new]
      omega
  cases (step_touches even regular step key).1 with
  | apart history table leaf =>
    refine ⟨by rw [history]; exact line.epochs, fun lr member => ?_, fun i e held => ?_, by rw [history]; exact line.recorded,
      by rw [history, table]; exact line.current⟩
    · rw [history] at member
      exact Nat.le_trans (line.bounded lr member) later
    · rw [history]
      rcases leaf i e held with old | rfl
      · have := line.dated i e old
        exact ⟨by omega, this.2⟩
      · exact ⟨later, line.bounded⟩
  | removed i e lr dated epoch remove history free =>
    have gone : ¬ Unremoved (s'.history key) := fun kept => kept lr (by simp [history]) remove
    obtain ⟨bound, last⟩ := line.dated i e dated
    obtain ⟨sorted, bounded, leaf⟩ := grown last bound epoch history free
    refine ⟨sorted, bounded, leaf, fun p front kept => ?_, fun kept => absurd kept gone⟩
    rw [history] at front
    rcases List.prefix_concat_iff.mp front with rfl | old
    · exact absurd kept (by rw [← history]; exact gone)
    · exact line.recorded p old kept
  | stored i e lr row dated epoch stored history table free =>
    obtain ⟨bound, last⟩ := line.dated i e dated
    obtain ⟨sorted, bounded, leaf⟩ := grown last bound epoch history free
    have whole : Unremoved (s'.history key) → Recorded (s'.history key) (s'.table key) := by
      intro kept
      rw [history] at kept ⊢
      rw [table]
      exact (line.current (kept.of_prefix (List.prefix_append _ _))).snoc stored
    refine ⟨sorted, bounded, leaf, fun p front kept => ?_, whole⟩
    rw [history] at front
    rcases List.prefix_concat_iff.mp front with rfl | old
    · rw [← history] at kept ⊢
      exact ⟨_, whole kept⟩
    · exact line.recorded p old kept

/-! ### The checkpoint's row of a key -/

/-- The checkpoint's row stands for the records seen, and the rest are of its epochs or later. -/
structure Covers (s : Kvd n) (key : Bytes) (c : Checkpoint) (maxEpoch : Nat) : Prop where
  started : c.minEpoch ≤ s.logs.globalLogEpoch
  seen : c.seen key ≤ (s.history key).length
  late : ∀ lr ∈ (s.history key).drop (c.seen key), c.minEpoch ≤ lr.epoch
  dated : ∀ i e, s.leaf key = .dated i e → c.minEpoch ≤ e
  early : ∀ lr ∈ (s.history key).take (c.seen key), lr.epoch ≤ maxEpoch
  row : Unremoved ((s.history key).take (c.seen key)) → Recorded ((s.history key).take (c.seen key)) (c.load key)

theorem step_covers {s s' : Kvd n} {move : Move n} {key : Bytes} {c : Checkpoint} {len top top' : Nat} (even : s.Even)
    (covers : s.Covers key c top) (higher : top ≤ top') (regular : s.Regular len move) (step : Step s move s') :
    s'.Covers key c top' := by
  have started := Nat.le_trans covers.started (step_epoch_le step)
  have grown : ∀ {lr : LogRecord} {i : Fin n} {e : Nat}, s.leaf key = .dated i e → lr.epoch = e →
      s'.history key = s.history key ++ [lr] → s'.leaf key = .free → s'.Covers key c top' := by
    intro lr i e dated epoch history free
    have taken : (s'.history key).take (c.seen key) = (s.history key).take (c.seen key) := by
      rw [history, List.take_append_of_le_length covers.seen]
    refine ⟨started, ?_, fun r member => ?_, by simp [free], ?_, by rw [taken]; exact covers.row⟩
    · rw [history, List.length_append]
      exact Nat.le_trans covers.seen (Nat.le_add_right _ _)
    · rw [history, List.drop_append_of_le_length covers.seen] at member
      rcases List.mem_append.mp member with old | new
      · exact covers.late r old
      · rw [List.mem_singleton.mp new, epoch]
        exact covers.dated i e dated
    · rw [taken]
      exact fun r member => Nat.le_trans (covers.early r member) higher
  cases (step_touches even regular step key).1 with
  | apart history table leaf =>
    refine ⟨started, by rw [history]; exact covers.seen, by rw [history]; exact covers.late, fun i e held => ?_, ?_,
      by rw [history]; exact covers.row⟩
    · rcases leaf i e held with old | rfl
      · exact covers.dated i e old
      · exact covers.started
    · rw [history]
      exact fun r member => Nat.le_trans (covers.early r member) higher
  | removed i e lr dated epoch _ history free => exact grown dated epoch history free
  | stored i e lr row dated epoch _ history _ free => exact grown dated epoch history free

/-- At a visit of `key`, no worker that read an epoch before the checkpoint's has yet to publish the key, and
the key's row has fewer than 2^16 bytes. -/
def Fenced (key : Bytes) (s : Kvd n) (move : Move n) : Prop :=
  ∀ keys, move = .visit keys → keys key = true → ∀ c, s.checkpointer = .scanning c → c.visited key = false →
    (∀ i e, s.leaf key = .dated i e → c.minEpoch ≤ e) ∧ ∀ row, s.table key = some row → row.Whole

/-- The row written at a visit is the live row. -/
theorem visit_covers {s : Kvd n} {key : Bytes} {keys : Bytes → Bool} {c : Checkpoint} (even : s.Even)
    (line : s.Line key) (started : c.minEpoch ≤ s.logs.globalLogEpoch)
    (covers : c.visited key = true → s.Covers key c s.logs.globalLogEpoch)
    (fenced : keys key = true → c.visited key = false →
      (∀ i e, s.leaf key = .dated i e → c.minEpoch ≤ e) ∧ ∀ row, s.table key = some row → row.Whole)
    (visited : (s.visit keys c).visited key = true) : s.Covers key (s.visit keys c) s.logs.globalLogEpoch := by
  by_cases before : c.visited key = true
  · have old := covers before
    have seen : (s.visit keys c).seen key = c.seen key := by simp [visit, before]
    have load : (s.visit keys c).load key = c.load key := by simp [visit, Checkpoint.load, before]
    exact ⟨started, by rw [seen]; exact old.seen, by rw [seen]; exact old.late, old.dated, by rw [seen]; exact old.early,
      by rw [seen, load]; exact old.row⟩
  · have now : keys key = true := by simpa [visit, before] using visited
    obtain ⟨dated, whole⟩ := fenced now (by simpa using before)
    have seen : (s.visit keys c).seen key = (s.history key).length := by simp [visit, before, now]
    have load : (s.visit keys c).load key = s.table key := by
      simp only [visit, Checkpoint.load, before, now, Bool.false_eq_true, if_false, if_true]
      cases found : s.table key with
      | none => rfl
      | some row =>
        have live : rowIsMarker row = false := by
          have := (even 0).rows key row found
          simp [rowIsMarker, this.1]
        exact checkpointRead_write (whole row found) live
    refine ⟨started, Nat.le_of_eq seen, ?_, dated, ?_, ?_⟩
    · simp [seen]
    · rw [seen, List.take_length]
      exact line.bounded
    · rw [seen, load, List.take_length]
      exact line.current

structure Inv (key : Bytes) (s : Kvd n) : Prop where
  even : s.Even
  line : s.Line key
  scanning : ∀ c, s.checkpointer = .scanning c → c.minEpoch ≤ s.logs.globalLogEpoch ∧
    (c.visited key = true → s.Covers key c s.logs.globalLogEpoch)
  uncommitted : ∀ c, s.checkpointer = .uncommitted c → s.Covers key c c.maxEpoch
  committed : ∀ c, s.committed = some c → s.Covers key c c.maxEpoch

theorem step_inv {s s' : Kvd n} {move : Move n} {key : Bytes} {len : Nat} (inv : s.Inv key)
    (regular : s.Regular len move) (fenced : s.Fenced key move) (step : Step s move s') : s'.Inv key := by
  have even := (step_touches inv.even regular step key).2
  have line := step_line inv.even inv.line regular step
  have later := step_epoch_le step
  have held : ∀ c top top', top ≤ top' → s.Covers key c top → s'.Covers key c top' :=
    fun c top top' higher covers => step_covers inv.even covers higher regular step
  have same : ∀ c, c.minEpoch ≤ s.logs.globalLogEpoch ∧ (c.visited key = true → s.Covers key c s.logs.globalLogEpoch) →
      c.minEpoch ≤ s'.logs.globalLogEpoch ∧ (c.visited key = true → s'.Covers key c s'.logs.globalLogEpoch) :=
    fun c ⟨started, covers⟩ => ⟨Nat.le_trans started later, fun visited => held c _ _ later (covers visited)⟩
  have old : ∀ c, s.Covers key c c.maxEpoch → s'.Covers key c c.maxEpoch := fun c => held c _ _ (Nat.le_refl _)
  cases step with
  | start ready =>
    refine ⟨even, line, ?_, fun _ other => (by cases other), fun c done => old c (inv.committed c done)⟩
    rintro c ⟨⟩
    exact ⟨Nat.le_refl _, fun visited => by cases visited⟩
  | visit keys c scanning =>
    obtain ⟨started, covers⟩ := inv.scanning c scanning
    refine ⟨even, line, ?_, fun _ other => (by cases other), fun c done => old c (inv.committed c done)⟩
    rintro c' ⟨⟩
    have covered := visit_covers inv.even inv.line started covers (fun now fresh => fenced keys rfl now c scanning fresh)
    exact ⟨started, fun visited => ⟨started, (covered visited).seen, (covered visited).late, (covered visited).dated,
      (covered visited).early, (covered visited).row⟩⟩
  | prepare c scanning whole =>
    obtain ⟨started, covers⟩ := inv.scanning c scanning
    refine ⟨even, line, fun _ other => (by cases other), ?_, fun c done => old c (inv.committed c done)⟩
    rintro c' ⟨⟩
    have covered := covers (whole key)
    exact ⟨started, covered.seen, covered.late, covered.dated, covered.early, covered.row⟩
  | commit c ready _ =>
    refine ⟨even, line, fun _ other => (by cases other), fun _ other => (by cases other), ?_⟩
    rintro c' ⟨⟩
    exact old c (inv.uncommitted c ready)
  | _ => exact ⟨even, line, fun c now => same c (inv.scanning c now), fun c now => old c (inv.uncommitted c now),
      fun c done => old c (inv.committed c done)⟩

theorem started_inv (logs : Logset n LogRecord) (key : Bytes) : Inv key { logs } := by
  refine ⟨fun _ => Server.even_initial, ⟨.nil, by simp, by simp, fun p front _ => ?_, fun _ => recorded_nil⟩, ?_, ?_, ?_⟩
  · rw [List.prefix_nil.mp front]
    exact ⟨none, recorded_nil⟩
  · rintro c ⟨⟩
  · rintro c ⟨⟩
  · rintro c ⟨⟩

/-! ### Recovery from the checkpoint -/

/-- The records of a key with epochs below a cut, oldest first. -/
def below (s : Kvd n) (key : Bytes) (c : Nat) : List LogRecord := (s.history key).filter (·.epoch < c)

/-- In epoch order, the records below a cut are a prefix. -/
theorem filter_epoch_prefix {recs : List LogRecord} (sorted : recs.Pairwise (·.epoch ≤ ·.epoch)) (c : Nat) :
    recs.filter (·.epoch < c) <+: recs := by
  induction recs with
  | nil => exact List.prefix_rfl
  | cons lr recs ih =>
    obtain ⟨first, rest⟩ := List.pairwise_cons.mp sorted
    by_cases early : lr.epoch < c
    · rw [List.filter_cons_of_pos (by simpa using early)]
      exact (List.prefix_cons_inj lr).mpr (ih rest)
    · have none : (lr :: recs).filter (·.epoch < c) = [] := by
        refine List.filter_eq_nil_iff.mpr fun r member => ?_
        have : c ≤ r.epoch := by
          rcases List.mem_cons.mp member with rfl | later
          · omega
          · have := first r later
            omega
        simpa using this
      rw [none]
      exact List.nil_prefix

/-- Replay of these records, by number, from a row. -/
def replayOrder (recs : List LogRecord) (order : List Nat) (row : RowChain) : Option RowChain :=
  order.foldlM (fun row i => apply (recs.getD i {}) row) row

/-- A committed checkpoint and the records from its `min_epoch` to the cut give the key the row that all the
records before the cut give it. -/
theorem below_replays {s : Kvd n} {key : Bytes} {ckp : Checkpoint} {c : Nat} {order : List Nat} (inv : s.Inv key)
    (committed : s.committed = some ckp) (past : ckp.maxEpoch < c) (unremoved : Unremoved (s.below key c)) (once : order.Nodup)
    (replayed : ∀ i, i ∈ order ↔ i < (s.below key c).length ∧ ckp.minEpoch ≤ ((s.below key c).getD i {}).epoch)
    (fits : ∀ done i rest, order = done ++ i :: rest →
      Waits (fun j => ((s.below key c).getD j {}).command ≠ .modify) (ckp.seen key) done i →
      ((s.below key c).getD i {}).val.length + sizeofDeltaMarker < 2 ^ 16) :
    ∃ final, (s.below key c).foldlM (fun row lr => apply lr row) .null = some final ∧ final.markers = 0 ∧
      replayOrder (s.below key c) order (rowChain (ckp.load key)) = some final := by
  have covers := inv.committed ckp committed
  have front := filter_epoch_prefix inv.line.epochs c
  change s.below key c <+: s.history key at front
  generalize recsEq : s.below key c = recs at *
  obtain ⟨value, recorded⟩ := inv.line.recorded recs front unremoved
  -- All that the visit saw is before the cut.
  have seen : (s.history key).take (ckp.seen key) <+: recs := by
    have below : ((s.history key).take (ckp.seen key)).filter (·.epoch < c) = (s.history key).take (ckp.seen key) := by
      refine List.filter_eq_self.mpr fun lr member => ?_
      have := covers.early lr member
      simp
      omega
    rw [← below, ← recsEq]
    exact (List.take_prefix _ _).filter _
  have short : ckp.seen key ≤ recs.length := by
    have := seen.length_le
    rwa [List.length_take_of_le covers.seen] at this
  have taken : recs.take (ckp.seen key) = (s.history key).take (ckp.seen key) := by
    rw [List.prefix_iff_eq_take.mp seen, List.length_take_of_le covers.seen]
  have loaded := covers.row (unremoved.of_prefix seen)
  have base : recorded.history.base (ckp.seen key) = rowChain (ckp.load key) := by
    rw [History.base, History.inOrder]
    change (List.foldlM (fun row lr => apply lr row) .null (recs.take (ckp.seen key))).getD .null = _
    rw [taken, loaded.replayed, Option.getD_some]
  have live : recorded.history.inOrder recorded.history.length = some (rowChain value) := by
    rw [History.inOrder]
    change List.foldlM (fun row lr => apply lr row) .null (recs.take recs.length) = _
    rw [List.take_length, recorded.replayed]
  have meets : Meets (ckp.seen key) recorded.history.length order := by
    refine ⟨fun i late inside => ?_, fun i member => ((replayed i).mp member).1⟩
    have inside : i < recs.length := inside
    refine List.count_eq_one_of_mem once ((replayed i).mpr ⟨inside, covers.late _ ?_⟩)
    obtain ⟨rest, whole⟩ := front
    rw [List.getD_eq_getElem _ _ inside, ← whole, List.drop_append_of_le_length short]
    refine List.mem_append_left _ ?_
    rw [List.mem_drop_iff_getElem]
    exact ⟨i - ckp.seen key, by omega, by congr 1; omega⟩
  obtain ⟨final, plain⟩ := recorded.history.replay_converges live short meets fits
  exact ⟨rowChain value, recorded.replayed, plain, by rw [← base]; exact final⟩

end Kvd

end Masstree
