import Masstree.Log.Scan
import Masstree.Log.Waitlist

/-!
# The bytes of a log

The bytes `loginfo::record` appends, and the loop of `replayandclean1` over them. `logrec_kv::store` and
`logrec_kvdelta::store` leave the last four bytes of a record as the buffer had them.
-/

namespace Masstree
open Msgpack (Bytes)

/-- The `n` bytes of a number in the machine's little-endian order. -/
def toLeOrder : Nat → Nat → Bytes
  | 0, _ => []
  | n + 1, x => UInt8.ofNat x :: toLeOrder n (x / 256)

namespace LogBytes

def storeBase (command : LogCommand) : Bytes := toLeOrder 4 command.code ++ toLeOrder 4 8

def storeEpoch (e : Nat) : Bytes := toLeOrder 4 LogCommand.epoch.code ++ (toLeOrder 4 16 ++ toLeOrder 8 e)

def storeKv (r : LogRecord) (slack : Bytes) : Bytes :=
  toLeOrder 4 r.command.code ++ (toLeOrder 4 (24 + r.key.length + r.val.length) ++ (toLeOrder 8 r.ts ++
    (toLeOrder 4 r.key.length ++ (r.key ++ (r.val ++ slack)))))

def storeKvdelta (r : LogRecord) (slack : Bytes) : Bytes :=
  toLeOrder 4 r.command.code ++ (toLeOrder 4 (32 + r.key.length + r.val.length) ++ (toLeOrder 8 r.ts ++
    (toLeOrder 8 r.prevTs ++ (toLeOrder 4 r.key.length ++ (r.key ++ (r.val ++ slack))))))

/-- A file that holds these records, and then the bytes `tail`. -/
inductive Stores (tail : Bytes) : LogFile LogRecord → Bytes → Prop where
  | nil : Stores tail [] tail
  | epoch {e f s} : Stores tail f s → Stores tail (.epoch e :: f) (storeEpoch e ++ s)
  | wake {f s} : Stores tail f s → Stores tail (.wake :: f) (storeBase .wake ++ s)
  | quiesce {f s} : Stores tail f s → Stores tail (.quiesce :: f) (storeBase .quiesce ++ s)
  | kv {r slack f s} : r.command ≠ .modify → slack.length = 4 → Stores tail f s →
      Stores tail (.op r :: f) (storeKv r slack ++ s)
  | kvdelta {r slack f s} : r.command = .modify → slack.length = 4 → Stores tail f s →
      Stores tail (.op r :: f) (storeKvdelta r slack ++ s)

/-- The operation run for a record. A data record with an empty key is passed over. -/
def run (epoch : Nat) : Option (LogEntry LogRecord) → List (Nat × LogRecord)
  | some (.op r) => if r.key.isEmpty then [] else [(epoch, r)]
  | _ => []

/-- An epoch record sets the loop's epoch, and may be where the kept log begins. -/
def enter (minEpoch : Nat) (r : LogFile.Replay LogRecord) : Option (LogEntry LogRecord) → LogFile.Replay LogRecord
  | some (.epoch e) =>
    { r with epoch := e
             repbegin := if minEpoch ≠ 0 ∧ circularLess e minEpoch ∨ minEpoch = 0 ∧ r.repbegin = none
               then some r.pos else r.repbegin }
  | _ => r

/-- The loop of `replayandclean1`. Positions count bytes. A failed assertion on `repbegin` is `none`. -/
def replayLoop (minEpoch maxEpoch : Nat) : Nat → Bytes → LogFile.Replay LogRecord → Option (LogFile.Replay LogRecord)
  | 0, _, _ => none
  | fuel + 1, s, r =>
    if s.isEmpty then some r
    else do
      match ← extract s with
      | .fail => some r
      | .next entry rest =>
        let nextpos := r.pos + (s.length - rest.length)
        let r := enter minEpoch r entry
        if (entry matches some (.epoch _)) ∧ ¬ circularLess r.epoch maxEpoch then
          if r.repbegin.isNone then none else some { r with repend := some nextpos }
        else if r.epoch = 0 ∨ minEpoch ≠ 0 ∧ circularLess r.epoch minEpoch then
          replayLoop minEpoch maxEpoch fuel rest
            { r with pos := nextpos, repend := if r.repbegin.isSome then some nextpos else r.repend }
        else if r.repbegin.isNone then none
        else
          replayLoop minEpoch maxEpoch fuel rest
            { r with pos := nextpos, repend := some nextpos, replayed := r.replayed ++ run r.epoch entry }

/-- The operations `replayandclean1` runs, with their epochs. -/
def replayScan (minEpoch maxEpoch : Nat) (file : Bytes) : Option (List (Nat × LogRecord)) :=
  (replayLoop minEpoch maxEpoch (file.length + 1) file {}).map (·.replayed)

/-- The records come back one by one, `info` reads all of them, and replay runs those of the epochs it is asked
for. -/
structure ReadsBack (entries : LogFile LogRecord) (tail file : Bytes) : Prop where
  extract : extractScan file = some (entries, tail.length)
  info : infoScan file = some (entries.info, tail.length)
  replay : ∀ minEpoch maxEpoch, minEpoch < 2 ^ 63 → maxEpoch < 2 ^ 63 →
    replayScan minEpoch maxEpoch file = (entries.replayandclean1 minEpoch maxEpoch).map (·.2)

/-! ### The fields of a stored record -/

@[simp] theorem toLeOrder_length (n x : Nat) : (toLeOrder n x).length = n := by
  induction n generalizing x with
  | zero => rfl
  | succ n ih => simp [toLeOrder, ih]

theorem leOrder_toLeOrder (n : Nat) {x : Nat} (bound : x < 256 ^ n) : leOrder (toLeOrder n x) = x := by
  induction n generalizing x with
  | zero =>
    have : x = 0 := by simpa using bound
    subst this
    rfl
  | succ n ih =>
    have high : x / 256 < 256 ^ n := by
      rw [Nat.pow_succ] at bound
      omega
    have low : (UInt8.ofNat x).toNat = x % 256 := UInt8.toNat_ofNat'
    have step : leOrder (toLeOrder (n + 1) x) = (UInt8.ofNat x).toNat + 256 * leOrder (toLeOrder n (x / 256)) := rfl
    rw [step, ih high, low]
    omega

theorem fieldAt_append {pre s : Bytes} {offset n : Nat} (past : pre.length ≤ offset) :
    fieldAt offset n (pre ++ s) = fieldAt (offset - pre.length) n s := by
  rw [fieldAt, List.drop_append, List.drop_eq_nil_of_le past, List.nil_append]
  rfl

theorem fieldAt_toLeOrder {n x : Nat} (s : Bytes) (bound : x < 256 ^ n) : fieldAt 0 n (toLeOrder n x ++ s) = x := by
  have here : (toLeOrder n x ++ s).take n = toLeOrder n x := by
    rw [List.take_append_of_le_length (by simp), List.take_of_length_le (by simp)]
  rw [fieldAt, List.drop_zero, here, leOrder_toLeOrder n bound]

theorem bytes?_append {pre s : Bytes} {offset n : Nat} (past : pre.length ≤ offset) :
    bytes? offset n (pre ++ s) = bytes? (offset - pre.length) n s := by
  unfold bytes?
  rw [List.drop_append, List.drop_eq_nil_of_le past, List.nil_append, List.length_append]
  congr 1
  exact propext ⟨fun _ => by omega, fun _ => by omega⟩

theorem bytes?_here (x s : Bytes) : bytes? 0 x.length (x ++ s) = some x := by
  rw [bytes?, if_pos (by simp), List.drop_zero, List.take_left]

theorem ofCode_code (c : LogCommand) : LogCommand.ofCode c.code = some c := by cases c <;> rfl

theorem code_lt (c : LogCommand) : c.code < 256 ^ 4 := by cases c <;> decide

/-- A record of `n` bytes with this command, and what follows it. -/
structure Framed (c : LogCommand) (n : Nat) (rest s : Bytes) : Prop where
  whole : Whole s
  command : command s = some c
  size : size s = n
  rest : s.drop n = rest

theorem framed (c : LogCommand) {n : Nat} {body : Bytes} (rest : Bytes) (length : n = 8 + body.length)
    (small : n < 2 ^ 32) :
    Framed c n rest (toLeOrder 4 c.code ++ (toLeOrder 4 n ++ (body ++ rest))) := by
  have sized : size (toLeOrder 4 c.code ++ (toLeOrder 4 n ++ (body ++ rest))) = n := by
    rw [size, fieldAt_append (by simp)]
    simpa using fieldAt_toLeOrder (body ++ rest) (Nat.lt_of_lt_of_le small (by decide))
  refine ⟨⟨?_, ?_, ?_⟩, ?_, sized, ?_⟩
  · simp
    omega
  · omega
  · rw [sized]
    simp
    omega
  · rw [command, fieldAt_toLeOrder _ (code_lt c), ofCode_code]
  · rw [← List.append_assoc, ← List.append_assoc]
    exact List.drop_left' (by simp; omega)

/-- What `store` keeps apart from the record's bytes. -/
structure Storable (r : LogRecord) : Prop where
  command : r.command = .put ∨ r.command = .replace ∨ r.command = .remove ∨ r.command = .modify
  prevTs : r.command ≠ .modify → r.prevTs = 0
  epoch : r.epoch = 0
  ts_lt : r.ts < 2 ^ 64
  prevTs_lt : r.prevTs < 2 ^ 64
  size_lt : r.storedSize < 2 ^ 32

section fields
variable {r : LogRecord} {slack rest : Bytes}

theorem kv_ts (storable : Storable r) : fieldAt 8 8 (storeKv r slack ++ rest) = r.ts := by
  simp only [storeKv, List.append_assoc]
  rw [fieldAt_append (by simp), fieldAt_append (by simp)]
  simp only [toLeOrder_length]
  exact fieldAt_toLeOrder _ storable.ts_lt

theorem kv_keylen (storable : Storable r) (kv : r.command ≠ .modify) :
    fieldAt 16 4 (storeKv r slack ++ rest) = r.key.length := by
  have small := storable.size_lt
  rw [LogRecord.storedSize, if_neg kv] at small
  simp only [storeKv, List.append_assoc]
  rw [fieldAt_append (by simp), fieldAt_append (by simp), fieldAt_append (by simp)]
  simp only [toLeOrder_length]
  exact fieldAt_toLeOrder _ (by omega)

theorem kv_key : bytes? 20 r.key.length (storeKv r slack ++ rest) = some r.key := by
  simp only [storeKv, List.append_assoc]
  rw [bytes?_append (by simp), bytes?_append (by simp), bytes?_append (by simp), bytes?_append (by simp)]
  simp only [toLeOrder_length]
  exact bytes?_here _ _

theorem kv_val : bytes? (20 + r.key.length) r.val.length (storeKv r slack ++ rest) = some r.val := by
  have before : (toLeOrder 4 r.command.code ++ toLeOrder 4 (24 + r.key.length + r.val.length) ++ toLeOrder 8 r.ts ++
      toLeOrder 4 r.key.length ++ r.key).length = 20 + r.key.length := by simp; omega
  have shape : storeKv r slack ++ rest = (toLeOrder 4 r.command.code ++
      toLeOrder 4 (24 + r.key.length + r.val.length) ++ toLeOrder 8 r.ts ++ toLeOrder 4 r.key.length ++ r.key) ++
        (r.val ++ (slack ++ rest)) := by simp [storeKv]
  rw [shape, bytes?_append (Nat.le_of_eq before), before, Nat.sub_self]
  exact bytes?_here _ _

theorem kvdelta_ts (storable : Storable r) : fieldAt 8 8 (storeKvdelta r slack ++ rest) = r.ts := by
  simp only [storeKvdelta, List.append_assoc]
  rw [fieldAt_append (by simp), fieldAt_append (by simp)]
  simp only [toLeOrder_length]
  exact fieldAt_toLeOrder _ storable.ts_lt

theorem kvdelta_prevTs (storable : Storable r) : fieldAt 16 8 (storeKvdelta r slack ++ rest) = r.prevTs := by
  simp only [storeKvdelta, List.append_assoc]
  rw [fieldAt_append (by simp), fieldAt_append (by simp), fieldAt_append (by simp)]
  simp only [toLeOrder_length]
  exact fieldAt_toLeOrder _ storable.prevTs_lt

theorem kvdelta_keylen (storable : Storable r) (delta : r.command = .modify) :
    fieldAt 24 4 (storeKvdelta r slack ++ rest) = r.key.length := by
  have small := storable.size_lt
  rw [LogRecord.storedSize, if_pos delta] at small
  simp only [storeKvdelta, List.append_assoc]
  rw [fieldAt_append (by simp), fieldAt_append (by simp), fieldAt_append (by simp), fieldAt_append (by simp)]
  simp only [toLeOrder_length]
  exact fieldAt_toLeOrder _ (by omega)

theorem kvdelta_key : bytes? 28 r.key.length (storeKvdelta r slack ++ rest) = some r.key := by
  simp only [storeKvdelta, List.append_assoc]
  rw [bytes?_append (by simp), bytes?_append (by simp), bytes?_append (by simp), bytes?_append (by simp),
    bytes?_append (by simp)]
  simp only [toLeOrder_length]
  exact bytes?_here _ _

theorem kvdelta_val : bytes? (28 + r.key.length) r.val.length (storeKvdelta r slack ++ rest) = some r.val := by
  have before : (toLeOrder 4 r.command.code ++ toLeOrder 4 (32 + r.key.length + r.val.length) ++ toLeOrder 8 r.ts ++
      toLeOrder 8 r.prevTs ++ toLeOrder 4 r.key.length ++ r.key).length = 28 + r.key.length := by simp; omega
  have shape : storeKvdelta r slack ++ rest = (toLeOrder 4 r.command.code ++
      toLeOrder 4 (32 + r.key.length + r.val.length) ++ toLeOrder 8 r.ts ++ toLeOrder 8 r.prevTs ++
        toLeOrder 4 r.key.length ++ r.key) ++ (r.val ++ (slack ++ rest)) := by simp [storeKvdelta]
  rw [shape, bytes?_append (Nat.le_of_eq before), before, Nat.sub_self]
  exact bytes?_here _ _

end fields

section stored
variable {r : LogRecord} {slack rest : Bytes} (storable : Storable r) (four : slack.length = 4)
include storable four

theorem storeKv_framed (kv : r.command ≠ .modify) :
    Framed r.command (24 + r.key.length + r.val.length) rest (storeKv r slack ++ rest) := by
  have small := storable.size_lt
  rw [LogRecord.storedSize, if_neg kv] at small
  have body := @framed r.command (24 + r.key.length + r.val.length)
    (toLeOrder 8 r.ts ++ (toLeOrder 4 r.key.length ++ (r.key ++ (r.val ++ slack)))) rest (by simp; omega) small
  simpa [storeKv] using body

theorem storeKvdelta_framed (delta : r.command = .modify) :
    Framed .modify (32 + r.key.length + r.val.length) rest (storeKvdelta r slack ++ rest) := by
  have small := storable.size_lt
  rw [LogRecord.storedSize, if_pos delta] at small
  have body := @framed r.command (32 + r.key.length + r.val.length)
    (toLeOrder 8 r.ts ++ (toLeOrder 8 r.prevTs ++ (toLeOrder 4 r.key.length ++ (r.key ++ (r.val ++ slack))))) rest
    (by simp; omega) small
  rw [delta] at body
  simpa [storeKvdelta, delta] using body

theorem extract_storeKv (kv : r.command ≠ .modify) : extract (storeKv r slack ++ rest) =
    some (if maxKeyLen < r.key.length then .fail else .next (some (.op r)) rest) := by
  obtain ⟨whole, command, size, after⟩ := @storeKv_framed r slack rest storable four kv
  have small := storable.size_lt
  rw [LogRecord.storedSize, if_neg kv] at small
  have parsed : extract (storeKv r slack ++ rest) =
      extractKv r.command (24 + r.key.length + r.val.length) (storeKv r slack ++ rest) := by
    rw [extract_whole whole, command, size]
    rcases storable.command with h | h | h | h
    · rw [h]
    · rw [h]
    · rw [h]
    · exact absurd h kv
  have long : 24 + r.key.length + r.val.length ≤ (storeKv r slack ++ rest).length := by
    rw [← size]
    exact whole.2.2
  have keylen : field? 16 4 (storeKv r slack ++ rest) = some r.key.length := by
    rw [field?_eq (by omega), kv_keylen storable kv]
  have ts : field? 8 8 (storeKv r slack ++ rest) = some r.ts := by rw [field?_eq (by omega), kv_ts storable]
  rw [parsed, extractKv, if_neg (by omega), keylen]
  simp only [Option.bind_eq_bind, Option.bind_some]
  by_cases fits : maxKeyLen < r.key.length
  · rw [if_pos (.inl fits), if_pos fits]
  · have room : 24 + r.key.length + r.val.length - 24 - r.key.length = r.val.length := by omega
    have same : { command := r.command, key := r.key, val := r.val, ts := r.ts } = r := by
      obtain ⟨-, prevTs, epoch, -, -, -⟩ := storable
      cases r
      simp_all
    rw [if_neg (by omega), if_neg fits, room, ts, kv_key, kv_val, after]
    simp only [Option.bind_some, same]

theorem extract_storeKvdelta (delta : r.command = .modify) : extract (storeKvdelta r slack ++ rest) =
    some (if maxKeyLen < r.key.length then .fail else .next (some (.op r)) rest) := by
  obtain ⟨whole, command, size, after⟩ := @storeKvdelta_framed r slack rest storable four delta
  have small := storable.size_lt
  rw [LogRecord.storedSize, if_pos delta] at small
  have parsed : extract (storeKvdelta r slack ++ rest) =
      extractKvdelta (32 + r.key.length + r.val.length) (storeKvdelta r slack ++ rest) := by
    rw [extract_whole whole, command, size]
  have long : 32 + r.key.length + r.val.length ≤ (storeKvdelta r slack ++ rest).length := by
    rw [← size]
    exact whole.2.2
  have keylen : field? 24 4 (storeKvdelta r slack ++ rest) = some r.key.length := by
    rw [field?_eq (by omega), kvdelta_keylen storable delta]
  have ts : field? 8 8 (storeKvdelta r slack ++ rest) = some r.ts := by
    rw [field?_eq (by omega), kvdelta_ts storable]
  have prevTs : field? 16 8 (storeKvdelta r slack ++ rest) = some r.prevTs := by
    rw [field?_eq (by omega), kvdelta_prevTs storable]
  rw [parsed, extractKvdelta, keylen]
  simp only [Option.bind_eq_bind, Option.bind_some]
  by_cases fits : maxKeyLen < r.key.length
  · rw [if_pos (.inl fits), if_pos fits]
  · have room : 32 + r.key.length + r.val.length - 32 - r.key.length = r.val.length := by omega
    have same : { command := .modify, key := r.key, val := r.val, ts := r.ts, prevTs := r.prevTs } = r := by
      obtain ⟨-, -, epoch, -, -, -⟩ := storable
      cases r
      simp_all
    rw [if_neg (by omega), if_neg fits, room, ts, prevTs, kvdelta_key, kvdelta_val, after]
    simp only [Option.bind_some, same]

end stored

/-! ### The scans of a stored file -/

/-- The key of a data record is one `extract` allows. -/
def Within : LogEntry LogRecord → Prop
  | .op r => r.key.length ≤ maxKeyLen
  | _ => True

/-- The record's fields are in the range of their types, and no epoch has reached half of its range. -/
def InRange : LogEntry LogRecord → Prop
  | .op r => Storable r
  | .epoch e => e < 2 ^ 63
  | _ => True

structure Read (entry : LogEntry LogRecord) (rest s : Bytes) : Prop where
  enough : 8 ≤ s.length
  shorter : rest.length < s.length
  next : Within entry → extract s = some (.next (some entry) rest)
  fail : ¬ Within entry → extract s = some .fail
  info : ∀ fuel x, infoLoop (fuel + 1) s x = infoLoop fuel rest (infoStep x entry)

theorem Framed.read {c : LogCommand} {n : Nat} {rest s : Bytes} (framed : Framed c n rest s)
    {entry : LogEntry LogRecord} (next : Within entry → extract s = some (.next (some entry) rest))
    (fail : ¬ Within entry → extract s = some .fail)
    (info : ∀ fuel x, infoLoop (fuel + 1) s x = infoLoop fuel rest (infoStep x entry)) : Read entry rest s := by
  obtain ⟨whole, -, size, rfl⟩ := framed
  refine ⟨whole.1, ?_, next, fail, info⟩
  rw [← size]
  exact drop_length_lt whole

theorem storeBase_framed (c : LogCommand) (rest : Bytes) : Framed c 8 rest (storeBase c ++ rest) := by
  simpa [storeBase] using @framed c 8 [] rest rfl (by decide)

theorem storeEpoch_framed (e : Nat) (rest : Bytes) : Framed .epoch 16 rest (storeEpoch e ++ rest) := by
  simpa [storeEpoch] using @framed .epoch 16 (toLeOrder 8 e) rest (by simp) (by decide)

theorem epoch_read {e : Nat} (small : e < 2 ^ 63) (rest : Bytes) : Read (.epoch e) rest (storeEpoch e ++ rest) := by
  have framed := storeEpoch_framed e rest
  obtain ⟨whole, command, size, after⟩ := id framed
  have field : fieldAt 8 8 (storeEpoch e ++ rest) = e := by
    simp only [storeEpoch, List.append_assoc]
    rw [fieldAt_append (by simp), fieldAt_append (by simp)]
    simp only [toLeOrder_length]
    exact fieldAt_toLeOrder _ (Nat.lt_of_lt_of_le small (by decide))
  refine framed.read (fun _ => ?_) (fun no => absurd trivial no) fun fuel x => ?_
  · simp only [extract_whole whole, command, size, field, after]
    rfl
  · simp only [infoLoop_whole whole, command, size, field, after]
    rfl

theorem wake_read (rest : Bytes) : Read .wake rest (storeBase .wake ++ rest) := by
  have framed := storeBase_framed .wake rest
  obtain ⟨whole, command, size, after⟩ := id framed
  refine framed.read (fun _ => ?_) (fun no => absurd trivial no) fun fuel x => ?_
  · simp only [extract_whole whole, command, size, after]
  · simp only [infoLoop_whole whole, command, size, after]

theorem quiesce_read (rest : Bytes) : Read .quiesce rest (storeBase .quiesce ++ rest) := by
  have framed := storeBase_framed .quiesce rest
  obtain ⟨whole, command, size, after⟩ := id framed
  refine framed.read (fun _ => ?_) (fun no => absurd trivial no) fun fuel x => ?_
  · simp only [extract_whole whole, command, size, after]
  · simp only [infoLoop_whole whole, command, size, after]

theorem kv_read {r : LogRecord} {slack : Bytes} (storable : Storable r) (four : slack.length = 4)
    (kv : r.command ≠ .modify) (rest : Bytes) : Read (.op r) rest (storeKv r slack ++ rest) := by
  have framed := @storeKv_framed r slack rest storable four kv
  obtain ⟨whole, command, size, after⟩ := id framed
  refine framed.read (fun within => ?_) (fun long => ?_) fun fuel x => ?_
  · rw [extract_storeKv storable four kv, if_neg (Nat.not_lt.mpr within)]
  · rw [extract_storeKv storable four kv, if_pos (Nat.lt_of_not_le long)]
  · rw [infoLoop_whole whole, command, size, after]
    rcases storable.command with h | h | h | h <;> rw [h] <;> rfl

theorem kvdelta_read {r : LogRecord} {slack : Bytes} (storable : Storable r) (four : slack.length = 4)
    (delta : r.command = .modify) (rest : Bytes) : Read (.op r) rest (storeKvdelta r slack ++ rest) := by
  have framed := @storeKvdelta_framed r slack rest storable four delta
  obtain ⟨whole, command, size, after⟩ := id framed
  refine framed.read (fun within => ?_) (fun long => ?_) fun fuel x => ?_
  · rw [extract_storeKvdelta storable four delta, if_neg (Nat.not_lt.mpr within)]
  · rw [extract_storeKvdelta storable four delta, if_pos (Nat.lt_of_not_le long)]
  · rw [infoLoop_whole whole, command, size, after]
    rfl

theorem Stores.read {tail s : Bytes} {entry : LogEntry LogRecord} {f : LogFile LogRecord}
    (stores : Stores tail (entry :: f) s) (inRange : InRange entry) : ∃ rest, Stores tail f rest ∧ Read entry rest s := by
  cases stores with
  | epoch rest => exact ⟨_, rest, epoch_read inRange _⟩
  | wake rest => exact ⟨_, rest, wake_read _⟩
  | quiesce rest => exact ⟨_, rest, quiesce_read _⟩
  | kv kv four rest => exact ⟨_, rest, kv_read inRange four kv _⟩
  | kvdelta delta four rest => exact ⟨_, rest, kvdelta_read inRange four delta _⟩

section scans
variable {tail : Bytes} (torn : ¬ Whole tail)
include torn

theorem extractLoop_stores {f : LogFile LogRecord} {s : Bytes} {fuel : Nat} (stores : Stores tail f s)
    (inRange : ∀ entry ∈ f, InRange entry) (enough : s.length < fuel) :
    extractLoop fuel s = some (f, tail.length) ↔ ∀ entry ∈ f, Within entry := by
  induction f generalizing s fuel with
  | nil =>
    cases stores
    obtain ⟨fuel, rfl⟩ := Nat.exists_eq_succ_of_ne_zero (Nat.ne_of_gt (Nat.zero_lt_of_lt enough))
    exact iff_of_true (extractLoop_fail fuel (extract_torn torn)) (by simp)
  | cons entry f ih =>
    obtain ⟨rest, stores, read⟩ := stores.read (inRange entry List.mem_cons_self)
    have shorter := read.shorter
    obtain ⟨fuel, rfl⟩ := Nat.exists_eq_succ_of_ne_zero (Nat.ne_of_gt (Nat.zero_lt_of_lt enough))
    have later := @ih rest fuel stores (fun entry member => inRange entry (List.mem_cons_of_mem _ member)) (by omega)
    rw [List.forall_mem_cons]
    by_cases within : Within entry
    · rw [extractLoop_next fuel read.enough (read.next within), and_iff_right within, ← later]
      cases extractLoop fuel rest <;> simp [Prod.ext_iff]
    · rw [extractLoop_fail fuel (read.fail within)]
      simp [within]

theorem infoLoop_stores {f : LogFile LogRecord} {s : Bytes} {fuel : Nat} (x : LogInfo) (stores : Stores tail f s)
    (inRange : ∀ entry ∈ f, InRange entry) (enough : s.length < fuel) :
    infoLoop fuel s x = some (f.foldl infoStep x, tail.length) := by
  induction f generalizing s fuel x with
  | nil =>
    cases stores
    obtain ⟨fuel, rfl⟩ := Nat.exists_eq_succ_of_ne_zero (Nat.ne_of_gt (Nat.zero_lt_of_lt enough))
    exact infoLoop_torn fuel x torn
  | cons entry f ih =>
    obtain ⟨rest, stores, read⟩ := stores.read (inRange entry List.mem_cons_self)
    have shorter := read.shorter
    obtain ⟨fuel, rfl⟩ := Nat.exists_eq_succ_of_ne_zero (Nat.ne_of_gt (Nat.zero_lt_of_lt enough))
    rw [read.info, List.foldl_cons]
    exact ih _ stores (fun entry member => inRange entry (List.mem_cons_of_mem _ member)) (by omega)

end scans

/-- The records with a key, which are the ones run. -/
def named (x : Nat × LogRecord) : Bool := !x.2.key.isEmpty

/-- The loop over bytes and the loop over records have come to the same point. -/
structure InStep (bytes records : LogFile.Replay LogRecord) : Prop where
  epoch : bytes.epoch = records.epoch
  begun : bytes.repbegin.isSome = records.repbegin.isSome
  replayed : bytes.replayed = records.replayed.filter named

theorem circularLess_eq {a b : Nat} (ha : a < 2 ^ 63) (hb : b < 2 ^ 63) : circularLess a b = decide (a < b) := by
  unfold circularLess
  rw [decide_eq_decide]
  omega

theorem foldl_infoStep {f : LogFile LogRecord} (inRange : ∀ entry ∈ f, InRange entry) (x : LogInfo)
    (last : x.lastEpoch < 2 ^ 63) (wake : x.wakeEpoch < 2 ^ 63) :
    f.foldl infoStep x = f.foldl LogFile.infoStep x := by
  induction f generalizing x with
  | nil => rw [List.foldl_nil, List.foldl_nil]
  | cons entry f ih =>
    have later := fun x => ih (fun entry member => inRange entry (List.mem_cons_of_mem _ member)) x
    rw [List.foldl_cons, List.foldl_cons]
    cases entry with
    | epoch e =>
      have small : e < 2 ^ 63 := inRange (.epoch e) List.mem_cons_self
      have same : infoStep x (LogEntry.epoch e) = LogFile.infoStep x (LogEntry.epoch e : LogEntry LogRecord) := by
        simp only [infoStep, infoEpoch, LogFile.infoStep, circularLess_eq small wake, decide_eq_true_eq]
      rw [same]
      apply later
      · simpa only [LogFile.infoStep] using small
      · simp only [LogFile.infoStep]
        split
        · omega
        · exact wake
    | wake =>
      apply later <;> simpa only [infoStep] using last
    | quiesce =>
      apply later
      · simpa only [infoStep] using last
      · simpa only [infoStep] using wake
    | op r =>
      apply later
      · simpa only [infoStep] using last
      · simpa only [infoStep] using wake

theorem run_named (e : Nat) (entry : LogEntry LogRecord) : run e (some entry) = (LogFile.run e entry).filter named := by
  cases entry with
  | op r => cases h : r.key <;> simp [run, LogFile.run, named, h]
  | _ => rfl

section replay
variable {minEpoch maxEpoch : Nat} (minBound : minEpoch < 2 ^ 63) (maxBound : maxEpoch < 2 ^ 63)

theorem replayLoop_end {s : Bytes} (fuel : Nat) (r : LogFile.Replay LogRecord) (fails : extract s = some .fail) :
    replayLoop minEpoch maxEpoch (fuel + 1) s r = some r := by
  unfold replayLoop
  split
  · rfl
  · rw [fails]
    rfl

theorem replayLoop_next {s rest : Bytes} {entry : Option (LogEntry LogRecord)} (fuel : Nat)
    (r : LogFile.Replay LogRecord) (enough : 8 ≤ s.length) (goes : extract s = some (.next entry rest)) :
    ∃ nextpos, replayLoop minEpoch maxEpoch (fuel + 1) s r =
      if (entry matches some (.epoch _)) ∧ ¬ circularLess (enter minEpoch r entry).epoch maxEpoch then
        if (enter minEpoch r entry).repbegin.isNone then none else some { enter minEpoch r entry with repend := some nextpos }
      else if (enter minEpoch r entry).epoch = 0 ∨
          minEpoch ≠ 0 ∧ circularLess (enter minEpoch r entry).epoch minEpoch then
        replayLoop minEpoch maxEpoch fuel rest
          { enter minEpoch r entry with
            pos := nextpos
            repend := if (enter minEpoch r entry).repbegin.isSome then some nextpos else (enter minEpoch r entry).repend }
      else if (enter minEpoch r entry).repbegin.isNone then none
      else
        replayLoop minEpoch maxEpoch fuel rest
          { enter minEpoch r entry with
            pos := nextpos, repend := some nextpos
            replayed := (enter minEpoch r entry).replayed ++ run (enter minEpoch r entry).epoch entry } := by
  have some_ : s.isEmpty = false := by
    cases s with
    | nil => simp at enough
    | cons => rfl
  refine ⟨r.pos + (s.length - rest.length), ?_⟩
  have pos : (enter minEpoch r entry).pos = r.pos := by
    unfold enter
    split <;> rfl
  conv_lhs => unfold replayLoop
  rw [some_, if_neg Bool.false_ne_true, goes]
  rfl

include minBound in
/-- A record past the test of `max_epoch` is treated alike. -/
theorem advance_inStep {fuel nextpos : Nat} {rest : Bytes} {f : LogFile LogRecord} {entry : LogEntry LogRecord}
    {bytes records : LogFile.Replay LogRecord} (inStep : InStep bytes records) (small : records.epoch < 2 ^ 63)
    (later : ∀ bytes records, InStep bytes records → records.epoch < 2 ^ 63 →
      (replayLoop minEpoch maxEpoch fuel rest bytes).map (·.replayed) =
        (LogFile.replayLoop minEpoch maxEpoch f records).map (·.replayed.filter named)) :
    (if bytes.epoch = 0 ∨ minEpoch ≠ 0 ∧ circularLess bytes.epoch minEpoch then
        replayLoop minEpoch maxEpoch fuel rest
          { bytes with pos := nextpos, repend := if bytes.repbegin.isSome then some nextpos else bytes.repend }
      else if bytes.repbegin.isNone then none
      else
        replayLoop minEpoch maxEpoch fuel rest
          { bytes with
            pos := nextpos, repend := some nextpos, replayed := bytes.replayed ++ run bytes.epoch (some entry) }).map
        (·.replayed) =
      ((records.advance minEpoch entry).bind (LogFile.replayLoop minEpoch maxEpoch f)).map (·.replayed.filter named) := by
  obtain ⟨epoch, begun, replayed⟩ := inStep
  have none_ : bytes.repbegin.isNone = records.repbegin.isNone := by
    rw [← Option.not_isSome, begun, Option.not_isSome]
  rw [epoch, circularLess_eq small minBound, none_]
  simp only [decide_eq_true_eq]
  unfold LogFile.Replay.advance
  by_cases skipped : records.epoch = 0 ∨ minEpoch ≠ 0 ∧ records.epoch < minEpoch
  · rw [if_pos skipped, if_pos skipped]
    exact later _ _ ⟨rfl, begun, replayed⟩ small
  · rw [if_neg skipped, if_neg skipped]
    split
    · rfl
    · refine later _ _ ⟨rfl, begun, ?_⟩ small
      rw [List.filter_append, ← run_named, replayed]

include minBound in
theorem enter_inStep (maxEpoch : Nat) (f : LogFile LogRecord) {bytes records : LogFile.Replay LogRecord}
    (inStep : InStep bytes records) {e : Nat} (small : e < 2 ^ 63) :
    ∃ entered : LogFile.Replay LogRecord, entered.epoch = e ∧
      InStep (enter minEpoch bytes (some (.epoch e))) entered ∧
      LogFile.replayLoop minEpoch maxEpoch (.epoch e :: f) records =
        if maxEpoch ≤ e then
          if entered.repbegin.isNone then none else some { entered with repend := some (entered.pos + 1) }
        else (entered.advance minEpoch (.epoch e)).bind (LogFile.replayLoop minEpoch maxEpoch f) := by
  obtain ⟨-, begun, replayed⟩ := inStep
  refine ⟨{ records with
    epoch := e
    repbegin := if minEpoch ≠ 0 ∧ e < minEpoch ∨ minEpoch = 0 ∧ records.repbegin = none then some records.pos
      else records.repbegin }, rfl, ⟨rfl, ?_, replayed⟩, rfl⟩
  have unset : bytes.repbegin = none ↔ records.repbegin = none := by
    rw [← Option.isNone_iff_eq_none, ← Option.isNone_iff_eq_none, ← Option.not_isSome, begun, Option.not_isSome]
  simp only [enter, circularLess_eq small minBound, decide_eq_true_eq, unset]
  split
  · rfl
  · exact begun

include minBound maxBound in
theorem replayLoop_stores {tail : Bytes} (torn : ¬ Whole tail) {f : LogFile LogRecord} {s : Bytes} {fuel : Nat}
    {bytes records : LogFile.Replay LogRecord} (stores : Stores tail f s) (inRange : ∀ entry ∈ f, InRange entry)
    (within : ∀ entry ∈ f, Within entry) (enough : s.length < fuel) (inStep : InStep bytes records)
    (small : records.epoch < 2 ^ 63) :
    (replayLoop minEpoch maxEpoch fuel s bytes).map (·.replayed) =
      (LogFile.replayLoop minEpoch maxEpoch f records).map (·.replayed.filter named) := by
  induction f generalizing s fuel bytes records with
  | nil =>
    cases stores
    obtain ⟨fuel, rfl⟩ := Nat.exists_eq_succ_of_ne_zero (Nat.ne_of_gt (Nat.zero_lt_of_lt enough))
    rw [replayLoop_end fuel bytes (extract_torn torn)]
    exact congrArg some inStep.replayed
  | cons entry f ih =>
    obtain ⟨rest, stores, read⟩ := stores.read (inRange entry List.mem_cons_self)
    have shorter := read.shorter
    obtain ⟨fuel, rfl⟩ := Nat.exists_eq_succ_of_ne_zero (Nat.ne_of_gt (Nat.zero_lt_of_lt enough))
    obtain ⟨nextpos, round⟩ := @replayLoop_next minEpoch maxEpoch s rest (some entry) fuel bytes read.enough
      (read.next (within entry List.mem_cons_self))
    rw [round]
    have later : ∀ bytes records, InStep bytes records → records.epoch < 2 ^ 63 →
        (replayLoop minEpoch maxEpoch fuel rest bytes).map (·.replayed) =
          (LogFile.replayLoop minEpoch maxEpoch f records).map (·.replayed.filter named) :=
      fun bytes records inStep small => ih stores (fun entry member => inRange entry (List.mem_cons_of_mem _ member))
        (fun entry member => within entry (List.mem_cons_of_mem _ member)) (by omega) inStep small
    cases entry with
    | epoch e =>
      have bound : e < 2 ^ 63 := inRange (.epoch e) List.mem_cons_self
      obtain ⟨entered, dated, together, same⟩ := enter_inStep minBound maxEpoch f inStep bound
      rw [same]
      generalize enter minEpoch bytes (some (.epoch e)) = bytes at together
      have ends : circularLess bytes.epoch maxEpoch = decide (e < maxEpoch) := by
        rw [together.epoch, dated, circularLess_eq bound maxBound]
      simp only [ends, true_and, decide_eq_true_eq, Nat.not_lt]
      by_cases last : maxEpoch ≤ e
      · have none_ : bytes.repbegin.isNone = entered.repbegin.isNone := by
          rw [← Option.not_isSome, together.begun, Option.not_isSome]
        rw [if_pos last, if_pos last, none_]
        split
        · rfl
        · exact congrArg some together.replayed
      · rw [if_neg last, if_neg last]
        exact advance_inStep minBound together (by rw [dated]; exact bound) later
    | wake =>
      rw [if_neg (by simp)]
      exact advance_inStep minBound inStep small later
    | quiesce =>
      rw [if_neg (by simp)]
      exact advance_inStep minBound inStep small later
    | op r =>
      rw [if_neg (by simp)]
      exact advance_inStep minBound inStep small later

end replay

theorem advance_all {r : LogFile.Replay LogRecord} {entry : LogEntry LogRecord}
    (begun : r.repbegin.isSome = true ∨ r.epoch = 0) (dated : r.epoch = 0 → LogFile.run r.epoch entry = []) :
    ∃ r', r.advance 0 entry = some r' ∧ r'.epoch = r.epoch ∧ r'.repbegin = r.repbegin ∧
      r'.replayed = r.replayed ++ LogFile.run r.epoch entry := by
  unfold LogFile.Replay.advance
  by_cases undated : r.epoch = 0
  · rw [if_pos (.inl undated), dated undated]
    exact ⟨_, rfl, rfl, rfl, (List.append_nil _).symm⟩
  · rw [if_neg (by simp [undated]), ← Option.not_isSome, begun.resolve_right undated]
    exact ⟨_, rfl, rfl, rfl, rfl⟩

/-- With no checkpoint and a cut past every epoch, every dated operation is run. -/
theorem replayLoop_all {maxEpoch : Nat} {f : LogFile LogRecord} {r : LogFile.Replay LogRecord}
    (below : ∀ e ∈ LogFile.epochs f, e < maxEpoch) (dated : ∀ p ∈ LogFile.ops r.epoch f, p.1 ≠ 0)
    (begun : r.repbegin.isSome = true ∨ r.epoch = 0) :
    (LogFile.replayLoop 0 maxEpoch f r).map (·.replayed) = some (r.replayed ++ LogFile.ops r.epoch f) := by
  induction f generalizing r with
  | nil => simp [LogFile.replayLoop, LogFile.ops]
  | cons entry f ih =>
    cases entry with
    | epoch e =>
      have early : ¬ maxEpoch ≤ e := Nat.not_le_of_lt (below e List.mem_cons_self)
      have after : ∀ e' ∈ LogFile.epochs f, e' < maxEpoch := fun e' member => below e' (List.mem_cons_of_mem _ member)
      obtain ⟨r', next, epoch, begin_, replayed⟩ := @advance_all
        { r with epoch := e, repbegin := if r.repbegin = none then some r.pos else r.repbegin } (.epoch e)
        (.inl (by dsimp only; cases r.repbegin <;> rfl)) (fun _ => rfl)
      simp only [LogFile.replayLoop, if_neg early, ne_eq, not_true, false_and, true_and, false_or, next,
        Option.bind_some]
      rw [ih after (by rw [epoch]; exact dated) (.inl (by rw [begin_]; dsimp only; cases r.repbegin <;> rfl)),
        replayed, epoch]
      simp [LogFile.run, LogFile.ops]
    | op x =>
      have nonzero : r.epoch ≠ 0 := dated (r.epoch, x) List.mem_cons_self
      obtain ⟨r', next, epoch, begin_, replayed⟩ := @advance_all r (.op x) begun fun zero => absurd zero nonzero
      simp only [LogFile.replayLoop, next, Option.bind_some]
      rw [ih below (by rw [epoch]; exact fun p member => dated p (List.mem_cons_of_mem _ member))
        (by rw [epoch, begin_]; exact begun), replayed, epoch]
      simp [LogFile.run, LogFile.ops]
    | wake =>
      obtain ⟨r', next, epoch, begin_, replayed⟩ := @advance_all r .wake begun fun _ => rfl
      simp only [LogFile.replayLoop, next, Option.bind_some]
      rw [ih below (by rw [epoch]; exact dated) (by rw [epoch, begin_]; exact begun), replayed, epoch]
      simp [LogFile.run, LogFile.ops]
    | quiesce =>
      obtain ⟨r', next, epoch, begin_, replayed⟩ := @advance_all r .quiesce begun fun _ => rfl
      simp only [LogFile.replayLoop, next, Option.bind_some]
      rw [ih below (by rw [epoch]; exact dated) (by rw [epoch, begin_]; exact begun), replayed, epoch]
      simp [LogFile.run, LogFile.ops]

theorem advance_replayed {minEpoch : Nat} {r r' : LogFile.Replay LogRecord} {entry : LogEntry LogRecord}
    (next : r.advance minEpoch entry = some r') :
    r'.replayed = r.replayed ∨ r'.replayed = r.replayed ++ LogFile.run r.epoch entry := by
  unfold LogFile.Replay.advance at next
  split at next
  · cases next
    exact .inl rfl
  · split at next
    · cases next
    · cases next
      exact .inr rfl

/-- Only operations of the log are run. -/
theorem replayLoop_mem {minEpoch maxEpoch : Nat} {f : LogFile LogRecord} {r r' : LogFile.Replay LogRecord}
    (ends : LogFile.replayLoop minEpoch maxEpoch f r = some r') :
    ∀ p ∈ r'.replayed, p ∈ r.replayed ∨ .op p.2 ∈ f := by
  induction f generalizing r with
  | nil =>
    cases ends
    exact fun p member => .inl member
  | cons entry f ih =>
    have later : ∀ r₁ : LogFile.Replay LogRecord, r₁.replayed = r.replayed →
        (r₁.advance minEpoch entry).bind (LogFile.replayLoop minEpoch maxEpoch f) = some r' →
          ∀ p ∈ r'.replayed, p ∈ r.replayed ∨ .op p.2 ∈ entry :: f := by
      intro r₁ same ends p member
      obtain ⟨r₂, next, ends⟩ := Option.bind_eq_some_iff.mp ends
      rcases ih ends p member with old | new
      · rcases advance_replayed next with none_ | more
        · rw [none_, same] at old
          exact .inl old
        · rw [more, same] at old
          rcases List.mem_append.mp old with old | run
          · exact .inl old
          · cases entry with
            | op x =>
              rw [List.mem_singleton.mp run]
              exact .inr List.mem_cons_self
            | _ => cases run
      · exact .inr (List.mem_cons_of_mem _ new)
    cases entry with
    | epoch e =>
      unfold LogFile.replayLoop at ends
      generalize (if minEpoch ≠ 0 ∧ e < minEpoch ∨ minEpoch = 0 ∧ r.repbegin = none then some r.pos
        else r.repbegin) = repbegin at ends
      dsimp only at ends
      split at ends
      · split at ends
        · cases ends
        · cases ends
          exact fun p member => .inl member
      · exact later { r with epoch := e, repbegin } rfl ends
    | op x => exact later r rfl ends
    | wake => exact later r rfl ends
    | quiesce => exact later r rfl ends

theorem mem_ops {f : LogFile LogRecord} {x : LogRecord} (member : .op x ∈ f) (e : Nat) :
    ∃ e', (e', x) ∈ LogFile.ops e f := by
  induction f generalizing e with
  | nil => cases member
  | cons entry f ih =>
    rcases List.mem_cons.mp member with rfl | later
    · exact ⟨e, List.mem_cons_self⟩
    · cases entry with
      | epoch e' => exact ih later e'
      | op y =>
        obtain ⟨e', found⟩ := ih later e
        exact ⟨e', List.mem_cons_of_mem _ found⟩
      | wake => exact ih later e
      | quiesce => exact ih later e

/-- The records of a file come back exactly if every key is allowed and not empty. -/
theorem readsBack_stores {tail s : Bytes} (torn : ¬ Whole tail) {f : LogFile LogRecord} {bound : Nat}
    (stores : Stores tail f s) (inRange : ∀ entry ∈ f, InRange entry) (below : ∀ e ∈ f.epochs, e < bound)
    (small : bound < 2 ^ 63) (dated : ∀ p ∈ f.ops 0, p.1 ≠ 0) :
    ReadsBack f tail s ↔ ∀ r, .op r ∈ f → r.key ≠ [] ∧ r.key.length ≤ maxKeyLen := by
  have extracts := extractLoop_stores torn stores inRange (Nat.lt_succ_self s.length)
  have zero : ({} : LogFile.Replay LogRecord).epoch < 2 ^ 63 := by
    dsimp only
    omega
  have replays : (∀ entry ∈ f, Within entry) → ∀ minEpoch maxEpoch, minEpoch < 2 ^ 63 → maxEpoch < 2 ^ 63 →
      replayScan minEpoch maxEpoch s =
        (LogFile.replayLoop minEpoch maxEpoch f {}).map (·.replayed.filter named) :=
    fun within minEpoch maxEpoch minBound maxBound => replayLoop_stores minBound maxBound torn stores inRange within
      (Nat.lt_succ_self s.length) ⟨rfl, rfl, rfl⟩ zero
  constructor
  · intro back r member
    have within := extracts.mp back.extract
    refine ⟨?_, within _ member⟩
    have all : replayScan 0 bound s = some (f.ops 0) := by
      have whole := replayLoop_all (r := {}) below dated (.inr rfl)
      rw [back.replay 0 bound (Nat.two_pow_pos 63) small, LogFile.replayandclean1, Option.map_map]
      exact whole
    have kept : replayScan 0 bound s = some ((f.ops 0).filter named) := by
      rw [replays within 0 bound (Nat.two_pow_pos 63) small]
      have whole := replayLoop_all (r := {}) below dated (.inr rfl)
      obtain ⟨r', ends, same⟩ := Option.map_eq_some_iff.mp whole
      rw [ends, Option.map_some, same]
      rfl
    obtain ⟨e, found⟩ := mem_ops member 0
    have same : (f.ops 0).filter named = f.ops 0 := Option.some.inj (kept.symm.trans all)
    have run := List.filter_eq_self.mp same (e, r) found
    intro empty
    simp [named, empty] at run
  · intro fit
    have within : ∀ entry ∈ f, Within entry := by
      intro entry member
      cases entry with
      | op r => exact (fit r member).2
      | _ => trivial
    refine ⟨extracts.mpr within, ?_, fun minEpoch maxEpoch minBound maxBound => ?_⟩
    · have scanned := infoLoop_stores torn {} stores inRange (Nat.lt_succ_self s.length)
      rwa [foldl_infoStep inRange {} (Nat.two_pow_pos 63) (Nat.two_pow_pos 63)] at scanned
    · rw [replays within minEpoch maxEpoch minBound maxBound, LogFile.replayandclean1, Option.map_map]
      cases ends : LogFile.replayLoop minEpoch maxEpoch f {} with
      | none => rfl
      | some r =>
        refine congrArg some (List.filter_eq_self.mpr fun p member => ?_)
        rcases replayLoop_mem ends p member with absent | found
        · cases absent
        · have := (fit p.2 found).1
          cases h : p.2.key <;> simp_all [named]

end LogBytes

end Masstree
