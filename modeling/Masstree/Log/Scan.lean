import Masstree.Log.File
import Masstree.Log.Replay

/-!
# Scanning a log file

The three loops that go through the bytes of a log file: `logreplay::info`, `min_post_quiescent_wake_epoch`
and, in `replayandclean1`, `logrecord::extract` until it fails. A position is the list of bytes from it on. A
read past the end of the file is `none`. Assertions are on, as in the default build.
-/

namespace Masstree
open Msgpack (Bytes)

def leOrder (bs : Bytes) : Nat := bs.foldr (fun b n => b.toNat + 256 * n) 0

/-- The `n` bytes at offset `offset`. -/
def bytes? (offset n : Nat) (s : Bytes) : Option Bytes :=
  if offset + n ≤ s.length then some ((s.drop offset).take n) else none

def field? (offset n : Nat) (s : Bytes) : Option Nat := (bytes? offset n s).map leOrder

namespace LogCommand

/-- `enum logcommand` -/
def code : LogCommand → Nat
  | .none => 0
  | .put => 0x5455506B
  | .replace => 0x3155506B
  | .modify => 0x444F4D6B
  | .remove => 0x4D45526B
  | .epoch => 0x4F50456B
  | .quiesce => 0x4955516B
  | .wake => 0x4B41576B

def ofCode (c : Nat) : Option LogCommand :=
  [LogCommand.none, .put, .replace, .modify, .remove, .epoch, .quiesce, .wake].find? (·.code = c)

end LogCommand

def circularLess (a b : Nat) : Bool := 2 ^ 63 ≤ (a + 2 ^ 64 - b) % 2 ^ 64

namespace LogBytes

def size? (s : Bytes) : Option Nat := field? 4 4 s

def command? (s : Bytes) : Option (Option LogCommand) := (field? 0 4 s).map LogCommand.ofCode

/-- What `extract` does: it fails, or yields a record, unless the command is unknown, and goes on. -/
inductive Extracted where
  | fail
  | next (entry : Option (LogEntry LogRecord)) (rest : Bytes)
  deriving DecidableEq

def extractKv (command : LogCommand) (size : Nat) (s : Bytes) : Option Extracted :=
  if size < 24 then some .fail
  else do
    let keylen ← field? 16 4 s
    if maxKeyLen < keylen ∨ size < 24 + keylen then some .fail
    else do
      let ts ← field? 8 8 s
      let key ← bytes? 20 keylen s
      let val ← bytes? (20 + keylen) (size - 24 - keylen) s
      some (.next (some (.op { command, key, val, ts })) (s.drop size))

/-- The fields of a `logrec_kvdelta`. Nothing is checked before `keylen_` is read. -/
def extractKvdelta (size : Nat) (s : Bytes) : Option Extracted := do
  let keylen ← field? 24 4 s
  if maxKeyLen < keylen ∨ size < 32 + keylen then some .fail
  else do
    let ts ← field? 8 8 s
    let prevTs ← field? 16 8 s
    let key ← bytes? 28 keylen s
    let val ← bytes? (28 + keylen) (size - 32 - keylen) s
    some (.next (some (.op { command := .modify, key, val, ts, prevTs })) (s.drop size))

def extract (s : Bytes) : Option Extracted :=
  if s.length < 8 then some .fail
  else do
    let size ← size? s
    if size < 8 ∨ s.length < size then some .fail
    else do
      match ← command? s with
      | some .none => some .fail
      | some .modify => extractKvdelta size s
      | some .epoch =>
        if size < 16 then some .fail
        else do
          let epoch ← field? 8 8 s
          some (.next (some (.epoch epoch)) (s.drop size))
      | some .quiesce => some (.next (some .quiesce) (s.drop size))
      | some .wake => some (.next (some .wake) (s.drop size))
      | some command => extractKv command size s
      | none => some (.next none (s.drop size))

/-- The records `extract` yields, and the bytes left where it fails or the file ends. -/
def extractLoop : Nat → Bytes → Option (LogFile LogRecord × Nat)
  | 0, _ => none
  | fuel + 1, s =>
    if s.isEmpty then some ([], 0)
    else do
      match ← extract s with
      | .fail => some ([], s.length)
      | .next entry rest => do
        let (entries, left) ← extractLoop fuel rest
        some (entry.toList ++ entries, left)

def infoEpoch (x : LogInfo) (e : Nat) : LogInfo :=
  { x with lastEpoch := e
           firstEpoch := if x.firstEpoch = 0 then e else x.firstEpoch
           wakeEpoch := if x.wakeEpoch ≠ 0 ∧ circularLess e x.wakeEpoch then 0 else x.wakeEpoch }

/-- The loop of `logreplay::info`, and the bytes left where it ends. -/
def infoLoop : Nat → Bytes → LogInfo → Option (LogInfo × Nat)
  | 0, _, _ => none
  | fuel + 1, s, x =>
    if s.length < 8 then some (x, s.length)
    else do
      let size ← size? s
      if size < 8 ∨ s.length < size then some (x, s.length)
      else do
        let command ← command? s
        let x := { x with quiescent := command = some .quiesce }
        match command with
        | some .epoch =>
          if size < 16 then some (x, s.length)
          else do
            let e ← field? 8 8 s
            infoLoop fuel (s.drop size) (infoEpoch x e)
        | some .wake => infoLoop fuel (s.drop size) { x with wakeEpoch := x.lastEpoch }
        | some .none | none => some (x, s.length)
        | some _ => infoLoop fuel (s.drop size) x

/-- How `min_post_quiescent_wake_epoch` ends, and the bytes left there. -/
inductive MinScan where
  | returned (e left : Nat)
  | ended (left : Nat)
  deriving DecidableEq

/-- The loop of `min_post_quiescent_wake_epoch`, at epoch `e`. -/
def minLoop (quiescentEpoch : Nat) : Nat → Bytes → Nat → Option MinScan
  | 0, _, _ => none
  | fuel + 1, s, e =>
    if s.length < 8 then some (.ended s.length)
    else do
      let size ← size? s
      if size < 8 ∨ s.length < size then some (.ended s.length)
      else do
        match ← command? s with
        | some .epoch =>
          if size < 16 then some (.ended s.length)
          else do
            let e ← field? 8 8 s
            minLoop quiescentEpoch fuel (s.drop size) e
        | some .wake =>
          if e ≠ 0 ∧ ¬ circularLess e quiescentEpoch then some (.returned e s.length)
          else minLoop quiescentEpoch fuel (s.drop size) e
        | _ => minLoop quiescentEpoch fuel (s.drop size) e

def infoScan (file : Bytes) : Option (LogInfo × Nat) := infoLoop (file.length + 1) file {}

def minScan (quiescentEpoch : Nat) (file : Bytes) : Option MinScan :=
  minLoop quiescentEpoch (file.length + 1) file 0

def extractScan (file : Bytes) : Option (LogFile LogRecord × Nat) := extractLoop (file.length + 1) file

def infoStep (x : LogInfo) : LogEntry LogRecord → LogInfo
  | .epoch e => infoEpoch { x with quiescent := false } e
  | .wake => { x with quiescent := false, wakeEpoch := x.lastEpoch }
  | .quiesce => { x with quiescent := true }
  | .op _ => { x with quiescent := false }

/-- No loop reads outside the file, all three end at one record, and `info` describes the records before it.
`min_post_quiescent_wake_epoch` may have returned at one of them. -/
def ScansAgree (file : Bytes) : Prop :=
  ∃ entries left, extractScan file = some (entries, left) ∧
    infoScan file = some (entries.foldl infoStep {}, left) ∧
      ∀ q < 2 ^ 64, minScan q file = some (.ended left) ∨
        ∃ e rest, minScan q file = some (.returned e rest) ∧ left < rest

/-! ### The record at a position -/

def fieldAt (offset n : Nat) (s : Bytes) : Nat := leOrder ((s.drop offset).take n)
def size (s : Bytes) : Nat := fieldAt 4 4 s
def command (s : Bytes) : Option LogCommand := LogCommand.ofCode (fieldAt 0 4 s)

/-- All of a record is in the file. -/
def Whole (s : Bytes) : Prop := 8 ≤ s.length ∧ 8 ≤ size s ∧ size s ≤ s.length

instance (s : Bytes) : Decidable (Whole s) := inferInstanceAs (Decidable (_ ∧ _))

def FieldsFit (header keylenAt : Nat) (s : Bytes) : Prop :=
  fieldAt keylenAt 4 s ≤ maxKeyLen ∧ header + fieldAt keylenAt 4 s ≤ size s

instance (header keylenAt : Nat) (s : Bytes) : Decidable (FieldsFit header keylenAt s) :=
  inferInstanceAs (Decidable (_ ∧ _))

/-- Every test for a post-quiescent wake has succeeded at one of these epochs. -/
def WakesCover (wakes : List Nat) : Prop := ∀ q < 2 ^ 64, ∃ w ∈ wakes, w ≠ 0 ∧ ¬ circularLess w q

/-- From a position on, up to the first record that is torn, undersized or too short for an epoch: commands are
known, the keys of data records fit, and a short epoch record is not taken for the end of quiescence. -/
def LegibleFrom : Nat → Bytes → Bool → Nat → List Nat → Prop
  | 0, _, _, _, _ => True
  | fuel + 1, s, quiescent, e, wakes =>
    if Whole s then
      match command s with
      | some .epoch =>
        if size s < 16 then quiescent = false
        else LegibleFrom fuel (s.drop (size s)) false (fieldAt 8 8 s) wakes
      | some .wake => LegibleFrom fuel (s.drop (size s)) false e (e :: wakes)
      | some .quiesce => LegibleFrom fuel (s.drop (size s)) true e wakes
      | some .modify => FieldsFit 32 24 s ∧ LegibleFrom fuel (s.drop (size s)) false e wakes
      | some .none => quiescent = false ∧ WakesCover wakes
      | some _ => FieldsFit 24 16 s ∧ LegibleFrom fuel (s.drop (size s)) false e wakes
      | none => False
    else True

def Legible (file : Bytes) : Prop := LegibleFrom (file.length + 1) file true 0 []

theorem bytes?_eq {offset n : Nat} {s : Bytes} (inside : offset + n ≤ s.length) :
    bytes? offset n s = some ((s.drop offset).take n) := if_pos inside

theorem field?_eq {offset n : Nat} {s : Bytes} (inside : offset + n ≤ s.length) :
    field? offset n s = some (fieldAt offset n s) := by
  rw [field?, bytes?_eq inside]
  rfl

theorem size?_eq {s : Bytes} (enough : 8 ≤ s.length) : size? s = some (size s) := field?_eq enough

theorem command?_eq {s : Bytes} (enough : 8 ≤ s.length) : command? s = some (command s) := by
  rw [command?, field?_eq (Nat.le_trans (by decide) enough)]
  rfl

/-! ### One round of each loop -/

theorem not_whole {s : Bytes} (torn : ¬ Whole s) : s.length < 8 ∨ 8 ≤ s.length ∧ (size s < 8 ∨ s.length < size s) := by
  unfold Whole at torn
  omega

theorem extract_torn {s : Bytes} (torn : ¬ Whole s) : extract s = some .fail := by
  unfold extract
  rcases not_whole torn with short | ⟨enough, bad⟩
  · rw [if_pos short]
  · rw [if_neg (by omega), size?_eq enough, Option.bind_eq_bind, Option.bind_some, if_pos bad]

theorem extractLoop_fail {s : Bytes} (fuel : Nat) (fails : extract s = some .fail) :
    extractLoop (fuel + 1) s = some ([], s.length) := by
  unfold extractLoop
  split
  · rename_i empty
    rw [List.isEmpty_iff.mp empty]
    rfl
  · rw [fails]
    rfl

theorem extractLoop_next {s rest : Bytes} {entry : Option (LogEntry LogRecord)} (fuel : Nat) (enough : 8 ≤ s.length)
    (goes : extract s = some (.next entry rest)) :
    extractLoop (fuel + 1) s = (extractLoop fuel rest).map fun r => (entry.toList ++ r.1, r.2) := by
  have some_ : s.isEmpty = false := by
    cases s with
    | nil => simp at enough
    | cons => rfl
  conv_lhs => unfold extractLoop
  rw [some_, if_neg Bool.false_ne_true, goes]
  simp only [Option.bind_eq_bind, Option.bind_some]
  cases extractLoop fuel rest <;> rfl

theorem infoLoop_torn {s : Bytes} (fuel : Nat) (x : LogInfo) (torn : ¬ Whole s) :
    infoLoop (fuel + 1) s x = some (x, s.length) := by
  unfold infoLoop
  rcases not_whole torn with short | ⟨enough, bad⟩
  · rw [if_pos short]
  · rw [if_neg (by omega), size?_eq enough, Option.bind_eq_bind, Option.bind_some, if_pos bad]

theorem minLoop_torn {s : Bytes} (q fuel e : Nat) (torn : ¬ Whole s) :
    minLoop q (fuel + 1) s e = some (.ended s.length) := by
  unfold minLoop
  rcases not_whole torn with short | ⟨enough, bad⟩
  · rw [if_pos short]
  · rw [if_neg (by omega), size?_eq enough, Option.bind_eq_bind, Option.bind_some, if_pos bad]

section whole
variable {s : Bytes} (whole : Whole s)
include whole

theorem extract_whole : extract s = match command s with
    | some .none => some .fail
    | some .modify => extractKvdelta (size s) s
    | some .epoch => if size s < 16 then some .fail else some (.next (some (.epoch (fieldAt 8 8 s))) (s.drop (size s)))
    | some .quiesce => some (.next (some .quiesce) (s.drop (size s)))
    | some .wake => some (.next (some .wake) (s.drop (size s)))
    | some command => extractKv command (size s) s
    | none => some (.next none (s.drop (size s))) := by
  obtain ⟨enough, least, inside⟩ := whole
  unfold extract
  rw [if_neg (by omega), size?_eq enough, Option.bind_eq_bind, Option.bind_some, if_neg (by omega), command?_eq enough]
  cases command s with
  | none => rfl
  | some c =>
    cases c with
    | epoch =>
      dsimp only [Option.bind_some]
      split
      · rfl
      · rw [field?_eq (by omega)]
        rfl
    | _ => rfl

theorem infoLoop_whole (fuel : Nat) (x : LogInfo) : infoLoop (fuel + 1) s x = match command s with
    | some .epoch =>
      if size s < 16 then some ({ x with quiescent := false }, s.length)
      else infoLoop fuel (s.drop (size s)) (infoStep x (.epoch (fieldAt 8 8 s)))
    | some .wake => infoLoop fuel (s.drop (size s)) (infoStep x .wake)
    | some .quiesce => infoLoop fuel (s.drop (size s)) (infoStep x .quiesce)
    | some .none | none => some ({ x with quiescent := false }, s.length)
    | some _ => infoLoop fuel (s.drop (size s)) { x with quiescent := false } := by
  obtain ⟨enough, least, inside⟩ := whole
  conv_lhs => unfold infoLoop
  rw [if_neg (by omega), size?_eq enough, Option.bind_eq_bind, Option.bind_some, if_neg (by omega), command?_eq enough]
  cases command s with
  | none => rfl
  | some c =>
    cases c with
    | epoch =>
      dsimp only [Option.bind_some]
      split
      · rfl
      · rw [field?_eq (by omega)]
        rfl
    | _ => rfl

theorem minLoop_whole (q fuel e : Nat) : minLoop q (fuel + 1) s e = match command s with
    | some .epoch =>
      if size s < 16 then some (.ended s.length) else minLoop q fuel (s.drop (size s)) (fieldAt 8 8 s)
    | some .wake =>
      if e ≠ 0 ∧ ¬ circularLess e q then some (.returned e s.length) else minLoop q fuel (s.drop (size s)) e
    | _ => minLoop q fuel (s.drop (size s)) e := by
  obtain ⟨enough, least, inside⟩ := whole
  conv_lhs => unfold minLoop
  rw [if_neg (by omega), size?_eq enough, Option.bind_eq_bind, Option.bind_some, if_neg (by omega), command?_eq enough]
  cases command s with
  | none => rfl
  | some c =>
    cases c with
    | epoch =>
      dsimp only [Option.bind_some]
      split
      · rfl
      · rw [field?_eq (by omega)]
        rfl
    | _ => rfl

end whole

theorem extractKv_fits {s : Bytes} (whole : Whole s) (c : LogCommand) (fits : FieldsFit 24 16 s) :
    ∃ r, extractKv c (size s) s = some (.next (some (.op r)) (s.drop (size s))) := by
  obtain ⟨-, -, inside⟩ := whole
  obtain ⟨allowed, within⟩ := fits
  have keylen : field? 16 4 s = some (fieldAt 16 4 s) := field?_eq (by omega)
  have ts : field? 8 8 s = some (fieldAt 8 8 s) := field?_eq (by omega)
  have key := @bytes?_eq 20 (fieldAt 16 4 s) s (by omega)
  have val := @bytes?_eq (20 + fieldAt 16 4 s) (size s - 24 - fieldAt 16 4 s) s (by omega)
  unfold extractKv
  rw [if_neg (by omega), keylen, Option.bind_eq_bind, Option.bind_some, if_neg (by omega)]
  simp only [ts, key, val, Option.bind_eq_bind, Option.bind_some]
  exact ⟨_, rfl⟩

theorem extractKv_unfit {s : Bytes} (whole : Whole s) (c : LogCommand) (unfit : ¬ FieldsFit 24 16 s) :
    extractKv c (size s) s = some .fail := by
  obtain ⟨-, -, inside⟩ := whole
  unfold FieldsFit at unfit
  unfold extractKv
  split
  · rfl
  · rw [field?_eq (by omega), Option.bind_eq_bind, Option.bind_some, if_pos (by omega)]

theorem extractKvdelta_fits {s : Bytes} (whole : Whole s) (fits : FieldsFit 32 24 s) :
    ∃ r, extractKvdelta (size s) s = some (.next (some (.op r)) (s.drop (size s))) := by
  obtain ⟨-, -, inside⟩ := whole
  obtain ⟨allowed, within⟩ := fits
  have keylen : field? 24 4 s = some (fieldAt 24 4 s) := field?_eq (by omega)
  have ts : field? 8 8 s = some (fieldAt 8 8 s) := field?_eq (by omega)
  have prevTs : field? 16 8 s = some (fieldAt 16 8 s) := field?_eq (by omega)
  have key := @bytes?_eq 28 (fieldAt 24 4 s) s (by omega)
  have val := @bytes?_eq (28 + fieldAt 24 4 s) (size s - 32 - fieldAt 24 4 s) s (by omega)
  unfold extractKvdelta
  rw [keylen, Option.bind_eq_bind, Option.bind_some, if_neg (by omega)]
  simp only [ts, prevTs, key, val, Option.bind_eq_bind, Option.bind_some]
  exact ⟨_, rfl⟩

/-- A modify whose key does not fit is refused, if its key length can be read at all. -/
theorem extractKvdelta_unfit {s : Bytes} (unfit : ¬ FieldsFit 32 24 s) :
    extractKvdelta (size s) s = none ∨ extractKvdelta (size s) s = some .fail := by
  unfold FieldsFit at unfit
  unfold extractKvdelta
  by_cases inside : 24 + 4 ≤ s.length
  · rw [field?_eq inside, Option.bind_eq_bind, Option.bind_some, if_pos (by omega)]
    exact .inr rfl
  · left
    rw [field?, bytes?, if_neg inside]
    rfl

/-! ### Where the loops end -/

theorem drop_length_lt {s : Bytes} (whole : Whole s) : (s.drop (size s)).length < s.length := by
  obtain ⟨enough, least, -⟩ := whole
  rw [List.length_drop]
  omega

theorem extract_next {s rest : Bytes} {entry : Option (LogEntry LogRecord)}
    (goes : extract s = some (.next entry rest)) : Whole s ∧ rest = s.drop (size s) := by
  by_cases whole : Whole s
  · refine ⟨whole, ?_⟩
    rw [extract_whole whole] at goes
    have kv : ∀ c, extractKv c (size s) s = some (.next entry rest) → rest = s.drop (size s) := by
      intro c goes
      by_cases fits : FieldsFit 24 16 s
      · obtain ⟨r, same⟩ := extractKv_fits whole c fits
        rw [same] at goes
        cases goes
        rfl
      · rw [extractKv_unfit whole c fits] at goes
        cases goes
    split at goes
    · cases goes
    · by_cases fits : FieldsFit 32 24 s
      · obtain ⟨r, same⟩ := extractKvdelta_fits whole fits
        rw [same] at goes
        cases goes
        rfl
      · rcases extractKvdelta_unfit fits with same | same <;> rw [same] at goes <;> cases goes
    · split at goes <;> cases goes
      rfl
    · cases goes
      rfl
    · cases goes
      rfl
    · exact kv _ goes
    · cases goes
      rfl
  · rw [extract_torn whole] at goes
    cases goes

theorem extractLoop_left {fuel : Nat} {s : Bytes} {entries : LogFile LogRecord} {left : Nat}
    (ends : extractLoop fuel s = some (entries, left)) : left ≤ s.length := by
  induction fuel generalizing s entries left with
  | zero => cases ends
  | succ fuel ih =>
    cases found : extract s with
    | none =>
      unfold extractLoop at ends
      rw [found] at ends
      split at ends <;> cases ends
      exact Nat.zero_le _
    | some outcome =>
      cases outcome with
      | fail =>
        rw [extractLoop_fail fuel found] at ends
        cases ends
        exact Nat.le_refl _
      | next entry rest =>
        obtain ⟨whole, rfl⟩ := extract_next found
        rw [extractLoop_next fuel whole.1 found] at ends
        obtain ⟨⟨entries', left'⟩, ended, same⟩ := Option.map_eq_some_iff.mp ends
        cases same
        exact Nat.le_of_lt (Nat.lt_of_le_of_lt (ih ended) (drop_length_lt whole))

theorem infoLoop_left {fuel : Nat} {s : Bytes} {x y : LogInfo} {left : Nat}
    (ends : infoLoop fuel s x = some (y, left)) : left ≤ s.length := by
  induction fuel generalizing s x y left with
  | zero => cases ends
  | succ fuel ih =>
    by_cases whole : Whole s
    · have shorter := Nat.le_of_lt (drop_length_lt whole)
      have later : ∀ x, infoLoop fuel (s.drop (size s)) x = some (y, left) → left ≤ s.length :=
        fun x ended => Nat.le_trans (ih ended) shorter
      rw [infoLoop_whole whole] at ends
      split at ends
      · split at ends
        · cases ends
          exact Nat.le_refl _
        · exact later _ ends
      · exact later _ ends
      · exact later _ ends
      · cases ends
        exact Nat.le_refl _
      · cases ends
        exact Nat.le_refl _
      · exact later _ ends
    · rw [infoLoop_torn fuel x whole] at ends
      cases ends
      exact Nat.le_refl _

/-- The bytes left where the scan ends or returns. -/
def MinScan.left : MinScan → Nat
  | .returned _ left | .ended left => left

theorem minLoop_left {q fuel : Nat} {s : Bytes} {e : Nat} {r : MinScan} (ends : minLoop q fuel s e = some r) :
    r.left ≤ s.length := by
  induction fuel generalizing s e r with
  | zero => cases ends
  | succ fuel ih =>
    by_cases whole : Whole s
    · have shorter := Nat.le_of_lt (drop_length_lt whole)
      have later : ∀ e, minLoop q fuel (s.drop (size s)) e = some r → r.left ≤ s.length :=
        fun x ended => Nat.le_trans (ih ended) shorter
      rw [minLoop_whole whole] at ends
      split at ends
      · split at ends
        · cases ends
          exact Nat.le_refl _
        · exact later _ ends
      · split at ends
        · cases ends
          exact Nat.le_refl _
        · exact later _ ends
      · exact later _ ends
    · rw [minLoop_torn q fuel e whole] at ends
      cases ends
      exact Nat.le_refl _

/-! ### Agreement from a position on -/

/-- The scans agree from here on, given the epochs of the wakes passed. -/
def AgreeFrom (fuel : Nat) (s : Bytes) (x : LogInfo) (e : Nat) (wakes : List Nat) : Prop :=
  ∃ entries left, extractLoop fuel s = some (entries, left) ∧
    infoLoop fuel s x = some (entries.foldl infoStep x, left) ∧
      ∀ q < 2 ^ 64, (∃ w ∈ wakes, w ≠ 0 ∧ ¬ circularLess w q) ∨ minLoop q fuel s e = some (.ended left) ∨
        ∃ e' rest, minLoop q fuel s e = some (.returned e' rest) ∧ left < rest

theorem quiescent_eq (x : LogInfo) : { x with quiescent := false } = x ↔ x.quiescent = false := by
  cases x with
  | mk first last wake min quiescent => simp

/-- All three pass the record. -/
theorem agreeFrom_next {fuel : Nat} {s : Bytes} {x : LogInfo} {e e' : Nat} {wakes : List Nat}
    {entry : LogEntry LogRecord} (whole : Whole s) (goes : extract s = some (.next (some entry) (s.drop (size s))))
    (info : infoLoop (fuel + 1) s x = infoLoop fuel (s.drop (size s)) (infoStep x entry))
    (min : ∀ q, minLoop q (fuel + 1) s e = minLoop q fuel (s.drop (size s)) e') :
    AgreeFrom (fuel + 1) s x e wakes ↔ AgreeFrom fuel (s.drop (size s)) (infoStep x entry) e' wakes := by
  unfold AgreeFrom
  rw [info, extractLoop_next fuel whole.1 goes]
  simp only [min]
  constructor
  · rintro ⟨entries, left, ended, same, mins⟩
    obtain ⟨⟨entries', left'⟩, found, shape⟩ := Option.map_eq_some_iff.mp ended
    cases shape
    exact ⟨entries', left', found, same, mins⟩
  · rintro ⟨entries, left, ended, same, mins⟩
    exact ⟨entry :: entries, left, by rw [ended]; rfl, same, mins⟩

/-- All three pass a wake, or `min_post_quiescent_wake_epoch` returns there. -/
theorem agreeFrom_wake {fuel : Nat} {s : Bytes} {x : LogInfo} {e : Nat} {wakes : List Nat} (whole : Whole s)
    (is : command s = some .wake) :
    AgreeFrom (fuel + 1) s x e wakes ↔ AgreeFrom fuel (s.drop (size s)) (infoStep x .wake) e (e :: wakes) := by
  have goes : extract s = some (.next (some .wake) (s.drop (size s))) := by rw [extract_whole whole, is]
  have info : infoLoop (fuel + 1) s x = infoLoop fuel (s.drop (size s)) (infoStep x .wake) := by
    rw [infoLoop_whole whole, is]
  have min : ∀ q, minLoop q (fuel + 1) s e =
      if e ≠ 0 ∧ ¬ circularLess e q then some (.returned e s.length) else minLoop q fuel (s.drop (size s)) e := by
    intro q
    rw [minLoop_whole whole, is]
  unfold AgreeFrom
  rw [info, extractLoop_next fuel whole.1 goes]
  constructor
  · rintro ⟨entries, left, ended, same, mins⟩
    obtain ⟨⟨entries', left'⟩, found, shape⟩ := Option.map_eq_some_iff.mp ended
    cases shape
    refine ⟨entries', left', found, same, fun q bound => ?_⟩
    have here := mins q bound
    rw [min q] at here
    split at here
    · rename_i returns
      exact .inl ⟨e, List.mem_cons_self, returns⟩
    · exact here.imp (fun ⟨w, member, passes⟩ => ⟨w, List.mem_cons_of_mem _ member, passes⟩) id
  · rintro ⟨entries, left, ended, same, mins⟩
    refine ⟨.wake :: entries, left, by rw [ended]; rfl, same, fun q bound => ?_⟩
    rw [min q]
    split
    · exact .inr (.inr ⟨e, s.length, rfl, Nat.lt_of_le_of_lt (extractLoop_left ended) (drop_length_lt whole)⟩)
    · rename_i passes
      rcases mins q bound with ⟨w, member, returns⟩ | later
      · rcases List.mem_cons.mp member with rfl | earlier
        · exact absurd returns passes
        · exact .inl ⟨w, earlier, returns⟩
      · exact .inr later

/-- `extract` stops at a record that `info` passes. -/
theorem not_agreeFrom_refused {fuel : Nat} {s : Bytes} {x x' : LogInfo} {e : Nat} {wakes : List Nat} (whole : Whole s)
    (refused : extract s = none ∨ extract s = some .fail)
    (info : infoLoop (fuel + 1) s x = infoLoop fuel (s.drop (size s)) x') : ¬ AgreeFrom (fuel + 1) s x e wakes := by
  rintro ⟨entries, left, ended, same, -⟩
  rw [info] at same
  have shorter := Nat.lt_of_le_of_lt (infoLoop_left same) (drop_length_lt whole)
  rcases refused with outside | fails
  · unfold extractLoop at ended
    rw [outside] at ended
    split at ended
    · rename_i empty
      rw [List.isEmpty_iff.mp empty] at shorter
      exact Nat.not_lt_zero _ shorter
    · cases ended
  · rw [extractLoop_fail fuel fails] at ended
    cases ended
    exact Nat.lt_irrefl _ shorter

/-- `info` stops at a record that `extract` passes. -/
theorem not_agreeFrom_unknown {fuel : Nat} {s : Bytes} {x : LogInfo} {e : Nat} {wakes : List Nat} (whole : Whole s)
    (unknown : command s = none) : ¬ AgreeFrom (fuel + 1) s x e wakes := by
  rintro ⟨entries, left, ended, same, -⟩
  rw [infoLoop_whole whole, unknown] at same
  rw [extractLoop_next fuel whole.1 (by rw [extract_whole whole, unknown])] at ended
  obtain ⟨⟨entries', left'⟩, found, shape⟩ := Option.map_eq_some_iff.mp ended
  cases shape
  have shorter := Nat.lt_of_le_of_lt (extractLoop_left found) (drop_length_lt whole)
  have stops : s.length = left' := congrArg Prod.snd (Option.some.inj same)
  omega

/-- `info` and `extract` stop at a record of command 0, which `min_post_quiescent_wake_epoch` passes. -/
theorem agreeFrom_zero {fuel : Nat} {s : Bytes} {x : LogInfo} {e : Nat} {wakes : List Nat} (whole : Whole s)
    (zero : command s = some .none) :
    AgreeFrom (fuel + 1) s x e wakes ↔ x.quiescent = false ∧ WakesCover wakes := by
  have fails : extract s = some .fail := by rw [extract_whole whole, zero]
  have min : ∀ q, minLoop q (fuel + 1) s e = minLoop q fuel (s.drop (size s)) e := by
    intro q
    rw [minLoop_whole whole, zero]
  unfold AgreeFrom
  rw [extractLoop_fail fuel fails, infoLoop_whole whole, zero]
  constructor
  · rintro ⟨entries, left, ended, same, mins⟩
    cases ended
    refine ⟨(quiescent_eq x).mp (congrArg Prod.fst (Option.some.inj same)), fun q bound => ?_⟩
    rcases mins q bound with covered | ended | ⟨e', rest, returned, more⟩
    · exact covered
    · rw [min q] at ended
      have bound : s.length ≤ _ := minLoop_left ended
      exact absurd bound (Nat.not_le_of_lt (drop_length_lt whole))
    · rw [min q] at returned
      have bound : rest ≤ _ := minLoop_left returned
      have shorter := drop_length_lt whole
      omega
  · rintro ⟨noisy, cover⟩
    exact ⟨[], s.length, rfl, by rw [(quiescent_eq x).mpr noisy]; rfl, fun q bound => .inl (cover q bound)⟩

/-- All three stop. -/
theorem agreeFrom_stop {fuel : Nat} {s : Bytes} {x x' : LogInfo} {e : Nat} {wakes : List Nat}
    (fails : extract s = some .fail) (info : infoLoop (fuel + 1) s x = some (x', s.length))
    (min : ∀ q, minLoop q (fuel + 1) s e = some (.ended s.length)) : AgreeFrom (fuel + 1) s x e wakes ↔ x' = x := by
  unfold AgreeFrom
  rw [extractLoop_fail fuel fails, info]
  constructor
  · rintro ⟨entries, left, ended, same, -⟩
    cases ended
    exact congrArg Prod.fst (Option.some.inj same)
  · rintro rfl
    exact ⟨[], s.length, rfl, rfl, fun q _ => .inr (.inl (min q))⟩

theorem agreeFrom_iff (fuel : Nat) (s : Bytes) (x : LogInfo) (e : Nat) (wakes : List Nat) (enough : s.length < fuel) :
    AgreeFrom fuel s x e wakes ↔ LegibleFrom fuel s x.quiescent e wakes := by
  induction fuel generalizing s x e wakes with
  | zero => exact absurd enough (Nat.not_lt_zero _)
  | succ fuel ih =>
    unfold LegibleFrom
    by_cases whole : Whole s
    · have less := drop_length_lt whole
      have rest : (s.drop (size s)).length < fuel := by omega
      rw [if_pos whole]
      have kv : ∀ c, command s = some c → extract s = extractKv c (size s) s →
          (∀ x : LogInfo, infoLoop (fuel + 1) s x = infoLoop fuel (s.drop (size s)) { x with quiescent := false }) →
          (∀ q, minLoop q (fuel + 1) s e = minLoop q fuel (s.drop (size s)) e) →
          (AgreeFrom (fuel + 1) s x e wakes ↔
            FieldsFit 24 16 s ∧ LegibleFrom fuel (s.drop (size s)) false e wakes) := by
        intro c _ extracted info min
        by_cases fits : FieldsFit 24 16 s
        · obtain ⟨r, goes⟩ := extractKv_fits whole c fits
          rw [@agreeFrom_next _ _ _ _ _ _ (.op r) whole (extracted.trans goes) (info x) min, ih _ _ _ _ rest]
          exact (and_iff_right fits).symm
        · have refused : extract s = some .fail := extracted.trans (extractKv_unfit whole c fits)
          exact iff_of_false (not_agreeFrom_refused whole (.inr refused) (info x)) fun both => fits both.1
      split
      · rename_i is
        split
        · rename_i short
          rw [@agreeFrom_stop _ _ _ { x with quiescent := false }, quiescent_eq]
          · rw [extract_whole whole, is]
            exact if_pos short
          · rw [infoLoop_whole whole, is]
            exact if_pos short
          · intro q
            rw [minLoop_whole whole, is]
            exact if_pos short
        · rename_i long
          rw [@agreeFrom_next _ _ _ _ (fieldAt 8 8 s) _ (.epoch (fieldAt 8 8 s)) whole, ih _ _ _ _ rest]
          · rfl
          · rw [extract_whole whole, is]
            exact if_neg long
          · rw [infoLoop_whole whole, is]
            exact if_neg long
          · intro q
            rw [minLoop_whole whole, is]
            exact if_neg long
      · rename_i is
        rw [agreeFrom_wake whole is, ih _ _ _ _ rest]
        rfl
      · rename_i is
        rw [@agreeFrom_next _ _ _ _ e _ .quiesce whole, ih _ _ _ _ rest]
        · rfl
        · rw [extract_whole whole, is]
        · rw [infoLoop_whole whole, is]
        · intro q
          rw [minLoop_whole whole, is]
      · rename_i is
        have info : infoLoop (fuel + 1) s x = infoLoop fuel (s.drop (size s)) { x with quiescent := false } := by
          rw [infoLoop_whole whole, is]
        have extracted : extract s = extractKvdelta (size s) s := by rw [extract_whole whole, is]
        by_cases fits : FieldsFit 32 24 s
        · obtain ⟨r, goes⟩ := extractKvdelta_fits whole fits
          rw [@agreeFrom_next _ _ _ _ e _ (.op r) whole (extracted.trans goes) info, ih _ _ _ _ rest]
          · exact (and_iff_right fits).symm
          · intro q
            rw [minLoop_whole whole, is]
        · refine iff_of_false (not_agreeFrom_refused whole ?_ info) fun both => fits both.1
          rw [extracted]
          exact extractKvdelta_unfit fits
      · rename_i is
        exact agreeFrom_zero whole is
      · rename_i c notEpoch notWake notQuiesce notModify notNone is
        refine kv c is ?_ (fun x => ?_) (fun q => ?_)
        · rw [extract_whole whole, is]
          cases c with
          | none => exact absurd rfl notNone
          | modify => exact absurd rfl notModify
          | epoch => exact absurd rfl notEpoch
          | quiesce => exact absurd rfl notQuiesce
          | wake => exact absurd rfl notWake
          | _ => rfl
        · rw [infoLoop_whole whole, is]
          cases c with
          | none => exact absurd rfl notNone
          | epoch => exact absurd rfl notEpoch
          | quiesce => exact absurd rfl notQuiesce
          | wake => exact absurd rfl notWake
          | _ => rfl
        · rw [minLoop_whole whole, is]
          cases c with
          | epoch => exact absurd rfl notEpoch
          | wake => exact absurd rfl notWake
          | _ => rfl
      · rename_i is
        exact iff_of_false (not_agreeFrom_unknown whole is) id
    · rw [if_neg whole]
      refine iff_of_true ((@agreeFrom_stop _ _ _ x _ _ (extract_torn whole) (infoLoop_torn fuel x whole) fun q => ?_).mpr rfl)
        trivial
      exact minLoop_torn q fuel e whole

/-- The three scans agree on exactly the legible files. -/
theorem scansAgree_iff_legible (file : Bytes) : ScansAgree file ↔ Legible file := by
  rw [Legible, ← agreeFrom_iff (file.length + 1) file {} 0 [] (Nat.lt_succ_self _)]
  unfold ScansAgree AgreeFrom extractScan infoScan minScan
  simp

/-- The file is one modify record of eight bytes. -/
theorem scans_disagree : ¬ ScansAgree [0x6B, 0x4D, 0x4F, 0x44, 8, 0, 0, 0] := by
  rintro ⟨entries, left, ended, -, -⟩
  have outside : extractScan [0x6B, 0x4D, 0x4F, 0x44, 8, 0, 0, 0] = none := by decide
  rw [outside] at ended
  cases ended

end LogBytes

end Masstree
