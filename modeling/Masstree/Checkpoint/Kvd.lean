import Masstree.Log.Logset
import Masstree.Log.Sequential
import Masstree.Log.Waitlist

/-!
# The server with its checkpointer

Workers lock a key's leaf, acquire their log and read the epoch, publish the new row or its removal and
append the record, as `onego` does; the logs' threads and the epoch go on as before; and the
checkpointer reads `min_epoch`, visits the keys, reads `max_epoch` and commits once the logs are flushed
past it. Leaf locks are per key here, which allows every order that locks on whole leaves allow.
-/

namespace Masstree
open Msgpack (Bytes)

variable {n : Nat}

/-- The lock of a key's leaf; `dated` once its holder has acquired a log and read the epoch. -/
inductive LeafLock (n : Nat) where
  | free
  | locked
  | dated (i : Fin n) (e : Nat)
  deriving DecidableEq

/-- A row in a checkpoint file: its timestamp and `row_string`. -/
structure SavedRow where
  ts : Nat
  row : Bytes

def checkpointWrite (row : ValueBag) : Option SavedRow :=
  if rowIsMarker row then none else some ⟨row.timestamp, row.s.take (row.posAt row.ncol)⟩

/-- The offsets read from the bytes of `pos_`, as many as there are columns and one. -/
def readOffsets : Nat → Bytes → List Nat
  | k + 1, a :: b :: s => (a.toNat + 256 * b.toNat) :: readOffsets k s
  | _, _ => []

def checkpointRead (saved : SavedRow) : ValueBag :=
  match saved.row with
  | a :: b :: s =>
    let ncol := a.toNat + 256 * b.toNat
    { ts := saved.ts, ncol, pos := readOffsets (ncol + 1) s, body := s.drop (2 * (ncol + 1)) }
  | _ => { ts := saved.ts, ncol := 0, pos := [], body := [] }

/-- A checkpoint, with the keys its threads have visited. -/
structure Checkpoint where
  minEpoch : Nat
  maxEpoch : Nat := 0
  visited : Bytes → Bool := fun _ => false
  rows : Bytes → Option SavedRow := fun _ => none
  /-- How many records of a key were published when it was visited. The code keeps no such number. -/
  seen : Bytes → Nat := fun _ => 0

def Checkpoint.load (c : Checkpoint) (key : Bytes) : Option ValueBag := (c.rows key).map checkpointRead

inductive Checkpointer where
  | ready
  | scanning (c : Checkpoint)
  | uncommitted (c : Checkpoint)

structure Kvd (n : Nat) where
  logs : Logset n LogRecord
  table : Table := fun _ => none
  phantom : Nat → Nat := fun _ => 0
  /-- `ti.ts_` of each worker thread -/
  ts : Nat → Nat := fun _ => 2
  leaf : Bytes → LeafLock n := fun _ => .free
  checkpointer : Checkpointer := .ready
  committed : Option Checkpoint := none
  /-- The records published for each key, oldest first. The code keeps no such list. -/
  history : Bytes → List LogRecord := fun _ => []

inductive Move (n : Nat) where
  | lock (key : Bytes)
  | unlock (key : Bytes)
  | acquire (i : Fin n) (key : Bytes)
  | publish (i : Fin n) (worker : Nat) (site : Site) (key : Bytes) (request : Request)
  | record (i : Fin n)
  | poll (i : Fin n)
  | write (i : Fin n)
  | fsync (i : Fin n)
  | tick
  | start
  | visit (keys : Bytes → Bool)
  | prepare
  | commit

def LogState.pos (l : LogState LogRecord) : Nat :=
  (l.buf.map fun
    | .epoch _ => 16
    | .wake | .quiesce => 8
    | .op lr => lr.storedSize).sum

namespace Kvd

def quiescent (l : LogState LogRecord) : Bool := l.quiescentEpoch ≠ 0 ∧ l.quiescentEpoch = l.flushedEpoch

/-- `max_flushed_epoch`: the smallest flushed epoch of the logs, with 0 taken for unset. -/
def maxFlushedEpoch (s : Logset n LogRecord) : Nat :=
  (List.finRange n).foldl (fun mfe i =>
    let fe := if quiescent (s.logs i) then s.globalLogEpoch else (s.logs i).flushedEpoch
    if mfe = 0 ∨ fe < mfe then fe else mfe) 0

/-- The checkpointer reads the rows of these keys. -/
def visit (s : Kvd n) (keys : Bytes → Bool) (c : Checkpoint) : Checkpoint :=
  { c with visited := fun key => c.visited key || keys key
           rows := fun key => if c.visited key then c.rows key
             else if keys key then (s.table key).bind checkpointWrite else none
           seen := fun key => if c.visited key then c.seen key
             else if keys key then (s.history key).length else 0 }

/-- A worker publishes the request it was given, in the epoch `e` it read. -/
def published (s : Kvd n) (i : Fin n) (worker : Nat) (key : Bytes) (e : Nat) (lr : LogRecord) (live : Server) : Kvd n :=
  { s with logs := s.logs.step (.publish i { lr with epoch := e })
           table := live.table
           phantom := live.phantom
           ts := Function.update s.ts worker live.ts
           leaf := Function.update s.leaf key .free
           history := Function.update s.history key (s.history key ++ [{ lr with epoch := e }]) }

/-- One step of a worker, of a log's thread, of the epoch or of the checkpointer. -/
inductive Step (s : Kvd n) : Move n → Kvd n → Prop where
  | lock (key : Bytes) : s.leaf key = .free →
      Step s (.lock key) { s with leaf := Function.update s.leaf key .locked }
  /-- The key is not there, or the request was a read. -/
  | unlock (key : Bytes) : s.leaf key = .locked →
      Step s (.unlock key) { s with leaf := Function.update s.leaf key .free }
  | acquire (i : Fin n) (key : Bytes) : s.leaf key = .locked → (s.logs.logs i).holder = none →
      Step s (.acquire i key)
        { s with logs := s.logs.step (.acquire i)
                 leaf := Function.update s.leaf key (.dated i s.logs.globalLogEpoch) }
  | publish (i : Fin n) (worker : Nat) (site : Site) (key : Bytes) (request : Request) (e : Nat) (lr : LogRecord)
      (live : Server) : s.leaf key = .dated i e → (s.logs.logs i).holder = some (e, none) →
      Server.onego { table := s.table, phantom := s.phantom, ts := s.ts worker } site request = some (live, some lr) →
      request.key = key → request.Encoded → Step s (.publish i worker site key request) (s.published i worker key e lr live)
  | record (i : Fin n) : Step s (.record i) { s with logs := s.logs.step (.record i) }
  | poll (i : Fin n) : Step s (.poll i) { s with logs := s.logs.step (.poll i) }
  | write (i : Fin n) : Step s (.write i) { s with logs := s.logs.step (.write i) }
  | fsync (i : Fin n) : Step s (.fsync i) { s with logs := s.logs.step (.fsync i) }
  | tick : Step s .tick { s with logs := s.logs.step .tick }
  | start : s.checkpointer = .ready →
      Step s .start { s with checkpointer := .scanning { minEpoch := s.logs.globalLogEpoch } }
  | visit (keys : Bytes → Bool) (c : Checkpoint) : s.checkpointer = .scanning c →
      Step s (.visit keys) { s with checkpointer := .scanning (s.visit keys c) }
  | prepare (c : Checkpoint) : s.checkpointer = .scanning c → (∀ key, c.visited key = true) →
      Step s .prepare { s with checkpointer := .uncommitted { c with maxEpoch := s.logs.globalLogEpoch } }
  | commit (c : Checkpoint) : s.checkpointer = .uncommitted c →
      maxFlushedEpoch s.logs = 0 ∨ c.maxEpoch < maxFlushedEpoch s.logs →
      Step s .commit { s with checkpointer := .ready, committed := some c }

/-- What is published is no remove and is logged under its own key, which `extract` reads back, and no worker has to
wait for room in the `len` bytes of a log's buffer. -/
structure Regular (len : Nat) (s : Kvd n) (move : Move n) : Prop where
  plain : ∀ i worker site key request, move = .publish i worker site key request → ∀ key', request ≠ .remove key'
  keeps : ∀ i worker site key request, move = .publish i worker site key request → request.Keeps site
  short : ∀ i worker site key request, move = .publish i worker site key request → key.length ≤ maxKeyLen
  room : ∀ i e lr, move = .record i → (s.logs.logs i).holder = some (e, some lr) → (s.logs.logs i).pos + lr.room ≤ len

/-- Runs in which every step meets a condition on the state before it. -/
inductive Run (allowed : Kvd n → Move n → Prop) (s : Kvd n) : Kvd n → Prop where
  | nil : Run allowed s s
  | step {s' s'' : Kvd n} (move : Move n) : Run allowed s s' → allowed s' move → Step s' move s'' → Run allowed s s''

/-- The move that is this step of the logs, for the steps no lock on a leaf is needed for. -/
def Move.ofEvent : Event n LogRecord → Option (Move n)
  | .record i => some (.record i)
  | .poll i => some (.poll i)
  | .write i => some (.write i)
  | .fsync i => some (.fsync i)
  | .tick => some .tick
  | _ => none

theorem Run.events {allowed : Kvd n → Move n → Prop} {s s' : Kvd n} (run : Run allowed s s')
    (events : List (Event n LogRecord)) (moves : ∀ event ∈ events, (Move.ofEvent event).isSome = true)
    (ok : ∀ s, ∀ event ∈ events, ∀ move, Move.ofEvent event = some move → allowed s move) :
    Run allowed s { s' with logs := s'.logs.run events } := by
  induction events generalizing s' with
  | nil => exact run
  | cons event rest ih =>
    have first : Run allowed s { s' with logs := s'.logs.step event } := by
      have here := moves event List.mem_cons_self
      cases event with
      | acquire | publish => cases here
      | record i => exact run.step (.record i) (ok _ _ List.mem_cons_self _ rfl) (.record i)
      | poll i => exact run.step (.poll i) (ok _ _ List.mem_cons_self _ rfl) (.poll i)
      | write i => exact run.step (.write i) (ok _ _ List.mem_cons_self _ rfl) (.write i)
      | fsync i => exact run.step (.fsync i) (ok _ _ List.mem_cons_self _ rfl) (.fsync i)
      | tick => exact run.step .tick (ok _ _ List.mem_cons_self _ rfl) .tick
    exact ih first (fun event member => moves event (List.mem_cons_of_mem _ member))
      fun s event member => ok s event (List.mem_cons_of_mem _ member)

/-- An invariant that every allowed step keeps holds throughout the run. -/
theorem Run.induct {allowed : Kvd n → Move n → Prop} {inv : Kvd n → Prop} {s s' : Kvd n} (run : Run allowed s s')
    (initial : inv s) (kept : ∀ s move s', inv s → allowed s move → Step s move s' → inv s') : inv s' := by
  induction run with
  | nil => exact initial
  | step move _ ok step ih => exact kept _ move _ ih ok step

/-- The logs take at most one step of theirs. -/
theorem step_logs {s s' : Kvd n} {move : Move n} (step : Step s move s') :
    s'.logs = s.logs ∨ ∃ event, s'.logs = s.logs.step event := by
  cases step with
  | acquire i => exact Or.inr ⟨.acquire i, rfl⟩
  | publish i _ _ _ _ e lr => exact Or.inr ⟨.publish i { lr with epoch := e }, rfl⟩
  | record i => exact Or.inr ⟨.record i, rfl⟩
  | poll i => exact Or.inr ⟨.poll i, rfl⟩
  | write i => exact Or.inr ⟨.write i, rfl⟩
  | fsync i => exact Or.inr ⟨.fsync i, rfl⟩
  | tick => exact Or.inr ⟨.tick, rfl⟩
  | _ => exact Or.inl rfl

theorem step_good {s s' : Kvd n} {move : Move n} (step : Step s move s') (good : s.logs.Good) : s'.logs.Good := by
  rcases step_logs step with same | ⟨event, same⟩
  · rwa [same]
  · rw [same]
    exact Logset.step_good good event

theorem step_epoch_le {s s' : Kvd n} {move : Move n} (step : Step s move s') :
    s.logs.globalLogEpoch ≤ s'.logs.globalLogEpoch := by
  rcases step_logs step with same | ⟨event, same⟩
  · rw [same]
  · rw [same]
    rcases Logset.step_cases s.logs event with same | ⟨_, _, _, epoch, _⟩ | ⟨_, epoch, _⟩
    · rw [same]
    · omega
    · omega

/-- A server with one log, started without files. -/
def fresh : Kvd 1 where
  logs := Logset.started 1 fun _ => []

end Kvd

end Masstree
