import Masstree.Log.Changeset
import Masstree.Query.Run

/-!
# Handling a request

`onego` runs the command of a request and builds the reply over it. What has no defined result (an assertion that
fails, a read or write outside a row, a read of freed memory, a loop that does not end) is `none`.
-/

namespace Masstree
open Msgpack (Bytes Json)

inductive Command where
  | checkpoint
  | get
  | put
  | replace
  | remove
  | scan
  | other
  deriving DecidableEq, Repr

/-- The command `onego` takes a request for. A put must have columns and values. -/
def commandOf (request : List Json) : Option Command := do
  let command ← commandNumber (request.getD 1 .null)
  some (match command with
    | 12 => .checkpoint
    | 2 => .get
    | 6 => if 3 < request.length ∧ request.length % 2 = 1 then .put else .other
    | 8 => .replace
    | 10 => .remove
    | 4 => .scan
    | _ => .other)

/-- The command's number in a reply, `command + 1`. -/
def Command.reply : Command → Int
  | .checkpoint => 13
  | .get => 3
  | .put => 7
  | .replace => 9
  | .remove => 11
  | .scan => 5
  | .other => -1

structure Outcome where
  store : Store
  log : Option LogRecord := none
  reply : List Item
  handled : Bool := true

/-- Column numbers and values, before `update` cuts the numbers off to 32 bits. -/
def namedColumns : List Json → Option Changes
  | [] => some []
  | column :: value :: rest => do
    let idx ← column.asU
    let v ← value.asS
    let changes ← namedColumns rest
    return (idx, v) :: changes
  | [_] => none

/-- `update` copies the row and overwrites one column. -/
def ValueBag.shortcut (r : ValueBag) (changes : Changes) : Bool :=
  match changes with
  | [(_, v)] => (r.plan changes).2 = r.ncol ∧ (r.plan changes).1 = r.size ∧ v.length ≤ 16
  | _ => false

/-- The shortcut of `update` does not cut the column number off. -/
def readsOutside (row : Option ValueBag) (named : Changes) : Bool :=
  named.any (fun p => 2 ^ 32 ≤ p.1) &&
    (row.getD .empty).shortcut (named.map fun p => (p.1 % 2 ^ 32, p.2))

namespace Store

/-- The record of a put, if the thread logs. -/
def putRecord (logging : Option LogPath) (wire : Bytes) (request : List Json) (key : Bytes) (times : QueryTimes) :
    Option (Option LogRecord) :=
  match logging with
  | none => some none
  | some path => (loggedChanges path wire request).map fun value => some (logRecord .put times key value)

/-- The record's key is not read from freed memory. -/
def readable (site : Site) (logging : Option LogPath) : Bool := logging.isNone || site.reused.isNone

/-- `onego`. A thread without a logger has no log path. -/
def onego (s : Store) (site : Site) (logging : Option LogPath) (wire : Bytes) (request : List Json) :
    Option Outcome := do
  let command ← commandOf request
  let answer (reply : List Item) := reply.set 1 (.json (.int command.reply))
  let head := (request.take 3).map Item.json
  match command with
  | .checkpoint => some { store := s, reply := answer (head.take 2) }
  | .get => do
    let reply ← s.runGet request
    some { store := s, reply := answer reply }
  | .put => do
    let key ← (request.getD 2 .null).asS
    let named ← namedColumns (request.drop 3)
    if readsOutside (ordinary (s.rows.find key)) named then none
    else do
      let changes ← changesOf (request.drop 3)
      let (s', times, result) ← s.runPut site key changes
      if readable site logging then do
        let log ← putRecord logging wire request key times
        some { store := s', log, reply := answer (head.set 2 (.json (.int result.code))) }
      else none
  | .replace => do
    let key ← (request.getD 2 .null).asS
    let value ← (request.getD 3 .null).asS
    let (s', times, result) ← s.runReplace site key value
    if readable site logging then
      some { store := s', reply := answer (head.set 2 (.json (.int result.code)))
             log := logging.map fun _ => logRecord .replace times key value }
    else none
  | .remove => do
    let key ← (request.getD 2 .null).asS
    let (s', times) := s.runRemove site key
    some { store := s', reply := answer (head.set 2 (.json (.bool times.isSome)))
           log := if logging.isSome then times.map fun times => logRecord .remove times key [] else none }
  | .scan => do
    let reply ← s.runScan false request
    some { store := s, reply := answer reply }
  | .other => some { store := s, reply := answer (head.take 2), handled := false }

/-! ### What is asked of it -/

def Rejected (s : Store) (o : Outcome) : Prop := o.store = s ∧ o.log = none ∧ o.handled = false

/-- The command's operation on the map from keys to columns, within the preconditions of what it calls. -/
def Performed (s : Store) (request : List Json) (o : Outcome) : Command → Prop
  | .checkpoint => o.store = s ∧ o.log = none
  | .get => o.store = s ∧ o.log = none ∧ ∃ key, request.getD 2 .null = .str key ∧
      ∀ cols, s.contents key = some cols → ∃ columns, (request.drop 3).mapM Json.asI = some columns ∧
        o.reply.drop 2 = (select columns cols).map Item.json
  | .put => ∃ key changes, request.getD 2 .null = .str key ∧ namedColumns (request.drop 3) = some changes ∧
      changes.Pairwise (fun p q => p.1 < q.1) ∧ o.store.Valid ∧
      o.store.contents = Function.update s.contents key (some (applyChanges ((s.contents key).getD []) changes))
  | .replace => ∃ key value, request.getD 2 .null = .str key ∧ request.getD 3 .null = .str value ∧ o.store.Valid ∧
      o.store.contents = Function.update s.contents key (some [value])
  | .remove => ∃ key, request.getD 2 .null = .str key ∧ o.store.Valid ∧
      o.store.contents = Function.update s.contents key none
  | .scan => o.store = s ∧ o.log = none ∧ ∃ first count columns, request.getD 2 .null = .str first ∧
      (request.getD 3 .null).asI = some count ∧ (request.drop 4).mapM Json.asI = some columns ∧ 0 < count ∧
      o.reply.drop 2 = scanReply columns ((s.inRange false first).take count.toNat)
  | .other => False

/-- `onego` ends, and it rejects the request or performs its command. -/
def Safe (s : Store) (site : Site) (logging : Option LogPath) (wire : Bytes) (request : List Json) : Prop :=
  ∃ o, s.onego site logging wire request = some o ∧
    (s.Rejected o ∨ ∃ command, commandOf request = some command ∧ s.Performed request o command)

def Handles (s : Store) (site : Site) (logging : Option LogPath) (request : List Json) : Prop :=
  match commandOf request with
  | none => False
  | some .checkpoint | some .other => True
  | some .get => ∃ key, request.getD 2 .null = .str key ∧ ∀ cols, s.contents key = some cols →
      ∃ columns, (request.drop 3).mapM Json.asI = some columns ∧ ShortReads columns cols
  | some .put => ∃ key changes, request.getD 2 .null = .str key ∧ namedColumns (request.drop 3) = some changes ∧
      s.Answers site (.put key changes) ∧ readable site logging = true
  | some .replace => ∃ key value, request.getD 2 .null = .str key ∧ request.getD 3 .null = .str value ∧
      s.Answers site (.replace key value) ∧ readable site logging = true
  | some .remove => ∃ key, request.getD 2 .null = .str key
  | some .scan => ∃ first count columns, request.getD 2 .null = .str first ∧ (request.getD 3 .null).asI = some count ∧
      (request.drop 4).mapM Json.asI = some columns ∧ s.Answers site (.scan false .null .null first count columns)

/-- The tables that requests lead to, each handled by a thread at some leaf. -/
inductive Reachable : Store → Prop
  | start {s : Store} (valid : s.Valid) : Reachable s
  | step {s : Store} {site : Site} {logging : Option LogPath} {wire : Bytes} {request : List Json} {o : Outcome}
      (reachable : Reachable s) (received : Msgpack.parseRequest wire = some request) (handles : s.Handles site logging request)
      (ran : s.onego site logging wire request = some o) : Reachable o.store

end Store

/-! ### The numbers and bytes of a put -/

/-- A put whose columns fit is applied as it is named. -/
theorem changesOf_named {pairs : List Json} {named : Changes} (read : namedColumns pairs = some named)
    (small : ∀ p ∈ named, p.1 < 2 ^ 32) : changesOf pairs = some named := by
  induction pairs using namedColumns.induct generalizing named with
  | case1 =>
    cases read
    rfl
  | case2 column value rest ih =>
    simp only [namedColumns, Option.bind_eq_bind, Option.bind_eq_some_iff] at read
    obtain ⟨idx, number, v, str, named', later, same⟩ := read
    cases same
    rw [changesOf, number, str, ih later fun p member => small p (List.mem_cons_of_mem _ member)]
    have low := small (idx, v) List.mem_cons_self
    simp only [Option.bind_eq_bind, Option.bind_some, Nat.mod_eq_of_lt low]
    rfl
  | case3 => cases read

theorem named_lt {cols : List Bytes} {changes : Changes}
    (fits : ValueBag.layoutSize (applyChanges cols changes) < 2 ^ 16) : ∀ p ∈ changes, p.1 < 2 ^ 32 := by
  intro p member
  have low := ValueBag.lt_width member cols.length
  have columns : (applyChanges cols changes).length = width cols.length changes := by simp [applyChanges]
  unfold ValueBag.layoutSize at fits
  omega

theorem unparse_pairs {pairs : List Json} {changes : Changes} (applied : changesOf pairs = some changes) :
    (pairs.mapM Msgpack.unparse).isSome = true := by
  induction pairs using changesOf.induct generalizing changes with
  | case1 => rfl
  | case2 column value rest ih =>
    simp only [changesOf, Option.bind_eq_bind, Option.bind_eq_some_iff] at applied
    obtain ⟨idx, number, v, str, changes', later, -⟩ := applied
    obtain ⟨items, written⟩ := Option.isSome_iff_exists.mp (ih later)
    rw [List.mapM_cons, List.mapM_cons, written]
    have column_ : ∃ bytes, Msgpack.unparse column = some bytes := by
      cases column <;> simp_all [Json.asU, Msgpack.unparse]
    have value_ : ∃ bytes, Msgpack.unparse value = some bytes := by
      cases value <;> simp_all [Json.asS, Msgpack.unparse]
    obtain ⟨_, column_⟩ := column_
    obtain ⟨_, value_⟩ := value_
    rw [column_, value_]
    rfl
  | case3 => cases applied

/-- Finding the bytes to log never leaves the request. -/
theorem loggedChanges_isSome {wire key : Bytes} {request : List Json} {changes : Changes} (path : LogPath)
    (received : Msgpack.parseRequest wire = some request) (put : acceptPut request = some (key, changes)) :
    (loggedChanges path wire request).isSome = true := by
  obtain ⟨pairs, same, ⟨r⟩⟩ := received_put received put
  cases path with
  | json =>
    rw [loggedChanges, same, unparseChanges, Option.isSome_map]
    exact unparse_pairs r.applied
  | raw =>
    obtain ⟨b₀, t₀, -, skipSeq⟩ := r.seqWalks.skip
    obtain ⟨b₁, t₁, -, skipCommand⟩ := r.commandWalks.skip
    rw [loggedChanges, r.header, Option.bind_some]
    simp only [Msgpack.skipPrimitives, skipSeq, Option.bind_some]
    by_cases known : Msgpack.skips b₀ = true
    · rw [if_pos known, skipCommand, Option.bind_some]
      by_cases known' : Msgpack.skips b₁ = true
      · rw [if_pos known', r.keyWalks.skip_str]
        rfl
      · rw [if_neg known', skipCommand]
        rfl
    · rw [if_neg known, skipSeq, if_neg known, Option.bind_some, skipSeq]
      rfl

namespace Store

variable {s : Store} {site : Site} {logging : Option LogPath} {wire : Bytes} {request : List Json}

theorem request_length {command : Command} (read : commandOf request = some command) : 2 ≤ request.length := by
  obtain ⟨c, read, -⟩ := Option.bind_eq_some_iff.mp read
  by_contra short
  rw [List.getD_eq_default _ _ (by omega)] at read
  cases read

/-- The command's number is the reply's second element. -/
theorem drop_answer (reply : List Item) (x : Item) : (reply.set 1 x).drop 2 = reply.drop 2 := by
  rcases reply with _ | ⟨a, _ | ⟨b, reply⟩⟩ <;> rfl

theorem drop_head (columns : List Item) (long : 2 ≤ request.length) :
    ((request.take 2).map Item.json ++ columns).drop 2 = columns :=
  List.drop_left' (by simp; omega)

theorem safe_iff {command : Command} (read : commandOf request = some command) :
    s.Safe site logging wire request ↔
      ∃ o, s.onego site logging wire request = some o ∧ (s.Rejected o ∨ s.Performed request o command) := by
  unfold Safe
  simp only [read, Option.some_inj, exists_eq_left']

theorem get_safe (valid : s.Valid) (command : commandOf request = some .get) :
    s.Safe site logging wire request ↔ s.Handles site logging request := by
  have long := request_length command
  have ran : s.onego site logging wire request =
      (s.runGet request).map fun reply => { store := s, reply := reply.set 1 (.json (.int 3)) } := by
    unfold onego
    rw [command]
    cases s.runGet request <;> rfl
  rw [safe_iff command, Handles, command, ran]
  constructor
  · rintro ⟨o, result, rejected | ⟨-, -, key, named, columns⟩⟩
    · obtain ⟨reply, -, rfl⟩ := Option.map_eq_some_iff.mp result
      cases rejected.2.2
    · refine ⟨key, named, fun cols present => ?_⟩
      obtain ⟨columns, numbers, whole⟩ := columns cols present
      rw [runGet_present valid named present, numbers, Option.map_some, Option.map_some] at result
      rw [← Option.some_inj.mp result, drop_answer, drop_head _ long] at whole
      exact ⟨columns, numbers, (items_iff columns cols).mp whole⟩
  · rintro ⟨key, named, columns⟩
    cases found : s.contents key with
    | none =>
      rw [runGet_absent named found]
      exact ⟨_, rfl, .inr ⟨rfl, rfl, key, named, fun cols present => by rw [found] at present; cases present⟩⟩
    | some cols =>
      obtain ⟨columns, numbers, reads⟩ := columns cols found
      rw [runGet_present valid named found, numbers]
      refine ⟨_, rfl, .inr ⟨rfl, rfl, key, named, fun cols' present => ?_⟩⟩
      rw [found] at present
      cases present
      refine ⟨columns, numbers, ?_⟩
      rw [drop_answer, drop_head _ long]
      exact (items_iff columns cols).mpr reads

theorem scan_safe (valid : s.Valid) (command : commandOf request = some .scan) :
    s.Safe site logging wire request ↔ s.Handles site logging request := by
  have long := request_length command
  have ran : s.onego site logging wire request =
      (s.runScan false request).map fun reply => { store := s, reply := reply.set 1 (.json (.int 5)) } := by
    unfold onego
    rw [command]
    cases s.runScan false request <;> rfl
  rw [safe_iff command, Handles, command, ran]
  constructor
  · rintro ⟨o, result, rejected | ⟨-, -, first, count, columns, named, number, fields, positive, whole⟩⟩
    · obtain ⟨reply, -, rfl⟩ := Option.map_eq_some_iff.mp result
      cases rejected.2.2
    · refine ⟨first, count, columns, named, number, fields, positive, ?_⟩
      rw [runScan_eq s false named number fields] at result
      obtain ⟨reply, scanned, rfl⟩ := Option.map_eq_some_iff.mp result
      split at scanned
      · rename_i allowed
        obtain ⟨found, visited, rfl⟩ := Option.map_eq_some_iff.mp scanned
        rw [drop_answer, drop_head _ long] at whole
        rw [whole] at visited
        exact ⟨allowed.2, (visit_iff valid false first columns positive).mp visited⟩
      · cases scanned
  · rintro ⟨first, count, columns, named, number, fields, positive, short, fits⟩
    rw [runScan_eq s false named number fields, if_pos ⟨positive, short⟩,
      (visit_iff valid false first columns positive).mpr fits]
    refine ⟨_, rfl, .inr ⟨rfl, rfl, first, count, columns, named, number, fields, positive, ?_⟩⟩
    rw [drop_answer, drop_head _ long]

theorem replace_safe (valid : s.Valid) (command : commandOf request = some .replace) :
    s.Safe site logging wire request ↔ s.Handles site logging request := by
  have ran : s.onego site logging wire request = (request.getD 2 .null).asS.bind fun key =>
      (request.getD 3 .null).asS.bind fun value => (s.runReplace site key value).bind fun r =>
        if readable site logging then
          some { store := r.1, log := logging.map fun _ => logRecord .replace r.2.1 key value
                 reply := (((request.take 3).map Item.json).set 2 (.json (.int r.2.2.code))).set 1 (.json (.int 9)) }
        else none := by
    unfold onego
    rw [command]
    rfl
  rw [safe_iff command, Handles, command, ran]
  constructor
  · rintro ⟨o, result, rejected | ⟨key, value, named, given, after, holds⟩⟩
    · simp only [Option.bind_eq_some_iff, Option.ite_none_right_eq_some] at result
      obtain ⟨_, -, _, -, _, -, -, same⟩ := result
      cases same
      cases rejected.2.2
    · simp only [named, given, Json.asS, Option.bind_some, Option.bind_eq_some_iff, Option.ite_none_right_eq_some] at result
      obtain ⟨r, replaced, held, same⟩ := result
      have stored : o.store.contents key = some [value] := by rw [holds, Function.update_self]
      exact ⟨key, value, named, given, ⟨(Option.ite_none_right_eq_some.mp replaced).1, after.contents_fits stored⟩, held⟩
  · rintro ⟨key, value, named, given, answers, held⟩
    obtain ⟨s', times, result, replaced, after, -, holds⟩ := (replace_iff valid key value site).mpr answers
    simp only [named, given, Json.asS, replaced, Option.bind_some, if_pos held]
    exact ⟨_, rfl, .inr ⟨key, value, named, given, after, holds⟩⟩

theorem remove_safe (valid : s.Valid) (command : commandOf request = some .remove) :
    s.Safe site logging wire request ↔ s.Handles site logging request := by
  rw [safe_iff command, Handles, command]
  constructor
  · rintro ⟨o, result, rejected | ⟨key, named, -⟩⟩
    · unfold onego at result
      rw [command] at result
      simp only [Option.bind_eq_bind, Option.bind_some, Option.bind_eq_some_iff] at result
      obtain ⟨key, -, result⟩ := result
      cases result
      cases rejected.2.2
    · exact ⟨key, named⟩
  · rintro ⟨key, named⟩
    obtain ⟨s', times, ran, after, -, holds⟩ := runRemove_eq valid key site
    unfold onego
    rw [command]
    simp only [Option.bind_eq_bind, Option.bind_some, named, Json.asS, ran]
    exact ⟨_, rfl, .inr ⟨key, named, after, holds⟩⟩

theorem put_shape (read : commandOf request = some .put) : ∃ seq command key pairs,
    request = seq :: command :: key :: pairs ∧ commandNumber command = some cmdPut ∧ 3 < request.length ∧
      request.length % 2 = 1 := by
  obtain ⟨c, number, read⟩ := Option.bind_eq_some_iff.mp read
  rw [Option.some_inj] at read
  split at read
  all_goals try cases read
  split at read
  · rename_i form
    rcases request with _ | ⟨seq, _ | ⟨command, _ | ⟨key, pairs⟩⟩⟩
    · simp at form
    · simp at form
    · simp at form
    · exact ⟨seq, command, key, pairs, rfl, number, form⟩
  · cases read

theorem putRecord_isSome {key : Bytes} {changes : Changes} (times : QueryTimes)
    (received : Msgpack.parseRequest wire = some request) (put : acceptPut request = some (key, changes)) :
    (putRecord logging wire request key times).isSome = true := by
  cases logging with
  | none => rfl
  | some path =>
    rw [putRecord, Option.isSome_map]
    exact loggedChanges_isSome path received put

theorem put_safe (valid : s.Valid) (received : Msgpack.parseRequest wire = some request)
    (command : commandOf request = some .put) :
    s.Safe site logging wire request ↔ s.Handles site logging request := by
  rw [safe_iff command, Handles, command]
  constructor
  · rintro ⟨o, result, rejected | ⟨key, changes, named, read, sorted, after, holds⟩⟩
    · unfold onego at result
      rw [command] at result
      simp only [Option.bind_eq_bind, Option.bind_some, Option.bind_eq_some_iff] at result
      obtain ⟨key, -, changes, -, result⟩ := result
      split at result
      · cases result
      · simp only [Option.bind_eq_some_iff, Option.ite_none_right_eq_some] at result
        obtain ⟨_, -, _, -, -, _, -, result⟩ := result
        cases result
        cases rejected.2.2
    · have stored : o.store.contents key = some (applyChanges ((s.contents key).getD []) changes) := by
        rw [holds, Function.update_self]
      unfold onego at result
      rw [command] at result
      simp only [Option.bind_eq_bind, Option.bind_some, named, Json.asS, read, Option.ite_none_left_eq_some,
        Option.bind_eq_some_iff, Option.ite_none_right_eq_some] at result
      obtain ⟨-, _, -, _, put, held, -⟩ := result
      have takes := (Option.ite_none_right_eq_some.mp put).1
      exact ⟨key, changes, named, read, ⟨takes, sorted, after.contents_fits stored⟩, held⟩
  · rintro ⟨key, changes, named, read, answers, held⟩
    obtain ⟨sorted, s', times, result, ran, after, -, holds⟩ := (put_iff valid key changes site).mpr answers
    have small := named_lt answers.2.2
    have applied := changesOf_named read small
    have inside : readsOutside (ordinary (s.rows.find key)) changes = false := by
      have narrow : (changes.any fun p => 2 ^ 32 ≤ p.1) = false := by
        rw [List.any_eq_false]
        intro p member
        have := small p member
        simp
        omega
      rw [readsOutside, narrow, Bool.false_and]
    have put : acceptPut request = some (key, changes) := by
      obtain ⟨seq, c, k, pairs, rfl, number, form⟩ := put_shape command
      have str : k = .str key := named
      rw [List.drop_succ_cons, List.drop_succ_cons, List.drop_succ_cons, List.drop_zero] at applied
      unfold acceptPut
      dsimp only
      rw [if_pos ⟨number, form⟩, str, applied]
      rfl
    obtain ⟨log, logged⟩ := Option.isSome_iff_exists.mp (@putRecord_isSome logging wire request key changes times received put)
    unfold onego
    rw [command]
    simp only [Option.bind_eq_bind, Option.bind_some, named, Json.asS, read, inside, applied, ran, held, if_true, logged]
    exact ⟨_, rfl, .inr ⟨key, changes, named, read, sorted, after, holds⟩⟩

theorem valid_safe_iff (valid : s.Valid) (received : Msgpack.parseRequest wire = some request) :
    s.Safe site logging wire request ↔ s.Handles site logging request := by
  cases read : commandOf request with
  | none =>
    unfold Safe Handles
    rw [read]
    constructor
    · rintro ⟨o, ran, -⟩
      rw [onego, read] at ran
      cases ran
    · exact False.elim
  | some command =>
    cases command with
    | checkpoint =>
      rw [safe_iff read, Handles, read]
      exact iff_of_true ⟨_, by rw [onego, read]; rfl, .inr ⟨rfl, rfl⟩⟩ trivial
    | other =>
      rw [safe_iff read, Handles, read]
      exact iff_of_true ⟨_, by rw [onego, read]; rfl, .inl ⟨rfl, rfl, rfl⟩⟩ trivial
    | get => exact get_safe valid read
    | put => exact put_safe valid received read
    | replace => exact replace_safe valid read
    | remove => exact remove_safe valid read
    | scan => exact scan_safe valid read

/-- A handled request leads to a table that can be asked again. -/
theorem onego_valid (valid : s.Valid) (received : Msgpack.parseRequest wire = some request) {o : Outcome}
    (handles : s.Handles site logging request) (ran : s.onego site logging wire request = some o) : o.store.Valid := by
  obtain ⟨o', ran', outcome⟩ := (@valid_safe_iff s site logging wire request valid received).mpr handles
  rw [ran] at ran'
  cases ran'
  rcases outcome with rejected | ⟨command, -, performed⟩
  · rw [rejected.1]
    exact valid
  · cases command with
    | checkpoint => exact performed.1 ▸ valid
    | get => exact performed.1 ▸ valid
    | put =>
      obtain ⟨key, changes, -, -, -, after, -⟩ := performed
      exact after
    | replace =>
      obtain ⟨key, value, -, -, after, -⟩ := performed
      exact after
    | remove =>
      obtain ⟨key, -, after, -⟩ := performed
      exact after
    | scan => exact performed.1 ▸ valid
    | other => exact performed.elim

theorem reachable_valid (reachable : Reachable s) : s.Valid := by
  induction reachable with
  | start valid => exact valid
  | step _ received handles ran valid => exact onego_valid valid received handles ran

def swappedPut : List Json := [.int 1, .int 6, .str [107], .int 1, .str [120], .int 0, .str [121]]

theorem store_server (s : Store) (key : Bytes) (row : ValueBag) (times : QueryTimes) :
    (s.store key row times).server = s.server.store key row times := by
  unfold Store.store server Server.store
  dsimp only
  rw [OrderedMap.find_insert]

/-- The queries change the table and the times as `Server.onego` does, and their records are the same. -/
theorem runPut_server (s : Store) (site : Site) (key : Bytes) (changes : Changes) (wire : Bytes) :
    (s.runPut site key changes).map (fun r => (r.1.server, some (logRecord .put r.2.1 (site.logged key) wire))) =
      s.server.onego site (.put key changes wire) := by
  have takes : (s.moved site).server.takes site key = s.server.takes site key := rfl
  have table : (s.moved site).rows.find key = s.server.table key := rfl
  have seen : (s.moved site).seen site key =
      Server.seen { s.server with phantom := Server.move s.server.phantom site.moves } site key := rfl
  have takes' : Server.takes { s.server with phantom := Server.move s.server.phantom site.moves } site key =
      s.server.takes site key := rfl
  unfold runPut Server.onego
  dsimp only
  rw [takes, ← table, ← seen, takes']
  split
  · cases applyPut ((s.moved site).seen site key) ((s.moved site).rows.find key) changes with
    | none => rfl
    | some r =>
      simp only [Option.bind_eq_bind, Option.bind_some, Option.map_some, store_server]
      rfl
  · rfl

theorem runReplace_server (s : Store) (site : Site) (key value : Bytes) :
    (s.runReplace site key value).map
        (fun r => (r.1.server, some (logRecord .replace r.2.1 (site.logged key) value))) =
      s.server.onego site (.replace key value) := by
  have takes : (s.moved site).server.takes site key = s.server.takes site key := rfl
  have takes' : Server.takes { s.server with phantom := Server.move s.server.phantom site.moves } site key =
      s.server.takes site key := rfl
  unfold runReplace Server.onego
  dsimp only
  rw [takes, takes']
  split
  · rw [Option.map_some, store_server]
    rfl
  · rfl

theorem runRemove_server (s : Store) (site : Site) (key : Bytes) :
    some ((s.runRemove site key).1.server, (s.runRemove site key).2.map fun times => logRecord .remove times key []) =
      s.server.onego site (.remove key) := by
  have table : (s.moved site).rows.find key = s.server.table key := rfl
  unfold runRemove Server.onego
  dsimp only
  rw [← table]
  cases (s.moved site).rows.find key with
  | none => rfl
  | some old =>
    dsimp only [Option.map_some]
    unfold server
    dsimp only
    rw [OrderedMap.find_erase]
    rfl

end Store

end Masstree
