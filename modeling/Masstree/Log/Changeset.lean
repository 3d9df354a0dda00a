import Masstree.Log.Replay
import Masstree.Msgpack.Json

/-!
# The logged form of a put

`onego` logs the column changes of a put either as the end of the request's own bytes, or, when the request
is not in one buffer, by unparsing its `Json` values (`loginfo::record`). `parse_changeset` reads both.
-/

namespace Masstree
open Msgpack (Bytes Json)

/-- The changes an array of `[column, value, column, value, ...]` stands for, as `value_bag::update` reads it. -/
def changesOf : List Json → Option Changes
  | [] => some []
  | column :: value :: rest => do
    let idx ← column.asU
    let v ← value.asS
    let changes ← changesOf rest
    return (idx % 2 ^ 32, v) :: changes
  | [_] => none

def cmdPut : Int := 6

/-- `int command = request[1].as_i()` -/
def commandNumber (j : Json) : Option Int := j.asI.map (·.bmod (2 ^ 32))

def acceptPut (request : List Json) : Option (Bytes × Changes) :=
  match request with
  | _ :: command :: key :: pairs =>
    if commandNumber command = some cmdPut ∧ 3 < request.length ∧ request.length % 2 = 1 then do
      return (← key.asS, ← changesOf pairs)
    else none
  | _ => none

/-- Whether the bytes of the request are in one buffer (`request_str`). -/
inductive LogPath where
  | raw
  | json
  deriving DecidableEq

/-- The `loginfo::record` that is given `Json` values. -/
def unparseChanges (pairs : List Json) : Option Bytes :=
  (pairs.mapM Msgpack.unparse).map fun items => Msgpack.writeArrayHeader pairs.length ++ items.flatten

def loggedChanges (path : LogPath) (wire : Bytes) (request : List Json) : Option Bytes :=
  match path with
  | .raw => (Msgpack.skipArraySize wire).bind (Msgpack.skipPrimitives 3)
  | .json => unparseChanges (request.drop 3)

/-- The type bytes of the sequence number and of the command. -/
def leadingForms (wire : Bytes) : Option (UInt8 × UInt8) := do
  let (_, items) ← Msgpack.readArrayHeader wire
  let (_, rest) ← Msgpack.parseJson items.length items
  return (← items.head?, ← rest.head?)

/-- `skip_primitives` moves past the sequence number and the command. -/
def Skippable (wire : Bytes) : Prop :=
  ∃ seq command, leadingForms wire = some (seq, command) ∧ Msgpack.skips seq = true ∧ Msgpack.skips command = true

def columnsOf : List Json → List Json
  | column :: _ :: rest => column :: columnsOf rest
  | _ => []

/-! ### What `parse_changeset` makes of parsed values -/

/-- Only integers are columns to `parse_changeset`. -/
def decodePairs : List Json → Option Changes
  | [] => some []
  | column :: value :: rest =>
    if column.isInt then do
      let idx ← column.asU
      let v ← value.asS
      let changes ← decodePairs rest
      return (idx % 2 ^ 32, v) :: changes
    else none
  | [_] => none

namespace Msgpack

theorem take?_length {n : Nat} {s v rest : Bytes} (took : take? n s = some (v, rest)) : rest.length ≤ s.length := by
  unfold take? at took
  split at took
  · cases took
    rw [List.length_drop]
    exact Nat.sub_le _ _
  · cases took

theorem readWord_length {n : Nat} {neg : Bool} {s rest : Bytes} {x : Int}
    (read : readWord n neg s = some (x, rest)) : rest.length ≤ s.length := by
  obtain ⟨⟨w, rest'⟩, took, same⟩ := Option.bind_eq_some_iff.mp read
  cases same
  exact take?_length took

theorem readUnsigned_length {s rest : Bytes} {x : Nat} (read : readUnsigned s = some (x, rest)) :
    rest.length < s.length := by
  obtain ⟨⟨y, rest'⟩, read, same⟩ := Option.bind_eq_some_iff.mp read
  cases same
  cases s with
  | nil => cases read
  | cons b tail =>
    refine Nat.lt_succ_of_le ?_
    unfold readInt at read
    dsimp only at read
    split at read
    · cases read
      exact Nat.le_refl _
    · unfold hardReadInt at read
      split at read
      all_goals first | exact readWord_length read | cases read

theorem readStr_length {s rest v : Bytes} (read : readStr s = some (v, rest)) : rest.length < s.length := by
  cases s with
  | nil => cases read
  | cons b tail =>
    refine Nat.lt_succ_of_le ?_
    have sized : ∀ n, readSized n tail = some (v, rest) → rest.length ≤ tail.length := by
      intro n read
      obtain ⟨⟨w, rest'⟩, took, took'⟩ := Option.bind_eq_some_iff.mp read
      exact Nat.le_trans (take?_length took') (take?_length took)
    unfold readStr at read
    dsimp only at read
    split at read
    · exact take?_length read
    · split at read
      all_goals first | exact sized _ read | cases read

end Msgpack

open Msgpack

theorem parseItems_cons {parse : Bytes → Option (Json × Bytes)} {n : Nat} {s rest : Bytes} {j : Json} {js : List Json}
    (parsed : parseItems parse n s = some (j :: js, rest)) :
    ∃ s' n', parse s = some (j, s') ∧ parseItems parse n' s' = some (js, rest) := by
  cases n with
  | zero => cases parsed
  | succ n =>
    obtain ⟨⟨j', s'⟩, first, later⟩ := Option.bind_eq_some_iff.mp parsed
    obtain ⟨⟨js', rest'⟩, later, same⟩ := Option.bind_eq_some_iff.mp later
    cases same
    exact ⟨s', n, first, later⟩

theorem parseItems_nil {parse : Bytes → Option (Json × Bytes)} {n : Nat} {s rest : Bytes}
    (parsed : parseItems parse n s = some ([], rest)) : s = rest := by
  cases n with
  | zero =>
    cases parsed
    rfl
  | succ n =>
    obtain ⟨⟨j', s'⟩, first, later⟩ := Option.bind_eq_some_iff.mp parsed
    obtain ⟨⟨js', rest'⟩, later, same⟩ := Option.bind_eq_some_iff.mp later
    cases same

/-- One round of `parse_changeset` at a parsed column. -/
theorem parseChangesetLoop_column {depth fuel : Nat} {s s' : Bytes} {column : Json}
    (parsed : parseJson depth s = some (column, s')) (enough : s.length ≤ fuel) :
    ∃ fuel', fuel = fuel' + 1 ∧ parseChangesetLoop fuel s =
      if column.isInt then
        column.asU.bind fun idx => (readStr s').bind fun r =>
          (parseChangesetLoop fuel' r.2).map fun changes => (idx % 2 ^ 32, r.1) :: changes
      else none := by
  have walks := walks_parseJson parsed
  obtain ⟨b, tail, rfl, -⟩ := walks.skip
  obtain ⟨fuel', rfl⟩ := Nat.exists_eq_succ_of_ne_zero (Nat.ne_of_gt (Nat.zero_lt_of_lt enough))
  refine ⟨fuel', rfl, ?_⟩
  conv_lhs => unfold parseChangesetLoop
  rw [walks.unsigned]
  split
  · cases column.asU with
    | none => rfl
    | some idx =>
      simp only [Option.map_some, Option.bind_eq_bind, Option.bind_some]
      cases readStr s' with
      | none => rfl
      | some r =>
        simp only [Option.bind_some]
        cases parseChangesetLoop fuel' r.2 <;> rfl
  · rfl

/-- A sequence of values is decoded as the pairs they are. -/
theorem parseChangesetLoop_items {depth fuel n : Nat} {s : Bytes} {items : List Json}
    (parsed : parseItems (parseJson depth) n s = some (items, [])) (enough : s.length ≤ fuel) :
    parseChangesetLoop fuel s = decodePairs items := by
  induction items using decodePairs.induct generalizing fuel n s with
  | case1 =>
    rw [parseItems_nil parsed]
    exact parseChangesetLoop_nil fuel
  | case2 column value rest isInt ih =>
    obtain ⟨s₁, n₁, first, later⟩ := parseItems_cons parsed
    obtain ⟨s₂, n₂, second, later⟩ := parseItems_cons later
    obtain ⟨fuel', rfl, round⟩ := parseChangesetLoop_column first enough
    have str := (walks_parseJson second).str
    rw [round, decodePairs, if_pos isInt, if_pos isInt, str]
    cases found : column.asU with
    | none => rfl
    | some idx =>
      cases kind : value.asS with
      | none => rfl
      | some v =>
        have shorter : s₂.length < s.length := by
          rw [kind] at str
          have unsigned := (walks_parseJson first).unsigned
          rw [if_pos isInt, found] at unsigned
          exact Nat.lt_trans (readStr_length str) (readUnsigned_length unsigned)
        simp only [Option.map_some, Option.bind_eq_bind, Option.bind_some]
        rw [ih later (by omega)]
        cases decodePairs rest <;> rfl
  | case3 column value rest notInt =>
    obtain ⟨s₁, n₁, first, later⟩ := parseItems_cons parsed
    obtain ⟨fuel', rfl, round⟩ := parseChangesetLoop_column first enough
    rw [round, decodePairs, if_neg notInt, if_neg notInt]
  | case4 column =>
    obtain ⟨s₁, n₁, first, later⟩ := parseItems_cons parsed
    obtain rfl := parseItems_nil later
    obtain ⟨fuel', rfl, round⟩ := parseChangesetLoop_column first enough
    rw [round, decodePairs]
    cases column.asU <;> simp [readStr]

theorem parseChangeset_items {depth n : Nat} {s : Bytes} {items : List Json}
    (parsed : parseItems (parseJson depth) n s = some (items, [])) : parseChangeset s = decodePairs items :=
  parseChangesetLoop_items parsed (Nat.le_refl _)

/-! ### The two paths -/

/-- Integer columns are decoded as they are applied. -/
theorem decodePairs_iff {pairs : List Json} {changes : Changes} (applied : changesOf pairs = some changes) :
    decodePairs pairs = some changes ↔ ∀ column ∈ columnsOf pairs, column.isInt = true := by
  induction pairs using changesOf.induct generalizing changes with
  | case1 =>
    cases applied
    exact iff_of_true rfl (by simp [columnsOf])
  | case2 column value rest ih =>
    simp only [changesOf, Option.bind_eq_bind, Option.bind_eq_some_iff] at applied
    obtain ⟨idx, number, v, str, changes', later, same⟩ := applied
    cases same
    rw [columnsOf, List.forall_mem_cons, ← ih later, decodePairs]
    split
    · rename_i isInt
      rw [number, str]
      simp only [Option.bind_eq_bind, Option.bind_some, isInt, true_and]
      cases decodePairs rest <;> simp
    · rename_i notInt
      simp [notInt]
  | case3 => cases applied

theorem decodePairs_length {items : List Json} {changes : Changes} (decoded : decodePairs items = some changes) :
    items.length = 2 * changes.length := by
  induction items using decodePairs.induct generalizing changes with
  | case1 =>
    cases decoded
    rfl
  | case2 column value rest isInt ih =>
    simp only [decodePairs, if_pos isInt, Option.bind_eq_bind, Option.bind_eq_some_iff] at decoded
    obtain ⟨idx, -, v, -, changes', later, same⟩ := decoded
    cases same
    have := ih later
    simp only [List.length_cons]
    omega
  | case3 column value rest notInt =>
    rw [decodePairs, if_neg notInt] at decoded
    cases decoded
  | case4 => cases decoded

theorem changesOf_length {items : List Json} {changes : Changes} (applied : changesOf items = some changes) :
    items.length = 2 * changes.length := by
  induction items using changesOf.induct generalizing changes with
  | case1 =>
    cases applied
    rfl
  | case2 column value rest ih =>
    simp only [changesOf, Option.bind_eq_bind, Option.bind_eq_some_iff] at applied
    obtain ⟨idx, -, v, -, changes', later, same⟩ := applied
    cases same
    have := ih later
    simp only [List.length_cons]
    omega
  | case3 => cases applied

/-- An array header is no column. -/
theorem parseChangeset_arrayHeader (size : Nat) (rest : Bytes) :
    parseChangeset (writeArrayHeader size ++ rest) = none := by
  have unread : ∀ (b : UInt8) tail, 0x90 ≤ b.toNat ∧ b.toNat < 0xA0 ∨ b.toNat = 0xDC ∨ b.toNat = 0xDD →
      parseChangeset (b :: tail) = none := by
    intro b tail form
    have none_ := @readUnsigned_none b tail (by omega) (by omega)
    unfold parseChangeset parseChangesetLoop
    rw [List.length_cons]
    dsimp only
    rw [none_]
    rfl
  unfold writeArrayHeader
  split
  · refine unread _ _ (.inl ?_)
    rw [ofNat_toNat (by omega)]
    omega
  · split
    · exact unread 0xDC _ (.inr (.inl rfl))
    · exact unread 0xDD _ (.inr (.inr rfl))

theorem skipArraySize_eq {wire items : Bytes} {n : Nat} (header : readArrayHeader wire = some (n, items)) :
    skipArraySize wire = some items := by
  cases wire with
  | nil => cases header
  | cons b tail =>
    have length : ∀ k, readLength k tail = some (n, items) → (take? k tail).map (·.2) = some items := by
      intro k read
      obtain ⟨⟨w, rest⟩, took, same⟩ := Option.bind_eq_some_iff.mp read
      dsimp only at same
      split at same
      · cases same
        rw [took]
        rfl
      · cases same
    unfold readArrayHeader at header
    unfold skipArraySize
    dsimp only at header ⊢
    split at header
    · rename_i fix
      obtain ⟨-, rfl⟩ := Prod.mk.inj (Option.some.inj header)
      rw [if_pos fix]
    · rename_i unfixed
      rw [if_neg unfixed]
      split at header
      · exact length 2 header
      · exact length 4 header
      · cases header

/-- A received put: where its parts are in the bytes. -/
structure Received (wire : Bytes) (key : Bytes) (changes : Changes) (pairs : List Json) where
  items : Bytes
  afterSeq : Bytes
  afterCommand : Bytes
  afterKey : Bytes
  seq : Json
  command : Json
  depth : Nat
  count : Nat
  header : skipArraySize wire = some items
  seqWalks : Walks items seq afterSeq
  commandWalks : Walks afterSeq command afterCommand
  commandNumber : command.asS = none
  keyWalks : Walks afterCommand (.str key) afterKey
  pairsParsed : parseItems (parseJson depth) count afterKey = some (pairs, [])
  fromCommand : ∃ n, parseItems (parseJson depth) n afterSeq = some (command :: .str key :: pairs, [])
  fromSeq : ∃ n, parseItems (parseJson depth) n items = some (seq :: command :: .str key :: pairs, [])
  applied : changesOf pairs = some changes
  forms : leadingForms wire = do return (← items.head?, ← afterSeq.head?)

theorem received_put {wire key : Bytes} {request : List Json} {changes : Changes}
    (received : parseRequest wire = some request) (put : acceptPut request = some (key, changes)) :
    ∃ pairs, request.drop 3 = pairs ∧ Nonempty (Received wire key changes pairs) := by
  obtain ⟨⟨n, items⟩, header, parsed⟩ := Option.bind_eq_some_iff.mp received
  obtain ⟨⟨request', rest⟩, parsed, whole⟩ := Option.bind_eq_some_iff.mp parsed
  dsimp only at whole
  split at whole
  · rename_i empty
    cases whole
    obtain rfl := List.isEmpty_iff.mp empty
    rcases request with _ | ⟨seq, _ | ⟨command, _ | ⟨keyJson, pairs⟩⟩⟩
    · cases put
    · cases put
    · cases put
    · unfold acceptPut at put
      dsimp only at put
      split at put
      · rename_i isPut
        obtain ⟨key', str, put⟩ := Option.bind_eq_some_iff.mp put
        obtain ⟨changes', applied, same⟩ := Option.bind_eq_some_iff.mp put
        cases same
        obtain rfl : keyJson = .str key := by
          cases keyJson <;> simp_all [Json.asS]
        have number : command.asS = none := by
          cases command <;> simp_all [commandNumber, Json.asI, Json.asS]
        obtain ⟨s₁, n₁, first, fromCommand⟩ := parseItems_cons parsed
        obtain ⟨s₂, n₂, second, later⟩ := parseItems_cons fromCommand
        obtain ⟨s₃, n₃, third, later⟩ := parseItems_cons later
        refine ⟨pairs, rfl, ⟨{
          items, afterSeq := s₁, afterCommand := s₂, afterKey := s₃, seq, command, depth := items.length, count := n₃
          header := skipArraySize_eq header, seqWalks := walks_parseJson first, commandWalks := walks_parseJson second
          commandNumber := number, keyWalks := walks_parseJson third, pairsParsed := later
          fromCommand := ⟨n₁, fromCommand⟩, fromSeq := ⟨n, parsed⟩, applied, forms := ?_ }⟩⟩
        simp only [leadingForms, header, first, Option.bind_eq_bind, Option.bind_some]
      · cases put
  · cases whole

/-- `skip_primitives` moves past any string. -/
theorem Msgpack.Walks.skip_str {s rest v : Bytes} (walks : Walks s (.str v) rest) : skipPrimitive s = some rest := by
  obtain ⟨b, tail, rfl, skip⟩ := walks.skip
  have form : skips b = true := by
    rw [skips_iff]
    by_contra unknown
    have none_ := @readStr_none b tail (by omega) fun sized => unknown (by simp [sized])
    rw [walks.str] at none_
    cases none_
  rw [skip, if_pos form]

/-- The changes logged for a put are decoded as those applied, if the request's own bytes are logged, the sequence
number and the command have forms `skip_primitives` knows, and every column is sent as an integer. -/
theorem logged_changes_iff {wire key : Bytes} {request : List Json} {changes : Changes} {path : LogPath}
    (received : parseRequest wire = some request) (put : acceptPut request = some (key, changes)) :
    (loggedChanges path wire request).bind parseChangeset = some changes ↔
      path = .raw ∧ Skippable wire ∧ ∀ column ∈ columnsOf (request.drop 3), column.isInt = true := by
  obtain ⟨pairs, same, ⟨r⟩⟩ := received_put received put
  obtain ⟨b₀, t₀, items, skipSeq⟩ := r.seqWalks.skip
  obtain ⟨b₁, t₁, afterSeq, skipCommand⟩ := r.commandWalks.skip
  have forms : leadingForms wire = some (b₀, b₁) := by
    rw [r.forms, items, afterSeq]
    rfl
  have skippable : Skippable wire ↔ skips b₀ = true ∧ skips b₁ = true := by
    unfold Skippable
    rw [forms]
    simp
  cases path with
  | json =>
    refine iff_of_false ?_ (by simp)
    simp only [loggedChanges, unparseChanges]
    cases (request.drop 3).mapM unparse with
    | none => simp
    | some items => simp [parseChangeset_arrayHeader]
  | raw =>
    rw [same, skippable, eq_self, true_and, loggedChanges, r.header, Option.bind_some]
    simp only [skipPrimitives, skipSeq, Option.bind_some]
    by_cases known : skips b₀ = true
    · rw [if_pos known, skipCommand, Option.bind_some]
      by_cases known' : skips b₁ = true
      · rw [if_pos known', r.keyWalks.skip_str, Option.bind_some, Option.bind_some,
          parseChangeset_items r.pairsParsed, decodePairs_iff r.applied]
        simp [known, known']
      · -- the command is decoded as a column, the key as its value
        obtain ⟨n, parsed⟩ := r.fromCommand
        rw [if_neg known', skipCommand, if_neg known', Option.bind_some, Option.bind_some,
          parseChangeset_items parsed]
        refine iff_of_false (fun decoded => ?_) (by simp [known'])
        have long := decodePairs_length decoded
        have short := changesOf_length r.applied
        simp only [List.length_cons] at long
        omega
    · -- the command would have to be a string
      obtain ⟨n, parsed⟩ := r.fromSeq
      rw [if_neg known, skipSeq, if_neg known, Option.bind_some, skipSeq, if_neg known, Option.bind_some,
        Option.bind_some, parseChangeset_items parsed]
      refine iff_of_false (fun decoded => ?_) (by simp [known])
      unfold decodePairs at decoded
      split at decoded
      · rw [r.commandNumber] at decoded
        cases found : r.seq.asU <;> simp [found] at decoded
      · cases decoded

/-- A put of the byte 9 to column 0 of a one-byte key, with this sequence number. -/
def smallPut (seq : Bytes) : Bytes := 0x95 :: (seq ++ [6, 0xA1, 107, 0, 0xA1, 9])

theorem logged_changes_small :
    (loggedChanges .raw (smallPut [1]) [.int 1, .int 6, .str [107], .int 0, .str [9]]).bind parseChangeset =
      some [(0, [9])] :=
  (@logged_changes_iff (smallPut [1]) [107] _ _ .raw (by decide) (by decide)).mpr
    ⟨rfl, ⟨1, 6, by decide, by decide, by decide⟩, by decide⟩

/-- The changes are lost when they are unparsed, and when the sequence number is sent as a `uint64`. -/
theorem logged_changes_lost :
    (parseRequest (smallPut [1]) = some [.int 1, .int 6, .str [107], .int 0, .str [9]] ∧
      acceptPut [.int 1, .int 6, .str [107], .int 0, .str [9]] = some ([107], [(0, [9])]) ∧
      (loggedChanges .json (smallPut [1]) [.int 1, .int 6, .str [107], .int 0, .str [9]]).bind parseChangeset = none) ∧
    (parseRequest (smallPut [0xCF, 0, 0, 0, 1, 0, 0, 0, 0]) =
        some [.unsigned (2 ^ 32), .int 6, .str [107], .int 0, .str [9]] ∧
      acceptPut [.unsigned (2 ^ 32), .int 6, .str [107], .int 0, .str [9]] = some ([107], [(0, [9])]) ∧
      (loggedChanges .raw (smallPut [0xCF, 0, 0, 0, 1, 0, 0, 0, 0])
        [.unsigned (2 ^ 32), .int 6, .str [107], .int 0, .str [9]]).bind parseChangeset = none) := by
  decide

end Masstree
