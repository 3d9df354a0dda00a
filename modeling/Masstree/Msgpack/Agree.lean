import Masstree.Msgpack.Rounds

/-!
# Two decoders

`msgpack::parser` and `streaming_parser` on what the unparser has written.
-/

namespace Masstree.Msgpack

inductive IntType
  | int
  | long
  | longLong
  | unsigned
  | unsignedLong
  | unsignedLongLong

namespace IntType

def size : IntType → Nat
  | int | unsigned => 4
  | long | longLong | unsignedLong | unsignedLongLong => 8

def isSigned : IntType → Bool
  | int | long | longLong => true
  | unsigned | unsignedLong | unsignedLongLong => false

def convert (t : IntType) (x : Int) : Int := if t.isSigned then signed t.size (word t.size x) else word t.size x

def Range (t : IntType) (x : Int) : Prop :=
  if t.isSigned then -2 ^ (8 * t.size - 1) ≤ x ∧ x < 2 ^ (8 * t.size - 1) else 0 ≤ x ∧ x < 2 ^ (8 * t.size)

theorem convert_eq {t : IntType} {x : Int} (range : t.Range x) : t.convert x = x := by
  unfold Range at range
  unfold convert
  split at range
  · rw [if_pos ‹_›]
    exact Stream.signed_word (by cases t <;> decide) range
  · rw [if_neg ‹_›, word, Int.emod_eq_of_lt range.1 range.2]
    exact Int.toNat_of_nonneg range.1

end IntType

/-- `parser::operator>>` of an integer -/
def readAs (t : IntType) (s : Bytes) : Option (Int × Bytes) := (readInt s).map fun r => (t.convert r.1, r.2)

def Value.isPrimitive : Value → Bool
  | .array _ | .object _ => false
  | _ => true

/-- The value is in one of the forms of nine bytes: `ffloat64`, `fuint64` or `fint64`. -/
def Text.Wide (w : Text) : Prop := ∃ b ∈ w.bytes.head?, b = 0xCB ∨ b = 0xCF ∨ b = 0xD3

/-- Every string in the value can be read on from range to range. -/
def Value.Short (v : Value) : Prop := ∀ s ∈ v.strings, s.length + memoSpace ≤ 2 ^ 30

/-- What the readers make of a value, with `rest` after it. -/
structure Reads (w : Text) (rest : Bytes) : Prop where
  streaming : ∃ v jokey, v.value = w.result ∧
    Stream.consume (.start .null .null) (w.bytes ++ rest) = .ok (⟨.final, [], v, jokey⟩, w.bytes.length)
  int : ∀ x, w.result.plain = .int x → ∀ t : IntType,
    readAs t (w.bytes ++ rest) = some (t.convert x, rest) ∧ (t.Range x → t.convert x = x)
  str : ∀ s, w.result = .str s → readStr (w.bytes ++ rest) = some (s, rest)
  json : ∀ j, ∃ v, v.value = w.result ∧ readJson j (w.bytes ++ rest) = .ok (v, rest)
  array : ∀ vs, w.result = .array vs → ∃ ws : List Text, (∀ w ∈ ws, w.Written) ∧ vs = ws.map Text.result ∧
    readArrayHeader (w.bytes ++ rest) = some (ws.length, ws.flatMap Text.bytes ++ rest) ∧
    skipArraySize (w.bytes ++ rest) = some (ws.flatMap Text.bytes ++ rest)

/-- `msgpack::parser` goes wherever the streaming parser goes, at each value of a sequence and over each run of
primitives. -/
structure Agree (ws : List Text) (rest : Bytes) : Prop where
  reads : ∀ before w after, ws = before ++ w :: after → Reads w (after.flatMap Text.bytes ++ rest)
  skips : ∀ before prims after, ws = before ++ prims ++ after → (∀ w ∈ prims, w.value.isPrimitive) →
    skipPrimitives prims.length (prims.flatMap Text.bytes ++ (after.flatMap Text.bytes ++ rest)) =
      some (after.flatMap Text.bytes ++ rest)

variable {w : Text} {ws : List Text} {rest s tail : Bytes} {b : UInt8} {p q : Stream} {fuel n x : Nat}

/-! ### Integers -/

theorem readWord_word {x : Int} (positive : n ≠ 0) (range : -2 ^ (8 * n - 1) ≤ x ∧ x < 2 ^ (8 * n - 1)) :
    readWord n true (toNetOrder n (word n x) ++ rest) = some (x, rest) := by
  rw [readWord, take?_append _ _ (toNetOrder_length n _).symm]
  change some (signed n (netOrder (toNetOrder n (word n x))), rest) = _
  rw [netOrder_toNetOrder n (Stream.word_lt n x), Stream.signed_word positive range]

theorem readInt_fixint (fix : b.toNat < 0x80 ∨ 0xE0 ≤ b.toNat) : readInt (b :: rest) = some (signed 1 b.toNat, rest) := by
  rw [readInt, if_pos (isFixint_iff.mpr fix)]

theorem readInt_signed {x : Int} (range : -2 ^ 63 ≤ x ∧ x < 2 ^ 63) : readInt (writeSigned x ++ rest) = some (x, rest) := by
  rw [writeSigned]
  split
  · have byte := ofNat_toNat (Stream.word_lt 1 x)
    have back : signed 1 (word 1 x) = x := Stream.signed_word (by decide) (by omega)
    have fix : word 1 x < 0x80 ∨ 0xE0 ≤ word 1 x := by
      unfold word
      omega
    have digits : toNetOrder 1 (word 1 x) = [UInt8.ofNat (word 1 x)] := by
      rw [toNetOrder, toNetOrder, Nat.mod_eq_of_lt (show word 1 x < 256 from Stream.word_lt 1 x)]
      rfl
    rw [digits, List.singleton_append, readInt_fixint (by rw [byte]; exact fix), byte, back]
  split
  · exact readWord_word (n := 1) (by decide) ‹_›
  split
  · exact readWord_word (n := 2) (by decide) ‹_›
  split
  · exact readWord_word (n := 4) (by decide) ‹_›
  · exact readWord_word (n := 8) (by decide) range

theorem readInt_unsigned (range : x < 2 ^ 64) : readInt (writeUnsigned x ++ rest) = some ((x : Int), rest) := by
  rw [writeUnsigned]
  split
  · have byte := ofNat_toNat (x := x) (by omega)
    have same : signed 1 x = x := if_pos ‹_›
    rw [List.singleton_append, readInt_fixint (.inl (by omega)), byte, same]
  split
  · exact readWord_append 1 x rest ‹_›
  split
  · exact readWord_append 2 x rest ‹_›
  split
  · exact readWord_append 4 x rest ‹_›
  · exact readWord_append 8 x rest range

theorem readInt_written {x : Int} (written : w.Written) (int : w.result.plain = .int x) :
    readInt (w.bytes ++ rest) = some (x, rest) := by
  cases written with
  | int range =>
    cases int
    exact readInt_signed range
  | wideInt range =>
    cases int
    exact readWord_word (n := 8) (by decide) range
  | unsigned range =>
    rw [Value.plain_reread] at int
    cases int
    exact readInt_unsigned range
  | wideUnsigned range =>
    cases int
    exact readWord_append 8 _ rest range
  | null | bool | float | double | str | array | object => cases int

/-! ### Strings and arrays -/

theorem readStr_writeString (small : s.length < 2 ^ 31) : readStr (writeString s ++ rest) = some (s, rest) := by
  apply readStr_encodes
  rw [writeString]
  split
  · exact .fix ‹_›
  split
  · exact .str8 (.inl rfl) ‹_›
  split
  · exact .str16 (.inl rfl) ‹_›
  · exact .str32 (.inl rfl) (Nat.lt_trans small (by decide))

theorem readLength_append (small : x < 2 ^ 31) (range : x < 2 ^ (8 * n)) :
    readLength n (toNetOrder n x ++ rest) = some (x, rest) := by
  rw [readLength, take?_append _ _ (toNetOrder_length n _).symm]
  change (if netOrder (toNetOrder n x) < 2 ^ 31 then some (netOrder (toNetOrder n x), rest) else none) = _
  rw [netOrder_toNetOrder n range, if_pos small]

theorem array_header (small : n < 2 ^ 31) (rest : Bytes) : readArrayHeader (writeArrayHeader n ++ rest) = some (n, rest) ∧
    skipArraySize (writeArrayHeader n ++ rest) = some rest := by
  have skip : ∀ k, (take? k (toNetOrder k n ++ rest)).map (·.2) = some rest := by
    intro k
    rw [take?_append _ _ (toNetOrder_length k n).symm]
    rfl
  rw [writeArrayHeader]
  split
  · have byte := ofNat_toNat (x := 0x90 + n) (by omega)
    have fix : Format.isFixarray (UInt8.ofNat (0x90 + n)) := isFixarray_iff.mpr (by rw [byte]; omega)
    rw [List.singleton_append, readArrayHeader, skipArraySize, if_pos fix, if_pos fix, byte, Nat.add_sub_cancel_left]
    exact ⟨rfl, rfl⟩
  split
  · exact ⟨readLength_append (n := 2) small ‹_›, skip 2⟩
  · exact ⟨readLength_append (n := 4) small (Nat.lt_trans small (by decide)), skip 4⟩

/-! ### Whole values -/

theorem short_iff (written : w.Written) (rest : Bytes) : Stream.Short (.start .null .null) (w.bytes ++ rest) ↔ w.value.Short := by
  obtain ⟨v, jokey, -, goes⟩ := Stream.written_completes written (.start .null .null) rfl trivial (Stream.reuses_null written)
  have begins := goes.begins rest
  have ended : (Stream.advance jokey (Stream.start .null .null).stack v).status.isDone := rfl
  rw [Stream.begins_done ended, List.append_nil] at begins
  have all : ∀ n, n ∈ Stream.pending (.start .null .null) ++ Stream.begins (Stream.start .null .null).forget (w.bytes ++ rest) ↔
      ∃ s ∈ w.value.strings, n ∈ Stream.awaited s := by
    intro n
    change n ∈ Stream.begins (.start .null .null) (w.bytes ++ rest) ↔ _
    rw [begins, List.mem_flatMap]
  unfold Stream.Short Value.Short
  constructor
  · intro short s mem
    by_cases none_ : s = []
    · rw [none_]
      decide
    · exact short s.length ((all _).mpr ⟨s, mem, by rw [Stream.awaited, if_neg none_]; exact List.mem_singleton_self _⟩)
  · intro short n mem
    obtain ⟨s, inside, awaits⟩ := (all n).mp mem
    unfold Stream.awaited at awaits
    split at awaits
    · exact absurd awaits List.not_mem_nil
    · obtain rfl := List.mem_singleton.mp awaits
      exact short s inside

theorem readJson_written (written : w.Written) (rest : Bytes) (j : Node) :
    (∃ v, v.value = w.result ∧ readJson j (w.bytes ++ rest) = .ok (v, rest)) ↔ w.value.Short := by
  have ok : (Stream.start .null .null).Ok := trivial
  rw [← short_iff written rest]
  constructor
  · rintro ⟨v, -, read⟩
    obtain ⟨r, rounds, -⟩ := Results.map_eq_ok.mp read
    exact Stream.readRounds_short ok trivial rounds
  · intro short
    obtain ⟨v, jokey, same, goes⟩ := Stream.written_completes written (.start .null .null) rfl trivial (Stream.reuses_null written)
    have result := (goes.run rest).trans (Stream.run_done rfl)
    refine ⟨v, same, ?_⟩
    rw [readJson, Stream.readRounds_run ok short result rfl (Nat.lt_succ_self _)]
    rfl

theorem written_reads (written : w.Written) (short : w.value.Short) (rest : Bytes) : Reads w rest where
  streaming := Stream.consume_written written .null .null (Stream.reuses_null written) rest
  int x int t := by
    rw [readAs, readInt_written written int]
    exact ⟨rfl, IntType.convert_eq⟩
  str s str := by
    cases written with
    | str small =>
      cases str
      exact readStr_writeString (by omega)
    | unsigned range =>
      dsimp only at str
      rw [Value.reread] at str
      split at str <;> cases str
    | null | bool | int | wideInt | wideUnsigned | float | double | array | object => cases str
  json j := (readJson_written written rest j).mpr short
  array vs array := by
    cases written with
    | @array ws small each =>
      cases array
      have header := array_header small (ws.flatMap Text.bytes ++ rest)
      rw [← List.append_assoc] at header
      exact ⟨ws, each, rfl, header⟩
    | unsigned range =>
      dsimp only at array
      rw [Value.reread] at array
      split at array <;> cases array
    | null | bool | int | wideInt | wideUnsigned | float | double | str | object => cases array

/-! ### Skipping -/

/-- The first byte of the forms of nine bytes. -/
def isWide (b : UInt8) : Prop := b = 0xCB ∨ b = 0xCF ∨ b = 0xD3

instance : DecidablePred isWide := fun b => inferInstanceAs (Decidable (b = 0xCB ∨ b = 0xCF ∨ b = 0xD3))

theorem isWide_iff : isWide b ↔ b.toNat = 0xCB ∨ b.toNat = 0xCF ∨ b.toNat = 0xD3 := by
  unfold isWide
  simp only [← UInt8.toNat_inj]
  rfl

theorem skip_wide (wide : isWide b) : skipPrimitive (b :: tail) = some (b :: tail) := by
  rw [isWide_iff] at wide
  apply skipPrimitive_stay
  rw [← Bool.not_eq_true, skips_iff, SizedStr]
  omega

theorem skip_readInt {x : Int} (read : readInt (b :: tail) = some (x, rest)) (narrow : ¬ isWide b) :
    skipPrimitive (b :: tail) = some rest := by
  rw [isWide_iff] at narrow
  rw [readInt] at read
  split at read
  · rename_i fix
    cases read
    rw [skipPrimitive, fix]
    rfl
  · have range : 0xCC ≤ b.toNat ∧ b.toNat ≤ 0xD3 := by
      by_contra outside
      rw [hardReadInt_none (by omega)] at read
      cases read
    rw [skipPrimitive_int (by omega), read]
    rfl

theorem skip_readStr {v : Bytes} (read : readStr (b :: tail) = some (v, rest)) :
    skipPrimitive (b :: tail) = some rest := by
  have form : 0xA0 ≤ b.toNat ∧ b.toNat < 0xC0 ∨ SizedStr b := by
    by_contra other
    rw [not_or] at other
    rw [readStr_none other.1 other.2] at read
    cases read
  rw [skipPrimitive_str form, read]
  rfl

/-- What a reader moves past is more than nothing. -/
theorem written_cons {α : Type} {f : Bytes → Option (α × Bytes)} {a : α} (none : f [] = Option.none)
    (reads : ∀ rest, f (s ++ rest) = some (a, rest)) : ∃ b tail, s = b :: tail := by
  cases s with
  | nil =>
    have read := reads []
    rw [List.append_nil, none] at read
    cases read
  | cons b tail => exact ⟨b, tail, rfl⟩

theorem skip_written (written : w.Written) (primitive : w.value.isPrimitive) : ∃ b tail, w.bytes = b :: tail ∧
    (¬ isWide b → ∀ rest, skipPrimitive (b :: tail ++ rest) = some rest) := by
  have int : ∀ {x : Int}, w.result.plain = .int x → ∃ b tail, w.bytes = b :: tail ∧
      (¬ isWide b → ∀ rest, skipPrimitive (b :: tail ++ rest) = some rest) := by
    intro x int
    have reads : ∀ rest, readInt (w.bytes ++ rest) = some (x, rest) := fun rest => readInt_written written int
    obtain ⟨b, tail, bytes⟩ := written_cons rfl reads
    rw [bytes] at reads
    exact ⟨b, tail, bytes, fun narrow rest => skip_readInt (reads rest) narrow⟩
  cases written with
  | null => exact ⟨_, _, rfl, fun _ _ => rfl⟩
  | bool b => exact ⟨_, _, rfl, fun _ _ => by cases b <;> rfl⟩
  | int | wideInt | wideUnsigned => exact int rfl
  | unsigned => exact int (Value.plain_reread _)
  | float =>
    refine ⟨_, _, rfl, fun _ rest => ?_⟩
    change (take? 4 (toNetOrder 4 _ ++ rest)).map (·.2) = some rest
    rw [take?_append _ _ (toNetOrder_length 4 _).symm]
    rfl
  | double => exact ⟨_, _, rfl, fun narrow => absurd (.inl rfl) narrow⟩
  | @str s small =>
    have reads : ∀ rest, readStr (writeString s ++ rest) = some (s, rest) := fun rest => readStr_writeString (by omega)
    obtain ⟨b, tail, bytes⟩ := written_cons rfl reads
    rw [bytes] at reads
    exact ⟨b, tail, bytes, fun _ rest => skip_readStr (reads rest)⟩
  | array | object => cases primitive

theorem wide_cons (bytes : w.bytes = b :: tail) : w.Wide ↔ isWide b := by
  rw [Text.Wide, bytes]
  simp [isWide]

theorem skips_narrow (written : ∀ w ∈ ws, w.Written) (primitive : ∀ w ∈ ws, w.value.isPrimitive)
    (narrow : ∀ w ∈ ws, ¬ w.Wide) (rest : Bytes) :
    skipPrimitives ws.length (ws.flatMap Text.bytes ++ rest) = some rest := by
  induction ws with
  | nil => rfl
  | cons w ws ih =>
    rw [List.forall_mem_cons] at written primitive narrow
    obtain ⟨b, tail, bytes, skips⟩ := skip_written written.1 primitive.1
    rw [wide_cons bytes] at narrow
    rw [List.flatMap_cons, List.append_assoc, List.length_cons, skipPrimitives, bytes, skips narrow.1]
    exact ih written.2 primitive.2 narrow.2

/-- The two decoders agree on everything that is written exactly if no primitive value is in a form of nine bytes, at which
`skip_primitives` stays, and no string is too long to be read on from one range of 4096 bytes to the next. -/
theorem decoders_agree (written : ∀ w ∈ ws, w.Written) (rest : Bytes) :
    Agree ws rest ↔ ∀ w ∈ ws, (w.value.isPrimitive → ¬ w.Wide) ∧ w.value.Short := by
  constructor
  · intro agree w mem
    obtain ⟨before, after, parts⟩ := List.append_of_mem mem
    refine ⟨fun primitive wide => ?_, ?_⟩
    · obtain ⟨b, tail, bytes, -⟩ := skip_written (written w mem) primitive
      have skips := agree.skips before [w] after (by rw [parts, List.append_assoc]; rfl) (by simpa using primitive)
      rw [wide_cons bytes] at wide
      rw [List.flatMap_singleton, bytes, List.length_singleton, skipPrimitives, List.cons_append, skip_wide wide] at skips
      have longer := congrArg List.length (Option.some.inj skips)
      rw [List.length_cons, List.length_append] at longer
      omega
    · exact (readJson_written (written w mem) _ .null).mp ((agree.reads before w after parts).json .null)
  · intro narrow
    constructor
    · intro before w after parts
      have mem : w ∈ ws := by simp [parts]
      exact written_reads (written w mem) (narrow w mem).2 _
    · intro before prims after parts primitive
      have within : ∀ w ∈ prims, w ∈ ws := by
        intro w mem
        simp [parts, mem]
      exact skips_narrow (fun w mem => written w (within w mem)) primitive
        (fun w mem => (narrow w (within w mem)).1 (primitive w mem)) _

/-- A sequence number of 33 bits. -/
theorem decoders_agree_wide : ¬ Agree [⟨.unsigned (2 ^ 32), writeUnsigned (2 ^ 32), .unsigned (2 ^ 32)⟩] [] := by
  intro agree
  have skips := agree.skips [] [⟨.unsigned (2 ^ 32), writeUnsigned (2 ^ 32), .unsigned (2 ^ 32)⟩] [] rfl
    (by simp [Value.isPrimitive])
  exact absurd skips (by decide)

/-- A sequence number, and a request with an object in it. -/
theorem decoders_agree_request :
    Agree [⟨.unsigned 5, writeUnsigned 5, .int 5⟩, .unparsed (.array [.object [([0x61], .int (-1))], .str [0x62]])] [0xC0] := by
  have holds : (Value.array [.object [([0x61], .int (-1))], .str [0x62]]).Holds := by
    refine .array (by decide) fun v mem => ?_
    rcases List.mem_pair.mp mem with rfl | rfl
    · refine .object (by decide) (by decide) (by decide) (by decide) fun e mem => ?_
      obtain rfl := List.mem_singleton.mp mem
      exact .int (by decide)
    · exact .str (by decide)
  refine (decoders_agree (fun w mem => ?_) [0xC0]).mpr fun w mem => ?_
  · rcases List.mem_pair.mp mem with rfl | rfl
    · exact .unsigned (by decide)
    · exact holds.written (by decide)
  · rcases List.mem_pair.mp mem with rfl | rfl
    · rw [wide_cons (show writeUnsigned 5 = [5] from rfl)]
      exact ⟨fun _ => by decide, by unfold Value.Short; decide⟩
    · exact ⟨Bool.noConfusion, by unfold Value.Short; decide⟩

end Masstree.Msgpack
