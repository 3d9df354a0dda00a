import Masstree.Msgpack.Node
import Masstree.Text.StringAccum

/-!
# The unparser

`unparser::operator<<` on a whole value, which writes it into a string accumulator part by part, and what a value is when it is read
back.
-/

namespace Masstree.Msgpack

open StringAccum (Part)

def writeMapHeader (size : Nat) : Bytes :=
  if size < 0x10 then [UInt8.ofNat (0x80 + size)]
  else if size < 2 ^ 16 then 0xDE :: toNetOrder 2 size
  else 0xDF :: toNetOrder 4 size

/-- `new char[n]` -/
def memory : Allocator := ⟨fun _ => true, memoSpace⟩

namespace Value

mutual

/-- The calls of `unparser::operator<<`, each with what it reserves. -/
def parts : Value → List Part
  | .null => [.char 0xC0]
  | .bool b => [.char (if b then 0xC3 else 0xC2)]
  | .unsigned x => [.room 9 (writeUnsigned x)]
  | .int x => [.room 9 (writeSigned x)]
  | .double bits => [.room 9 (0xCB :: toNetOrder 8 bits)]
  | .str s => [.room (s.length + 5) (writeString s)]
  | .array vs => .room 5 (writeArrayHeader vs.length) :: itemParts vs
  | .object entries => .room 5 (writeMapHeader entries.length) :: entryParts entries

def itemParts : List Value → List Part
  | [] => []
  | v :: vs => parts v ++ itemParts vs

def entryParts : List (Bytes × Value) → List Part
  | [] => []
  | (k, v) :: entries => .room (k.length + 5) (writeString k) :: (parts v ++ entryParts entries)

end

def text (v : Value) : Bytes := v.parts.flatMap Part.bytes

def unparse (v : Value) : Option Bytes := (StringAccum.writeAll memory .empty v.parts).map StringAccum.s

/-- What the types hold: integers of 64 bits, the 64 bits of a double, lengths and sizes that are an `int`, and keys that were entered in
the object one after the other. -/
inductive Holds : Value → Prop
  | null : Holds .null
  | bool (b : Bool) : Holds (.bool b)
  | int {x : Int} : -2 ^ 63 ≤ x ∧ x < 2 ^ 63 → Holds (.int x)
  | unsigned {x : Nat} : x < 2 ^ 64 → Holds (.unsigned x)
  | double {bits : Nat} : bits < 2 ^ 64 → Holds (.double bits)
  | str {s : Bytes} : s.length < 2 ^ 31 → Holds (.str s)
  | array {vs : List Value} : vs.length < 2 ^ 31 → (∀ v ∈ vs, Holds v) → Holds (.array vs)
  | object {entries : List (Bytes × Value)} : entries.length < 2 ^ 31 → (entries.map Prod.fst).Nodup → Keyed (entries.map Prod.fst) →
      (∀ e ∈ entries, e.1.length < 2 ^ 31) → (∀ e ∈ entries, Holds e.2) → Holds (.object entries)

mutual

/-- The value with each integer as the mathematical integer. -/
def plain : Value → Value
  | .unsigned x => .int x
  | .array vs => .array (plainItems vs)
  | .object entries => .object (plainEntries entries)
  | v => v

def plainItems : List Value → List Value
  | [] => []
  | v :: vs => plain v :: plainItems vs

def plainEntries : List (Bytes × Value) → List (Bytes × Value)
  | [] => []
  | (k, v) :: entries => (k, plain v) :: plainEntries entries

end

mutual

/-- The value as it is read: the narrow forms of an integer are signed. -/
def reread : Value → Value
  | .unsigned x => if x < 2 ^ 16 then .int x else .unsigned x
  | .array vs => .array (rereadItems vs)
  | .object entries => .object (rereadEntries entries)
  | v => v

def rereadItems : List Value → List Value
  | [] => []
  | v :: vs => reread v :: rereadItems vs

def rereadEntries : List (Bytes × Value) → List (Bytes × Value)
  | [] => []
  | (k, v) :: entries => (k, reread v) :: rereadEntries entries

end

mutual

theorem plain_reread (v : Value) : v.reread.plain = v.plain := by
  cases v with
  | unsigned x =>
    rw [reread]
    split <;> rfl
  | array vs => rw [reread, plain, plain, plainItems_reread vs]
  | object entries => rw [reread, plain, plain, plainEntries_reread entries]
  | null | bool | int | double | str => rfl

theorem plainItems_reread (vs : List Value) : plainItems (rereadItems vs) = plainItems vs := by
  cases vs with
  | nil => rfl
  | cons v vs => rw [rereadItems, plainItems, plainItems, plain_reread v, plainItems_reread vs]

theorem plainEntries_reread (entries : List (Bytes × Value)) :
    plainEntries (rereadEntries entries) = plainEntries entries := by
  cases entries with
  | nil => rfl
  | cons e entries =>
    obtain ⟨k, v⟩ := e
    rw [rereadEntries, plainEntries, plainEntries, plain_reread v, plainEntries_reread entries]

end

mutual

def strings : Value → List Bytes
  | .str s => [s]
  | .array vs => itemStrings vs
  | .object entries => entryStrings entries
  | _ => []

def itemStrings : List Value → List Bytes
  | [] => []
  | v :: vs => strings v ++ itemStrings vs

def entryStrings : List (Bytes × Value) → List Bytes
  | [] => []
  | (k, v) :: entries => k :: (strings v ++ entryStrings entries)

end

theorem text_leaf {v : Value} {p : Part} (leaf : v.parts = [p]) : v.text = p.bytes := by
  rw [text, leaf, List.flatMap_singleton]

theorem itemParts_eq (vs : List Value) : itemParts vs = vs.flatMap parts := by
  induction vs with
  | nil => rfl
  | cons v vs ih => rw [itemParts, ih, List.flatMap_cons]

theorem entryParts_eq (entries : List (Bytes × Value)) :
    entryParts entries = entries.flatMap fun e => .room (e.1.length + 5) (writeString e.1) :: e.2.parts := by
  induction entries with
  | nil => rfl
  | cons e entries ih =>
    rw [entryParts, ih, List.flatMap_cons]
    rfl

theorem text_array (vs : List Value) : (array vs).text = writeArrayHeader vs.length ++ vs.flatMap text := by
  rw [text, parts, itemParts_eq, List.flatMap_cons, List.flatMap_assoc]
  rfl

theorem text_object (entries : List (Bytes × Value)) :
    (object entries).text = writeMapHeader entries.length ++ entries.flatMap fun e => writeString e.1 ++ e.2.text := by
  rw [text, parts, entryParts_eq, List.flatMap_cons, List.flatMap_assoc]
  rfl

theorem rereadItems_eq (vs : List Value) : rereadItems vs = vs.map reread := by
  induction vs with
  | nil => rfl
  | cons v vs ih => rw [rereadItems, ih, List.map_cons]

theorem rereadEntries_eq (entries : List (Bytes × Value)) : rereadEntries entries = entries.map fun e => (e.1, e.2.reread) := by
  induction entries with
  | nil => rfl
  | cons e entries ih =>
    rw [rereadEntries, ih]
    rfl

theorem itemStrings_eq (vs : List Value) : itemStrings vs = vs.flatMap strings := by
  induction vs with
  | nil => rfl
  | cons v vs ih => rw [itemStrings, ih, List.flatMap_cons]

theorem entryStrings_eq (entries : List (Bytes × Value)) : entryStrings entries = entries.flatMap fun e => e.1 :: e.2.strings := by
  induction entries with
  | nil => rfl
  | cons e entries ih =>
    rw [entryStrings, ih]
    rfl

example : (Value.array [.unsigned 5, .null]).unparse = some [0x92, 0x05, 0xC0] := by decide

/-! ### Space -/

variable {x : Nat}

theorem writeUnsigned_length : 1 ≤ (writeUnsigned x).length ∧ (writeUnsigned x).length ≤ 9 := by
  unfold writeUnsigned
  split_ifs <;> simp

theorem writeSigned_length (x : Int) : 1 ≤ (writeSigned x).length ∧ (writeSigned x).length ≤ 9 := by
  unfold writeSigned
  split_ifs <;> simp

theorem writeString_length (s : Bytes) : s.length + 1 ≤ (writeString s).length ∧ (writeString s).length ≤ s.length + 5 := by
  unfold writeString
  split_ifs <;> simp <;> omega

theorem writeArrayHeader_length : 1 ≤ (writeArrayHeader x).length ∧ (writeArrayHeader x).length ≤ 5 := by
  unfold writeArrayHeader
  split_ifs <;> simp

theorem writeMapHeader_length : 1 ≤ (writeMapHeader x).length ∧ (writeMapHeader x).length ≤ 5 := by
  unfold writeMapHeader
  split_ifs <;> simp

/-- What is reserved is enough for what is written, and little more. -/
def Reserved (p : Part) : Prop := p.bytes.length ≤ p.space ∧ p.space ≤ p.bytes.length + 2 ^ 8

theorem reserved_room {n : Nat} {bs : Bytes} (size : bs.length ≤ n ∧ n ≤ bs.length + 9) : Reserved (.room n bs) :=
  ⟨size.1, Nat.le_trans size.2 (Nat.add_le_add_left (by decide) _)⟩

theorem reserved_string (s : Bytes) : Reserved (.room (s.length + 5) (writeString s)) := by
  have size := writeString_length s
  exact reserved_room (by omega)

mutual

theorem parts_reserved (v : Value) : ∀ p ∈ v.parts, Reserved p := by
  have one : ∀ {p : Part}, Reserved p → ∀ q ∈ [p], Reserved q := fun h q mem => List.mem_singleton.mp mem ▸ h
  have char : ∀ c, Reserved (.char c) := fun c => ⟨Nat.le_refl 1, Nat.le_add_right 1 _⟩
  cases v with
  | null => exact one (char _)
  | bool b => exact one (char _)
  | int x =>
    have size := writeSigned_length x
    exact one (reserved_room (by omega))
  | unsigned x =>
    have size := @writeUnsigned_length x
    exact one (reserved_room (by omega))
  | double bits => exact one (reserved_room (by simp))
  | str s => exact one (reserved_string s)
  | array vs =>
    have size := @writeArrayHeader_length vs.length
    exact List.forall_mem_cons.mpr ⟨reserved_room (by omega), itemParts_reserved vs⟩
  | object entries =>
    have size := @writeMapHeader_length entries.length
    exact List.forall_mem_cons.mpr ⟨reserved_room (by omega), entryParts_reserved entries⟩

theorem itemParts_reserved (vs : List Value) : ∀ p ∈ itemParts vs, Reserved p := by
  cases vs with
  | nil => exact fun p mem => absurd mem List.not_mem_nil
  | cons v vs => exact List.forall_mem_append.mpr ⟨parts_reserved v, itemParts_reserved vs⟩

theorem entryParts_reserved (entries : List (Bytes × Value)) : ∀ p ∈ entryParts entries, Reserved p := by
  cases entries with
  | nil => exact fun p mem => absurd mem List.not_mem_nil
  | cons e entries =>
    exact List.forall_mem_cons.mpr ⟨reserved_string e.1, List.forall_mem_append.mpr ⟨parts_reserved e.2, entryParts_reserved entries⟩⟩

end

/-- The text comes out whole as long as its length stays below an `int` with the space of a growth. -/
theorem unparse_eq {v : Value} (short : v.text.length + 2 ^ 20 ≤ 2 ^ 31) : v.unparse = some v.text := by
  obtain ⟨r, written, same⟩ := @StringAccum.accumulates_of_new memory (fun _ => rfl)
    (by decide) v.text short v.parts rfl (parts_reserved v)
  rw [unparse, written, Option.map_some, same]

theorem unparse_fails {s : Bytes} (long : 2 ^ 31 ≤ s.length + 5) : (str s).unparse = none := by
  have far : 2 ^ 31 ≤ StringAccum.empty.len + (s.length + 5 : Nat) := by
    have none_ : StringAccum.empty.len = 0 := rfl
    omega
  have failed : StringAccum.writeAll memory .empty [.room (s.length + 5) (writeString s)] = none := by
    rw [StringAccum.writeAll_cons, StringAccum.write, StringAccum.reserve, if_pos far]
    rfl
  rw [unparse, parts, failed]
  rfl

/-! ### Lengths -/

theorem length_le_flatMap {α : Type} {f : α → Bytes} {l : List α} {x : α} (mem : x ∈ l) : (f x).length ≤ (l.flatMap f).length := by
  obtain ⟨before, after, rfl⟩ := List.append_of_mem mem
  rw [List.flatMap_append, List.flatMap_cons, List.length_append, List.length_append]
  omega

end Value

/-- `format::write_wide_int64` of a signed integer -/
def writeWideSigned (x : Int) : Bytes := 0xD3 :: toNetOrder 8 (word 8 x)

/-- `format::write_wide_int64` of an unsigned integer -/
def writeWideUnsigned (x : Nat) : Bytes := 0xCF :: toNetOrder 8 x

def writeFloat (bits : Nat) : Bytes := 0xCA :: toNetOrder 4 bits

/-- A value, bytes for it, and the value that is read from them. -/
structure Text where
  value : Value
  bytes : Bytes
  result : Value

namespace Text

open Value

/-- What `unparser` writes, and how the narrow forms of an unsigned integer come back: as signed. A string is one that can be made. -/
inductive Written : Text → Prop
  | null : Written ⟨.null, [0xC0], .null⟩
  | bool (b : Bool) : Written ⟨.bool b, [if b then 0xC3 else 0xC2], .bool b⟩
  | int {x : Int} : -2 ^ 63 ≤ x ∧ x < 2 ^ 63 → Written ⟨.int x, writeSigned x, .int x⟩
  | unsigned {x : Nat} : x < 2 ^ 64 → Written ⟨.unsigned x, writeUnsigned x, (Value.unsigned x).reread⟩
  | wideInt {x : Int} : -2 ^ 63 ≤ x ∧ x < 2 ^ 63 → Written ⟨.int x, writeWideSigned x, .int x⟩
  | wideUnsigned {x : Nat} : x < 2 ^ 64 → Written ⟨.unsigned x, writeWideUnsigned x, .unsigned x⟩
  | float {bits : Nat} : bits < 2 ^ 32 →
      Written ⟨.double (floatToDouble bits), writeFloat bits, .double (floatToDouble bits)⟩
  | double {bits : Nat} : bits < 2 ^ 64 → Written ⟨.double bits, 0xCB :: toNetOrder 8 bits, .double bits⟩
  | str {s : Bytes} : s.length + 27 < 2 ^ 31 → Written ⟨.str s, writeString s, .str s⟩
  | array {ws : List Text} : ws.length < 2 ^ 31 → (∀ w ∈ ws, Written w) →
      Written ⟨.array (ws.map value), writeArrayHeader ws.length ++ ws.flatMap bytes, .array (ws.map result)⟩
  | object {es : List (Bytes × Text)} : es.length < 2 ^ 31 → (es.map Prod.fst).Nodup → Keyed (es.map Prod.fst) →
      (∀ e ∈ es, e.1.length + 27 < 2 ^ 31) → (∀ e ∈ es, Written e.2) →
      Written ⟨.object (es.map fun e => (e.1, e.2.value)),
        writeMapHeader es.length ++ es.flatMap fun e => writeString e.1 ++ e.2.bytes,
        .object (es.map fun e => (e.1, e.2.result))⟩

/-- `operator<<` of a whole value -/
def unparsed (v : Value) : Text := ⟨v, v.text, v.reread⟩

end Text

namespace Value

/-- In a short text every string is one that can be made. -/
theorem Holds.written {v : Value} (holds : v.Holds) (short : v.text.length + 2 ^ 20 ≤ 2 ^ 31) : (Text.unparsed v).Written := by
  have fits : ∀ (s : Bytes) (n : Nat), (writeString s).length ≤ n → n + 2 ^ 20 ≤ 2 ^ 31 → s.length + 27 < 2 ^ 31 := by
    intro s n inside bound
    have size := writeString_length s
    omega
  induction holds with
  | null => exact .null
  | bool b => exact .bool b
  | @int x range =>
    rw [Text.unparsed, text_leaf (v := .int x) rfl]
    exact .int range
  | @unsigned x range =>
    rw [Text.unparsed, text_leaf (v := .unsigned x) rfl]
    exact .unsigned range
  | @double bits range =>
    rw [Text.unparsed, text_leaf (v := .double bits) rfl]
    exact .double range
  | @str s small =>
    rw [text_leaf (v := .str s) rfl] at short
    rw [Text.unparsed, text_leaf (v := .str s) rfl]
    exact .str (fits s _ (Nat.le_refl _) short)
  | @array vs small _ ih =>
    rw [text_array, List.length_append] at short
    have each : ∀ w ∈ vs.map Text.unparsed, w.Written := by
      refine List.forall_mem_map.mpr fun v mem => ih v mem ?_
      have inside := length_le_flatMap (f := text) mem
      omega
    have written := @Text.Written.array (vs.map Text.unparsed) (by rwa [List.length_map]) each
    rw [List.length_map, List.flatMap_map, List.map_map, List.map_map] at written
    change Text.Written ⟨.array (vs.map id), writeArrayHeader vs.length ++ vs.flatMap text, .array (vs.map reread)⟩ at written
    rwa [List.map_id, ← text_array, ← rereadItems_eq] at written
  | @object entries small distinct keyed keys _ ih =>
    rw [text_object, List.length_append] at short
    have inside : ∀ e ∈ entries, (writeString e.1).length + e.2.text.length + 2 ^ 20 ≤ 2 ^ 31 := by
      intro e mem
      have inside := length_le_flatMap (f := fun e : Bytes × Value => writeString e.1 ++ e.2.text) mem
      rw [List.length_append] at inside
      omega
    have written := @Text.Written.object (entries.map fun e => (e.1, Text.unparsed e.2)) (by rwa [List.length_map])
      (by rwa [List.map_map]) (by rwa [List.map_map])
      (List.forall_mem_map.mpr fun e mem => fits e.1 _ (Nat.le_add_right _ _) (inside e mem))
      (List.forall_mem_map.mpr fun e mem => ih e mem (by have := inside e mem; omega))
    rw [List.length_map, List.flatMap_map, List.map_map, List.map_map] at written
    change Text.Written ⟨.object (entries.map id), writeMapHeader entries.length ++ entries.flatMap fun e => writeString e.1 ++ e.2.text,
      .object (entries.map fun e => (e.1, e.2.reread))⟩ at written
    rwa [List.map_id, ← text_object, ← rereadEntries_eq] at written

end Value

end Masstree.Msgpack
