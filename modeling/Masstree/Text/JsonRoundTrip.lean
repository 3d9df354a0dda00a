import Masstree.Text.JsonRun

/-!
# JSON text read back

What `assign_parse` makes of what `unparse` wrote, with any manipulator.
-/

namespace Masstree.JsonText

open Msgpack (Bytes Value Fault Keyed decimal)

/-! ### Values read back -/

/-- `%.12g` prints numbers, and what is not finite. -/
def Libc.Prints (lib : Libc) : Prop :=
  ∀ bits, (∃ t : NumberText, lib.format bits = t.bytes) ∨ lib.format bits ∈ [ascii "inf", ascii "-inf", ascii "nan", ascii "-nan"]

section

variable (lib : Libc)

def rereadDouble (bits : Nat) : Option Value :=
  match consumeNumber lib true 0 [] (lib.format bits) with
  | .value v [] => some v
  | _ => none

mutual

/-- What a value reads back as, unless its text is refused: `stack_` has `size` elements before it, and `inner` within. -/
def reread (size inner : Nat) : Value → Option Value
  | .null => some .null
  | .bool b => some (.bool b)
  | .int x => some (rereadInt x)
  | .unsigned x => some (rereadInt x)
  | .double bits => rereadDouble lib bits
  | .str s => (rereadString s).map .str
  | .array vs => if size = maxDepth then none else (rereadItems inner vs).map .array
  | .object entries => if size = maxDepth then none else (rereadEntries inner entries).map .object

def rereadItems (size : Nat) : List Value → Option (List Value)
  | [] => some []
  | v :: vs => (reread size (size + 1) v).bind fun v => (rereadItems size vs).map (v :: ·)

def rereadEntries (size : Nat) : List (Bytes × Value) → Option (List (Bytes × Value))
  | [] => some []
  | (k, v) :: entries =>
    (rereadString k).bind fun k => (reread (size + 1) (size + 1) v).bind fun v => (rereadEntries size entries).map ((k, v) :: ·)

end

def rereadKeys (entries : List (Bytes × Value)) : List Bytes := entries.filterMap fun e => rereadString e.1

mutual

/-- The keys of its objects, as they are read back, can be entered one after the other. -/
def Rekeyed : Value → Prop
  | .array vs => RekeyedItems vs
  | .object entries => Keyed (rereadKeys entries) ∧ RekeyedEntries entries
  | _ => True

def RekeyedItems : List Value → Prop
  | [] => True
  | v :: vs => Rekeyed v ∧ RekeyedItems vs

def RekeyedEntries : List (Bytes × Value) → Prop
  | [] => True
  | (_, v) :: entries => Rekeyed v ∧ RekeyedEntries entries

end

/-- The text has a point or an exponent, and says the double. -/
def LegibleDouble (bits : Nat) : Prop := (∃ c ∈ lib.format bits, c = 0x2E ∨ c = 0x65) ∧ lib.strtod (lib.format bits) = bits

mutual

def Legible (size inner : Nat) : Value → Prop
  | .null | .bool _ | .int _ | .unsigned _ => True
  | .double bits => LegibleDouble lib bits
  | .str s => LegibleString s
  | .array vs => size ≠ maxDepth ∧ LegibleItems inner vs
  | .object entries => size ≠ maxDepth ∧ LegibleEntries inner entries

def LegibleItems (size : Nat) : List Value → Prop
  | [] => True
  | v :: vs => Legible size (size + 1) v ∧ LegibleItems size vs

def LegibleEntries (size : Nat) : List (Bytes × Value) → Prop
  | [] => True
  | (k, v) :: entries => LegibleString k ∧ Legible (size + 1) (size + 1) v ∧ LegibleEntries size entries

end

end

/-! ### Where a value goes -/

/-- Where the parser expects a value: alone, in the slot of a new key, or at the back of an array. -/
inductive Place where
  | top
  | slot (before : List (Bytes × Value)) (key : Bytes) (stack : List Frame)
  | item (first : Bool) (items : List Value) (stack : List Frame)

namespace Place

def expecting : Place → JsonParser
  | top => {}
  | slot before key stack => { status := .objectValue, stack := .entry before key [] :: stack }
  | item first items stack => { status := if first then .arrayInitial else .arrayValue, stack, json := .array items }

/-- `stack_` within a container there. -/
def inner : Place → List Frame
  | top => []
  | slot before key stack => .entry before key [] :: stack
  | item _ items stack => .item items :: stack

def done : Place → Value → JsonParser
  | top, v => { status := .final, json := v }
  | slot before key stack, v => { status := .objectDelim, stack, json := .object (before ++ [(key, v)]) }
  | item _ items stack, v => { status := .arrayDelim, stack, json := .array (items ++ [v]) }

variable (place : Place)

theorem alive : ¬place.expecting.status.isDone := by
  rcases place with _ | _ | ⟨_ | _, items, stack⟩ <;> exact Bool.false_ne_true

theorem expectsValue : place.expecting.status.expectsValue := by
  rcases place with _ | _ | ⟨_ | _, items, stack⟩ <;> rfl

theorem value_scalar {v : Value} (scalar : JsonParser.opened v = none) : place.expecting.value v = place.done v := by
  rcases place with _ | _ | ⟨_ | _, items, stack⟩ <;>
    simp [expecting, done, JsonParser.value, JsonParser.pop, Frame.fill, scalar, JsonParser.itemsOf]

theorem value_container {v : Value} {status : Status} (container : JsonParser.opened v = some status) :
    place.expecting.value v = { status, stack := place.inner, json := v } := by
  rcases place with _ | _ | ⟨_ | _, items, stack⟩ <;> simp [expecting, inner, JsonParser.value, container, JsonParser.itemsOf]

theorem closeValue {v : Value} {status : Status} :
    JsonParser.closeValue { status, stack := place.inner, json := v } = place.done v := by
  rcases place with _ | _ | ⟨_ | _, items, stack⟩ <;> rfl

end Place

/-! ### Rounds -/

namespace JsonParser

variable {lib : Libc} {m : Manipulator} {p : JsonParser} {c : UInt8} {s ws rest : Bytes} {expanded : Bool} {depth : Nat}

theorem run_space (alive : ¬p.status.isDone) (space : isSpace c) : run lib true p (c :: s) = run lib true p s := by
  have skipped : ∀ {c s}, isSpace c → run lib true p (c :: s) = run lib true p (s.dropWhile isSpace) := fun space =>
    run_ok alive (by rw [round, if_pos space])
  rw [skipped space]
  cases s with
  | nil => rfl
  | cons d s =>
    by_cases more : isSpace d
    · rw [List.dropWhile_cons_of_pos more, skipped more]
    · rw [List.dropWhile_cons_of_neg more]

theorem run_spaces (alive : ¬p.status.isDone) (spaces : ∀ c ∈ ws, isSpace c) : run lib true p (ws ++ s) = run lib true p s := by
  induction ws with
  | nil => rfl
  | cons c ws ih =>
    obtain ⟨first, others⟩ := List.forall_mem_cons.mp spaces
    rw [List.cons_append, run_space alive first, ih others]

theorem run_lineBreak (alive : ¬p.status.isDone) : run lib true p (lineBreak m expanded depth ++ s) = run lib true p s := by
  refine run_spaces alive fun c mem => ?_
  unfold lineBreak at mem
  split_ifs at mem
  · simp only [unparseIndent, List.mem_cons, List.mem_append, List.mem_replicate] at mem
    rcases mem with rfl | ⟨_, rfl⟩ | ⟨_, rfl⟩ <;> rfl
  · cases mem

theorem isSpace_number (first : c = 0x2D ∨ isDigit c) : ¬isSpace c := by
  intro space
  simp only [isSpace, Bool.or_eq_true, decide_eq_true_eq] at space
  rcases space with ((rfl | rfl) | rfl) | rfl <;> exact absurd first (by decide)

theorem round_number (first : c = 0x2D ∨ isDigit c) (due : p.status.expectsValue) :
    p.round lib true (c :: s) = .ok (p.tokenDone (consumeNumber lib true 0 [] (c :: s))) := by
  have other : ∀ {b : UInt8}, ¬(b = 0x2D ∨ isDigit b) → c ≠ b := fun no same => no (same ▸ first)
  rw [round, if_neg (isSpace_number first), if_neg (other (by decide)), if_neg (other (by decide)),
    if_neg (not_or.mpr ⟨other (by decide), other (by decide)⟩), if_neg (other (by decide)), if_neg (other (by decide)),
    if_neg (other (by decide)), if_neg (not_or.mpr ⟨other (by decide), not_or.mpr ⟨other (by decide), other (by decide)⟩⟩),
    if_pos first, if_pos due]

end JsonParser

/-! ### Outcomes -/

def Refuses (x : Except Fault (JsonParser × Bytes)) : Prop := ∃ q w, x = .ok (q, w) ∧ q.status = .error

/-- `x` is what comes next, or an error where nothing comes. -/
def Comes (x : Except Fault (JsonParser × Bytes)) : Option (Except Fault (JsonParser × Bytes)) → Prop
  | some y => x = y
  | none => Refuses x

section

variable {lib : Libc} {m : Manipulator} {p q : JsonParser} {c : UInt8} {s t w rest : Bytes} {expanded : Bool} {depth : Nat}
  {x y : Except Fault (JsonParser × Bytes)} {α β : Type}

open JsonParser

theorem Comes.of_eq {o : Option (Except Fault (JsonParser × Bytes))} (same : x = y) (comes : Comes y o) : Comes x o := same ▸ comes

theorem Comes.bind {o : Option α} {f : α → Except Fault (JsonParser × Bytes)} {g : α → Option β}
    {h : β → Except Fault (JsonParser × Bytes)} (comes : Comes x (o.map f))
    (next : ∀ a, o = some a → Comes (f a) ((g a).map h)) : Comes x ((o.bind g).map h) := by
  cases found : o with
  | none =>
    rw [found] at comes
    exact comes
  | some a =>
    rw [found] at comes
    exact Comes.of_eq comes (next a found)

theorem refuses_errorAt (alive : ¬p.status.isDone) (made : p.round lib true (c :: s) = .ok (q.errorAt rest)) :
    Refuses (run lib true p (c :: s)) :=
  ⟨{ q with status := .error, part := .none }, rest, (run_ok alive made).trans (run_stops (.inl rfl)), rfl⟩

variable {place : Place}

/-- `stack_.size()` where the value is expected. -/
def Place.size (place : Place) : Nat := place.expecting.stack.length

theorem consumePrimitive_end {n : Nat} (whole : literals.getD n 0 = 0) : consumePrimitive n rest = .value (literalValue n) rest := by
  cases rest with
  | nil => exact if_pos whole
  | cons c rest => exact if_pos whole

theorem consumePrimitive_next {n : Nat} (same : literals.getD n 0 = c) (more : c ≠ 0) :
    consumePrimitive n (c :: rest) = consumePrimitive (n + 1) rest := by
  rw [consumePrimitive, same, if_neg more, if_neg (not_not_intro rfl)]

theorem read_null : consumePrimitive 1 (0x75 :: 0x6C :: 0x6C :: rest) = .value .null rest := by
  rw [consumePrimitive_next, consumePrimitive_next, consumePrimitive_next, consumePrimitive_end]
  · rfl
  all_goals decide

theorem read_false : consumePrimitive 6 (0x61 :: 0x6C :: 0x73 :: 0x65 :: rest) = .value (.bool false) rest := by
  rw [consumePrimitive_next, consumePrimitive_next, consumePrimitive_next, consumePrimitive_next, consumePrimitive_end]
  · rfl
  all_goals decide

theorem read_true : consumePrimitive 12 (0x72 :: 0x75 :: 0x65 :: rest) = .value (.bool true) rest := by
  rw [consumePrimitive_next, consumePrimitive_next, consumePrimitive_next, consumePrimitive_end]
  · rfl
  all_goals decide

theorem run_primitive {v : Value} {n : Nat} (starts : c = 0x6E ∧ n = 1 ∨ c = 0x66 ∧ n = 6 ∨ c = 0x74 ∧ n = 12)
    (scalar : opened v = none) (read : consumePrimitive n s = .value v rest) :
    run lib true place.expecting (c :: s) = run lib true (place.done v) rest := by
  have made : place.expecting.round lib true (c :: s) = .ok (place.expecting.tokenDone (consumePrimitive n s)) := by
    rcases starts with ⟨rfl, rfl⟩ | ⟨rfl, rfl⟩ | ⟨rfl, rfl⟩ <;> exact if_pos place.expectsValue
  rw [run_ok place.alive made, read]
  exact congrArg (fun p => run lib true p rest) (place.value_scalar scalar)

theorem run_number {v : Value} (first : c = 0x2D ∨ isDigit c) (scalar : opened v = none)
    (read : consumeNumber lib true 0 [] (c :: s) = .value v rest) :
    run lib true place.expecting (c :: s) = run lib true (place.done v) rest := by
  rw [run_ok place.alive (round_number first place.expectsValue), read]
  exact congrArg (fun p => run lib true p rest) (place.value_scalar scalar)

theorem refuses_number (first : c = 0x2D ∨ isDigit c) (read : consumeNumber lib true 0 [] (c :: s) = .bad rest) :
    Refuses (run lib true place.expecting (c :: s)) :=
  refuses_errorAt place.alive ((round_number first place.expectsValue).trans (by rw [read]; rfl))

theorem quoted_append : quoted s ++ rest = 0x22 :: (encodeJson s ++ 0x22 :: rest) := by
  rw [quoted, List.cons_append, List.append_assoc]
  rfl

theorem Place.stringDone_closed : place.expecting.stringDone (.closed t rest) = .ok (place.done (.str t), rest) := by
  have value := place.value_scalar (v := .str t) rfl
  rcases place with _ | _ | ⟨_ | _, items, stack⟩ <;> exact congrArg (fun p => Except.ok (p, rest)) value

theorem string_comes : Comes (run lib true place.expecting (quoted s ++ rest))
    ((rereadString s).map fun t => run lib true (place.done (.str t)) rest) := by
  have made : place.expecting.round lib true (0x22 :: (encodeJson s ++ 0x22 :: rest)) =
      (stringRun [] (encodeJson s ++ 0x22 :: rest)).bind place.expecting.stringDone := if_pos place.expectsValue
  rw [quoted_append]
  cases reads : rereadString s with
  | none =>
    obtain ⟨r, refused⟩ : ∃ r, stringRun [] (encodeJson s ++ 0x22 :: rest) = .ok (.bad r) := stringRun_refused reads
    rw [refused] at made
    exact refuses_errorAt place.alive made
  | some t =>
    rw [stringRun_reads reads] at made
    exact run_ok place.alive (made.trans Place.stringDone_closed)

theorem scanInteger_other (other : ¬isDigit c ∧ c ≠ 0x2E ∧ c ≠ 0x65 ∧ c ≠ 0x45) : scanInteger (c :: s) = (2, c :: s) := by
  obtain ⟨digit, point, small, capital⟩ := other
  have zero : c ≠ 0x30 := by
    rintro rfl
    exact digit rfl
  have nonzero : ¬inRange c 0x31 0x3A := by
    rw [isDigit, inRange_iff] at digit
    rw [inRange_iff]
    omega
  rw [scanInteger, if_neg zero, if_neg nonzero, scanPoint, if_neg point, maybeExponent, if_neg (not_or.mpr ⟨small, capital⟩)]

theorem consumeNumber_minus (other : ¬isDigit c ∧ c ≠ 0x2E ∧ c ≠ 0x65 ∧ c ≠ 0x45) :
    consumeNumber lib true 0 [] (0x2D :: c :: s) = .bad (c :: s) := by
  have scanned : scanNumber 0 (0x2D :: c :: s) = (2, c :: s) := scanInteger_other other
  unfold consumeNumber
  rw [scanned]
  exact (if_pos (Or.inr rfl)).trans (if_pos (Nat.mod_self 2))

theorem double_comes (prints : lib.Prints) (bits : Nat) (ends : Ends rest) :
    Comes (run lib true place.expecting (lib.format bits ++ rest))
      ((rereadDouble lib bits).map fun v => run lib true (place.done v) rest) := by
  unfold rereadDouble
  rcases prints bits with ⟨number, same⟩ | other
  · obtain ⟨c, w, text, first⟩ := number.bytes_cons
    have read := number.consumeNumber_bytes lib ends
    rw [same, number.consumeNumber_alone]
    rw [text, List.cons_append] at read ⊢
    refine run_number first ?_ read
    unfold numberValue
    split_ifs <;> rfl
  · simp only [List.mem_cons, List.not_mem_nil, or_false] at other
    rcases other with same | same | same | same <;> rw [same]
    · exact refuses_errorAt (q := place.expecting) place.alive rfl
    · have text : ascii "-inf" ++ rest = 0x2D :: 0x69 :: (ascii "nf" ++ rest) := rfl
      rw [text]
      exact refuses_number (.inl rfl) (consumeNumber_minus (by decide))
    · exact refuses_errorAt (q := place.expecting) place.alive (if_pos place.expectsValue)
    · have text : ascii "-nan" ++ rest = 0x2D :: 0x6E :: (ascii "an" ++ rest) := rfl
      rw [text]
      exact refuses_number (.inl rfl) (consumeNumber_minus (by decide))

end

/-! ### Containers -/

def afterItem (items : List Value) (stack : List Frame) : JsonParser := { status := .arrayDelim, stack, json := .array items }

def afterEntry (entries : List (Bytes × Value)) (stack : List Frame) : JsonParser :=
  { status := .objectDelim, stack, json := .object entries }

theorem Place.done_item {first : Bool} {items : List Value} {stack : List Frame} {v : Value} :
    (Place.item first items stack).done v = afterItem (items ++ [v]) stack := rfl

theorem Place.done_slot {entries : List (Bytes × Value)} {k : Bytes} {stack : List Frame} {v : Value} :
    (Place.slot entries k stack).done v = afterEntry (entries ++ [(k, v)]) stack := rfl

section

variable {lib : Libc} {m : Manipulator} {place : Place} {c : UInt8} {s t k w rest : Bytes} {expanded : Bool} {depth : Nat}
  {items : List Value} {entries : List (Bytes × Value)} {stack : List Frame}

open JsonParser

theorem run_comma_item :
    run lib true (afterItem items stack) (comma m expanded ++ s) = run lib true (Place.item false items stack).expecting s := by
  have alive : ¬(afterItem items stack).status.isDone := Bool.false_ne_true
  unfold comma
  split_ifs
  · exact (run_ok alive rfl).trans (run_space (Place.alive _) rfl)
  · exact run_ok alive rfl

def beforeKey (first : Bool) (entries : List (Bytes × Value)) (stack : List Frame) : JsonParser :=
  { status := if first then .objectInitial else .objectKey, stack, json := .object entries }

theorem run_comma_entry :
    run lib true (afterEntry entries stack) (comma m expanded ++ s) = run lib true (beforeKey false entries stack) s := by
  have alive : ¬(afterEntry entries stack).status.isDone := Bool.false_ne_true
  have alive' : ¬(beforeKey false entries stack).status.isDone := Bool.false_ne_true
  unfold comma
  split_ifs
  · exact (run_ok alive rfl).trans (run_space alive' rfl)
  · exact run_ok alive rfl

def afterKey (entries : List (Bytes × Value)) (k : Bytes) (stack : List Frame) : JsonParser :=
  { status := .objectColon, stack := .entry entries k [] :: stack }

theorem run_colon :
    run lib true (afterKey entries k stack) (colon m expanded ++ s) = run lib true (Place.slot entries k stack).expecting s := by
  have alive : ¬(afterKey entries k stack).status.isDone := Bool.false_ne_true
  unfold colon
  split_ifs
  · exact (run_ok alive rfl).trans (run_space (Place.alive _) rfl)
  · exact run_ok alive rfl

theorem enter_fresh (fresh : k ∉ entries.map (·.1)) (keyed : Keyed (entries.map (·.1) ++ [k])) :
    ({ status := .objectColon, stack, json := .object entries } : JsonParser).enter k = .ok (afterKey entries k stack) := by
  have all : (entriesOf (.object entries)).span (fun e => e.1 ≠ k) = (entries, []) := by
    have other : ∀ e ∈ entries, decide (e.1 ≠ k) = true := by
      intro e mem
      apply decide_eq_true
      rintro rfl
      exact fresh (List.mem_map_of_mem mem)
    rw [List.span_eq_takeWhile_dropWhile, entriesOf, List.takeWhile_eq_self_iff.mpr other, List.dropWhile_eq_nil_iff.mpr other]
  unfold enter
  dsimp only
  have entered : ¬¬Keyed ((entriesOf (.object entries)).map Prod.fst ++ [k]) := not_not.mpr keyed
  rw [if_neg entered, all]
  rfl

theorem key_comes {first : Bool} (fresh : ∀ t, rereadString k = some t → t ∉ entries.map (·.1))
    (keyed : ∀ t, rereadString k = some t → Keyed (entries.map (·.1) ++ [t])) :
    Comes (run lib true (beforeKey first entries stack) (quoted k ++ (colon m expanded ++ rest)))
      ((rereadString k).map fun t => run lib true (Place.slot entries t stack).expecting rest) := by
  have made : (beforeKey first entries stack).round lib true (0x22 :: (encodeJson k ++ 0x22 :: (colon m expanded ++ rest))) =
      (stringRun [] (encodeJson k ++ 0x22 :: (colon m expanded ++ rest))).bind
        ({ status := .objectColon, stack, json := .object entries } : JsonParser).stringDone := by
    cases first <;> rfl
  have alive : ¬(beforeKey first entries stack).status.isDone := by cases first <;> exact Bool.false_ne_true
  rw [quoted_append]
  cases reads : rereadString k with
  | none =>
    obtain ⟨r, refused⟩ : ∃ r, stringRun [] (encodeJson k ++ 0x22 :: (colon m expanded ++ rest)) = .ok (.bad r) :=
      stringRun_refused reads
    rw [refused] at made
    exact refuses_errorAt alive made
  | some t =>
    have entered : ({ status := .objectColon, stack, json := .object entries } : JsonParser).stringDone
        (.closed ([] ++ t) (colon m expanded ++ rest)) = .ok (afterKey entries t stack, colon m expanded ++ rest) := by
      rw [List.nil_append, stringDone, if_pos rfl, enter_fresh (fresh t reads) (keyed t reads)]
      rfl
    rw [stringRun_reads reads] at made
    exact (run_ok alive (made.trans entered)).trans run_colon

theorem open_comes {container : Value} {status : Status} {o : Option Value}
    (starts : c = 0x5B ∧ container = .array [] ∧ status = .arrayInitial ∨ c = 0x7B ∧ container = .object [] ∧ status = .objectInitial)
    (next : Comes (run lib true { status, stack := place.inner, json := container } s)
    (o.map fun v => run lib true (place.done v) rest)) :
    Comes (run lib true place.expecting (c :: s))
      ((if place.size = maxDepth then none else o).map fun v => run lib true (place.done v) rest) := by
  have opens : opened container = some status := by rcases starts with ⟨_, rfl, rfl⟩ | ⟨_, rfl, rfl⟩ <;> rfl
  have made : place.expecting.round lib true (c :: s) = if place.expecting.status.expectsValue ∧ place.size ≠ maxDepth then
      .ok (place.expecting.value container, s) else .ok (place.expecting.errorAt (c :: s)) := by
    rcases starts with ⟨rfl, rfl, _⟩ | ⟨rfl, rfl, _⟩ <;> rfl
  by_cases full : place.size = maxDepth
  · rw [if_neg fun both => both.2 full] at made
    rw [if_pos full]
    exact refuses_errorAt place.alive made
  · rw [if_pos ⟨place.expectsValue, full⟩, place.value_container opens] at made
    rw [if_neg full]
    exact Comes.of_eq (run_ok place.alive made) next

def Closes (c : UInt8) (status : Status) : Prop :=
  c = 0x5D ∧ (status = .arrayInitial ∨ status = .arrayDelim) ∨ c = 0x7D ∧ (status = .objectInitial ∨ status = .objectDelim)

theorem alive_closing {status : Status} (closes : Closes c status) : ¬status.isDone := by
  rcases closes with ⟨_, rfl | rfl⟩ | ⟨_, rfl | rfl⟩ <;> exact Bool.false_ne_true

theorem run_closing {v : Value} {status : Status} (closes : Closes c status) :
    run lib true { status, stack := place.inner, json := v } (c :: rest) = run lib true (place.done v) rest := by
  have made : ({ status, stack := place.inner, json := v } : JsonParser).round lib true (c :: rest) =
      .ok (JsonParser.closeValue { status, stack := place.inner, json := v }, rest) := by
    rcases closes with ⟨rfl, rfl | rfl⟩ | ⟨rfl, rfl | rfl⟩ <;> rfl
  rw [run_ok (alive_closing closes) made, Place.closeValue]

theorem run_close {v : Value} {status : Status} (closes : Closes c status) :
    run lib true { status, stack := place.inner, json := v } (lineBreak m expanded depth ++ (c :: rest)) =
      run lib true (place.done v) rest := by
  rw [run_lineBreak (p := { status, stack := place.inner, json := v }) (alive_closing closes), run_closing closes]

theorem ends_cons (other : ¬isDigit c ∧ c ≠ 0x2E ∧ c ≠ 0x65 ∧ c ≠ 0x45) : Ends (c :: s) := by
  rintro d ⟨⟩
  exact other

theorem ends_comma : Ends (comma m expanded ++ s) := by
  unfold comma
  split_ifs <;> exact ends_cons (by decide)

theorem ends_close (closes : c = 0x5D ∨ c = 0x7D) : Ends (lineBreak m expanded depth ++ (c :: s)) := by
  unfold lineBreak
  split_ifs
  · exact ends_cons (by decide)
  · rcases closes with rfl | rfl <;> exact ends_cons (by decide)

theorem ends_items {vs : List Value} (ends : Ends w) : Ends (unparseItems lib m depth expanded true vs ++ w) := by
  cases vs with
  | nil => exact ends
  | cons v vs =>
    rw [unparseItems, if_pos rfl, List.append_assoc]
    exact ends_comma

theorem ends_entries {es : List (Bytes × Value)} (ends : Ends w) : Ends (unparseEntries lib m depth expanded true es ++ w) := by
  cases es with
  | nil => exact ends
  | cons e es =>
    rw [unparseEntries, if_pos rfl, List.append_assoc]
    exact ends_comma

end

/-! ### Values -/

section

variable {lib : Libc} {m : Manipulator} {place : Place} {w rest : Bytes}

open JsonParser

/-- A key that is new stays new behind the entries before it. -/
theorem fresh_push {k t : Bytes} {v : Value} {es : List (Bytes × Value)} (entries : List (Bytes × Value))
    (reads : rereadString k = some t) (nodup : k ∉ es.map (·.1))
    (fresh : ∀ e ∈ es, ∀ t, rereadString e.1 = some t → t ∉ entries.map (·.1)) :
    ∀ e ∈ es, ∀ t', rereadString e.1 = some t' → t' ∉ (entries ++ [(t, v)]).map (·.1) := by
  intro e mem t' reads'
  rw [List.map_append, List.mem_append, List.map_singleton, List.mem_singleton]
  rintro (old | rfl)
  · exact fresh e mem t' reads' old
  · exact nodup (rereadString_inj reads' reads ▸ List.mem_map_of_mem mem)

theorem keyed_here {k t : Bytes} {v : Value} {es : List (Bytes × Value)} (entries : List (Bytes × Value))
    (reads : rereadString k = some t)
    (keyed : Keyed (entries.map (·.1) ++ rereadKeys ((k, v) :: es))) : Keyed (entries.map (·.1) ++ [t]) := by
  have keys : rereadKeys ((k, v) :: es) = [t] ++ rereadKeys es := List.filterMap_cons_some reads
  rw [keys, ← List.append_assoc] at keyed
  exact keyed.of_append

theorem keyed_push {k t : Bytes} {v v' : Value} {es : List (Bytes × Value)} (entries : List (Bytes × Value))
    (reads : rereadString k = some t)
    (keyed : Keyed (entries.map (·.1) ++ rereadKeys ((k, v) :: es))) : Keyed ((entries ++ [(t, v')]).map (·.1) ++ rereadKeys es) := by
  have keys : rereadKeys ((k, v) :: es) = [t] ++ rereadKeys es := List.filterMap_cons_some reads
  rw [keys, ← List.append_assoc] at keyed
  rwa [List.map_append]

theorem integer_comes {x : Int} (range : -2 ^ 63 ≤ x ∧ x < 2 ^ 64) (ends : Ends rest) :
    run lib true place.expecting (decimal x ++ rest) = run lib true (place.done (rereadInt x)) rest := by
  obtain ⟨c, s, text, first⟩ := (NumberText.ofInt x).bytes_cons
  have read := consumeNumber_decimal lib range ends
  rw [NumberText.bytes_ofInt] at text
  rw [text, List.cons_append] at read ⊢
  refine run_number first ?_ read
  unfold rereadInt
  split_ifs <;> rfl

mutual

/-- The text of a value brings the parser behind the value read back. -/
theorem value_comes (prints : lib.Prints) (v : Value) (holds : v.Holds) (rekeyed : Rekeyed v) (place : Place)
    (depth : Nat) (rest : Bytes) (ends : Ends rest) :
    Comes (run lib true place.expecting (hardUnparse lib m depth v ++ rest))
      ((reread lib place.size place.inner.length v).map fun v => run lib true (place.done v) rest) := by
  cases v with
  | null =>
    have text : hardUnparse lib m depth .null ++ rest = 0x6E :: 0x75 :: 0x6C :: 0x6C :: rest := rfl
    rw [text]
    exact run_primitive (.inl ⟨rfl, rfl⟩) rfl read_null
  | bool b =>
    cases b with
    | false =>
      have text : hardUnparse lib m depth (.bool false) ++ rest = 0x66 :: 0x61 :: 0x6C :: 0x73 :: 0x65 :: rest := rfl
      rw [text]
      exact run_primitive (.inr (.inl ⟨rfl, rfl⟩)) rfl read_false
    | true =>
      have text : hardUnparse lib m depth (.bool true) ++ rest = 0x74 :: 0x72 :: 0x75 :: 0x65 :: rest := rfl
      rw [text]
      exact run_primitive (.inr (.inr ⟨rfl, rfl⟩)) rfl read_true
  | int x =>
    cases holds with
    | int range =>
    exact integer_comes ⟨range.1, by omega⟩ ends
  | unsigned x =>
    cases holds with
    | unsigned range =>
    have range' : -2 ^ 63 ≤ (x : Int) ∧ (x : Int) < 2 ^ 64 := by omega
    exact integer_comes range' ends
  | double bits =>
    rw [hardUnparse, reread]
    exact double_comes prints bits ends
  | str s =>
    rw [hardUnparse, reread, Option.map_map]
    exact string_comes
  | array vs =>
    cases vs with
    | nil => exact open_comes (.inl ⟨rfl, rfl, rfl⟩) (run_closing (.inl ⟨rfl, .inl rfl⟩))
    | cons v vs =>
      cases holds with
      | array size all =>
      obtain ⟨first, others⟩ := List.forall_mem_cons.mp all
      obtain ⟨rekeyed, rekeyed'⟩ : Rekeyed v ∧ RekeyedItems vs := rekeyed
      rw [hardUnparse, reread, List.cons_append]
      refine open_comes (.inl ⟨rfl, rfl, rfl⟩) ?_
      generalize isExpanded m depth (.array (v :: vs)) = expanded
      have ends' : Ends (lineBreak m expanded depth ++ (0x5D :: rest)) := ends_close (.inl rfl)
      have closes : ∀ vs, run lib true (afterItem vs place.inner) (lineBreak m expanded depth ++ (0x5D :: rest)) =
          run lib true (place.done (.array vs)) rest := fun vs => run_close (.inl ⟨rfl, .inr rfl⟩)
      have value := value_comes prints v first rekeyed (.item true [] place.inner) (depth + 1)
        (unparseItems lib m depth expanded true vs ++ (lineBreak m expanded depth ++ (0x5D :: rest))) (ends_items ends')
      have later := fun v' => items_comes prints vs others rekeyed' [v'] place.inner depth expanded _ ends'
      rw [unparseItems, if_neg Bool.false_ne_true, List.nil_append, List.append_assoc, List.append_assoc, List.append_assoc,
        List.append_assoc, List.singleton_append, Option.map_map, rereadItems]
      refine Comes.of_eq (run_lineBreak (p := (Place.item true [] place.inner).expecting) (Place.alive _)) (value.bind fun v' _ => ?_)
      simpa only [Option.map_map, Function.comp_def, closes, Place.done_item, List.nil_append, List.singleton_append] using later v'
  | object entries =>
    cases entries with
    | nil => exact open_comes (.inr ⟨rfl, rfl, rfl⟩) (run_closing (.inr ⟨rfl, .inl rfl⟩))
    | cons e entries =>
      obtain ⟨k, v⟩ := e
      cases holds with
      | object size nodup _ keys all =>
      obtain ⟨new, nodup'⟩ := List.nodup_cons.mp nodup
      obtain ⟨first, others⟩ := List.forall_mem_cons.mp all
      obtain ⟨keyed, rekeyed, rekeyed'⟩ : Keyed (rereadKeys ((k, v) :: entries)) ∧ Rekeyed v ∧ RekeyedEntries entries := rekeyed
      rw [hardUnparse, reread, List.cons_append]
      refine open_comes (.inr ⟨rfl, rfl, rfl⟩) ?_
      generalize isExpanded m depth (.object ((k, v) :: entries)) = expanded
      have ends' : Ends (lineBreak m expanded depth ++ (0x7D :: rest)) := ends_close (.inr rfl)
      have closes : ∀ es, run lib true (afterEntry es place.inner) (lineBreak m expanded depth ++ (0x7D :: rest)) =
          run lib true (place.done (.object es)) rest := fun es => run_close (.inr ⟨rfl, .inr rfl⟩)
      have value := fun t => value_comes prints v first rekeyed (.slot [] t place.inner) (depth + 1)
        (unparseEntries lib m depth expanded true entries ++ (lineBreak m expanded depth ++ (0x7D :: rest))) (ends_entries ends')
      have later := fun t (reads : rereadString k = some t) v' => entries_comes prints entries others rekeyed' nodup' [(t, v')]
        (fresh_push [] reads new fun _ _ _ _ => List.not_mem_nil) (keyed_push [] reads keyed) place.inner depth expanded _ ends'
      rw [unparseEntries, if_neg Bool.false_ne_true, List.nil_append, List.append_assoc, List.append_assoc, List.append_assoc,
        List.append_assoc, List.append_assoc, List.append_assoc, List.singleton_append, Option.map_map, rereadEntries]
      refine Comes.of_eq (run_lineBreak (p := beforeKey true [] place.inner) Bool.false_ne_true) ?_
      refine (key_comes (fun _ _ => List.not_mem_nil) fun t reads => keyed_here [] reads keyed).bind fun t reads =>
        (value t).bind fun v' _ => ?_
      simpa only [Option.map_map, Function.comp_def, closes, Place.done_slot, List.nil_append, List.singleton_append]
        using later t reads v'

theorem items_comes (prints : lib.Prints) (vs : List Value) (holds : ∀ v ∈ vs, v.Holds) (rekeyed : RekeyedItems vs) (items : List Value)
    (stack : List Frame) (depth : Nat) (expanded : Bool) (w : Bytes) (ends : Ends w) :
    Comes (run lib true (afterItem items stack) (unparseItems lib m depth expanded true vs ++ w))
      ((rereadItems lib stack.length vs).map fun vs => run lib true (afterItem (items ++ vs) stack) w) := by
  cases vs with
  | nil =>
    show _ = run lib true (afterItem (items ++ []) stack) w
    rw [List.append_nil]
    rfl
  | cons v vs =>
    obtain ⟨first, others⟩ := List.forall_mem_cons.mp holds
    obtain ⟨rekeyed, rekeyed'⟩ : Rekeyed v ∧ RekeyedItems vs := rekeyed
    have value := value_comes prints v first rekeyed (.item false items stack) (depth + 1)
      (unparseItems lib m depth expanded true vs ++ w)
      (ends_items ends)
    have later := fun v' => items_comes prints vs others rekeyed' (items ++ [v']) stack depth expanded w ends
    rw [unparseItems, if_pos rfl, List.append_assoc, List.append_assoc, List.append_assoc, rereadItems]
    refine Comes.of_eq (run_comma_item.trans (run_lineBreak (Place.alive _))) (value.bind fun v' _ => ?_)
    simpa only [Option.map_map, Function.comp_def, Place.done_item, List.append_assoc, List.singleton_append] using later v'

theorem entries_comes (prints : lib.Prints) (es : List (Bytes × Value)) (holds : ∀ e ∈ es, e.2.Holds) (rekeyed : RekeyedEntries es)
    (nodup : (es.map (·.1)).Nodup) (entries : List (Bytes × Value))
    (fresh : ∀ e ∈ es, ∀ t, rereadString e.1 = some t → t ∉ entries.map (·.1))
    (keyed : Keyed (entries.map (·.1) ++ rereadKeys es)) (stack : List Frame) (depth : Nat) (expanded : Bool) (w : Bytes)
    (ends : Ends w) :
    Comes (run lib true (afterEntry entries stack) (unparseEntries lib m depth expanded true es ++ w))
      ((rereadEntries lib stack.length es).map fun es => run lib true (afterEntry (entries ++ es) stack) w) := by
  cases es with
  | nil =>
    show _ = run lib true (afterEntry (entries ++ []) stack) w
    rw [List.append_nil]
    rfl
  | cons e es =>
    obtain ⟨k, v⟩ := e
    obtain ⟨new, nodup'⟩ := List.nodup_cons.mp nodup
    obtain ⟨first, others⟩ := List.forall_mem_cons.mp holds
    obtain ⟨here, fresh'⟩ := List.forall_mem_cons.mp fresh
    obtain ⟨rekeyed, rekeyed'⟩ : Rekeyed v ∧ RekeyedEntries es := rekeyed
    have value := fun t => value_comes prints v first rekeyed (.slot entries t stack) (depth + 1)
      (unparseEntries lib m depth expanded true es ++ w) (ends_entries ends)
    have later := fun t (reads : rereadString k = some t) v' => entries_comes prints es others rekeyed' nodup' (entries ++ [(t, v')])
      (fresh_push entries reads new fresh') (keyed_push entries reads keyed) stack depth expanded w ends
    rw [unparseEntries, if_pos rfl, List.append_assoc, List.append_assoc, List.append_assoc, List.append_assoc, List.append_assoc,
      rereadEntries]
    refine Comes.of_eq (run_comma_entry.trans (run_lineBreak Bool.false_ne_true)) ?_
    refine (key_comes here fun t reads => keyed_here entries reads keyed).bind fun t reads => (value t).bind fun v' _ => ?_
    simpa only [Option.map_map, Function.comp_def, Place.done_slot, List.append_assoc, List.singleton_append] using later t reads v'

end

end

/-! ### What is legible -/

section

variable {lib : Libc}

theorem plain_eq_double {v : Value} {bits : Nat} : v.plain = .double bits ↔ v = .double bits := by
  cases v <;> simp [Value.plain]

theorem rereadDouble_number {t : NumberText} {bits : Nat} (text : lib.format bits = t.bytes) :
    rereadDouble lib bits = some (numberValue lib t.position t.bytes) := by
  rw [rereadDouble, text, t.consumeNumber_alone]

theorem rereadDouble_other {bits : Nat} (other : lib.format bits ∈ [ascii "inf", ascii "-inf", ascii "nan", ascii "-nan"]) :
    rereadDouble lib bits = none := by
  simp only [List.mem_cons, List.not_mem_nil, or_false] at other
  rcases other with same | same | same | same <;> rw [rereadDouble, same] <;> rfl

theorem double_legible (prints : lib.Prints) {bits : Nat} :
    (∃ v, rereadDouble lib bits = some v ∧ v.plain = .double bits) ↔ LegibleDouble lib bits := by
  simp only [plain_eq_double]
  rcases prints bits with ⟨t, text⟩ | other
  · rw [rereadDouble_number text, LegibleDouble, text, NumberText.floating_iff]
    by_cases floating : 4 ≤ t.position
    · rw [numberValue, if_neg (NumberText.several_of_floating floating), if_neg (Nat.not_lt.mpr floating)]
      simp [floating]
    · have integral : ∀ bits, numberValue lib t.position t.bytes ≠ .double bits := by
        intro bits
        rw [numberValue, if_pos (Nat.not_le.mp floating)]
        split_ifs <;> exact Value.noConfusion
      simp [floating, integral]
  · have plain : ¬∃ c ∈ lib.format bits, c = 0x2E ∨ c = 0x65 := by
      simp only [List.mem_cons, List.not_mem_nil, or_false] at other
      rcases other with same | same | same | same <;> rw [same] <;> decide
    refine iff_of_false ?_ fun legible => plain legible.1
    rw [rereadDouble_other other]
    simp

mutual

theorem legible_iff (prints : lib.Prints) (v : Value) (size inner : Nat) :
    (∃ v', reread lib size inner v = some v' ∧ v'.plain = v.plain) ↔ Legible lib size inner v := by
  cases v with
  | null | bool => simp [reread, Legible]
  | int x => simp [reread, Legible, plain_rereadInt, Value.plain]
  | unsigned x => simp [reread, Legible, plain_rereadInt, Value.plain]
  | double bits => exact double_legible prints
  | str s =>
    rw [Legible, ← rereadString_self]
    simp [reread, Value.plain]
  | array vs =>
    rw [Legible, ← legibleItems_iff prints vs inner, reread]
    by_cases full : size = maxDepth <;> simp [full, Value.plain]
  | object entries =>
    rw [Legible, ← legibleEntries_iff prints entries inner, reread]
    by_cases full : size = maxDepth <;> simp [full, Value.plain]

theorem legibleItems_iff (prints : lib.Prints) (vs : List Value) (size : Nat) :
    (∃ vs', rereadItems lib size vs = some vs' ∧ Value.plainItems vs' = Value.plainItems vs) ↔ LegibleItems lib size vs := by
  cases vs with
  | nil => simp [rereadItems, LegibleItems]
  | cons v vs =>
    rw [LegibleItems, ← legible_iff prints v, ← legibleItems_iff prints vs, rereadItems]
    constructor
    · rintro ⟨ws, reads, same⟩
      obtain ⟨v', first, reads⟩ := Option.bind_eq_some_iff.mp reads
      obtain ⟨vs', others, rfl⟩ := Option.map_eq_some_iff.mp reads
      rw [Value.plainItems, Value.plainItems] at same
      obtain ⟨head, tail⟩ := List.cons.inj same
      exact ⟨⟨v', first, head⟩, vs', others, tail⟩
    · rintro ⟨⟨v', first, head⟩, vs', others, tail⟩
      refine ⟨v' :: vs', by rw [first, Option.bind_some, others]; rfl, ?_⟩
      rw [Value.plainItems, Value.plainItems, head, tail]

theorem legibleEntries_iff (prints : lib.Prints) (entries : List (Bytes × Value)) (size : Nat) :
    (∃ es, rereadEntries lib size entries = some es ∧ Value.plainEntries es = Value.plainEntries entries) ↔
      LegibleEntries lib size entries := by
  cases entries with
  | nil => simp [rereadEntries, LegibleEntries]
  | cons e entries =>
    obtain ⟨k, v⟩ := e
    rw [LegibleEntries, ← rereadString_self, ← legible_iff prints v, ← legibleEntries_iff prints entries, rereadEntries]
    constructor
    · rintro ⟨es, reads, same⟩
      obtain ⟨t, key, reads⟩ := Option.bind_eq_some_iff.mp reads
      obtain ⟨v', first, reads⟩ := Option.bind_eq_some_iff.mp reads
      obtain ⟨es', others, rfl⟩ := Option.map_eq_some_iff.mp reads
      rw [Value.plainEntries, Value.plainEntries] at same
      obtain ⟨head, tail⟩ := List.cons.inj same
      obtain ⟨rfl, value⟩ := Prod.mk.inj head
      exact ⟨key, ⟨v', first, value⟩, es', others, tail⟩
    · rintro ⟨key, ⟨v', first, value⟩, es', others, tail⟩
      refine ⟨(k, v') :: es', by rw [key, Option.bind_some, first, Option.bind_some, others]; rfl, ?_⟩
      rw [Value.plainEntries, Value.plainEntries, value, tail]

end

end

/-! ### Texts -/

section

variable {lib : Libc} {m : Manipulator} {v : Value}

open JsonParser

theorem parse_unparse (prints : lib.Prints) (holds : v.Holds) (rekeyed : Rekeyed v) :
    parse lib (unparse lib m v) = .ok (reread lib 0 0 v) := by
  have final : ∀ rest, Ends rest → (rest = [] ∨ rest = [0x0A]) →
      parse lib (hardUnparse lib m 0 v ++ rest) = .ok (reread lib 0 0 v) := by
    intro rest ends ending
    have comes : Comes (run lib true Place.top.expecting (hardUnparse lib m 0 v ++ rest))
      ((reread lib 0 0 v).map fun v => run lib true (Place.top.done v) rest) := value_comes prints v holds rekeyed .top 0 rest ends
    have consumed : JsonParser.consume {} lib true (hardUnparse lib m 0 v ++ rest) =
      run lib true Place.top.expecting (hardUnparse lib m 0 v ++ rest) := rfl
    rw [parse, consumed]
    cases reads : reread lib 0 0 v with
    | none =>
      rw [reads] at comes
      obtain ⟨q, w, ran, failed⟩ := comes
      rw [ran]
      simp [Except.map, failed]
    | some v' =>
      rw [reads] at comes
      rw [comes.trans (run_stops (.inl rfl))]
      rcases ending with rfl | rfl <;> rfl
  rw [unparse]
  split_ifs
  · exact final [0x0A] (ends_cons (by decide)) (.inr rfl)
  · exact final [] (fun c none_ => by cases none_) (.inl rfl)

/-- A text that a string accumulator has space for comes out of `unparse`, with any manipulator, and the parser reads it without a fault.
It reads the value, with every integer as the same number, exactly if the value is legible. -/
theorem parse_unparse_iff (lib : Libc) (prints : lib.Prints) (m : Manipulator) (v : Value) (holds : v.Holds) (rekeyed : Rekeyed v)
    (short : (unparse lib m v).length + 2 ^ 20 ≤ 2 ^ 31) :
    StringAccum.Accumulates Msgpack.memory (unparse lib m v) ∧
      ∃ r, parse lib (unparse lib m v) = .ok r ∧ ((∃ v' ∈ r, v'.plain = v.plain) ↔ Legible lib 0 0 v) :=
  ⟨StringAccum.accumulates_of_new (fun _ => rfl) (by decide) short, _, parse_unparse prints holds rekeyed, legible_iff prints v 0 0⟩

/-- `%.12g` and `strtod` of one half. -/
def halves : Libc where
  format bits := if bits = 0x3FE0000000000000 then ascii "0.5" else ascii "0"
  strtod _ := 0x3FE0000000000000

theorem halves_prints : halves.Prints := by
  intro bits
  by_cases half : bits = 0x3FE0000000000000
  · exact .inl ⟨⟨false, [0x30], [0x2E, 0x35], [], .zero, .point rfl (List.forall_mem_nil _), .none⟩, if_pos half⟩
  · exact .inl ⟨⟨false, [0x30], [], [], .zero, .none, .none⟩, if_neg half⟩

theorem parse_unparse_iff_half :
    StringAccum.Accumulates Msgpack.memory
        (unparse halves ⟨1, 2, true, true⟩ (.array [.double 0x3FE0000000000000, .object [([0xC3, 0xA9], .int (-7))]])) ∧
      ∃ r, parse halves
            (unparse halves ⟨1, 2, true, true⟩ (.array [.double 0x3FE0000000000000, .object [([0xC3, 0xA9], .int (-7))]])) = .ok r ∧
        ((∃ v' ∈ r, v'.plain = (Value.array [.double 0x3FE0000000000000, .object [([0xC3, 0xA9], .int (-7))]]).plain) ↔
          Legible halves 0 0 (.array [.double 0x3FE0000000000000, .object [([0xC3, 0xA9], .int (-7))]])) := by
  have reads : rereadString [0xC3, 0xA9] = some [0xC3, 0xA9] := by
    refine rereadString_self.mpr ⟨[Char.ofNat 0xE9], by decide, fun ch mem => ?_⟩
    obtain rfl := List.mem_singleton.mp mem
    decide
  refine parse_unparse_iff halves halves_prints _ _ ?_ ?_ (by decide)
  · apply Value.Holds.array (by decide)
    intro v mem
    rcases List.mem_pair.mp mem with rfl | rfl
    · exact .double (by decide)
    · refine .object (by decide) (by decide) (by decide) (by decide) fun e mem => ?_
      obtain rfl := List.mem_singleton.mp mem
      exact .int (by decide)
  · refine ⟨trivial, ⟨?_, trivial, trivial⟩, trivial⟩
    have keys : rereadKeys [([0xC3, 0xA9], .int (-7))] = [[0xC3, 0xA9]] := List.filterMap_cons_some reads
    rw [keys]
    decide

end

end Masstree.JsonText
