import Masstree.Msgpack.RoundTrip
import Masstree.Text.JsonStrings

/-!
# Numbers in JSON text

What `consume_number` makes of the text of a number: an integer from 0 on is unsigned, with more than one digit.
-/

namespace Masstree.JsonText

open Msgpack (Bytes Value signed decimal)

variable {s rest : Bytes} {c : UInt8} {p : Nat}

/-! ### Texts -/

/-- What follows is no part of a number. -/
def Ends (rest : Bytes) : Prop := ∀ c ∈ rest.head?, ¬isDigit c ∧ c ≠ 0x2E ∧ c ≠ 0x65 ∧ c ≠ 0x45

inductive IntegerText : Bytes → Prop
  | zero : IntegerText [0x30]
  | digits {c : UInt8} {s : Bytes} : inRange c 0x31 0x3A → (∀ d ∈ s, isDigit d) → IntegerText (c :: s)

inductive FractionText : Bytes → Prop
  | none : FractionText []
  | point {c : UInt8} {s : Bytes} : isDigit c → (∀ d ∈ s, isDigit d) → FractionText (0x2E :: c :: s)

inductive ExponentText : Bytes → Prop
  | none : ExponentText []
  | exponent {sign c : UInt8} {s : Bytes} : sign = 0x2B ∨ sign = 0x2D → isDigit c → (∀ d ∈ s, isDigit d) →
      ExponentText (0x65 :: sign :: c :: s)

structure NumberText where
  negative : Bool
  integer : Bytes
  fraction : Bytes
  exponent : Bytes
  isInteger : IntegerText integer
  isFraction : FractionText fraction
  isExponent : ExponentText exponent

namespace NumberText

variable (t : NumberText)

def bytes : Bytes := (if t.negative then [0x2D] else []) ++ (t.integer ++ (t.fraction ++ t.exponent))

def position : Nat :=
  if t.exponent ≠ [] then 9 else if t.fraction ≠ [] then 5 else if t.integer = [0x30] then 3 else 1

end NumberText

/-! ### The scanner -/

theorem dropWhile_digits (all : ∀ d ∈ s, isDigit d) (stops : ∀ c ∈ rest.head?, ¬isDigit c) : (s ++ rest).dropWhile isDigit = rest := by
  rw [List.dropWhile_append_of_pos all]
  cases rest with
  | nil => rfl
  | cons c rest => exact List.dropWhile_cons_of_neg (stops c rfl)

theorem maybeExponent_ends (ends : Ends rest) : maybeExponent p rest = (p, rest) := by
  cases rest with
  | nil => rfl
  | cons c rest =>
    obtain ⟨_, _, small, capital⟩ := ends c rfl
    exact if_neg (not_or.mpr ⟨small, capital⟩)

theorem maybeExponent_exponent (exponent : ExponentText s) (ends : Ends rest) :
    maybeExponent p (s ++ rest) = (if s ≠ [] then 9 else p, rest) := by
  cases exponent with
  | none => exact maybeExponent_ends ends
  | @exponent sign c s signs digit all =>
    have scanned : scanExponentDigits 8 (c :: (s ++ rest)) = (9, rest) := by
      rw [scanExponentDigits, if_pos digit, dropWhile_digits all fun c first => (ends c first).1]
    show scanExponentDigits 8 (if sign = 0x2B ∨ sign = 0x2D then c :: (s ++ rest) else sign :: c :: (s ++ rest)) = _
    rw [if_pos signs, scanned]
    rfl

theorem exponent_head (exponent : ExponentText s) (ends : Ends rest) : ∀ c ∈ (s ++ rest).head?, ¬isDigit c ∧ c ≠ 0x2E := by
  cases exponent with
  | none => exact fun c first => ⟨(ends c first).1, (ends c first).2.1⟩
  | exponent =>
    rintro c ⟨⟩
    decide

theorem scanPoint_fraction {f e : Bytes} (fraction : FractionText f) (exponent : ExponentText e) (ends : Ends rest) :
    scanPoint p (f ++ (e ++ rest)) = (if e ≠ [] then 9 else if f ≠ [] then 5 else p, rest) := by
  have next := exponent_head exponent ends
  cases fraction with
  | none =>
    have scanned : scanPoint p (e ++ rest) = maybeExponent p (e ++ rest) := by
      cases text : e ++ rest with
      | nil => rfl
      | cons c w =>
        rw [text] at next
        exact if_neg (next c rfl).2
    rw [List.nil_append, scanned, maybeExponent_exponent exponent ends]
    rfl
  | @point c s digit all =>
    have scanned : scanDecimal (c :: (s ++ (e ++ rest))) = maybeExponent 5 (e ++ rest) := by
      rw [scanDecimal, if_pos digit, scanDecimals, dropWhile_digits all fun c first => (next c first).1]
    show scanDecimal (c :: (s ++ (e ++ rest))) = _
    rw [scanned, maybeExponent_exponent exponent ends]
    rfl

theorem scanInteger_number {i f e : Bytes} (integer : IntegerText i) (fraction : FractionText f) (exponent : ExponentText e)
    (ends : Ends rest) : scanInteger (i ++ (f ++ (e ++ rest))) =
      (if e ≠ [] then 9 else if f ≠ [] then 5 else if i = [0x30] then 3 else 1, rest) := by
  cases integer with
  | zero => exact scanPoint_fraction fraction exponent ends
  | @digits c s first all =>
    have nonzero : c ≠ 0x30 := by
      rintro rfl
      exact absurd first (by decide)
    have other : c :: s ≠ [0x30] := fun same => nonzero (List.cons.inj same).1
    have stops : ∀ c ∈ (f ++ (e ++ rest)).head?, ¬isDigit c := by
      cases fraction with
      | none => exact fun c first => (exponent_head exponent ends c first).1
      | point =>
        rintro c ⟨⟩
        decide
    show scanInteger (c :: (s ++ (f ++ (e ++ rest)))) = _
    rw [scanInteger, if_neg nonzero, if_pos first, dropWhile_digits all stops, scanPoint_fraction fraction exponent ends, if_neg other]

theorem IntegerText.first (integer : IntegerText s) : ∃ c w, s = c :: w ∧ isDigit c := by
  cases integer with
  | zero => exact ⟨_, _, rfl, rfl⟩
  | digits first =>
    refine ⟨_, _, rfl, ?_⟩
    rw [inRange_iff] at first
    exact inRange_iff.mpr ⟨by omega, first.2⟩

namespace NumberText

variable (t : NumberText) (lib : Libc)

theorem bytes_cons : ∃ c w, t.bytes = c :: w ∧ (c = 0x2D ∨ isDigit c) := by
  obtain ⟨c, w, first, digit⟩ := t.isInteger.first
  unfold bytes
  cases t.negative with
  | true => exact ⟨0x2D, _, rfl, .inl rfl⟩
  | false =>
    rw [first]
    exact ⟨c, _, rfl, .inr digit⟩

variable {t}

theorem scanNumber_bytes (ends : Ends rest) : scanNumber 0 (t.bytes ++ rest) = (t.position, rest) := by
  have scanned := scanInteger_number t.isInteger t.isFraction t.isExponent ends
  obtain ⟨c, w, first, digit⟩ := t.isInteger.first
  unfold bytes
  cases t.negative with
  | true =>
    rw [if_pos rfl, List.append_assoc, List.append_assoc, List.append_assoc]
    exact scanned
  | false =>
    have minus : c ≠ 0x2D := by
      rintro rfl
      exact absurd digit (by decide)
    rw [first] at scanned
    rw [if_neg Bool.false_ne_true, List.nil_append, List.append_assoc, List.append_assoc, first]
    show scanInteger (if c = 0x2D then _ else _) = _
    rw [if_neg minus, position, first]
    exact scanned

theorem odd_position : ¬t.position % 2 = 0 := by
  unfold position
  split_ifs <;> decide

theorem consumeNumber_bytes (ends : Ends rest) :
    consumeNumber lib true 0 [] (t.bytes ++ rest) = .value (numberValue lib t.position t.bytes) rest := by
  have text : (t.bytes ++ rest).take ((t.bytes ++ rest).length - rest.length) = t.bytes := by
    rw [List.length_append, Nat.add_sub_cancel, List.take_left]
  unfold consumeNumber
  rw [scanNumber_bytes ends]
  simp only [text]
  rw [if_pos (.inr trivial), if_neg odd_position]
  rfl

theorem consumeNumber_alone : consumeNumber lib true 0 [] t.bytes = .value (numberValue lib t.position t.bytes) [] := by
  have ends : Ends [] := fun c none_ => by cases none_
  have read := consumeNumber_bytes (t := t) lib ends
  rwa [List.append_nil] at read

end NumberText

theorem IntegerText.all (integer : IntegerText s) : ∀ d ∈ s, isDigit d := by
  cases integer with
  | zero => exact List.forall_mem_singleton.mpr rfl
  | digits first all =>
    rw [inRange_iff] at first
    exact List.forall_mem_cons.mpr ⟨inRange_iff.mpr ⟨by omega, first.2⟩, all⟩

namespace NumberText

variable {t : NumberText}

theorem four_le_position : 4 ≤ t.position ↔ t.fraction ≠ [] ∨ t.exponent ≠ [] := by
  unfold position
  split_ifs <;> simp_all

/-- The numbers that the parser takes for doubles. -/
theorem floating_iff : (∃ c ∈ t.bytes, c = 0x2E ∨ c = 0x65) ↔ 4 ≤ t.position := by
  have integral : ∀ c ∈ (if t.negative then [0x2D] else []) ++ t.integer, ¬(c = 0x2E ∨ c = 0x65) := by
    refine List.forall_mem_append.mpr ⟨fun c mem => ?_, fun c mem => ?_⟩
    · split_ifs at mem
      · obtain rfl := List.mem_singleton.mp mem
        decide
      · cases mem
    · have digit := t.isInteger.all c mem
      rintro (rfl | rfl) <;> exact absurd digit (by decide)
  rw [four_le_position, bytes, ← List.append_assoc]
  constructor
  · rintro ⟨c, mem, floats⟩
    rcases List.mem_append.mp mem with mem | mem
    · exact absurd floats (integral c mem)
    · rcases List.mem_append.mp mem with mem | mem
      · exact .inl (List.ne_nil_of_mem mem)
      · exact .inr (List.ne_nil_of_mem mem)
  · have fraction := t.isFraction
    have exponent := t.isExponent
    rintro (some_ | some_)
    · cases text : t.fraction with
      | nil => exact absurd text some_
      | cons c w =>
        rw [text] at fraction
        cases fraction
        exact ⟨0x2E, by simp, .inl rfl⟩
    · cases text : t.exponent with
      | nil => exact absurd text some_
      | cons c w =>
        rw [text] at exponent
        cases exponent
        exact ⟨0x65, by simp, .inr rfl⟩

theorem several_of_floating (floating : 4 ≤ t.position) : t.bytes.length ≠ 1 := by
  obtain ⟨c, w, first, _⟩ := t.isInteger.first
  have more := four_le_position.mp floating
  rw [← List.length_pos_iff, ← List.length_pos_iff] at more
  unfold bytes
  rw [List.length_append, List.length_append, List.length_append, first, List.length_cons]
  omega

end NumberText

/-! ### Integers -/

def digitsOf (n : Nat) : Bytes := (Nat.toDigits 10 n).map fun c => UInt8.ofNat c.toNat

variable {n : Nat}

theorem digitChar_byte (lt : n < 10) : UInt8.ofNat n.digitChar.toNat = UInt8.ofNat (0x30 + n) := by
  rw [Nat.toNat_digitChar_of_lt_ten lt]

theorem digitsOf_one (lt : n < 10) : digitsOf n = [UInt8.ofNat (0x30 + n)] := by
  rw [digitsOf, Nat.toDigits_of_lt_base lt, List.map_singleton, digitChar_byte lt]

theorem digitsOf_more (ge : 10 ≤ n) : digitsOf n = digitsOf (n / 10) ++ [UInt8.ofNat (0x30 + n % 10)] := by
  rw [digitsOf, Nat.toDigits_of_base_le (by decide) ge, List.map_append, List.map_singleton,
    digitChar_byte (Nat.mod_lt _ (by decide))]
  rfl

theorem toNat_digit (lt : n < 10) : (UInt8.ofNat (0x30 + n)).toNat = 0x30 + n := Utf8.toNat_ofNat (by omega)

theorem isDigit_digit (lt : n < 10) : isDigit (UInt8.ofNat (0x30 + n)) := by
  rw [isDigit, inRange_iff, toNat_digit lt]
  omega

theorem digitsOf_pos (pos : 0 < n) : ∃ c s, digitsOf n = c :: s ∧ inRange c 0x31 0x3A ∧ ∀ d ∈ s, isDigit d := by
  induction n using Nat.strong_induction_on with
  | _ n ih =>
    rcases Nat.lt_or_ge n 10 with lt | ge
    · refine ⟨_, [], digitsOf_one lt, ?_, List.forall_mem_nil _⟩
      rw [inRange_iff, toNat_digit lt]
      omega
    · obtain ⟨c, s, digits, first, all⟩ := ih (n / 10) (by omega) (by omega)
      refine ⟨c, s ++ [UInt8.ofNat (0x30 + n % 10)], by rw [digitsOf_more ge, digits]; rfl, first, ?_⟩
      rw [List.forall_mem_append, List.forall_mem_singleton]
      exact ⟨all, isDigit_digit (Nat.mod_lt _ (by decide))⟩

theorem integerText_digitsOf (n : Nat) : IntegerText (digitsOf n) := by
  rcases Nat.eq_zero_or_pos n with rfl | pos
  · exact .zero
  · obtain ⟨c, s, digits, first, all⟩ := digitsOf_pos pos
    rw [digits]
    exact .digits first all

theorem digitsValue_push : digitsValue (s ++ [c]) = (digitsValue s * 10 + (c.toNat - 0x30)) % 2 ^ 64 := by
  rw [digitsValue, List.foldl_append]
  rfl

theorem digitsValue_digitsOf (n : Nat) : digitsValue (digitsOf n) = n % 2 ^ 64 := by
  induction n using Nat.strong_induction_on with
  | _ n ih =>
    rcases Nat.lt_or_ge n 10 with lt | ge
    · rw [digitsOf_one lt, ← List.nil_append [_], digitsValue_push, toNat_digit lt]
      simp [digitsValue]
    · rw [digitsOf_more ge, digitsValue_push, ih (n / 10) (by omega), toNat_digit (Nat.mod_lt _ (by decide))]
      omega

theorem digitsOf_length (n : Nat) : (digitsOf n).length = 1 ↔ n < 10 := by
  rcases Nat.lt_or_ge n 10 with lt | ge
  · rw [digitsOf_one lt]
    exact iff_of_true rfl lt
  · obtain ⟨c, s, digits, _⟩ := digitsOf_pos (n := n / 10) (by omega)
    rw [digitsOf_more ge, digits]
    simp
    omega

/-- How an integer comes back. -/
def rereadInt (x : Int) : Value := if 10 ≤ x then .unsigned x.toNat else .int x

theorem plain_rereadInt (x : Int) : (rereadInt x).plain = .int x := by
  unfold rereadInt
  split_ifs with large
  · rw [Value.plain, Int.toNat_of_nonneg (by omega)]
  · rfl

def NumberText.ofInt (x : Int) : NumberText where
  negative := x < 0
  integer := digitsOf x.natAbs
  fraction := []
  exponent := []
  isInteger := integerText_digitsOf x.natAbs
  isFraction := .none
  isExponent := .none

theorem decimal_neg {x : Int} (negative : x < 0) : decimal x = 0x2D :: digitsOf x.natAbs := if_pos negative

theorem decimal_nonneg {x : Int} (nonneg : ¬x < 0) : decimal x = digitsOf x.natAbs := if_neg nonneg

theorem NumberText.bytes_ofInt (x : Int) : (NumberText.ofInt x).bytes = decimal x := by
  unfold bytes ofInt
  simp only [List.append_nil]
  by_cases negative : x < 0
  · rw [decimal_neg negative, decide_eq_true negative]
    rfl
  · rw [decimal_nonneg negative, decide_eq_false negative]
    rfl

theorem NumberText.position_ofInt (x : Int) : (NumberText.ofInt x).position < 4 := by
  unfold position ofInt
  simp only [ne_eq, not_true, if_false]
  split_ifs <;> decide

theorem signed_neg (small : n ≤ 2 ^ 63) : signed 8 ((2 ^ 64 - n % 2 ^ 64) % 2 ^ 64) = -(n : Int) := by
  unfold signed
  split_ifs with low <;> omega

theorem numberValue_decimal {lib : Libc} {x : Int} (range : -2 ^ 63 ≤ x ∧ x < 2 ^ 64) :
    numberValue lib (NumberText.ofInt x).position (decimal x) = rereadInt x := by
  have integral := NumberText.position_ofInt x
  by_cases negative : x < 0
  · have several : (0x2D :: digitsOf x.natAbs).length ≠ 1 := by
      obtain ⟨c, w, digits, _⟩ := (integerText_digitsOf x.natAbs).first
      simp [digits]
    rw [decimal_neg negative, numberValue, if_neg several, if_pos integral, List.head?_cons, if_pos rfl, List.tail_cons,
      digitsValue_digitsOf, signed_neg (by omega), rereadInt, if_neg (by omega)]
    congr 1
    omega
  have first : (digitsOf x.natAbs).head? ≠ some 0x2D := by
    obtain ⟨c, w, digits, digit⟩ := (integerText_digitsOf x.natAbs).first
    rw [digits]
    rintro ⟨⟩
    exact absurd digit (by decide)
  rw [decimal_nonneg negative, numberValue, rereadInt]
  rcases Nat.lt_or_ge x.natAbs 10 with one | more
  · rw [if_pos ((digitsOf_length _).mpr one), if_neg (by omega), digitsOf_one one, List.getD_cons_zero, toNat_digit one]
    congr 1
    omega
  · rw [if_neg (mt (digitsOf_length _).mp (by omega)), if_pos integral, if_neg first, if_pos (by omega), digitsValue_digitsOf,
      Nat.mod_eq_of_lt (by omega)]
    congr 1
    omega

theorem consumeNumber_decimal (lib : Libc) {x : Int} (range : -2 ^ 63 ≤ x ∧ x < 2 ^ 64) (ends : Ends rest) :
    consumeNumber lib true 0 [] (decimal x ++ rest) = .value (rereadInt x) rest := by
  rw [← NumberText.bytes_ofInt, NumberText.consumeNumber_bytes lib ends, NumberText.bytes_ofInt, numberValue_decimal range]

end Masstree.JsonText
