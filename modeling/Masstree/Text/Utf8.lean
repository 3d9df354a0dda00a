import Masstree.Lib.Steps
import Masstree.Lib.Utf8
import Masstree.Text.StringAccum

/-!
# UTF-8 output

`String::skip_utf8_char` accepts the characters in UTF-8, NUL apart. `append_utf8` takes two bytes for every character below U+8000,
also from U+0800 on, where UTF-8 takes three.
-/

namespace Masstree

open Msgpack (Bytes)
open String (utf8EncodeChar)
open Utf8

/-- `s[i]`, read only below `end`. -/
def charAt (s : Bytes) (i : Nat) : Nat := (s.getD i 0).toNat

/-- How many bytes it skips; `*s` is read, so a string that is empty is `none`. -/
def skipUtf8Char (s : Bytes) : Option Nat :=
  if s = [] then none
  else if 0 < charAt s 0 ∧ charAt s 0 < 0x80 then some 1
  else if charAt s 0 < 0xC2 then some 0
  else if charAt s 0 < 0xE0 then
    if 1 < s.length ∧ 0x80 ≤ charAt s 1 ∧ charAt s 1 < 0xC0 then some 2 else some 0
  else if charAt s 0 < 0xF0 then
    if 2 < s.length ∧ (0x80 ≤ charAt s 1 ∧ charAt s 1 < 0xC0) ∧ (0x80 ≤ charAt s 2 ∧ charAt s 2 < 0xC0) ∧
        (charAt s 0 ≠ 0xE0 ∨ 0xA0 ≤ charAt s 1) ∧ (charAt s 0 ≠ 0xED ∨ charAt s 1 < 0xA0) then some 3 else some 0
  else if charAt s 0 < 0xF5 then
    if 3 < s.length ∧ (0x80 ≤ charAt s 1 ∧ charAt s 1 < 0xC0) ∧ (0x80 ≤ charAt s 2 ∧ charAt s 2 < 0xC0) ∧
        (0x80 ≤ charAt s 3 ∧ charAt s 3 < 0xC0) ∧
        (charAt s 0 ≠ 0xF0 ∨ 0x90 ≤ charAt s 1) ∧ (charAt s 0 ≠ 0xF4 ∨ charAt s 1 < 0x90) then some 4 else some 0
  else some 0

/-! ### The validator -/

variable {c : Char} {s bs rest : Bytes} {n : Nat}

theorem skipUtf8Char_wellFormed (wf : WellFormed bs) (visible : bs ≠ [0]) : skipUtf8Char (bs ++ rest) = some bs.length := by
  cases wf with
  | @one a lt =>
    have pos : a.toNat ≠ 0 := fun zero => visible (by rw [UInt8.toNat_inj.mp (zero.trans UInt8.toNat_zero.symm)])
    have first : charAt ([a] ++ rest) 0 = a.toNat := rfl
    rw [skipUtf8Char, if_neg (by simp), if_pos (by omega)]
    rfl
  | @two a b ge lt tail =>
    obtain ⟨low, high⟩ := tail
    have first : charAt ([a, b] ++ rest) 0 = a.toNat := rfl
    have second : charAt ([a, b] ++ rest) 1 = b.toNat := rfl
    have long : 1 < ([a, b] ++ rest).length := by simp
    rw [skipUtf8Char, if_neg (by simp), if_neg (by omega), if_neg (by omega), if_pos (by omega), if_pos (by omega)]
    rfl
  | @three a b d ge lt tail tail' above valid =>
    obtain ⟨low, high⟩ := tail
    obtain ⟨low', high'⟩ := tail'
    have first : charAt ([a, b, d] ++ rest) 0 = a.toNat := rfl
    have second : charAt ([a, b, d] ++ rest) 1 = b.toNat := rfl
    have third : charAt ([a, b, d] ++ rest) 2 = d.toNat := rfl
    have long : 2 < ([a, b, d] ++ rest).length := by simp
    rw [skipUtf8Char, if_neg (by simp), if_neg (by omega), if_neg (by omega), if_neg (by omega), if_pos (by omega),
      if_pos (by omega)]
    rfl
  | @four a b d e ge lt tail tail' tail'' above valid =>
    obtain ⟨low, high⟩ := tail
    obtain ⟨low', high'⟩ := tail'
    obtain ⟨low'', high''⟩ := tail''
    have first : charAt ([a, b, d, e] ++ rest) 0 = a.toNat := rfl
    have second : charAt ([a, b, d, e] ++ rest) 1 = b.toNat := rfl
    have third : charAt ([a, b, d, e] ++ rest) 2 = d.toNat := rfl
    have fourth : charAt ([a, b, d, e] ++ rest) 3 = e.toNat := rfl
    have long : 3 < ([a, b, d, e] ++ rest).length := by simp
    rw [skipUtf8Char, if_neg (by simp), if_neg (by omega), if_neg (by omega), if_neg (by omega), if_neg (by omega),
      if_pos (by omega), if_pos (by omega)]
    rfl

theorem wellFormed_skipUtf8Char (skips : skipUtf8Char s = some n) (moves : n ≠ 0) :
    ∃ bs rest, s = bs ++ rest ∧ WellFormed bs ∧ bs ≠ [0] ∧ bs.length = n := by
  revert skips
  fun_cases skipUtf8Char s with
  | case1 => exact nofun
  | case2 empty one =>
    rintro ⟨⟩
    obtain ⟨a, rest, rfl⟩ := List.exists_cons_of_ne_nil empty
    refine ⟨[a], rest, rfl, .one one.2, ?_, rfl⟩
    intro zero
    rw [List.cons.inj zero |>.1] at one
    exact absurd one.1 (Nat.lt_irrefl 0)
  | case4 _ _ low two tails =>
    rintro ⟨⟩
    obtain ⟨long, tail⟩ := tails
    obtain _ | ⟨a, _ | ⟨b, rest⟩⟩ := s
    · simp at long
    · simp at long
    · exact ⟨[a, b], rest, rfl, .two (Nat.not_lt.mp low) two tail, by simp, rfl⟩
  | case6 _ _ _ two three tails =>
    rintro ⟨⟩
    obtain ⟨long, tail, tail', above, valid⟩ := tails
    obtain _ | ⟨a, _ | ⟨b, _ | ⟨d, rest⟩⟩⟩ := s
    · simp at long
    · simp at long
    · simp at long
    · refine ⟨[a, b, d], rest, rfl, .three (Nat.not_lt.mp two) three tail tail' ?_ ?_, by simp, rfl⟩
      · exact fun first => above.resolve_left (not_not_intro first)
      · exact fun first => valid.resolve_left (not_not_intro first)
  | case8 _ _ _ _ three four tails =>
    rintro ⟨⟩
    obtain ⟨long, tail, tail', tail'', above, valid⟩ := tails
    obtain _ | ⟨a, _ | ⟨b, _ | ⟨d, _ | ⟨e, rest⟩⟩⟩⟩ := s
    · simp at long
    · simp at long
    · simp at long
    · simp at long
    · refine ⟨[a, b, d, e], rest, rfl, .four (Nat.not_lt.mp three) four tail tail' tail'' ?_ ?_, by simp, rfl⟩
      · exact fun first => above.resolve_left (not_not_intro first)
      · exact fun first => valid.resolve_left (not_not_intro first)
  | _ =>
    rintro ⟨⟩
    exact absurd rfl moves

theorem encode_ne_zero (visible : c.toNat ≠ 0) : utf8EncodeChar c ≠ [0] := by
  intro zero
  rw [encode_inj (zero.trans (encode_one (c := Char.ofNat 0) (by decide)).symm)] at visible
  exact visible rfl

/-- `skip_utf8_char` moves over the UTF-8 of a character other than NUL, and over nothing else. -/
theorem skipUtf8Char_iff (moves : n ≠ 0) : skipUtf8Char s = some n ↔
    ∃ c rest, s = utf8EncodeChar c ++ rest ∧ c.toNat ≠ 0 ∧ (utf8EncodeChar c).length = n := by
  constructor
  · intro skips
    obtain ⟨bs, rest, rfl, wf, visible, length⟩ := wellFormed_skipUtf8Char skips moves
    obtain ⟨c, rfl⟩ := wf.exists_encode
    refine ⟨c, rest, rfl, fun zero => visible ?_, length⟩
    rw [encode_one (by omega), zero]
    rfl
  · rintro ⟨c, rest, rfl, visible, rfl⟩
    exact skipUtf8Char_wellFormed (encode_wellFormed c) (encode_ne_zero visible)

namespace StringAccum

/-! ### Bytes in numbers -/

variable {ch x : Int32} {k : Nat}

def word (x : Int32) : Nat := x.toBitVec.toNat

theorem word_and : word (x &&& 0x3F) = word x % 64 := by
  rw [word, Int32.toBitVec_and, BitVec.toNat_and]
  exact Nat.and_two_pow_sub_one_eq_mod _ 6

theorem toNat_char : (char x).toNat = word x % 256 := by
  show (x.toBitVec.signExtend 8).toNat = _
  rw [BitVec.signExtend_eq_setWidth_of_le _ (by decide), BitVec.toNat_setWidth, word]

theorem msb_false (number : ch.toInt = n) : ch.toBitVec.msb = false := by
  rw [BitVec.msb_eq_toInt, Int32.toInt_toBitVec, number]
  exact decide_eq_false (by omega)

theorem word_eq (number : ch.toInt = n) : word ch = n := by
  rw [← Int32.toInt_toBitVec, BitVec.toInt_eq_toNat_of_msb (msb_false number)] at number
  exact_mod_cast number

theorem word_shiftRight (number : ch.toInt = n) {s : Int32} (amount : (s.toBitVec.smod 32).toNat = k) :
    word (ch >>> s) = n / 2 ^ k := by
  rw [← word_eq number, word, Int32.toBitVec_shiftRight, BitVec.sshiftRight', amount,
    BitVec.toNat_sshiftRight_of_msb_false (msb_false number), Nat.shiftRight_eq_div_pow, word]

/-- The bits of `high` lie above the numbers below `k`. -/
theorem char_or {high : Int32} (marks : ∀ m < 256, word high % 256 ||| m = m % k + word high % 256) (divides : k ∣ 256) :
    char (high ||| x) = UInt8.ofNat (word x % k + word high % 256) := by
  apply eq_ofNat
  calc (char (high ||| x)).toNat = (word high ||| word x) % 2 ^ 8 := by
        rw [toNat_char, word, Int32.toBitVec_or, BitVec.toNat_or, word, word]
    _ = word high % 256 ||| word x % 256 := Nat.or_mod_two_pow
    _ = word x % k + word high % 256 := by rw [marks _ (Nat.mod_lt _ (by decide)), Nat.mod_mod_of_dvd _ divides]

set_option maxRecDepth 8000 in
theorem leads_or : (∀ m < 256, word 0x80 % 256 ||| m = m % 128 + word 0x80 % 256) ∧
    (∀ m < 256, word 0xC0 % 256 ||| m = m % 64 + word 0xC0 % 256) ∧
    (∀ m < 256, word 0xE0 % 256 ||| m = m % 32 + word 0xE0 % 256) ∧
    ∀ m < 256, word 0xF0 % 256 ||| m = m % 16 + word 0xF0 % 256 := by
  decide

theorem char_tail : char ((0x80 : Int32) ||| (x &&& 0x3F)) = UInt8.ofNat (word x % 64 + 0x80) := by
  have low : word x % 64 % 128 = word x % 64 := Nat.mod_eq_of_lt (by omega)
  rw [char_or leads_or.1 (by decide), word_and, low]
  rfl

theorem char_two : char ((0xC0 : Int32) ||| x) = UInt8.ofNat (word x % 64 + 0xC0) := char_or leads_or.2.1 (by decide)
theorem char_three : char ((0xE0 : Int32) ||| x) = UInt8.ofNat (word x % 32 + 0xE0) := char_or leads_or.2.2.1 (by decide)
theorem char_four : char ((0xF0 : Int32) ||| x) = UInt8.ofNat (word x % 16 + 0xF0) := char_or leads_or.2.2.2 (by decide)

/-! ### Characters -/

/-- The character of the number `ch`, unless it is 0, U+FFFE or U+FFFF. -/
def character? (ch : Int32) : Option Char :=
  (some (Char.ofNat ch.toInt.toNat)).filter fun c =>
    (c.toNat : Int) = ch.toInt ∧ c.toNat ≠ 0 ∧ c.toNat ≠ 0xFFFE ∧ c.toNat ≠ 0xFFFF

theorem character?_eq_some :
    character? ch = some c ↔ (c.toNat : Int) = ch.toInt ∧ c.toNat ≠ 0 ∧ c.toNat ≠ 0xFFFE ∧ c.toNat ≠ 0xFFFF := by
  rw [character?, Option.filter_eq_some_iff, Option.some.injEq, decide_eq_true_eq]
  refine and_iff_right_of_imp fun valid => ?_
  rw [← valid.1, Int.toNat_natCast, Char.ofNat_toNat]

theorem character?_eq_none (none_ : character? ch = none) :
    ch.toInt ≤ 0 ∨ ch.toInt = 0xFFFE ∨ ch.toInt = 0xFFFF ∨ 0xD800 ≤ ch.toInt ∧ ch.toInt < 0xE000 ∨ 0x110000 ≤ ch.toInt := by
  by_contra valid
  obtain ⟨c, number⟩ := exists_char (n := ch.toInt.toNat) (by omega)
  have found : character? ch = some c := character?_eq_some.mpr (by omega)
  rw [found] at none_
  cases none_

/-- U+0800 to U+7FFF, which need three bytes. -/
def Narrowed (c : Char) : Prop := 0x800 ≤ c.toNat ∧ c.toNat < 0x8000

theorem written_none (none_ : character? ch = none) : written ch = none := by
  have cases_ := character?_eq_none none_
  simp only [written, Int32.lt_iff_toInt_lt, Int32.le_iff_toInt_le, Int32.reduceToInt]
  split_ifs <;> first | rfl | omega

theorem written_narrowed (found : character? ch = some c) (narrowed : Narrowed c) :
    written ch = some [UInt8.ofNat (c.toNat / 64 % 64 + 0xC0), UInt8.ofNat (c.toNat % 64 + 0x80)] := by
  obtain ⟨number, valid⟩ := character?_eq_some.mp found
  obtain ⟨low, high⟩ := narrowed
  have all : word ch = c.toNat := word_eq number.symm
  have six : word (ch >>> 6) = c.toNat / 64 := word_shiftRight (k := 6) number.symm (by decide)
  simp only [written, Int32.lt_iff_toInt_lt, Int32.le_iff_toInt_le, Int32.reduceToInt, ← number]
  rw [if_neg (by omega), if_neg (by omega), if_pos (by omega), char_two, char_tail, six, all]

/-- Its two bytes are the UTF-8 of another character or of none. -/
theorem narrowed_misread (found : character? ch = some c) (narrowed : Narrowed c) :
    ∃ bs, written ch = some bs ∧ ((∃ d : Char, d ≠ c ∧ bs = utf8EncodeChar d) ∨ skipUtf8Char bs = some 0) := by
  refine ⟨_, written_narrowed found narrowed, ?_⟩
  obtain ⟨low, high⟩ := narrowed
  by_cases other : 0x80 ≤ c.toNat % 4096 ∧ c.toNat % 4096 < 0x800
  · obtain ⟨d, number⟩ := exists_char (n := c.toNat % 4096) (by omega)
    have first : c.toNat / 64 % 64 = d.toNat / 64 := by omega
    have second : c.toNat % 64 = d.toNat % 64 := by omega
    refine .inl ⟨d, ?_, ?_⟩
    · rintro rfl
      omega
    · rw [encode_two (by omega) (by omega), first, second]
  · right
    generalize lead : UInt8.ofNat (c.toNat / 64 % 64 + 0xC0) = x
    generalize UInt8.ofNat (c.toNat % 64 + 0x80) = y
    have number : x.toNat = c.toNat / 64 % 64 + 0xC0 := by rw [← lead, toNat_ofNat (by omega)]
    have first : charAt [x, y] 0 = x.toNat := rfl
    have length : [x, y].length = 2 := rfl
    fun_cases skipUtf8Char [x, y] with
    | case1 empty => cases empty
    | _ => first | rfl | omega

theorem written_encode (found : character? ch = some c) (not : ¬Narrowed c) : written ch = some (utf8EncodeChar c) := by
  obtain ⟨number, valid⟩ := character?_eq_some.mp found
  have scalar_ := scalar c
  unfold Narrowed at not
  have all : word ch = c.toNat := word_eq number.symm
  have six : word (ch >>> 6) = c.toNat / 64 := word_shiftRight (k := 6) number.symm (by decide)
  have twelve : word (ch >>> 12) = c.toNat / 4096 := word_shiftRight (k := 12) number.symm (by decide)
  have eighteen : word (ch >>> 18) = c.toNat / 262144 := word_shiftRight (k := 18) number.symm (by decide)
  simp only [written, Int32.lt_iff_toInt_lt, Int32.le_iff_toInt_le, Int32.reduceToInt, ← number]
  rcases Nat.lt_or_ge c.toNat 0x80 with lt | ge
  · have one : char ch = UInt8.ofNat c.toNat := eq_ofNat (by rw [toNat_char, all, Nat.mod_eq_of_lt (by omega)])
    rw [if_neg (by omega), if_pos (by omega), encode_one lt, one]
  rw [if_neg (by omega), if_neg (by omega)]
  rcases Nat.lt_or_ge c.toNat 0x800 with lt | ge'
  · rw [if_pos (by omega), encode_two ge lt, char_two, char_tail, six, all, Nat.mod_eq_of_lt (by omega)]
  rw [if_neg (by omega)]
  rcases Nat.lt_or_ge c.toNat 0x10000 with lt | ge''
  · rw [if_pos (by omega), if_neg (by omega), encode_three ge' lt, char_three, char_tail, char_tail, twelve, six, all,
      Nat.mod_eq_of_lt (a := c.toNat / 4096) (by omega)]
  · rw [if_neg (by omega), if_pos (by omega), encode_four ge'', char_four, char_tail, char_tail, char_tail, eighteen, twelve, six,
      all, Nat.mod_eq_of_lt (a := c.toNat / 262144) (by omega)]

/-! ### Calls -/

variable {a : Allocator} {r r' : StringAccum}

/-- The result is right whatever is written. -/
theorem appendUtf8_ok {ok : Bool} (called : appendUtf8 a r ch = some (ok, r')) : ok = (character? ch).isSome := by
  cases found : character? ch with
  | none =>
    rw [appendUtf8_refuses (written_none found)] at called
    exact (Prod.mk.inj (Option.some.inj called)).1.symm
  | some c =>
    obtain ⟨bs, writes⟩ : ∃ bs, written ch = some bs := by
      by_cases narrowed : Narrowed c
      · exact ⟨_, written_narrowed found narrowed⟩
      · exact ⟨_, written_encode found narrowed⟩
    exact (appended_of_writes writes called).1

/-- A call appends the UTF-8 of its character and says so, or leaves the accumulator and says so. -/
def Correct (a : Allocator) (r : StringAccum) (ch : Int32) : Prop :=
  ∃ ok r', appendUtf8 a r ch = some (ok, r') ∧
    match character? ch with
    | none => ok = false ∧ r' = r
    | some c => ok = true ∧ r'.s = r.s ++ utf8EncodeChar c ∧
        (∀ rest, skipUtf8Char (utf8EncodeChar c ++ rest) = some (utf8EncodeChar c).length) ∧
        (utf8EncodeChar c).toByteArray.utf8Decode? = some #[c]

/-- A character to append is none that takes two bytes instead of three, and there is memory for it. -/
def Fits (a : Allocator) (r : StringAccum) (ch : Int32) : Prop :=
  ∀ c, character? ch = some c → ¬Narrowed c ∧ Room a c.utf8Size r.len r.cap

theorem correct_iff : Correct a r ch ↔ Fits a r ch := by
  unfold Correct Fits
  cases found : character? ch with
  | none =>
    refine iff_of_true ⟨false, r, appendUtf8_refuses (written_none found), rfl, rfl⟩ ?_
    exact fun c some_ => nomatch some_
  | some c =>
    simp only [Option.some.injEq, forall_eq']
    by_cases narrowed : Narrowed c
    · refine iff_of_false ?_ fun fits => fits.1 narrowed
      rintro ⟨ok, r', called, -, same, -⟩
      have short := appendAll_length_le (appended_of_writes (written_narrowed found narrowed) called).2
      rw [same, encode_three narrowed.1 (by have := narrowed.2; omega)] at short
      simp at short
    · have writes := written_encode found narrowed
      rw [and_iff_right narrowed, ← String.length_utf8EncodeChar, ← appendAll_iff]
      constructor
      · rintro ⟨ok, r', called, -, same, -⟩
        exact ⟨r', (appended_of_writes writes called).2, same⟩
      · rintro ⟨r', all, same⟩
        have visible := encode_ne_zero (character?_eq_some.mp found).2.1
        refine ⟨true, r', by rw [appendUtf8_writes writes, all, Option.bind_some], rfl, same, fun rest => ?_, decode_char c⟩
        exact skipUtf8Char_wellFormed (encode_wellFormed c) visible

/-! ### Runs -/

variable {chs : List Int32}

def step (a : Allocator) (r : StringAccum) (ch : Int32) : Option StringAccum := (appendUtf8 a r ch).map Prod.snd

/-- Every call is correct, and what they append is UTF-8 for the characters taken. -/
def Sound (a : Allocator) (r : StringAccum) (chs : List Int32) : Prop :=
  Steps.Each (step a) (Correct a) r chs ∧
    ∃ r' text, Steps.run (step a) r chs = some r' ∧ r'.s = r.s ++ text ∧
      text.toByteArray.utf8Decode? = some (chs.filterMap character?).toArray

theorem Correct.step_text (correct : Correct a r ch) :
    ∃ r' bs, step a r ch = some r' ∧ r'.s = r.s ++ bs ∧ bs.toByteArray.utf8Decode? = some (character? ch).toList.toArray ∧
      bs.length ≤ 4 ∧ (0 ≤ r.cap → 0 ≤ r'.cap) := by
  obtain ⟨ok, r', called, result⟩ := correct
  have stepped : step a r ch = some r' := by rw [step, called, Option.map_some]
  cases found : character? ch with
  | none =>
    rw [found] at result
    obtain rfl := result.2
    exact ⟨r', [], stepped, (List.append_nil _).symm, decode_iff.mpr rfl, Nat.zero_le _, id⟩
  | some c =>
    rw [found] at result
    obtain ⟨-, same, -, decoded⟩ := result
    refine ⟨r', _, stepped, same, decoded, by simp [Char.utf8Size_le_four], fun _ => Int.not_lt.mp fun lost => ?_⟩
    rw [nil_of_lost lost] at same
    simp at same

theorem run_text (each : Steps.Each (step a) (Correct a) r chs) :
    ∃ r' text, Steps.run (step a) r chs = some r' ∧ r'.s = r.s ++ text ∧
      text.toByteArray.utf8Decode? = some (chs.filterMap character?).toArray := by
  induction chs generalizing r with
  | nil => exact ⟨r, [], rfl, (List.append_nil _).symm, decode_iff.mpr rfl⟩
  | cons ch chs ih =>
    obtain ⟨correct, rest⟩ := each
    obtain ⟨r₁, bs, stepped, same, decoded, -⟩ := correct.step_text
    obtain ⟨r', text, ran, same', decoded'⟩ := ih (rest r₁ stepped)
    refine ⟨r', bs ++ text, by rw [Steps.run_cons stepped, ran], by rw [same', same, List.append_assoc], ?_⟩
    rw [decode_append decoded decoded']
    cases found : character? ch <;> simp [found]

/-- `append_utf8` writes UTF-8 as long as it is given no character from U+0800 to U+7FFF and has memory for the others. -/
theorem utf8_iff (a : Allocator) (r : StringAccum) (chs : List Int32) : Sound a r chs ↔ Steps.Each (step a) (Fits a) r chs := by
  have same : Steps.Each (step a) (Correct a) r chs ↔ Steps.Each (step a) (Fits a) r chs :=
    @Steps.each_congr _ _ _ _ _ (fun _ => True) (fun _ _ _ => correct_iff) (fun _ _ _ _ _ _ => trivial) _ trivial chs
  rw [← same]
  exact and_iff_left_of_imp run_text

/-- With memory the characters alone decide. -/
theorem fits_iff_of_new (new : ∀ n, a.new n = true) (small : a.memoSpace ≤ 2 ^ 20) (nonneg : 0 ≤ r.cap)
    (short : r.len + 4 * chs.length ≤ 2 ^ 30) :
    Steps.Each (step a) (Fits a) r chs ↔ ∀ ch ∈ chs, ∀ c, character? ch = some c → ¬Narrowed c := by
  induction chs generalizing r with
  | nil => simp [Steps.Each]
  | cons ch chs ih =>
    rw [List.length_cons, Nat.cast_succ] at short
    have room : ∀ c : Char, Room a c.utf8Size r.len r.cap := fun c =>
      room_of_new new small nonneg (len_le nonneg) (by have := c.utf8Size_le_four; omega)
    have here : Fits a r ch ↔ ∀ c, character? ch = some c → ¬Narrowed c :=
      forall₂_congr fun c _ => and_iff_left (room c)
    rw [Steps.Each, List.forall_mem_cons, here]
    refine and_congr_right fun plain => ?_
    obtain ⟨r₁, bs, stepped, same, -, four, cap⟩ := (correct_iff.mpr (here.mpr plain)).step_text
    have length : r₁.len = r.len + bs.length := by simp [len, same]
    have rest := ih (r := r₁) (cap nonneg) (by omega)
    rw [← rest]
    refine ⟨fun each => each r₁ stepped, fun each next stepped' => ?_⟩
    rwa [← Option.some.inj (stepped.symm.trans stepped')]

/-- `new` never fails, and a `String` has a header of 12 bytes. -/
def ample : Allocator := ⟨fun _ => true, 12⟩

/-- U+0800 as the two bytes `E0 80`, the start of a longer character. -/
theorem u0800_truncated :
    (appendUtf8 ample empty 0x800).map (fun result => (result.1, result.2.s)) = some (true, [0xE0, 0x80]) ∧
      skipUtf8Char [0xE0, 0x80] = some 0 ∧ ¬Sound ample empty [0x800] := by
  refine ⟨by decide, by decide, fun sound => ?_⟩
  have fits := correct_iff.mp sound.1.1
  have found : character? 0x800 = some (Char.ofNat 0x800) := character?_eq_some.mpr (by decide)
  exact (fits _ found).1 ⟨by decide, by decide⟩

end StringAccum

end Masstree
