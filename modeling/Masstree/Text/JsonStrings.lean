import Mathlib.Tactic.IntervalCases
import Masstree.Lib.Partial
import Masstree.Text.JsonParser
import Masstree.Text.Utf8

/-!
# Strings in JSON text

What `consume_string` makes of what `encode_json` wrote.
-/

namespace Masstree.JsonText

open Msgpack (Bytes Fault)
open String (utf8EncodeChar)
open Utf8

variable {sa s t rest r : Bytes} {a b c : UInt8} {ch : Char} {fuel fuel' : Nat}

/-! ### Rounds -/

theorem finishEscape_done {x skip : Nat} (done : finishEscape sa rest x skip = .done t r) : r = rest.drop (skip + 1) := by
  unfold finishEscape at done
  split at done
  · exact (Escape.done.inj done).2.symm
  · cases done

theorem consumeSurrogate_done {x : Nat} {w : Bytes} (done : consumeSurrogate sa rest x w = .done t r) : r = rest.drop 12 := by
  revert done
  fun_cases consumeSurrogate sa rest x w with
  | case7 => exact finishEscape_done
  | _ => rintro ⟨⟩

/-- An escape takes the backslash and another byte at least. -/
theorem consumeBackslash_done (done : consumeBackslash sa (c :: s) = .done t r) : r <:+ s := by
  have dropped : ∀ n, List.drop (n + 1) (c :: s) <:+ s := fun n => List.drop_suffix n s
  unfold consumeBackslash at done
  split at done
  · cases done
  · split at done
    · rw [finishEscape_done done]
      exact dropped _
    · split at done
      · cases done
      · cases done
      · split at done
        · split at done
          · cases done
          · rw [consumeSurrogate_done done]
            exact dropped _
        · rw [finishEscape_done done]
          exact dropped _

theorem stringLoop_enough (enough : s.length < fuel) (enough' : s.length < fuel') : stringLoop fuel sa s = stringLoop fuel' sa s := by
  induction fuel generalizing fuel' sa s with
  | zero => exact absurd enough (Nat.not_lt_zero _)
  | succ fuel ih =>
    obtain ⟨fuel', rfl⟩ := Nat.exists_eq_add_one.mpr (Nat.zero_lt_of_lt enough')
    cases s with
    | nil => rfl
    | cons c s =>
      have inside := Nat.lt_of_succ_lt_succ enough
      have inside' := Nat.lt_of_succ_lt_succ enough'
      have shorter : ∀ {sa r}, r.length ≤ s.length → stringLoop fuel sa r = stringLoop fuel' sa r := fun short =>
        ih (Nat.lt_of_le_of_lt short inside) (Nat.lt_of_le_of_lt short inside')
      rw [stringLoop, stringLoop, shorter (Nat.le_refl _), shorter (List.drop_sublist ..).length_le]
      cases escape : consumeBackslash sa (c :: s) with
      | done t r => simp only [shorter (consumeBackslash_done escape).length_le]
      | _ => rfl

theorem stringRun_eq (enough : s.length < fuel) : stringLoop fuel sa s = stringRun sa s :=
  stringLoop_enough enough (Nat.lt_succ_self _)

/-! ### Characters -/

theorem stringRun_plain (visible : inRange c 0x20 0x80) (plain : c ≠ 0x5C ∧ c ≠ 0x22) :
    stringRun sa (c :: s) = stringRun (sa ++ [c]) s :=
  if_pos ⟨visible, plain⟩

theorem stringRun_escape (done : consumeBackslash sa (0x5C :: s) = .done t r) : stringRun sa (0x5C :: s) = stringRun t r := by
  rw [stringRun, stringLoop, if_neg (by decide), if_pos rfl, done]
  exact stringRun_eq (Nat.lt_succ_of_le (consumeBackslash_done done).length_le)

theorem stringRun_refuses (bad : consumeBackslash sa (0x5C :: s) = .bad r) : stringRun sa (0x5C :: s) = .ok (.bad r) := by
  rw [stringRun, stringLoop, if_neg (by decide), if_pos rfl, bad]

theorem stringRun_quote : stringRun sa (0x22 :: s) = .ok (.closed sa s) := rfl

def Escaped (n : Nat) : Prop := n < 0x20 ∨ n = 0x22 ∨ n = 0x2F ∨ n = 0x5C

instance (n : Nat) : Decidable (Escaped n) := inferInstanceAs (Decidable (_ ∨ _))

theorem escape_reads {n : Nat} (escaped : Escaped n) (visible : n ≠ 0) :
    stringRun sa (escape n ++ s) = stringRun (sa ++ [UInt8.ofNat n]) s := by
  have reads : consumeBackslash sa (escape n ++ s) = .done (sa ++ [UInt8.ofNat n]) s := by
    rcases escaped with control | rfl | rfl | rfl
    · interval_cases n
      · exact absurd rfl visible
      all_goals rfl
    all_goals rfl
  exact stringRun_escape reads

/-! ### Characters of several bytes -/

@[simp]
theorem inRange_iff {low high : Nat} : inRange c low high = true ↔ low ≤ c.toNat ∧ c.toNat < high := by
  simp [inRange]

theorem isExcluded_iff : isExcluded a b = true ↔ a.toNat = 0xE0 ∧ b.toNat < 0xA0 ∨ a.toNat = 0xED ∧ 0xA0 ≤ b.toNat ∨
    a.toNat = 0xF0 ∧ b.toNat < 0x90 ∨ a.toNat = 0xF4 ∧ 0x90 ≤ b.toNat := by
  simp [isExcluded, ← UInt8.toNat_inj, UInt8.lt_iff_toNat_lt, UInt8.le_iff_toNat_le, or_assoc]

theorem want_eq : want c = 2 + (if 0xE0 ≤ c.toNat then 1 else 0) + if 0xF0 ≤ c.toNat then 1 else 0 := by
  simp [want, UInt8.le_iff_toNat_le]

theorem stringRun_lead (lead : inRange c 0xC2 0xF5) (inside : s ≠ []) : stringRun sa (c :: s) =
    if ¬inRange (s.getD 0 0) 0x80 0xC0 ∨ isExcluded c (s.getD 0 0) then .ok (.bad s)
    else if 2 ≤ s.length ∧ 3 ≤ want c ∧ ¬inRange (s.getD 1 0) 0x80 0xC0 then .ok (.bad (s.drop 1))
    else if 3 ≤ s.length ∧ 4 ≤ want c ∧ ¬inRange (s.getD 2 0) 0x80 0xC0 then .ok (.bad (s.drop 2))
    else if s.length + 1 < want c then .ok (.partly (s.length + 1) (sa ++ c :: s))
    else stringRun (sa ++ c :: s.take (want c - 1)) (s.drop (want c - 1)) := by
  have high := inRange_iff.mp lead
  have plain : ¬(inRange c 0x20 0x80 ∧ c ≠ 0x5C ∧ c ≠ 0x22) := fun plain => by
    have low := inRange_iff.mp plain.1
    omega
  have slash : c ≠ 0x5C := by
    rintro rfl
    exact absurd high (by decide)
  have quote : c ≠ 0x22 := by
    rintro rfl
    exact absurd high (by decide)
  have enough : (s.drop (want c - 1)).length < (c :: s).length := Nat.lt_succ_of_le (List.drop_sublist ..).length_le
  rw [stringRun, stringLoop, if_neg plain, if_neg slash, if_neg quote, if_neg (not_not_intro lead),
    if_neg fun outside => inside outside.1, stringRun_eq enough]
  simp only [ne_eq, inside, not_false_eq_true, true_and]

theorem isExcluded_eq_false (long : a.toNat = 0xE0 → 0xA0 ≤ b.toNat) (valid : a.toNat = 0xED → b.toNat < 0xA0)
    (long' : a.toNat = 0xF0 → 0x90 ≤ b.toNat) (valid' : a.toNat = 0xF4 → b.toNat < 0x90) : ¬isExcluded a b := by
  rw [isExcluded_iff]
  omega

theorem stringRun_char (wf : WellFormed t) (high : 1 < t.length) : stringRun sa (t ++ s) = stringRun (sa ++ t) s := by
  cases wf with
  | one lt => exact absurd high (Nat.lt_irrefl 1)
  | @two a b ge lt tail =>
    have size : want a = 2 := by rw [want_eq, if_neg (by omega), if_neg (by omega)]
    have lead : inRange a 0xC2 0xF5 := inRange_iff.mpr ⟨ge, by omega⟩
    have allowed : ¬isExcluded a b := isExcluded_eq_false (by omega) (by omega) (by omega) (by omega)
    have second : ¬(¬inRange b 0x80 0xC0 ∨ isExcluded a b) := not_or.mpr ⟨not_not_intro (inRange_iff.mpr tail), allowed⟩
    rw [List.cons_append, stringRun_lead lead (by simp)]
    simp only [List.cons_append, List.nil_append, List.getD_cons_zero, List.getD_cons_succ]
    rw [if_neg second, if_neg (by omega), if_neg (by omega), if_neg (by simp; omega), size]
    rfl
  | @three a b d ge lt tail tail' long valid =>
    have size : want a = 3 := by rw [want_eq, if_pos ge, if_neg (by omega)]
    have lead : inRange a 0xC2 0xF5 := inRange_iff.mpr ⟨by omega, by omega⟩
    have allowed : ¬isExcluded a b := isExcluded_eq_false long valid (by omega) (by omega)
    have second : ¬(¬inRange b 0x80 0xC0 ∨ isExcluded a b) := not_or.mpr ⟨not_not_intro (inRange_iff.mpr tail), allowed⟩
    have third : ¬¬inRange d 0x80 0xC0 := not_not_intro (inRange_iff.mpr tail')
    rw [List.cons_append, stringRun_lead lead (by simp)]
    simp only [List.cons_append, List.nil_append, List.getD_cons_zero, List.getD_cons_succ]
    rw [if_neg second, if_neg fun bad => third bad.2.2, if_neg (by omega),
      if_neg (by simp; omega), size]
    rfl
  | @four a b d e ge lt tail tail' tail'' long valid =>
    have size : want a = 4 := by rw [want_eq, if_pos (by omega), if_pos ge]
    have lead : inRange a 0xC2 0xF5 := inRange_iff.mpr ⟨by omega, lt⟩
    have allowed : ¬isExcluded a b := isExcluded_eq_false (by omega) (by omega) long valid
    have second : ¬(¬inRange b 0x80 0xC0 ∨ isExcluded a b) := not_or.mpr ⟨not_not_intro (inRange_iff.mpr tail), allowed⟩
    have third : ¬¬inRange d 0x80 0xC0 := not_not_intro (inRange_iff.mpr tail')
    have fourth : ¬¬inRange e 0x80 0xC0 := not_not_intro (inRange_iff.mpr tail'')
    rw [List.cons_append, stringRun_lead lead (by simp)]
    simp only [List.cons_append, List.nil_append, List.getD_cons_zero, List.getD_cons_succ]
    rw [if_neg second, if_neg fun bad => third bad.2.2,
      if_neg fun bad => fourth bad.2.2, if_neg (by simp; omega), size]
    rfl

/-! ### What is written -/

theorem separator_of_or (marks : c ||| 1 = 0xA9) : c = 0xA8 ∨ c = 0xA9 := by
  have half : c.toNat / 2 = 84 := by
    have halves := congrArg (fun c : UInt8 => c.toNat / 2) marks
    simpa [Nat.or_div_two] using halves
  rw [← UInt8.toNat_inj, ← UInt8.toNat_inj]
  show c.toNat = 168 ∨ c.toNat = 169
  omega

theorem escape_separator (marks : c = 0xA8 ∨ c = 0xA9) :
    escape (0x2000 + c.toNat - 0x80) = [0x5C, 0x75, 0x32, 0x30, 0x32, c - 0x70] := by
  rcases marks with rfl | rfl <;> decide

theorem encodeJson_separator (marks : c = 0xA8 ∨ c = 0xA9) :
    encodeJson (0xE2 :: 0x80 :: c :: s) = escape (0x2000 + c.toNat - 0x80) ++ encodeJson s := by
  have third : c ||| 1 = 0xA9 := by rcases marks with rfl | rfl <;> decide
  have number : 0x2028 + (c &&& 1).toNat = 0x2000 + c.toNat - 0x80 := by rcases marks with rfl | rfl <;> decide
  rw [encodeJson, encodeFrom, if_pos ⟨rfl, by simp, rfl, third⟩, ← number]
  rfl

theorem encodeJson_high (high : 0x80 ≤ a.toNat)
    (other : ¬(a = 0xE2 ∧ 2 ≤ s.length ∧ s.getD 0 0 = 0x80 ∧ s.getD 1 0 ||| 1 = 0xA9)) : encodeJson (a :: s) = a :: encodeJson s := by
  have plain : 32 ≤ a ∧ a ≠ 0x5C ∧ a ≠ 0x22 ∧ a ≠ 0x2F := by
    simp only [ne_eq, ← UInt8.toNat_inj, UInt8.le_iff_toNat_le]
    simp
    omega
  rw [encodeJson, encodeFrom, if_neg other, if_pos plain]
  rfl

theorem encodeJson_tail (tail : Tail a) : encodeJson (a :: s) = a :: encodeJson s := by
  refine encodeJson_high tail.1 fun separates => ?_
  obtain ⟨rfl, _⟩ := separates
  exact absurd tail.2 (by decide)

theorem encodeJson_low (low : a.toNat < 0x80) :
    encodeJson (a :: s) = if Escaped a.toNat then escape a.toNat ++ encodeJson s else a :: encodeJson s := by
  have plain : (32 ≤ a ∧ a ≠ 0x5C ∧ a ≠ 0x22 ∧ a ≠ 0x2F) ↔ ¬Escaped a.toNat := by
    simp only [ne_eq, ← UInt8.toNat_inj, UInt8.le_iff_toNat_le, Escaped]
    simp
    omega
  rw [encodeJson, encodeFrom, if_neg]
  · simp only [plain]
    exact ite_not ..
  · rintro ⟨rfl, _⟩
    exact absurd low (by decide)

theorem encodeJson_char (wf : WellFormed t) (several : 1 < t.length) (other : t ≠ [0xE2, 0x80, 0xA8] ∧ t ≠ [0xE2, 0x80, 0xA9]) :
    encodeJson (t ++ s) = t ++ encodeJson s := by
  cases wf with
  | one lt => exact absurd several (Nat.lt_irrefl 1)
  | @two a b ge lt tail =>
    rw [List.cons_append, List.cons_append, encodeJson_high (by omega), encodeJson_tail tail]
    · rfl
    · rintro ⟨rfl, _⟩
      exact absurd lt (by decide)
  | @three a b d ge lt tail tail' =>
    rw [List.cons_append, List.cons_append, List.cons_append, encodeJson_high (by omega), encodeJson_tail tail, encodeJson_tail tail']
    · rfl
    · rintro ⟨rfl, _, second, third⟩
      obtain rfl : b = 0x80 := second
      rcases separator_of_or third with rfl | rfl
      · exact other.1 rfl
      · exact other.2 rfl
  | @four a b d e ge lt tail tail' tail'' =>
    rw [List.cons_append, List.cons_append, List.cons_append, List.cons_append, encodeJson_high (by omega), encodeJson_tail tail,
      encodeJson_tail tail', encodeJson_tail tail'']
    · rfl
    · rintro ⟨rfl, _⟩
      exact absurd ge (by decide)

/-! ### Characters -/

/-- What a character reads back as: `append_utf8` refuses NUL, and has two bytes for a separator. -/
def rereadChar (ch : Char) : Option Bytes :=
  if ch.toNat = 0 then none
  else if ch.toNat = 0x2028 ∨ ch.toNat = 0x2029 then some [0xC0, UInt8.ofNat (ch.toNat - 0x2000 + 0x80)]
  else some (utf8EncodeChar ch)

theorem separator_reads (marks : c = 0xA8 ∨ c = 0xA9) :
    stringRun sa (escape (0x2000 + c.toNat - 0x80) ++ s) = stringRun (sa ++ [0xC0, c]) s := by
  have reads : consumeBackslash sa (escape (0x2000 + c.toNat - 0x80) ++ s) = .done (sa ++ [0xC0, c]) s := by
    have written : StringAccum.written 0x2028 = some [0xC0, 0xA8] ∧ StringAccum.written 0x2029 = some [0xC0, 0xA9] := by decide
    rw [escape_separator marks]
    rcases marks with rfl | rfl
    · simp [consumeBackslash, readHex, hexDigit, isDigit, inRange, finishEscape, written]
    · simp [consumeBackslash, readHex, hexDigit, isDigit, inRange, finishEscape, written]
  exact stringRun_escape reads

theorem nul_refused : stringRun sa (escape 0 ++ s) = .ok (.bad (0x30 :: s)) := by
  have refuses : consumeBackslash sa (escape 0 ++ s) = .bad (0x30 :: s) := rfl
  exact stringRun_refuses refuses

theorem encode_separator (separates : ch.toNat = 0x2028 ∨ ch.toNat = 0x2029) :
    utf8EncodeChar ch = [0xE2, 0x80, UInt8.ofNat (ch.toNat - 0x2000 + 0x80)] := by
  rw [encode_three (by omega) (by omega)]
  rcases separates with number | number <;> rw [number] <;> decide

theorem encode_ne_separator (other : ¬(ch.toNat = 0x2028 ∨ ch.toNat = 0x2029)) :
    utf8EncodeChar ch ≠ [0xE2, 0x80, 0xA8] ∧ utf8EncodeChar ch ≠ [0xE2, 0x80, 0xA9] := by
  constructor
  · intro same
    obtain rfl : ch = Char.ofNat 0x2028 := encode_inj same
    exact other (.inl rfl)
  · intro same
    obtain rfl : ch = Char.ofNat 0x2029 := encode_inj same
    exact other (.inr rfl)

theorem encode_several (high : 0x80 ≤ ch.toNat) : 1 < (utf8EncodeChar ch).length := by
  rcases Nat.lt_or_ge ch.toNat 0x800 with lt | ge
  · rw [encode_two high lt]
    simp
  rcases Nat.lt_or_ge ch.toNat 0x10000 with lt | ge'
  · rw [encode_three ge lt]
    simp
  · rw [encode_four ge']
    simp

theorem char_reads (reads : rereadChar ch = some t) :
    stringRun sa (encodeJson (utf8EncodeChar ch ++ s) ++ rest) = stringRun (sa ++ t) (encodeJson s ++ rest) := by
  unfold rereadChar at reads
  split_ifs at reads with nul separates
  · -- a separator, which `encode_json` escapes
    obtain rfl := Option.some.inj reads
    have third : UInt8.ofNat (ch.toNat - 0x2000 + 0x80) = 0xA8 ∨ UInt8.ofNat (ch.toNat - 0x2000 + 0x80) = 0xA9 := by
      rcases separates with number | number <;> rw [number] <;> decide
    rw [encode_separator separates, List.cons_append, List.cons_append, List.cons_append, List.nil_append, encodeJson_separator third,
      List.append_assoc, separator_reads third]
  obtain rfl := Option.some.inj reads
  rcases Nat.lt_or_ge ch.toNat 0x80 with low | high
  · have number : (UInt8.ofNat ch.toNat).toNat = ch.toNat := toNat_ofNat (by omega)
    rw [encode_one low, List.cons_append, List.nil_append, encodeJson_low (number.trans_lt low), number]
    split_ifs with escaped
    · rw [List.append_assoc, escape_reads escaped nul]
    · have visible : inRange (UInt8.ofNat ch.toNat) 0x20 0x80 := by
        rw [inRange_iff, number]
        unfold Escaped at escaped
        omega
      have plain : UInt8.ofNat ch.toNat ≠ 0x5C ∧ UInt8.ofNat ch.toNat ≠ 0x22 := by
        rw [ne_eq, ne_eq, ← UInt8.toNat_inj, ← UInt8.toNat_inj, number]
        exact ⟨fun slash => escaped (.inr (.inr (.inr slash))), fun quote => escaped (.inr (.inl quote))⟩
      exact stringRun_plain visible plain
  · have several := encode_several high
    rw [encodeJson_char (encode_wellFormed ch) several (encode_ne_separator separates), List.append_assoc,
      stringRun_char (encode_wellFormed ch) several]

theorem char_refused (refused : rereadChar ch = none) :
    ∃ r, stringRun sa (encodeJson (utf8EncodeChar ch ++ s) ++ rest) = .ok (.bad r) := by
  unfold rereadChar at refused
  split_ifs at refused with nul
  rw [encode_one (by omega), nul, List.cons_append, encodeJson_low (by decide), if_pos (by decide), List.append_assoc]
  exact ⟨_, nul_refused⟩

/-! ### What is no text -/

/-- No character comes next. -/
def Broken (s : Bytes) : Prop := s ≠ [] ∧ ∀ ch t, s ≠ utf8EncodeChar ch ++ t

theorem Broken.no_char (broken : Broken s) (wf : WellFormed t) : s ≠ t ++ r := by
  obtain ⟨ch, rfl⟩ := wf.exists_encode
  exact broken.2 ch r

theorem stringRun_stray (high : 0x80 ≤ c.toNat) (stray : ¬inRange c 0xC2 0xF5) : stringRun sa (c :: s) = .ok (.bad (c :: s)) := by
  have plain : ¬(inRange c 0x20 0x80 ∧ c ≠ 0x5C ∧ c ≠ 0x22) := fun plain => by
    have low := inRange_iff.mp plain.1
    omega
  have slash : c ≠ 0x5C := by
    rintro rfl
    exact absurd high (by decide)
  have quote : c ≠ 0x22 := by
    rintro rfl
    exact absurd high (by decide)
  rw [stringRun, stringLoop, if_neg plain, if_neg slash, if_neg quote, if_pos stray]

theorem text_cons (s rest : Bytes) : ∃ b t, encodeJson s ++ 0x22 :: rest = b :: t :=
  List.exists_cons_of_ne_nil (List.append_ne_nil_of_right_ne_nil _ (List.cons_ne_nil _ _))

/-- A tail byte in the text is one of the string. -/
theorem tail_of_text (tail : Tail b) (text : encodeJson s ++ 0x22 :: rest = b :: t) :
    ∃ s', s = b :: s' ∧ t = encodeJson s' ++ 0x22 :: rest := by
  obtain ⟨low, high⟩ := tail
  have slash : ∀ {n w}, escape n ++ w ≠ b :: t := fun same => by
    obtain ⟨rfl, _⟩ := List.cons.inj same
    exact absurd low (by decide)
  cases s with
  | nil =>
    obtain ⟨rfl, _⟩ := List.cons.inj text
    exact absurd low (by decide)
  | cons a s =>
    by_cases ascii : a.toNat < 0x80
    · rw [encodeJson_low ascii] at text
      split_ifs at text with escaped
      · rw [List.append_assoc] at text
        exact absurd text slash
      · obtain ⟨rfl, _⟩ := List.cons.inj text
        omega
    by_cases separates : a = 0xE2 ∧ 2 ≤ s.length ∧ s.getD 0 0 = 0x80 ∧ s.getD 1 0 ||| 1 = 0xA9
    · rw [encodeJson, encodeFrom, if_pos separates, List.append_assoc] at text
      exact absurd text slash
    · rw [encodeJson_high (Nat.not_lt.mp ascii) separates] at text
      obtain ⟨rfl, rfl⟩ := List.cons.inj text
      exact ⟨s, rfl, rfl⟩

/-- The bytes that the loop passes over as one character are one in the string. -/
theorem char_of_tails (range : 0xC2 ≤ a.toNat ∧ a.toNat < 0xF5) (text : encodeJson s ++ 0x22 :: rest = b :: t) (tail : Tail b)
    (allowed : ¬isExcluded a b) (third : 2 ≤ (b :: t).length → 3 ≤ want a → inRange (t.getD 0 0) 0x80 0xC0)
    (fourth : 3 ≤ (b :: t).length → 4 ≤ want a → inRange (t.getD 1 0) 0x80 0xC0) :
    ∃ bs r, WellFormed bs ∧ a :: s = bs ++ r := by
  rw [isExcluded_iff] at allowed
  rw [want_eq] at third fourth
  obtain ⟨s, rfl, rfl⟩ := tail_of_text tail text
  rcases Nat.lt_or_ge a.toNat 0xE0 with two | ge
  · exact ⟨[a, b], s, .two range.1 two tail, rfl⟩
  obtain ⟨d, t, text⟩ := text_cons s rest
  rw [text] at third fourth
  rw [if_pos ge] at third fourth
  have tail' : Tail d := inRange_iff.mp (third (by simp) (by omega))
  obtain ⟨s, rfl, rfl⟩ := tail_of_text tail' text
  rcases Nat.lt_or_ge a.toNat 0xF0 with three | ge'
  · exact ⟨[a, b, d], s, .three ge three tail tail' (by omega) (by omega), rfl⟩
  obtain ⟨e, t, text⟩ := text_cons s rest
  rw [text, if_pos ge'] at fourth
  have tail'' : Tail e := inRange_iff.mp (fourth (by simp) (by omega))
  obtain ⟨s, rfl, rfl⟩ := tail_of_text tail'' text
  exact ⟨[a, b, d, e], s, .four ge' range.2 tail tail' tail'' (by omega) (by omega), rfl⟩

theorem broken_refused (broken : Broken s) : ∃ r, stringRun sa (encodeJson s ++ 0x22 :: rest) = .ok (.bad r) := by
  obtain ⟨a, s, rfl⟩ := List.exists_cons_of_ne_nil broken.1
  have high : 0x80 ≤ a.toNat := by
    by_contra low
    exact broken.no_char (.one (Nat.not_le.mp low)) rfl
  have other : ¬(a = 0xE2 ∧ 2 ≤ s.length ∧ s.getD 0 0 = 0x80 ∧ s.getD 1 0 ||| 1 = 0xA9) := by
    rintro ⟨rfl, long, second, third⟩
    obtain _ | ⟨b, _ | ⟨d, s⟩⟩ := s
    · simp at long
    · simp at long
    · obtain rfl : b = 0x80 := second
      have first : Tail 0x80 := ⟨by decide, by decide⟩
      have tail : Tail d := by rcases separator_of_or third with rfl | rfl <;> exact ⟨by decide, by decide⟩
      exact broken.no_char (.three (by decide) (by decide) first tail (by decide) (by decide)) rfl
  rw [encodeJson_high high other, List.cons_append]
  by_cases lead : inRange a 0xC2 0xF5
  swap
  · exact ⟨_, stringRun_stray high lead⟩
  have range := inRange_iff.mp lead
  obtain ⟨b, t, text⟩ := text_cons s rest
  rw [text, stringRun_lead lead (List.cons_ne_nil _ _)]
  simp only [List.getD_cons_zero, List.getD_cons_succ]
  split_ifs with second third fourth short
  · exact ⟨_, rfl⟩
  · exact ⟨_, rfl⟩
  · exact ⟨_, rfl⟩
  all_goals
    obtain ⟨tail, allowed⟩ := not_or.mp second
    have whole := char_of_tails range text (inRange_iff.mp (not_not.mp tail)) allowed
      (fun long more => not_not.mp fun bad => third ⟨long, more, bad⟩) fun long more => not_not.mp fun bad => fourth ⟨long, more, bad⟩
    obtain ⟨bs, r, wf, same⟩ := whole
    exact absurd same (broken.no_char wf)

theorem exists_chars (s : Bytes) : ∃ (cs : List Char) (t : Bytes), s = cs.flatMap utf8EncodeChar ++ t ∧ (t = [] ∨ Broken t) := by
  induction length : s.length using Nat.strong_induction_on generalizing s with
  | _ n ih =>
    by_cases next : ∃ ch t, s = utf8EncodeChar ch ++ t
    · obtain ⟨ch, t, rfl⟩ := next
      have shorter : t.length < n := by
        have some_ := List.length_pos_iff.mpr (encode_wellFormed ch).sized.ne_nil
        rw [List.length_append] at length
        omega
      obtain ⟨cs, t, rfl, stops⟩ := ih _ shorter t rfl
      exact ⟨ch :: cs, t, by rw [List.flatMap_cons, List.append_assoc], stops⟩
    · refine ⟨[], s, rfl, or_iff_not_imp_left.mpr fun more => ⟨more, fun ch t same => next ⟨ch, t, same⟩⟩⟩

theorem Broken.no_text (broken : Broken t) {cs ds : List Char} : cs.flatMap utf8EncodeChar ++ t ≠ ds.flatMap utf8EncodeChar := by
  induction cs generalizing ds with
  | nil =>
    cases ds with
    | nil => exact broken.1
    | cons d ds => exact broken.2 d _
  | cons ch cs ih =>
    rw [List.flatMap_cons, List.append_assoc]
    cases ds with
    | nil => exact fun none_ => (encode_wellFormed ch).sized.ne_nil (List.append_eq_nil_iff.mp none_).1
    | cons d ds => exact fun same => ih ((encode_wellFormed ch).sized.append_inj (encode_wellFormed d).sized same).2

/-! ### Strings -/

def rereadString (s : Bytes) : Option Bytes :=
  s.toByteArray.utf8Decode?.bind fun chars => (chars.toList.mapM rereadChar).map List.flatten

variable {cs : List Char} {ts : List Bytes}

theorem rereadString_chars : rereadString (cs.flatMap utf8EncodeChar) = (cs.mapM rereadChar).map List.flatten := by
  rw [rereadString, decode_iff.mpr rfl]
  rfl

theorem rereadString_broken (broken : Broken t) : rereadString (cs.flatMap utf8EncodeChar ++ t) = none := by
  cases decoded : (cs.flatMap utf8EncodeChar ++ t).toByteArray.utf8Decode? with
  | none => rw [rereadString, decoded, Option.bind_none]
  | some chars =>
    have text : cs.flatMap utf8EncodeChar ++ t = chars.toList.flatMap utf8EncodeChar := decode_iff.mp decoded
    exact absurd text broken.no_text

theorem stringRun_chars (reads : cs.mapM rereadChar = some ts) :
    stringRun sa (encodeJson (cs.flatMap utf8EncodeChar ++ s) ++ rest) = stringRun (sa ++ ts.flatten) (encodeJson s ++ rest) := by
  induction cs generalizing sa ts with
  | nil =>
    obtain rfl : ts = [] := (Option.some.inj reads).symm
    rw [List.flatten_nil, List.append_nil]
    rfl
  | cons ch cs ih =>
    rw [List.mapM_cons] at reads
    obtain ⟨t, first, reads⟩ := Option.bind_eq_some_iff.mp reads
    obtain ⟨ts, others, reads⟩ := Option.bind_eq_some_iff.mp reads
    obtain rfl := Option.some.inj reads
    rw [List.flatMap_cons, List.append_assoc, char_reads first, ih others, List.flatten_cons, List.append_assoc]

theorem stringRun_chars_refused (refused : cs.mapM rereadChar = none) :
    ∃ r, stringRun sa (encodeJson (cs.flatMap utf8EncodeChar ++ s) ++ rest) = .ok (.bad r) := by
  induction cs generalizing sa with
  | nil => cases refused
  | cons ch cs ih =>
    rw [List.flatMap_cons, List.append_assoc]
    cases first : rereadChar ch with
    | none => exact char_refused first
    | some t =>
      rw [char_reads first]
      rw [List.mapM_cons, first] at refused
      refine ih ?_
      cases others : cs.mapM rereadChar with
      | none => rfl
      | some ts =>
        rw [others] at refused
        cases refused

theorem stringRun_reads (reads : rereadString s = some t) : stringRun sa (encodeJson s ++ 0x22 :: rest) =
    .ok (.closed (sa ++ t) rest) := by
  obtain ⟨cs, w, rfl, rfl | broken⟩ := exists_chars s
  · rw [List.append_nil, rereadString_chars] at reads
    obtain ⟨ts, all, rfl⟩ := Option.map_eq_some_iff.mp reads
    rw [stringRun_chars all]
    exact stringRun_quote
  · rw [rereadString_broken broken] at reads
    cases reads

theorem stringRun_refused (refused : rereadString s = none) : ∃ r, stringRun sa (encodeJson s ++ 0x22 :: rest) = .ok (.bad r) := by
  obtain ⟨cs, w, rfl, stops⟩ := exists_chars s
  cases all : cs.mapM rereadChar with
  | none => exact stringRun_chars_refused all
  | some ts =>
    rw [stringRun_chars all]
    rcases stops with rfl | broken
    · rw [List.append_nil, rereadString_chars, all] at refused
      cases refused
    · exact broken_refused broken

def LegibleString (s : Bytes) : Prop :=
  ∃ cs : List Char, s = cs.flatMap utf8EncodeChar ∧ ∀ ch ∈ cs, ch.toNat ≠ 0 ∧ ch.toNat ≠ 0x2028 ∧ ch.toNat ≠ 0x2029

theorem rereadChar_sized (reads : rereadChar ch = some t) : Sized charSize t := by
  unfold rereadChar at reads
  split_ifs at reads
  · obtain rfl := Option.some.inj reads
    exact ⟨0xC0, rfl, rfl⟩
  · obtain rfl := Option.some.inj reads
    exact (encode_wellFormed ch).sized

theorem rereadChar_self : rereadChar ch = some (utf8EncodeChar ch) ↔ ch.toNat ≠ 0 ∧ ch.toNat ≠ 0x2028 ∧ ch.toNat ≠ 0x2029 := by
  unfold rereadChar
  split_ifs with nul separates
  · simp [nul]
  · rw [encode_separator separates]
    simp
    omega
  · simp
    omega

theorem rereadChar_inj {d : Char} (reads : rereadChar ch = some t) (reads' : rereadChar d = some t) : ch = d := by
  have narrow : ∀ {d : Char} {b : UInt8}, utf8EncodeChar d ≠ [0xC0, b] := fun {d b} same => by
    have wf := encode_wellFormed d
    rw [same] at wf
    cases wf with
    | two ge => exact absurd ge (by decide)
  unfold rereadChar at reads reads'
  split_ifs at reads reads' with nul separates nul' separates' nul' separates'
  · obtain rfl := Option.some.inj reads
    have same := congrArg UInt8.toNat (List.cons.inj (List.cons.inj (Option.some.inj reads')).2).1
    rw [toNat_ofNat (by omega), toNat_ofNat (by omega)] at same
    exact Char.toNat_inj.mp (by omega)
  · obtain rfl := Option.some.inj reads
    exact absurd (Option.some.inj reads') narrow
  · obtain rfl := Option.some.inj reads'
    exact absurd (Option.some.inj reads) narrow
  · exact encode_inj (Option.some.inj (reads.trans reads'.symm))

theorem rereadString_eq_some : rereadString s = some t ↔
    ∃ cs ts, s = cs.flatMap utf8EncodeChar ∧ List.Forall₂ (fun ch t => rereadChar ch = some t) cs ts ∧ t = ts.flatten := by
  constructor
  · intro reads
    obtain ⟨cs, w, rfl, rfl | broken⟩ := exists_chars s
    · rw [List.append_nil, rereadString_chars] at reads
      obtain ⟨ts, all, rfl⟩ := Option.map_eq_some_iff.mp reads
      exact ⟨cs, ts, List.append_nil _, Partial.mapM_iff_forall₂.mp all, rfl⟩
    · rw [rereadString_broken broken] at reads
      cases reads
  · rintro ⟨cs, ts, rfl, all, rfl⟩
    rw [rereadString_chars, Partial.mapM_iff_forall₂.mpr all]
    rfl

theorem pieces_sized (all : List.Forall₂ (fun ch t => rereadChar ch = some t) cs ts) : ∀ t ∈ ts, Sized charSize t := by
  induction all with
  | nil => exact List.forall_mem_nil _
  | cons first _ ih => exact List.forall_mem_cons.mpr ⟨rereadChar_sized first, ih⟩

theorem rereadString_inj {s' : Bytes} (reads : rereadString s = some t) (reads' : rereadString s' = some t) : s = s' := by
  obtain ⟨cs, ts, rfl, all, rfl⟩ := rereadString_eq_some.mp reads
  obtain ⟨ds, ts', rfl, all', same⟩ := rereadString_eq_some.mp reads'
  obtain rfl := flatten_inj (pieces_sized all) (pieces_sized all') same
  have unique : Relator.LeftUnique fun ch t => rereadChar ch = some t := fun _ _ _ => rereadChar_inj
  rw [unique.forall₂ all all']

theorem rereadString_self : rereadString s = some s ↔ LegibleString s := by
  constructor
  · intro reads
    obtain ⟨cs, ts, rfl, all, same⟩ := rereadString_eq_some.mp reads
    have sized : ∀ t ∈ cs.map utf8EncodeChar, Sized charSize t := List.forall_mem_map.mpr fun ch _ => (encode_wellFormed ch).sized
    rw [List.flatMap_def] at same
    obtain rfl := flatten_inj sized (pieces_sized all) same
    rw [List.forall₂_map_right_iff, List.forall₂_same] at all
    exact ⟨cs, rfl, fun ch mem => rereadChar_self.mp (all ch mem)⟩
  · rintro ⟨cs, rfl, visible⟩
    refine rereadString_eq_some.mpr ⟨cs, cs.map utf8EncodeChar, rfl, ?_, List.flatMap_def ..⟩
    rw [List.forall₂_map_right_iff, List.forall₂_same]
    exact fun ch mem => rereadChar_self.mpr (visible ch mem)

def ReadableString (s : Bytes) : Prop := ∃ cs : List Char, s = cs.flatMap utf8EncodeChar ∧ ∀ ch ∈ cs, ch.toNat ≠ 0

theorem rereadString_readable : (∃ t, rereadString s = some t) ↔ ReadableString s := by
  constructor
  · rintro ⟨t, reads⟩
    obtain ⟨cs, ts, rfl, all, -⟩ := rereadString_eq_some.mp reads
    have visible : List.Forall₂ (fun ch _ => ch.toNat ≠ 0 ∧ True) cs ts := all.imp fun ch t first => by
      refine ⟨fun null => ?_, trivial⟩
      rw [rereadChar, if_pos null] at first
      cases first
    exact ⟨cs, rfl, ((List.forall₂_and_left _ _).mp visible).1⟩
  · rintro ⟨cs, rfl, visible⟩
    have reads : ∀ ch ∈ cs, rereadChar ch = some ((rereadChar ch).getD []) := by
      intro ch mem
      rw [rereadChar, if_neg (visible ch mem)]
      split_ifs <;> rfl
    rw [rereadString_chars, Partial.mapM_eq_some reads]
    exact ⟨_, rfl⟩

end Masstree.JsonText
