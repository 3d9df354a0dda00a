import Mathlib.Tactic.Common

/-!
# UTF-8 in numbers

The bytes of a character by the size of its number, and the ranges of bytes that are characters.
-/

namespace Utf8

open String (utf8EncodeChar)

variable {c : Char} {n : Nat}

theorem toNat_ofNat (lt : n < 256) : (UInt8.ofNat n).toNat = n := by
  rw [UInt8.toNat_ofNat', Nat.mod_eq_of_lt lt]

theorem eq_ofNat {b : UInt8} (same : b.toNat = n) : b = UInt8.ofNat n := by
  rw [← same, UInt8.ofNat_toNat]

theorem scalar (c : Char) : c.toNat < 0xD800 ∨ 0xDFFF < c.toNat ∧ c.toNat < 0x110000 := c.valid

theorem exists_char (valid : n < 0xD800 ∨ 0xDFFF < n ∧ n < 0x110000) : ∃ c : Char, c.toNat = n :=
  ⟨Char.ofNatAux n valid, rfl⟩

/-! ### Four sizes -/

theorem encode_one (lt : c.toNat < 0x80) : utf8EncodeChar c = [UInt8.ofNat c.toNat] := if_pos (Nat.le_of_lt_succ lt)

theorem encode_two (ge : 0x80 ≤ c.toNat) (lt : c.toNat < 0x800) :
    utf8EncodeChar c = [UInt8.ofNat (c.toNat / 64 + 0xC0), UInt8.ofNat (c.toNat % 64 + 0x80)] := by
  have low : c.toNat / 64 < 32 := by omega
  calc utf8EncodeChar c = [UInt8.ofNat (c.toNat / 64 % 32 + 0xC0), UInt8.ofNat (c.toNat % 64 + 0x80)] :=
        (if_neg (Nat.not_le_of_lt ge)).trans (if_pos (Nat.le_of_lt_succ lt))
    _ = _ := by rw [Nat.mod_eq_of_lt low]

theorem encode_three (ge : 0x800 ≤ c.toNat) (lt : c.toNat < 0x10000) :
    utf8EncodeChar c =
      [UInt8.ofNat (c.toNat / 4096 + 0xE0), UInt8.ofNat (c.toNat / 64 % 64 + 0x80), UInt8.ofNat (c.toNat % 64 + 0x80)] := by
  have low : c.toNat / 4096 < 16 := by omega
  calc utf8EncodeChar c = [UInt8.ofNat (c.toNat / 4096 % 16 + 0xE0), UInt8.ofNat (c.toNat / 64 % 64 + 0x80),
          UInt8.ofNat (c.toNat % 64 + 0x80)] :=
        (if_neg (show ¬c.toNat ≤ 0x7F by omega)).trans ((if_neg (Nat.not_le_of_lt ge)).trans (if_pos (Nat.le_of_lt_succ lt)))
    _ = _ := by rw [Nat.mod_eq_of_lt low]

theorem encode_four (ge : 0x10000 ≤ c.toNat) :
    utf8EncodeChar c =
      [UInt8.ofNat (c.toNat / 262144 + 0xF0), UInt8.ofNat (c.toNat / 4096 % 64 + 0x80), UInt8.ofNat (c.toNat / 64 % 64 + 0x80),
        UInt8.ofNat (c.toNat % 64 + 0x80)] := by
  have valid := scalar c
  have low : c.toNat / 262144 < 8 := by omega
  calc utf8EncodeChar c = [UInt8.ofNat (c.toNat / 262144 % 8 + 0xF0), UInt8.ofNat (c.toNat / 4096 % 64 + 0x80),
          UInt8.ofNat (c.toNat / 64 % 64 + 0x80), UInt8.ofNat (c.toNat % 64 + 0x80)] :=
        (if_neg (show ¬c.toNat ≤ 0x7F by omega)).trans
          ((if_neg (show ¬c.toNat ≤ 0x7FF by omega)).trans (if_neg (Nat.not_le_of_lt ge)))
    _ = _ := by rw [Nat.mod_eq_of_lt low]

/-! ### Ranges -/

/-- A byte after the first. -/
def Tail (b : UInt8) : Prop := 0x80 ≤ b.toNat ∧ b.toNat < 0xC0

theorem tail_ofNat (lt : n < 64) : Tail (UInt8.ofNat (n + 0x80)) := by
  rw [Tail, toNat_ofNat (by omega)]
  omega

/-- The bytes of one character. In the longer forms the first tail leaves out the numbers that a shorter form has, the surrogates
and what is above U+10FFFF. -/
inductive WellFormed : List UInt8 → Prop
  | one {a : UInt8} : a.toNat < 0x80 → WellFormed [a]
  | two {a b : UInt8} : 0xC2 ≤ a.toNat → a.toNat < 0xE0 → Tail b → WellFormed [a, b]
  | three {a b d : UInt8} : 0xE0 ≤ a.toNat → a.toNat < 0xF0 → Tail b → Tail d → (a.toNat = 0xE0 → 0xA0 ≤ b.toNat) →
      (a.toNat = 0xED → b.toNat < 0xA0) → WellFormed [a, b, d]
  | four {a b d e : UInt8} : 0xF0 ≤ a.toNat → a.toNat < 0xF5 → Tail b → Tail d → Tail e → (a.toNat = 0xF0 → 0x90 ≤ b.toNat) →
      (a.toNat = 0xF4 → b.toNat < 0x90) → WellFormed [a, b, d, e]

theorem encode_wellFormed (c : Char) : WellFormed (utf8EncodeChar c) := by
  have valid := scalar c
  rcases Nat.lt_or_ge c.toNat 0x80 with lt | ge
  · rw [encode_one lt]
    exact .one (by rw [toNat_ofNat (by omega)]; exact lt)
  rcases Nat.lt_or_ge c.toNat 0x800 with lt | ge'
  · rw [encode_two ge lt]
    have first := toNat_ofNat (show c.toNat / 64 + 0xC0 < 256 by omega)
    exact .two (by omega) (by omega) (tail_ofNat (by omega))
  rcases Nat.lt_or_ge c.toNat 0x10000 with lt | ge''
  · rw [encode_three ge' lt]
    have first := toNat_ofNat (show c.toNat / 4096 + 0xE0 < 256 by omega)
    have second := toNat_ofNat (show c.toNat / 64 % 64 + 0x80 < 256 by omega)
    exact .three (by omega) (by omega) (tail_ofNat (by omega)) (tail_ofNat (by omega)) (by omega) (by omega)
  · rw [encode_four ge'']
    have first := toNat_ofNat (show c.toNat / 262144 + 0xF0 < 256 by omega)
    have second := toNat_ofNat (show c.toNat / 4096 % 64 + 0x80 < 256 by omega)
    exact .four (by omega) (by omega) (tail_ofNat (by omega)) (tail_ofNat (by omega)) (tail_ofNat (by omega)) (by omega) (by omega)

theorem WellFormed.last_lt {bs : List UInt8} (wf : WellFormed bs) {b : UInt8} (last : bs.getLast? = some b) : b.toNat < 0xC0 := by
  cases wf with
  | one small =>
    obtain rfl := Option.some.inj last
    exact Nat.lt_trans small (by decide)
  | two _ _ tail =>
    obtain rfl := Option.some.inj last
    exact tail.2
  | three _ _ _ tail =>
    obtain rfl := Option.some.inj last
    exact tail.2
  | four _ _ _ _ tail =>
    obtain rfl := Option.some.inj last
    exact tail.2

theorem WellFormed.exists_encode {bs : List UInt8} (wf : WellFormed bs) : ∃ c, utf8EncodeChar c = bs := by
  cases wf with
  | @one a lt =>
    obtain ⟨c, number⟩ := exists_char (n := a.toNat) (by omega)
    refine ⟨c, ?_⟩
    rw [encode_one (by omega), number, UInt8.ofNat_toNat]
  | @two a b ge lt tail =>
    obtain ⟨low, high⟩ := tail
    obtain ⟨c, number⟩ := exists_char (n := (a.toNat - 0xC0) * 64 + (b.toNat - 0x80)) (by omega)
    refine ⟨c, ?_⟩
    rw [encode_two (by omega) (by omega), ← eq_ofNat (b := a) (by omega), ← eq_ofNat (b := b) (by omega)]
  | @three a b d ge lt tail tail' long valid =>
    obtain ⟨low, high⟩ := tail
    obtain ⟨low', high'⟩ := tail'
    obtain ⟨c, number⟩ := exists_char (n := (a.toNat - 0xE0) * 4096 + (b.toNat - 0x80) * 64 + (d.toNat - 0x80)) (by omega)
    refine ⟨c, ?_⟩
    rw [encode_three (by omega) (by omega), ← eq_ofNat (b := a) (by omega), ← eq_ofNat (b := b) (by omega),
      ← eq_ofNat (b := d) (by omega)]
  | @four a b d e ge lt tail tail' tail'' long valid =>
    obtain ⟨low, high⟩ := tail
    obtain ⟨low', high'⟩ := tail'
    obtain ⟨low'', high''⟩ := tail''
    obtain ⟨c, number⟩ := exists_char (n := (a.toNat - 0xF0) * 262144 + (b.toNat - 0x80) * 4096 + (d.toNat - 0x80) * 64 +
      (e.toNat - 0x80)) (by omega)
    refine ⟨c, ?_⟩
    rw [encode_four (by omega), ← eq_ofNat (b := a) (by omega), ← eq_ofNat (b := b) (by omega), ← eq_ofNat (b := d) (by omega),
      ← eq_ofNat (b := e) (by omega)]

/-! ### Sizes -/

section

variable {β : Type} {size : β → Nat} {s s' t t' : List β} {ts ts' : List (List β)}

/-- The first element tells how many there are. -/
def Sized (size : β → Nat) (t : List β) : Prop := ∃ a, t.head? = some a ∧ t.length = size a

theorem Sized.append_inj (sized : Sized size t) (sized' : Sized size t') (same : t ++ s = t' ++ s') : t = t' ∧ s = s' := by
  obtain ⟨a, first, length⟩ := sized
  obtain ⟨a', first', length'⟩ := sized'
  have heads := congrArg List.head? same
  rw [List.head?_append, List.head?_append, first, first'] at heads
  obtain rfl := Option.some.inj heads
  exact List.append_inj same (length.trans length'.symm)

theorem Sized.ne_nil (sized : Sized size t) : t ≠ [] := by
  obtain ⟨a, first, _⟩ := sized
  rintro rfl
  cases first

theorem flatten_inj (sized : ∀ t ∈ ts, Sized size t) (sized' : ∀ t ∈ ts', Sized size t) (same : ts.flatten = ts'.flatten) :
    ts = ts' := by
  induction ts generalizing ts' with
  | nil =>
    cases ts' with
    | nil => rfl
    | cons t' ts' => exact absurd (List.append_eq_nil_iff.mp same.symm).1 (sized' t' List.mem_cons_self).ne_nil
  | cons t ts ih =>
    cases ts' with
    | nil => exact absurd (List.append_eq_nil_iff.mp same).1 (sized t List.mem_cons_self).ne_nil
    | cons t' ts' =>
      obtain ⟨rfl, rest⟩ := (sized t List.mem_cons_self).append_inj (sized' t' List.mem_cons_self) same
      rw [ih (fun u mem => sized u (List.mem_cons_of_mem _ mem)) (fun u mem => sized' u (List.mem_cons_of_mem _ mem)) rest]

end

/-- How many bytes a character has, by the first. -/
def charSize (a : UInt8) : Nat := if a.toNat < 0x80 then 1 else if a.toNat < 0xE0 then 2 else if a.toNat < 0xF0 then 3 else 4

theorem WellFormed.sized {bs : List UInt8} (wf : WellFormed bs) : Sized charSize bs := by
  cases wf with
  | @one a lt => exact ⟨a, rfl, (if_pos lt).symm⟩
  | @two a b ge lt => exact ⟨a, rfl, by rw [charSize, if_neg (by omega), if_pos lt]; rfl⟩
  | @three a b d ge lt => exact ⟨a, rfl, by rw [charSize, if_neg (by omega), if_neg (by omega), if_pos lt]; rfl⟩
  | @four a b d e ge => exact ⟨a, rfl, by rw [charSize, if_neg (by omega), if_neg (by omega), if_neg (by omega)]; rfl⟩

/-! ### Texts -/

variable {text text' : List UInt8} {cs cs' : List Char}

theorem decode_iff : text.toByteArray.utf8Decode? = some cs.toArray ↔ text = cs.flatMap utf8EncodeChar := by
  constructor
  · intro decoded
    have encoded : cs.utf8Encode = text.toByteArray := by
      simpa [decoded] using ByteArray.utf8Encode_get_utf8Decode? (h := Option.isSome_of_eq_some decoded)
    exact (List.toByteArray_inj.mp encoded).symm
  · rintro rfl
    exact List.utf8Decode?_utf8Encode

theorem decode_append (first : text.toByteArray.utf8Decode? = some cs.toArray)
    (second : text'.toByteArray.utf8Decode? = some cs'.toArray) :
    (text ++ text').toByteArray.utf8Decode? = some (cs ++ cs').toArray := by
  rw [decode_iff] at *
  rw [List.flatMap_append, first, second]

theorem decode_char (c : Char) : (utf8EncodeChar c).toByteArray.utf8Decode? = some [c].toArray :=
  decode_iff.mpr (List.flatMap_singleton ..).symm

theorem encode_inj {c d : Char} (same : utf8EncodeChar c = utf8EncodeChar d) : c = d := by
  have decoded := decode_char c
  rw [same, decode_char d] at decoded
  simpa using decoded.symm

end Utf8
