import Mathlib.Tactic.Common
import Masstree.Msgpack.Parser

/-!
# String accumulators

`StringAccum` up to `append_utf8`: a buffer that grows by `new`, and may run out of memory. A write outside the buffer and a capacity
that is no `int` are `none`.
-/

namespace Masstree

open Msgpack (Bytes)

def ascii (s : String) : Bytes := s.toList.map fun c => UInt8.ofNat c.toNat

/-- `new char[n]`, which may return null, and `String::MEMO_SPACE`. -/
structure Allocator where
  new : Int → Bool
  memoSpace : Nat

/-- `rep_t`: the bytes before `len`, and the capacity of the buffer, negative when out of memory. -/
structure StringAccum where
  s : Bytes
  cap : Int
  fits : (s.length : Int) ≤ max cap 0

namespace StringAccum

def len (r : StringAccum) : Int := r.s.length

def empty : StringAccum := ⟨[], 0, by decide⟩

def outOfMemory : StringAccum := ⟨[], -1, by decide⟩

variable (a : Allocator)

/-- What `grow` makes of `ncap`. -/
def newCap (cap ncap : Int) : Int :=
  if ncap < 128 then 128
  else if cap < 2 ^ 20 ∧ ncap < (cap + a.memoSpace) * 2 - a.memoSpace then (cap + a.memoSpace) * 2 - a.memoSpace
  else if 2 ^ 20 ≤ cap ∧ ncap < cap + 2 ^ 19 then cap + 2 ^ 19
  else ncap

theorem le_newCap (cap ncap : Int) : ncap ≤ newCap a cap ncap := by
  unfold newCap
  split_ifs <;> omega

/-- The result is whether it is not null. -/
def grow (r : StringAccum) (ncap : Int) : Option (Bool × StringAccum) :=
  if r.cap < 0 then some (false, r)
  else if below : ncap < r.cap then some (true, r)
  else if 2 ^ 31 ≤ newCap a r.cap ncap + a.memoSpace then none
  else if a.new (newCap a r.cap ncap + a.memoSpace) then
    some (true, ⟨r.s, newCap a r.cap ncap, by have := r.fits; have := le_newCap a r.cap ncap; omega⟩)
  else some (false, outOfMemory)

/-- `r_.s[r_.len++] = c` -/
def put (r : StringAccum) (c : UInt8) : Option StringAccum :=
  if inside : r.len < r.cap then some ⟨r.s ++ [c], r.cap, by rw [List.length_append]; unfold len at inside; simp; omega⟩
  else none

def append (r : StringAccum) (c : UInt8) : Option StringAccum :=
  if r.len < r.cap then r.put c
  else do
    let (grown, r) ← grow a r r.len
    if grown then r.put c else some r

/-- `static_cast<char>(x)`, kept as an `unsigned char`. -/
def char (x : Int32) : UInt8 := x.toInt8.toUInt8

def char1 (r : StringAccum) (ch : Int32) : Option StringAccum := append a r (char ((0x80 : Int32) ||| (ch &&& 0x3F)))

def char2 (r : StringAccum) (ch : Int32) : Option StringAccum := do
  let r ← append a r (char ((0x80 : Int32) ||| ((ch >>> 6) &&& 0x3F)))
  char1 a r ch

def appendUtf8Hard (r : StringAccum) (ch : Int32) : Option (Bool × StringAccum) :=
  if ch < 0x8000 then do
    let r ← append a r (char ((0xC0 : Int32) ||| (ch >>> 6)))
    let r ← char1 a r ch
    return (true, r)
  else if ch < 0x10000 then
    if (0xD800 ≤ ch ∧ ch < 0xE000) ∨ 0xFFFD < ch then some (false, r)
    else do
      let r ← append a r (char ((0xE0 : Int32) ||| (ch >>> 12)))
      let r ← char2 a r ch
      return (true, r)
  else if ch < 0x110000 then do
    let r ← append a r (char ((0xF0 : Int32) ||| (ch >>> 18)))
    let r ← append a r (char ((0x80 : Int32) ||| ((ch >>> 12) &&& 0x3F)))
    let r ← char2 a r ch
    return (true, r)
  else some (false, r)

def appendUtf8 (r : StringAccum) (ch : Int32) : Option (Bool × StringAccum) :=
  if ch ≤ 0 then some (false, r)
  else if ch ≤ 0x7F then do
    let r ← append a r (char ch)
    return (true, r)
  else appendUtf8Hard a r ch

/-! ### What is written -/

variable {a} {r r' : StringAccum} {c : UInt8} {bs : Bytes} {ch : Int32}

def appendAll (a : Allocator) (r : StringAccum) (bs : Bytes) : Option StringAccum := bs.foldlM (append a) r

theorem appendAll_cons : appendAll a r (c :: bs) = (append a r c).bind fun r => appendAll a r bs := List.foldlM_cons

/-- The bytes that a call appends, unless it returns false. -/
def written (ch : Int32) : Option Bytes :=
  if ch ≤ 0 then none
  else if ch ≤ 0x7F then some [char ch]
  else if ch < 0x8000 then some [char ((0xC0 : Int32) ||| (ch >>> 6)), char ((0x80 : Int32) ||| (ch &&& 0x3F))]
  else if ch < 0x10000 then
    if (0xD800 ≤ ch ∧ ch < 0xE000) ∨ 0xFFFD < ch then none
    else some [char ((0xE0 : Int32) ||| (ch >>> 12)), char ((0x80 : Int32) ||| ((ch >>> 6) &&& 0x3F)),
      char ((0x80 : Int32) ||| (ch &&& 0x3F))]
  else if ch < 0x110000 then
    some [char ((0xF0 : Int32) ||| (ch >>> 18)), char ((0x80 : Int32) ||| ((ch >>> 12) &&& 0x3F)),
      char ((0x80 : Int32) ||| ((ch >>> 6) &&& 0x3F)), char ((0x80 : Int32) ||| (ch &&& 0x3F))]
  else none

theorem appendUtf8_refuses (refused : written ch = none) : appendUtf8 a r ch = some (false, r) := by
  unfold written at refused
  unfold appendUtf8 appendUtf8Hard
  split_ifs at refused ⊢ <;> rfl

theorem appendUtf8_writes (writes : written ch = some bs) :
    appendUtf8 a r ch = (appendAll a r bs).bind fun r => some (true, r) := by
  unfold written at writes
  unfold appendUtf8 appendUtf8Hard char2 char1
  split_ifs at writes ⊢
  all_goals
    obtain rfl := Option.some.inj writes
    simp [appendAll, Option.bind_assoc]

theorem appended_of_writes {ok : Bool} (writes : written ch = some bs) (called : appendUtf8 a r ch = some (ok, r')) :
    ok = true ∧ appendAll a r bs = some r' := by
  rw [appendUtf8_writes writes] at called
  obtain ⟨r₁, all, result⟩ := Option.bind_eq_some_iff.mp called
  obtain ⟨rfl, rfl⟩ := Prod.mk.inj (Option.some.inj result)
  exact ⟨rfl, all⟩

/-! ### Memory -/

def Gives (a : Allocator) (cap len : Int) : Prop :=
  0 ≤ cap ∧ newCap a cap len + a.memoSpace < 2 ^ 31 ∧ a.new (newCap a cap len + a.memoSpace)

def Room (a : Allocator) : Nat → Int → Int → Prop
  | 0, _, _ => True
  | n + 1, len, cap => if len < cap then Room a n (len + 1) cap else Gives a cap len ∧ Room a n (len + 1) (newCap a cap len)

theorem len_push (pushed : r'.s = r.s ++ [c]) : r'.len = r.len + 1 := by
  simp [len, pushed]

theorem put_inside (inside : r.len < r.cap) : ∃ r', r.put c = some r' ∧ r'.s = r.s ++ [c] ∧ r'.cap = r.cap :=
  ⟨_, dif_pos inside, rfl, rfl⟩

theorem append_inside (inside : r.len < r.cap) : ∃ r', append a r c = some r' ∧ r'.s = r.s ++ [c] ∧ r'.cap = r.cap := by
  rw [append, if_pos inside]
  exact put_inside inside

theorem nil_of_lost (lost : r.cap < 0) : r.s = [] := by
  have fits := r.fits
  exact List.length_eq_zero_iff.mp (by omega)

theorem lt_newCap (cap : Int) : cap < newCap a cap cap := by
  unfold newCap
  split_ifs <;> omega

theorem len_le (nonneg : 0 ≤ r.cap) : r.len ≤ r.cap := by
  have fits := r.fits
  unfold len
  omega

theorem grow_gives {ncap : Int} (nonneg : 0 ≤ r.cap) (full : ¬ncap < r.cap) (int : ¬2 ^ 31 ≤ newCap a r.cap ncap + a.memoSpace)
    (new : a.new (newCap a r.cap ncap + a.memoSpace) = true) :
    ∃ r', grow a r ncap = some (true, r') ∧ r'.s = r.s ∧ r'.cap = newCap a r.cap ncap := by
  rw [grow, if_neg (Int.not_lt.mpr nonneg), dif_neg full, if_neg int, if_pos new]
  exact ⟨_, rfl, by simp⟩

theorem append_grows (full : ¬r.len < r.cap) (gives : Gives a r.cap r.len) :
    ∃ r', append a r c = some r' ∧ r'.s = r.s ++ [c] ∧ r'.cap = newCap a r.cap r.len := by
  obtain ⟨nonneg, int, new⟩ := gives
  have same_ : r.len = r.cap := Int.le_antisymm (len_le nonneg) (Int.not_lt.mp full)
  have more : r.len < newCap a r.cap r.len := by
    rw [same_]
    exact lt_newCap _
  obtain ⟨r₁, grown, same, cap⟩ := grow_gives nonneg full (Int.not_le.mpr int) new
  obtain ⟨r', stored, pushed, cap'⟩ := put_inside (r := r₁) (c := c) (by rwa [len, same, cap])
  refine ⟨r', ?_, by rw [pushed, same], by rw [cap', cap]⟩
  rw [append, if_neg full, grown]
  exact stored

theorem append_lost (full : ¬r.len < r.cap) (not : ¬Gives a r.cap r.len) (appended : append a r c = some r') : r'.cap < 0 := by
  rw [append, if_neg full, grow] at appended
  split_ifs at appended with lost int new
  · obtain rfl := Option.some.inj appended
    exact lost
  · cases appended
  · exact absurd ⟨Int.not_lt.mp lost, Int.not_le.mp int, new⟩ not
  · obtain rfl := Option.some.inj appended
    decide

theorem appendAll_lost (lost : r.cap < 0) : appendAll a r bs = some r := by
  induction bs with
  | nil => rfl
  | cons c bs ih =>
    have full : ¬r.len < r.cap := by
      unfold len
      omega
    have kept : append a r c = some r := by
      rw [append, if_neg full, grow, if_pos lost]
      rfl
    rw [appendAll_cons, kept, Option.bind_some, ih]

theorem appendAll_iff : (∃ r', appendAll a r bs = some r' ∧ r'.s = r.s ++ bs) ↔ Room a bs.length r.len r.cap := by
  induction bs generalizing r with
  | nil => simp [appendAll, Room]
  | cons c bs ih =>
    have push : ∀ r₁, append a r c = some r₁ → r₁.s = r.s ++ [c] →
        ((∃ r', appendAll a r (c :: bs) = some r' ∧ r'.s = r.s ++ c :: bs) ↔ Room a bs.length (r.len + 1) r₁.cap) := by
      intro r₁ appended pushed
      rw [← len_push pushed, ← ih, appendAll_cons, appended, pushed, List.append_assoc]
      rfl
    rw [List.length_cons, Room]
    by_cases inside : r.len < r.cap
    · obtain ⟨r₁, appended, pushed, cap⟩ := append_inside (a := a) (c := c) inside
      rw [if_pos inside, push r₁ appended pushed, cap]
    · rw [if_neg inside]
      by_cases gives : Gives a r.cap r.len
      · obtain ⟨r₁, appended, pushed, cap⟩ := append_grows (c := c) inside gives
        rw [and_iff_right gives, push r₁ appended pushed, cap]
      · -- the byte is lost, with all before it
        refine iff_of_false ?_ fun room => gives room.1
        rintro ⟨r', all, same⟩
        rw [appendAll_cons] at all
        obtain ⟨r₁, appended, rest⟩ := Option.bind_eq_some_iff.mp all
        have lost := append_lost inside gives appended
        rw [appendAll_lost lost, Option.some.injEq] at rest
        rw [← rest, nil_of_lost lost] at same
        simp at same

theorem append_length_le (appended : append a r c = some r') : r'.s.length ≤ r.s.length + 1 := by
  have pushed : ∀ r₁, append a r c = some r₁ ∧ r₁.s = r.s ++ [c] → r'.s.length ≤ r.s.length + 1 := by
    rintro r₁ ⟨appended', pushed⟩
    obtain rfl := Option.some.inj (appended'.symm.trans appended)
    simp [pushed]
  by_cases inside : r.len < r.cap
  · obtain ⟨r₁, appended', same, _⟩ := append_inside (a := a) (c := c) inside
    exact pushed r₁ ⟨appended', same⟩
  by_cases gives : Gives a r.cap r.len
  · obtain ⟨r₁, appended', same, _⟩ := append_grows (c := c) inside gives
    exact pushed r₁ ⟨appended', same⟩
  · simp [nil_of_lost (append_lost inside gives appended)]

theorem appendAll_length_le (all : appendAll a r bs = some r') : r'.s.length ≤ r.s.length + bs.length := by
  induction bs generalizing r with
  | nil =>
    obtain rfl := Option.some.inj all
    exact Nat.le_refl _
  | cons c bs ih =>
    rw [appendAll_cons] at all
    obtain ⟨r₁, appended, rest⟩ := Option.bind_eq_some_iff.mp all
    have first := append_length_le appended
    have others := ih rest
    rw [List.length_cons]
    omega

theorem room_of_new (new : ∀ n, a.new n = true) (small : a.memoSpace ≤ 2 ^ 20) {n : Nat} {len cap : Int} (nonneg : 0 ≤ cap)
    (inside : len ≤ cap) (short : len + n ≤ 2 ^ 30) : Room a n len cap := by
  induction n generalizing len cap with
  | zero => trivial
  | succ n ih =>
    rw [Nat.cast_succ] at short
    rw [Room]
    split_ifs with lt
    · exact ih nonneg lt (by omega)
    · obtain rfl : len = cap := Int.le_antisymm inside (Int.not_lt.mp lt)
      have more := lt_newCap (a := a) len
      have int : newCap a len len + a.memoSpace < 2 ^ 31 := by
        unfold newCap
        split_ifs <;> omega
      exact ⟨⟨nonneg, int, new _⟩, ih (by omega) more (by omega)⟩

/-! ### Parts -/

/-- `reserve`, which asserts that `n` is not negative -/
def reserve (a : Allocator) (r : StringAccum) (n : Nat) : Option (Bool × StringAccum) :=
  if 2 ^ 31 ≤ r.len + n then none
  else if r.len + n ≤ r.cap then some (true, r)
  else grow a r (r.len + n)

/-- What is copied behind `r_.len`, with `r_.len += len` -/
def copy (r : StringAccum) (bs : Bytes) : Option StringAccum :=
  if inside : r.len + bs.length ≤ r.cap then
    some ⟨r.s ++ bs, r.cap, by rw [List.length_append]; unfold len at inside; omega⟩
  else none

/-- One call: `append(char)`, or bytes in space that `reserve`, `extend` or `append(const char*, int)` makes for them -/
inductive Part where
  | char (c : UInt8)
  | room (n : Nat) (bs : Bytes)
  deriving DecidableEq

def Part.bytes : Part → Bytes
  | .char c => [c]
  | .room _ bs => bs

def Part.space : Part → Nat
  | .char _ => 1
  | .room n _ => n

def write (a : Allocator) (r : StringAccum) : Part → Option StringAccum
  | .char c => append a r c
  | .room n bs => do
    let (given, r) ← reserve a r n
    if given then copy r bs else some r

def writeAll (a : Allocator) (r : StringAccum) (parts : List Part) : Option StringAccum := parts.foldlM (write a) r

theorem writeAll_cons {p : Part} {parts : List Part} :
    writeAll a r (p :: parts) = (write a r p).bind fun r => writeAll a r parts := List.foldlM_cons

theorem newCap_le {cap ncap : Int} (le : cap ≤ ncap) : newCap a cap ncap ≤ max (2 ^ 22 + (a.memoSpace : Int)) (ncap + 2 ^ 19) := by
  unfold newCap
  split_ifs <;> omega

theorem copy_inside (inside : r.len + bs.length ≤ r.cap) : ∃ r', copy r bs = some r' ∧ r'.s = r.s ++ bs ∧ r'.cap = r.cap :=
  ⟨_, dif_pos inside, rfl, rfl⟩

theorem reserve_of_new (new : ∀ n, a.new n = true) (small : a.memoSpace ≤ 2 ^ 18) (nonneg : 0 ≤ r.cap) {n : Nat}
    (short : r.len + n + 2 ^ 20 ≤ 2 ^ 31 + 2 ^ 8) :
    ∃ r', reserve a r n = some (true, r') ∧ r'.s = r.s ∧ r.len + n ≤ r'.cap ∧ 0 ≤ r'.cap := by
  have int : ¬2 ^ 31 ≤ r.len + (n : Int) := by omega
  rw [reserve, if_neg int]
  by_cases inside : r.len + n ≤ r.cap
  · exact ⟨r, if_pos inside, rfl, inside, nonneg⟩
  · have more := le_newCap a r.cap (r.len + n)
    have most := newCap_le (a := a) (Int.le_of_lt (Int.not_le.mp inside))
    have int : ¬2 ^ 31 ≤ newCap a r.cap (r.len + n) + a.memoSpace := by omega
    have full : ¬r.len + n < r.cap := by omega
    obtain ⟨r', grown, same, cap⟩ := grow_gives nonneg full int (new _)
    exact ⟨r', by rw [if_neg inside, grown], same, by omega, by omega⟩

theorem write_of_new (new : ∀ n, a.new n = true) (small : a.memoSpace ≤ 2 ^ 18) (nonneg : 0 ≤ r.cap) {p : Part}
    (enough : p.bytes.length ≤ p.space) (short : r.len + p.space + 2 ^ 20 ≤ 2 ^ 31 + 2 ^ 8) :
    ∃ r', write a r p = some r' ∧ r'.s = r.s ++ p.bytes ∧ 0 ≤ r'.cap := by
  cases p with
  | char c =>
    have short : r.len + (1 : Nat) + 2 ^ 20 ≤ 2 ^ 31 + 2 ^ 8 := short
    by_cases inside : r.len < r.cap
    · obtain ⟨r', appended, same, cap⟩ := append_inside (a := a) (c := c) inside
      exact ⟨r', appended, same, cap ▸ nonneg⟩
    · have most := newCap_le (a := a) (Int.not_lt.mp inside)
      have more := le_newCap a r.cap r.len
      have positive : 0 ≤ r.len := Int.natCast_nonneg _
      obtain ⟨r', appended, same, cap⟩ := append_grows (c := c) inside ⟨nonneg, by omega, new _⟩
      exact ⟨r', appended, same, by omega⟩
  | room n bs =>
    have enough : bs.length ≤ n := enough
    have short : r.len + n + 2 ^ 20 ≤ 2 ^ 31 + 2 ^ 8 := short
    obtain ⟨r₁, reserved, same, inside, nonneg⟩ := reserve_of_new new small nonneg short
    have len_ : r₁.len = r.len := by rw [len, len, same]
    have room : r₁.len + bs.length ≤ r₁.cap := by omega
    obtain ⟨r', copied, appended, cap⟩ := copy_inside room
    refine ⟨r', ?_, by rw [appended, same]; rfl, cap ▸ nonneg⟩
    rw [write, reserved]
    exact copied

/-- Parts are written one after the other, as long as the length and the capacity stay an `int`. -/
theorem writeAll_of_new (new : ∀ n, a.new n = true) (small : a.memoSpace ≤ 2 ^ 18) {parts : List Part}
    (enough : ∀ p ∈ parts, p.bytes.length ≤ p.space ∧ p.space ≤ p.bytes.length + 2 ^ 8) (nonneg : 0 ≤ r.cap)
    (short : r.len + (parts.flatMap Part.bytes).length + 2 ^ 20 ≤ 2 ^ 31) :
    ∃ r', writeAll a r parts = some r' ∧ r'.s = r.s ++ parts.flatMap Part.bytes := by
  induction parts generalizing r with
  | nil => exact ⟨r, rfl, by simp⟩
  | cons p parts ih =>
    obtain ⟨least, most⟩ := enough p (List.mem_cons_self ..)
    rw [List.flatMap_cons, List.length_append] at short
    obtain ⟨r₁, written, same, nonneg⟩ := write_of_new new small nonneg least (by omega)
    have len_ : r₁.len = r.len + p.bytes.length := by simp [len, same]
    obtain ⟨r', all, appended⟩ := ih (fun p mem => enough p (List.mem_cons_of_mem _ mem)) nonneg (by omega)
    exact ⟨r', by rw [writeAll_cons, written, Option.bind_some, all], by rw [appended, same, List.flatMap_cons, List.append_assoc]⟩

/-- The text comes out whole, whatever parts it is written in, each with at most 256 bytes more than it needs. -/
def Accumulates (a : Allocator) (text : Bytes) : Prop :=
  ∀ parts : List Part, parts.flatMap Part.bytes = text →
    (∀ p ∈ parts, p.bytes.length ≤ p.space ∧ p.space ≤ p.bytes.length + 2 ^ 8) →
    ∃ r, writeAll a empty parts = some r ∧ r.s = text

theorem accumulates_of_new (new : ∀ n, a.new n = true) (small : a.memoSpace ≤ 2 ^ 18) {text : Bytes}
    (short : text.length + 2 ^ 20 ≤ 2 ^ 31) : Accumulates a text := by
  rintro parts rfl enough
  have none_ : empty.len = 0 := rfl
  obtain ⟨r, all, same⟩ := writeAll_of_new new small enough (r := empty) (Int.le_refl 0) (by omega)
  exact ⟨r, all, by rw [same]; rfl⟩

end StringAccum

end Masstree
