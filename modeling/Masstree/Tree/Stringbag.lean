import Masstree.Lib.Steps
import Masstree.Tree.RawKey

/-!
# String bags

`stringbag<T>` in memory, from `s_` on: `size_`, `capacity_`, the `info_` of each slot, then the strings. A string that fits takes the
space of the slot's last one, any other is put at `size_`, which is written back as an offset.
-/

namespace Masstree.Tree

open Msgpack (Bytes)
open Fields

/-- A bag with offsets of `offsetSize` bytes, read in slices of `sliceSize`. -/
structure Stringbag where
  host : Host
  offsetSize : Nat
  sliceSize : Nat
  offset_pos : 0 < offsetSize
  slice_pos : 0 < sliceSize
  slice_lt : sliceSize < 2 ^ 31

namespace Stringbag

/-- `assign(p, s)` on a bag of the width, with a length that is an `int`. -/
structure Call (width : Nat) where
  p : Fin width
  s : Bytes
  short : s.length < 2 ^ 31

variable (b : Stringbag)

/-- `((unsigned) (offset_type) -1) + 1` -/
def maxSize : Nat := ((2 ^ (8 * b.offsetSize) - 1) % 2 ^ 32 + 1) % 2 ^ 32
def emptySize : Nat := b.offsetSize * 2
def overhead (width : Nat) : Nat := b.emptySize + width * (2 * b.offsetSize)
def safeSize (width len : Nat) : Nat := b.overhead width + len + b.sliceSize - 1

def offset (mem : Memory) (a : Nat) : Nat := (b.host.load b.offsetSize mem a).toNat
def setOffset (mem : Memory) (a x : Nat) : Memory := b.host.store b.offsetSize mem a (BitVec.ofNat _ x)

def info (p : Nat) : Nat := b.emptySize + p * (2 * b.offsetSize)

def pos (mem : Memory) (p : Nat) : Nat := b.offset mem (b.info p)
def len (mem : Memory) (p : Nat) : Nat := b.offset mem (b.info p + b.offsetSize)

/-- `info_[p] = info_type(pos, len)` -/
def setInfo (mem : Memory) (p pos len : Nat) : Memory :=
  b.setOffset (b.setOffset mem (b.info p) pos) (b.info p + b.offsetSize) len

def construct (width capacity : Nat) (mem : Memory) : Option Memory :=
  let firstpos := b.overhead width
  if firstpos ≤ capacity ∧ capacity ≤ b.maxSize then
    let mem := b.setOffset mem 0 firstpos
    let mem := b.setOffset mem b.offsetSize (capacity - 1)
    some ((List.range width).foldl (fun mem i => b.setInfo mem i 0 0) mem)
  else none

def capacity (mem : Memory) : Nat := b.offset mem b.offsetSize + 1
def usedCapacity (mem : Memory) : Nat := b.offset mem 0
def get (mem : Memory) (p : Nat) : Bytes := bytesAt mem (b.pos mem p) (b.len mem p)

/-- The `memcpy` of `assign` and what follows it. -/
def write (mem : Memory) (p pos : Nat) (s : Bytes) : Memory := b.setInfo (copyBytes mem pos s) p pos s.length

def assign (mem : Memory) (p : Nat) (s : Bytes) : Bool × Memory :=
  if s.length ≤ b.len mem p then (true, b.write mem p (b.pos mem p) s)
  else if (b.usedCapacity mem + max s.length b.sliceSize) % 2 ^ 32 ≤ b.capacity mem then
    let pos := b.usedCapacity mem
    (true, b.write (b.setOffset mem 0 (b.usedCapacity mem + s.length)) p pos s)
  else (false, mem)

/-! ### What a bag keeps -/

variable {width : Nat}

def step (mem : Memory) (call : Call width) : Option Memory := some (b.assign mem call.p call.s).2

/-- The call does what its result says. -/
def Honest (mem : Memory) (call : Call width) : Prop :=
  if (b.assign mem call.p call.s).1 then
    b.get (b.assign mem call.p call.s).2 call.p = call.s ∧
      ∀ q : Fin width, q ≠ call.p → b.get (b.assign mem call.p call.s).2 q = b.get mem q
  else (b.assign mem call.p call.s).2 = mem

def Holds (mem : Memory) (p a : Nat) : Prop := b.pos mem p ≤ a ∧ a < b.pos mem p + b.len mem p

structure Separate (width : Nat) (mem : Memory) : Prop where
  header : ∀ p : Fin width, ∀ a, b.Holds mem p a → b.overhead width ≤ a
  apart : ∀ p q : Fin width, p ≠ q → ∀ a, b.Holds mem p a → ¬b.Holds mem q a
  used : b.usedCapacity mem ≤ b.capacity mem

def Sound (width : Nat) (mem : Memory) (calls : List (Call width)) : Prop :=
  b.Separate width mem ∧ Steps.Each b.step (fun mem call => b.Honest mem call ∧
  b.Separate width (b.assign mem call.p call.s).2) mem calls

def Bumps (mem : Memory) (call : Call width) : Prop :=
  b.len mem call.p < call.s.length ∧ (b.usedCapacity mem + max call.s.length b.sliceSize) % 2 ^ 32 ≤ b.capacity mem

end Stringbag

/-! ### Reading back -/

variable {h : Host} {n : Nat} {mem mem' : Memory}

theorem Host.place_place (lt : k < n) : h.place n (h.place n k) = k := by
  unfold place
  split <;> omega

theorem Host.load_congr {a : Int} (same : ∀ k < n, mem (a + k) = mem' (a + k)) : h.load n mem a = h.load n mem' a := by
  refine eq_of_field fun k lt => ?_
  rw [field_load _ _ lt, field_load _ _ lt, same _ (place_lt lt)]

theorem Host.load_store (mem : Memory) (a : Int) (x : BitVec (8 * n)) : h.load n (h.store n mem a x) a = x := by
  refine eq_of_field fun k lt => ?_
  have inside := place_lt (h := h) lt
  have offset : (a + h.place n k - a).toNat = h.place n k := by omega
  rw [field_load _ _ lt, store, if_pos (by omega), offset, place_place lt]

theorem Host.store_outside {a c : Int} (x : BitVec (8 * n)) (outside : c < a ∨ a + n ≤ c) : h.store n mem a x c = mem c :=
  if_neg (by omega)

theorem copyBytes_away {a c : Int} (t : Bytes) (outside : c < a ∨ a + t.length ≤ c) : copyBytes mem a t c = mem c :=
  if_neg (by omega)

theorem bytesAt_copyBytes (mem : Memory) (a : Int) (t : Bytes) : bytesAt (copyBytes mem a t) a t.length = t :=
  bytesAt_eq fun _ lt => RawKey.copyBytes_inside t lt

namespace Stringbag

variable {b : Stringbag} {a c x p : Nat}

theorem offset_lt (mem : Memory) (a : Nat) : b.offset mem a < 2 ^ (8 * b.offsetSize) := (b.host.load _ mem a).isLt

theorem offset_congr (same : ∀ c : Nat, a ≤ c → c < a + b.offsetSize → mem c = mem' c) : b.offset mem a = b.offset mem' a := by
  unfold offset
  rw [Host.load_congr fun k lt => ?_]
  have here := same (a + k) (by omega) (by omega)
  rwa [Nat.cast_add] at here

theorem offset_setOffset_mod : b.offset (b.setOffset mem a x) a = x % 2 ^ (8 * b.offsetSize) := by
  rw [offset, setOffset, Host.load_store, BitVec.toNat_ofNat]

theorem offset_setOffset (small : x < 2 ^ (8 * b.offsetSize)) : b.offset (b.setOffset mem a x) a = x := by
  rw [offset_setOffset_mod, Nat.mod_eq_of_lt small]

theorem setOffset_away (outside : c < a ∨ a + b.offsetSize ≤ c) : b.setOffset mem a x c = mem c :=
  Host.store_outside _ (by omega)

theorem offset_setOffset_away (outside : c + b.offsetSize ≤ a ∨ a + b.offsetSize ≤ c) :
    b.offset (b.setOffset mem a x) c = b.offset mem c :=
  offset_congr fun _ above below => setOffset_away (by omega)

/-! ### Where things are -/

theorem info_le (p : Nat) {width : Nat} (lt : p < width) : b.info p + 2 * b.offsetSize ≤ b.overhead width := by
  have le : (p + 1) * (2 * b.offsetSize) ≤ width * (2 * b.offsetSize) := Nat.mul_le_mul_right _ lt
  rw [Nat.succ_mul] at le
  unfold info overhead
  omega

theorem info_apart {p q : Nat} (ne : p ≠ q) :
    b.info p + 2 * b.offsetSize ≤ b.info q ∨ b.info q + 2 * b.offsetSize ≤ b.info p := by
  unfold info
  rcases Nat.lt_or_gt_of_ne ne with lt | gt
  · have le : (p + 1) * (2 * b.offsetSize) ≤ q * (2 * b.offsetSize) := Nat.mul_le_mul_right _ lt
    rw [Nat.succ_mul] at le
    omega
  · have le : (q + 1) * (2 * b.offsetSize) ≤ p * (2 * b.offsetSize) := Nat.mul_le_mul_right _ gt
    rw [Nat.succ_mul] at le
    omega

theorem le_info (p : Nat) : 2 * b.offsetSize ≤ b.info p := by
  unfold info emptySize
  omega

/-- The fields of the header, each with the bytes it takes. -/
theorem setInfo_away {l : Nat} (outside : c < b.info p ∨ b.info p + 2 * b.offsetSize ≤ c) : b.setInfo mem p a l c = mem c := by
  rw [setInfo, setOffset_away (by omega), setOffset_away (by omega)]

theorem offset_setInfo_away {l : Nat} (outside : c + b.offsetSize ≤ b.info p ∨ b.info p + 2 * b.offsetSize ≤ c) :
    b.offset (b.setInfo mem p a l) c = b.offset mem c :=
  offset_congr fun _ above below => setInfo_away (by omega)

theorem pos_setInfo {l : Nat} (small : a < 2 ^ (8 * b.offsetSize)) : b.pos (b.setInfo mem p a l) p = a := by
  rw [pos, setInfo, offset_setOffset_away (by omega), offset_setOffset small]

theorem len_setInfo {l : Nat} (small : l < 2 ^ (8 * b.offsetSize)) : b.len (b.setInfo mem p a l) p = l := offset_setOffset small

/-- What one write of the string `s` at `a` for slot `p` leaves of the bag. -/
structure Written (b : Stringbag) (width : Nat) (mem mem' : Memory) (p a : Nat) (s : Bytes) : Prop where
  usedCapacity : b.usedCapacity mem' = b.usedCapacity mem
  capacity : b.capacity mem' = b.capacity mem
  pos : b.pos mem' p = a
  len : b.len mem' p = s.length
  pos_other : ∀ q < width, q ≠ p → b.pos mem' q = b.pos mem q
  len_other : ∀ q < width, q ≠ p → b.len mem' q = b.len mem q
  get : b.get mem' p = s
  frame : ∀ c : Nat, b.overhead width ≤ c → c < a ∨ a + s.length ≤ c → mem' c = mem c

theorem written {width : Nat} {s : Bytes} (lt : p < width) (past : s = [] ∨ b.overhead width ≤ a)
    (low : a < 2 ^ (8 * b.offsetSize)) (short : s.length < 2 ^ (8 * b.offsetSize)) :
    Written b width mem (b.write mem p a s) p a s := by
  have inside := info_le (b := b) p lt
  have above := le_info (b := b) p
  have copied : ∀ c, c + b.offsetSize ≤ b.overhead width → b.offset (copyBytes mem a s) c = b.offset mem c := by
    intro c le
    refine offset_congr fun k _ below => copyBytes_away s ?_
    rcases past with rfl | past
    · rw [List.length_nil]
      omega
    · omega
  have head : ∀ c, c + b.offsetSize ≤ b.overhead width → (c + b.offsetSize ≤ b.info p ∨ b.info p + 2 * b.offsetSize ≤ c) →
      b.offset (b.write mem p a s) c = b.offset mem c := by
    intro c le outside
    rw [write, offset_setInfo_away outside, copied c le]
  have place : b.pos (b.write mem p a s) p = a := pos_setInfo low
  have length : b.len (b.write mem p a s) p = s.length := len_setInfo short
  refine ⟨head 0 (by omega) (by omega), ?_, place, length, ?_, ?_, ?_, ?_⟩
  · show b.offset _ _ + 1 = b.offset _ _ + 1
    rw [head b.offsetSize (by omega) (by omega)]
  · intro q ltq ne
    have insideq := info_le (b := b) q ltq
    have apart := info_apart (b := b) ne
    exact head _ (by omega) (by omega)
  · intro q ltq ne
    have insideq := info_le (b := b) q ltq
    have apart := info_apart (b := b) ne
    exact head _ (by omega) (by omega)
  · rw [get, place, length]
    calc bytesAt (b.write mem p a s) a s.length = bytesAt (copyBytes mem a s) a s.length := by
          refine bytesAt_congr fun k lt => ?_
          rcases past with rfl | past
          · exact absurd lt (Nat.not_lt_zero k)
          · have away : b.write mem p a s (a + k : Nat) = copyBytes mem a s (a + k : Nat) := setInfo_away (by omega)
            rwa [Nat.cast_add] at away
      _ = s := bytesAt_copyBytes mem a s
  · intro c ge outside
    rw [write, setInfo_away (by omega), copyBytes_away s (by omega)]

/-! ### The high-water mark -/

/-- `size_` is `used` as an offset. Strings lie between the header and `used`, no two at one byte. -/
structure Laid (b : Stringbag) (width cap used : Nat) (mem : Memory) : Prop where
  usedCapacity : b.usedCapacity mem = used % 2 ^ (8 * b.offsetSize)
  capacity : b.capacity mem = cap
  low : b.overhead width ≤ used
  high : used ≤ cap
  inside : ∀ p < width, b.len mem p ≠ 0 → b.overhead width ≤ b.pos mem p ∧ b.pos mem p + b.len mem p ≤ used
  apart : ∀ p < width, ∀ q < width, p ≠ q → b.len mem p ≠ 0 → b.len mem q ≠ 0 →
    b.pos mem p + b.len mem p ≤ b.pos mem q ∨ b.pos mem q + b.len mem q ≤ b.pos mem p

variable {width cap used : Nat} {s : Bytes}

theorem overhead_pos (b : Stringbag) (width : Nat) : 0 < b.overhead width := by
  have positive := b.offset_pos
  unfold overhead emptySize
  omega

theorem Laid.separate (laid : Laid b width cap used mem) : b.Separate width mem := by
  refine ⟨fun p a holds => ?_, fun p q ne a holds holds' => ?_, ?_⟩
  · obtain ⟨above, below⟩ := holds
    have inside := laid.inside p p.isLt (by omega)
    omega
  · obtain ⟨above, below⟩ := holds
    obtain ⟨above', below'⟩ := holds'
    have apart := laid.apart p p.isLt q q.isLt (Fin.val_ne_of_ne ne) (by omega) (by omega)
    omega
  · rw [laid.usedCapacity, laid.capacity]
    exact (Nat.mod_le _ _).trans laid.high

theorem get_frame {q : Nat} (place : b.pos mem' q = b.pos mem q) (length : b.len mem' q = b.len mem q)
    (same : ∀ c : Nat, b.pos mem q ≤ c → c < b.pos mem q + b.len mem q → mem' c = mem c) : b.get mem' q = b.get mem q := by
  rw [get, place, length]
  refine bytesAt_congr fun k lt => ?_
  have here := same (b.pos mem q + k) (by omega) (by omega)
  rwa [Nat.cast_add] at here

/-- A new mark leaves the strings. -/
theorem Laid.mark (laid : Laid b width cap used mem) {used' : Nat} (grows : used ≤ used') (high : used' ≤ cap) :
    Laid b width cap used' (b.setOffset mem 0 used') ∧ ∀ q < width, b.get (b.setOffset mem 0 used') q = b.get mem q ∧
      b.pos (b.setOffset mem 0 used') q = b.pos mem q ∧ b.len (b.setOffset mem 0 used') q = b.len mem q := by
  have place : ∀ q, b.pos (b.setOffset mem 0 used') q = b.pos mem q := fun q =>
    offset_setOffset_away (.inr (by have above := le_info (b := b) q; omega))
  have length : ∀ q, b.len (b.setOffset mem 0 used') q = b.len mem q := fun q =>
    offset_setOffset_away (.inr (by have above := le_info (b := b) q; omega))
  have positive := overhead_pos b width
  refine ⟨⟨offset_setOffset_mod, ?_, laid.low.trans grows, high, ?_, ?_⟩, fun q lt => ⟨?_, place q, length q⟩⟩
  · rw [← laid.capacity]
    exact congrArg (· + 1) (offset_setOffset_away (.inr (by omega)))
  · intro p lt filled
    rw [place, length] at *
    have inside := laid.inside p lt filled
    omega
  · intro p ltp q ltq ne filled filled'
    rw [length] at filled filled'
    rw [place, place, length, length]
    exact laid.apart p ltp q ltq ne filled filled'
  · refine get_frame (place q) (length q) fun c above below => setOffset_away (.inr ?_)
    have inside := laid.inside q lt (by omega)
    unfold overhead emptySize at inside
    omega

/-- A write for slot `p` of bytes no other string has. -/
theorem Laid.write (laid : Laid b width cap used mem) (lt : p < width) (wrote : Written b width mem mem' p a s)
    (within : s ≠ [] → b.overhead width ≤ a ∧ a + s.length ≤ used)
    (free : ∀ q < width, q ≠ p → s ≠ [] → b.len mem q ≠ 0 → b.pos mem q + b.len mem q ≤ a ∨ a + s.length ≤ b.pos mem q) :
    Laid b width cap used mem' ∧ ∀ q < width, q ≠ p → b.get mem' q = b.get mem q := by
  have free' : ∀ q < width, q ≠ p → b.len mem' p ≠ 0 → b.len mem q ≠ 0 →
      b.pos mem q + b.len mem q ≤ a ∨ a + s.length ≤ b.pos mem q := by
    intro q ltq ne filled filled'
    rw [wrote.len] at filled
    exact free q ltq ne (List.ne_nil_of_length_pos (Nat.pos_of_ne_zero filled)) filled'
  refine ⟨⟨wrote.usedCapacity.trans laid.usedCapacity, wrote.capacity.trans laid.capacity, laid.low, laid.high, ?_, ?_⟩, ?_⟩
  · intro q ltq filled
    by_cases same : q = p
    · subst same
      rw [wrote.len] at filled
      rw [wrote.pos, wrote.len]
      exact within (List.ne_nil_of_length_pos (Nat.pos_of_ne_zero filled))
    · rw [wrote.len_other q ltq same] at filled
      rw [wrote.pos_other q ltq same, wrote.len_other q ltq same]
      exact laid.inside q ltq filled
  · intro q ltq r ltr ne filled filled'
    by_cases same : q = p
    · subst same
      have other := wrote.len_other r ltr (Ne.symm ne)
      have apart := free' r ltr (Ne.symm ne) filled (by rwa [← other])
      rw [wrote.pos, wrote.len, wrote.pos_other r ltr (Ne.symm ne), other]
      exact apart.symm
    · by_cases same' : r = p
      · subst same'
        have other := wrote.len_other q ltq ne
        rw [wrote.pos, wrote.len, wrote.pos_other q ltq ne, other]
        exact free' q ltq ne filled' (by rwa [← other])
      · rw [wrote.len_other q ltq same] at filled
        rw [wrote.len_other r ltr same'] at filled'
        rw [wrote.pos_other q ltq same, wrote.len_other q ltq same, wrote.pos_other r ltr same', wrote.len_other r ltr same']
        exact laid.apart q ltq r ltr ne filled filled'
  · intro q ltq ne
    refine get_frame (wrote.pos_other q ltq ne) (wrote.len_other q ltq ne) fun c above below => ?_
    have inside := laid.inside q ltq (by omega)
    refine wrote.frame c (by omega) ?_
    by_cases empty : s = []
    · rw [empty, List.length_nil]
      omega
    · have apart := free q ltq ne empty (by omega)
      omega

/-! ### Calls -/

/-- Only offsets of fewer than four bytes have a maximum. -/
theorem maxSize_le (b : Stringbag) {c : Nat} (positive : 0 < c) (le : c ≤ b.maxSize) : c ≤ 2 ^ (8 * b.offsetSize) ∧ c ≤ 2 ^ 24 := by
  have possible := b.offset_pos
  unfold maxSize at le
  rcases Nat.lt_or_ge b.offsetSize 4 with small | large
  · have sizes : b.offsetSize = 1 ∨ b.offsetSize = 2 ∨ b.offsetSize = 3 := by omega
    rcases sizes with size | size | size
    · simp only [size] at le ⊢
      omega
    · simp only [size] at le ⊢
      omega
    · simp only [size] at le ⊢
      omega
  · obtain ⟨more, eq⟩ := Nat.exists_eq_add_of_le large
    have power : 2 ^ (8 * b.offsetSize) = 2 ^ 32 * 2 ^ (8 * more) := by rw [← Nat.pow_add, eq, Nat.mul_add]
    have one := Nat.two_pow_pos (8 * more)
    rw [power] at le
    omega

variable {call : Call width}

theorem assign_fits (fits : call.s.length ≤ b.len mem call.p) :
    b.assign mem call.p call.s = (true, b.write mem call.p (b.pos mem call.p) call.s) := if_pos fits

theorem assign_bumps (bumps : b.Bumps mem call) :
    b.assign mem call.p call.s =
      (true, b.write (b.setOffset mem 0 (b.usedCapacity mem + call.s.length)) call.p (b.usedCapacity mem) call.s) := by
  obtain ⟨long, room⟩ := bumps
  rw [assign, if_neg (by omega), if_pos room]

theorem assign_fails (fits : ¬call.s.length ≤ b.len mem call.p) (full : ¬b.Bumps mem call) :
    b.assign mem call.p call.s = (false, mem) := by
  rw [assign, if_neg fits, if_neg fun room => full ⟨by omega, room⟩]

theorem Honest.others (honest : b.Honest mem call) (ok : (b.assign mem call.p call.s).1 = true) :
    ∀ q : Fin width, q ≠ call.p → b.get (b.assign mem call.p call.s).2 q = b.get mem q := by
  rw [Honest, if_pos ok] at honest
  exact honest.2

theorem Laid.assign (laid : Laid b width cap used mem) (le : cap ≤ 2 ^ (8 * b.offsetSize)) (le' : cap ≤ 2 ^ 24)
    (mark : ¬(b.usedCapacity mem = 0 ∧ b.Bumps mem call)) :
    b.Honest mem call ∧ ∃ used' ≤ used + call.s.length, Laid b width cap used' (b.assign mem call.p call.s).2 := by
  have low := laid.low
  have high := laid.high
  have positive := overhead_pos b width
  by_cases fits : call.s.length ≤ b.len mem call.p
  · have within : call.s ≠ [] → b.overhead width ≤ b.pos mem call.p ∧ b.pos mem call.p + call.s.length ≤ used := by
      intro some_
      have filled := List.length_pos_of_ne_nil some_
      have inside := laid.inside call.p call.p.isLt (by omega)
      omega
    have past : call.s = [] ∨ b.overhead width ≤ b.pos mem call.p := or_iff_not_imp_left.mpr fun some_ => (within some_).1
    have wrote : Written b width mem _ call.p _ call.s :=
      written call.p.isLt past (offset_lt mem _) (Nat.lt_of_le_of_lt fits (offset_lt mem _))
    have free : ∀ q < width, q ≠ call.p → call.s ≠ [] → b.len mem q ≠ 0 →
        b.pos mem q + b.len mem q ≤ b.pos mem call.p ∨ b.pos mem call.p + call.s.length ≤ b.pos mem q := by
      intro q lt ne some_ filled
      have long := List.length_pos_of_ne_nil some_
      have apart := laid.apart q lt call.p call.p.isLt ne filled (by omega)
      omega
    obtain ⟨laid', others⟩ := laid.write call.p.isLt wrote within free
    rw [Honest, assign_fits fits, if_pos rfl]
    exact ⟨⟨wrote.get, fun q ne => others q q.isLt (Fin.val_ne_of_ne ne)⟩, used, Nat.le_add_right _ _, laid'⟩
  · by_cases bumps : b.Bumps mem call
    · have nonzero : b.usedCapacity mem ≠ 0 := fun zero => mark ⟨zero, bumps⟩
      have mod := laid.usedCapacity
      have below : used < 2 ^ (8 * b.offsetSize) := by
        refine Nat.lt_of_le_of_ne (high.trans le) ?_
        rintro rfl
        rw [Nat.mod_self] at mod
        exact nonzero mod
      rw [Nat.mod_eq_of_lt below] at mod
      have short := call.short
      have slice := b.slice_lt
      have room := bumps.2
      rw [mod, laid.capacity, Nat.mod_eq_of_lt (by omega)] at room
      obtain ⟨marked, same⟩ := laid.mark (Nat.le_add_right used call.s.length) (by omega)
      have wrote : Written b width (b.setOffset mem 0 (used + call.s.length)) _ call.p used call.s :=
        written call.p.isLt (.inr low) below (by omega)
      obtain ⟨laid', others⟩ := marked.write call.p.isLt wrote (fun _ => ⟨low, Nat.le_refl _⟩) fun q lt _ _ filled => by
        obtain ⟨_, place, length⟩ := same q lt
        rw [length] at filled
        have inside := laid.inside q lt filled
        omega
      rw [Honest, assign_bumps bumps, if_pos rfl, mod]
      exact ⟨⟨wrote.get, fun q ne => (others q q.isLt (Fin.val_ne_of_ne ne)).trans (same q q.isLt).1⟩, _, Nat.le_refl _, laid'⟩
    · rw [Honest, assign_fails fits bumps, if_neg Bool.false_ne_true]
      exact ⟨rfl, used, Nat.le_add_right _ _, laid⟩

/-- A string put at 0 lies over the header, or its length is no offset. -/
theorem bumps_zero (zero : b.usedCapacity mem = 0) (bumps : b.Bumps mem call) (honest : b.Honest mem call) :
    ¬b.Separate width (b.assign mem call.p call.s).2 := by
  intro separate
  have short := call.short
  have slice := b.slice_lt
  have ⟨long, room⟩ := bumps
  have most : b.capacity mem ≤ 2 ^ (8 * b.offsetSize) := offset_lt mem b.offsetSize
  rw [zero, Nat.zero_add, Nat.mod_eq_of_lt (by omega)] at room
  obtain ⟨after, wrote⟩ : ∃ after, after = b.write (b.setOffset mem 0 (0 + call.s.length)) call.p 0 call.s := ⟨_, rfl⟩
  have assigned : b.assign mem call.p call.s = (true, after) := by rw [assign_bumps bumps, zero, wrote]
  rw [Honest, assigned, if_pos rfl] at honest
  rw [assigned] at separate
  change b.Separate width after at separate
  have place : b.pos after call.p = 0 := by
    rw [wrote]
    exact pos_setInfo (Nat.two_pow_pos _)
  have length : b.len after call.p = call.s.length % 2 ^ (8 * b.offsetSize) := by
    rw [wrote]
    exact offset_setOffset_mod
  rcases Nat.lt_or_ge call.s.length (2 ^ (8 * b.offsetSize)) with small | large
  · rw [Nat.mod_eq_of_lt small] at length
    have header := separate.header call.p 0 ⟨Nat.le_of_eq place, by omega⟩
    have positive := overhead_pos b width
    omega
  · have whole : call.s.length = 2 ^ (8 * b.offsetSize) := by omega
    have read : (b.get after call.p).length = call.s.length := congrArg List.length honest.1
    rw [get, length_bytesAt, length, whole, Nat.mod_self] at read
    omega

/-! ### The constructor -/

theorem construct_eq {capacity : Nat} {mem₀ : Memory} (accepted : b.construct width capacity mem = some mem₀) :
    (b.overhead width ≤ capacity ∧ capacity ≤ b.maxSize) ∧ mem₀ = (List.range width).foldl (fun mem i => b.setInfo mem i 0 0)
      (b.setOffset (b.setOffset mem 0 (b.overhead width)) b.offsetSize (capacity - 1)) := by
  unfold construct at accepted
  dsimp only at accepted
  split at accepted
  · rename_i fits
    exact ⟨fits, (Option.some.inj accepted).symm⟩
  · cases accepted

theorem exists_construct {capacity : Nat} (fits : b.overhead width ≤ capacity) (most : capacity ≤ b.maxSize) (mem : Memory) :
    ∃ mem₀, b.construct width capacity mem = some mem₀ := ⟨_, if_pos ⟨fits, most⟩⟩

/-- The loop of the constructor. -/
theorem clear_infos (mem : Memory) (width : Nat) :
    (∀ c, c + b.offsetSize ≤ b.emptySize →
      b.offset ((List.range width).foldl (fun mem i => b.setInfo mem i 0 0) mem) c = b.offset mem c) ∧
    ∀ p < width, b.len ((List.range width).foldl (fun mem i => b.setInfo mem i 0 0) mem) p = 0 := by
  induction width with
  | zero => exact ⟨fun _ _ => rfl, fun p lt => absurd lt (Nat.not_lt_zero p)⟩
  | succ width ih =>
    obtain ⟨head, infos⟩ := ih
    rw [List.range_succ, List.foldl_append]
    refine ⟨fun c le => ?_, fun p lt => ?_⟩
    · have above := le_info (b := b) width
      unfold emptySize at le
      rw [List.foldl_cons, List.foldl_nil, offset_setInfo_away (.inl (by omega))]
      exact head c (by unfold emptySize; omega)
    · rw [List.foldl_cons, List.foldl_nil]
      rcases Nat.lt_succ_iff_lt_or_eq.mp lt with below | rfl
      · have apart := info_apart (b := b) (Nat.ne_of_lt below)
        rw [len, offset_setInfo_away (by omega)]
        exact infos p below
      · exact len_setInfo (Nat.two_pow_pos _)

theorem construct_laid {capacity : Nat} {mem₀ : Memory} (accepted : b.construct width capacity mem = some mem₀) :
    Laid b width capacity (b.overhead width) mem₀ ∧ (∀ p < width, b.len mem₀ p = 0) ∧
      capacity ≤ 2 ^ (8 * b.offsetSize) ∧ capacity ≤ 2 ^ 24 := by
  obtain ⟨⟨fits, most⟩, rfl⟩ := construct_eq accepted
  have positive := overhead_pos b width
  obtain ⟨le, le'⟩ := b.maxSize_le (Nat.lt_of_lt_of_le positive fits) most
  obtain ⟨head, infos⟩ := clear_infos (b := b) (b.setOffset (b.setOffset mem 0 (b.overhead width)) b.offsetSize (capacity - 1)) width
  refine ⟨⟨?_, ?_, Nat.le_refl _, fits, ?_, ?_⟩, infos, le, le'⟩
  · rw [usedCapacity, head 0 (by unfold emptySize; omega), offset_setOffset_away (by omega), offset_setOffset_mod]
  · rw [Stringbag.capacity, head _ (by unfold emptySize; omega), offset_setOffset (by omega)]
    omega
  · intro p lt filled
    exact absurd (infos p lt) filled
  · intro p lt q _ _ filled _
    exact absurd (infos p lt) filled

/-! ### Runs -/

theorem assign_of_step {next : Memory} (stepped : b.step mem call = some next) : next = (b.assign mem call.p call.s).2 :=
  (Option.some.inj stepped).symm

theorem Laid.sound_iff_marks {calls : List (Call width)} (laid : Laid b width cap used mem) (le : cap ≤ 2 ^ (8 * b.offsetSize))
    (le' : cap ≤ 2 ^ 24) :
    b.Sound width mem calls ↔ Steps.Each b.step (fun mem call => ¬(b.usedCapacity mem = 0 ∧ b.Bumps mem call)) mem calls := by
  rw [Sound, and_iff_right laid.separate]
  have same : ∀ mem (call : Call width), (∃ used, Laid b width cap used mem) →
      ((b.Honest mem call ∧ b.Separate width (b.assign mem call.p call.s).2) ↔ ¬(b.usedCapacity mem = 0 ∧ b.Bumps mem call)) := by
    rintro mem call ⟨used, laid⟩
    constructor
    · rintro ⟨honest, separate⟩ ⟨zero, bumps⟩
      exact bumps_zero zero bumps honest separate
    · intro mark
      obtain ⟨honest, _, _, laid'⟩ := laid.assign le le' mark
      exact ⟨honest, laid'.separate⟩
  refine Steps.each_congr same ?_ ⟨used, laid⟩ calls
  rintro mem call next ⟨used, laid⟩ mark stepped
  obtain ⟨_, used', _, laid'⟩ := laid.assign le le' mark
  rw [assign_of_step stepped]
  exact ⟨used', laid'⟩

theorem length_get (mem : Memory) (p : Nat) : (b.get mem p).length = b.len mem p := length_bytesAt ..

/-- Every string still to come finds its slot empty and its bytes free. -/
theorem Laid.accepts {calls : List (Call width)} {total : Nat} (laid : Laid b width cap used mem) (le : cap ≤ 2 ^ (8 * b.offsetSize))
    (le' : cap ≤ 2 ^ 24) (safe : cap = b.safeSize width total) (firsts : (calls.map Call.p).Nodup)
    (empty : ∀ call ∈ calls, b.len mem call.p = 0)
    (room : used + (calls.map fun call => call.s.length).sum ≤ b.overhead width + total) :
    Steps.Each b.step (fun mem call => (b.assign mem call.p call.s).1 = true) mem calls := by
  induction calls generalizing mem used with
  | nil => trivial
  | cons call calls ih =>
    rw [List.map_cons, List.nodup_cons] at firsts
    rw [List.map_cons, List.sum_cons] at room
    have none_ := empty call List.mem_cons_self
    have low := laid.low
    have positive := overhead_pos b width
    have one := b.slice_pos
    have slice := b.slice_lt
    unfold safeSize at safe
    have accepts : (b.assign mem call.p call.s).1 = true ∧ ¬(b.usedCapacity mem = 0 ∧ b.Bumps mem call) := by
      by_cases fits : call.s.length ≤ b.len mem call.p
      · rw [assign_fits fits]
        exact ⟨rfl, fun ⟨_, long, _⟩ => by omega⟩
      · have mark : b.usedCapacity mem = used := by
          rw [laid.usedCapacity]
          exact Nat.mod_eq_of_lt (by omega)
        have fresh : b.Bumps mem call := by
          refine ⟨by omega, ?_⟩
          rw [mark, laid.capacity, Nat.mod_eq_of_lt (by omega)]
          omega
        rw [assign_bumps fresh]
        exact ⟨rfl, fun ⟨zero, _⟩ => by omega⟩
    obtain ⟨honest, used', grown, laid'⟩ := laid.assign le le' accepts.2
    refine ⟨accepts.1, fun next stepped => ?_⟩
    rw [assign_of_step stepped]
    refine ih laid' firsts.2 (fun later mem_ => ?_) (by omega)
    have ne : later.p ≠ call.p := by
      rintro same
      exact firsts.1 (same ▸ List.mem_map_of_mem mem_)
    rw [← length_get, honest.others accepts.1 later.p ne, length_get]
    exact empty later (List.mem_cons_of_mem _ mem_)

/-- A bag keeps its strings apart as long as no string is put at a `size_` that has come back to 0, and one of the safe size has
room for all its strings. -/
theorem sound_iff {capacity : Nat} {mem₀ : Memory} (accepted : b.construct width capacity mem = some mem₀) :
    (∀ calls : List (Call width), b.Sound width mem₀ calls ↔
      Steps.Each b.step (fun mem call => ¬(b.usedCapacity mem = 0 ∧ b.Bumps mem call)) mem₀ calls) ∧
    ∀ total, capacity = b.safeSize width total → ∀ calls : List (Call width), (calls.map Call.p).Nodup →
      (calls.map fun call => call.s.length).sum ≤ total →
      Steps.Each b.step (fun mem call => (b.assign mem call.p call.s).1 = true) mem₀ calls := by
  obtain ⟨laid, empty, le, le'⟩ := construct_laid accepted
  refine ⟨fun calls => laid.sound_iff_marks le le', fun total safe calls firsts room => ?_⟩
  exact laid.accepts le le' safe firsts (fun call _ => empty call.p call.p.isLt) (Nat.add_le_add_left room _)

theorem Sound.second_others {first second : Call width} (sound : b.Sound width mem [first, second])
    (ok : (b.assign (b.assign mem first.p first.s).2 second.p second.s).1 = true) (ne : first.p ≠ second.p) :
    b.get (b.assign (b.assign mem first.p first.s).2 second.p second.s).2 first.p =
      b.get (b.assign mem first.p first.s).2 first.p := ((sound.2.2 _ rfl).1).1.others ok _ ne

/-- `stringbag<uint8_t>` on a little-endian host with 64-bit pointers. -/
def byteBag : Stringbag := ⟨⟨false, true⟩, 1, 8, by decide, by decide, by decide⟩

/-- A bag of the maximum capacity. -/
theorem sound_iff_full : ∃ mem₀, byteBag.construct 2 256 (fun _ => 0) = some mem₀ ∧
    (∀ calls : List (Call 2), byteBag.Sound 2 mem₀ calls ↔
      Steps.Each byteBag.step (fun mem call => ¬(byteBag.usedCapacity mem = 0 ∧ byteBag.Bumps mem call)) mem₀ calls) ∧
    ∀ total, 256 = byteBag.safeSize 2 total → ∀ calls : List (Call 2), (calls.map Call.p).Nodup →
      (calls.map fun call => call.s.length).sum ≤ total →
      Steps.Each byteBag.step (fun mem call => (byteBag.assign mem call.p call.s).1 = true) mem₀ calls :=
  (exists_construct (by decide) (by decide) _).imp fun _ accepted => ⟨accepted, sound_iff accepted⟩

def byteMemory : Memory := (byteBag.construct 2 256 fun _ => 0).getD fun _ => 0

def filling : Call 2 := ⟨⟨0, by decide⟩, List.replicate 250 97, by rw [List.length_replicate]; decide⟩
def wrapping : Call 2 := ⟨⟨1, by decide⟩, List.replicate 8 98, by rw [List.length_replicate]; decide⟩

set_option maxRecDepth 8000 in
theorem wrapping_overwrites :
    (byteBag.assign (byteBag.assign byteMemory filling.p filling.s).2 wrapping.p wrapping.s).1 = true ∧
      byteBag.len (byteBag.assign (byteBag.assign byteMemory filling.p filling.s).2 wrapping.p wrapping.s).2 filling.p ≠
        byteBag.len (byteBag.assign byteMemory filling.p filling.s).2 filling.p := by
  decide

/-- Slot 0 fills the bag, so slot 1 is put at 0. -/
theorem assign_over_header :
    byteBag.construct 2 256 (fun _ => 0) = some byteMemory ∧ ¬byteBag.Sound 2 byteMemory [filling, wrapping] := by
  constructor
  · have ⟨mem₀, accepted⟩ : ∃ mem₀, byteBag.construct 2 256 (fun _ => 0) = some mem₀ := exists_construct (by decide) (by decide) _
    rw [byteMemory, accepted, Option.getD_some]
  · intro sound
    obtain ⟨ok, changed⟩ := wrapping_overwrites
    have kept := congrArg List.length (sound.second_others ok (by decide))
    rw [length_get, length_get] at kept
    exact changed kept

end Stringbag

end Masstree.Tree
