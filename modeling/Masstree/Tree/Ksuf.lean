import Masstree.Lib.Partial
import Masstree.Lib.Rounding
import Masstree.Tree.Leaf
import Masstree.Tree.Stringbag

/-!
# Key suffixes in a leaf

A leaf has its suffixes in the bag behind its own members, or, once one does not fit there, in an external bag that is replaced by a
larger one when it is full.
-/

namespace Masstree.Tree
open Msgpack (Bytes)
open Rounding

variable {V : Type}

/-- `sizeof(uintptr_t)` and `sizeof(leaf<P>)`. A leaf with its bag is shorter than 128 lines of 64 bytes. -/
structure LeafLayout where
  host : Host
  sliceSize : Nat
  leafSize : Nat
  slice_ge : 2 ≤ sliceSize
  slice_lt : sliceSize < 2 ^ 31
  leaf_lt : leafSize + 191 < 128 * 64

/-- `extrasize64_`, `ksuf_` and `iksuf_`. -/
structure Ksufs where
  extrasize64 : Int
  ksuf : Option Memory
  iksuf : Memory

def Slot.hasKsuf (s : Slot V) : Bool := s.keylenx = ksufKeylenx

/-- The other positions that `assign_ksuf` copies for position `p`. -/
def Leaf.kept (l : Leaf V) (p : Nat) (initializing : Bool) : List Nat :=
  (if initializing then List.range p else l.perm.live).filter fun mp => mp ≠ p ∧ (l.slot mp).hasKsuf

def Stringbag.assignAll (b : Stringbag) : List (Nat × Bytes) → Memory → Option Memory
  | [], mem => some mem
  | (p, s) :: rest, mem => if (b.assign mem p s).1 then assignAll b rest (b.assign mem p s).2 else none

namespace LeafLayout

variable (y : LeafLayout)

def internal : Stringbag := ⟨y.host, 1, y.sliceSize, Nat.one_pos, Nat.zero_lt_of_lt y.slice_ge, y.slice_lt⟩

def external : Stringbag := ⟨y.host, 2, y.sliceSize, Nat.two_pos, Nat.zero_lt_of_lt y.slice_ge, y.slice_lt⟩

/-- `make`, and the constructor of the leaf in the allocated memory, from `iksuf_` on. -/
def make (ksufsize : Nat) (mem : Memory) : Option Ksufs :=
  let sz := iceil (y.leafSize + min ksufsize 128) 64
  let extrasize64 : Int := (sz / 64 : Nat) - ((y.leafSize + 63) / 64 : Nat)
  if sz % 64 = 0 ∧ sz / 64 < 128 then
    if 0 < extrasize64 then (y.internal.construct width (sz - y.leafSize) mem).map (⟨extrasize64, none, ·⟩)
    else some ⟨extrasize64, none, mem⟩
  else none

/-- What the bag in use has at position `p`. -/
def read (k : Ksufs) (p : Nat) : Option Bytes :=
  match k.ksuf with
  | some bag => some (y.external.get bag p)
  | none => if 0 < k.extrasize64 then some (y.internal.get k.iksuf p) else none

/-- `ksuf(p)`. `none` where the slot has no suffix, or there is no bag. -/
def ksuf (l : Leaf V) (k : Ksufs) (p : Nat) : Option Bytes := if (l.slot p).hasKsuf then y.read k p else none

def ksufUsedCapacity (k : Ksufs) : Nat :=
  match k.ksuf with
  | some bag => y.external.usedCapacity bag
  | none => if 0 < k.extrasize64 then y.internal.usedCapacity k.iksuf else 0

def assignInPlace (k : Ksufs) (p : Nat) (s : Bytes) : Option Ksufs :=
  let outer := k.ksuf.bind fun bag =>
    if (y.external.assign bag p s).1 then some { k with ksuf := some (y.external.assign bag p s).2 } else none
  let inner :=
    if 0 < k.extrasize64 ∧ (y.internal.assign k.iksuf p s).1 then
      some { k with iksuf := (y.internal.assign k.iksuf p s).2 }
    else none
  outer.or inner

/-- `sz` of `assign_ksuf` -/
def newCapacity (k : Ksufs) (csz len : Nat) : Nat :=
  let sz := iceilLog2 (y.external.safeSize width (csz + len))
  k.ksuf.elim sz fun bag => max sz (y.external.capacity bag)

/-- A new external bag in the allocated memory takes the suffix and those that are kept. -/
def reallocate (l : Leaf V) (k : Ksufs) (p : Nat) (s : Bytes) (initializing : Bool) (mem : Memory) : Option Ksufs :=
  ((l.kept p initializing).mapM fun mp => (y.ksuf l k mp).map (mp, ·)).bind fun kept =>
    (y.external.construct width (y.newCapacity k (kept.map fun e => e.2.length).sum s.length) mem).bind fun bag =>
      (y.external.assignAll (kept ++ [(p, s)]) bag).bind fun bag =>
        if l.modstate ≠ .remove then
          some { k with
            ksuf := some bag
            extrasize64 := if 0 ≤ k.extrasize64 then -k.extrasize64 - 1 else k.extrasize64 }
        else none

/-- `assign_ksuf`. `none` where an assertion fails, or a suffix is read that is not there. -/
def assignKsuf (l : Leaf V) (k : Ksufs) (p : Nat) (s : Bytes) (initializing : Bool) (mem : Memory) : Option Ksufs :=
  match y.assignInPlace k p s with
  | some k => some k
  | none => y.reallocate l k p s initializing mem

/-! ### Bags that are sound -/

/-- The bag in use is laid out. An external one has at most `2 ^ n` bytes and has been given no more than `total` of them. -/
def Sound (n : Nat) (k : Ksufs) (total : Nat) : Prop :=
  match k.ksuf with
  | some bag => k.extrasize64 < 0 ∧ ∃ cap used, y.external.Laid width cap used bag ∧ cap ≤ 2 ^ n ∧
      used ≤ y.external.overhead width + total
  | none => 0 ≤ k.extrasize64 ∧ (0 < k.extrasize64 → ∃ cap used, y.internal.Laid width cap used k.iksuf ∧ cap < 2 ^ 8)

/-- A string to be put at a `size_` that has come back to 0. -/
def Wraps (k : Ksufs) (p : Nat) (s : Bytes) : Prop :=
  ∃ bag, k.ksuf = some bag ∧ y.external.usedCapacity bag = 0 ∧ y.external.len bag p < s.length ∧
    max s.length y.sliceSize ≤ y.external.capacity bag

end LeafLayout

/-! ### Sizes -/

section Sizes
variable {x n : Nat}

theorem iceil_bounds (x : Nat) : iceil x 64 % 64 = 0 ∧ x ≤ iceil x 64 ∧ iceil x 64 ≤ x + 63 := by
  unfold iceil
  split <;> omega

end Sizes

/-! ### Assignments to a bag -/

namespace Stringbag

variable {b : Stringbag} {width cap used p : Nat} {mem : Memory} {s : Bytes}

/-- An assignment, with what becomes of the other strings. -/
theorem Laid.assign_spec (laid : Laid b width cap used mem) (le : cap ≤ 2 ^ (8 * b.offsetSize)) (le' : cap ≤ 2 ^ 24)
    (lt : p < width) (short : s.length < 2 ^ 31)
    (mark : ¬(b.usedCapacity mem = 0 ∧ b.len mem p < s.length ∧ max s.length b.sliceSize ≤ b.capacity mem)) :
    (∃ used' ≤ used + s.length, Laid b width cap used' (b.assign mem p s).2) ∧
      ((b.assign mem p s).1 = true →
        b.get (b.assign mem p s).2 p = s ∧ ∀ q < width, q ≠ p → b.get (b.assign mem p s).2 q = b.get mem q) := by
  have mark' : ¬(b.usedCapacity mem = 0 ∧ b.Bumps mem (⟨⟨p, lt⟩, s, short⟩ : Call width)) := by
    rintro ⟨zero, long, room⟩
    have slice := b.slice_lt
    rw [zero, Nat.zero_add, Nat.mod_eq_of_lt (by dsimp only; omega)] at room
    exact mark ⟨zero, long, room⟩
  obtain ⟨honest, laid'⟩ := laid.assign le le' mark'
  refine ⟨laid', fun ok => ?_⟩
  rw [Honest, if_pos ok] at honest
  exact ⟨honest.1, fun q ltq ne => honest.2 ⟨q, ltq⟩ (Fin.ne_of_val_ne ne)⟩

/-- A bag that is large enough takes all strings into slots that are empty. -/
theorem Laid.assignAll {entries : List (Nat × Bytes)} (laid : Laid b width cap used mem) (le : cap ≤ 2 ^ (8 * b.offsetSize))
    (le' : cap ≤ 2 ^ 24) (inside : ∀ e ∈ entries, e.1 < width) (firsts : (entries.map Prod.fst).Nodup)
    (empty : ∀ e ∈ entries, b.len mem e.1 = 0)
    (room : used + (entries.map fun e => e.2.length).sum + b.sliceSize ≤ cap + 1) :
    ∃ mem' used', b.assignAll entries mem = some mem' ∧ Laid b width cap used' mem' ∧
      used' ≤ used + (entries.map fun e => e.2.length).sum ∧ (∀ e ∈ entries, b.get mem' e.1 = e.2) ∧
      ∀ q < width, q ∉ entries.map Prod.fst → b.get mem' q = b.get mem q := by
  induction entries generalizing mem used with
  | nil => exact ⟨mem, used, rfl, laid, Nat.le_refl _, fun _ none_ => absurd none_ List.not_mem_nil, fun _ _ _ => rfl⟩
  | cons e entries ih =>
    obtain ⟨p, s⟩ := e
    rw [List.map_cons, List.nodup_cons] at firsts
    rw [List.map_cons, List.sum_cons] at room
    dsimp only at room
    have lt : p < width := inside (p, s) List.mem_cons_self
    have none_ : b.len mem p = 0 := empty (p, s) List.mem_cons_self
    have low := laid.low
    have positive := overhead_pos b width
    have slice := b.slice_pos
    have slice' := b.slice_lt
    have accepts : (b.assign mem p s).1 = true ∧
        ¬(b.usedCapacity mem = 0 ∧ b.len mem p < s.length ∧ max s.length b.sliceSize ≤ b.capacity mem) := by
      by_cases fits : s.length ≤ b.len mem p
      · rw [Stringbag.assign, if_pos fits]
        exact ⟨rfl, fun wraps => absurd wraps.2.1 (Nat.not_lt_of_le fits)⟩
      · have mark : b.usedCapacity mem = used := by
          rw [laid.usedCapacity]
          exact Nat.mod_eq_of_lt (by omega)
        have taken : (b.usedCapacity mem + max s.length b.sliceSize) % 2 ^ 32 ≤ b.capacity mem := by
          rw [mark, laid.capacity, Nat.mod_eq_of_lt (by omega)]
          omega
        rw [Stringbag.assign, if_neg fits, if_pos taken]
        exact ⟨rfl, fun wraps => absurd wraps.1 (by omega)⟩
    obtain ⟨⟨used', grown, laid'⟩, kept⟩ := laid.assign_spec le le' lt (by omega) accepts.2
    obtain ⟨got, others⟩ := kept accepts.1
    have empty' : ∀ e ∈ entries, b.len (b.assign mem p s).2 e.1 = 0 := by
      intro e later
      have ne : e.1 ≠ p := fun same => firsts.1 (List.mem_map.mpr ⟨e, later, same⟩)
      rw [← length_get, others e.1 (inside e (List.mem_cons_of_mem _ later)) ne, length_get]
      exact empty e (List.mem_cons_of_mem _ later)
    obtain ⟨mem', used'', all, laid'', grown', got', others'⟩ :=
      ih laid' (fun e later => inside e (List.mem_cons_of_mem _ later)) firsts.2 empty' (by omega)
    refine ⟨mem', used'', ?_, laid'', ?_, ?_, ?_⟩
    · rw [Stringbag.assignAll, if_pos accepts.1, all]
    · rw [List.map_cons, List.sum_cons]
      dsimp only
      omega
    · intro e mem_
      rcases List.mem_cons.mp mem_ with rfl | later
      · rw [others' p lt firsts.1, got]
      · exact got' e later
    · intro q ltq away
      rw [List.map_cons, List.mem_cons, not_or] at away
      rw [others' q ltq away.2, others q ltq away.1]

/-- What is longer than the largest bag is not taken. -/
theorem assign_long (size : b.offsetSize ≤ 2) (long : 2 ^ 16 < s.length) (short : s.length < 2 ^ 31) (mem : Memory) (p : Nat) :
    (b.assign mem p s).1 = false := by
  have powers : 2 ^ (8 * b.offsetSize) ≤ 2 ^ 16 := Nat.pow_le_pow_right (by decide) (by omega)
  have length : b.len mem p < 2 ^ (8 * b.offsetSize) := offset_lt mem _
  have used : b.usedCapacity mem < 2 ^ (8 * b.offsetSize) := offset_lt mem _
  have capacity : b.capacity mem ≤ 2 ^ (8 * b.offsetSize) := offset_lt mem _
  have slice := b.slice_lt
  have sum : (b.usedCapacity mem + max s.length b.sliceSize) % 2 ^ 32 = b.usedCapacity mem + max s.length b.sliceSize :=
    Nat.mod_eq_of_lt (by omega)
  unfold assign
  rw [if_neg (by omega), sum, if_neg (by omega)]

end Stringbag

/-! ### The leaf's bags -/

theorem mem_kept {l : Leaf V} {p q : Nat} {initializing : Bool} : q ∈ l.kept p initializing ↔
    q ∈ (if initializing then List.range p else l.perm.live) ∧ q ≠ p ∧ (l.slot q).hasKsuf = true := by
  unfold Leaf.kept
  rw [List.mem_filter, decide_eq_true_iff]

def Leaf.ksufBytes (l : Leaf V) (ps : List Nat) : Nat :=
  ((ps.filter fun p => (l.slot p).hasKsuf).map fun p => (l.slot p).ksuf.length).sum

namespace LeafLayout

variable {y : LeafLayout} {n total p : Nat} {k k' : Ksufs} {l : Leaf V} {s : Bytes} {initializing : Bool} {mem : Memory}

theorem sound_external {bag : Memory} (at_ : k.ksuf = some bag) : y.Sound n k total ↔ k.extrasize64 < 0 ∧
    ∃ cap used, y.external.Laid width cap used bag ∧ cap ≤ 2 ^ n ∧ used ≤ y.external.overhead width + total := by
  rw [Sound, at_]

theorem sound_internal (none_ : k.ksuf = none) : y.Sound n k total ↔ 0 ≤ k.extrasize64 ∧
    (0 < k.extrasize64 → ∃ cap used, y.internal.Laid width cap used k.iksuf ∧ cap < 2 ^ 8) := by
  rw [Sound, none_]

theorem read_external {bag : Memory} (at_ : k.ksuf = some bag) (p : Nat) : y.read k p = some (y.external.get bag p) := by
  rw [read, at_]

theorem read_internal (none_ : k.ksuf = none) (inside : 0 < k.extrasize64) (p : Nat) :
    y.read k p = some (y.internal.get k.iksuf p) := by
  rw [read, none_]
  exact if_pos inside

theorem Sound.mono {total' : Nat} (sound : y.Sound n k total) (le : total ≤ total') : y.Sound n k total' := by
  cases at_ : k.ksuf with
  | none => exact (sound_internal at_).mpr ((sound_internal at_).mp sound)
  | some bag =>
    obtain ⟨dead, cap, used, laid, most, few⟩ := (sound_external at_).mp sound
    exact (sound_external at_).mpr ⟨dead, cap, used, laid, most, by omega⟩

theorem overhead_external : y.external.overhead width = 64 := rfl
theorem overhead_internal : y.internal.overhead width = 32 := rfl
theorem maxSize_external : y.external.maxSize = 2 ^ 16 := by
  show ((2 ^ (8 * 2) - 1) % 2 ^ 32 + 1) % 2 ^ 32 = 2 ^ 16
  decide
theorem maxSize_internal : y.internal.maxSize = 2 ^ 8 := by
  show ((2 ^ (8 * 1) - 1) % 2 ^ 32 + 1) % 2 ^ 32 = 2 ^ 8
  decide
theorem safeSize_external (len : Nat) : y.external.safeSize width len = 64 + len + y.sliceSize - 1 := by
  rw [Stringbag.safeSize, overhead_external]
  rfl

/-- A bag that cannot be full to the last offset does not wrap. -/
theorem Sound.not_wraps (sound : y.Sound n k total) (few : n < 16 ∨ 64 + total < 2 ^ 16) : ¬y.Wraps k p s := by
  rintro ⟨bag, at_, zero, -⟩
  obtain ⟨-, cap, used, laid, most, given⟩ := (sound_external at_).mp sound
  have below : used < 2 ^ 16 := by
    rcases few with small | small
    · have powers : 2 ^ n < 2 ^ 16 := Nat.pow_lt_pow_right (by decide) small
      exact Nat.lt_of_le_of_lt (laid.high.trans most) powers
    · rw [overhead_external] at given
      omega
  have mark : used = 0 := by
    rw [← Nat.mod_eq_of_lt below]
    exact laid.usedCapacity.symm.trans zero
  have low := laid.low
  rw [overhead_external] at low
  omega

/-- The leaf's own bag, if it has one, is empty. -/
theorem make_spec (y : LeafLayout) (ksufsize n : Nat) (mem : Memory) : ∃ k, y.make ksufsize mem = some k ∧ y.Sound n k 0 := by
  obtain ⟨whole, least, most⟩ := iceil_bounds (y.leafSize + min ksufsize 128)
  have small := y.leaf_lt
  have lines : iceil (y.leafSize + min ksufsize 128) 64 % 64 = 0 ∧ iceil (y.leafSize + min ksufsize 128) 64 / 64 < 128 :=
    ⟨whole, by omega⟩
  have few : iceil (y.leafSize + min ksufsize 128) 64 ≤ y.leafSize + 191 := by omega
  have enough : y.leafSize ≤ iceil (y.leafSize + min ksufsize 128) 64 := by omega
  unfold make
  dsimp only
  rw [if_pos lines]
  generalize iceil (y.leafSize + min ksufsize 128) 64 = sz at *
  by_cases extra : (0 : Int) < (sz / 64 : Nat) - ((y.leafSize + 63) / 64 : Nat)
  · rw [if_pos extra]
    have room : y.internal.overhead width ≤ sz - y.leafSize ∧ sz - y.leafSize ≤ y.internal.maxSize := by
      rw [overhead_internal, maxSize_internal]
      omega
    obtain ⟨bag, made⟩ := Stringbag.exists_construct room.1 room.2 mem
    obtain ⟨laid, -⟩ := Stringbag.construct_laid made
    rw [made]
    refine ⟨_, rfl, (sound_internal rfl).mpr ⟨Int.le_of_lt extra, fun _ => ⟨_, _, laid, by omega⟩⟩⟩
  · rw [if_neg extra]
    exact ⟨_, rfl, (sound_internal rfl).mpr ⟨by dsimp only; omega, fun more => absurd more extra⟩⟩

/-- The bag that takes a suffix keeps the others. -/
theorem assignInPlace_spec (sound : y.Sound n k total) (le : n ≤ 16) (lt : p < width) (short : s.length < 2 ^ 31)
    (mark : ¬y.Wraps k p s) (placed : y.assignInPlace k p s = some k') :
    y.Sound n k' (total + s.length) ∧ y.read k' p = some s ∧ ∀ q < width, q ≠ p → y.read k' q = y.read k q := by
  have powers : 2 ^ n ≤ 2 ^ 16 := Nat.pow_le_pow_right (by decide) le
  unfold assignInPlace at placed
  cases at_ : k.ksuf with
  | some bag =>
    obtain ⟨dead, cap, used, laid, most, given⟩ := (sound_external at_).mp sound
    have gone : ¬(0 < k.extrasize64 ∧ (y.internal.assign k.iksuf p s).1 = true) := fun both => by omega
    rw [at_, if_neg gone] at placed
    dsimp only [Option.bind_some] at placed
    rw [Option.or_none] at placed
    split at placed
    · rename_i ok
      obtain rfl := Option.some.inj placed
      obtain ⟨⟨used', grown, laid'⟩, kept⟩ := laid.assign_spec (most.trans powers) (by omega) lt short
        (fun wraps => mark ⟨bag, at_, wraps⟩)
      obtain ⟨got, others⟩ := kept ok
      refine ⟨(sound_external rfl).mpr ⟨dead, cap, used', laid', most, by omega⟩, ?_, fun q ltq ne => ?_⟩
      · rw [read_external rfl, got]
      · rw [read_external rfl, read_external at_, others q ltq ne]
    · cases placed
  | none =>
    obtain ⟨alive, there⟩ := (sound_internal at_).mp sound
    rw [at_] at placed
    dsimp only [Option.bind_none] at placed
    rw [Option.none_or] at placed
    split at placed
    · rename_i ok
      obtain rfl := Option.some.inj placed
      obtain ⟨cap, used, laid, most⟩ := there ok.1
      have low := laid.low
      have high := laid.high
      rw [overhead_internal] at low
      have full : y.internal.usedCapacity k.iksuf = used := laid.usedCapacity.trans (Nat.mod_eq_of_lt (by
        show used < 2 ^ 8
        omega))
      obtain ⟨⟨used', -, laid'⟩, kept⟩ := laid.assign_spec (Nat.le_of_lt most) (by omega) lt short
        (fun wraps => absurd wraps.1 (by omega))
      obtain ⟨got, others⟩ := kept ok.2
      refine ⟨(sound_internal rfl).mpr ⟨alive, fun _ => ⟨cap, used', laid', most⟩⟩, ?_, fun q ltq ne => ?_⟩
      · show (if 0 < k.extrasize64 then _ else _) = _
        rw [if_pos ok.1, got]
      · rw [read_internal at_ ok.1, ← others q ltq ne]
        exact if_pos ok.1
    · cases placed

/-- What is copied, and the new suffix, fit in the new bag. -/
theorem reallocate_spec (sound : y.Sound n k total) (le : n ≤ 16) (lt : p < width)
    (reads : ∀ q ∈ l.kept p initializing, y.read k q = some (l.slot q).ksuf) (distinct : (l.kept p initializing).Nodup)
    (inside : ∀ q ∈ l.kept p initializing, q < width) {csz : Nat}
    (size : ((l.kept p initializing).map fun q => (l.slot q).ksuf.length).sum = csz)
    (fits : y.external.safeSize width (csz + s.length) ≤ 2 ^ n) (mode : l.modstate ≠ .remove) (mem : Memory) :
    ∃ k', y.reallocate l k p s initializing mem = some k' ∧ y.Sound n k' (csz + s.length) ∧ y.read k' p = some s ∧
      ∀ q ∈ l.kept p initializing, y.read k' q = some (l.slot q).ksuf := by
  have powers : 2 ^ n ≤ 2 ^ 16 := Nat.pow_le_pow_right (by decide) le
  have slice := y.slice_ge
  have safe := safeSize_external (y := y) (csz + s.length)
  have some_ : y.external.safeSize width (csz + s.length) ≠ 0 := by omega
  have copied : ((l.kept p initializing).mapM fun mp => (y.ksuf l k mp).map (mp, ·)) =
      some ((l.kept p initializing).map fun q => (q, (l.slot q).ksuf)) := by
    refine Partial.mapM_eq_some fun q mem_ => ?_
    rw [ksuf, if_pos (mem_kept.mp mem_).2.2, reads q mem_, Option.map_some]
  have total_ : (((l.kept p initializing).map fun q => (q, (l.slot q).ksuf)).map fun e => e.2.length).sum = csz := by
    rw [List.map_map]
    exact size
  obtain ⟨cap, capacity, least, most⟩ : ∃ cap, y.newCapacity k csz s.length = cap ∧
      y.external.safeSize width (csz + s.length) ≤ cap ∧ cap ≤ 2 ^ n := by
    refine ⟨_, rfl, ?_⟩
    have least := le_iceilLog2 some_
    have most := iceilLog2_le some_ fits
    unfold newCapacity
    cases at_ : k.ksuf with
    | none => exact ⟨least, most⟩
    | some bag =>
      obtain ⟨-, cap, used, laid, small, -⟩ := (sound_external at_).mp sound
      show _ ≤ max _ (y.external.capacity bag) ∧ max _ (y.external.capacity bag) ≤ 2 ^ n
      rw [laid.capacity]
      exact ⟨least.trans (Nat.le_max_left ..), Nat.max_le.mpr ⟨most, small⟩⟩
  have room : y.external.overhead width ≤ cap ∧ cap ≤ y.external.maxSize := by
    rw [overhead_external, maxSize_external]
    omega
  obtain ⟨bag, made⟩ := Stringbag.exists_construct room.1 room.2 mem
  obtain ⟨laid, empty, limit, limit'⟩ := Stringbag.construct_laid made
  have sum : (((l.kept p initializing).map fun q => (q, (l.slot q).ksuf)) ++ [(p, s)] |>.map fun e => e.2.length).sum = csz
    + s.length := by
    rw [List.map_append, List.sum_append, total_]
    rfl
  have firsts : (((l.kept p initializing).map fun q => (q, (l.slot q).ksuf)) ++ [(p, s)]).map Prod.fst =
    l.kept p initializing ++ [p] := by
    rw [List.map_append, List.map_map]
    exact congrArg (· ++ [p]) (List.map_id _)
  have apart : p ∉ l.kept p initializing := fun mem_ => (mem_kept.mp mem_).2.1 rfl
  have inside' : ∀ e ∈ ((l.kept p initializing).map fun q => (q, (l.slot q).ksuf)) ++ [(p, s)], e.1 < width := by
    intro e mem_
    have first : e.1 ∈ l.kept p initializing ++ [p] := firsts ▸ List.mem_map_of_mem mem_
    rcases List.mem_append.mp first with mem_ | mem_
    · exact inside _ mem_
    · rwa [List.mem_singleton.mp mem_]
  obtain ⟨bag', used', assigned, laid', grown, got, -⟩ := laid.assignAll limit limit' inside'
    (by rw [firsts]; exact List.nodup_append.mpr ⟨distinct, List.nodup_singleton p, fun a mem_ b mem' => by
      rintro rfl
      exact apart (List.mem_singleton.mp mem' ▸ mem_)⟩)
    (fun e mem_ => empty e.1 (inside' e mem_))
    (by
      rw [sum, overhead_external]
      show _ + y.sliceSize ≤ cap + 1
      omega)
  rw [sum] at grown
  refine ⟨{ k with ksuf := some bag', extrasize64 := if 0 ≤ k.extrasize64 then -k.extrasize64 - 1 else k.extrasize64 }, ?_,
    (sound_external rfl).mpr ⟨?_, cap, used', laid', most, grown⟩, ?_, ?_⟩
  · rw [reallocate, copied, Option.bind_some, total_, capacity, made, Option.bind_some, assigned, Option.bind_some, if_pos mode]
  · dsimp only
    split <;> omega
  · rw [read_external rfl, got (p, s) (List.mem_append_right _ List.mem_cons_self)]
  · intro q mem_
    rw [read_external rfl, got (q, (l.slot q).ksuf) (List.mem_append_left _ (List.mem_map_of_mem mem_))]

/-- `assign_ksuf` never fails where the suffixes fit and no string is put over the header. -/
theorem assignKsuf_spec (initializing : Bool) (sound : y.Sound n k total) (le : n ≤ 16) (lt : p < width)
    (reads : ∀ q ∈ l.kept p initializing, y.read k q = some (l.slot q).ksuf) (distinct : (l.kept p initializing).Nodup)
    (inside : ∀ q ∈ l.kept p initializing, q < width) {csz : Nat}
    (size : ((l.kept p initializing).map fun q => (l.slot q).ksuf.length).sum = csz)
    (fits : y.external.safeSize width (csz + s.length) ≤ 2 ^ n) (few : csz ≤ total) (mode : l.modstate ≠ .remove)
    (mark : ¬y.Wraps k p s) (mem : Memory) :
    ∃ k', y.assignKsuf l k p s initializing mem = some k' ∧ y.Sound n k' (total + s.length) ∧ y.read k' p = some s ∧
      ∀ q ∈ l.kept p initializing, y.read k' q = some (l.slot q).ksuf := by
  unfold assignKsuf
  cases placed : y.assignInPlace k p s with
  | some k' =>
    have powers : 2 ^ n ≤ 2 ^ 16 := Nat.pow_le_pow_right (by decide) le
    have slice := y.slice_ge
    rw [safeSize_external] at fits
    obtain ⟨sound', got, others⟩ := assignInPlace_spec sound le lt (by omega) mark placed
    refine ⟨k', rfl, sound', got, fun q mem_ => ?_⟩
    rw [others q (inside q mem_) (mem_kept.mp mem_).2.1, reads q mem_]
  | none =>
    obtain ⟨k', moved, sound', rest⟩ := reallocate_spec sound le lt reads distinct inside size fits mode mem
    exact ⟨k', moved, sound'.mono (by omega), rest⟩

/-! ### Suffixes that are too long -/

/-- `assign_ksuf` fails whatever the leaf has, as the new bag would be too large. -/
theorem assignKsuf_long (long : 2 ^ 16 < s.length) (short : s.length < 2 ^ 31) (l : Leaf V) (k : Ksufs) (p : Nat) (initializing : Bool)
    (mem : Memory) : y.assignKsuf l k p s initializing mem = none := by
  have outer : ∀ bag, (y.external.assign bag p s).1 = false := fun bag => Stringbag.assign_long (Nat.le_refl 2) long short bag p
  have inner : (y.internal.assign k.iksuf p s).1 = false := Stringbag.assign_long (Nat.le_succ 1) long short k.iksuf p
  have placed : y.assignInPlace k p s = none := by
    unfold assignInPlace
    cases k.ksuf <;> simp [outer, inner]
  have large : ∀ csz, ¬(y.external.overhead width ≤ y.newCapacity k csz s.length ∧
    y.newCapacity k csz s.length ≤ y.external.maxSize) := by
    intro csz fits
    have slice := y.slice_ge
    have safe := safeSize_external (y := y) (csz + s.length)
    have least := le_iceilLog2 (show y.external.safeSize width (csz + s.length) ≠ 0 by omega)
    have capacity : iceilLog2 (y.external.safeSize width (csz + s.length)) ≤ y.newCapacity k csz s.length := by
      unfold newCapacity
      cases k.ksuf with
      | none => exact Nat.le_refl _
      | some bag => exact Nat.le_max_left _ _
    rw [maxSize_external] at fits
    omega
  unfold assignKsuf reallocate
  rw [placed]
  dsimp only
  refine Option.bind_eq_none_iff.mpr fun kept _ => ?_
  rw [Stringbag.construct, if_neg (large _), Option.bind_none]

end LeafLayout

end Masstree.Tree
