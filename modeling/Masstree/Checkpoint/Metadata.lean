import Masstree.Checkpoint.Files
import Masstree.Text.JsonRoundTrip

/-!
# The generation of a checkpoint

What `commit_checkpoint` leaves in `kvd-ckp-gen`, and what recovery takes from a text of it.
-/

namespace Masstree

open Msgpack (Bytes Value Fault Keyed)
open JsonText (Libc LegibleString ReadableString Rekeyed RekeyedItems parse parse_unparse reread rereadEntries rereadInt rereadItems
  rereadKeys rereadString rereadString_readable rereadString_self unparse)

/-! ### What a value says -/

/-- `strtoul` with base 0, and the number of bytes it takes. Conversion of a double to `uint64_t`. -/
structure Conversions where
  strtoul : Bytes → UInt64 × Nat
  ofDouble : Nat → UInt64

namespace Msgpack.Value

def truthy : Value → Bool
  | .null => false
  | .bool b => b
  | .int x => x ≠ 0
  | .unsigned x => x ≠ 0
  | .double bits => bits ≠ 0
  | .str s => s ≠ []
  | .array _ => true
  | .object _ => true

def isNumber : Value → Bool
  | .int _ | .unsigned _ | .double _ => true
  | _ => false

def toU64 (lib : Libc) (conversions : Conversions) : Value → UInt64
  | .null => 0
  | .bool b => if b then 1 else 0
  | .int x => .ofInt x
  | .unsigned x => .ofNat x
  | .double bits => conversions.ofDouble bits
  | .str s =>
    let b := s.takeWhile (· ≠ 0)
    let (x, read) := conversions.strtoul b
    if read = s.length then x else conversions.ofDouble (lib.strtod b)
  | .array vs => .ofNat vs.length
  | .object entries => .ofNat entries.length

def get (j : Value) (key : Bytes) : Value := (j.field key).getD .null

end Msgpack.Value

/-! ### The file -/

/-- `ckp_gen`, `rec_ckp_min_epoch` and `rec_ckp_max_epoch` -/
@[ext]
structure CkpGen where
  generation : UInt64 := 0
  minEpoch : UInt64 := 0
  maxEpoch : UInt64 := 0
deriving DecidableEq

/-- The pivots between the threads, as `push_back` puts them into a null. -/
def pivots (nckthreads : Nat) (pv : List Bytes) : Value :=
  if nckthreads ≤ 1 then .null else .array ((List.range' 1 (nckthreads - 1)).map fun i => .str (pv.getD i []))

def prepareCheckpoint (ckp : CkpGen) (nckthreads : Nat) (pv : List Bytes) : Value :=
  .object [(ascii "kvdb_checkpoint", .bool true), (ascii "min_epoch", .unsigned ckp.minEpoch.toNat),
    (ascii "max_epoch", .unsigned ckp.maxEpoch.toNat), (ascii "generation", .unsigned ckp.generation.toNat),
    (ascii "nckthreads", .int nckthreads), (ascii "pivots", pivots nckthreads pv)]

def commitCheckpoint (lib : Libc) (ckpj : Value) : Bytes := unparse lib {} ckpj

def CkpGen.ofJson (lib : Libc) (conversions : Conversions) (ckpj : Value) : CkpGen :=
  if ckpj.truthy ∧ (ckpj.get (ascii "kvdb_checkpoint")).truthy ∧ (ckpj.get (ascii "generation")).isNumber then
    { generation := (ckpj.get (ascii "generation")).toU64 lib conversions
      minEpoch := (ckpj.get (ascii "min_epoch")).toU64 lib conversions
      maxEpoch := (ckpj.get (ascii "max_epoch")).toU64 lib conversions }
  else {}

def recoverCkpGen (lib : Libc) (conversions : Conversions) (text : Bytes) : Except Fault CkpGen :=
  (parse lib text).map fun ckpj => .ofJson lib conversions (ckpj.getD .null)

def PivotsReadable (nckthreads : Nat) (pv : List Bytes) : Prop := ∀ i, 1 ≤ i → i < nckthreads → ReadableString (pv.getD i [])

/-! ### Reading back -/

section

variable {lib : Libc} {conversions : Conversions} {ckp : CkpGen} {nckthreads size : Nat} {pv ss : List Bytes}

-- `all`, since `decide` tries a quantifier over characters on every character
theorem ascii_legible {s : String} (plain : s.toList.all fun ch => 0 < ch.toNat ∧ ch.toNat < 0x80) : LegibleString (ascii s) := by
  have range : ∀ ch ∈ s.toList, 0 < ch.toNat ∧ ch.toNat < 0x80 := fun ch mem => of_decide_eq_true (List.all_eq_true.mp plain ch mem)
  refine ⟨s.toList, ?_, fun ch mem => ?_⟩
  · rw [ascii, List.map_eq_flatMap]
    exact List.flatMap_congr fun ch mem => (Utf8.encode_one (range ch mem).2).symm
  · have small := range ch mem
    omega

theorem reread_field {s : String} (plain : s.toList.all fun ch => 0 < ch.toNat ∧ ch.toNat < 0x80) :
    rereadString (ascii s) = some (ascii s) :=
  rereadString_self.mpr (ascii_legible plain)

theorem rereadItems_strings : (∃ vs, rereadItems lib size (ss.map .str) = some vs) ↔ ∀ s ∈ ss, ReadableString s := by
  induction ss with
  | nil => simp [rereadItems]
  | cons s ss ih =>
    rw [List.forall_mem_cons, ← ih, ← rereadString_readable, List.map_cons, rereadItems, reread]
    constructor
    · rintro ⟨vs, reads⟩
      obtain ⟨v, first, reads⟩ := Option.bind_eq_some_iff.mp reads
      obtain ⟨t, string, -⟩ := Option.map_eq_some_iff.mp first
      obtain ⟨vs', others, -⟩ := Option.map_eq_some_iff.mp reads
      exact ⟨⟨t, string⟩, vs', others⟩
    · rintro ⟨⟨t, string⟩, vs, others⟩
      exact ⟨.str t :: vs, by rw [string, others]; rfl⟩

theorem reread_pivots : (∃ v, reread lib 1 1 (pivots nckthreads pv) = some v) ↔ PivotsReadable nckthreads pv := by
  unfold pivots PivotsReadable
  split_ifs with alone
  · exact iff_of_true ⟨.null, rfl⟩ fun i low high => by omega
  · have strings : ((List.range' 1 (nckthreads - 1)).map fun i => Value.str (pv.getD i [])) =
        ((List.range' 1 (nckthreads - 1)).map fun i => pv.getD i []).map .str := by rw [List.map_map]; rfl
    have array : ∀ items : Option (List Value), (∃ v, items.map Value.array = some v) ↔ ∃ vs, items = some vs := by simp
    rw [reread, if_neg (by decide), array, strings, rereadItems_strings, List.forall_mem_map]
    simp only [List.mem_range'_1]
    exact ⟨fun all i low high => all i ⟨low, by omega⟩, fun all i range => all i range.1 (by omega)⟩

theorem toU64_rereadInt (x : UInt64) : (rereadInt x.toNat).toU64 lib conversions = x := by
  have inRange : ((x.toNat : Int) % 2 ^ 64).toNat = x.toNat := by
    have := x.toNat_lt
    omega
  unfold rereadInt
  split_ifs
  · exact UInt64.ofNat_toNat
  · exact (congrArg UInt64.ofNat inRange).trans UInt64.ofNat_toNat

theorem isNumber_rereadInt (x : Int) : (rereadInt x).isNumber := by
  unfold rereadInt
  split_ifs <;> rfl

def ckpKeys : List Bytes := ["kvdb_checkpoint", "min_epoch", "max_epoch", "generation", "nckthreads", "pivots"].map ascii

theorem keyed_ckpKeys : Keyed ckpKeys := by decide

theorem prepareCheckpoint_holds (threads : nckthreads < 2 ^ 31) (lengths : ∀ p ∈ pv, p.length < 2 ^ 31) :
    (prepareCheckpoint ckp nckthreads pv).Holds := by
  have pivotsHold : (pivots nckthreads pv).Holds := by
    unfold pivots
    split_ifs
    · exact .null
    · refine .array (by rw [List.length_map, List.length_range']; omega) (List.forall_mem_map.mpr fun i _ => .str ?_)
      rw [List.getD_eq_getElem?_getD]
      cases found : pv[i]? with
      | none => decide
      | some p => exact lengths p (List.mem_of_getElem? found)
  refine .object (show 6 < 2 ^ 31 by decide) ?_ keyed_ckpKeys ?_ ?_
  · show ckpKeys.Nodup
    decide
  · simp [ascii]
  · simp only [List.forall_mem_cons, List.not_mem_nil, false_imp_iff, implies_true, and_true]
    exact ⟨.bool true, .unsigned ckp.minEpoch.toNat_lt, .unsigned ckp.maxEpoch.toNat_lt, .unsigned ckp.generation.toNat_lt,
      .int (by omega), pivotsHold⟩

theorem rekeyedItems_strings : RekeyedItems (ss.map .str) := by
  induction ss with
  | nil => exact trivial
  | cons s ss ih => exact ⟨trivial, ih⟩

theorem prepareCheckpoint_rekeyed : Rekeyed (prepareCheckpoint ckp nckthreads pv) := by
  have pivotsRekeyed : Rekeyed (pivots nckthreads pv) := by
    unfold pivots
    split_ifs
    · exact trivial
    · have strings : RekeyedItems (((List.range' 1 (nckthreads - 1)).map fun i => pv.getD i []).map .str) := rekeyedItems_strings
      rwa [List.map_map] at strings
  refine ⟨?_, trivial, trivial, trivial, trivial, trivial, pivotsRekeyed, trivial⟩
  simp (disch := decide) only [rereadKeys, List.filterMap_cons, List.filterMap_nil, reread_field]
  exact keyed_ckpKeys

theorem ofJson_reread : (reread lib 0 0 (prepareCheckpoint ckp nckthreads pv)).map (CkpGen.ofJson lib conversions) =
    (reread lib 1 1 (pivots nckthreads pv)).map fun _ => ckp := by
  rw [prepareCheckpoint, reread, if_neg (by decide)]
  simp (disch := decide) only [rereadEntries, reread, reread_field, Option.bind_some]
  cases reread lib 1 1 (pivots nckthreads pv) with
  | none => rfl
  | some v =>
    refine congrArg some ((if_pos ⟨rfl, rfl, isNumber_rereadInt _⟩).trans ?_)
    exact CkpGen.ext (toU64_rereadInt _) (toU64_rereadInt _) (toU64_rereadInt _)

/-- If the text of a checkpoint is one that a string accumulator has space for, recovery reads the generation and the epochs that the
checkpoint leaves if the text of every pivot is read. Else it goes on as if there were no checkpoint. -/
theorem recover_commit (lib : Libc) (prints : lib.Prints) (conversions : Conversions) (ckp : CkpGen) (nckthreads : Nat)
    (threads : nckthreads < 2 ^ 31) (pv : List Bytes) (lengths : ∀ p ∈ pv, p.length < 2 ^ 31)
    (short : (commitCheckpoint lib (prepareCheckpoint ckp nckthreads pv)).length + 2 ^ 20 ≤ 2 ^ 31) :
    StringAccum.Accumulates Msgpack.memory (commitCheckpoint lib (prepareCheckpoint ckp nckthreads pv)) ∧
      (PivotsReadable nckthreads pv →
        recoverCkpGen lib conversions (commitCheckpoint lib (prepareCheckpoint ckp nckthreads pv)) = .ok ckp) ∧
      (¬PivotsReadable nckthreads pv →
        recoverCkpGen lib conversions (commitCheckpoint lib (prepareCheckpoint ckp nckthreads pv)) = .ok {}) := by
  have recovered : recoverCkpGen lib conversions (commitCheckpoint lib (prepareCheckpoint ckp nckthreads pv)) =
      .ok (((reread lib 1 1 (pivots nckthreads pv)).map fun _ => ckp).getD {}) := by
    rw [recoverCkpGen, commitCheckpoint, parse_unparse prints (prepareCheckpoint_holds threads lengths) prepareCheckpoint_rekeyed,
      ← ofJson_reread]
    cases reread lib 0 0 (prepareCheckpoint ckp nckthreads pv) <;> rfl
  refine ⟨StringAccum.accumulates_of_new (fun _ => rfl) (by decide) short, ?_⟩
  rw [recovered, ← @reread_pivots lib]
  cases reread lib 1 1 (pivots nckthreads pv) <;> simp

theorem recover_commit_two :
    (StringAccum.Accumulates Msgpack.memory (commitCheckpoint JsonText.halves (prepareCheckpoint ⟨3, 70, 90⟩ 2 [[], [0x62], []])) ∧
      recoverCkpGen JsonText.halves ⟨fun _ => (0, 0), fun _ => 0⟩
        (commitCheckpoint JsonText.halves (prepareCheckpoint ⟨3, 70, 90⟩ 2 [[], [0x62], []])) = .ok ⟨3, 70, 90⟩) ∧
      recoverCkpGen JsonText.halves ⟨fun _ => (0, 0), fun _ => 0⟩
        (commitCheckpoint JsonText.halves (prepareCheckpoint ⟨3, 70, 90⟩ 2 [[], [0x62, 0], []])) = .ok {} := by
  have readable : PivotsReadable 2 [[], [0x62], []] := by
    intro i low high
    obtain rfl : i = 1 := by omega
    exact ⟨['b'], rfl, List.forall_mem_singleton.mpr (by decide)⟩
  have unreadable : ¬PivotsReadable 2 [[], [0x62, 0], []] := by
    intro all
    have text : [0x62, 0] = ['b', Char.ofNat 0].flatMap String.utf8EncodeChar := rfl
    obtain ⟨t, reads⟩ := rereadString_readable.mpr (all 1 (by decide) (by decide))
    rw [List.getD_cons_succ, List.getD_cons_zero, text, JsonText.rereadString_chars] at reads
    cases reads
  have committed := recover_commit JsonText.halves JsonText.halves_prints ⟨fun _ => (0, 0), fun _ => 0⟩ ⟨3, 70, 90⟩ 2 (by decide)
    [[], [0x62], []] (by decide) (by decide)
  exact ⟨⟨committed.1, committed.2.1 readable⟩,
    (recover_commit JsonText.halves JsonText.halves_prints _ _ 2 (by decide) _ (by decide) (by decide)).2.2 unreadable⟩

end

end Masstree
