import Masstree.Checkpoint.Fuzzy
import Masstree.Lib.Doubling
import Masstree.Msgpack.Agree
import Masstree.Text.StringAccum
import Masstree.Tree.ScanTable

/-!
# Checkpoint files

What the threads of a checkpoint write of a table that nobody changes, each for its range of keys, and what is read of the bytes.
-/

namespace Masstree
open Msgpack
open Masstree.Tree (Host Memory keybufSize)

/-- The bytes in the buffer, and its `unsigned` capacity. -/
structure Kvout where
  buf : Bytes := []
  capacity : Nat := 256

namespace Kvout

/-- `reserve`, and the bytes written there up to the new end. `none` where `grow` never ends, or the sum is not `unsigned`. -/
def write (kv : Kvout) (nchars : Nat) (bytes : Bytes) : Option Kvout :=
  if 2 ^ 32 ≤ kv.buf.length + nchars then none
  else if kv.capacity < kv.buf.length + nchars then
    (Doubling.grow 32 (kv.buf.length + nchars) kv.capacity).map fun capacity => ⟨kv.buf ++ bytes, capacity⟩
  else some { kv with buf := kv.buf ++ bytes }

def writeStr (kv : Kvout) (x : Bytes) : Option Kvout := kv.write (5 + x.length) (writeString x)
def writeWide (kv : Kvout) (x : Nat) : Option Kvout := kv.write 9 (writeWideUnsigned x)

end Kvout

def SavedRow.unparse (key : Bytes) (saved : SavedRow) : Bytes := writeString key ++ (writeWideUnsigned saved.ts ++ writeString saved.row)

def SavedRow.write (key : Bytes) (saved : SavedRow) (kv : Kvout) : Option Kvout := do
  let kv ← kv.writeStr key
  let kv ← kv.writeWide saved.ts
  kv.writeStr saved.row

/-- What a checkpointing thread has written. -/
structure Ckstate where
  vals : Kvout := {}
  count : Nat := 0

namespace Ckstate

/-- `ckstate::visit_value`. An empty `endkey` is none, and there is no state once it has read a null row, or cannot write one. -/
def visitValue (endkey : Bytes) (c : Option Ckstate) (p : Bytes × Option ValueBag) : Bool × Option Ckstate :=
  c.elim (false, none) fun c =>
    if endkey ≠ [] ∧ endkey ≤ p.1 then (false, some c)
    else p.2.elim (false, none) fun row =>
      (checkpointWrite row).elim (true, some c) fun saved =>
        (saved.write p.1 c.vals).elim (false, none) fun vals => (true, some ⟨vals, c.count + 1⟩)

def header (generation count : Nat) (startkey : Bytes) : Value :=
  .object [(ascii "generation", .unsigned generation), (ascii "size", .unsigned count), (ascii "firstkey", .str startkey)]

end Ckstate

/-- `conc_filecheckpoint` of the thread with a start key and an end key. -/
def concFilecheckpoint (t : Tree.Table ValueBag) (h : Host) (keybuf : Memory) (fuel generation : Nat)
    (range : Bytes × Bytes) : Option Bytes :=
  (t.scan h keybuf range.1 true (Ckstate.visitValue range.2) (some {}) fuel).bind fun r =>
    r.2.bind fun c => (Ckstate.header generation c.count range.1).unparse.map (· ++ c.vals.buf)

/-- The start key and the end key of a thread, from the pivots. -/
def rangeOf (nckthreads : Nat) (pv : List Bytes) (i : Nat) : Bytes × Bytes :=
  (pv.getD i [], if i = nckthreads - 1 then [] else pv.getD (i + 1) [])

def concCheckpoint (t : Tree.Table ValueBag) (h : Host) (keybuf : Memory) (fuel generation nckthreads : Nat) (pv : List Bytes) :
    Option (List Bytes) :=
  ((List.range nckthreads).map (rangeOf nckthreads pv)).mapM (concFilecheckpoint t h keybuf fuel generation)

/-- `as_i()` of an integer, converted to `uint64_t` -/
def Msgpack.Value.uint64 : Value → Option Nat
  | .int x => some (word 8 x)
  | .unsigned x => some x
  | _ => none

/-- `operator[]` of an object -/
def Msgpack.Value.field (key : Bytes) : Value → Option Value
  | .object entries => (entries.find? (·.1 = key)).map Prod.snd
  | _ => none

/-- The start of `read_checkpoint`: the number of triples, and where they are. The size of the file is passed as an `int`, and the
generation must be that which is recovered. -/
def readHeader (ckpGen : Nat) (s : Bytes) : Option (Nat × Bytes) :=
  if 2 ^ 31 ≤ s.length then none
  else
    match readJson .null s with
    | .ok (j, par) => ((j.value.field (ascii "generation")).bind Value.uint64).bind fun gen =>
      ((j.value.field (ascii "size")).bind Value.uint64).bind fun n => if ckpGen = gen then some (n, par) else none
    | .error _ => none

/-- `par >> key >> ts`, and what `checkpoint_read` reads. -/
def readTriple (par : Bytes) : Option ((Bytes × SavedRow) × Bytes) :=
  (readStr par).bind fun key =>
    (readAs .unsignedLong key.2).bind fun ts => (readStr ts.2).map fun row => ((key.1, ⟨ts.1.toNat, row.1⟩), row.2)

variable {t : Tree.Table ValueBag} {rows : List (Bytes × ValueBag)} {range : Bytes × Bytes} {key rest : Bytes}
    {saved : SavedRow} {n : Nat}

def InRange (range : Bytes × Bytes) (key : Bytes) : Prop := range.1 ≤ key ∧ (range.2 = [] ∨ key < range.2)

instance (range : Bytes × Bytes) (key : Bytes) : Decidable (InRange range key) := inferInstanceAs (Decidable (_ ∧ _))

def savedIn (range : Bytes × Bytes) (rows : List (Bytes × ValueBag)) : List (Bytes × SavedRow) :=
  rows.filterMap fun p => if InRange range p.1 then (checkpointWrite p.2).map fun saved => (p.1, saved) else none

def unparseAll (saved : List (Bytes × SavedRow)) : Bytes := saved.flatMap fun p => p.2.unparse p.1

def fileOf (generation : Nat) (range : Bytes × Bytes) (rows : List (Bytes × ValueBag)) : Bytes :=
  (Ckstate.header generation (savedIn range rows).length range.1).text ++ unparseAll (savedIn range rows)

/-! ### Writing -/

namespace Kvout

/-- The capacity is a power of two. -/
def Doubles (kv : Kvout) : Prop := ∃ k < 32, kv.capacity = 2 ^ k

theorem write_spec {kv : Kvout} (doubles : kv.Doubles) {nchars : Nat} (fits : kv.buf.length + nchars ≤ 2 ^ 31) (bytes : Bytes) :
    ∃ kv', kv.write nchars bytes = some kv' ∧ kv'.buf = kv.buf ++ bytes ∧ kv'.Doubles := by
  obtain ⟨k, lt, capacity⟩ := doubles
  rw [write, if_neg (by omega)]
  split
  · obtain ⟨j, -, less, -, grown⟩ := Doubling.grow_of_le lt (show kv.buf.length + nchars ≤ 2 ^ (32 - 1) from fits)
    rw [capacity, grown]
    exact ⟨_, rfl, rfl, j, less, rfl⟩
  · exact ⟨_, rfl, rfl, k, lt, capacity⟩

end Kvout

theorem length_writeWideUnsigned (x : Nat) : (writeWideUnsigned x).length = 9 := by
  rw [writeWideUnsigned, List.length_cons, toNetOrder_length]

/-- A triple is written as long as its end, with four more bytes than are needed, is no further than `2 ^ 31`. -/
theorem SavedRow.write_spec {kv : Kvout} (doubles : kv.Doubles) (key : Bytes) (saved : SavedRow)
    (fits : kv.buf.length + (saved.unparse key).length + 4 ≤ 2 ^ 31) :
    ∃ kv', saved.write key kv = some kv' ∧ kv'.buf = kv.buf ++ saved.unparse key ∧ kv'.Doubles := by
  have long := (Value.writeString_length key).1
  have long' := (Value.writeString_length saved.row).1
  rw [SavedRow.unparse, List.length_append, List.length_append, length_writeWideUnsigned] at fits
  obtain ⟨kv₁, wrote₁, buf₁, doubles₁⟩ := Kvout.write_spec doubles (show kv.buf.length + (5 + key.length) ≤ 2 ^ 31 by omega)
    (writeString key)
  have end₁ := congrArg List.length buf₁
  rw [List.length_append] at end₁
  obtain ⟨kv₂, wrote₂, buf₂, doubles₂⟩ := Kvout.write_spec doubles₁ (show kv₁.buf.length + 9 ≤ 2 ^ 31 by omega)
    (writeWideUnsigned saved.ts)
  have end₂ := congrArg List.length buf₂
  rw [List.length_append, length_writeWideUnsigned] at end₂
  obtain ⟨kv₃, wrote₃, buf₃, doubles₃⟩ :=
    Kvout.write_spec doubles₂ (show kv₂.buf.length + (5 + saved.row.length) ≤ 2 ^ 31 by omega) (writeString saved.row)
  refine ⟨kv₃, ?_, ?_, doubles₃⟩
  · unfold SavedRow.write Kvout.writeStr Kvout.writeWide
    rw [wrote₁, Option.bind_eq_bind, Option.bind_some, wrote₂, Option.bind_some, wrote₃]
  · rw [buf₃, buf₂, buf₁, SavedRow.unparse, List.append_assoc, List.append_assoc]

theorem unparseAll_cons (p : Bytes × SavedRow) (saved : List (Bytes × SavedRow)) :
    unparseAll (p :: saved) = p.2.unparse p.1 ++ unparseAll saved := List.flatMap_cons ..

theorem Ckstate.visits (endkey : Bytes) (rows : List (Bytes × ValueBag)) (n : Nat) {c : Ckstate} (doubles : c.vals.Doubles)
    {saved : List (Bytes × SavedRow)}
    (same : (rows.takeWhile fun p => endkey = [] ∨ p.1 < endkey).filterMap
    (fun p => (checkpointWrite p.2).map fun saved => (p.1, saved)) = saved)
    (fits : c.vals.buf.length + (unparseAll saved).length + 4 ≤ 2 ^ 31) :
    ∃ vals : Kvout, (Producer.visitAll (visitValue endkey) (rows.map fun p => (p.1, some p.2)) n (some c)).2 =
      some ⟨vals, c.count + saved.length⟩ ∧ vals.buf = c.vals.buf ++ unparseAll saved := by
  induction rows generalizing n c saved with
  | nil =>
    subst same
    exact ⟨c.vals, rfl, (List.append_nil _).symm⟩
  | cons p rows ih =>
    obtain ⟨key, row⟩ := p
    rw [List.map_cons, Producer.visitAll, visitValue, Option.elim_some]
    rw [List.takeWhile_cons] at same
    by_cases last : endkey ≠ [] ∧ endkey ≤ key
    · have stop : ¬(endkey = [] ∨ key < endkey) := by
        rw [not_or]
        exact ⟨last.1, Std.not_lt.mpr last.2⟩
      rw [decide_eq_false stop, if_neg Bool.false_ne_true] at same
      subst same
      rw [if_pos last, if_neg Bool.false_ne_true]
      exact ⟨c.vals, rfl, (List.append_nil _).symm⟩
    · have more : endkey = [] ∨ key < endkey := by
        rw [not_and_or, not_not] at last
        exact last.imp id Std.not_le.mp
      rw [decide_eq_true more, if_pos rfl] at same
      rw [if_neg last, Option.elim_some]
      cases written : checkpointWrite row with
      | none =>
        rw [List.filterMap_cons_none (by rw [written]; rfl)] at same
        rw [Option.elim_none, if_pos rfl]
        exact ih (n + 1) doubles same fits
      | some here =>
        rw [List.filterMap_cons_some (by rw [written]; rfl)] at same
        dsimp only at same
        subst same
        rw [unparseAll_cons, List.length_append] at fits
        dsimp only at fits
        obtain ⟨vals, wrote, buf, doubles'⟩ := SavedRow.write_spec doubles key here (by omega)
        have end_ := congrArg List.length buf
        rw [List.length_append] at end_
        obtain ⟨vals', visited, buf'⟩ := ih (n + 1) (c := ⟨vals, c.count + 1⟩) doubles' rfl (by dsimp only; omega)
        rw [Option.elim_some, wrote, Option.elim_some, if_pos rfl]
        refine ⟨vals', ?_, ?_⟩
        · rw [visited, List.length_cons, Nat.add_right_comm, Nat.add_assoc]
        · rw [buf', buf, unparseAll_cons, List.append_assoc]

theorem length_header (generation count : Nat) (startkey : Bytes) : 4 ≤ (Ckstate.header generation count startkey).text.length ∧
    (Ckstate.header generation count startkey).text.length ≤ startkey.length + 2 ^ 8 := by
  have front := @Value.writeMapHeader_length (0 + 1 + 1 + 1)
  have gen := Value.writeString_length (ascii "generation")
  have size := Value.writeString_length (ascii "size")
  have first := Value.writeString_length (ascii "firstkey")
  have gen' := @Value.writeUnsigned_length generation
  have size' := @Value.writeUnsigned_length count
  have first' := Value.writeString_length startkey
  have lengths : (ascii "generation").length = 10 ∧ (ascii "size").length = 4 ∧ (ascii "firstkey").length = 8 := by decide
  rw [Ckstate.header, Value.text_object]
  simp only [List.flatMap_cons, List.flatMap_nil, List.length_append, Value.text_leaf (v := .unsigned _) rfl,
    Value.text_leaf (v := .str _) rfl, StringAccum.Part.bytes, List.length_cons, List.length_nil]
  omega

/-- A thread writes the triples of its keys, after their number. -/
theorem concFilecheckpoint_eq (ok : t.Ok) {rows : OrderedMap Bytes ValueBag} (found : rows.find = t.get) (h : Host) (keybuf : Memory)
    {generation : Nat} {range : Bytes × Bytes} (short : range.1.length ≤ keybufSize)
    (small : (fileOf generation range rows.entries).length < 2 ^ 31) : ∃ enough, ∀ fuel ≥ enough,
      concFilecheckpoint t h keybuf fuel generation range = some (fileOf generation range rows.entries) := by
  obtain ⟨enough, scans⟩ := ok.scan_rows found h keybuf short true (Ckstate.visitValue range.2) (some {})
  refine ⟨enough, fun fuel le => ?_⟩
  have inOrder : (rows.entries.filter fun p => range.1 < p.1 ∨ p.1 = range.1 ∧ true).Pairwise fun p q =>
      decide (range.2 = [] ∨ q.1 < range.2) = true → decide (range.2 = [] ∨ p.1 < range.2) = true := by
    refine (rows.sorted.filter _).imp fun {p q} less more => ?_
    rw [decide_eq_true_iff] at more ⊢
    exact more.imp id (Std.lt_trans less)
  have saved : ((rows.entries.filter fun p => range.1 < p.1 ∨ p.1 = range.1 ∧ true).takeWhile fun p => range.2 = [] ∨
    p.1 < range.2).filterMap
      (fun p => (checkpointWrite p.2).map fun saved => (p.1, saved)) = savedIn range rows.entries := by
    rw [inOrder.takeWhile_eq_filter, List.filter_filter, List.filterMap_filter]
    refine List.filterMap_congr fun p _ => if_congr ?_ rfl rfl
    unfold InRange
    rw [Bool.and_eq_true, decide_eq_true_iff, decide_eq_true_iff, Std.le_iff_lt_or_eq]
    simp [and_comm, eq_comm]
  have front := length_header generation (savedIn range rows.entries).length range.1
  have header := Value.unparse_eq (v := Ckstate.header generation (savedIn range rows.entries).length range.1) (by
    unfold keybufSize at short
    omega)
  rw [fileOf, List.length_append] at small
  obtain ⟨vals, visits, buf⟩ := Ckstate.visits range.2 (rows.entries.filter fun p => range.1 < p.1 ∨ p.1 = range.1 ∧ true) 0 (c := {})
    ⟨8, by decide, rfl⟩ saved (by
      show 0 + _ + 4 ≤ _
      omega)
  rw [concFilecheckpoint, (scans fuel le).1, Option.bind_some, visits, Option.bind_some, buf]
  show (Ckstate.header generation (0 + _) range.1).unparse.map (· ++ ([] ++ _)) = _
  rw [Nat.zero_add, header, List.nil_append, Option.map_some, fileOf]

/-! ### Reading -/

structure Fits (p : Bytes × SavedRow) : Prop where
  key : p.1.length < 2 ^ 31
  ts : p.2.ts < 2 ^ 64
  row : p.2.row.length < 2 ^ 31

theorem readTriple_unparse {p : Bytes × SavedRow} (fits : Fits p) (rest : Bytes) :
    readTriple (p.2.unparse p.1 ++ rest) = some (p, rest) := by
  have ts : readAs .unsignedLong (writeWideUnsigned p.2.ts ++ (writeString p.2.row ++ rest)) =
      some ((p.2.ts : Int), writeString p.2.row ++ rest) := by
    rw [readAs, readInt_written (.wideUnsigned fits.ts) rfl, Option.map_some]
    have same : IntType.unsignedLong.convert (p.2.ts : Int) = p.2.ts := by
      refine IntType.convert_eq ⟨Int.natCast_nonneg _, ?_⟩
      exact Int.ofNat_lt.mpr fits.ts
    rw [same]
  rw [SavedRow.unparse, List.append_assoc, List.append_assoc, readTriple, readStr_writeString fits.key, Option.bind_some]
  dsimp only
  rw [ts, Option.bind_some, readStr_writeString fits.row]
  rfl

theorem uint64_reread {x : Nat} (range : x < 2 ^ 64) : (Value.unsigned x).reread.uint64 = some x := by
  rw [Value.reread]
  split
  · have small : ((x : Int) % 2 ^ (8 * 8)).toNat = x := by omega
    exact congrArg some small
  · rfl

theorem readHeader_unparse {generation count : Nat} {startkey : Bytes} (generations : generation < 2 ^ 64) (counts : count < 2 ^ 64)
    (small : startkey.length ≤ keybufSize) {rest : Bytes}
    (file : ((Ckstate.header generation count startkey).text ++ rest).length < 2 ^ 31) :
    readHeader generation ((Ckstate.header generation count startkey).text ++ rest) = some (count, rest) := by
  have front := length_header generation count startkey
  unfold keybufSize at small
  have holds : (Ckstate.header generation count startkey).Holds := by
    refine .object (show 3 < 2 ^ 31 by decide) (show [ascii "generation", ascii "size", ascii "firstkey"].Nodup by decide)
      (show Keyed [ascii "generation", ascii "size", ascii "firstkey"] by decide) ?_ ?_
    · simp [ascii]
    · simp only [List.forall_mem_cons, List.not_mem_nil, false_imp_iff, implies_true, and_true]
      exact ⟨.unsigned generations, .unsigned counts, .str (by omega)⟩
  have short : (Ckstate.header generation count startkey).Short := by
    rw [Value.Short, Ckstate.header, Value.strings, Value.entryStrings_eq]
    simp only [List.flatMap_cons, List.flatMap_nil, Value.strings, List.forall_mem_cons, List.cons_append, List.nil_append,
      List.not_mem_nil, false_imp_iff, implies_true, and_true]
    refine ⟨by decide, by decide, by decide, ?_⟩
    unfold memoSpace
    omega
  obtain ⟨j, same, read⟩ := (readJson_written (holds.written (by omega)) rest .null).mpr short
  have same : j.value = (Ckstate.header generation count startkey).reread := same
  have read : readJson .null ((Ckstate.header generation count startkey).text ++ rest) = .ok (j, rest) := read
  have first : (Ckstate.header generation count startkey).reread.field (ascii "generation") =
    some (Value.unsigned generation).reread := by
    rfl
  have size : (Ckstate.header generation count startkey).reread.field (ascii "size") = some (Value.unsigned count).reread := by
    rfl
  rw [readHeader, if_neg (Nat.not_le.mpr file), read]
  dsimp only
  rw [same, first, size, Option.bind_some, Option.bind_some, uint64_reread generations, uint64_reread counts, Option.bind_some,
    Option.bind_some, if_pos rfl]

end Masstree
