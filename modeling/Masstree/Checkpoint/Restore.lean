import Masstree.Checkpoint.Loading
import Masstree.Lib.Partial
import Masstree.Query.PivotOrder

/-!
# Restoring a checkpoint

A pivot that is not empty ends the range of one thread and begins that of the next. An empty one ends nothing, and the next thread
begins with the first key, so that two threads write what any key has. The tables come from runs without suffix bags (see
`suffixes_kept_of_short`).
-/

namespace Masstree
open Msgpack
open Masstree.Tree (Host Memory)

variable {t : Tree.Table ValueBag} {rows : OrderedMap Bytes ValueBag} {range : Bytes × Bytes} {key : Bytes} {row : ValueBag}
  {saved : SavedRow} {p : Bytes × SavedRow} {pv : List Bytes} {generation n a b i j : Nat}

/-! ### Ranges -/

/-- Ranges from one that begins before the key to one that has no end. -/
theorem exists_inRange (key : Bytes) (lt : a < b) (le : b ≤ n) (begins : pv.getD a [] ≤ key) (unbounded : b = n ∨ pv.getD b [] = []) :
    ∃ i, a ≤ i ∧ i < b ∧ InRange (rangeOf n pv i) key := by
  obtain ⟨d, rfl⟩ := Nat.exists_eq_add_of_lt lt
  induction d generalizing a with
  | zero =>
    refine ⟨a, Nat.le_refl a, lt, begins, .inl ?_⟩
    rw [rangeOf]
    dsimp only
    split
    · rfl
    · exact unbounded.resolve_left (by omega)
  | succ d ih =>
    by_cases next : pv.getD (a + 1) [] ≤ key
    · have shift : a + 1 + d + 1 = a + (d + 1) + 1 := by omega
      obtain ⟨i, ge, below, inside⟩ := ih (a := a + 1) next (by omega) (shift ▸ le) (shift ▸ unbounded)
      exact ⟨i, by omega, by omega, inside⟩
    · refine ⟨a, Nat.le_refl a, lt, begins, .inr ?_⟩
      rw [rangeOf, if_neg (by omega)]
      exact Std.not_le.mp next

/-- The pivots of the threads begin with the empty key, and those that are not empty are in order. -/
structure Ascending (n : Nat) (pv : List Bytes) : Prop where
  first : pv.getD 0 [] = []
  le : ∀ i j, i ≤ j → j < n → pv.getD j [] = [] ∨ pv.getD i [] ≤ pv.getD j []

theorem Ascending.covers (ascending : Ascending n pv) (some_ : 0 < n) (key : Bytes) : ∃ i < n, InRange (rangeOf n pv i) key := by
  obtain ⟨i, -, lt, inside⟩ := exists_inRange key some_ (Nat.le_refl n) (by rw [ascending.first]; exact List.nil_le _) (.inl rfl)
  exact ⟨i, lt, inside⟩

/-- A key is in one range, unless a pivot is empty. -/
theorem Ascending.apart_iff (ascending : Ascending n pv) (key : Bytes) :
    (∀ i j, i < j → j < n → ¬(InRange (rangeOf n pv i) key ∧ InRange (rangeOf n pv j) key)) ↔ ∀ i, 0 < i → i < n →
    pv.getD i [] ≠ [] := by
  constructor
  · intro apart k pos lt empty
    obtain ⟨i, -, before, inside⟩ := exists_inRange key pos (Nat.le_of_lt lt) (by rw [ascending.first]; exact List.nil_le _) (.inr empty)
    obtain ⟨j, after, last, inside'⟩ := exists_inRange key lt (Nat.le_refl n) (by rw [empty]; exact List.nil_le _) (.inl rfl)
    exact apart i j (Nat.lt_of_lt_of_le before after) last ⟨inside, inside'⟩
  · rintro nonempty i j lt last ⟨inside, inside'⟩
    have ends := inside.2
    rw [rangeOf, if_neg (by omega)] at ends
    have below := ends.resolve_left (nonempty (i + 1) (by omega) (by omega))
    have later := (ascending.le (i + 1) j lt last).resolve_left (nonempty j (by omega) last)
    exact absurd (Std.lt_of_lt_of_le below (Std.le_trans later inside'.1)) Std.lt_irrefl

/-- The pivots of a table give every key a thread, and only one thread exactly if none of them is empty. -/
theorem ranges_partition_iff (reachable : t.Reachable) (some_ : 0 < n) (few : n ≤ 11585)
    (pivots : t.findpivots (n + 1) = .ok pv) (key : Bytes) : (∃ i < n, InRange (rangeOf n pv i) key) ∧
      ((∃! i, i < n ∧ InRange (rangeOf n pv i) key) ↔ ∀ i, 0 < i → i < n → pv.getD i [] ≠ []) := by
  obtain ⟨first, -, inOrder⟩ := Tree.Table.findpivots_spec reachable pivots
  have ascending : Ascending n pv := ⟨first some_, inOrder few⟩
  obtain ⟨i, lt, inside⟩ := ascending.covers some_ key
  refine ⟨⟨i, lt, inside⟩, ?_⟩
  rw [← ascending.apart_iff key]
  constructor
  · rintro ⟨k, -, only⟩ i j less last ⟨inside, inside'⟩
    exact absurd ((only i ⟨Nat.lt_trans less last, inside⟩).trans (only j ⟨last, inside'⟩).symm) (Nat.ne_of_lt less)
  · intro apart
    refine ⟨i, ⟨lt, inside⟩, fun j other => ?_⟩
    rcases Nat.lt_trichotomy j i with less | same | more
    · exact absurd ⟨other.2, inside⟩ (apart j i less lt)
    · exact same
    · exact absurd ⟨inside, other.2⟩ (apart i j more other.1)

/-- The pivot between two keys. -/
theorem ranges_partition_iff_two : ∃ t : Tree.Table ValueBag,
    Steps.run Tree.Table.step .start [.insert [97] ⟨2, 1, [6, 7], [120]⟩, .insert [98] ⟨3, 0, [4], []⟩] = some t ∧
      ∃ pv, t.findpivots 3 = .ok pv ∧ (∃ i < 2, InRange (rangeOf 2 pv i) [99]) ∧
        ((∃! i, i < 2 ∧ InRange (rangeOf 2 pv i) [99]) ↔ ∀ i, 0 < i → i < 2 → pv.getD i [] ≠ []) := by
  have runs : ((Steps.run Tree.Table.step (.start : Tree.Table ValueBag)
      [.insert [97] ⟨2, 1, [6, 7], [120]⟩, .insert [98] ⟨3, 0, [4], []⟩]).bind fun t => (t.findpivots
      3).toOption).isSome := by decide
  obtain ⟨pv, found⟩ := Option.isSome_iff_exists.mp runs
  obtain ⟨t, ran, found⟩ := Option.bind_eq_some_iff.mp found
  cases pivots : t.findpivots 3 with
  | error fault =>
    rw [pivots] at found
    cases found
  | ok pv' => exact ⟨t, ran, pv', pivots, ranges_partition_iff ⟨_, ran⟩ (by decide) (by decide) pivots [99]⟩

/-! ### The triples of all files -/

def savedRows (n : Nat) (pv : List Bytes) (rows : List (Bytes × ValueBag)) : List (List (Bytes × SavedRow)) :=
  (List.range n).map fun i => savedIn (rangeOf n pv i) rows

theorem mem_savedIn {rows : List (Bytes × ValueBag)} : p ∈ savedIn range rows ↔
    InRange range p.1 ∧ ∃ row, (p.1, row) ∈ rows ∧ checkpointWrite row = some p.2 := by
  obtain ⟨key, saved⟩ := p
  unfold savedIn
  simp only [List.mem_filterMap, Option.ite_none_right_eq_some, Option.map_eq_some_iff, Prod.mk.injEq, Prod.exists]
  constructor
  · rintro ⟨key', row, mem, inside, saved', written, rfl, rfl⟩
    exact ⟨inside, row, mem, written⟩
  · rintro ⟨inside, row, mem, written⟩
    exact ⟨key, row, mem, inside, saved, written, rfl, rfl⟩

theorem mem_savedRows : p ∈ (savedRows n pv rows.entries).flatten ↔
    ∃ row, rows.find p.1 = some row ∧ checkpointWrite row = some p.2 ∧ ∃ i < n, InRange (rangeOf n pv i) p.1 := by
  unfold savedRows
  simp only [List.mem_flatten, List.mem_map, List.mem_range, exists_exists_and_eq_and, mem_savedIn, OrderedMap.find_eq_some]
  constructor
  · rintro ⟨i, lt, inside, row, mem, written⟩
    exact ⟨row, mem, written, i, lt, inside⟩
  · rintro ⟨row, mem, written, i, lt, inside⟩
    exact ⟨i, lt, inside, row, mem, written⟩

theorem consistent_savedRows : Loading.Consistent (savedRows n pv rows.entries).flatten := by
  intro p mem q mem' same
  obtain ⟨row, found, written, -⟩ := mem_savedRows.mp mem
  obtain ⟨row', found', written', -⟩ := mem_savedRows.mp mem'
  rw [← same, found] at found'
  obtain rfl := Option.some.inj found'
  exact Prod.ext same (Option.some.inj (written.symm.trans written'))

theorem checkpointWrite_isSome : (∃ saved, checkpointWrite row = some saved) ↔ rowIsMarker row = false := by
  unfold checkpointWrite
  cases rowIsMarker row <;> simp

theorem mem_keys_savedIn : key ∈ (savedIn range rows.entries).map Prod.fst ↔
    InRange range key ∧ ∃ row, rows.find key = some row ∧ rowIsMarker row = false := by
  simp only [← checkpointWrite_isSome, OrderedMap.find_eq_some]
  constructor
  · intro mem
    obtain ⟨p, mem', rfl⟩ := List.mem_map.mp mem
    obtain ⟨inside, row, there, written⟩ := mem_savedIn.mp mem'
    exact ⟨inside, row, there, p.2, written⟩
  · rintro ⟨inside, row, there, saved, written⟩
    exact List.mem_map.mpr ⟨(key, saved), mem_savedIn.mpr ⟨inside, row, there, written⟩, rfl⟩

theorem nodup_savedIn (range : Bytes × Bytes) (rows : OrderedMap Bytes ValueBag) :
    ((savedIn range rows.entries).map Prod.fst).Nodup := by
  have sorted : (savedIn range rows.entries).Pairwise fun p q => p.1 < q.1 := by
    refine rows.sorted.filterMap _ fun p q less a wrote b wrote' => ?_
    obtain ⟨-, wrote⟩ := Option.ite_none_right_eq_some.mp wrote
    obtain ⟨-, wrote'⟩ := Option.ite_none_right_eq_some.mp wrote'
    obtain ⟨saved, -, rfl⟩ := Option.map_eq_some_iff.mp wrote
    obtain ⟨saved', -, rfl⟩ := Option.map_eq_some_iff.mp wrote'
    exact less
  exact List.pairwise_map.mpr (sorted.imp Std.ne_of_lt)

theorem nodup_savedRows (n : Nat) (pv : List Bytes) (rows : OrderedMap Bytes ValueBag) :
    ((savedRows n pv rows.entries).flatten.map Prod.fst).Nodup ↔ ∀ key row, rows.find key = some row → rowIsMarker row = false →
      ∀ i j, i < j → j < n → ¬(InRange (rangeOf n pv i) key ∧ InRange (rangeOf n pv j) key) := by
  rw [List.map_flatten, List.nodup_flatten, savedRows, List.map_map, List.pairwise_map, List.pairwise_iff_getElem]
  simp only [List.length_range, List.getElem_range, Function.comp_apply]
  constructor
  · rintro ⟨-, disjoint⟩ key row found live i j lt last ⟨inside, inside'⟩
    exact disjoint i j (Nat.lt_trans lt last) last lt (mem_keys_savedIn.mpr ⟨inside, row, found, live⟩)
      (mem_keys_savedIn.mpr ⟨inside', row, found, live⟩)
  · intro apart
    refine ⟨?_, fun i j _ last lt key mem mem' => ?_⟩
    · intro keys mem
      obtain ⟨i, -, rfl⟩ := List.mem_map.mp mem
      exact nodup_savedIn _ rows
    · obtain ⟨inside, row, found, live⟩ := mem_keys_savedIn.mp mem
      exact apart key row found live i j lt last ⟨inside, (mem_keys_savedIn.mp mem').1⟩

/-! ### Writing and reading -/

/-- What fits the fields of a checkpoint, and no file is larger than an `int`. -/
structure Savable (generation n : Nat) (pv : List Bytes) (rows : OrderedMap Bytes ValueBag) : Prop where
  keys : ∀ p ∈ rows.entries, p.1.length ≤ maxKeyLen
  whole : ∀ p ∈ rows.entries, p.2.Whole
  stamps : ∀ p ∈ rows.entries, p.2.ts < 2 ^ 64
  files : ∀ i < n, (fileOf generation (rangeOf n pv i) rows.entries).length < 2 ^ 31

theorem Savable.fits (savable : Savable generation n pv rows) : ∀ saved ∈ savedRows n pv rows.entries, ∀ p ∈ saved, Fits p := by
  intro saved mem p mem'
  obtain ⟨row, there, written, -⟩ := mem_savedRows.mp (List.mem_flatten_of_mem mem mem')
  have entry := OrderedMap.find_eq_some.mp there
  have whole := savable.whole _ entry
  have wrote := Option.some.inj (Option.ite_none_left_eq_some.mp written).2
  have long : row.posAt row.ncol < 2 ^ 16 := by
    have inside : row.ncol < row.pos.length := by rw [whole.pos]; exact Nat.lt_succ_self _
    rw [ValueBag.posAt, List.getD_eq_getElem _ _ inside]
    exact whole.offsets _ (List.getElem_mem inside)
  refine ⟨?_, ?_, ?_⟩
  · exact Nat.lt_of_le_of_lt (savable.keys _ entry) (by decide)
  · rw [← wrote]
    exact savable.stamps _ entry
  · rw [← wrote]
    exact Nat.lt_of_le_of_lt (List.length_take_le (row.posAt row.ncol) row.s) (by omega)

theorem length_le_unparseAll (saved : List (Bytes × SavedRow)) : saved.length ≤ (unparseAll saved).length := by
  induction saved with
  | nil => exact Nat.zero_le _
  | cons p saved ih =>
    have key := (Value.writeString_length p.1).1
    rw [unparseAll_cons, SavedRow.unparse, List.length_append, List.length_append, List.length_cons]
    omega

theorem Savable.count (savable : Savable generation n pv rows) {i : Nat} (lt : i < n) :
    (savedIn (rangeOf n pv i) rows.entries).length < 2 ^ 64 := by
  have file := savable.files i lt
  have triples := length_le_unparseAll (savedIn (rangeOf n pv i) rows.entries)
  rw [fileOf, List.length_append] at file
  omega

def unmarked (t : Tree.Table ValueBag) (key : Bytes) : Option ValueBag := (t.get key).filter fun row => !rowIsMarker row

theorem loaded_eq (savable : Savable generation n pv rows) (found : rows.find = t.get) (ascending : Ascending n pv) (some_ : 0 < n)
    {L : List (Bytes × SavedRow)} (all : L.Perm (savedRows n pv rows.entries).flatten) :
    Loading.loaded (fun _ => none) L = unmarked t := by
  funext key
  rw [unmarked]
  by_cases live : ∃ row, t.get key = some row ∧ rowIsMarker row = false
  · obtain ⟨row, there, live⟩ := live
    obtain ⟨saved, written⟩ := checkpointWrite_isSome.mpr live
    have mem : (key, saved) ∈ (savedRows n pv rows.entries).flatten :=
      mem_savedRows.mpr ⟨row, found ▸ there, written, ascending.covers some_ key⟩
    have consistent : Loading.Consistent L := fun p mem q mem' => consistent_savedRows p (all.mem_iff.mp mem) q (all.mem_iff.mp mem')
    have read := checkpointRead_write (savable.whole (key, row) (OrderedMap.find_eq_some.mp (found ▸ there))) live
    rw [written, Option.map_some] at read
    rw [Loading.loaded_mem (p := (key, saved)) consistent (all.mem_iff.mpr mem), there, read, Option.filter_some, live]
    rfl
  · rw [Loading.loaded_absent]
    · cases there : t.get key with
      | none => rfl
      | some row =>
        have marker : rowIsMarker row = true := Bool.not_eq_false _ ▸ fun live' => live ⟨row, there, live'⟩
        rw [Option.filter_some, marker]
        rfl
    · rintro p mem rfl
      obtain ⟨row, there, written, -⟩ := mem_savedRows.mp (all.mem_iff.mp mem)
      exact live ⟨row, found ▸ there, checkpointWrite_isSome.mp ⟨_, written⟩⟩

/-- With invariants the triples can be inserted if there are none, or if no pivot is empty. -/
theorem insertable_iff (found : rows.find = t.get) (ascending : Ascending n pv) {L : List (Bytes × SavedRow)}
    (all : L.Perm (savedRows n pv rows.entries).flatten) (invariants : Bool) : Loading.Insertable invariants (fun _ => none) L ↔
      (invariants → (∀ key row, t.get key = some row → rowIsMarker row = true) ∨ ∀ i, 0 < i → i < n → pv.getD i [] ≠ []) := by
  have apart := nodup_savedRows n pv rows
  simp only [ascending.apart_iff, found] at apart
  rw [Loading.Insertable, (all.map Prod.fst).nodup_iff, apart]
  refine imp_congr_right fun _ => ⟨fun can => ?_, fun can => ⟨fun key row there live => ?_, fun _ _ => rfl⟩⟩
  · by_cases nonempty : ∀ i, 0 < i → i < n → pv.getD i [] ≠ []
    · exact .inr nonempty
    · refine .inl fun key row there => ?_
      by_contra live
      exact nonempty (can.1 key row there (Bool.not_eq_true _ ▸ live))
  · refine can.resolve_left fun markers => ?_
    rw [markers key row there] at live
    cases live

/-- A checkpoint of a table that nobody changes is read into a table with its rows, in whatever order the threads read the files. A build
with invariants reads it exactly if the table has no rows, or if no pivot is empty. -/
theorem checkpoint_restores_iff (reachable : t.Reachable) (found : rows.find = t.get)
    (savable : Savable generation n pv rows) (some_ : 0 < n)
    (few : n ≤ 11585) (pivots : t.findpivots (n + 1) = .ok pv) (gen : generation < 2 ^ 64) (h : Host) (keybuf : Memory) :
    ∃ enough, ∀ fuel ≥ enough, ∃ files opened, concCheckpoint t h keybuf fuel generation n pv = some files ∧
      files.mapM (readHeader generation) = some opened ∧
        ∀ (invariants : Bool) (is : List Nat), is.Perm (Loading.turns opened) →
          ((∃ s, Steps.run (Loading.step invariants) { files := opened } is = some s ∧ s.table.get = unmarked t) ↔
            (invariants → (∀ key row, t.get key = some row → rowIsMarker row = true) ∨ ∀ i, 0 < i → i < n → pv.getD i [] ≠ [])) := by
  have ok := reachable.good.toOk
  obtain ⟨first, short, inOrder⟩ := Tree.Table.findpivots_spec reachable pivots
  have ascending : Ascending n pv := ⟨first some_, inOrder few⟩
  have starts : ∀ i < n, (rangeOf n pv i).1.length ≤ 8 := short
  have wrote : ∀ range ∈ (List.range n).map (rangeOf n pv), ∃ enough, ∀ fuel ≥ enough,
      concFilecheckpoint t h keybuf fuel generation range = some (fileOf generation range rows.entries) := by
    intro range mem
    obtain ⟨i, inside, rfl⟩ := List.mem_map.mp mem
    have lt := List.mem_range.mp inside
    exact concFilecheckpoint_eq ok found h keybuf ((starts i lt).trans (by decide)) (savable.files i lt)
  obtain ⟨enough, wrote⟩ := Partial.enough_for_all _ wrote
  refine ⟨enough, fun fuel le => ⟨_, Loading.remaining (savedRows n pv rows.entries), Partial.mapM_eq_some (wrote fuel le), ?_, ?_⟩⟩
  · rw [List.mapM_map, List.mapM_map, Loading.remaining, savedRows, List.map_map]
    refine Partial.mapM_eq_some fun i mem => ?_
    have lt := List.mem_range.mp mem
    have start : (rangeOf n pv i).1.length ≤ Tree.keybufSize := (starts i lt).trans (by decide)
    simp only [Function.comp_apply]
    exact readHeader_unparse gen (savable.count lt) start (savable.files i lt)
  · intro invariants is turn
    obtain ⟨L, all, runs⟩ := Loading.run_eq invariants savable.fits turn
    obtain ⟨inserted, failed⟩ := Loading.insertAll_spec invariants Tree.Table.start_good L
    rw [Tree.Table.start_get, loaded_eq savable found ascending some_ all] at inserted
    rw [Tree.Table.start_get] at failed
    rw [runs, ← insertable_iff found ascending all]
    constructor
    · rintro ⟨s, ran, -⟩
      by_contra not
      rw [failed not] at ran
      cases ran
    · intro can
      obtain ⟨t', ran, contents⟩ := inserted can
      exact ⟨_, congrArg (Option.map _) ran, contents⟩

/-- A row, a marker and a row of two columns. -/
def someEntries : List (Bytes × ValueBag) :=
  [([97], ⟨2, 1, [6, 7], [120]⟩), ([98], ⟨3, 0, [4], []⟩), ([99, 0, 99], ⟨4, 2, [8, 9, 11], [121, 122, 123]⟩)]

theorem someEntries_ascending : someEntries.Pairwise fun p q => p.1 < q.1 := by decide

def someRows : OrderedMap Bytes ValueBag := ⟨someEntries, someEntries_ascending⟩

set_option maxRecDepth 8000 in
theorem someRows_run : (Steps.run Tree.Table.step (.start : Tree.Table ValueBag)
    (someRows.entries.map fun p => .insert p.1 p.2)).bind (fun t => (t.findpivots 3).toOption) =
      some [[], [98], List.replicate maxKeyLen 255] := by decide

theorem someRows_savable : Savable 1 2 [[], [98], List.replicate maxKeyLen 255] someRows := by
  refine ⟨by decide, ?_, by decide, ?_⟩
  · intro p mem
    rcases List.mem_cons.mp mem with rfl | mem
    · exact ⟨by decide, rfl, by decide, rfl⟩
    rcases List.mem_cons.mp mem with rfl | mem
    · exact ⟨by decide, rfl, by decide, rfl⟩
    obtain rfl := List.mem_singleton.mp mem
    exact ⟨by decide, rfl, by decide, rfl⟩
  · decide

/-- Three rows, for two threads. -/
theorem checkpoint_restores_iff_two : ∃ t : Tree.Table ValueBag,
    Steps.run Tree.Table.step .start (someRows.entries.map fun p => .insert p.1 p.2) = some t ∧
      ∃ enough, ∀ fuel ≥ enough, ∃ files opened,
        concCheckpoint t ⟨false, true⟩ (fun _ => 0) fuel 1 2 [[], [98], List.replicate maxKeyLen 255] = some files ∧
          files.mapM (readHeader 1) = some opened ∧ ∀ (invariants : Bool) (is : List Nat), is.Perm (Loading.turns opened) →
            ∃ s, Steps.run (Loading.step invariants) { files := opened } is = some s ∧ s.table.get = unmarked t := by
  obtain ⟨t, ran, pivots⟩ := Option.bind_eq_some_iff.mp someRows_run
  have found : someRows.find = t.get := by
    rw [(Tree.Table.run_spec Tree.Table.start_good ran).2, Tree.Table.start_get]
    have built : someRows = ((OrderedMap.empty.insert [97] ⟨2, 1, [6, 7], [120]⟩).insert [98] ⟨3, 0, [4], []⟩).insert [99, 0, 99]
      ⟨4, 2, [8, 9, 11], [121, 122, 123]⟩ := rfl
    simp only [built, OrderedMap.find_insert]
    rfl
  have pivots : t.findpivots (2 + 1) = .ok [[], [98], List.replicate maxKeyLen 255] := by
    cases found : t.findpivots 3 with
    | error fault =>
      rw [found] at pivots
      cases pivots
    | ok pv =>
      rw [found] at pivots
      exact congrArg Except.ok (Option.some.inj pivots)
  obtain ⟨enough, restored⟩ := checkpoint_restores_iff ⟨_, ran⟩ found someRows_savable (by decide) (by decide) pivots
    (show 1 < 2 ^ 64 by decide) ⟨false, true⟩ (fun _ => 0)
  refine ⟨t, ran, enough, fun fuel le => ?_⟩
  obtain ⟨files, opened, wrote, read, runs⟩ := restored fuel le
  refine ⟨files, opened, wrote, read, fun invariants is turn => (runs invariants is turn).mpr fun _ => .inr fun i pos lt => ?_⟩
  obtain rfl : i = 1 := by omega
  decide

end Masstree
