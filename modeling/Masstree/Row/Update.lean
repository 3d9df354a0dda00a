import Masstree.Row.Columns

/-!
# Updates of a row

A row of any contents is laid out as its columns, so that an update of one that fits its offsets is what is asked for.
-/

namespace Masstree
open Msgpack (Bytes)

namespace ValueBag

/-- The offsets go up from the end of the header to the end of the row, and fit. -/
structure Wf (r : ValueBag) : Prop where
  length : r.pos.length = r.ncol + 1
  first : r.posAt 0 = sizeofBagdata + 2 * r.ncol
  mono : ∀ i < r.ncol, r.posAt i ≤ r.posAt (i + 1)
  whole : r.posAt r.ncol = r.s.length
  small : r.posAt r.ncol < 2 ^ 16

variable {r r' : ValueBag} {changes : Changes} {ts i j : Nat}

theorem Wf.le (wf : r.Wf) (le : i ≤ j) (inside : j ≤ r.ncol) : r.posAt i ≤ r.posAt j := by
  induction j, le using Nat.le_induction with
  | base => exact Nat.le_refl _
  | succ j _ ih => exact Nat.le_trans (ih (Nat.le_of_succ_le inside)) (wf.mono j inside)

theorem Wf.columnLength_eq (wf : r.Wf) (inside : i < r.ncol) : r.columnLength i = r.posAt (i + 1) - r.posAt i := by
  have up := wf.mono i inside
  have last : r.posAt (i + 1) ≤ r.posAt r.ncol := wf.le inside (Nat.le_refl _)
  have small := wf.small
  rw [columnLength, offset]
  omega

/-- The columns before one are the bytes from the end of the header to where it begins. -/
theorem Wf.take_columns (wf : r.Wf) (inside : i ≤ r.ncol) :
    (r.columns.take i).flatten = (r.s.drop (r.posAt 0)).take (r.posAt i - r.posAt 0) := by
  induction i with
  | zero => rw [Nat.sub_self, List.take_zero, List.take_zero, List.flatten_nil]
  | succ i ih =>
    have length : r.columns.length = r.ncol := by
      rw [columns, List.length_map, List.length_range]
    have lt : i < r.columns.length := length ▸ inside
    have column : r.columns[i] = (r.s.drop (r.posAt i)).take (r.posAt (i + 1) - r.posAt i) := by
      simp only [columns, List.getElem_map, List.getElem_range]
      rw [col, if_pos (Nat.lt_of_succ_le inside), wf.columnLength_eq inside]
    have low := wf.le (Nat.zero_le i) (Nat.le_of_succ_le inside)
    have up := wf.mono i inside
    have parts : r.posAt (i + 1) - r.posAt 0 = (r.posAt i - r.posAt 0) + (r.posAt (i + 1) - r.posAt i) := by omega
    rw [List.take_succ_eq_append_getElem lt, List.flatten_append, ih (Nat.le_of_succ_le inside), List.flatten_singleton, column,
      parts, List.take_add, List.drop_drop, Nat.add_sub_of_le low]

theorem length_s (r : ValueBag) : r.s.length = 2 + 2 * r.pos.length + r.body.length := by
  rw [s, List.length_append, List.length_append, flatMap_le16_length]
  rfl

/-- A row is laid out as its columns. -/
theorem Wf.eq_ofColumns (wf : r.Wf) : r = ofColumns r.ts r.columns ∧ layoutSize r.columns < 2 ^ 16 := by
  have length : r.columns.length = r.ncol := by
    rw [columns, List.length_map, List.length_range]
  have header : sizeofBagdata + 2 * r.ncol = (le16 r.ncol ++ r.pos.flatMap le16).length := by
    rw [List.length_append, flatMap_le16_length, wf.length]
    show 4 + 2 * r.ncol = 2 + 2 * (r.ncol + 1)
    omega
  have starts : ∀ k ≤ r.ncol, columnStart r.columns k = r.posAt k := by
    intro k inside
    have low := wf.le (Nat.zero_le k) inside
    have high := wf.le inside (Nat.le_refl _)
    have whole := wf.whole
    rw [columnStart, length, ← wf.first, wf.take_columns inside, List.length_take, List.length_drop]
    omega
  have body : r.columns.flatten = r.body := by
    have all := wf.take_columns (Nat.le_refl r.ncol)
    rw [← length, List.take_length, length] at all
    rw [all, wf.whole, ← List.length_drop, List.take_length, wf.first, header, s, List.drop_left]
  have pos : (List.range (r.columns.length + 1)).map (columnStart r.columns) = r.pos := by
    refine List.ext_getElem (by rw [List.length_map, List.length_range, length, wf.length]) fun k lt lt' => ?_
    rw [List.getElem_map, List.getElem_range, starts k (by rw [wf.length] at lt'; omega), posAt, List.getD_eq_getElem _ _ lt']
  refine ⟨?_, ?_⟩
  · rw [ofColumns, length, ← length, pos, body, length]
  · rw [← columnStart_length, length, starts _ (Nat.le_refl _)]
    exact wf.small

theorem wf_ofColumns {cols : List Bytes} (fits : layoutSize cols < 2 ^ 16) (ts : Nat) : (ofColumns ts cols).Wf where
  length := by
    show ((List.range (cols.length + 1)).map _).length = cols.length + 1
    rw [List.length_map, List.length_range]
  first := by
    rw [ofColumns_posAt (Nat.zero_le _), columnStart, List.take_zero, List.flatten_nil]
    rfl
  mono := by
    intro i inside
    rw [ofColumns_posAt (Nat.le_of_lt inside), ofColumns_posAt inside]
    exact columnStart_mono cols (Nat.le_succ i)
  whole := by
    have pos : (ofColumns ts cols).pos.length = cols.length + 1 := by
      show ((List.range (cols.length + 1)).map _).length = cols.length + 1
      rw [List.length_map, List.length_range]
    have ncol : (ofColumns ts cols).ncol = cols.length := rfl
    have body : (ofColumns ts cols).body = cols.flatten := rfl
    rw [ncol, ofColumns_posAt (Nat.le_refl _), columnStart_length, length_s, pos, body, layoutSize]
    show 4 + _ + _ = _
    omega
  small := by
    have ncol : (ofColumns ts cols).ncol = cols.length := rfl
    rwa [ncol, ofColumns_posAt (Nat.le_refl _), columnStart_length]

/-- What an update of the row has to return, with `allocated` bytes to write in. -/
structure Updates (r : ValueBag) (changes : Changes) (ts : Nat) (allocated : Int) (r' : ValueBag) : Prop where
  wf : r'.Wf
  timestamp : r'.timestamp = ts
  ncol : r'.ncol = width r.ncol changes
  col : ∀ i, r'.col i = (requested changes i).getD (r.col i)
  size : allocated = r'.size

theorem updates_applyChanges (wf : r.Wf) (fits : layoutSize (applyChanges r.columns changes) < 2 ^ 16) (ts : Nat) :
    r.Updates changes ts (sizeofTimestamp + layoutSize (applyChanges r.columns changes) : Nat)
      (ofColumns ts (applyChanges r.columns changes)) := by
  obtain ⟨same, fits'⟩ := wf.eq_ofColumns
  have length : r.columns.length = r.ncol := by
    rw [columns, List.length_map, List.length_range]
  refine ⟨wf_ofColumns fits ts, rfl, ?_, fun i => ?_, ?_⟩
  · show (applyChanges r.columns changes).length = _
    rw [applyChanges, List.length_map, List.length_range, length]
  · have old : r.columns.getD i [] = r.col i := by
      conv_rhs => rw [same]
      exact (ofColumns_col fits' i).symm
    rw [ofColumns_col fits, ← old]
    exact applyChanges_getD _ _ _
  · rw [ofColumns_size]

/-- An update by increasing columns whose result fits the offsets is exact, whether it overwrites one column or lays out the row
afresh, and the two ways of creating a row are updates of the empty one. -/
theorem update_exact (wf : r.Wf) (sorted : changes.Pairwise fun p q => p.1 < q.1)
    (fits : layoutSize (applyChanges r.columns changes) < 2 ^ 16) (ts : Nat) :
    (∃ r', r.update changes ts = some r' ∧ r.Updates changes ts (r.plan changes).1 r' ∧
      r.rebuild changes ts (r.plan changes).1 (r.plan changes).2 = some r') ∧
    create changes ts = empty.update changes ts ∧
    ∀ v : Bytes, layoutSize [v] < 2 ^ 16 → empty.update [(0, v)] ts = some (create1 v ts) := by
  obtain ⟨same, fits'⟩ := wf.eq_ofColumns
  have updated := @update_ofColumns r.columns changes r.ts ts sorted fits' fits
  obtain ⟨planned, rebuilt⟩ := @rebuild_ofColumns r.columns changes r.ts ts sorted fits' fits
  rw [← same] at updated planned rebuilt
  refine ⟨⟨_, updated, ?_, ?_⟩, rfl, fun v fitsOne => ?_⟩
  · rw [planned]
    exact updates_applyChanges wf fits ts
  · rw [planned]
    exact rebuilt
  · rw [create1_eq fitsOne]
    exact @update_ofColumns [] [(0, v)] 0 ts (List.pairwise_singleton _ _) (by decide) fitsOne

/-- A shorter value for one of two columns, and a fourth column after a gap. -/
theorem update_exact_gap : (∃ r', (ofColumns 1 [[1, 2, 3], [4]]).update [(0, [9]), (3, [7, 8])] 5 = some r' ∧
      (ofColumns 1 [[1, 2, 3], [4]]).Updates [(0, [9]), (3, [7, 8])] 5
      ((ofColumns 1 [[1, 2, 3], [4]]).plan [(0, [9]), (3, [7, 8])]).1 r' ∧
      (ofColumns 1 [[1, 2, 3], [4]]).rebuild [(0, [9]), (3, [7, 8])] 5 ((ofColumns 1 [[1, 2, 3], [4]]).plan [(0, [9]), (3, [7, 8])]).1
        ((ofColumns 1 [[1, 2, 3], [4]]).plan [(0, [9]), (3, [7, 8])]).2 = some r') ∧
    create [(0, [9]), (3, [7, 8])] 5 = empty.update [(0, [9]), (3, [7, 8])] 5 ∧
    ∀ v : Bytes, layoutSize [v] < 2 ^ 16 → empty.update [(0, v)] 5 = some (create1 v 5) :=
  update_exact (wf_ofColumns (by decide) 1) (by decide) (by decide) 5

end ValueBag

end Masstree
