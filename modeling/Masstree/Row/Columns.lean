import Mathlib.Data.List.GetD
import Masstree.Row.ValueBag

/-!
# Rows as column vectors

A row whose offsets fit their 16 bits is laid out as its columns one after another. An update by increasing
columns, as `value_bag::update` requires, replaces and adds columns; the result is laid out the same way.
-/

namespace Masstree
open Msgpack (Bytes)

/-- The value requested for a column: the last one, if it is repeated. -/
def requested (changes : Changes) (i : Nat) : Option Bytes := (changes.reverse.find? (·.1 = i)).map (·.2)

/-- The number of columns once `changes` are applied to `n` columns. -/
def width (n : Nat) (changes : Changes) : Nat := changes.foldl (fun w p => max w (p.1 + 1)) n

/-- Each named column gets its requested value, every other one keeps its value, and new columns between are empty. -/
def applyChanges (cols : List Bytes) (changes : Changes) : List Bytes :=
  (List.range (width cols.length changes)).map fun i => (requested changes i).getD (cols.getD i [])

namespace ValueBag

/-- The bytes `bagdata` takes up for these columns. -/
def layoutSize (cols : List Bytes) : Nat := sizeofBagdata + 2 * cols.length + cols.flatten.length

def columnStart (cols : List Bytes) (i : Nat) : Nat := sizeofBagdata + 2 * cols.length + (cols.take i).flatten.length

def ofColumns (ts : Nat) (cols : List Bytes) : ValueBag :=
  { ts, ncol := cols.length
    pos := (List.range (cols.length + 1)).map (columnStart cols)
    body := cols.flatten }

def columns (r : ValueBag) : List Bytes := (List.range r.ncol).map r.col

/-! ### Reading a laid out row -/

theorem columnStart_length (cols : List Bytes) : columnStart cols cols.length = layoutSize cols := by
  rw [columnStart, layoutSize, List.take_length]

theorem columnStart_mono (cols : List Bytes) {i j : Nat} (le : i ≤ j) : columnStart cols i ≤ columnStart cols j := by
  obtain ⟨more, same⟩ : cols.take i <+: cols.take j := List.take_prefix_take_left le
  unfold columnStart
  rw [← same, List.flatten_append, List.length_append]
  omega

theorem columnStart_le (cols : List Bytes) (i : Nat) : columnStart cols i ≤ layoutSize cols := by
  have whole : cols.flatten = (cols.take i).flatten ++ (cols.drop i).flatten := by
    rw [← List.flatten_append, List.take_append_drop]
  unfold columnStart layoutSize
  rw [whole, List.length_append]
  omega

theorem columnStart_succ {cols : List Bytes} {i : Nat} (lt : i < cols.length) :
    columnStart cols (i + 1) = columnStart cols i + (cols.getD i []).length := by
  unfold columnStart
  rw [List.take_succ_eq_append_getElem lt, List.flatten_append, List.length_append, List.getD_eq_getElem _ _ lt]
  simp
  omega

section laidOut
variable {cols : List Bytes} {ts : Nat}

theorem ofColumns_posAt {i : Nat} (le : i ≤ cols.length) : (ofColumns ts cols).posAt i = columnStart cols i := by
  unfold posAt ofColumns
  rw [List.getD_eq_getElem _ _ (by simpa using Nat.lt_succ_of_le le)]
  simp

theorem ofColumns_size : (ofColumns ts cols).size = sizeofTimestamp + layoutSize cols := by
  rw [size, show (ofColumns ts cols).ncol = cols.length from rfl, ofColumns_posAt (Nat.le_refl _), columnStart_length]

theorem flatMap_le16_length (xs : List Nat) : (xs.flatMap le16).length = 2 * xs.length := by
  induction xs with
  | nil => rfl
  | cons x xs ih =>
    rw [List.flatMap_cons, List.length_append, ih]
    simp [le16]
    omega

/-- The bytes from one column's start to another's. -/
theorem ofColumns_slice {i j : Nat} (le : i ≤ j) :
    ((ofColumns ts cols).s.drop (columnStart cols i)).take (columnStart cols j - columnStart cols i) =
      ((cols.take j).drop i).flatten := by
  have header : (le16 cols.length ++ ((List.range (cols.length + 1)).map (columnStart cols)).flatMap le16).length =
      sizeofBagdata + 2 * cols.length := by
    rw [List.length_append, flatMap_le16_length]
    simp [le16, sizeofBagdata]
    omega
  have parts : cols.flatten = (cols.take i).flatten ++ ((cols.take j).drop i).flatten ++ (cols.drop j).flatten := by
    have first : cols.take i = (cols.take j).take i := by rw [List.take_take, Nat.min_eq_left le]
    rw [← List.flatten_append, first, List.take_append_drop, ← List.flatten_append, List.take_append_drop]
  have long : (cols.take j).flatten.length = (cols.take i).flatten.length + ((cols.take j).drop i).flatten.length := by
    have first : cols.take i = (cols.take j).take i := by rw [List.take_take, Nat.min_eq_left le]
    rw [first, ← List.length_append, ← List.flatten_append, List.take_append_drop]
  have skip : columnStart cols i = (le16 cols.length ++
      ((List.range (cols.length + 1)).map (columnStart cols)).flatMap le16 ++ (cols.take i).flatten).length := by
    rw [List.length_append, header]
    rfl
  have size : columnStart cols j - columnStart cols i = ((cols.take j).drop i).flatten.length := by
    unfold columnStart
    omega
  have whole : (ofColumns ts cols).s = (le16 cols.length ++
      ((List.range (cols.length + 1)).map (columnStart cols)).flatMap le16 ++ (cols.take i).flatten) ++
        (((cols.take j).drop i).flatten ++ (cols.drop j).flatten) := by
    rw [s, ofColumns]
    dsimp only
    conv_lhs => rw [parts]
    simp only [List.append_assoc]
  rw [whole, size, List.drop_left' skip.symm, List.take_left]

theorem ofColumns_columnLength {i : Nat} (fits : layoutSize cols < 2 ^ 16) (lt : i < cols.length) :
    (ofColumns ts cols).columnLength i = (cols.getD i []).length := by
  have later := columnStart_succ lt
  have bound := columnStart_le cols (i + 1)
  rw [columnLength, ofColumns_posAt lt, ofColumns_posAt (Nat.le_of_lt lt), later, offset]
  omega

theorem ofColumns_col (fits : layoutSize cols < 2 ^ 16) (i : Nat) : (ofColumns ts cols).col i = cols.getD i [] := by
  unfold col
  rw [show (ofColumns ts cols).ncol = cols.length from rfl]
  split
  · rename_i lt
    have later := columnStart_succ lt
    have length : (cols.getD i []).length = columnStart cols (i + 1) - columnStart cols i := by omega
    rw [ofColumns_columnLength fits lt, ofColumns_posAt (Nat.le_of_lt lt), length,
      ofColumns_slice (Nat.le_succ i), List.take_succ_eq_append_getElem lt, List.drop_left' (by simp; omega),
      List.getD_eq_getElem _ _ lt]
    simp
  · rename_i ge
    rw [List.getD_eq_default _ _ (Nat.le_of_not_lt ge)]

theorem ofColumns_columns (fits : layoutSize cols < 2 ^ 16) : (ofColumns ts cols).columns = cols := by
  unfold columns
  refine List.ext_getElem (by simp [ofColumns]) fun i lt lt' => ?_
  rw [List.getElem_map, List.getElem_range, ofColumns_col fits, List.getD_eq_getElem _ _ lt']

end laidOut

/-! ### Increasing changes -/

/-- The old columns from `k` on, up to `idx`, and empty ones past their end. -/
def between (cols : List Bytes) (k idx : Nat) : List Bytes :=
  (cols.take idx).drop k ++ List.replicate (idx - max k cols.length) []

def merge (cols : List Bytes) (k : Nat) : Changes → List Bytes
  | [] => cols.drop k
  | (idx, v) :: rest => between cols k idx ++ v :: merge cols (idx + 1) rest

def Increasing : Nat → Changes → Prop
  | _, [] => True
  | k, (idx, _) :: rest => k ≤ idx ∧ Increasing (idx + 1) rest

theorem increasing_of_pairwise {k : Nat} {changes : Changes} (sorted : changes.Pairwise fun p q => p.1 < q.1)
    (bound : ∀ p ∈ changes, k ≤ p.1) : Increasing k changes := by
  induction changes generalizing k with
  | nil => trivial
  | cons p rest ih =>
    obtain ⟨idx, v⟩ := p
    obtain ⟨first, later⟩ := List.pairwise_cons.mp sorted
    exact ⟨bound (idx, v) List.mem_cons_self, ih later fun q member => first q member⟩

theorem Increasing.le {k : Nat} {changes : Changes} (increasing : Increasing k changes) :
    ∀ p ∈ changes, k ≤ p.1 := by
  induction changes generalizing k with
  | nil => simp
  | cons p rest ih =>
    obtain ⟨idx, v⟩ := p
    intro q member
    rcases List.mem_cons.mp member with rfl | later
    · exact increasing.1
    · exact Nat.le_trans (Nat.le_succ_of_le increasing.1) (ih increasing.2 q later)

theorem between_eq (cols : List Bytes) (k idx : Nat) :
    (List.range' k (idx - k)).map (fun i => cols.getD i []) = between cols k idx := by
  have length : (between cols k idx).length = idx - k := by
    simp [between]
    omega
  refine List.ext_getElem (by simp [length]) fun i lt lt' => ?_
  rw [List.getElem_map, List.getElem_range']
  simp only [between] at lt' ⊢
  rw [List.getElem_append]
  split
  · rename_i inside
    simp at inside
    rw [List.getD_eq_getElem _ _ (by omega)]
    simp
  · rename_i outside
    simp at outside lt'
    rw [List.getD_eq_default _ _ (by omega)]
    simp

theorem requested_of_lt {changes : Changes} {k i : Nat} (increasing : Increasing k changes) (lt : i < k) :
    requested changes i = none := by
  have absent : changes.reverse.find? (·.1 = i) = none := by
    rw [List.find?_eq_none]
    intro p member
    have := increasing.le p (List.mem_reverse.mp member)
    simp
    omega
  rw [requested, absent]
  rfl

theorem requested_cons (idx : Nat) (v : Bytes) (rest : Changes) (i : Nat) :
    requested ((idx, v) :: rest) i = (requested rest i).or (if idx = i then some v else none) := by
  unfold requested
  rw [List.reverse_cons, List.find?_append]
  cases rest.reverse.find? (·.1 = i) with
  | some p => rfl
  | none =>
    by_cases same : idx = i
    · simp [same]
    · simp [same]

theorem width_max (n a : Nat) (changes : Changes) : width (max n a) changes = max (width n changes) a := by
  unfold width
  induction changes generalizing n with
  | nil => rfl
  | cons p rest ih =>
    rw [List.foldl_cons, List.foldl_cons, ← ih]
    congr 1
    omega

theorem width_cons (n idx : Nat) (v : Bytes) (rest : Changes) :
    width n ((idx, v) :: rest) = max (width n rest) (idx + 1) := width_max n (idx + 1) rest

theorem lt_width {changes : Changes} {p : Nat × Bytes} (mem : p ∈ changes) (n : Nat) : p.1 < width n changes := by
  induction changes with
  | nil => cases mem
  | cons q rest ih =>
    obtain ⟨idx, v⟩ := q
    rw [width_cons]
    rcases List.mem_cons.mp mem with rfl | later
    · exact Nat.lt_of_lt_of_le (Nat.lt_succ_self idx) (Nat.le_max_right _ _)
    · exact Nat.lt_of_lt_of_le (ih later) (Nat.le_max_left _ _)

/-- The new columns from `k` on, column by column. -/
theorem merge_eq {cols : List Bytes} {changes : Changes} {k : Nat} (increasing : Increasing k changes) :
    (List.range' k (width cols.length changes - k)).map (fun i => (requested changes i).getD (cols.getD i [])) =
      merge cols k changes := by
  induction changes generalizing k with
  | nil =>
    have none_ : ∀ i, requested [] i = none := fun i => rfl
    simp only [none_, Option.getD_none, width, List.foldl_nil]
    rw [between_eq, between, List.take_length, merge]
    have past : cols.length - max k cols.length = 0 := by omega
    rw [past, List.replicate_zero, List.append_nil]
  | cons p rest ih =>
    obtain ⟨idx, v⟩ := p
    obtain ⟨le, later⟩ := increasing
    have split : width cols.length ((idx, v) :: rest) - k =
        (idx - k) + (1 + (width cols.length rest - (idx + 1))) := by
      rw [width_cons]
      omega
    rw [split, ← List.range'_append_1, ← List.range'_append_1, List.map_append, List.map_append]
    have start : k + (idx - k) = idx := by omega
    rw [start]
    have before : (List.range' k (idx - k)).map (fun i => (requested ((idx, v) :: rest) i).getD (cols.getD i [])) =
        between cols k idx := by
      rw [← between_eq]
      refine List.map_congr_left fun i member => ?_
      have range := List.mem_range'_1.mp member
      rw [requested_cons, requested_of_lt later (by omega), if_neg (by omega)]
      rfl
    have here : (List.range' idx 1).map (fun i => (requested ((idx, v) :: rest) i).getD (cols.getD i [])) = [v] := by
      rw [List.range'_one, List.map_singleton, requested_cons, requested_of_lt later (Nat.lt_succ_self _), if_pos rfl]
      rfl
    have after : (List.range' (idx + 1) (width cols.length rest - (idx + 1))).map
        (fun i => (requested ((idx, v) :: rest) i).getD (cols.getD i [])) = merge cols (idx + 1) rest := by
      rw [← ih later]
      refine List.map_congr_left fun i member => ?_
      have range := List.mem_range'_1.mp member
      rw [requested_cons, if_neg (by omega), Option.or_none]
    rw [before, here, after, merge, List.singleton_append]

theorem applyChanges_eq {cols : List Bytes} {changes : Changes} (increasing : Increasing 0 changes) :
    applyChanges cols changes = merge cols 0 changes := by
  rw [← merge_eq increasing, applyChanges, List.range_eq_range', Nat.sub_zero]

/-! ### The loop of `update` -/

/-- Where columns begin that are laid out from `start`. -/
def starts (start : Nat) : List Bytes → List Nat
  | [] => []
  | c :: cs => start :: starts (start + c.length) cs

theorem starts_append (start : Nat) (a b : List Bytes) :
    starts start (a ++ b) = starts start a ++ starts (start + a.flatten.length) b := by
  induction a generalizing start with
  | nil => rfl
  | cons c cs ih => simp [starts, ih, Nat.add_assoc]

theorem starts_replicate (start n : Nat) : starts start (List.replicate n []) = List.replicate n start := by
  induction n with
  | zero => rfl
  | succ n ih => simp [List.replicate_succ, starts, ih]

/-- The running offsets are those of the columns. -/
theorem starts_eq (header : Nat) (cols : List Bytes) :
    starts header cols = (List.range cols.length).map fun i => header + (cols.take i).flatten.length := by
  induction cols generalizing header with
  | nil => rfl
  | cons c cs ih =>
    rw [starts, ih, List.length_cons, List.range_succ_eq_map, List.map_cons, List.map_map]
    simp [Function.comp_def, Nat.add_assoc]

theorem ofColumns_pos (ts : Nat) (cols : List Bytes) :
    (ofColumns ts cols).pos = starts (sizeofBagdata + 2 * cols.length) cols ++ [layoutSize cols] := by
  rw [starts_eq, ofColumns, List.range_succ, List.map_append, List.map_singleton, columnStart_length]
  rfl

/-- A fill that has laid out these columns more. -/
def Fill.extend (f : Fill) (cs : List Bytes) : Fill :=
  { col := f.col + cs.length, sz := f.sz + cs.flatten.length
    pos := f.pos ++ starts f.sz cs, body := f.body ++ cs.flatten }

theorem Fill.extend_extend (f : Fill) (a b : List Bytes) : (f.extend a).extend b = f.extend (a ++ b) := by
  simp [Fill.extend, starts_append, Nat.add_assoc]

section loop
variable {cols : List Bytes} {ts : Nat}

theorem offset_eq {n : Nat} (fits : n < 2 ^ 16) : offset n = n := Nat.mod_eq_of_lt fits

/-- Old columns are moved together. -/
theorem fillTo_old {k stop : Nat} {f : Fill} (le : k ≤ stop) (within : stop ≤ cols.length)
    (fits : f.sz + ((cols.take stop).drop k).flatten.length < 2 ^ 16) :
    ((List.range' k (stop - k)).map fun i =>
      offset ((ofColumns ts cols).posAt i + f.sz + 2 ^ 16 - (ofColumns ts cols).posAt k)) =
        starts f.sz ((cols.take stop).drop k) := by
  rw [starts_eq]
  refine List.ext_getElem (by simp; omega) fun i lt lt' => ?_
  have inside : k + i ≤ stop := by
    simp at lt
    omega
  rw [List.getElem_map, List.getElem_range', List.getElem_map, List.getElem_range, Nat.one_mul,
    ofColumns_posAt (by omega), ofColumns_posAt (by omega)]
  have mono := columnStart_mono cols (Nat.le_add_right k i)
  have prefix_ : ((cols.take stop).drop k).take i = (cols.take (k + i)).drop k := by
    rw [List.take_drop, List.take_take, Nat.min_eq_left inside]
  have size : (cols.take (k + i)).flatten.length =
      (cols.take k).flatten.length + ((cols.take (k + i)).drop k).flatten.length := by
    have first : cols.take k = (cols.take (k + i)).take k := by rw [List.take_take, Nat.min_eq_left (by omega)]
    rw [first, ← List.length_append, ← List.flatten_append, List.take_append_drop]
  have bound : (((cols.take stop).drop k).take i).flatten.length ≤ ((cols.take stop).drop k).flatten.length := by
    conv_rhs => rw [← List.take_append_drop i ((cols.take stop).drop k), List.flatten_append, List.length_append]
    exact Nat.le_add_right _ _
  rw [prefix_] at bound ⊢
  have moved : columnStart cols (k + i) + f.sz + 2 ^ 16 - columnStart cols k =
      f.sz + ((cols.take (k + i)).drop k).flatten.length + 2 ^ 16 := by
    unfold columnStart
    omega
  rw [moved, offset, Nat.add_mod_right]
  exact Nat.mod_eq_of_lt (by omega)

theorem fillTo_extend {thisCol : Nat} {f : Fill} (le : f.col ≤ thisCol)
    (fits : f.sz + (between cols f.col thisCol).flatten.length < 2 ^ 16) :
    fillTo (ofColumns ts cols) thisCol f = some (f.extend (between cols f.col thisCol)) := by
  have total : (between cols f.col thisCol).flatten = ((cols.take thisCol).drop f.col).flatten := by
    simp [between]
  rw [total] at fits
  have last : ∀ g : Fill, g.col = max f.col (min thisCol cols.length) → g.sz < 2 ^ 16 →
      (if thisCol < g.col then none
        else some { g with col := thisCol, pos := g.pos ++ List.replicate (thisCol - g.col) (offset g.sz) }) =
        some (g.extend (List.replicate (thisCol - max f.col cols.length) [])) := by
    intro g col small
    have rest : thisCol - max f.col cols.length = thisCol - g.col := by omega
    rw [if_neg (by omega), rest, Fill.extend, starts_replicate, offset_eq small, List.length_replicate]
    simp
    omega
  unfold fillTo
  rw [show (ofColumns ts cols).ncol = cols.length from rfl]
  by_cases old : f.col ≠ thisCol ∧ f.col < cols.length
  · have stop : min thisCol cols.length ≤ cols.length := Nat.min_le_right _ _
    have start : f.col ≤ min thisCol cols.length := by omega
    have same : cols.take (min thisCol cols.length) = cols.take thisCol := by
      rw [← List.take_take, List.take_length]
    have bytes : (ofColumns ts cols).slice? ((ofColumns ts cols).posAt f.col)
        ((ofColumns ts cols).posAt (min thisCol cols.length)) = some ((cols.take thisCol).drop f.col).flatten := by
      have mono := columnStart_mono cols start
      have whole : (ofColumns ts cols).s.length = layoutSize cols := by
        rw [s, ofColumns]
        simp only [List.length_append, flatMap_le16_length, List.length_map, List.length_range]
        simp [le16, layoutSize, sizeofBagdata]
        omega
      rw [ofColumns_posAt (by omega), ofColumns_posAt stop, slice?,
        if_pos ⟨mono, by rw [whole]; exact columnStart_le cols _⟩, ofColumns_slice start, same]
    have moved := @fillTo_old cols ts f.col (min thisCol cols.length) f start stop (by rw [same]; exact fits)
    rw [same] at moved
    simp only [if_pos old, Option.bind_eq_bind]
    rw [if_neg (by omega), bytes]
    simp only [Option.bind_some]
    rw [moved]
    have step := last
      { col := min thisCol cols.length, sz := f.sz + ((cols.take thisCol).drop f.col).flatten.length
        pos := f.pos ++ starts f.sz ((cols.take thisCol).drop f.col)
        body := f.body ++ ((cols.take thisCol).drop f.col).flatten } (by dsimp only; omega) fits
    rw [step, between, ← Fill.extend_extend]
    congr 2
    simp only [Fill.extend, Fill.mk.injEq, and_true, List.length_drop, List.length_take]
    omega
  · simp only [if_neg old, Option.bind_eq_bind, Option.bind_some]
    have none_ : (cols.take thisCol).drop f.col = [] := by
      rw [List.drop_eq_nil_iff, List.length_take]
      omega
    rw [last f (by omega) (by omega), between, none_, List.nil_append]

/-- The loop lays out the new columns. -/
theorem fill_extend {changes : Changes} {f : Fill} {ncol : Nat} (increasing : Increasing f.col changes)
    (all : ncol = max (width cols.length changes) f.col)
    (fits : f.sz + (merge cols f.col changes).flatten.length < 2 ^ 16) :
    fill (ofColumns ts cols) ncol changes f = some (f.extend (merge cols f.col changes)) := by
  induction changes generalizing f with
  | nil =>
    have rest : between cols f.col ncol = cols.drop f.col := by
      have width_ : width cols.length [] = cols.length := rfl
      rw [width_] at all
      have past : ncol - max f.col cols.length = 0 := by omega
      rw [between, past, List.replicate_zero, List.append_nil, List.take_of_length_le (by omega)]
    rw [fill, fillTo_extend (by omega) (by rw [rest]; exact fits), rest, merge]
  | cons p rest ih =>
    obtain ⟨idx, v⟩ := p
    obtain ⟨le, later⟩ := increasing
    rw [width_cons] at all
    have col : (f.extend (between cols f.col idx)).col = idx := by
      have length : (between cols f.col idx).length = idx - f.col := by
        rw [← between_eq, List.length_map, List.length_range']
      simp only [Fill.extend, length]
      omega
    simp only [merge, List.flatten_append, List.flatten_cons, List.length_append] at fits
    rw [fill, fillTo_extend le (by omega)]
    simp only [Option.bind_eq_bind, Option.bind_some]
    rw [if_neg (by rw [col]; omega)]
    have sized : (f.extend (between cols f.col idx)).sz = f.sz + (between cols f.col idx).flatten.length := rfl
    have change : ({ col := (f.extend (between cols f.col idx)).col + 1
                     sz := (f.extend (between cols f.col idx)).sz + v.length
                     pos := (f.extend (between cols f.col idx)).pos ++ [offset (f.extend (between cols f.col idx)).sz]
                     body := (f.extend (between cols f.col idx)).body ++ v } : Fill) =
        f.extend (between cols f.col idx ++ [v]) := by
      rw [← Fill.extend_extend, offset_eq (by rw [sized]; omega)]
      generalize f.extend (between cols f.col idx) = g
      simp [Fill.extend, starts]
    have col' : (f.extend (between cols f.col idx ++ [v])).col = idx + 1 := by
      rw [← Fill.extend_extend, Fill.extend, col]
      rfl
    have sized' : (f.extend (between cols f.col idx ++ [v])).sz =
        f.sz + (between cols f.col idx).flatten.length + v.length := by
      simp [Fill.extend]
      omega
    rw [change, ih (by rw [col']; exact later) (by rw [col']; omega) (by rw [col', sized']; omega), col',
      Fill.extend_extend, merge, List.append_assoc, List.singleton_append]

end loop

theorem merge_length {cols : List Bytes} {changes : Changes} {k : Nat} (increasing : Increasing k changes) :
    k + (merge cols k changes).length = max (width cols.length changes) k := by
  rw [← merge_eq increasing, List.length_map, List.length_range']
  omega

theorem drop_flatten_length (cols : List Bytes) {k idx : Nat} (le : k ≤ idx) :
    (cols.drop k).flatten.length =
      (between cols k idx).flatten.length + (cols.getD idx []).length + (cols.drop (idx + 1)).flatten.length := by
  have old : (between cols k idx).flatten = ((cols.take idx).drop k).flatten := by simp [between]
  rw [old]
  by_cases inside : idx < cols.length
  · have parts : cols.drop k = (cols.take idx).drop k ++ cols[idx] :: cols.drop (idx + 1) := by
      have tail : cols[idx] :: cols.drop (idx + 1) = cols.drop idx := (List.drop_eq_getElem_cons inside).symm
      rw [tail, ← List.drop_append_of_le_length (by rw [List.length_take]; omega), List.take_append_drop]
    rw [parts, List.getD_eq_getElem _ _ inside, List.flatten_append, List.flatten_cons, List.length_append,
      List.length_append]
    omega
  · rw [List.take_of_length_le (by omega), List.getD_eq_default _ _ (by omega),
      List.drop_of_length_le (i := idx + 1) (by omega)]
    rfl

section update
variable {cols : List Bytes} {changes : Changes} {t t' : Nat}

theorem measure_eq {k : Nat} (fits : layoutSize cols < 2 ^ 16) (increasing : Increasing k changes)
    (bound : width cols.length changes < 2 ^ 32) (sz : Int) :
    measure (ofColumns t cols) changes sz (max cols.length k) =
      (sz + (merge cols k changes).flatten.length - (cols.drop k).flatten.length,
        max (width cols.length changes) k) := by
  induction changes generalizing k sz with
  | nil => simp [measure, merge, width]
  | cons p rest ih =>
    obtain ⟨idx, v⟩ := p
    obtain ⟨le, later⟩ := increasing
    have grown := width_cons cols.length idx v rest
    have bound' : width cols.length rest < 2 ^ 32 := by omega
    have parts := drop_flatten_length cols le
    have columns : max cols.length k = cols.length ∨ cols.length ≤ idx := by omega
    have added : (merge cols k ((idx, v) :: rest)).flatten.length =
        (between cols k idx).flatten.length + v.length + (merge cols (idx + 1) rest).flatten.length := by
      simp only [merge, List.flatten_append, List.flatten_cons, List.length_append]
      omega
    have ncol : (ofColumns t cols).ncol = cols.length := rfl
    rw [measure, ncol, width_cons, added, parts]
    split
    · rename_i old
      have same : max cols.length k = max cols.length (idx + 1) := by omega
      rw [same, ih later bound', ofColumns_columnLength fits old]
      refine Prod.ext ?_ ?_
      · dsimp only
        omega
      · dsimp only
        omega
    · rename_i new
      have same : (idx + 1) % 2 ^ 32 = max cols.length (idx + 1) := by
        rw [Nat.mod_eq_of_lt (by omega)]
        omega
      rw [same, ih later bound', List.getD_eq_default _ _ (by omega)]
      refine Prod.ext ?_ ?_
      · simp only [List.length_nil]
        omega
      · dsimp only
        omega

theorem plan_eq (fits : layoutSize cols < 2 ^ 16) (increasing : Increasing 0 changes)
    (bound : width cols.length changes < 2 ^ 32) :
    plan (ofColumns t cols) changes =
      (((sizeofTimestamp + layoutSize (merge cols 0 changes) : Nat) : Int), (merge cols 0 changes).length) := by
  have measured := @measure_eq cols changes t 0 fits increasing bound (ofColumns t cols).size
  have length := @merge_length cols changes 0 increasing
  have grows : cols.length ≤ (merge cols 0 changes).length := by
    have : cols.length ≤ width cols.length changes := by
      have := width_max 0 cols.length changes
      rw [Nat.max_eq_right (Nat.zero_le _)] at this
      omega
    omega
  rw [Nat.max_zero, Nat.max_zero, List.drop_zero] at measured
  have ncol : (ofColumns t cols).ncol = cols.length := rfl
  have width_ : width cols.length changes = (merge cols 0 changes).length := by omega
  rw [plan, ncol, measured, ofColumns_size, width_]
  dsimp only
  refine Prod.ext ?_ rfl
  dsimp only
  unfold layoutSize
  split <;> omega

/-- A row of the same column lengths begins its columns at the same offsets. -/
theorem columnStart_congr {a b : List Bytes} (same : a.map List.length = b.map List.length) (i : Nat) :
    columnStart a i = columnStart b i := by
  have length : a.length = b.length := by simpa using congrArg List.length same
  rw [columnStart, columnStart, List.length_flatten, List.length_flatten, List.map_take, List.map_take, same, length]

/-- Replacing one small column without changing its length. -/
theorem overwrite_eq {idx : Nat} {v : Bytes} (inside : idx < cols.length)
    (same : v.length = (cols.getD idx []).length) :
    overwrite (ofColumns t cols) idx v t' = some (ofColumns t' (merge cols 0 [(idx, v)])) := by
  have merged : merge cols 0 [(idx, v)] = cols.take idx ++ v :: cols.drop (idx + 1) := by
    have past : idx - cols.length = 0 := by omega
    simp [merge, between, past]
  have parts : cols = cols.take idx ++ cols[idx] :: cols.drop (idx + 1) := by
    rw [← List.drop_eq_getElem_cons inside, List.take_append_drop]
  have lengths : (merge cols 0 [(idx, v)]).map List.length = cols.map List.length := by
    rw [List.getD_eq_getElem _ _ inside] at same
    calc (merge cols 0 [(idx, v)]).map List.length
        = (cols.take idx ++ cols[idx] :: cols.drop (idx + 1)).map List.length := by
          rw [merged, List.map_append, List.map_append, List.map_cons, List.map_cons, same]
      _ = cols.map List.length := by rw [← parts]
  have length : (merge cols 0 [(idx, v)]).length = cols.length := by simpa using congrArg List.length lengths
  have header : columnStart cols 0 = sizeofBagdata + cols.length * 2 := by
    simp [columnStart]
    omega
  have body : (ofColumns t cols).slice? (sizeofBagdata + cols.length * 2) ((ofColumns t cols).posAt cols.length) =
      some cols.flatten := by
    have whole : (ofColumns t cols).s.length = layoutSize cols := by
      rw [s, ofColumns]
      simp only [List.length_append, flatMap_le16_length, List.length_map, List.length_range]
      simp [le16, layoutSize, sizeofBagdata]
      omega
    have slice := @ofColumns_slice cols t 0 cols.length (Nat.zero_le _)
    rw [ofColumns_posAt (Nat.le_refl _), ← header, slice?,
      if_pos ⟨columnStart_mono cols (Nat.zero_le _), by rw [whole]; exact columnStart_le cols _⟩, slice,
      List.take_length, List.drop_zero]
  have start : columnStart cols idx - (sizeofBagdata + cols.length * 2) = (cols.take idx).flatten.length := by
    unfold columnStart
    omega
  have flat : cols.flatten = (cols.take idx).flatten ++ (cols[idx] ++ (cols.drop (idx + 1)).flatten) := by
    have := congrArg List.flatten parts
    rw [List.flatten_append, List.flatten_cons] at this
    exact this
  rw [List.getD_eq_getElem _ _ inside] at same
  have ncol : (ofColumns t cols).ncol = cols.length := rfl
  rw [overwrite, ncol]
  simp only [Option.bind_eq_bind]
  rw [body, Option.bind_some, ofColumns_posAt (Nat.le_of_lt inside), start, if_pos]
  · rw [flat, List.take_left, ← List.append_assoc, List.drop_left' (by simp [same])]
    unfold ofColumns
    rw [length, merged]
    simp only [Option.some.injEq, ValueBag.mk.injEq, true_and]
    refine ⟨List.map_congr_left fun i _ => ?_, by simp⟩
    rw [← merged]
    exact (columnStart_congr lengths i).symm
  · refine ⟨?_, ?_⟩
    · unfold columnStart
      omega
    · rw [flat, List.length_append, List.length_append, same]
      omega

/-- The general path lays out the row with the changes applied, in the space that the first loop has counted. -/
theorem rebuild_ofColumns (sorted : changes.Pairwise fun p q => p.1 < q.1) (fits : layoutSize cols < 2 ^ 16)
    (fits' : layoutSize (applyChanges cols changes) < 2 ^ 16) :
    plan (ofColumns t cols) changes =
      (((sizeofTimestamp + layoutSize (applyChanges cols changes) : Nat) : Int), (applyChanges cols changes).length) ∧
    rebuild (ofColumns t cols) changes t' (sizeofTimestamp + layoutSize (applyChanges cols changes) : Nat)
      (applyChanges cols changes).length = some (ofColumns t' (applyChanges cols changes)) := by
  have increasing := @increasing_of_pairwise 0 changes sorted fun p _ => Nat.zero_le _
  have length := @merge_length cols changes 0 increasing
  rw [applyChanges_eq increasing] at fits' ⊢
  have bound : width cols.length changes < 2 ^ 32 := by
    unfold layoutSize at fits'
    omega
  refine ⟨@plan_eq cols changes t fits increasing bound, ?_⟩
  have small := fits'
  unfold layoutSize at small
  have laid := @fill_extend cols t changes
    ⟨0, sizeofBagdata + (merge cols 0 changes).length * 2, [], []⟩ (merge cols 0 changes).length increasing
    (by dsimp only; omega) (by dsimp only; omega)
  have sized : sizeofBagdata + (merge cols 0 changes).length * 2 + (merge cols 0 changes).flatten.length =
      layoutSize (merge cols 0 changes) := by
    unfold layoutSize
    omega
  rw [rebuild, laid]
  simp only [Option.bind_eq_bind, Option.bind_some, Fill.extend, sized]
  rw [if_pos (by push_cast; exact Int.le_refl _), offset_eq fits', offset_eq (by omega)]
  have pos := ofColumns_pos t' (merge cols 0 changes)
  have start : sizeofBagdata + (merge cols 0 changes).length * 2 = sizeofBagdata + 2 * (merge cols 0 changes).length := by
    omega
  rw [start, List.nil_append, List.nil_append, ← pos]
  rfl

/-- An update by increasing columns lays out the row with the changes applied. -/
theorem update_ofColumns (sorted : changes.Pairwise fun p q => p.1 < q.1) (fits : layoutSize cols < 2 ^ 16)
    (fits' : layoutSize (applyChanges cols changes) < 2 ^ 16) :
    (ofColumns t cols).update changes t' = some (ofColumns t' (applyChanges cols changes)) := by
  have increasing := @increasing_of_pairwise 0 changes sorted fun p _ => Nat.zero_le _
  have length := @merge_length cols changes 0 increasing
  obtain ⟨planned, rebuilt⟩ := @rebuild_ofColumns cols changes t t' sorted fits fits'
  rw [applyChanges_eq increasing] at planned rebuilt ⊢
  unfold update
  rw [planned]
  dsimp only
  split
  · rename_i idx v
    split
    · rename_i small
      obtain ⟨ncol_, size, -⟩ := small
      have ncol : (ofColumns t cols).ncol = cols.length := rfl
      have inside : idx < cols.length := by
        rw [ncol] at ncol_
        have grown : width cols.length [(idx, v)] = max cols.length (idx + 1) := rfl
        omega
      refine overwrite_eq inside ?_
      have parts := drop_flatten_length cols (Nat.zero_le idx)
      have added : (merge cols 0 [(idx, v)]).flatten.length =
          (between cols 0 idx).flatten.length + v.length + (cols.drop (idx + 1)).flatten.length := by
        simp only [merge, List.flatten_append, List.flatten_cons, List.length_append]
        omega
      rw [ofColumns_size] at size
      rw [List.drop_zero] at parts
      rw [ncol] at ncol_
      unfold layoutSize at size
      omega
    · exact rebuilt
  · exact rebuilt

theorem create_eq (sorted : changes.Pairwise fun p q => p.1 < q.1)
    (fits : layoutSize (applyChanges [] changes) < 2 ^ 16) :
    create changes t = some (ofColumns t (applyChanges [] changes)) :=
  @update_ofColumns [] changes 0 t sorted (by decide) fits

theorem create1_eq {v : Bytes} (fits : layoutSize [v] < 2 ^ 16) : create1 v t = ofColumns t [v] := by
  have small : sizeofBagdata + 2 + v.length < 2 ^ 16 := by
    simpa [layoutSize] using fits
  rw [create1, offset_eq small]
  simp [ofColumns, columnStart, List.range_succ]

end update

end ValueBag

/-! ### The columns after an update -/

theorem le_width (n : Nat) (changes : Changes) : n ≤ width n changes := by
  induction changes with
  | nil => exact Nat.le_refl n
  | cons q rest ih =>
    obtain ⟨idx, v⟩ := q
    rw [ValueBag.width_cons]
    exact Nat.le_trans ih (Nat.le_max_left _ _)

theorem applyChanges_length (values : List Bytes) (changes : Changes) :
    (applyChanges values changes).length = width values.length changes := by
  rw [applyChanges, List.length_map, List.length_range]

theorem applyChanges_getD (values : List Bytes) (changes : Changes) (i : Nat) :
    (applyChanges values changes).getD i [] = (requested changes i).getD (values.getD i []) := by
  have length := applyChanges_length values changes
  by_cases inside : i < width values.length changes
  · rw [List.getD_eq_getElem _ _ (by rw [length]; exact inside)]
    simp only [applyChanges, List.getElem_map, List.getElem_range]
  · have absent : requested changes i = none := by
      have none_ : changes.reverse.find? (·.1 = i) = none := by
        rw [List.find?_eq_none]
        intro p mem
        have bound := ValueBag.lt_width (List.mem_reverse.mp mem) values.length
        simp
        omega
      rw [requested, none_]
      rfl
    have wide := le_width values.length changes
    rw [absent, List.getD_eq_default _ _ (by rw [length]; omega), List.getD_eq_default _ _ (by omega)]
    rfl

end Masstree
