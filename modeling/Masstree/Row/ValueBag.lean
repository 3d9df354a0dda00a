import Masstree.Msgpack.Parser

/-!
# `value_bag<uint16_t>`, the default row type

A bag is one allocation: the timestamp, then `bagdata`: the column count, the offsets `pos_` of the
columns from the start of `bagdata`, and the column bytes. Offsets and the count are stored in 16
bits. An update that would read outside the old bag, write outside the new allocation or never end
is `none`.
-/

namespace Masstree
open Msgpack (Bytes)

/-- A list of column updates, as `[first, last)` holds it: column number, value, ... -/
abbrev Changes := List (Nat × Bytes)

structure ValueBag where
  ts : Nat
  /-- `d_.ncol_` -/
  ncol : Nat
  /-- `d_.pos_[0]`, `d_.pos_[1]`, ... -/
  pos : List Nat
  /-- the bytes after `pos_` -/
  body : Bytes
  deriving DecidableEq, Repr

namespace ValueBag

/-- What a stored `offset_type` keeps of a value. -/
def offset (n : Nat) : Nat := n % 2 ^ 16

def sizeofTimestamp : Nat := 8

/-- `sizeof(bagdata)`: the count and one offset. -/
def sizeofBagdata : Nat := 4

def le16 (n : Nat) : Bytes := [UInt8.ofNat n, UInt8.ofNat (n / 256)]

/-- `d_.s_`: the whole of `bagdata` as bytes. -/
def s (r : ValueBag) : Bytes := le16 r.ncol ++ r.pos.flatMap le16 ++ r.body

def posAt (r : ValueBag) (i : Nat) : Nat := r.pos.getD i 0

def timestamp (r : ValueBag) : Nat := r.ts

def size (r : ValueBag) : Nat := sizeofTimestamp + r.posAt r.ncol

/-- `pos_[i + 1] - pos_[i]`, in the offset type. -/
def columnLength (r : ValueBag) (i : Nat) : Nat := offset (r.posAt (i + 1) + 2 ^ 16 - r.posAt i)

def col (r : ValueBag) (i : Nat) : Bytes :=
  if i < r.ncol then (r.s.drop (r.posAt i)).take (r.columnLength i) else []

/-- The bytes `[from, upto)` of `d_.s_`. -/
def slice? (r : ValueBag) (start upto : Nat) : Option Bytes :=
  if start ≤ upto ∧ upto ≤ r.s.length then some ((r.s.drop start).take (upto - start)) else none

/-- The first loop of `update`: the size to allocate and the new column count, which is `unsigned`. -/
def measure (r : ValueBag) : Changes → Int → Nat → Int × Nat
  | [], sz, ncol => (sz, ncol)
  | (idx, v) :: rest, sz, ncol =>
    if idx < r.ncol then measure r rest (sz + v.length - r.columnLength idx) ncol
    else measure r rest (sz + v.length) ((idx + 1) % 2 ^ 32)

/-- The bag under construction in the general path of `update`. -/
structure Fill where
  col : Nat
  sz : Nat
  pos : List Nat
  body : Bytes

/-- Copies old columns and marks empty ones, up to `thisCol`. With columns that are not increasing it can go back
over old columns that are empty. -/
def fillTo (r : ValueBag) (thisCol : Nat) (f : Fill) : Option Fill := do
  let f ← if f.col ≠ thisCol ∧ f.col < r.ncol then
      let endCol := min thisCol r.ncol
      if endCol < f.col then
        if f.sz ≠ r.posAt f.col ∧ r.posAt endCol = r.posAt f.col then
          some { f with col := endCol, pos := f.pos.take endCol }
        else none
      else do
        let bytes ← r.slice? (r.posAt f.col) (r.posAt endCol)
        let moved := (List.range' f.col (endCol - f.col)).map fun i =>
          offset (r.posAt i + f.sz + 2 ^ 16 - r.posAt f.col)
        some { col := endCol, sz := f.sz + bytes.length, pos := f.pos ++ moved, body := f.body ++ bytes }
    else some f
  if thisCol < f.col then none
  else some { f with col := thisCol, pos := f.pos ++ List.replicate (thisCol - f.col) (offset f.sz) }

/-- The main loop of `update`. -/
def fill (r : ValueBag) (ncol : Nat) : Changes → Fill → Option Fill
  | [], f => fillTo r ncol f
  | (idx, v) :: rest, f => do
    let f ← fillTo r idx f
    if f.col = ncol then some f else
      fill r ncol rest
        { col := f.col + 1, sz := f.sz + v.length, pos := f.pos ++ [offset f.sz], body := f.body ++ v }

/-- The general path: the columns are laid out afresh in an allocation of `sz` bytes. -/
def rebuild (r : ValueBag) (changes : Changes) (ts : Nat) (sz : Int) (ncol : Nat) : Option ValueBag := do
  let f ← fill r ncol changes ⟨0, sizeofBagdata + ncol * 2, [], []⟩
  if (sizeofTimestamp + f.sz : Int) ≤ sz then
    some { ts, ncol := offset ncol, pos := f.pos ++ [offset f.sz], body := f.body }
  else none

/-- Replacing one small column without changing its length: copy the bag, then overwrite. -/
def overwrite (r : ValueBag) (idx : Nat) (v : Bytes) (ts : Nat) : Option ValueBag := do
  let header := sizeofBagdata + r.ncol * 2
  let body ← r.slice? header (r.posAt r.ncol)
  let at_ := r.posAt idx - header
  if header ≤ r.posAt idx ∧ at_ + v.length ≤ body.length then
    some { r with ts, body := body.take at_ ++ v ++ body.drop (at_ + v.length) }
  else none

/-- The size to allocate and the new column count, with the offsets of added columns counted. -/
def plan (r : ValueBag) (changes : Changes) : Int × Nat :=
  let (sz, ncol) := r.measure changes r.size r.ncol
  (if r.ncol < ncol then sz + (ncol - r.ncol) * 2 else sz, ncol)

def update (r : ValueBag) (changes : Changes) (ts : Nat) : Option ValueBag :=
  let (sz, ncol) := r.plan changes
  match changes with
  | [(idx, v)] =>
    if ncol = r.ncol ∧ sz = r.size ∧ v.length ≤ 16 then r.overwrite idx v ts
    else r.rebuild changes ts sz ncol
  | _ => r.rebuild changes ts sz ncol

/-- `value_bag()` -/
def empty : ValueBag := { ts := 0, ncol := 0, pos := [sizeofBagdata], body := [] }

def create (changes : Changes) (ts : Nat) : Option ValueBag := empty.update changes ts

def create1 (v : Bytes) (ts : Nat) : ValueBag :=
  { ts, ncol := 1
    pos := [sizeofBagdata + 2, offset (sizeofBagdata + 2 + v.length)]
    body := v }

/-! ### What an update returns -/

theorem update_timestamp {r r' : ValueBag} {changes : Changes} {ts : Nat}
    (h : r.update changes ts = some r') : r'.timestamp = ts := by
  have rebuilt : ∀ sz ncol, r.rebuild changes ts sz ncol = some r' → r'.timestamp = ts := by
    intro sz ncol h
    simp only [rebuild, Option.bind_eq_bind, Option.bind_eq_some_iff] at h
    obtain ⟨f, -, h⟩ := h
    split at h
    · cases h
      rfl
    · cases h
  have overwritten : ∀ idx v, r.overwrite idx v ts = some r' → r'.timestamp = ts := by
    intro idx v h
    simp only [overwrite, Option.bind_eq_bind, Option.bind_eq_some_iff] at h
    obtain ⟨body, -, h⟩ := h
    split at h
    · cases h
      rfl
    · cases h
  simp only [update] at h
  split at h
  · split at h
    · exact overwritten _ _ h
    · exact rebuilt _ _ h
  · exact rebuilt _ _ h

@[simp] theorem create1_timestamp (v : Bytes) (ts : Nat) : (create1 v ts).timestamp = ts := rfl

/-- The column of a `create1` bag is the value as long as its length fits the offset type, even
where the end offset has wrapped. -/
theorem create1_col (v : Bytes) (ts : Nat) (fits : v.length < 2 ^ 16) : (create1 v ts).col 0 = v := by
  have long : (create1 v ts).columnLength 0 = v.length := by
    simp only [columnLength, posAt, create1, offset, sizeofBagdata, List.getD_cons_zero,
      List.getD_cons_succ]
    omega
  simp only [col, long]
  simp [create1, posAt, s, le16, sizeofBagdata]

/-- A `create1` bag whose value is too long shows a column of the length modulo `2 ^ 16`. -/
theorem create1_col_length (v : Bytes) (ts : Nat) : ((create1 v ts).col 0).length = v.length % 2 ^ 16 := by
  have long : (create1 v ts).columnLength 0 = v.length % 2 ^ 16 := by
    simp only [columnLength, posAt, create1, offset, sizeofBagdata, List.getD_cons_zero,
      List.getD_cons_succ]
    omega
  simp only [col, long]
  simp [create1, posAt, s, le16, sizeofBagdata]
  omega

example : (create [(1, [7])] 2).bind (·.update [(0, [5, 6])] 4) =
    some { ts := 4, ncol := 2, pos := [8, 10, 11], body := [5, 6, 7] } := by decide

end ValueBag

end Masstree
