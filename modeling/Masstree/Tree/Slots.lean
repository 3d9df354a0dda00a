import Mathlib.Data.List.Rotate
import Masstree.Lib.Positions
import Masstree.Tree.Kpermuter
import Masstree.Tree.Permuter

/-!
# A permuter word as a list of slots

What each operation of `kpermuter` is for: a slot moves to another position, two slots change places, the size changes.
-/

namespace Masstree.Tree

open Positions Fields

structure Slots (W : Nat) where
  size : Nat
  order : List Nat
  small : size ≤ W
  perm : order.Perm (List.range W)

namespace Kpermuter

inductive Op where
  | insertFromBack (i : Nat)
  | insertSelected (di si : Nat)
  | remove (i : Nat)
  | removeToBack (i : Nat)
  | setSize (n : Nat)
  | rotate (i j : Nat)
  | exchange (i j : Nat)
  | exchangeValues (v u : Nat)
  deriving DecidableEq, Repr

variable {W : Nat}

def Op.apply (x : Word W) : Op → Word W
  | .insertFromBack i => (Kpermuter.insertFromBack x i).2
  | .insertSelected di si => Kpermuter.insertSelected x di si
  | .remove i => Kpermuter.remove x i
  | .removeToBack i => Kpermuter.removeToBack x i
  | .setSize n => Kpermuter.setSize x n
  | .rotate i j => Kpermuter.rotate x i j
  | .exchange i j => Kpermuter.exchange x i j
  | .exchangeValues v u => Kpermuter.exchangeValues x v u

def Op.result (x : Word W) : Op → Option Nat
  | .insertFromBack i => some (Kpermuter.insertFromBack x i).1
  | _ => none

/-- Only `insert_selected` is ever called with a position behind the slot it takes. -/
def Op.Forward : Op → Prop
  | .insertSelected di si => di ≤ si
  | _ => True

end Kpermuter

namespace Slots

open Kpermuter

variable {W : Nat}

theorem length_order (s : Slots W) : s.order.length = W := by
  rw [s.perm.length_eq, List.length_range]

theorem sorted_perm {n : Nat} (le : n ≤ W) : (List.range n ++ (List.range' n (W - n)).reverse).Perm (List.range W) := by
  have all : List.range W = List.range n ++ List.range' n (W - n) := by
    have sizes : W = n + (W - n) := (Nat.add_sub_cancel' le).symm
    rw [List.range_eq_range', List.range_eq_range']
    conv_lhs => rw [sizes]
    rw [← List.range'_append_1, Nat.zero_add]
  rw [all]
  exact (List.reverse_perm _).append_left _

/-- The slots below `n` in order; the free ones are used from the back, in order too. -/
def sorted (n : Nat) (le : n ≤ W) : Slots W := ⟨n, List.range n ++ (List.range' n (W - n)).reverse, le, sorted_perm le⟩

def Allows (s : Slots W) : Op → Prop
  | .insertFromBack i => i < W ∧ s.size < W
  | .insertSelected di si => di < W ∧ s.size < W ∧ s.size ≤ si ∧ si < W
  | .remove i => i < s.size
  | .removeToBack i => i < s.size
  | .setSize n => n ≤ W
  | .rotate i j => i ≤ j ∧ j ≤ s.size
  | .exchange i j => i < W ∧ j < W
  | .exchangeValues v u => v < W ∧ u < W

instance (s : Slots W) (op : Op) : Decidable (s.Allows op) :=
  match op with
  | .insertFromBack i => inferInstanceAs (Decidable (i < W ∧ s.size < W))
  | .insertSelected di si => inferInstanceAs (Decidable (di < W ∧ s.size < W ∧ s.size ≤ si ∧ si < W))
  | .remove i => inferInstanceAs (Decidable (i < s.size))
  | .removeToBack i => inferInstanceAs (Decidable (i < s.size))
  | .setSize n => inferInstanceAs (Decidable (n ≤ W))
  | .rotate i j => inferInstanceAs (Decidable (i ≤ j ∧ j ≤ s.size))
  | .exchange i j => inferInstanceAs (Decidable (i < W ∧ j < W))
  | .exchangeValues v u => inferInstanceAs (Decidable (v < W ∧ u < W))

def move (s : Slots W) (i j n : Nat) (hi : i < W) (hj : j < W) (le : n ≤ W) : Slots W :=
  ⟨n, moveTo s.order i j, le, (moveTo_perm (by rwa [s.length_order]) (by rwa [s.length_order])).trans s.perm⟩

theorem exchange_perm (s : Slots W) {i j : Nat} (hi : i < W) (hj : j < W) :
    ((s.order.set i (s.order.getD j 0)).set j (s.order.getD i 0)).Perm (List.range W) := by
  have li : i < s.order.length := by rwa [s.length_order]
  have lj : j < s.order.length := by rwa [s.length_order]
  rw [List.getD_eq_getElem _ _ li, List.getD_eq_getElem _ _ lj]
  exact (List.set_set_perm li lj).trans s.perm

theorem rotate_perm (s : Slots W) (i n : Nat) : (s.order.take i ++ (s.order.drop i).rotate n).Perm (List.range W) := by
  refine ((List.rotate_perm _ _).append_left _).trans ?_
  rw [List.take_append_drop]
  exact s.perm

/-- The other of two values, in the place of each. -/
def swap (v u slot : Nat) : Nat := if slot = v then u else if slot = u then v else slot

theorem swap_perm (s : Slots W) {v u : Nat} (hv : v < W) (hu : u < W) : (s.order.map (swap v u)).Perm (List.range W) := by
  have involutive : Function.Involutive (swap v u) := by
    intro slot
    unfold swap
    split_ifs <;> simp_all
  have below : ∀ slot < W, swap v u slot < W := by
    intro slot lt
    unfold swap
    split_ifs <;> assumption
  refine (s.perm.map _).trans ((List.perm_ext_iff_of_nodup (List.nodup_range.map involutive.injective) List.nodup_range).mpr ?_)
  intro slot
  rw [List.mem_map, List.mem_range]
  constructor
  · rintro ⟨from_, mem, rfl⟩
    exact below _ (List.mem_range.mp mem)
  · intro lt
    exact ⟨swap v u slot, List.mem_range.mpr (below _ lt), involutive slot⟩

/-- The list transformation of each operation; `rotate` turns everything from position `i` on. -/
def apply (s : Slots W) : (op : Op) → s.Allows op → Slots W
  | .insertFromBack i, ok => s.move (W - 1) i (s.size + 1) (Nat.sub_one_lt_of_lt ok.1) ok.1 ok.2
  | .insertSelected di si, ok => s.move si di (s.size + 1) ok.2.2.2 ok.1 ok.2.1
  | .remove i, ok =>
    s.move i (s.size - 1) (s.size - 1) (Nat.lt_of_lt_of_le ok s.small)
      (Nat.lt_of_lt_of_le (Nat.sub_one_lt_of_lt ok) s.small) (Nat.le_trans (Nat.sub_le ..) s.small)
  | .removeToBack i, ok =>
    s.move i (W - 1) (s.size - 1) (Nat.lt_of_lt_of_le ok s.small)
      (Nat.sub_one_lt_of_lt (Nat.lt_of_lt_of_le ok s.small)) (Nat.le_trans (Nat.sub_le ..) s.small)
  | .setSize n, ok => ⟨n, s.order, ok, s.perm⟩
  | .rotate i j, _ => ⟨s.size, s.order.take i ++ (s.order.drop i).rotate (j - i), s.small, s.rotate_perm i (j - i)⟩
  | .exchange i j, ok =>
    ⟨s.size, (s.order.set i (s.order.getD j 0)).set j (s.order.getD i 0), s.small, s.exchange_perm ok.1 ok.2⟩
  | .exchangeValues v u, ok => ⟨s.size, s.order.map (swap v u), s.small, s.swap_perm ok.1 ok.2⟩

/-- The last slot is the one that an insertion takes. -/
def result (s : Slots W) : Op → Option Nat
  | .insertFromBack _ => s.order[W - 1]?
  | _ => none

def Runs (s : Slots W) : List Op → Prop
  | [] => True
  | op :: ops => ∃ ok : s.Allows op, (s.apply op ok).Runs ops

instance decidableRuns (s : Slots W) : (ops : List Op) → Decidable (s.Runs ops)
  | [] => .isTrue trivial
  | op :: ops =>
    have (ok : s.Allows op) : Decidable ((s.apply op ok).Runs ops) := decidableRuns _ ops
    inferInstanceAs (Decidable (∃ ok : s.Allows op, (s.apply op ok).Runs ops))

end Slots

namespace Kpermuter

variable {W : Nat}

def slots (x : Word W) : List Nat := (List.range W).map (get x)

def Encodes (x : Word W) (s : Slots W) : Prop := size x = s.size ∧ slots x = s.order

/-- Each step of the run is its list transformation. -/
def Follows (x : Word W) (s : Slots W) : List Op → Prop
  | [] => Encodes x s
  | op :: ops => Encodes x s ∧ op.result x = s.result op ∧ ∃ ok : s.Allows op, Follows (op.apply x) (s.apply op ok) ops

variable {x y : Word W} {s : Slots W} {i j k n : Nat}

theorem getElem?_slots (lt : k < W) : (slots x)[k]? = some (get x k) := by
  rw [slots, List.getElem?_map, List.getElem?_range lt]
  rfl

theorem slots_eq_iff {l : List Nat} (length : l.length = W) : slots x = l ↔ ∀ k < W, l[k]? = some (get x k) := by
  constructor
  · rintro rfl k lt
    exact getElem?_slots lt
  · intro all
    refine List.ext_getElem? fun k => ?_
    rcases Nat.lt_or_ge k W with lt | ge
    · rw [getElem?_slots lt, all k lt]
    · have none_ : (slots x).length = W := by simp [slots]
      rw [List.getElem?_eq_none (by rwa [none_]), List.getElem?_eq_none (by rwa [length])]

theorem Encodes.get (enc : Encodes x s) (lt : k < W) : s.order[k]? = some (get x k) := (slots_eq_iff s.length_order).mp enc.2 k lt

theorem encodes_of {s : Slots W} (sized : size y = s.size) (all : ∀ k < W, s.order[k]? = some (Kpermuter.get y k)) : Encodes y s :=
  ⟨sized, (slots_eq_iff s.length_order).mpr all⟩

/-- A word whose slots are those of another, one moved. -/
theorem Encodes.move (enc : Encodes x s) (hi : i < W) (hj : j < W) (le : n ≤ W) (sized : size y = n)
    (moved : ∀ k < W, Kpermuter.get y k = Kpermuter.get x (source i j k)) : Encodes y (s.move i j n hi hj le) := by
  refine encodes_of sized fun k lt => ?_
  have inside : source i j k < W := by
    unfold source
    split_ifs <;> omega
  show (moveTo s.order i j)[k]? = _
  rw [getElem?_moveTo (by rwa [s.length_order]) (by rwa [s.length_order]), enc.get inside, moved k lt]

/-! ### Each operation -/

theorem size_add_one (room : size x < 15) : (field 4 (x + 1#_) 0).toNat = size x + 1 ∧ ∀ k, 0 < k →
    field 4 (x + 1#_) k = field 4 x k := by
  rw [size_eq] at room ⊢
  exact field_add_one x (by omega) (four_le_valueBits W)

theorem encodes_insertFromBack (le : W ≤ 15) (enc : Encodes x s) (ok : s.Allows (.insertFromBack i)) :
    Encodes (insertFromBack x i).2 (s.apply (.insertFromBack i) ok) := by
  obtain ⟨lt, room⟩ := ok
  obtain ⟨first, rest⟩ := size_add_one (x := x) (by rw [enc.1]; omega)
  refine enc.move (Nat.sub_one_lt_of_lt lt) lt room ?_ fun k here => ?_
  · rw [size_eq, field_insertFromBack le lt (Nat.zero_le W), if_pos (Nat.zero_le i), first, enc.1]
  · rw [get_eq, get_eq, field_insertFromBack le lt here, source]
    rcases Nat.lt_trichotomy k i with before | rfl | after
    · simp (disch := omega) only [if_pos, if_neg, rest]
    · have last : W - 1 + 1 = W := by omega
      simp (disch := omega) only [if_neg, if_true, last]
    · have place : k - 1 + 1 = k := by omega
      simp (disch := omega) only [if_pos, if_neg, Nat.succ_sub_one, place]

theorem encodes_insertSelected {di si : Nat} (le : W ≤ 15) (enc : Encodes x s) (ok : s.Allows (.insertSelected di si))
    (forward : di ≤ si) : Encodes (insertSelected x di si) (s.apply (.insertSelected di si) ok) := by
  obtain ⟨lt, room, free, lt'⟩ := ok
  obtain ⟨first, rest⟩ := size_add_one (x := x) (by rw [enc.1]; omega)
  refine enc.move lt' lt room ?_ fun k here => ?_
  · rw [size_eq, field_insertSelected le forward (Nat.zero_le W), if_pos (Nat.zero_le di), first, enc.1]
  · rw [get_eq, get_eq, field_insertSelected le forward here, source]
    rcases Nat.lt_trichotomy k di with before | rfl | after
    · simp (disch := omega) only [if_pos, if_neg, rest]
    · simp (disch := omega) only [if_neg, if_true]
    · rcases Nat.lt_or_ge si k with behind | between
      · simp (disch := omega) only [if_neg]
      · have place : k - 1 + 1 = k := by omega
        simp (disch := omega) only [if_pos, if_neg, Nat.succ_sub_one, place]

/-- A slot inserted behind its own place stays where it was. -/
theorem not_encodes_insertSelected {di si : Nat} (le : W ≤ 15) (enc : Encodes x s) (ok : s.Allows (.insertSelected di si))
    (backward : si < di) : ¬Encodes (insertSelected x di si) (s.apply (.insertSelected di si) ok) := by
  intro after
  obtain ⟨lt, room, free, lt'⟩ := ok
  obtain ⟨_, rest⟩ := size_add_one (x := x) (by rw [enc.1]; omega)
  have kept : get (insertSelected x di si) si = get x si := by
    rw [get_eq, get_eq, field_insertSelected_back le backward lt', rest _ (Nat.succ_pos si)]
  have moved : (moveTo s.order si di)[si]? = s.order[si + 1]? := by
    rw [getElem?_moveTo (by rwa [s.length_order]) (by rwa [s.length_order])]
    simp (disch := omega) only [source, if_pos, if_neg]
  have same : s.order[si + 1]? = s.order[si]? := by
    rw [← moved, enc.get lt', ← kept]
    exact after.get lt'
  have next : si + 1 < s.order.length := by
    rw [s.length_order]
    omega
  have nodup : s.order.Nodup := s.perm.nodup_iff.mpr List.nodup_range
  have := (List.getElem?_inj next nodup).mp same
  omega

theorem encodes_remove (le : W ≤ 15) (enc : Encodes x s) (ok : s.Allows (.remove i)) :
    Encodes (remove x i) (s.apply (.remove i) ok) := by
  have lt : i < s.size := ok
  have small := s.small
  have sized := enc.1
  obtain ⟨first, rest⟩ := field_sub_one x (by rw [← size_eq]; omega) (four_le_valueBits W)
  rw [← size_eq, ← size_eq] at first
  refine Encodes.move enc (by omega) (by omega) (by omega) ?_ fun k here => ?_
  · rcases Nat.lt_or_ge (i + 1) (size x) with before | last
    · rw [size_eq, field_remove le before (by omega) (Nat.zero_le W), if_pos (Nat.zero_le i), ← size_eq, first, sized]
    · rw [remove, if_pos (by omega), first, sized]
  · rcases Nat.lt_or_ge (i + 1) (size x) with before | last
    · rw [get_eq, get_eq, field_remove le before (by omega) here, source]
      rcases Nat.lt_or_ge k i with below | above
      · simp (disch := omega) only [if_pos, if_neg, rest]
      · rcases Nat.lt_trichotomy k (s.size - 1) with between | rfl | beyond
        · simp (disch := omega) only [if_pos, if_neg]
        · simp (disch := omega) only [if_pos, if_neg, if_true]
        · simp (disch := omega) only [if_neg, rest]
    · rw [get_eq, get_eq, remove, if_pos (by omega), rest _ (Nat.succ_pos k), source]
      split_ifs with at_
      · rw [at_]
        congr 3
        omega
      · omega
      · omega
      · rfl

theorem encodes_removeToBack (le : W ≤ 15) (enc : Encodes x s) (ok : s.Allows (.removeToBack i)) :
    Encodes (removeToBack x i) (s.apply (.removeToBack i) ok) := by
  have lt : i < s.size := ok
  have small := s.small
  have sized := enc.1
  have cleared := field_cleared x le
  have low : (field 4 (x &&& ((16#_ <<< (4 * W)) - 1#_)) 0).toNat = s.size := by
    rw [cleared, if_pos (Nat.zero_le W), ← size_eq, sized]
  obtain ⟨first, rest⟩ := field_sub_one (x &&& ((16#_ <<< (4 * W)) - 1#_)) (by omega) (four_le_valueBits W)
  refine Encodes.move enc (by omega) (by omega) (by omega) ?_ fun k here => ?_
  · rw [size_eq, field_removeToBack le (by omega) (Nat.zero_le W), if_pos (Nat.zero_le i), first, low]
  · rw [get_eq, get_eq, field_removeToBack le (by omega) here, source]
    rcases Nat.lt_or_ge k i with below | above
    · simp (disch := omega) only [if_pos, if_neg, rest, cleared]
    · rcases Nat.lt_or_ge k (W - 1) with between | last
      · simp (disch := omega) only [if_pos, if_neg]
      · simp (disch := omega) only [if_pos, if_neg]

theorem encodes_setSize (le : W ≤ 15) (enc : Encodes x s) (ok : s.Allows (.setSize n)) :
    Encodes (setSize x n) (s.apply (.setSize n) ok) := by
  have inWidth : n ≤ W := ok
  have value : ∀ f, field 4 (BitVec.ofNat (valueBits W) n) f = if f = 0 then BitVec.ofNat 4 n else 0#4 := by
    intro f
    have same : BitVec.ofNat (valueBits W) n = (BitVec.ofNat 4 n).setWidth _ := by
      rw [← BitVec.ofNat_toNat, BitVec.toNat_ofNat, Nat.mod_eq_of_lt (by omega)]
    rw [same, field_setWidth _ (four_le_valueBits W)]
  have whole : ∀ f ≤ W, field 4 (setSize x n) f = if f = 0 then BitVec.ofNat 4 n else field 4 x f := by
    intro f here
    rw [setSize, fifteen_eq, field_or, field_and_above _ (inside le here), value]
    rcases Nat.eq_zero_or_pos f with rfl | pos
    · simp (disch := omega) only [if_pos, if_true, BitVec.zero_or]
    · simp (disch := omega) only [if_neg, BitVec.or_zero]
  refine encodes_of ?_ fun k here => ?_
  · rw [size_eq, whole 0 (Nat.zero_le W), if_pos rfl, BitVec.toNat_ofNat]
    exact Nat.mod_eq_of_lt (by omega)
  · rw [get_eq, whole _ here, if_neg (Nat.succ_ne_zero k), ← get_eq]
    exact enc.get here

theorem get_rotate (le : W ≤ 15) (first : i ≤ j) (last : j ≤ W) (here : k < W) :
    get (rotate x i j) k = if k < i then get x k else get x (i + (k - i + (j - i)) % (W - i)) := by
  rw [get_eq, field_rotate le first last here, get_eq, get_eq]
  rcases Nat.lt_or_ge k i with kept | moved
  · simp (disch := omega) only [if_pos]
  · rcases Nat.lt_or_ge (k + (j - i)) W with within | past
    · have place : k - i + (j - i) < W - i := by omega
      have same : k + 1 + (j - i) = i + (k - i + (j - i)) + 1 := by omega
      simp (disch := omega) only [if_pos, if_neg, Nat.mod_eq_of_lt place, same]
    · have place : (k - i + (j - i)) % (W - i) = k - i + (j - i) - (W - i) := by
        rw [Nat.mod_eq_sub_mod (by omega), Nat.mod_eq_of_lt (by omega)]
      have same : k + 1 - (W - j) = i + (k - i + (j - i) - (W - i)) + 1 := by omega
      simp (disch := omega) only [if_neg, place, same]

theorem encodes_rotate (le : W ≤ 15) (enc : Encodes x s) (ok : s.Allows (.rotate i j)) :
    Encodes (rotate x i j) (s.apply (.rotate i j) ok) := by
  obtain ⟨first, last⟩ := ok
  have small := s.small
  refine encodes_of ?_ fun k here => ?_
  · rw [size_eq, field_rotate le first (by omega) (Nat.zero_le W), if_pos (Nat.zero_le i), ← size_eq, enc.1]
    rfl
  · have length := s.length_order
    show (s.order.take i ++ (s.order.drop i).rotate (j - i))[k]? = _
    rw [get_rotate le first (by omega) here]
    have taken : (s.order.take i).length = i := by
      rw [List.length_take]
      omega
    split_ifs with kept
    · rw [List.getElem?_append_left (by omega), List.getElem?_take_of_lt kept]
      exact enc.get here
    · have rest : (s.order.drop i).length = W - i := by
        rw [List.length_drop]
        omega
      have inside := Nat.mod_lt (k - i + (j - i)) (y := W - i) (by omega)
      rw [List.getElem?_append_right (by omega), taken, List.getElem?_rotate (by omega), List.getElem?_drop, rest]
      exact enc.get (by omega)

theorem encodes_exchange (le : W ≤ 15) (enc : Encodes x s) (ok : s.Allows (.exchange i j)) :
    Encodes (exchange x i j) (s.apply (.exchange i j) ok) := by
  obtain ⟨hi, hj⟩ := ok
  refine encodes_of ?_ fun k here => ?_
  · rw [size_eq, field_exchange le (Nat.zero_le W), if_neg (by omega), if_neg (by omega), ← size_eq, enc.1]
    rfl
  · have length := s.length_order
    have read : ∀ f < W, s.order.getD f 0 = get x f := by
      intro f lt
      rw [List.getD_eq_getElem?_getD, enc.get lt]
      rfl
    show ((s.order.set i (s.order.getD j 0)).set j (s.order.getD i 0))[k]? = _
    rw [get_eq, field_exchange le here, read j hj, read i hi, List.getElem?_set, List.getElem?_set, List.length_set, length, get_eq,
      get_eq]
    rcases eq_or_ne k j with rfl | second
    · rcases eq_or_ne k i with rfl | first
      · simp (disch := omega) only [if_pos, if_true]
      · simp (disch := omega) only [if_pos, if_neg, if_true]
    · rcases eq_or_ne k i with rfl | first
      · simp (disch := omega) only [if_pos, if_neg, if_true]
      · simp (disch := omega) only [if_neg]
        rw [← get_eq]
        exact enc.get here

theorem encodes_exchangeValues {v u : Nat} (le : W ≤ 15) (enc : Encodes x s) (ok : s.Allows (.exchangeValues v u)) :
    Encodes (exchangeValues x v u) (s.apply (.exchangeValues v u) ok) := by
  obtain ⟨hv, hu⟩ := ok
  have whole : ∀ f ≤ W, field 4 (exchangeValues x v u) f =
      if f = 0 then field 4 x f else field 4 x f ^^^ difference v u (field 4 x f) := by
    intro f here
    rw [exchangeValues, field_xor, field_exchangeDiff le (by omega) (by omega) here (Nat.le_refl W), field_zero, ite_self,
      BitVec.zero_xor]
    rcases Nat.eq_zero_or_pos f with rfl | pos
    · simp (disch := omega) only [if_neg, if_true, BitVec.xor_zero]
    · have place : W - (W - f) = f := by omega
      simp (disch := omega) only [if_pos, if_neg, place]
  refine encodes_of ?_ fun k here => ?_
  · rw [size_eq, whole 0 (Nat.zero_le W), if_pos rfl, ← size_eq, enc.1]
    rfl
  · show (s.order.map (Slots.swap v u))[k]? = _
    rw [List.getElem?_map, enc.get here, get_eq, get_eq, whole _ here, if_neg (Nat.succ_ne_zero k),
      xor_difference (by omega) (by omega)]
    rfl

/-! ### Runs -/

theorem encodes_sorted (le : W ≤ 15) (small : n ≤ W) : Encodes (makeSorted W n) (Slots.sorted n small) := by
  have all : ∀ W < 16, ∀ n < W + 1, size (makeSorted W n) = n ∧
      slots (makeSorted W n) = List.range n ++ (List.range' n (W - n)).reverse := by decide
  exact all W (Nat.lt_succ_of_le le) n (Nat.lt_succ_of_le small)

theorem encodes_empty (le : W ≤ 15) : Encodes (makeEmpty W) (Slots.sorted 0 (Nat.zero_le W)) := by
  have all : ∀ W < 16, size (makeEmpty W) = 0 ∧ slots (makeEmpty W) = List.range 0 ++ (List.range' 0 (W - 0)).reverse := by
    decide
  exact all W (Nat.lt_succ_of_le le)

theorem result_eq (enc : Encodes x s) {op : Op} (ok : s.Allows op) : op.result x = s.result op := by
  cases op with
  | insertFromBack i => exact (enc.get (Nat.sub_one_lt_of_lt ok.1)).symm
  | _ => rfl

theorem encodes_apply (le : W ≤ 15) (enc : Encodes x s) {op : Op} (ok : s.Allows op) :
    Encodes (op.apply x) (s.apply op ok) ↔ op.Forward := by
  cases op with
  | insertFromBack i => exact iff_of_true (encodes_insertFromBack le enc ok) trivial
  | insertSelected di si =>
    refine ⟨fun after => ?_, encodes_insertSelected le enc ok⟩
    by_contra behind
    exact not_encodes_insertSelected le enc ok (Nat.lt_of_not_le behind) after
  | remove i => exact iff_of_true (encodes_remove le enc ok) trivial
  | removeToBack i => exact iff_of_true (encodes_removeToBack le enc ok) trivial
  | setSize n => exact iff_of_true (encodes_setSize le enc ok) trivial
  | rotate i j => exact iff_of_true (encodes_rotate le enc ok) trivial
  | exchange i j => exact iff_of_true (encodes_exchange le enc ok) trivial
  | exchangeValues v u => exact iff_of_true (encodes_exchangeValues le enc ok) trivial

theorem Follows.encodes {ops : List Op} (follows : Follows x s ops) : Encodes x s := by
  cases ops with
  | nil => exact follows
  | cons op ops => exact follows.1

theorem follows_iff_forward (le : W ≤ 15) {ops : List Op} (enc : Encodes x s) (runs : s.Runs ops) :
    Follows x s ops ↔ ∀ op ∈ ops, op.Forward := by
  induction ops generalizing x s with
  | nil => exact iff_of_true enc fun op none => absurd none (List.not_mem_nil)
  | cons op ops ih =>
    obtain ⟨ok, rest⟩ := runs
    rw [List.forall_mem_cons]
    constructor
    · rintro ⟨_, _, _, follows⟩
      have here := follows.encodes
      exact ⟨(encodes_apply le enc ok).mp here, (ih here rest).mp follows⟩
    · rintro ⟨forward, others⟩
      have here := (encodes_apply le enc ok).mpr forward
      exact ⟨enc, result_eq enc ok, ok, (ih here rest).mpr others⟩

/-- `make_empty()` and `make_sorted(n)`. -/
def Start (x : Word W) (s : Slots W) : Prop :=
  (x = makeEmpty W ∧ s = Slots.sorted 0 (Nat.zero_le W)) ∨ ∃ n, ∃ small : n ≤ W, x = makeSorted W n ∧ s = Slots.sorted n small

/-- A run from a fresh permuter is the run of the list of slots as long as `insert_selected` only moves slots forward. -/
theorem follows_iff (le : W ≤ 15) (start : Start x s) (ops : List Op) (runs : s.Runs ops) :
    Follows x s ops ↔ ∀ di si, Op.insertSelected di si ∈ ops → di ≤ si := by
  have enc : Encodes x s := by
    rcases start with ⟨rfl, rfl⟩ | ⟨n, small, rfl, rfl⟩
    · exact encodes_empty le
    · exact encodes_sorted le small
  rw [follows_iff_forward le enc runs]
  constructor
  · intro forward di si mem
    exact forward _ mem
  · intro forward op mem
    cases op with
    | insertSelected di si => exact forward di si mem
    | _ => trivial

/-- A run of every operation over the full word, the slot of each `insert_selected` taken from behind its new place. -/
theorem follows_iff_full :
    Follows (makeSorted 15 3) (Slots.sorted 3 (by decide))
        [.insertFromBack 1, .insertSelected 2 9, .remove 0, .removeToBack 3, .exchange 0 14, .exchangeValues 3 7, .rotate 1 2,
          .setSize 15, .remove 14] ↔
      ∀ di si, Op.insertSelected di si ∈ [.insertFromBack 1, .insertSelected 2 9, .remove 0, .removeToBack 3, .exchange 0 14,
        .exchangeValues 3 7, .rotate 1 2, .setSize 15, .remove 14] → di ≤ si :=
  follows_iff (by decide) (.inr ⟨3, by decide, rfl, rfl⟩) _ (by decide)

/-- The free slot at position 5 taken to position 7: slot 14 occurs twice, slot 10 is lost. -/
theorem insertSelected_repeats : ∃ ok : (Slots.sorted (W := 15) 3 (by decide)).Allows (.insertSelected 7 5),
    slots (insertSelected (makeSorted 15 3) 7 5) ≠ ((Slots.sorted (W := 15) 3 (by decide)).apply (.insertSelected 7 5) ok).order ∧
      ¬(slots (insertSelected (makeSorted 15 3) 7 5)).Perm (List.range 15) := by
  decide

/-! ### The law of `rotate` -/

/-- What the comment of `rotate` says of the word `q` left by `rotate(i, j)`. -/
structure Rotated (x q : Word W) (i j : Nat) : Prop where
  size : size q = size x
  before : ∀ k < i, get q k = get x k
  turned : ∀ k, i ≤ k → k < Kpermuter.size x → get q k = get x (i + (k - i + (j - i)) % (Kpermuter.size x - i))
  free : ∀ slot, slot ∈ (slots q).drop (Kpermuter.size q) ↔ slot ∈ (slots x).drop (Kpermuter.size x)

theorem get_inj (enc : Encodes x s) (hi : i < W) (hj : j < W) (same : get x i = get x j) : i = j := by
  have nodup : s.order.Nodup := s.perm.nodup_iff.mpr List.nodup_range
  have inside : i < s.order.length := by rwa [s.length_order]
  refine (List.getElem?_inj inside nodup).mp ?_
  rw [enc.get hi, enc.get hj, same]

/-- `rotate` turns the whole rest of the word, free slots and all, so it keeps its word only where it does nothing or nothing is
free. -/
theorem rotate_iff (le : W ≤ 15) (enc : Encodes x s) (first : i ≤ j) (last : j ≤ size x) :
    Rotated x (rotate x i j) i j ↔ j = i ∨ size x = W := by
  have small : size x ≤ W := enc.1 ▸ s.small
  have sized : size (rotate x i j) = size x := by
    rw [size_eq, field_rotate le first (by omega) (Nat.zero_le W), if_pos (Nat.zero_le i), size_eq]
  have read := fun k lt => get_rotate (x := x) (k := k) le first (Nat.le_trans last small) lt
  constructor
  · intro law
    by_contra neither
    obtain ⟨moved, room⟩ := not_or.mp neither
    have turned := law.turned (size x - (j - i)) (by omega) (by omega)
    have whole : size x - (j - i) - i + (j - i) = size x - i := by omega
    rw [read _ (by omega), if_neg (by omega), whole, Nat.mod_self, Nat.mod_eq_of_lt (by omega)] at turned
    have := get_inj enc (by omega) (by omega) turned
    omega
  · rintro (rfl | full)
    · have kept : ∀ k < W, get (rotate x j j) k = get x k := by
        intro k lt
        rw [read k lt, Nat.sub_self, Nat.add_zero]
        split_ifs with before
        · rfl
        · rw [Nat.mod_eq_of_lt (by omega)]
          congr 1
          omega
      have same : slots (rotate x j j) = slots x := List.map_congr_left fun k mem => kept k (List.mem_range.mp mem)
      refine ⟨sized, fun k lt => kept k (by omega), fun k ge lt => ?_, fun slot => by rw [sized, same]⟩
      rw [kept k (by omega), Nat.sub_self, Nat.add_zero, Nat.mod_eq_of_lt (by omega)]
      congr 1
      omega
    · refine ⟨sized, fun k lt => ?_, fun k ge lt => ?_, fun slot => ?_⟩
      · rw [read k (by omega), if_pos lt]
      · rw [read k (by omega), if_neg (by omega), full]
      · have none_ : ∀ y : Word W, (slots y).drop (size x) = [] := by
          intro y
          rw [full]
          exact List.drop_eq_nil_of_le (by simp [slots])
        rw [sized, none_, none_]

theorem rotate_iff_full : Rotated (makeSorted 7 7) (rotate (makeSorted 7 7) 2 4) 2 4 ↔ 4 = 2 ∨ size (makeSorted 7 7) = 7 :=
  rotate_iff (by decide) (encodes_sorted (by decide) (Nat.le_refl 7)) (by decide) (by decide)

/-- Three slots turned by one: the last live position is left with the slot 14, which was free, and slot 0 is at the back. -/
theorem rotate_exchanges : Encodes (makeSorted 15 3) (Slots.sorted 3 (by decide)) ∧ size (rotate (makeSorted 15 3) 0 1) = 3 ∧
    get (makeSorted 15 3) (0 + (2 - 0 + (1 - 0)) % (3 - 0)) = 0 ∧ get (rotate (makeSorted 15 3) 0 1) 2 = 14 ∧
    ¬Rotated (makeSorted 15 3) (rotate (makeSorted 15 3) 0 1) 0 1 := by
  refine ⟨encodes_sorted (by decide) (by decide), by decide, by decide, by decide, fun law => ?_⟩
  have turned := law.turned 2 (by decide) (by decide)
  revert turned
  decide

end Kpermuter

namespace Slots

open Kpermuter

/-! ### The permuter of a leaf -/

/-- The live and the free slots, apart. -/
def permuter (s : Slots 15) : Permuter := Permuter.ofSlots s.order s.size

variable {s : Slots 15} {i j n : Nat}

theorem permuter_wf (s : Slots 15) : s.permuter.Wf := Permuter.wf_ofSlots s.perm s.size

theorem permuter_slots (s : Slots 15) : s.permuter.slots = s.order := List.take_append_drop ..

theorem permuter_get (s : Slots 15) (i : Nat) : s.permuter.get i = s.order.getD i 0 := by
  rw [Permuter.get, permuter_slots]

theorem getElem?_order (s : Slots 15) (lt : i < 15) : s.order[i]? = some (s.permuter.get i) := by
  rw [permuter_get, List.getD_eq_getElem?_getD, List.getElem?_eq_getElem (by rwa [s.length_order])]
  rfl

theorem permuter_size (s : Slots 15) : s.permuter.size = s.size := by
  have small := s.small
  have length := s.length_order
  rw [permuter, Permuter.ofSlots, Permuter.size, List.length_take]
  omega

theorem permuter_sorted (le : n ≤ 15) : (sorted n le).permuter = Permuter.makeSorted n := by
  have taken : (List.range n ++ (List.range' n (15 - n)).reverse).take n = List.range n := List.take_left' List.length_range
  have dropped : (List.range n ++ (List.range' n (15 - n)).reverse).drop n = (List.range' n (15 - n)).reverse :=
    List.drop_left' List.length_range
  rw [permuter, sorted, Permuter.ofSlots, taken, dropped]
  rfl

theorem permuter_insertFromBack (ok : s.Allows (.insertFromBack i)) (le : i ≤ s.size) :
    (s.apply (.insertFromBack i) ok).permuter = s.permuter.insertFromBack i := by
  have length := s.length_order
  have room : s.size < 15 := ok.2
  have back : s.order[14]? = some s.permuter.back := s.getElem?_order (by decide)
  show Permuter.ofSlots (moveTo s.order 14 i) (s.size + 1) = _
  rw [moveTo_eq back, Permuter.insertFromBack, Permuter.ofSlots]
  congr 1
  · refine List.ext_getElem? fun k => ?_
    show _ = ((s.order.take s.size).insertIdx i s.permuter.back)[k]?
    grind
  · refine List.ext_getElem? fun k => ?_
    show _ = (s.order.drop s.size).dropLast[k]?
    grind

theorem permuter_remove (ok : s.Allows (.remove i)) : (s.apply (.remove i) ok).permuter = s.permuter.remove i := by
  have length := s.length_order
  have small := s.small
  have lt : i < s.size := ok
  have at_ := s.getElem?_order (i := i) (by omega)
  show Permuter.ofSlots (moveTo s.order i (s.size - 1)) (s.size - 1) = _
  rw [moveTo_eq at_, Permuter.remove, Permuter.ofSlots]
  congr 1
  · refine List.ext_getElem? fun k => ?_
    show _ = ((s.order.take s.size).eraseIdx i)[k]?
    grind
  · refine List.ext_getElem? fun k => ?_
    show _ = (s.permuter.get i :: s.order.drop s.size)[k]?
    grind

theorem permuter_removeToBack (ok : s.Allows (.removeToBack i)) :
    (s.apply (.removeToBack i) ok).permuter = s.permuter.removeToBack i := by
  have length := s.length_order
  have small := s.small
  have lt : i < s.size := ok
  have at_ := s.getElem?_order (i := i) (by omega)
  show Permuter.ofSlots (moveTo s.order i 14) (s.size - 1) = _
  rw [moveTo_eq at_, Permuter.removeToBack, Permuter.ofSlots]
  congr 1
  · refine List.ext_getElem? fun k => ?_
    show _ = ((s.order.take s.size).eraseIdx i)[k]?
    grind
  · refine List.ext_getElem? fun k => ?_
    show _ = (s.order.drop s.size ++ [s.permuter.get i])[k]?
    grind

theorem permuter_exchange (ok : s.Allows (.exchange i j)) : (s.apply (.exchange i j) ok).permuter = s.permuter.exchange i j := by
  rw [Permuter.exchange, permuter_slots, permuter_get, permuter_get, permuter_size]
  rfl

theorem permuter_setSize (ok : s.Allows (.setSize n)) : (s.apply (.setSize n) ok).permuter = s.permuter.setSize n := by
  rw [Permuter.setSize, permuter_slots]
  rfl

/-- The word of a leaf is read slot by slot as its permuter is. -/
theorem get_permuter {x : Word 15} (enc : Encodes x s) (lt : i < 15) : get x i = s.permuter.get i := by
  have read := enc.get lt
  rw [s.getElem?_order lt] at read
  exact (Option.some.inj read).symm

end Slots

end Masstree.Tree
