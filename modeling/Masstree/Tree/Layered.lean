import Masstree.Tree.Key

/-!
# Keys compared layer by layer

Where two slices and length classes agree, both keys go on with the next slice. The result is the order of the whole byte strings.
-/

namespace Masstree.Tree

open Msgpack (Bytes netOrder)

/-- The first `n` bytes as a big-endian integer, a shorter string padded with zeros. -/
def slice (n : Nat) (s : Bytes) : Nat := netOrder (s.take n ++ List.replicate (n - s.length) 0)

theorem makeComparable_eq (s : Bytes) : makeComparable s = slice 8 s := rfl

/-! ### The order of slices -/

variable {n : Nat} {a b : Bytes}

theorem netOrder_cons (x : UInt8) (s : Bytes) : netOrder (x :: s) = x.toNat * 256 ^ s.length + netOrder s := by
  induction s using List.reverseRecOn with
  | nil => simp [netOrder]
  | append_singleton s b ih =>
    rw [← List.cons_append, Msgpack.netOrder_append, ih, Msgpack.netOrder_append, List.length_append, List.length_singleton,
      Nat.pow_succ, ← Nat.mul_assoc, Nat.add_mul, Nat.add_assoc]

theorem slice_length (n : Nat) (s : Bytes) : (s.take n ++ List.replicate (n - s.length) (0 : UInt8)).length = n := by
  rw [List.length_append, List.length_take, List.length_replicate]
  omega

theorem slice_lt (n : Nat) (s : Bytes) : slice n s < 256 ^ n := by
  have bound := netOrder_lt (s.take n ++ List.replicate (n - s.length) 0)
  rwa [slice_length] at bound

theorem slice_nil (n : Nat) : slice n [] = 0 := by
  have zeros : netOrder (List.replicate n (0 : UInt8)) = 0 := by
    induction n with
    | zero => rfl
    | succ n ih => rw [List.replicate_succ, netOrder_cons, ih, UInt8.toNat_zero, Nat.zero_mul]
  rw [slice, List.take_nil, List.nil_append]
  exact zeros

theorem slice_cons (n : Nat) (x : UInt8) (s : Bytes) : slice (n + 1) (x :: s) = x.toNat * 256 ^ n + slice n s := by
  have length := slice_length n s
  rw [slice, List.take_succ_cons, List.length_cons, Nat.add_sub_add_right, List.cons_append, netOrder_cons, length, slice]

/-- A lower slice, or the same slice and a shorter string, comes first. -/
theorem lt_of_slice (before : slice n a < slice n b ∨ slice n a = slice n b ∧ min a.length (n + 1) < min b.length (n + 1)) :
    a < b := by
  induction n generalizing a b with
  | zero =>
    have za := slice_lt 0 a
    have zb := slice_lt 0 b
    cases a with
    | nil =>
      cases b with
      | nil => simp at before
      | cons y t => exact List.nil_lt_cons y t
    | cons x s =>
      simp only [List.length_cons] at before
      omega
  | succ n ih =>
    cases a with
    | nil =>
      cases b with
      | nil => simp at before
      | cons y t => exact List.nil_lt_cons y t
    | cons x s =>
      cases b with
      | nil =>
        rw [slice_nil] at before
        simp at before
      | cons y t =>
        rw [slice_cons, slice_cons, List.length_cons, List.length_cons] at before
        have hs := slice_lt n s
        have ht := slice_lt n t
        rw [List.cons_lt_cons_iff]
        rcases Nat.lt_trichotomy x.toNat y.toNat with less | same | more
        · exact .inl (UInt8.lt_iff_toNat_lt.mpr less)
        · refine .inr ⟨UInt8.toNat_inj.mp same, ih ?_⟩
          rw [same] at before
          omega
        · have := Nat.mul_le_mul_right (256 ^ n) more
          rw [Nat.succ_mul] at this
          omega

/-- A byte of a slice, the lowest first. -/
theorem slice_byte {k : Nat} (s : Bytes) (lt : k < n) : slice n s / 256 ^ k % 256 = (s.getD (n - 1 - k) 0).toNat := by
  induction n generalizing s with
  | zero => exact absurd lt (Nat.not_lt_zero k)
  | succ n ih =>
    cases s with
    | nil => rw [slice_nil, Nat.zero_div, Nat.zero_mod, List.getD_nil, UInt8.toNat_zero]
    | cons x s =>
      have bound := slice_lt n s
      rw [slice_cons]
      rcases Nat.lt_or_eq_of_le (Nat.le_of_lt_succ lt) with below | rfl
      · have parts : 256 ^ n = 256 ^ k * (256 * 256 ^ (n - 1 - k)) := by
          rw [← Nat.pow_succ', ← Nat.pow_add]
          congr 1
          omega
        have index : n + 1 - 1 - k = n - 1 - k + 1 := by omega
        rw [parts, Nat.mul_left_comm, Nat.add_comm, Nat.add_mul_div_left _ _ (Nat.pow_pos (by decide)), Nat.mul_left_comm,
          Nat.add_mul_mod_self_left, ih s below, index, List.getD_cons_succ]
      · have byte := x.toNat_lt
        have top : (x.toNat * 256 ^ k + slice k s) / 256 ^ k = x.toNat := by
          rw [Nat.add_comm, Nat.add_mul_div_right _ _ (Nat.pow_pos (by decide)), Nat.div_eq_of_lt bound, Nat.zero_add]
        rw [top, Nat.mod_eq_of_lt byte, Nat.add_sub_cancel, Nat.sub_self, List.getD_cons_zero]

/-! ### Comparing keys -/

def memcmp : Bytes → Bytes → Ordering
  | x :: s, y :: t => (compare x.toNat y.toNat).then (memcmp s t)
  | _, _ => .eq

/-- `String_generic::compare` -/
def strCompare (a b : Bytes) : Ordering := (memcmp a b).then (compare a.length b.length)

/-- `key::compare` with another key, and with the suffixes of both where it finds no difference. -/
def Key.compareSuffix (a b : Key) : Ordering :=
  match a.compare b.ikey b.length with
  | .eq => if a.hasSuffix then strCompare a.suffix b.suffix else .eq
  | o => o

/-- `key::compare` again after a `shift` of both as long as it finds no difference, for at most `layers` shifts. -/
def Key.compareLayers : Nat → Key → Key → Ordering
  | 0, a, b => a.compare b.ikey b.length
  | layers + 1, a, b =>
    match a.compare b.ikey b.length with
    | .eq => if a.hasSuffix then compareLayers layers a.shift b.shift else .eq
    | o => o

def lexCompare (a b : Bytes) : Ordering := compareOfLessAndEq a b

theorem lexCompare_lt (less : a < b) : lexCompare a b = .lt := if_pos less

theorem lexCompare_gt (more : b < a) : lexCompare a b = .gt := by
  rw [lexCompare, compareOfLessAndEq, if_neg (List.lt_asymm more), if_neg]
  rintro rfl
  exact List.lt_irrefl _ more

theorem lexCompare_self (a : Bytes) : lexCompare a a = .eq := by
  rw [lexCompare, compareOfLessAndEq, if_neg (List.lt_irrefl a), if_pos rfl]

theorem lexCompare_cons (x y : UInt8) (s t : Bytes) :
    lexCompare (x :: s) (y :: t) = (compare x.toNat y.toNat).then (lexCompare s t) := by
  rcases Nat.lt_trichotomy x.toNat y.toNat with less | same | more
  · rw [lexCompare_lt (List.cons_lt_cons_iff.mpr (.inl (UInt8.lt_iff_toNat_lt.mpr less))), Nat.compare_eq_lt.mpr less]
    rfl
  · obtain rfl := UInt8.toNat_inj.mp same
    rw [Nat.compare_eq_eq.mpr rfl]
    unfold lexCompare compareOfLessAndEq
    simp only [List.cons_lt_cons_iff, UInt8.lt_irrefl, false_or, true_and, List.cons.injEq, Ordering.then]
  · rw [lexCompare_gt (List.cons_lt_cons_iff.mpr (.inl (UInt8.lt_iff_toNat_lt.mpr more))), Nat.compare_eq_gt.mpr more]
    rfl

theorem lexCompare_append (p s t : Bytes) : lexCompare (p ++ s) (p ++ t) = lexCompare s t := by
  induction p with
  | nil => rfl
  | cons x p ih =>
    rw [List.cons_append, List.cons_append, lexCompare_cons, Nat.compare_eq_eq.mpr rfl, ih]
    rfl

theorem strCompare_eq (a b : Bytes) : strCompare a b = lexCompare a b := by
  induction a generalizing b with
  | nil =>
    cases b with
    | nil => rfl
    | cons y t =>
      rw [lexCompare_lt (List.nil_lt_cons y t)]
      exact Nat.compare_eq_lt.mpr (Nat.succ_pos _)
  | cons x s ih =>
    cases b with
    | nil =>
      rw [lexCompare_gt (List.nil_lt_cons x s)]
      exact Nat.compare_eq_gt.mpr (Nat.succ_pos _)
    | cons y t =>
      have lengths : compare (x :: s).length (y :: t).length = compare s.length t.length := by
        rw [List.length_cons, List.length_cons, Nat.compare_eq_ite_lt, Nat.compare_eq_ite_lt]
        split_ifs <;> first | omega | rfl
      rw [lexCompare_cons, ← ih, strCompare, strCompare, memcmp, lengths, Ordering.then_assoc]

/-- Keys that differ in their slices or length classes are ordered by them; else they agree in a slice and both end with it or
neither does. -/
theorem Key.compare_slices (a b : Key) :
    (a.compare b.ikey b.length ≠ .eq ∧ a.compare b.ikey b.length = lexCompare a.s b.s) ∨
      (a.compare b.ikey b.length = .eq ∧ a.s.take 8 = b.s.take 8 ∧ (a.hasSuffix = false → a.s = b.s)) := by
  have ranks : a.compare b.ikey b.length = Ord.compare a.rank b.rank := a.compare_eq _ _
  rw [ranks]
  have order : ∀ {x y : Bytes}, Tree.rank (makeComparable x) x.length < Tree.rank (makeComparable y) y.length → x < y :=
    fun less => lt_of_slice (rank_lt.mp less)
  rcases Nat.lt_trichotomy a.rank b.rank with less | same | more
  · refine .inl ⟨by rw [Nat.compare_eq_lt.mpr less]; decide, ?_⟩
    rw [lexCompare_lt (order less)]
    exact Nat.compare_eq_lt.mpr less
  · refine .inr ⟨Nat.compare_eq_eq.mpr same, take_eq_of_rank same, fun short => ?_⟩
    have le : ¬8 < a.s.length := fun long => by
      rw [(hasSuffix_iff a).mpr long] at short
      cases short
    exact eq_of_rank same (Nat.le_of_not_lt le)
  · refine .inl ⟨by rw [Nat.compare_eq_gt.mpr more]; decide, ?_⟩
    rw [lexCompare_gt (order more)]
    exact Nat.compare_eq_gt.mpr more

theorem lexCompare_drop (same : a.take n = b.take n) : lexCompare (a.drop n) (b.drop n) = lexCompare a b := by
  conv_rhs => rw [← List.take_append_drop n a, ← List.take_append_drop n b, same]
  exact (lexCompare_append _ _ _).symm

theorem Key.compareSuffix_eq (a b : Key) : a.compareSuffix b = lexCompare a.s b.s := by
  unfold compareSuffix
  rcases compare_slices a b with ⟨differ, order⟩ | ⟨equal, slices, short⟩
  · rw [← order]
    split
    · exact absurd ‹_› differ
    · rfl
  · rw [equal]
    dsimp only
    split
    · rw [strCompare_eq]
      exact lexCompare_drop slices
    · rename_i whole
      rw [short (Bool.eq_false_iff.mpr whole), lexCompare_self]

theorem Key.compareLayers_eq (layers : Nat) (a b : Key) (enough : a.length ≤ 8 * (layers + 1)) :
    compareLayers layers a b = lexCompare a.s b.s := by
  induction layers generalizing a b with
  | zero =>
    rw [compareLayers]
    rcases compare_slices a b with ⟨_, order⟩ | ⟨equal, _, short⟩
    · exact order
    · have whole : a.hasSuffix = false := by
        rw [Bool.eq_false_iff, Ne, hasSuffix_iff]
        exact Nat.not_lt_of_le enough
      rw [equal, short whole, lexCompare_self]
  | succ layers ih =>
    unfold compareLayers
    rcases compare_slices a b with ⟨differ, order⟩ | ⟨equal, slices, short⟩
    · rw [← order]
      split
      · exact absurd ‹_› differ
      · rfl
    · rw [equal]
      dsimp only
      split
      · have shifted : a.shift.length ≤ 8 * (layers + 1) := by
          show (a.s.drop 8).length ≤ _
          have : a.s.length ≤ 8 * (layers + 1 + 1) := enough
          rw [List.length_drop]
          omega
        rw [ih _ _ shifted]
        exact lexCompare_drop slices
      · rename_i whole
        rw [short (Bool.eq_false_iff.mpr whole), lexCompare_self]

end Masstree.Tree
