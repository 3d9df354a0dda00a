import Mathlib.Order.Compare
import Mathlib.Order.Lattice
import Mathlib.Tactic.Common

/-!
# Binary search in a strictly increasing sequence

The sequence is seen only through the three-way comparisons of the key searched for with its elements.
`fuel` bounds the rounds; as many as there are elements are enough.
-/

namespace BinarySearch

/-- The position of the first element above the key. -/
def upper (cmp : Nat → Ordering) : Nat → Nat → Nat → Nat
  | 0, l, _ => l
  | fuel + 1, l, r =>
    if l < r then
      match cmp ((l + r) / 2) with
      | .lt => upper cmp fuel l ((l + r) / 2)
      | .eq => (l + r) / 2 + 1
      | .gt => upper cmp fuel ((l + r) / 2 + 1) r
    else l

/-- The position of the first element at or above the key, and whether it is the key. -/
def lower (cmp : Nat → Ordering) : Nat → Nat → Nat → Nat × Bool
  | 0, l, _ => (l, false)
  | fuel + 1, l, r =>
    if l < r then
      match cmp ((l + r) / 2) with
      | .lt => lower cmp fuel l ((l + r) / 2)
      | .eq => ((l + r) / 2, true)
      | .gt => lower cmp fuel ((l + r) / 2 + 1) r
    else (l, false)

/-- Whatever the comparisons, the position is in the range searched, and below its end where the key is found. -/
theorem lower_bounds (cmp : Nat → Ordering) (fuel : Nat) {l r : Nat} (ordered : l ≤ r) :
    (lower cmp fuel l r).1 ≤ r ∧ ((lower cmp fuel l r).2 = true → (lower cmp fuel l r).1 < r) := by
  induction fuel generalizing l r with
  | zero => exact ⟨ordered, nofun⟩
  | succ fuel ih =>
    unfold lower
    split
    · split
      · obtain ⟨le, lt⟩ := @ih l ((l + r) / 2) (by omega)
        exact ⟨by omega, fun found => by have := lt found; omega⟩
      · show (l + r) / 2 ≤ r ∧ (true = true → (l + r) / 2 < r)
        omega
      · exact @ih ((l + r) / 2 + 1) r (by omega)
    · exact ⟨ordered, nofun⟩

variable {α : Type*} [LinearOrder α] {seq : Nat → α} {key : α} {cmp : Nat → Ordering} {n : Nat}

/-- `cmp` compares `key` with the elements of `seq` below `n`, which increase. -/
structure Compares (cmp : Nat → Ordering) (key : α) (seq : Nat → α) (n : Nat) : Prop where
  cmp_eq : ∀ i < n, cmp i = compare key (seq i)
  increasing : ∀ i j, i < j → j < n → seq i < seq j

namespace Compares

theorem lt_iff (h : Compares cmp key seq n) {i : Nat} (bound : i < n) : cmp i = .lt ↔ key < seq i := by
  rw [h.cmp_eq i bound, compare_lt_iff_lt]

theorem eq_iff (h : Compares cmp key seq n) {i : Nat} (bound : i < n) : cmp i = .eq ↔ key = seq i := by
  rw [h.cmp_eq i bound, compare_eq_iff_eq]

theorem gt_iff (h : Compares cmp key seq n) {i : Nat} (bound : i < n) : cmp i = .gt ↔ seq i < key := by
  rw [h.cmp_eq i bound, compare_gt_iff_gt]

theorem monotone (h : Compares cmp key seq n) {i j : Nat} (le : i ≤ j) (bound : j < n) : seq i ≤ seq j := by
  rcases Nat.lt_or_eq_of_le le with lt | rfl
  · exact le_of_lt (h.increasing i j lt bound)
  · exact le_refl _

end Compares

/-- What is known while the key's position is between `l` and `r`. -/
structure Between (key : α) (seq : Nat → α) (n l r : Nat) : Prop where
  ordered : l ≤ r
  bound : r ≤ n
  below : ∀ i < l, seq i < key
  above : ∀ i, r ≤ i → i < n → key < seq i

theorem Between.start (key : α) (seq : Nat → α) (n : Nat) : Between key seq n 0 n :=
  ⟨Nat.zero_le n, Nat.le_refl n, fun i lt => absurd lt (Nat.not_lt_zero i),
    fun _ le lt => absurd lt (Nat.not_lt_of_le le)⟩

theorem Between.left (h : Compares cmp key seq n) {l r m : Nat} (b : Between key seq n l r) (lm : l ≤ m) (mr : m < r)
    (less : key < seq m) : Between key seq n l m :=
  ⟨lm, by have := b.bound; omega, b.below, fun _ le lt => lt_of_lt_of_le less (h.monotone le lt)⟩

theorem Between.right (h : Compares cmp key seq n) {l r m : Nat} (b : Between key seq n l r) (mr : m < r)
    (less : seq m < key) : Between key seq n (m + 1) r :=
  ⟨mr, b.bound, fun _ lt => lt_of_le_of_lt (h.monotone (Nat.le_of_lt_succ lt) (by have := b.bound; omega)) less, b.above⟩

theorem upper_between (h : Compares cmp key seq n) : ∀ (fuel l r : Nat), r - l ≤ fuel → Between key seq n l r →
    upper cmp fuel l r ≤ n ∧ (∀ i < upper cmp fuel l r, seq i ≤ key) ∧
      ∀ i, upper cmp fuel l r ≤ i → i < n → key < seq i := by
  intro fuel
  induction fuel with
  | zero =>
    intro l r enough b
    have same : l = r := by have := b.ordered; omega
    exact ⟨same ▸ b.bound, fun i lt => le_of_lt (b.below i lt), fun i le lt => b.above i (same ▸ le) lt⟩
  | succ fuel ih =>
    intro l r enough b
    have last := b.bound
    unfold upper
    split
    · rename_i open_
      have inside : (l + r) / 2 < n := by omega
      cases order : cmp ((l + r) / 2) with
      | lt => exact ih _ _ (by omega) (b.left h (by omega) (by omega) ((h.lt_iff inside).mp order))
      | gt => exact ih _ _ (by omega) (b.right h (by omega) ((h.gt_iff inside).mp order))
      | eq =>
        have same := (h.eq_iff inside).mp order
        refine ⟨inside, fun i lt => ?_, fun i le lt => ?_⟩
        · exact same ▸ h.monotone (Nat.le_of_lt_succ lt) inside
        · exact same ▸ h.increasing _ _ le lt
    · have same : l = r := by have := b.ordered; omega
      exact ⟨same ▸ b.bound, fun i lt => le_of_lt (b.below i lt), fun i le lt => b.above i (same ▸ le) lt⟩

theorem lower_between (h : Compares cmp key seq n) : ∀ (fuel l r : Nat), r - l ≤ fuel → Between key seq n l r →
    (lower cmp fuel l r).1 ≤ n ∧ (∀ i < (lower cmp fuel l r).1, seq i < key) ∧
      (∀ i, (lower cmp fuel l r).1 ≤ i → i < n → key ≤ seq i) ∧
        ((lower cmp fuel l r).2 = true ↔ (lower cmp fuel l r).1 < n ∧ seq (lower cmp fuel l r).1 = key) := by
  intro fuel
  have ended : ∀ l r, l = r → Between key seq n l r → l ≤ n ∧ (∀ i < l, seq i < key) ∧
      (∀ i, l ≤ i → i < n → key ≤ seq i) ∧ (false = true ↔ l < n ∧ seq l = key) := by
    intro l r same b
    refine ⟨same ▸ b.bound, b.below, fun i le lt => le_of_lt (b.above i (same ▸ le) lt), ?_⟩
    constructor
    · intro absurd
      cases absurd
    · intro ⟨lt, eq⟩
      exact absurd (b.above l (Nat.le_of_eq same.symm) lt) (by rw [eq]; exact lt_irrefl key)
  induction fuel with
  | zero =>
    intro l r enough b
    exact ended l r (by have := b.ordered; omega) b
  | succ fuel ih =>
    intro l r enough b
    have last := b.bound
    unfold lower
    split
    · rename_i open_
      have inside : (l + r) / 2 < n := by omega
      cases order : cmp ((l + r) / 2) with
      | lt => exact ih _ _ (by omega) (b.left h (by omega) (by omega) ((h.lt_iff inside).mp order))
      | gt => exact ih _ _ (by omega) (b.right h (by omega) ((h.gt_iff inside).mp order))
      | eq =>
        have same := (h.eq_iff inside).mp order
        refine ⟨Nat.le_of_lt inside, fun i lt => ?_, fun i le lt => ?_, ?_⟩
        · exact same ▸ h.increasing _ _ lt inside
        · exact same ▸ h.monotone le lt
        · exact ⟨fun _ => ⟨inside, same.symm⟩, fun _ => rfl⟩
    · exact ended l r (by have := b.ordered; omega) b

/-! ### One element after another -/

/-- `upper`, looking at each element in turn. -/
def scanUpper (cmp : Nat → Ordering) : Nat → Nat → Nat → Nat
  | 0, l, _ => l
  | fuel + 1, l, r =>
    if l < r then
      match cmp l with
      | .lt => l
      | _ => scanUpper cmp fuel (l + 1) r
    else l

/-- `lower`, looking at each element in turn. -/
def scanLower (cmp : Nat → Ordering) : Nat → Nat → Nat → Nat × Bool
  | 0, l, _ => (l, false)
  | fuel + 1, l, r =>
    if l < r then
      match cmp l with
      | .lt => (l, false)
      | .eq => (l, true)
      | .gt => scanLower cmp fuel (l + 1) r
    else (l, false)

/-- The elements from one above the key on are above it. -/
theorem Compares.above (h : Compares cmp key seq n) {l : Nat} (less : key < seq l) (i : Nat) (le : l ≤ i) (lt : i < n) :
    key < seq i := lt_of_lt_of_le less (h.monotone le lt)

theorem scanUpper_between (h : Compares cmp key seq n) (fuel l : Nat) (enough : n - l ≤ fuel) (bound : l ≤ n)
    (below : ∀ i < l, seq i ≤ key) :
    scanUpper cmp fuel l n ≤ n ∧ (∀ i < scanUpper cmp fuel l n, seq i ≤ key) ∧
      ∀ i, scanUpper cmp fuel l n ≤ i → i < n → key < seq i := by
  induction fuel generalizing l with
  | zero => exact ⟨bound, below, fun i le lt => by have : l ≤ i := le; omega⟩
  | succ fuel ih =>
    unfold scanUpper
    split
    · rename_i inside
      have next : seq l ≤ key → ∀ i < l + 1, seq i ≤ key := by
        intro le i lt
        rcases Nat.lt_succ_iff_lt_or_eq.mp lt with before | rfl
        · exact below i before
        · exact le
      cases order : cmp l with
      | lt => exact ⟨bound, below, h.above ((h.lt_iff inside).mp order)⟩
      | eq => exact ih (l + 1) (by omega) inside (next (le_of_eq ((h.eq_iff inside).mp order).symm))
      | gt => exact ih (l + 1) (by omega) inside (next (le_of_lt ((h.gt_iff inside).mp order)))
    · exact ⟨bound, below, fun i le lt => by omega⟩

theorem scanLower_between (h : Compares cmp key seq n) (fuel l : Nat) (enough : n - l ≤ fuel) (bound : l ≤ n)
    (below : ∀ i < l, seq i < key) :
    (scanLower cmp fuel l n).1 ≤ n ∧ (∀ i < (scanLower cmp fuel l n).1, seq i < key) ∧
      (∀ i, (scanLower cmp fuel l n).1 ≤ i → i < n → key ≤ seq i) ∧
        ((scanLower cmp fuel l n).2 = true ↔ (scanLower cmp fuel l n).1 < n ∧ seq (scanLower cmp fuel l n).1 = key) := by
  have ended : l = n → l ≤ n ∧ (∀ i < l, seq i < key) ∧ (∀ i, l ≤ i → i < n → key ≤ seq i) ∧
      (false = true ↔ l < n ∧ seq l = key) := fun all =>
    ⟨bound, below, fun i le lt => by omega, iff_of_false Bool.false_ne_true fun both => by have := both.1; omega⟩
  induction fuel generalizing l with
  | zero => exact ended (by omega)
  | succ fuel ih =>
    unfold scanLower
    split
    · rename_i inside
      cases order : cmp l with
      | lt =>
        have less := (h.lt_iff inside).mp order
        refine ⟨bound, below, fun i le lt => le_of_lt (h.above less i le lt), iff_of_false Bool.false_ne_true ?_⟩
        exact fun both => absurd both.2 (ne_of_gt less)
      | eq =>
        have same := (h.eq_iff inside).mp order
        refine ⟨bound, below, fun i le lt => ?_, iff_of_true rfl ⟨inside, same.symm⟩⟩
        exact same ▸ h.monotone le lt
      | gt =>
        have less := (h.gt_iff inside).mp order
        have next : ∀ i < l + 1, seq i < key := by
          intro i lt
          rcases Nat.lt_succ_iff_lt_or_eq.mp lt with before | rfl
          · exact below i before
          · exact less
        refine ih (l + 1) (by omega) inside next fun all => ?_
        exact ⟨by omega, next, fun i le lt => by omega, iff_of_false Bool.false_ne_true fun both => by have := both.1; omega⟩
    · exact ended (by omega)

/-! ### Counting -/

theorem countP_range {p : Nat → Bool} {u : Nat} (le : u ≤ n) (below : ∀ i < u, p i = true)
    (above : ∀ i, u ≤ i → i < n → p i = false) : (List.range n).countP p = u := by
  have parts : List.range n = List.range u ++ List.range' u (n - u) := by
    have sizes : n = u + (n - u) := (Nat.add_sub_cancel' le).symm
    rw [List.range_eq_range', List.range_eq_range']
    conv_lhs => rw [sizes]
    rw [← List.range'_append_1, Nat.zero_add]
  have all : (List.range u).countP p = (List.range u).length :=
    List.countP_eq_length.mpr fun i mem => below i (List.mem_range.mp mem)
  have none_ : (List.range' u (n - u)).countP p = 0 := by
    refine List.countP_eq_zero.mpr fun i mem => ?_
    obtain ⟨ge, lt⟩ := List.mem_range'_1.mp mem
    rw [above i ge (by omega)]
    exact Bool.false_ne_true
  rw [parts, List.countP_append, all, none_, List.length_range, Nat.add_zero]

/-- What an upper bound is: the number of elements up to the key. -/
def numberUpTo (key : α) (seq : Nat → α) (n : Nat) : Nat := (List.range n).countP fun i => decide (seq i ≤ key)

/-- What a lower bound is where no element is the key: the number of smaller ones. -/
def numberBelow (key : α) (seq : Nat → α) (n : Nat) : Nat := (List.range n).countP fun i => decide (seq i < key)

theorem upper_eq (h : Compares cmp key seq n) : upper cmp n 0 n = numberUpTo key seq n := by
  obtain ⟨le, below, above⟩ := upper_between h n 0 n (Nat.le_refl n) (Between.start key seq n)
  exact (countP_range le (fun i lt => decide_eq_true (below i lt))
    fun i ge lt => decide_eq_false (not_le_of_gt (above i ge lt))).symm

theorem scanUpper_eq (h : Compares cmp key seq n) : scanUpper cmp n 0 n = numberUpTo key seq n := by
  obtain ⟨le, below, above⟩ := scanUpper_between h n 0 (Nat.le_refl n) (Nat.zero_le n) fun i lt => absurd lt (Nat.not_lt_zero i)
  exact (countP_range le (fun i lt => decide_eq_true (below i lt))
    fun i ge lt => decide_eq_false (not_le_of_gt (above i ge lt))).symm

/-- A position with the smaller elements below it is the number of them, or that of the one equal to the key. -/
theorem lower_position {result : Nat × Bool} (h : Compares cmp key seq n) (le : result.1 ≤ n) (below : ∀ i < result.1, seq i < key)
    (above : ∀ i, result.1 ≤ i → i < n → key ≤ seq i) (found : result.2 = true ↔ result.1 < n ∧ seq result.1 = key) :
    (∀ i < n, seq i = key → result = (i, true)) ∧
      ((∀ i < n, seq i ≠ key) → result = (numberBelow key seq n, false)) := by
  refine ⟨fun i lt same => ?_, fun none_ => ?_⟩
  · have at_ : result.1 = i := by
      rcases Nat.lt_trichotomy result.1 i with less | eq | more
      · have ge := above result.1 (Nat.le_refl _) (by omega)
        exact absurd (h.increasing _ _ less lt) (not_lt_of_ge (same ▸ ge))
      · exact eq
      · exact absurd (below i more) (same ▸ lt_irrefl _)
    exact Prod.ext at_ (found.mpr ⟨at_ ▸ lt, at_ ▸ same⟩)
  · have count : numberBelow key seq n = result.1 := countP_range le (fun i lt => decide_eq_true (below i lt))
      fun i ge lt => decide_eq_false (not_lt_of_ge (above i ge lt))
    refine Prod.ext count.symm ?_
    rw [← Bool.not_eq_true, found]
    exact fun both => none_ _ both.1 both.2

theorem lower_eq (h : Compares cmp key seq n) : (∀ i < n, seq i = key → lower cmp n 0 n = (i, true)) ∧
    ((∀ i < n, seq i ≠ key) → lower cmp n 0 n = (numberBelow key seq n, false)) := by
  obtain ⟨le, below, above, found⟩ := lower_between h n 0 n (Nat.le_refl n) (Between.start key seq n)
  exact lower_position h le below above found

theorem scanLower_eq (h : Compares cmp key seq n) : (∀ i < n, seq i = key → scanLower cmp n 0 n = (i, true)) ∧
    ((∀ i < n, seq i ≠ key) → scanLower cmp n 0 n = (numberBelow key seq n, false)) := by
  obtain ⟨le, below, above, found⟩ :=
    scanLower_between h n 0 (Nat.le_refl n) (Nat.zero_le n) fun i lt => absurd lt (Nat.not_lt_zero i)
  exact lower_position h le below above found

end BinarySearch
