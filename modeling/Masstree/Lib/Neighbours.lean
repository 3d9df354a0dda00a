import Mathlib.Order.Lattice
import Mathlib.Data.List.Nodup

/-!
# Neighbours in an ordered list

The element after another one, by the bounds of the elements, and how it changes when one is put in or taken out.
-/

namespace Neighbours

variable {N K : Type} [LinearOrder K] (bound : N → K)

abbrev Ordered (L : List N) : Prop := L.Pairwise fun x y => bound x < bound y

/-- `y` comes right after `x`, which is the last element if `y` is `none`. -/
structure After (L : List N) (x : N) (y : Option N) : Prop where
  mem : x ∈ L
  next : ∀ z, y = some z → z ∈ L ∧ bound x < bound z
  least : ∀ z ∈ L, bound x < bound z → ∃ w, y = some w ∧ bound w ≤ bound z

/-- The list with a new element at the place of its bound. -/
def place (new : N) (L : List N) : List N :=
  L.filter (fun x => decide (bound x < bound new)) ++ new :: L.filter (fun x => decide (bound new < bound x))

variable {bound} {L : List N} {x y z n new : N} {next : Option N}

theorem Ordered.eq (ordered : Ordered bound L) (memX : x ∈ L) (memY : y ∈ L) (same : bound x = bound y) : x = y := by
  have nodup : (L.map bound).Nodup := List.pairwise_map.mpr (ordered.imp fun lt => ne_of_lt lt)
  exact List.inj_on_of_nodup_map nodup memX memY same

theorem after_of_split {A B : List N} (ordered : Ordered bound (A ++ x :: B)) : After bound (A ++ x :: B) x B.head? := by
  obtain ⟨_, right, apart⟩ := List.pairwise_append.mp ordered
  obtain ⟨above, rest⟩ := List.pairwise_cons.mp right
  refine ⟨by simp, fun z mem => ?_, fun z mem lt => ?_⟩
  · have inside := List.mem_of_mem_head? (Option.mem_def.mpr mem)
    exact ⟨List.mem_append_right _ (List.mem_cons_of_mem _ inside), above z inside⟩
  · rcases List.mem_append.mp mem with before | after
    · exact absurd lt (lt_asymm (apart z before x List.mem_cons_self))
    · rcases List.mem_cons.mp after with rfl | after
      · exact absurd lt (lt_irrefl _)
      · cases B with
        | nil => cases after
        | cons w B =>
          refine ⟨w, rfl, ?_⟩
          rcases List.mem_cons.mp after with rfl | after
          · exact le_refl _
          · exact le_of_lt ((List.pairwise_cons.mp rest).1 z after)

theorem exists_after (ordered : Ordered bound L) (mem : x ∈ L) : ∃ y, After bound L x y := by
  obtain ⟨A, B, rfl⟩ := List.append_of_mem mem
  exact ⟨_, after_of_split ordered⟩

theorem exists_before (ordered : Ordered bound L) (mem : x ∈ L) (below : y ∈ L) (lt : bound y < bound x) :
    ∃ p, After bound L p (some x) := by
  obtain ⟨A, B, rfl⟩ := List.append_of_mem mem
  rcases List.eq_nil_or_concat A with rfl | ⟨A, p, rfl⟩
  · rcases List.mem_cons.mp below with rfl | later
    · exact absurd lt (lt_irrefl _)
    · exact absurd lt (lt_asymm ((List.pairwise_cons.mp ordered).1 y later))
  · have after := after_of_split (x := p) (A := A) (B := x :: B) (by simpa using ordered)
    exact ⟨p, by simpa using after⟩

theorem After.unique {next' : Option N} (ordered : Ordered bound L) (after : After bound L x next) (after' : After bound L x next') :
    next = next' := by
  cases next with
  | none =>
    cases next' with
    | none => rfl
    | some z =>
      obtain ⟨mem, lt⟩ := after'.next z rfl
      obtain ⟨w, none_, _⟩ := after.least z mem lt
      cases none_
  | some y =>
    obtain ⟨mem, lt⟩ := after.next y rfl
    obtain ⟨z, rfl, le⟩ := after'.least y mem lt
    obtain ⟨mem', lt'⟩ := after'.next z rfl
    obtain ⟨_, eq, le'⟩ := after.least z mem' lt'
    obtain rfl := Option.some.inj eq
    rw [ordered.eq mem mem' (le_antisymm le' le)]

theorem exists_split (ordered : Ordered bound L) (after : After bound L x (some z)) : ∃ A B, L = A ++ x :: z :: B := by
  obtain ⟨A, B, rfl⟩ := List.append_of_mem after.mem
  have head := after.unique ordered (after_of_split ordered)
  cases B with
  | nil => cases head
  | cons z' B =>
    obtain rfl := Option.some.inj head
    exact ⟨A, B, rfl⟩

theorem After.before_unique {x' : N} (ordered : Ordered bound L) (after : After bound L x (some y))
    (after' : After bound L x' (some y)) : x = x' := by
  have not_lt : ∀ {x x'}, After bound L x (some y) → After bound L x' (some y) → ¬bound x < bound x' := by
    intro x x' after after' lt
    obtain ⟨_, eq, le⟩ := after.least x' after'.mem lt
    obtain rfl := Option.some.inj eq
    exact absurd (after'.next _ rfl).2 (not_lt_of_ge le)
  refine ordered.eq after.mem after'.mem (le_antisymm ?_ ?_)
  · exact le_of_not_gt (not_lt after' after)
  · exact le_of_not_gt (not_lt after after')

/-! ### A new element -/

variable (bound) in
/-- The place of a new element is right after `n`. -/
structure Gap (L : List N) (n new : N) : Prop where
  mem : n ∈ L
  above : bound n < bound new
  below : ∀ z ∈ L, bound n < bound z → bound new < bound z

theorem Gap.apart (gap : Gap bound L n new) (ordered : Ordered bound L) (mem : z ∈ L) : bound z < bound new ∨ bound new < bound z := by
  rcases lt_trichotomy (bound z) (bound n) with lt | same | gt
  · exact .inl (lt_trans lt gap.above)
  · rw [ordered.eq mem gap.mem same]
    exact .inl gap.above
  · exact .inr (gap.below z mem gt)

theorem Gap.not_mem (gap : Gap bound L n new) (ordered : Ordered bound L) : new ∉ L := by
  intro mem
  rcases gap.apart ordered mem with lt | lt
  · exact lt_irrefl _ lt
  · exact lt_irrefl _ lt

theorem Gap.mem_place (gap : Gap bound L n new) (ordered : Ordered bound L) : z ∈ place bound new L ↔ z = new ∨ z ∈ L := by
  rw [place, List.mem_append, List.mem_cons, List.mem_filter, List.mem_filter, decide_eq_true_eq, decide_eq_true_eq]
  constructor
  · rintro (⟨mem, _⟩ | rfl | ⟨mem, _⟩)
    · exact .inr mem
    · exact .inl rfl
    · exact .inr mem
  · rintro (rfl | mem)
    · exact .inr (.inl rfl)
    · rcases gap.apart ordered mem with lt | gt
      · exact .inl ⟨mem, lt⟩
      · exact .inr (.inr ⟨mem, gt⟩)

theorem ordered_place (ordered : Ordered bound L) (new : N) : Ordered bound (place bound new L) := by
  refine List.pairwise_append.mpr ⟨ordered.filter _, List.pairwise_cons.mpr ⟨fun z mem => ?_, ordered.filter _⟩, fun x memX y memY => ?_⟩
  · exact decide_eq_true_eq.mp (List.mem_filter.mp mem).2
  · have lt : bound x < bound new := decide_eq_true_eq.mp (List.mem_filter.mp memX).2
    rcases List.mem_cons.mp memY with rfl | memY
    · exact lt
    · exact lt_trans lt (decide_eq_true_eq.mp (List.mem_filter.mp memY).2)

theorem Gap.after_left (gap : Gap bound L n new) (ordered : Ordered bound L) : After bound (place bound new L) n (some new) := by
  refine ⟨(gap.mem_place ordered).mpr (.inr gap.mem), fun z eq => ?_, fun z mem lt => ⟨new, rfl, ?_⟩⟩
  · obtain rfl := Option.some.inj eq
    exact ⟨(gap.mem_place ordered).mpr (.inl rfl), gap.above⟩
  · rcases (gap.mem_place ordered).mp mem with rfl | old
    · exact le_refl _
    · exact le_of_lt (gap.below z old lt)

theorem Gap.after_right (gap : Gap bound L n new) (ordered : Ordered bound L) (after : After bound L n next) :
    After bound (place bound new L) new next := by
  refine ⟨(gap.mem_place ordered).mpr (.inl rfl), fun z eq => ?_, fun z mem lt => ?_⟩
  · obtain ⟨mem, lt⟩ := after.next z eq
    exact ⟨(gap.mem_place ordered).mpr (.inr mem), gap.below z mem lt⟩
  · rcases (gap.mem_place ordered).mp mem with rfl | old
    · exact absurd lt (lt_irrefl _)
    · exact after.least z old (lt_trans gap.above lt)

theorem Gap.after_other (gap : Gap bound L n new) (ordered : Ordered bound L) (other : z ≠ n) (after : After bound L z next) :
    After bound (place bound new L) z next := by
  refine ⟨(gap.mem_place ordered).mpr (.inr after.mem), fun w eq => ?_, fun w mem lt => ?_⟩
  · obtain ⟨mem, lt⟩ := after.next w eq
    exact ⟨(gap.mem_place ordered).mpr (.inr mem), lt⟩
  · rcases (gap.mem_place ordered).mp mem with rfl | old
    · -- then `n` is after `z`
      have lt' : bound z < bound n := by
        refine lt_of_not_ge fun ge => ?_
        rcases lt_or_eq_of_le ge with gt | same
        · exact absurd lt (lt_asymm (gap.below z after.mem gt))
        · exact other (ordered.eq after.mem gap.mem same.symm)
      obtain ⟨y, eq, le⟩ := after.least n gap.mem lt'
      exact ⟨y, eq, le_of_lt (lt_of_le_of_lt le gap.above)⟩
    · exact after.least w old lt

theorem Gap.placed {n' new' : N} (gap' : Gap bound L n' new') (gap : Gap bound L n new) (ordered : Ordered bound L) (apart : n' ≠ n) :
    Gap bound (place bound new L) n' new' := by
  refine ⟨(gap.mem_place ordered).mpr (.inr gap'.mem), gap'.above, fun z mem lt => ?_⟩
  rcases (gap.mem_place ordered).mp mem with rfl | old
  · rcases lt_trichotomy (bound n) (bound n') with above | same | below
    · exact absurd lt (lt_asymm (gap.below n' gap'.mem above))
    · exact absurd (ordered.eq gap'.mem gap.mem same.symm) apart
    · exact lt_trans (gap'.below n gap.mem below) gap.above
  · exact gap'.below z old lt

/-- What comes after an element of the longer list. -/
theorem Gap.cases {next' : Option N} (gap : Gap bound L n new) (ordered : Ordered bound L) (after : After bound L n next)
    (after' : After bound (place bound new L) z next') :
    (z = n ∧ next' = some new) ∨ (z = new ∧ next' = next) ∨ (z ≠ n ∧ z ≠ new ∧ After bound L z next') := by
  have long := ordered_place ordered new
  rcases (gap.mem_place ordered).mp after'.mem with rfl | mem
  · exact .inr (.inl ⟨rfl, after'.unique long (gap.after_right ordered after)⟩)
  · by_cases same : z = n
    · subst same
      exact .inl ⟨rfl, after'.unique long (gap.after_left ordered)⟩
    · obtain ⟨y, old⟩ := exists_after ordered mem
      rw [after'.unique long (gap.after_other ordered same old)]
      refine .inr (.inr ⟨same, ?_, old⟩)
      rintro rfl
      exact gap.not_mem ordered mem

/-! ### An element taken out -/

section
variable [DecidableEq N] {p : N}

theorem ordered_erase (ordered : Ordered bound L) (n : N) : Ordered bound (L.filter (· ≠ n)) := ordered.filter _

theorem mem_erase : z ∈ L.filter (· ≠ n) ↔ z ∈ L ∧ z ≠ n := by rw [List.mem_filter, decide_eq_true_eq]

theorem After.erase_left (before : After bound L p (some n)) (ordered : Ordered bound L) (after : After bound L n next) :
    After bound (L.filter (· ≠ n)) p next := by
  have lt := (before.next n rfl).2
  refine ⟨mem_erase.mpr ⟨before.mem, ?_⟩, fun z eq => ?_, fun z mem above => ?_⟩
  · rintro rfl
    exact lt_irrefl _ lt
  · obtain ⟨mem, lt'⟩ := after.next z eq
    refine ⟨mem_erase.mpr ⟨mem, ?_⟩, lt_trans lt lt'⟩
    rintro rfl
    exact lt_irrefl _ lt'
  · obtain ⟨old, other⟩ := mem_erase.mp mem
    obtain ⟨_, eq, le⟩ := before.least z old above
    obtain rfl := Option.some.inj eq
    refine after.least z old (lt_of_le_of_ne le fun same => other ?_)
    exact ordered.eq old (before.next n rfl).1 same.symm

theorem After.erase_other (after : After bound L z next) (other : z ≠ n) (apart : next ≠ some n) :
    After bound (L.filter (· ≠ n)) z next := by
  refine ⟨mem_erase.mpr ⟨after.mem, other⟩, fun w eq => ?_, fun w mem lt => after.least w (mem_erase.mp mem).1 lt⟩
  obtain ⟨mem, lt⟩ := after.next w eq
  refine ⟨mem_erase.mpr ⟨mem, ?_⟩, lt⟩
  rintro rfl
  exact apart eq

theorem Gap.erased {n' new' : N} (gap : Gap bound L n' new') (other : n' ≠ n) : Gap bound (L.filter (· ≠ n)) n' new' :=
  ⟨mem_erase.mpr ⟨gap.mem, other⟩, gap.above, fun z mem => gap.below z (mem_erase.mp mem).1⟩

/-- What comes after an element of the shorter list. -/
theorem After.erase_cases {next' : Option N} (before : After bound L p (some n)) (ordered : Ordered bound L)
    (after : After bound L n next)
    (after' : After bound (L.filter (· ≠ n)) z next') : (z = p ∧ next' = next) ∨ (z ≠ p ∧ z ≠ n ∧ After bound L z next') := by
  have short := ordered_erase ordered n
  obtain ⟨mem, other⟩ := mem_erase.mp after'.mem
  by_cases same : z = p
  · subst same
    exact .inl ⟨rfl, after'.unique short (before.erase_left ordered after)⟩
  · obtain ⟨y, old⟩ := exists_after ordered mem
    have apart : y ≠ some n := by
      rintro rfl
      exact same (old.before_unique ordered before)
    rw [after'.unique short (old.erase_other other apart)]
    exact .inr ⟨same, other, old⟩

end

end Neighbours
