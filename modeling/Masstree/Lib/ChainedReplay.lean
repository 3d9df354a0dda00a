import Mathlib.Data.List.TakeWhile
import Mathlib.Tactic.Common

/-!
# Replaying a chained history out of order

A history is numbered from 0. Some of its entries are self-contained, the others are increments
that need the result of the entry just before them. A replayer that meets the entries in an
arbitrary order keeps a base, the number of entries its value stands for, and the increments that
arrived before their predecessor, oldest first. `run_complete` says that once every entry past the
starting base has been met, nothing is pending and the base is the whole history.
-/

namespace ChainedReplay

/-- The base and the increments that wait for their predecessor. -/
structure State where
  base : Nat
  pending : List Nat
  deriving DecidableEq, Repr

/-- Takes increments off the front of the pending ones while they continue the base. -/
def absorb (base : Nat) : List Nat → State
  | [] => ⟨base, []⟩
  | j :: rest => if j = base then absorb (base + 1) rest else ⟨base, j :: rest⟩

def older (i : Nat) (l : List Nat) : List Nat := l.takeWhile (· < i)

def newer (i : Nat) (l : List Nat) : List Nat := l.dropWhile (· < i)

variable (full : Nat → Bool)

def step (i : Nat) (s : State) : State :=
  if older i s.pending = [] ∧ i < s.base then s
  else if full i = true ∨ older i s.pending = [] ∧ i = s.base then absorb (i + 1) (newer i s.pending)
  else absorb s.base (older i s.pending ++ i :: newer i s.pending)

def run (s : State) (order : List Nat) : State := order.foldl (fun s i => step full i s) s

/-- Pending increments are past the base, inside the history and in order. -/
structure Sorted (n : Nat) (s : State) : Prop where
  base_le : s.base ≤ n
  pending : ∀ j ∈ s.pending, s.base < j ∧ j < n ∧ full j = false
  increasing : s.pending.Pairwise (· < ·)

def Covers (met : Nat → Prop) (s : State) : Prop := ∀ j, met j → j < s.base ∨ j ∈ s.pending

/-! ### The pending list around an entry -/

theorem older_append_newer (i : Nat) (l : List Nat) : older i l ++ newer i l = l :=
  List.takeWhile_append_dropWhile

theorem older_sublist (i : Nat) (l : List Nat) : (older i l).Sublist l := List.takeWhile_sublist _

theorem newer_sublist (i : Nat) (l : List Nat) : (newer i l).Sublist l := List.dropWhile_sublist _

theorem older_lt {i j : Nat} {l : List Nat} (member : j ∈ older i l) : j < i := by
  simpa using List.mem_takeWhile_imp (p := fun x => decide (x < i)) member

theorem le_newer {i j : Nat} {l : List Nat} (increasing : l.Pairwise (· < ·)) (member : j ∈ newer i l) :
    i ≤ j := by
  induction l with
  | nil => simp [newer] at member
  | cons a l ih =>
    by_cases below : a < i
    · rw [newer, List.dropWhile_cons_of_pos (by simpa using below)] at member
      exact ih increasing.of_cons member
    · rw [newer, List.dropWhile_cons_of_neg (by simpa using below)] at member
      rcases List.mem_cons.mp member with rfl | later
      · omega
      · have := List.rel_of_pairwise_cons increasing later
        omega

theorem lt_newer {i j : Nat} {l : List Nat} (increasing : l.Pairwise (· < ·)) (fresh : i ∉ l)
    (member : j ∈ newer i l) : i < j := by
  have bound := le_newer increasing member
  have other : j ≠ i := by
    rintro rfl
    exact fresh ((newer_sublist _ _).subset member)
  omega

/-! ### Absorbing -/

theorem absorb_base_le (base : Nat) (l : List Nat) : base ≤ (absorb base l).base := by
  induction l generalizing base with
  | nil => simp [absorb]
  | cons j l ih =>
    unfold absorb
    split
    · exact Nat.le_of_succ_le (ih (base + 1))
    · simp

theorem absorb_pending {base j : Nat} {l : List Nat} (member : j ∈ (absorb base l).pending) : j ∈ l := by
  induction l generalizing base with
  | nil => simp [absorb] at member
  | cons a l ih =>
    unfold absorb at member
    split at member
    · exact List.mem_cons_of_mem _ (ih member)
    · exact member

/-- Absorbing leaves every pending increment in the base or pending. -/
theorem absorb_covers (base : Nat) (l : List Nat) : Covers (· ∈ l) (absorb base l) := by
  induction l generalizing base with
  | nil => simp [Covers]
  | cons j l ih =>
    unfold absorb
    split
    · rename_i continues
      intro k member
      rcases List.mem_cons.mp member with rfl | later
      · have := absorb_base_le (base + 1) l
        exact Or.inl (by omega)
      · exact ih (base + 1) k later
    · exact fun k member => Or.inr member

theorem absorb_sorted {n base : Nat} {l : List Nat} (bound : base ≤ n)
    (pending : ∀ j ∈ l, base ≤ j ∧ j < n ∧ full j = false) (increasing : l.Pairwise (· < ·)) :
    Sorted full n (absorb base l) := by
  induction l generalizing base with
  | nil => exact ⟨bound, by simp [absorb], by simp [absorb]⟩
  | cons j l ih =>
    have head := pending j List.mem_cons_self
    have tail := (List.pairwise_cons.mp increasing).1
    unfold absorb
    split
    · rename_i continues
      subst continues
      exact ih head.2.1 (fun k member => ⟨tail k member, (pending k (List.mem_cons_of_mem _ member)).2⟩)
        increasing.of_cons
    · rename_i gap
      refine ⟨bound, fun k member => ?_, increasing⟩
      have at_k := pending k member
      rcases List.mem_cons.mp member with rfl | later
      · exact ⟨Nat.lt_of_le_of_ne at_k.1 (Ne.symm gap), at_k.2⟩
      · have := tail k later
        exact ⟨show base < k by omega, at_k.2⟩

/-! ### One entry -/

/-- What a step does to a state in order: nothing, a new base, or one more pending increment. -/
theorem step_cases {n i : Nat} {s : State} (sorted : Sorted full n s) :
    (i < s.base ∧ step full i s = s) ∨
    (s.base ≤ i ∧ (full i = true ∨ i = s.base) ∧ step full i s = absorb (i + 1) (newer i s.pending)) ∨
    (s.base < i ∧ full i = false ∧
      step full i s = absorb s.base (older i s.pending ++ i :: newer i s.pending)) := by
  have early : i ≤ s.base → older i s.pending = [] := fun bound =>
    List.eq_nil_iff_forall_not_mem.mpr fun j member => by
      have := older_lt member
      have := (sorted.pending j ((older_sublist _ _).subset member)).1
      omega
  rcases Nat.lt_trichotomy i s.base with below | rfl | above
  · exact Or.inl ⟨below, by simp [step, early (Nat.le_of_lt below), below]⟩
  · exact Or.inr (Or.inl ⟨Nat.le_refl _, Or.inr rfl, by simp [step, early]⟩)
  · cases self : full i with
    | true => exact Or.inr (Or.inl ⟨Nat.le_of_lt above, Or.inl rfl, by
        simp [step, self, show ¬ i < s.base by omega]⟩)
    | false => exact Or.inr (Or.inr ⟨above, rfl, by
        simp [step, self, show ¬ i < s.base by omega, show i ≠ s.base by omega]⟩)

theorem step_pending {n i j : Nat} {s : State} (sorted : Sorted full n s)
    (member : j ∈ (step full i s).pending) : j ∈ s.pending ∨ j = i := by
  rcases step_cases full (i := i) sorted with ⟨-, same⟩ | ⟨-, -, same⟩ | ⟨-, -, same⟩
  · rw [same] at member
    exact Or.inl member
  · rw [same] at member
    exact Or.inl ((newer_sublist _ _).subset (absorb_pending member))
  · rw [same] at member
    rcases List.mem_append.mp (absorb_pending member) with before | after
    · exact Or.inl ((older_sublist _ _).subset before)
    · rcases List.mem_cons.mp after with rfl | after
      · exact Or.inr rfl
      · exact Or.inl ((newer_sublist _ _).subset after)

theorem step_sorted {n i : Nat} {s : State} (sorted : Sorted full n s) (inside : i < n)
    (fresh : i ∉ s.pending) : Sorted full n (step full i s) := by
  have later : ∀ j ∈ newer i s.pending, i < j ∧ j < n ∧ full j = false := fun j member =>
    ⟨lt_newer sorted.increasing fresh member, (sorted.pending j ((newer_sublist _ _).subset member)).2⟩
  have newer_increasing := sorted.increasing.sublist (newer_sublist i s.pending)
  rcases step_cases full (i := i) sorted with ⟨-, same⟩ | ⟨-, -, same⟩ | ⟨above, increment, same⟩
  · rw [same]
    exact sorted
  · rw [same]
    exact absorb_sorted full inside later newer_increasing
  · rw [same]
    refine absorb_sorted full sorted.base_le (fun j member => ?_) ?_
    · rcases List.mem_append.mp member with before | after
      · have := sorted.pending j ((older_sublist _ _).subset before)
        exact ⟨by omega, this.2⟩
      · rcases List.mem_cons.mp after with rfl | after
        · exact ⟨by omega, inside, increment⟩
        · have := later j after
          exact ⟨by omega, this.2⟩
    · refine List.pairwise_append.mpr ⟨sorted.increasing.sublist (older_sublist _ _),
        List.pairwise_cons.mpr ⟨fun j member => (later j member).1, newer_increasing⟩,
        fun a before b after => ?_⟩
      have := older_lt before
      rcases List.mem_cons.mp after with rfl | after
      · exact this
      · have := (later b after).1
        omega

/-- A step accounts for the entry it meets and for every entry met before. -/
theorem step_covers {n i : Nat} {s : State} {met : Nat → Prop} (sorted : Sorted full n s)
    (covers : Covers met s) : Covers (fun j => met j ∨ j = i) (step full i s) := by
  rcases step_cases full (i := i) sorted with ⟨below, same⟩ | ⟨bound, -, same⟩ | ⟨above, -, same⟩
  · rw [same]
    exact fun j seen => seen.elim (covers j) fun eq => Or.inl (eq ▸ below)
  · rw [same]
    intro j seen
    have grown := absorb_base_le (i + 1) (newer i s.pending)
    by_cases below : j ≤ i
    · exact Or.inl (by omega)
    rcases seen with before | rfl
    · rcases covers j before with based | waiting
      · omega
      · rw [← older_append_newer i s.pending] at waiting
        rcases List.mem_append.mp waiting with earlier | later
        · have := older_lt earlier
          omega
        · exact absorb_covers _ _ j later
    · omega
  · rw [same]
    intro j seen
    have grown := absorb_base_le s.base (older i s.pending ++ i :: newer i s.pending)
    rcases seen with before | rfl
    · rcases covers j before with based | waiting
      · exact Or.inl (by omega)
      · rw [← older_append_newer i s.pending] at waiting
        refine absorb_covers _ _ j ?_
        rcases List.mem_append.mp waiting with earlier | later
        · exact List.mem_append_left _ earlier
        · exact List.mem_append_right _ (List.mem_cons_of_mem _ later)
    · exact absorb_covers _ _ j (List.mem_append_right _ List.mem_cons_self)

/-! ### A whole order -/

/-- The entries an order meets: each from `m` on exactly once, those before any number of times. -/
structure Meets (m n : Nat) (order : List Nat) : Prop where
  once : ∀ i, m ≤ i → i < n → order.count i = 1
  inside : ∀ i ∈ order, i < n

/-- The invariant of a run from base `m` that has met `done`. -/
structure Inv (n m : Nat) (done : List Nat) (s : State) : Prop where
  sorted : Sorted full n s
  covers : Covers (fun j => j < m ∨ j ∈ done) s
  le_base : m ≤ s.base
  pending : ∀ j ∈ s.pending, j ∈ done

theorem initial_inv {n m : Nat} (bound : m ≤ n) : Inv full n m [] ⟨m, []⟩ :=
  ⟨⟨bound, by simp, by simp⟩, fun j seen => Or.inl (by simpa using seen), Nat.le_refl _, by simp⟩

theorem Inv.fresh {n m i : Nat} {done : List Nat} {s : State} (inv : Inv full n m done s)
    (unmet : m ≤ i → i ∉ done) : i ∉ s.pending := fun member =>
  unmet (by have := (inv.sorted.pending i member).1; have := inv.le_base; omega) (inv.pending i member)

theorem step_inv {n m i : Nat} {done : List Nat} {s : State} (inv : Inv full n m done s) (inside : i < n)
    (unmet : m ≤ i → i ∉ done) : Inv full n m (done ++ [i]) (step full i s) := by
  refine ⟨step_sorted full inv.sorted inside (inv.fresh full unmet), fun j seen => ?_, ?_, fun j member => ?_⟩
  · refine step_covers full inv.sorted inv.covers j ?_
    simpa [or_assoc] using seen
  · have := inv.le_base
    rcases step_cases full (i := i) inv.sorted with ⟨-, same⟩ | ⟨bound, -, same⟩ | ⟨-, -, same⟩
    · rw [same]
      exact this
    · have := absorb_base_le (i + 1) (newer i s.pending)
      rw [same]
      omega
    · rw [same]
      exact Nat.le_trans this (absorb_base_le _ _)
  · rcases step_pending full inv.sorted member with before | rfl
    · exact List.mem_append_left _ (inv.pending j before)
    · simp

/-- An entry from `m` on was not met before. -/
theorem Meets.unmet {m n i : Nat} {done rest : List Nat} (meets : Meets m n (done ++ i :: rest))
    (recent : m ≤ i) : i ∉ done := by
  intro member
  have once := meets.once i recent (meets.inside i (by simp))
  have := List.count_pos_iff.mpr member
  simp only [List.count_append, List.count_cons_self] at once
  omega

theorem run_inv {n m : Nat} {done rest : List Nat} {s : State} (meets : Meets m n (done ++ rest))
    (inv : Inv full n m done s) : Inv full n m (done ++ rest) (run full s rest) := by
  induction rest generalizing done s with
  | nil => simpa [run] using inv
  | cons i rest ih =>
    have next := step_inv full inv (meets.inside i (by simp)) (fun recent => meets.unmet recent)
    have meets : Meets m n ((done ++ [i]) ++ rest) := by simpa using meets
    have := ih meets next
    simpa [run] using this

/-- Whatever the order, the run ends with the whole history in the base and nothing pending. -/
theorem run_complete {n m : Nat} {order : List Nat} (bound : m ≤ n) (meets : Meets m n order) :
    run full ⟨m, []⟩ order = ⟨n, []⟩ := by
  have meets' : Meets m n ([] ++ order) := by simpa using meets
  have inv := run_inv full meets' (initial_inv full bound)
  rw [List.nil_append] at inv
  have met : ∀ j, j < n → j < m ∨ j ∈ order := fun j inside => by
    by_cases early : j < m
    · exact Or.inl early
    · exact Or.inr (List.count_pos_iff.mp (by rw [meets.once j (by omega) inside]; decide))
  have whole : (run full ⟨m, []⟩ order).base = n := by
    rcases Nat.lt_or_ge (run full ⟨m, []⟩ order).base n with short | long
    · -- The entry the base stops at was met, so it is pending, but pending entries are past it.
      rcases inv.covers _ (met _ short) with based | waiting
      · omega
      · have := (inv.sorted.pending _ waiting).1
        omega
    · exact Nat.le_antisymm inv.sorted.base_le long
  have none : (run full ⟨m, []⟩ order).pending = [] :=
    List.eq_nil_iff_forall_not_mem.mpr fun j member => by
      have := inv.sorted.pending j member
      omega
  cases final : run full ⟨m, []⟩ order
  simp_all

/-- Entry `i`, met after `done`, has to wait: an earlier entry past `m` is missing, and no full entry met
so far stands for it. -/
def Waits (m : Nat) (done : List Nat) (i : Nat) : Prop :=
  full i = false ∧ ∃ j, m ≤ j ∧ j < i ∧ j ∉ done ∧ ∀ k ∈ done, j < k → full k = false

/-- An increment past the base waits for the entry the base stops at. -/
theorem Inv.waits {n m i : Nat} {done : List Nat} {s : State} (inv : Inv full n m done s)
    (above : s.base < i) (increment : full i = false) : Waits full m done i := by
  refine ⟨increment, s.base, inv.le_base, above, fun met => ?_, fun k met later => ?_⟩
  · rcases inv.covers s.base (Or.inr met) with based | waiting
    · omega
    · have := (inv.sorted.pending _ waiting).1
      omega
  · rcases inv.covers k (Or.inr met) with based | waiting
    · omega
    · exact (inv.sorted.pending _ waiting).2.2

/-- A replayer on concrete states that takes the same steps, as long as what waits is `ok`, ends with the
concrete state of the whole history. -/
theorem simulates {σ : Type} (concrete : Nat → σ → Option σ) (repr : State → σ) (ok : Nat → Prop) {n m : Nat}
    {order : List Nat} (bound : m ≤ n) (meets : Meets m n order)
    (waiting : ∀ done i rest, order = done ++ i :: rest → Waits full m done i → ok i)
    (sim : ∀ i s, Sorted full n s → i < n → i ∉ s.pending → (∀ j ∈ s.pending, ok j) →
      (s.base < i → full i = false → ok i) → concrete i (repr s) = some (repr (step full i s))) :
    order.foldlM (fun c i => concrete i c) (repr ⟨m, []⟩) = some (repr ⟨n, []⟩) := by
  have along : ∀ (rest done : List Nat) (s : State), order = done ++ rest → Inv full n m done s →
      (∀ j ∈ s.pending, ok j) →
      rest.foldlM (fun c i => concrete i c) (repr s) = some (repr (run full s rest)) := by
    intro rest
    induction rest with
    | nil => intro done s _ _ _; rfl
    | cons i rest ih =>
      intro done s split inv accepted
      subst split
      have inside := meets.inside i (by simp)
      have unmet : m ≤ i → i ∉ done := fun recent => meets.unmet recent
      have accept : s.base < i → full i = false → ok i := fun above increment =>
        waiting done i rest rfl (inv.waits full above increment)
      rw [List.foldlM_cons, sim i s inv.sorted inside (inv.fresh full unmet) accepted accept]
      refine ih (done ++ [i]) _ (by simp) (step_inv full inv inside unmet) fun j member => ?_
      rcases step_cases full (i := i) inv.sorted with ⟨-, same⟩ | ⟨-, -, same⟩ | ⟨above, increment, same⟩
      · exact accepted j (same ▸ member)
      · exact accepted j ((newer_sublist _ _).subset (absorb_pending (same ▸ member)))
      · rcases step_pending full inv.sorted member with before | rfl
        · exact accepted j before
        · exact accept above increment
  rw [along order [] _ rfl (initial_inv full bound) (by simp), run_complete full bound meets]

end ChainedReplay
