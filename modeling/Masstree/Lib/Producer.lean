import Mathlib.Data.Option.Basic

/-!
# Producers

A machine that gives out values in some of its states, and the loop that hands them to a visitor for as long as the visitor wants more.
-/

structure Producer (σ α : Type) where
  finished : σ → Bool
  out : σ → Option α
  /-- `none` where the machine is stuck -/
  step : σ → Option σ

namespace Producer

variable {σ α S : Type}

/-- What a visitor makes of a list: it returns false where it wants no more. With the number of calls, counted from `n` on. -/
def visitAll (visit : S → α → Bool × S) : List α → Nat → S → Nat × S
  | [], n, s => (n, s)
  | a :: as, n, s => if (visit s a).1 then visitAll visit as (n + 1) (visit s a).2 else (n + 1, (visit s a).2)

def feed (m : Producer σ α) (visit : S → α → Bool × S) : Nat → σ → Nat → S → Option (Nat × S)
  | 0, _, _, _ => none
  | fuel + 1, c, n, s =>
    if m.finished c then some (n, s)
    else
      match m.out c with
      | none => (m.step c).bind fun c => feed m visit fuel c n s
      | some a =>
        if (visit s a).1 then (m.step c).bind fun c => feed m visit fuel c (n + 1) (visit s a).2
        else some (n + 1, (visit s a).2)

/-- The machine gives out the list, and finishes. -/
inductive Yields (m : Producer σ α) : σ → List α → Prop
  | finished {c : σ} : m.finished c = true → Yields m c []
  | silent {c c' : σ} {as : List α} : m.finished c = false → m.out c = none → m.step c = some c' → Yields m c' as → Yields m c as
  | emit {c c' : σ} {a : α} {as : List α} :
      m.finished c = false → m.out c = some a → m.step c = some c' → Yields m c' as → Yields m c (a :: as)

variable {m : Producer σ α} {c : σ} {as : List α}

/-- The visitor sees the list, up to the first value after which it wants no more. -/
theorem Yields.feed (yields : m.Yields c as) (visit : S → α → Bool × S) (n : Nat) (s : S) :
    ∃ enough, ∀ fuel ≥ enough, m.feed visit fuel c n s = some (visitAll visit as n s) := by
  induction yields generalizing n s with
  | finished final =>
    refine ⟨1, fun fuel le => ?_⟩
    obtain ⟨fuel, rfl⟩ := Nat.exists_eq_add_one.mpr le
    rw [Producer.feed, if_pos final]
    rfl
  | silent more quiet step _ ih =>
    obtain ⟨enough, rest⟩ := ih n s
    refine ⟨enough + 1, fun fuel le => ?_⟩
    obtain ⟨fuel, rfl⟩ := Nat.exists_eq_add_one.mpr (Nat.lt_of_lt_of_le enough.succ_pos le)
    rw [Producer.feed, if_neg (Bool.eq_false_iff.mp more), quiet]
    dsimp only
    rw [step, Option.bind_some, rest fuel (Nat.le_of_succ_le_succ le)]
  | @emit c c' a as more given step _ ih =>
    obtain ⟨enough, rest⟩ := ih (n + 1) (visit s a).2
    refine ⟨enough + 1, fun fuel le => ?_⟩
    obtain ⟨fuel, rfl⟩ := Nat.exists_eq_add_one.mpr (Nat.lt_of_lt_of_le enough.succ_pos le)
    rw [Producer.feed, if_neg (Bool.eq_false_iff.mp more), given, visitAll]
    dsimp only
    split
    · rw [step, Option.bind_some, rest fuel (Nat.le_of_succ_le_succ le)]
    · rfl

theorem Yields.next (yields : m.Yields c as) (more : m.finished c = false) (quiet : m.out c = none) :
    ∃ c', m.step c = some c' ∧ m.Yields c' as := by
  cases yields with
  | finished final => exact absurd final (Bool.eq_false_iff.mp more)
  | silent _ _ step rest => exact ⟨_, step, rest⟩
  | emit _ given _ _ => cases quiet.symm.trans given

end Producer
