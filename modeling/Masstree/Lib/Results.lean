import Mathlib.Tactic.Common

/-!
# Results that may be errors
-/

namespace Results

variable {ε α β γ : Type*} {x : Except ε α} {f : α → Except ε β} {g : α → β} {b : β} {e : ε}

theorem bind_eq_ok : x.bind f = .ok b ↔ ∃ a, x = .ok a ∧ f a = .ok b := by
  cases x with
  | error e => simp [Except.bind]
  | ok a => simp [Except.bind]

theorem map_eq_ok : x.map g = .ok b ↔ ∃ a, x = .ok a ∧ g a = b := by
  cases x with
  | error e => simp [Except.map]
  | ok a => simp [Except.map]

theorem bind_eq_error : x.bind f = .error e ↔ x = .error e ∨ ∃ a, x = .ok a ∧ f a = .error e := by
  cases x with
  | error e => simp [Except.bind]
  | ok a => simp [Except.bind]

theorem map_eq_error : x.map g = .error e ↔ x = .error e := by
  cases x with
  | error e => simp [Except.map]
  | ok a => simp [Except.map]

theorem map_bind (x : Except ε α) (f : α → Except ε β) (h : β → γ) : (x.bind f).map h = x.bind fun a => (f a).map h := by
  cases x <;> rfl

theorem map_map (x : Except ε α) (g : α → β) (h : β → γ) : (x.map g).map h = x.map (h ∘ g) := by
  cases x <;> rfl

theorem map_congr {g' : α → β} (same : ∀ a, x = .ok a → g a = g' a) : x.map g = x.map g' := by
  cases x with
  | error e => rfl
  | ok a => exact congrArg _ (same a rfl)

theorem bind_map (x : Except ε α) (g : α → β) (h : β → Except ε γ) : (x.map g).bind h = x.bind fun a => h (g a) := by
  cases x <;> rfl

theorem bind_bind (x : Except ε α) (f : α → Except ε β) (h : β → Except ε γ) :
    (x.bind f).bind h = x.bind fun a => (f a).bind h := by
  cases x <;> rfl

end Results
