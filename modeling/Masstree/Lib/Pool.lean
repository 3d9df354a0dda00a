import Mathlib.Logic.Function.Basic

/-!
# Threads with at most one call each
-/

namespace Pool

variable {T C A : Type} {pool : T → Option C} {t : T} {c c' : C} {next : Option C} {P Q : C → Prop} {f : C → A → Prop} {a : A}

/-- Every call in progress meets `P`. -/
def Every (pool : T → Option C) (P : C → Prop) : Prop := ∀ t c, pool t = some c → P c

/-- So does every call but that of `t`. -/
def Others (pool : T → Option C) (t : T) (P : C → Prop) : Prop := ∀ t' c, t' ≠ t → pool t' = some c → P c

def Apart (pool : T → Option C) (f : C → A → Prop) : Prop :=
  ∀ t t' c c' a, pool t = some c → pool t' = some c' → f c a → f c' a → t = t'

theorem every_iff (calling : pool t = some c) : Every pool P ↔ P c ∧ Others pool t P := by
  constructor
  · exact fun every => ⟨every t c calling, fun t' c' _ => every t' c'⟩
  · rintro ⟨mine, others⟩ t' c' calling'
    by_cases same : t' = t
    · rw [same, calling] at calling'
      rwa [← Option.some.inj calling']
    · exact others t' c' same calling'

theorem exists_of_not_every (not : ¬Every pool fun c => ¬P c) : ∃ t c, pool t = some c ∧ P c := by
  simpa [Every] using not

theorem every_of_idle (idle : ∀ t, pool t = none) : Every pool P := by
  simp [Every, idle]

theorem apart_of_idle (idle : ∀ t, pool t = none) : Apart pool f := by
  simp [Apart, idle]

theorem Apart.others (apart : Apart pool f) (calling : pool t = some c) (mine : f c a) : Others pool t fun c => ¬f c a :=
  fun t' c' other calling' its => other (apart t' t c' c a calling' calling its mine)

/-! ### One call goes on -/

section
variable [DecidableEq T]

theorem update_cases {t' : T} (calling : Function.update pool t next t' = some c) :
    (t' = t ∧ next = some c) ∨ (t' ≠ t ∧ pool t' = some c) := by
  by_cases same : t' = t
  · rw [same, Function.update_self] at calling
    exact .inl ⟨same, calling⟩
  · rw [Function.update_of_ne same] at calling
    exact .inr ⟨same, calling⟩

theorem every_update : Every (Function.update pool t next) P ↔ (∀ c, next = some c → P c) ∧ Others pool t P := by
  constructor
  · intro every
    refine ⟨fun c eq => every t c (by rw [Function.update_self, eq]), fun t' c other calling => every t' c ?_⟩
    rw [Function.update_of_ne other, calling]
  · rintro ⟨mine, others⟩ t' c calling
    rcases update_cases calling with ⟨-, eq⟩ | ⟨other, calling⟩
    · exact mine c eq
    · exact others t' c other calling

theorem every_set : Every (Function.update pool t (some c)) P ↔ P c ∧ Others pool t P := by
  simp [every_update]

theorem every_finish : Every (Function.update pool t none) P ↔ Others pool t P := by
  simp [every_update]

theorem every_move (calling : pool t = some c) (mine : P c' ↔ P c) : Every (Function.update pool t (some c')) P ↔ Every pool P := by
  rw [every_set, every_iff calling, mine]

theorem every_begin (idle : pool t = none) : Every (Function.update pool t (some c)) P ↔ P c ∧ Every pool P := by
  rw [every_set]
  refine and_congr_right fun _ => ⟨fun others t' c' calling => others t' c' ?_ calling, fun every t' c' _ => every t' c'⟩
  rintro rfl
  rw [idle] at calling
  cases calling

theorem Apart.update (apart : Apart pool f) (new : ∀ c, next = some c → ∀ a, f c a → Others pool t fun c => ¬f c a) :
    Apart (Function.update pool t next) f := by
  intro t₁ t₂ c₁ c₂ a calling₁ calling₂ mine₁ mine₂
  rcases update_cases calling₁ with ⟨same₁, eq₁⟩ | ⟨other₁, calling₁⟩
  · rcases update_cases calling₂ with ⟨same₂, -⟩ | ⟨other₂, calling₂⟩
    · rw [same₁, same₂]
    · exact absurd mine₂ (new c₁ eq₁ a mine₁ t₂ c₂ other₂ calling₂)
  · rcases update_cases calling₂ with ⟨-, eq₂⟩ | ⟨-, calling₂⟩
    · exact absurd mine₁ (new c₂ eq₂ a mine₂ t₁ c₁ other₁ calling₁)
    · exact apart t₁ t₂ c₁ c₂ a calling₁ calling₂ mine₁ mine₂

/-- The call has nothing more than before. -/
theorem Apart.move (apart : Apart pool f) (calling : pool t = some c) (less : ∀ a, f c' a → f c a) :
    Apart (Function.update pool t (some c')) f := by
  refine apart.update ?_
  rintro c₁ ⟨⟩ a mine
  exact apart.others calling (less a mine)

end

end Pool
