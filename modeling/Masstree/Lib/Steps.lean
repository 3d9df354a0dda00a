import Mathlib.Data.Option.Basic

/-!
# Runs of a partial step function

A step that is not enabled, or that fails, has no result. What every step keeps, every run keeps.
-/

namespace Steps

variable {S E : Type} (step : S → E → Option S)

def run : S → List E → Option S
  | s, [] => some s
  | s, e :: es => (step s e).bind fun s => run s es

def Each (condition : S → E → Prop) : S → List E → Prop
  | _, [] => True
  | s, e :: es => condition s e ∧ ∀ next, step s e = some next → Each condition next es

variable {step}

theorem run_cons {s next : S} {e : E} (stepped : step s e = some next) (es : List E) :
    run step s (e :: es) = run step next es := by
  rw [run, stepped, Option.bind_some]

theorem run_append (s : S) (es fs : List E) : run step s (es ++ fs) = (run step s es).bind fun s => run step s fs := by
  induction es generalizing s with
  | nil => rfl
  | cons e es ih =>
    rw [List.cons_append, run, run, Option.bind_assoc]
    congr 1
    funext next
    exact ih next

theorem each_cons {condition : S → E → Prop} {s next : S} {e : E} (stepped : step s e = some next) (es : List E) :
    Each step condition s (e :: es) ↔ condition s e ∧ Each step condition next es := by
  refine and_congr_right fun _ => ⟨fun rest => rest next stepped, ?_⟩
  intro rest other stepped'
  rw [stepped, Option.some.injEq] at stepped'
  rwa [← stepped']

instance decidableEach {condition : S → E → Prop} [∀ s e, Decidable (condition s e)] :
    (s : S) → (es : List E) → Decidable (Each step condition s es)
  | _, [] => isTrue trivial
  | s, e :: es =>
    match stepped : step s e with
    | none => decidable_of_iff (condition s e) ⟨fun met => ⟨met, fun _ some_ => nomatch stepped.symm.trans some_⟩, And.left⟩
    | some next => @decidable_of_iff _ _ (each_cons stepped es).symm (@instDecidableAnd _ _ _ (decidableEach next es))

/-- Where a step that meets the condition has a result and keeps the invariant, so does a run. -/
theorem run_of_each {condition : S → E → Prop} {Inv : S → Prop}
    (keeps : ∀ s e, Inv s → condition s e → ∃ next, step s e = some next ∧ Inv next)
    {s : S} (start : Inv s) {es : List E} (each : Each step condition s es) :
    ∃ s', run step s es = some s' ∧ Inv s' := by
  induction es generalizing s with
  | nil => exact ⟨s, rfl, start⟩
  | cons e es ih =>
    obtain ⟨met, rest⟩ := each
    obtain ⟨next, stepped, inv⟩ := keeps s e start met
    obtain ⟨s', ran, last⟩ := ih inv (rest next stepped)
    exact ⟨s', (run_cons stepped es).trans ran, last⟩

/-- What every step that meets the condition keeps. -/
theorem run_keeps_of_each {condition : S → E → Prop} {Inv : S → Prop}
    (keeps : ∀ s e next, Inv s → condition s e → step s e = some next → Inv next)
    {s s' : S} (start : Inv s) {es : List E} (each : Each step condition s es) (ran : run step s es = some s') : Inv s' := by
  induction es generalizing s with
  | nil =>
    obtain rfl := Option.some.inj ran
    exact start
  | cons e es ih =>
    obtain ⟨met, rest⟩ := each
    obtain ⟨next, stepped, ran⟩ := Option.bind_eq_some_iff.mp ran
    exact ih (keeps s e next start met stepped) (rest next stepped) ran

/-- Conditions that agree wherever the invariant holds, which steps that meet the second keep. -/
theorem each_congr {first second : S → E → Prop} {Inv : S → Prop} (same : ∀ s e, Inv s → (first s e ↔ second s e))
    (keeps : ∀ s e next, Inv s → second s e → step s e = some next → Inv next) {s : S} (start : Inv s) (es : List E) :
    Each step first s es ↔ Each step second s es := by
  induction es generalizing s with
  | nil => exact Iff.rfl
  | cons e es ih =>
    rw [Each, Each, same s e start]
    exact and_congr_right fun met => forall_congr' fun next => imp_congr_right fun stepped => ih (keeps s e next start met stepped)

theorem each_true (s : S) (es : List E) : Each step (fun _ _ => True) s es := by
  induction es generalizing s with
  | nil => trivial
  | cons e es ih => exact ⟨trivial, fun next _ => ih next⟩

theorem run_keeps {Inv : S → Prop} (keeps : ∀ s e next, Inv s → step s e = some next → Inv next)
    {s s' : S} (start : Inv s) {es : List E} (ran : run step s es = some s') : Inv s' :=
  run_keeps_of_each (fun s e next inv _ => keeps s e next inv) start (each_true s es) ran

end Steps
