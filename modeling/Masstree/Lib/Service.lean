import Mathlib.Data.Option.Basic

/-!
# Services

Machines that reply to requests. One that needs fuel, and another, which both reply the same to each request, do so over whole runs.
-/

namespace Service

variable {S T E R : Type}

/-- The replies to the requests, up to the first that fails. -/
def serve (step : S → E → Option (S × R)) : S → List E → Option (S × List R)
  | s, [] => some (s, [])
  | s, e :: es => (step s e).bind fun a => (serve step a.1 es).map fun b => (b.1, a.2 :: b.2)

/-- Both fail, or reply the same and go to states in the relation. -/
def Agree (rel : S → T → Prop) : Option (S × R) → Option (T × R) → Prop := Option.Rel fun a b => rel a.1 b.1 ∧ a.2 = b.2

variable {rel : S → T → Prop} {step : Nat → S → E → Option (S × R)} {step' : T → E → Option (T × R)} {Fits : E → Prop}

theorem Agree.map_snd {r : Option (S × R)} {r' : Option (T × R)} (agree : Agree rel r r') : r.map Prod.snd = r'.map Prod.snd := by
  cases agree with
  | none => rfl
  | some both => exact congrArg some both.2

/-- Where the replies are made of others. -/
theorem Agree.map {Q : Type} {r : Option (S × R)} {r' : Option (T × R)} (agree : Agree rel r r') (f : R → Q) :
    Agree rel (r.map fun a => (a.1, f a.2)) (r'.map fun b => (b.1, f b.2)) := by
  cases agree with
  | none => exact .none
  | some both => exact .some ⟨both.1, congrArg f both.2⟩

/-- A request that changes nothing. -/
theorem Agree.keep {Q : Type} {s : S} {t : T} (related : rel s t) (f : Q → R) (r : Option Q) :
    Agree rel (r.map fun a => (s, f a)) (r.map fun a => (t, f a)) := by
  cases r with
  | none => exact .none
  | some a => exact .some ⟨related, rfl⟩

/-- What holds of each request holds of runs: from some fuel on they end alike. -/
theorem serve_agrees (agrees : ∀ s t e, rel s t → Fits e →
      ∃ enough r, (∀ fuel ≥ enough, step fuel s e = r) ∧ Agree rel r (step' t e))
    {s : S} {t : T} (related : rel s t) {es : List E} (fits : ∀ e ∈ es, Fits e) :
    ∃ enough r, (∀ fuel ≥ enough, serve (step fuel) s es = r) ∧ Agree rel r (serve step' t es) := by
  induction es generalizing s t with
  | nil => exact ⟨0, _, fun _ _ => rfl, .some ⟨related, rfl⟩⟩
  | cons e es ih =>
    rw [List.forall_mem_cons] at fits
    obtain ⟨enough, r, stepped, agree⟩ := agrees s t e related fits.1
    rw [serve]
    generalize step' t e = r' at agree
    cases agree with
    | none =>
      refine ⟨enough, none, fun fuel le => ?_, .none⟩
      rw [serve, stepped fuel le]
      rfl
    | @some a b both =>
      obtain ⟨s', r⟩ := a
      obtain ⟨t', r'⟩ := b
      obtain ⟨related', same⟩ := both
      obtain ⟨enough', rest, served, agree⟩ := ih related' fits.2
      refine ⟨max enough enough', rest.map fun b => (b.1, r :: b.2), fun fuel le => ?_, ?_⟩
      · rw [serve, stepped fuel (Nat.le_trans (Nat.le_max_left _ _) le), Option.bind_some,
          served fuel (Nat.le_trans (Nat.le_max_right _ _) le)]
      · rw [Option.bind_some]
        generalize serve step' t' es = rest' at agree
        cases agree with
        | none => exact .none
        | some both => exact .some ⟨both.1, congrArg₂ _ same both.2⟩

end Service
