import Mathlib.Data.List.Forall2

/-!
# Partial functions over a list
-/

namespace Partial

variable {α β ε : Type}

theorem mapM_eq_some {f : α → Option β} {g : α → β} {as : List α} (all : ∀ a ∈ as, f a = some (g a)) :
    as.mapM f = some (as.map g) := by
  induction as with
  | nil => rfl
  | cons a as ih =>
    rw [List.mapM_cons, all a List.mem_cons_self, ih fun b later => all b (List.mem_cons_of_mem a later)]
    rfl

theorem mapM_iff_forall₂ {f : α → Option β} {as : List α} {bs : List β} :
    as.mapM f = some bs ↔ List.Forall₂ (fun a b => f a = some b) as bs := by
  induction as generalizing bs with
  | nil =>
    rw [List.forall₂_nil_left_iff]
    exact (Option.some.injEq _ _).to_iff.trans eq_comm
  | cons a as ih =>
    rw [List.mapM_cons, List.forall₂_cons_left_iff]
    constructor
    · intro mapped
      obtain ⟨b, first, mapped⟩ := Option.bind_eq_some_iff.mp mapped
      obtain ⟨bs', others, mapped⟩ := Option.bind_eq_some_iff.mp mapped
      exact ⟨b, bs', first, ih.mp others, (Option.some.inj mapped).symm⟩
    · rintro ⟨b, bs', first, others, rfl⟩
      rw [first, ih.mpr others]
      rfl

theorem exists_of_mapM {f : α → Option β} {as : List α} {bs : List β} (mapped : as.mapM f = some bs) {a : α} (mem : a ∈ as) :
    ∃ b ∈ bs, f a = some b := by
  induction mapM_iff_forall₂.mp mapped with
  | nil => cases mem
  | cons here others ih =>
    rcases List.mem_cons.mp mem with rfl | later
    · exact ⟨_, List.mem_cons_self, here⟩
    · obtain ⟨b, mem', same⟩ := ih (mapM_iff_forall₂.mpr others) later
      exact ⟨b, List.mem_cons_of_mem _ mem', same⟩

theorem forall₂_of_mapM {f : α → Except ε β} {as : List α} {bs : List β} (mapped : as.mapM f = .ok bs) :
    List.Forall₂ (fun a b => f a = .ok b) as bs := by
  induction as generalizing bs with
  | nil =>
    obtain rfl := Except.ok.inj mapped
    exact .nil
  | cons a as ih =>
    rw [List.mapM_cons] at mapped
    cases here : f a with
    | error e =>
      rw [here] at mapped
      cases mapped
    | ok b =>
      rw [here] at mapped
      cases rest : as.mapM f with
      | error e =>
        rw [rest] at mapped
        cases mapped
      | ok bs' =>
        rw [rest] at mapped
        obtain rfl := Except.ok.inj mapped
        exact .cons here (ih rest)

/-- Where there is fuel enough for each element, there is for all of them. -/
theorem enough_for_all {P : Nat → α → Prop} (as : List α) (each : ∀ a ∈ as, ∃ enough, ∀ fuel ≥ enough, P fuel a) :
    ∃ enough, ∀ fuel ≥ enough, ∀ a ∈ as, P fuel a := by
  induction as with
  | nil => exact ⟨0, fun _ _ a mem => by cases mem⟩
  | cons a as ih =>
    obtain ⟨first, here⟩ := each a List.mem_cons_self
    obtain ⟨others, rest⟩ := ih fun b later => each b (List.mem_cons_of_mem a later)
    refine ⟨max first others, fun fuel le b mem => ?_⟩
    rcases List.mem_cons.mp mem with rfl | later
    · exact here fuel (Nat.le_trans (Nat.le_max_left _ _) le)
    · exact rest fuel (Nat.le_trans (Nat.le_max_right _ _) le) b later

end Partial
