import Mathlib.Logic.Relation
import Masstree.Tree.LinkSteps

/-!
# The leaf list under concurrent splits and unlinks

Any threads split and unlink leaves at once. From a linked leaf the links still lead to every linked leaf after it, and once no call is
in progress the list has the linked leaves in order.
-/

namespace Masstree.Tree.Leaflink

open Neighbours Pool

variable {N T K : Type} {m : Memory N} {M : List N} {D : Set N} {w : Option N}
variable [LinearOrder K] {bound : N → K} {leftmost : N} {x y z nr : N}

variable (bound leftmost) in
def Inv (s : State N T) : Prop :=
  Threads s.calls s.locked s.linked s.made ∧ ∃ M D, Shape bound leftmost s.memory s.calls s.linked s.made M D

section
variable [DecidableEq N] [DecidableEq T] {s s' : State N T} {event : Event N T} {events : List (Event N T)}

theorem Inv.step (inv : Inv bound leftmost s) (stepped : s.step bound leftmost event = some s') : Inv bound leftmost s' := by
  obtain ⟨threads, M, D, shape⟩ := inv
  cases event with
  | linkSplit t n nr =>
    rw [State.step] at stepped
    split at stepped
    · rename_i guard
      obtain ⟨idle, live, unlocked, fresh, above, below⟩ := guard
      obtain rfl := Option.some.inj stepped
      have idle := Option.isNone_iff_eq_none.mp idle
      have fresh' : ∀ x, some nr = some x → x ∉ s.made := by
        rintro x ⟨⟩
        exact fresh
      have gap := shape.gap threads live unlocked above below
      exact ⟨threads.begin idle live unlocked fresh', M, D, shape.begin threads idle (fun _ => id) fresh' gap⟩
    · cases stepped
  | unlink t n =>
    rw [State.step] at stepped
    split at stepped
    · rename_i guard
      obtain ⟨idle, live, unlocked, other⟩ := guard
      obtain rfl := Option.some.inj stepped
      have idle := Option.isNone_iff_eq_none.mp idle
      have mem := ((shape.members n).mp live).1
      exact ⟨threads.begin idle live unlocked nofun, M, D, shape.begin threads idle (fun _ => id) nofun ⟨other, mem⟩⟩
    · cases stepped
  | step t =>
    obtain ⟨c, calling, stepped⟩ := Option.bind_eq_some_iff.mp stepped
    obtain ⟨⟨memory, rest⟩, accessed, stepped⟩ := Option.bind_eq_some_iff.mp stepped
    have access := Call.step_cases accessed
    cases rest with
    | some c' =>
      obtain rfl := Option.some.inj stepped
      exact ⟨threads.move calling access.same.1 access.same.2, shape.advance threads calling access⟩
    | none =>
      obtain rfl := Option.some.inj stepped
      exact ⟨threads.finish calling, shape.finish threads calling access⟩

theorem Inv.run (inv : Inv bound leftmost s) (ran : Steps.run (State.step bound leftmost) s events = some s') :
    Inv bound leftmost s' :=
  Steps.run_keeps (fun _ _ _ inv stepped => inv.step stepped) inv ran

end

/-! ### With no call in progress -/

/-- The list from `link` on, without marks, each `prev_` being the leaf before. -/
def Chain (m : Memory N) : Option N → Link N → List N → Prop
  | _, link, [] => link = none
  | prev, link, x :: L => link = some (x, false) ∧ m.prev x = prev ∧ Chain m (some x) (m.next x) L

variable (bound leftmost) in
/-- The list from the leftmost leaf has the linked leaves in the order of their keys. -/
structure Settled (s : State N T) : Prop where
  idle : ∀ t, s.calls t = none
  made : ∀ x ∈ s.linked, x ∈ s.made
  chain : ∃ L, L.Pairwise (fun x y => bound x < bound y) ∧ (∀ x, x ∈ L ↔ x ∈ s.linked) ∧
    Chain s.memory none (some (leftmost, false)) L

section
variable {q : Option N} {link : Link N} {A B L : List N} {s : State N T}

theorem Chain.next (chain : Chain m q link (A ++ x :: B)) : m.next x = plain B.head? := by
  induction A generalizing q link with
  | nil =>
    obtain ⟨-, -, rest⟩ := chain
    cases B with
    | nil => exact rest
    | cons z B => exact rest.1
  | cons a A ih => exact ih chain.2.2

theorem Chain.prev (chain : Chain m q link (A ++ x :: z :: B)) : m.prev z = some x := by
  induction A generalizing q link with
  | nil => exact chain.2.2.2.1
  | cons a A ih => exact ih chain.2.2

theorem Settled.inv (settled : Settled bound leftmost s) : Inv bound leftmost s := by
  obtain ⟨idle, made, L, ordered, members, chain⟩ := settled
  refine ⟨⟨every_of_idle idle, every_of_idle idle, apart_of_idle idle, every_of_idle idle, apart_of_idle idle, made⟩, L, ∅, ?_⟩
  obtain ⟨B, rfl⟩ : ∃ B, L = leftmost :: B := by
    cases L with
    | nil => cases chain
    | cons x B =>
      obtain ⟨same, -⟩ := chain
      exact ⟨B, by rw [(Prod.mk.inj (Option.some.inj same)).1]⟩
  constructor
  · exact ordered
  · refine ⟨List.mem_cons_self, fun x mem => ?_⟩
    rcases List.mem_cons.mp mem with rfl | later
    · exact le_refl _
    · exact le_of_lt ((List.pairwise_cons.mp ordered).1 x later)
  · exact fun x => ⟨fun live => ⟨(members x).mpr live, every_of_idle idle⟩, fun mem => (members x).mp mem.1⟩
  · exact fun d out => nomatch out
  · exact every_of_idle idle
  · exact apart_of_idle idle
  · intro x mem _
    obtain ⟨A, B', split⟩ := List.append_of_mem mem
    rw [split] at chain ordered ⊢
    exact ⟨_, after_of_split ordered, chain.next⟩
  · intro x z after _
    obtain ⟨A, B', split⟩ := exists_split ordered after
    rw [split] at chain
    exact chain.prev
  · exact chain.2.1

theorem Inv.settled (inv : Inv bound leftmost s) (idle : ∀ t, s.calls t = none) : Settled bound leftmost s := by
  obtain ⟨threads, M, D, shape⟩ := inv
  have ordered := shape.ordered
  have chain : ∀ B A, M = A ++ B → (A = [] → ∀ x, B.head? = some x → x = leftmost) →
      Chain s.memory A.getLast? (plain B.head?) B := by
    intro B
    induction B with
    | nil => exact fun _ _ _ => rfl
    | cons x B ih =>
      intro A split first
      have after : After bound M x B.head? := by
        rw [split] at ordered ⊢
        exact after_of_split ordered
      obtain ⟨next, after', link⟩ := shape.free x after.mem (every_of_idle idle)
      obtain rfl := after'.unique ordered after
      refine ⟨rfl, ?_, ?_⟩
      · rcases List.eq_nil_or_concat A with rfl | ⟨A, p, rfl⟩
        · rw [first rfl x rfl, shape.head]
          rfl
        · have before : After bound M p (some x) := by
            rw [split, List.concat_eq_append, List.append_assoc, List.singleton_append] at ordered ⊢
            exact after_of_split ordered
          rw [shape.back p x before (every_of_idle idle)]
          simp
      · have rest := ih (A ++ [x]) (by simp [split]) (by simp)
        rwa [List.getLast?_concat, ← link] at rest
  refine ⟨idle, threads.known, M, ordered, fun x => ?_, ?_⟩
  · rw [shape.members]
    exact (and_iff_left (every_of_idle idle)).symm
  · obtain ⟨mem, least⟩ := shape.first
    cases M with
    | nil => cases mem
    | cons x B =>
      have same : x = leftmost := by
        rcases List.mem_cons.mp mem with same | later
        · exact same.symm
        · exact absurd ((List.pairwise_cons.mp ordered).1 leftmost later) (not_lt_of_ge (least x List.mem_cons_self))
      subst same
      exact chain (x :: B) [] rfl fun _ y eq => (Option.some.inj eq).symm

end

/-! ### Following the links -/

/-- From `x`, following `next_` without its mark comes to `y`. -/
def Reaches (m : Memory N) : N → N → Prop := Relation.TransGen fun x y => strip (m.next x) = some y

section
variable {calls : T → Option (Call N)} {t : T} {locked linked made : List N}

theorem Shape.next_eq (shape : Shape bound leftmost m calls linked made M D) (mem : x ∈ M)
    (apart : ∀ t nr, calls t ≠ some (.linkSplit x nr .publish)) : After bound M x (strip (m.next x)) := by
  by_cases unowned : Every calls fun c => ¬c.Owns x
  · obtain ⟨next, after, link⟩ := shape.free x mem unowned
    rwa [link, strip_plain]
  · obtain ⟨t, c, calling, owns⟩ := exists_of_not_every unowned
    obtain ⟨next, held, -⟩ | ⟨nr, rfl⟩ := (shape.holds t c calling).held owns
    · rw [held.link, strip_mark]
      exact held.after
    · exact absurd calling (apart t nr)

theorem Leads.reaches (leads : Leads m D w (some z)) :
    ∃ y, w = some y ∧ Relation.ReflTransGen (fun x y => strip (m.next x) = some y) y z := by
  generalize last : some z = v at leads
  induction leads with
  | here =>
    subst last
    exact ⟨z, rfl, .refl⟩
  | @through d v out rest ih =>
    obtain ⟨y, link, path⟩ := ih last
    exact ⟨d, rfl, .head link path⟩

/-- A leaf that does not name the new one yet leads to the leaf after that. -/
theorem Shape.lagging (shape : Shape bound leftmost m calls linked made M D) (threads : Threads calls locked linked made)
    (calling : calls t = some (.linkSplit x nr .publish)) (after : After bound M nr (some z)) : z ∈ linked ∧ Reaches m x z := by
  obtain ⟨-, w, y, link, after', leads⟩ := shape.holds t _ calling
  obtain rfl := after'.unique shape.ordered after
  obtain ⟨first, rfl, path⟩ := leads.reaches
  constructor
  · by_contra new
    obtain ⟨t', n, calling'⟩ := shape.pending (after.next z rfl).1 new
    obtain ⟨before, -⟩ := shape.holds t' _ calling'
    obtain rfl := before.before_unique shape.ordered after
    exact (threads.new t _ calling n rfl).2 (threads.live t' _ calling')
  · exact .head' (by rw [link, strip_mark]) path

/-- By induction on the number of leaves after `x`. -/
theorem Shape.reaches (shape : Shape bound leftmost m calls linked made M D) (threads : Threads calls locked linked made)
    {k : Nat} {A B : List N} (split : M = A ++ x :: B) (short : B.length ≤ k) (live' : y ∈ linked) (later : y ∈ B) :
    Reaches m x y := by
  induction k generalizing A x B with
  | zero =>
    obtain rfl := List.length_eq_zero_iff.mp (Nat.le_zero.mp short)
    cases later
  | succ k ih =>
    have ordered := shape.ordered
    have after : After bound M x B.head? := by
      rw [split] at ordered ⊢
      exact after_of_split ordered
    have onward : ∀ A' {B' z}, M = A' ++ z :: B' → B'.length ≤ k → Reaches m x z → y ∈ z :: B' → Reaches m x y := by
      intro A' B' z split short first later
      rcases List.mem_cons.mp later with rfl | later
      · exact first
      · exact first.trans (ih split short later)
    by_cases lags : ∃ t nr, calls t = some (.linkSplit x nr .publish)
    · obtain ⟨t, nr, calling⟩ := lags
      obtain ⟨after', -⟩ := shape.holds t _ calling
      have new : nr ∉ linked := (threads.new t _ calling nr rfl).2
      have head := after.unique ordered after'
      rcases B with _ | ⟨nr', _ | ⟨z, B⟩⟩
      · cases later
      · -- no linked leaf is after the new one
        obtain rfl := Option.some.inj head
        obtain rfl := List.mem_singleton.mp later
        exact absurd live' new
      · obtain rfl := Option.some.inj head
        have after'' : After bound M nr' (some z) := by
          rw [show M = (A ++ [x]) ++ nr' :: z :: B by simp [split]] at ordered ⊢
          exact after_of_split ordered
        have later : y ∈ z :: B := by
          refine (List.mem_cons.mp later).resolve_left ?_
          rintro rfl
          exact new live'
        have shorter : B.length ≤ k := by
          rw [List.length_cons, List.length_cons] at short
          omega
        exact onward (A ++ [x, nr']) (by simp [split]) shorter (shape.lagging threads calling after'').2 later
    · have next := shape.next_eq after.mem fun t nr calling => lags ⟨t, nr, calling⟩
      have head := after.unique ordered next
      cases B with
      | nil => cases later
      | cons z B => exact onward (A ++ [x]) (by simp [split]) (Nat.le_of_succ_le_succ short) (.single head.symm) later

end

section
variable [DecidableEq N] [DecidableEq T] {s s' : State N T} {events : List (Event N T)}

/-- Whatever calls are in progress, every linked leaf leads to those after it and no null pointer is dereferenced. With none in progress
the list is whole. -/
theorem leaf_list_survives (start : Settled bound leftmost s) (ran : Steps.run (State.step bound leftmost) s events = some s') :
    (∀ x ∈ s'.linked, ∀ y ∈ s'.linked, bound x < bound y → Reaches s'.memory x y) ∧
      (∀ t c, s'.calls t = some c → (c.step s'.memory).isSome) ∧
      ((∀ t, s'.calls t = none) → Settled bound leftmost s') := by
  have inv := start.inv.run ran
  refine ⟨fun x live y live' lt => ?_, ?_, inv.settled⟩
  · obtain ⟨threads, M, D, shape⟩ := inv
    have memX := ((shape.members x).mp live).1
    have memY := ((shape.members y).mp live').1
    obtain ⟨A, B, split⟩ := List.append_of_mem memX
    refine shape.reaches threads split (Nat.le_refl _) live' ?_
    have ordered := shape.ordered
    rw [split] at memY ordered
    rcases List.mem_append.mp memY with left | right
    · exact absurd lt (lt_asymm ((List.pairwise_append.mp ordered).2.2 y left x List.mem_cons_self))
    · refine (List.mem_cons.mp right).resolve_left ?_
      rintro rfl
      exact lt_irrefl _ lt
  · obtain ⟨-, M, D, shape⟩ := inv
    exact fun t c calling => shape.enabled calling

end

def alone : State Nat Bool := ⟨⟨fun _ => none, fun _ => none⟩, fun _ => none, [], [0], [0]⟩

/-- Leaf 2 is unlinked while leaf 1 is linked before it. -/
def overlap : List (Event Nat Bool) :=
  [.linkSplit true 0 2] ++ List.replicate 5 (.step true) ++ [.linkSplit true 0 1] ++ List.replicate 5 (.step true) ++
    [.unlink false 2] ++ List.replicate 5 (.step false) ++ [.step true]

theorem leaf_list_survives_overlap : ∃ s, Steps.run (State.step id 0) alone overlap = some s ∧
    (∀ x ∈ s.linked, ∀ y ∈ s.linked, id x < id y → Reaches s.memory x y) ∧
      (∀ t c, s.calls t = some c → (c.step s.memory).isSome) ∧ ((∀ t, s.calls t = none) → Settled id 0 s) := by
  have start : Settled id 0 alone := ⟨fun _ => rfl, fun _ mem => mem, [0], by simp, by simp [alone], rfl, rfl, rfl⟩
  obtain ⟨s, ran⟩ := Option.isSome_iff_exists.mp (show (Steps.run (State.step id 0) alone overlap).isSome by decide)
  exact ⟨s, ran, leaf_list_survives start ran⟩

end Masstree.Tree.Leaflink
