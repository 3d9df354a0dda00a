import Mathlib.Logic.Function.Basic
import Mathlib.Order.Lattice
import Masstree.Lib.Steps

/-!
# Links between leaves

`link_split` and `unlink` of `btree_leaflink`, one access to the shared `next_` and `prev_` at a time. Any thread may go next.
-/

namespace Masstree.Tree.Leaflink

variable {N T K : Type}

/-- `next_`: null, or a pointer and its low bit. -/
abbrev Link (N : Type) := Option (N × Bool)

def plain (next : Option N) : Link N := next.map fun n => (n, false)
def mark (next : Option N) : Link N := next.map fun n => (n, true)

/-- The pointer without the mark. -/
def strip (link : Link N) : Option N := link.map Prod.fst

@[simp] theorem strip_plain (next : Option N) : strip (plain next) = next := by cases next <;> rfl
@[simp] theorem strip_mark (next : Option N) : strip (mark next) = next := by cases next <;> rfl

theorem null_of_mark {next next' : Option N} (same : plain next = mark next') : next = none ∧ next' = none := by
  cases next <;> cases next' <;> simp [plain, mark] at same ⊢

structure Memory (N : Type) where
  next : N → Link N
  prev : N → Option N

/-- In the loop of `lock_next`, before the read of `next_` or before the `bool_cmpxchg`. -/
inductive Lock (N : Type) where
  | read
  | cmpxchg (next : N)

inductive Outcome (N : Type) where
  | again (rest : Lock N)
  | locked (next : Option N)

inductive LinkSplit (N : Type) where
  | start
  | lock (rest : Lock N)
  | storeNext (next : Option N)
  | storePrev (next : Option N)
  | publish

inductive Unlink (N : Type) where
  | lock (rest : Lock N)
  | readPrev (next : Option N)
  | cmpxchg (next : Option N) (prev : N)
  | storePrev (next : Option N) (prev : N)
  | publish (next : Option N) (prev : N)

inductive Call (N : Type) where
  | linkSplit (n nr : N) (rest : LinkSplit N)
  | unlink (n : N) (rest : Unlink N)

/-- The leaf that the caller has locked. -/
def Call.n : Call N → N
  | .linkSplit n _ _ => n
  | .unlink n _ => n

/-- The leaf to be linked. -/
def Call.nr : Call N → Option N
  | .linkSplit _ nr _ => some nr
  | .unlink _ _ => none

section
variable [DecidableEq N]

def Memory.setNext (m : Memory N) (n : N) (link : Link N) : Memory N := { m with next := Function.update m.next n link }
def Memory.setPrev (m : Memory N) (n prev : N) : Memory N := { m with prev := Function.update m.prev n (some prev) }

/-- `if (next) next->prev_ = prev` -/
def Memory.setPrevOf (m : Memory N) (next : Option N) (prev : N) : Memory N :=
  match next with
  | some next => m.setPrev next prev
  | none => m

section
variable {m : Memory N} {n x prev : N} {next : Option N} {link : Link N}

@[simp] theorem Memory.setNext_prev : (m.setNext n link).prev = m.prev := rfl
@[simp] theorem Memory.setPrev_next : (m.setPrev n prev).next = m.next := rfl
@[simp] theorem Memory.setPrevOf_next : (m.setPrevOf next prev).next = m.next := by cases next <;> rfl
@[simp] theorem Memory.setNext_self : (m.setNext n link).next n = link := Function.update_self ..
@[simp] theorem Memory.setPrev_self : (m.setPrev n prev).prev n = some prev := Function.update_self ..
@[simp] theorem Memory.setPrevOf_self : (m.setPrevOf (some n) prev).prev n = some prev := Function.update_self ..
theorem Memory.setNext_ne (ne : x ≠ n) : (m.setNext n link).next x = m.next x := Function.update_of_ne ne ..
theorem Memory.setPrev_ne (ne : x ≠ n) : (m.setPrev n prev).prev x = m.prev x := Function.update_of_ne ne ..

theorem Memory.setPrevOf_ne (ne : next ≠ some x) : (m.setPrevOf next prev).prev x = m.prev x := by
  cases next with
  | none => rfl
  | some y => exact Memory.setPrev_ne fun same => ne (by rw [same])

end

def lockNext (m : Memory N) (n : N) : Lock N → Memory N × Outcome N
  | .read =>
    match m.next n with
    | none => (m, .locked none)
    | some (_, true) => (m, .again .read)
    | some (next, false) => (m, .again (.cmpxchg next))
  | .cmpxchg next =>
    if m.next n = some (next, false) then (m.setNext n (some (next, true)), .locked (some next)) else (m, .again .read)

/-- `lock_next` goes on without a change, or marks a link that is not marked yet. -/
theorem lockNext_cases (m : Memory N) (n : N) (rest : Lock N) :
    (∃ rest', lockNext m n rest = (m, .again rest')) ∨
      ∃ next, m.next n = plain next ∧ lockNext m n rest = (m.setNext n (mark next), .locked next) := by
  cases rest with
  | read =>
    rw [lockNext]
    split
    · rename_i null
      refine .inr ⟨none, null, ?_⟩
      have same : m.setNext n (mark none) = m := by
        rw [Memory.setNext, show mark none = m.next n from null.symm, Function.update_eq_self]
      rw [same]
    · exact .inl ⟨_, rfl⟩
    · exact .inl ⟨_, rfl⟩
  | cmpxchg next =>
    rw [lockNext]
    split
    · exact .inr ⟨some next, by assumption, rfl⟩
    · exact .inl ⟨_, rfl⟩

/-- The next access, and what is left after it, `none` at the end of the call. A null `prev_` is dereferenced. -/
def Call.step (m : Memory N) : Call N → Option (Memory N × Option (Call N))
  | .linkSplit n nr .start => some (m.setPrev nr n, some (.linkSplit n nr (.lock .read)))
  | .linkSplit n nr (.lock rest) =>
    match lockNext m n rest with
    | (m, .again rest) => some (m, some (.linkSplit n nr (.lock rest)))
    | (m, .locked next) => some (m, some (.linkSplit n nr (.storeNext next)))
  | .linkSplit n nr (.storeNext next) => some (m.setNext nr (plain next), some (.linkSplit n nr (.storePrev next)))
  | .linkSplit n nr (.storePrev next) => some (m.setPrevOf next nr, some (.linkSplit n nr .publish))
  | .linkSplit n nr .publish => some (m.setNext n (some (nr, false)), none)
  | .unlink n (.lock rest) =>
    match lockNext m n rest with
    | (m, .again rest) => some (m, some (.unlink n (.lock rest)))
    | (m, .locked next) => some (m, some (.unlink n (.readPrev next)))
  | .unlink n (.readPrev next) => (m.prev n).map fun prev => (m, some (.unlink n (.cmpxchg next prev)))
  | .unlink n (.cmpxchg next prev) =>
    if m.next prev = some (n, false) then some (m.setNext prev (some (n, true)), some (.unlink n (.storePrev next prev)))
    else some (m, some (.unlink n (.readPrev next)))
  | .unlink n (.storePrev next prev) => some (m.setPrevOf next prev, some (.unlink n (.publish next prev)))
  | .unlink _ (.publish next prev) => some (m.setNext prev (plain next), none)

inductive Access (m : Memory N) : Call N → Memory N → Option (Call N) → Prop
  | start (n nr : N) : Access m (.linkSplit n nr .start) (m.setPrev nr n) (some (.linkSplit n nr (.lock .read)))
  | splitWaits (n nr : N) (rest rest' : Lock N) : Access m (.linkSplit n nr (.lock rest)) m (some (.linkSplit n nr (.lock rest')))
  | splitLocks (n nr : N) (rest : Lock N) (next : Option N) : m.next n = plain next →
      Access m (.linkSplit n nr (.lock rest)) (m.setNext n (mark next)) (some (.linkSplit n nr (.storeNext next)))
  | storeNext (n nr : N) (next : Option N) :
      Access m (.linkSplit n nr (.storeNext next)) (m.setNext nr (plain next)) (some (.linkSplit n nr (.storePrev next)))
  | place (n nr : N) (next : Option N) :
      Access m (.linkSplit n nr (.storePrev next)) (m.setPrevOf next nr) (some (.linkSplit n nr .publish))
  | publish (n nr : N) : Access m (.linkSplit n nr .publish) (m.setNext n (some (nr, false))) none
  | unlinkWaits (n : N) (rest rest' : Lock N) : Access m (.unlink n (.lock rest)) m (some (.unlink n (.lock rest')))
  | unlinkLocks (n : N) (rest : Lock N) (next : Option N) : m.next n = plain next →
      Access m (.unlink n (.lock rest)) (m.setNext n (mark next)) (some (.unlink n (.readPrev next)))
  | readPrev (n prev : N) (next : Option N) : m.prev n = some prev →
      Access m (.unlink n (.readPrev next)) m (some (.unlink n (.cmpxchg next prev)))
  | retry (n prev : N) (next : Option N) : Access m (.unlink n (.cmpxchg next prev)) m (some (.unlink n (.readPrev next)))
  | lockPrev (n prev : N) (next : Option N) : m.next prev = some (n, false) →
      Access m (.unlink n (.cmpxchg next prev)) (m.setNext prev (some (n, true))) (some (.unlink n (.storePrev next prev)))
  | bypass (n prev : N) (next : Option N) :
      Access m (.unlink n (.storePrev next prev)) (m.setPrevOf next prev) (some (.unlink n (.publish next prev)))
  | unlink (n prev : N) (next : Option N) : Access m (.unlink n (.publish next prev)) (m.setNext prev (plain next)) none

theorem Call.step_cases {m m' : Memory N} {c : Call N} {left : Option (Call N)} (stepped : c.step m = some (m', left)) :
    Access m c m' left := by
  cases c with
  | linkSplit n nr rest =>
    cases rest with
    | lock rest =>
      rw [Call.step] at stepped
      rcases lockNext_cases m n rest with ⟨rest', waits⟩ | ⟨next, link, locks⟩
      · rw [waits] at stepped
        cases stepped
        exact .splitWaits n nr rest rest'
      · rw [locks] at stepped
        cases stepped
        exact .splitLocks n nr rest next link
    | start =>
      cases stepped
      exact .start n nr
    | storeNext next =>
      cases stepped
      exact .storeNext n nr next
    | storePrev next =>
      cases stepped
      exact .place n nr next
    | publish =>
      cases stepped
      exact .publish n nr
  | unlink n rest =>
    cases rest with
    | lock rest =>
      rw [Call.step] at stepped
      rcases lockNext_cases m n rest with ⟨rest', waits⟩ | ⟨next, link, locks⟩
      · rw [waits] at stepped
        cases stepped
        exact .unlinkWaits n rest rest'
      · rw [locks] at stepped
        cases stepped
        exact .unlinkLocks n rest next link
    | readPrev next =>
      obtain ⟨prev, read, eq⟩ := Option.map_eq_some_iff.mp stepped
      cases eq
      exact .readPrev n prev next read
    | cmpxchg next prev =>
      rw [Call.step] at stepped
      split at stepped
      · cases stepped
        exact .lockPrev n prev next (by assumption)
      · cases stepped
        exact .retry n prev next
    | storePrev next prev =>
      cases stepped
      exact .bypass n prev next
    | publish next prev =>
      cases stepped
      exact .unlink n prev next

theorem Access.same {m m' : Memory N} {c c' : Call N} (access : Access m c m' (some c')) : c'.n = c.n ∧ c'.nr = c.nr := by
  cases access <;> exact ⟨rfl, rfl⟩

/-- `linked` holds the leaves of completed calls of `link_split`, less those of completed calls of `unlink`, and `made` every leaf. -/
structure State (N T : Type) where
  memory : Memory N
  calls : T → Option (Call N)
  locked : List N
  linked : List N
  made : List N

inductive Event (N T : Type) where
  | linkSplit (thread : T) (n nr : N)
  | unlink (thread : T) (n : N)
  | step (thread : T)

variable [DecidableEq T]

def Call.linked : Call N → List N → List N
  | .linkSplit _ nr _, linked => nr :: linked
  | .unlink n _, linked => linked.filter (· ≠ n)

/-- The caller of `link_split` has made `nr`, for the upper part of the keys of `n`. -/
def State.step [LinearOrder K] (ikeyBound : N → K) (leftmost : N) (s : State N T) : Event N T → Option (State N T)
  | .linkSplit thread n nr =>
    if (s.calls thread).isNone ∧ n ∈ s.linked ∧ n ∉ s.locked ∧ nr ∉ s.made ∧ ikeyBound n < ikeyBound nr ∧
        ∀ x ∈ s.linked, ikeyBound n < ikeyBound x → ikeyBound nr < ikeyBound x then
      some { s with calls := Function.update s.calls thread (some (.linkSplit n nr .start))
                    locked := n :: s.locked, made := nr :: s.made }
    else none
  | .unlink thread n =>
    if (s.calls thread).isNone ∧ n ∈ s.linked ∧ n ∉ s.locked ∧ n ≠ leftmost then
      some { s with calls := Function.update s.calls thread (some (.unlink n (.lock .read))), locked := n :: s.locked }
    else none
  | .step thread => do
    let call ← s.calls thread
    let (memory, rest) ← call.step s.memory
    match rest with
    | some rest => some { s with memory, calls := Function.update s.calls thread (some rest) }
    | none => some { s with memory, calls := Function.update s.calls thread none
                            locked := s.locked.filter (· ≠ call.n), linked := call.linked s.linked }

end

end Masstree.Tree.Leaflink
