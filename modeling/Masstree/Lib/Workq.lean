import Masstree.Lib.Linked
import Mathlib.Data.Set.Finite.Basic
import Mathlib.Data.Finset.Card

/-!
# Work queues that go through the nodes

A traversal whose queue is threaded through a link of each node: `workq` is the first node, and `tailp` says which pointer the next
one goes to. In a forest it comes to every node that can be reached, and to none twice.
-/

structure Workq (ι : Type) where
  workq : Option ι
  /-- the node whose link it is, or `none` for `workq` -/
  tailp : Option ι
  link : ι → Option ι
  done : List ι

namespace Workq

variable {ι : Type}

inductive Reach (below : ι → List ι) (root : ι) : ι → Prop
  | root : Reach below root root
  | step {a b : ι} : Reach below root a → b ∈ below a → Reach below root b

/-- Every node that can be reached is below one node, and the root below none. -/
structure Forest (below : ι → List ι) (root : ι) : Prop where
  nodup : ∀ a, Reach below root a → (below a).Nodup
  unique : ∀ a b c, Reach below root a → Reach below root b → c ∈ below a → c ∈ below b → a = b
  rootless : ∀ a, Reach below root a → root ∉ below a

variable [DecidableEq ι] {below : ι → List ι} {root n : ι} {q : Workq ι} {L B : List ι}

def enqueue (q : Workq ι) (n : ι) : Workq ι :=
  match q.tailp with
  | none => { q with workq := some n, tailp := some n }
  | some m => { q with link := Function.update q.link m (some n), tailp := some n }

def dequeue (q : Workq ι) (n : ι) : Workq ι :=
  if q.tailp = some n then { q with workq := none, tailp := none } else { q with workq := q.link n }

/-- What is below the first node is enqueued, and the node is done. -/
def visit (below : ι → List ι) (q : Workq ι) : Option (Workq ι) :=
  q.workq.map fun n => { (below n).foldl enqueue (q.dequeue n) with done := q.done ++ [n] }

def loop (below : ι → List ι) : Nat → Workq ι → Option (Workq ι)
  | 0, q => if q.workq.isNone then some q else none
  | fuel + 1, q =>
    match q.visit below with
    | none => some q
    | some next => loop below fuel next

/-- The queue has only the root, whatever the links of the nodes are. -/
def start (root : ι) (link : ι → Option ι) : Workq ι := enqueue ⟨none, none, link, []⟩ root

/-- The nodes in the queue. -/
structure Holds (q : Workq ι) (L : List ι) : Prop where
  head : q.workq = L.head?
  last : q.tailp = L.getLast?
  linked : ∃ stop, Linked q.link L stop

theorem Holds.enqueue (holds : q.Holds L) (nodup : (L ++ [n]).Nodup) : (q.enqueue n).Holds (L ++ [n]) := by
  obtain ⟨head, last, stop, linked⟩ := holds
  rcases List.eq_nil_or_concat L with rfl | ⟨front, m, rfl⟩
  · have empty : q.tailp = none := last
    rw [Workq.enqueue, empty]
    exact ⟨rfl, rfl, q.link n, (Option.none_or).symm, trivial⟩
  · rw [List.concat_eq_append] at *
    have some_ : q.tailp = some m := last.trans List.getLast?_concat
    have absent : m ∉ front := by
      intro mem
      have apart := (List.nodup_append.mp (List.nodup_append.mp nodup).1).2.2
      exact apart m mem m (List.mem_singleton_self m) rfl
    have linked' := linked.update_last absent (some n)
    rw [Workq.enqueue, some_]
    refine ⟨?_, List.getLast?_concat.symm, Function.update q.link m (some n) n, ?_⟩
    · show q.workq = _
      rw [head, List.append_assoc]
      cases front <;> rfl
    · exact Linked.append_iff.mpr ⟨linked', (Option.none_or).symm, trivial⟩

theorem Holds.enqueueAll (holds : q.Holds L) (nodup : (L ++ B).Nodup) : (B.foldl Workq.enqueue q).Holds (L ++ B) := by
  induction B generalizing q L with
  | nil => rwa [List.append_nil]
  | cons n B ih =>
    rw [List.append_cons] at nodup ⊢
    exact ih (holds.enqueue (List.nodup_append.mp nodup).1) nodup

theorem Holds.dequeue (holds : q.Holds (n :: L)) (nodup : (n :: L).Nodup) : (q.dequeue n).Holds L := by
  obtain ⟨head, last, stop, here, linked⟩ := holds
  rw [Workq.dequeue]
  cases L with
  | nil =>
    rw [if_pos (show q.tailp = some n from last)]
    exact ⟨rfl, rfl, none, trivial⟩
  | cons m L =>
    have other : q.tailp ≠ some n := by
      rw [last, List.getLast?_cons_cons]
      intro same
      exact (List.nodup_cons.mp nodup).1 (List.mem_of_getLast? same)
    rw [if_neg other]
    exact ⟨here, last.trans List.getLast?_cons_cons, stop, linked⟩

/-! ### A forest -/

/-- The nodes in the queue have not been done, and what is below those that have is in it or done too. -/
structure Inv (below : ι → List ι) (root : ι) (q : Workq ι) (L : List ι) : Prop where
  holds : q.Holds L
  nodup : (q.done ++ L).Nodup
  begun : root ∈ q.done ++ L
  reach : ∀ a ∈ q.done ++ L, Reach below root a
  closed : ∀ a ∈ q.done, ∀ b ∈ below a, b ∈ q.done ++ L
  origin : ∀ b ∈ q.done ++ L, b = root ∨ ∃ a ∈ q.done, b ∈ below a

theorem inv_start (link : ι → Option ι) : Inv below root (start root link) [root] := by
  have holds : (⟨none, none, link, []⟩ : Workq ι).Holds [] := ⟨rfl, rfl, none, trivial⟩
  refine ⟨holds.enqueue (List.nodup_singleton root), List.nodup_singleton root, List.mem_singleton_self root, ?_, ?_, ?_⟩
  · intro a mem
    obtain rfl := List.mem_singleton.mp mem
    exact .root
  · intro a mem
    cases mem
  · intro b mem
    exact .inl (List.mem_singleton.mp mem)

theorem inv_visit (forest : Forest below root) (inv : Inv below root q (n :: L)) :
    ∃ next, q.visit below = some next ∧ Inv below root next (L ++ below n) ∧ next.done = q.done ++ [n] := by
  have mine : n ∈ q.done ++ n :: L := List.mem_append_right _ List.mem_cons_self
  have here := inv.reach n mine
  obtain ⟨nodupDone, nodupQueue, apart⟩ := List.nodup_append.mp inv.nodup
  have notDone : n ∉ q.done := fun mem => apart n mem n List.mem_cons_self rfl
  -- nothing that is below the node has been seen
  have new : ∀ c ∈ below n, c ∉ q.done ++ n :: L := by
    intro c mem seen
    rcases inv.origin c seen with rfl | ⟨a, done, mem'⟩
    · exact forest.rootless n here mem
    · obtain rfl := forest.unique a n c (inv.reach a (List.mem_append_left _ done)) here mem' mem
      exact notDone done
  have whole : (q.done ++ n :: L ++ below n).Nodup := by
    refine List.nodup_append.mpr ⟨inv.nodup, forest.nodup n here, ?_⟩
    rintro a seen _ mem rfl
    exact new a mem seen
  have same : q.done ++ [n] ++ (L ++ below n) = q.done ++ n :: L ++ below n := by simp
  have queue : (L ++ below n).Nodup := by
    rw [← same] at whole
    exact (List.nodup_append.mp whole).2.1
  have holds := (inv.holds.dequeue nodupQueue).enqueueAll queue
  refine ⟨{ (below n).foldl enqueue (q.dequeue n) with done := q.done ++ [n] }, ?_,
    ⟨⟨holds.head, holds.last, holds.linked⟩, ?_, ?_, ?_, ?_, ?_⟩, rfl⟩
  · rw [visit, inv.holds.head]
    rfl
  · rw [same]
    exact whole
  · rw [same]
    exact List.mem_append_left _ inv.begun
  · rw [same]
    intro a mem
    rcases List.mem_append.mp mem with old | below_
    · exact inv.reach a old
    · exact here.step below_
  · intro a mem b below_
    rw [same]
    rcases List.mem_append.mp mem with old | this
    · exact List.mem_append_left _ (inv.closed a old b below_)
    · obtain rfl := List.mem_singleton.mp this
      exact List.mem_append_right _ below_
  · rw [same]
    intro b mem
    rcases List.mem_append.mp mem with old | below_
    · rcases inv.origin b old with root_ | ⟨a, done, below_⟩
      · exact .inl root_
      · exact .inr ⟨a, List.mem_append_left _ done, below_⟩
    · exact .inr ⟨n, List.mem_append_right _ (List.mem_singleton_self n), below_⟩

theorem loop_inv (forest : Forest below root) {S : Finset ι} (bounded : ∀ a, Reach below root a → a ∈ S) (fuel : Nat)
    (inv : Inv below root q L) (enough : S.card ≤ fuel + q.done.length) :
    ∃ q', loop below fuel q = some q' ∧ Inv below root q' [] := by
  induction fuel generalizing q L with
  | zero =>
    have few : (q.done ++ L).length ≤ S.card := by
      rw [← List.toFinset_card_of_nodup inv.nodup]
      exact Finset.card_le_card fun a mem => bounded a (inv.reach a (List.mem_toFinset.mp mem))
    rw [List.length_append] at few
    obtain rfl := List.length_eq_zero_iff.mp (show L.length = 0 by omega)
    rw [loop, inv.holds.head]
    exact ⟨q, rfl, inv⟩
  | succ fuel ih =>
    rw [loop]
    cases L with
    | nil =>
      rw [visit, inv.holds.head]
      exact ⟨q, rfl, inv⟩
    | cons n L =>
      obtain ⟨next, visited, inv', length⟩ := inv_visit forest inv
      rw [visited]
      refine ih inv' ?_
      rw [length, List.length_append, List.length_singleton]
      omega

theorem loop_succ {fuel : Nat} {q' : Workq ι} (ended : loop below fuel q = some q') : loop below (fuel + 1) q = some q' := by
  induction fuel generalizing q with
  | zero =>
    rw [loop] at ended
    split at ended
    · rename_i empty
      rw [loop, visit, Option.isNone_iff_eq_none.mp empty]
      exact ended
    · cases ended
  | succ fuel ih =>
    rw [loop] at ended ⊢
    cases visited : q.visit below with
    | none =>
      rw [visited] at ended
      exact ended
    | some next =>
      rw [visited] at ended
      exact ih ended

/-- The traversal ends, and has done every node that can be reached, once. -/
theorem loop_spec (forest : Forest below root) (finite : {a | Reach below root a}.Finite) (link : ι → Option ι) :
    ∃ least q, (∀ fuel ≥ least, loop below fuel (start root link) = some q) ∧ q.done.Nodup ∧
      ∀ a, a ∈ q.done ↔ Reach below root a := by
  obtain ⟨q, ended, inv⟩ := loop_inv forest (fun a reach => finite.mem_toFinset.mpr reach) finite.toFinset.card
    (inv_start link) (Nat.le_add_right _ _)
  have nodup := inv.nodup
  have begun := inv.begun
  have reach := inv.reach
  have closed := inv.closed
  rw [List.append_nil] at nodup begun reach closed
  refine ⟨finite.toFinset.card, q, ?_, nodup, fun a => ⟨reach a, ?_⟩⟩
  · intro fuel enough
    induction fuel, enough using Nat.le_induction with
    | base => exact ended
    | succ fuel _ ih => exact loop_succ ih
  · intro reached
    induction reached with
    | root => exact begun
    | step _ below_ ih => exact closed _ ih _ below_

end Workq
