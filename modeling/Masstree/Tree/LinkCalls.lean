import Mathlib.Data.Set.Insert
import Masstree.Lib.Neighbours
import Masstree.Lib.Pool
import Masstree.Tree.Leaflink

/-!
# What a call on the leaf list relies on

A call that has marked a link is the only one to change what comes after the leaf. What it has read stays true whatever the other calls
do.
-/

namespace Masstree.Tree.Leaflink

open Neighbours Pool

variable {N T K : Type} {m m' : Memory N} {M M' : List N} {D D' : Set N} {w y z : Option N}

/-! ### Leaves taken out -/

/-- The links from `w` go through leaves taken out to `y`. -/
inductive Leads (m : Memory N) (D : Set N) : Option N → Option N → Prop
  | here {y : Option N} : Leads m D y y
  | through {d : N} {y : Option N} : d ∈ D → Leads m D (strip (m.next d)) y → Leads m D (some d) y

theorem Leads.mono (leads : Leads m D w y) (same : ∀ d ∈ D, d ∈ D' ∧ m'.next d = m.next d) : Leads m' D' w y := by
  induction leads with
  | here => exact .here
  | through out _ ih =>
    obtain ⟨out', link⟩ := same _ out
    exact .through out' (by rw [link]; exact ih)

theorem Leads.further {d : N} (leads : Leads m D w (some d)) (out : d ∈ D) : Leads m D w (strip (m.next d)) := by
  generalize last : some d = y at leads
  induction leads with
  | here =>
    subst last
    exact .through out .here
  | through out' _ ih => exact .through out' (ih last)

/-! ### What a call has done -/

/-- The call alone may change what comes after `x`. -/
def Call.Owns : Call N → N → Prop
  | .linkSplit _ _ .start, _ => False
  | .linkSplit _ _ (.lock _), _ => False
  | .linkSplit n _ (.storeNext _), x => x = n
  | .linkSplit n _ (.storePrev _), x => x = n
  | .linkSplit n _ .publish, x => x = n
  | .unlink _ (.lock _), _ => False
  | .unlink n (.readPrev _), x => x = n
  | .unlink n (.cmpxchg _ _), x => x = n
  | .unlink n (.storePrev _ prev), x => x = n ∨ x = prev
  | .unlink n (.publish _ prev), x => x = n ∨ x = prev

/-- `prev_` of the leaf after `x` already goes around `x`. -/
def Call.Moves : Call N → N → Prop
  | .unlink n (.publish _ _), x => x = n
  | _, _ => False

variable [LinearOrder K] (bound : N → K) (leftmost : N)

/-- The link of `x` is marked, or null. -/
structure Held (m : Memory N) (M : List N) (x : N) (next : Option N) : Prop where
  after : After bound M x next
  link : m.next x = mark next

/-- What the call knows of the list `M` and of the leaves `D` taken out of it. The new leaf is in the list once `prev_` of the leaf
after it is stored. -/
def Call.Holds (m : Memory N) (M : List N) (D : Set N) : Call N → Prop
  | .linkSplit n nr .start => Gap bound M n nr
  | .linkSplit n nr (.lock _) => Gap bound M n nr ∧ m.prev nr = some n
  | .linkSplit n nr (.storeNext next) => Gap bound M n nr ∧ m.prev nr = some n ∧ Held bound m M n next
  | .linkSplit n nr (.storePrev next) =>
    Gap bound M n nr ∧ m.prev nr = some n ∧ Held bound m M n next ∧ m.next nr = plain next
  | .linkSplit n nr .publish =>
    After bound M n (some nr) ∧ ∃ w y, m.next n = mark w ∧ After bound M nr y ∧ Leads m D w y
  | .unlink n (.lock _) => n ≠ leftmost ∧ n ∈ M
  | .unlink n (.readPrev next) => n ≠ leftmost ∧ Held bound m M n next
  | .unlink n (.cmpxchg next prev) => n ≠ leftmost ∧ Held bound m M n next ∧ (prev ∈ M ∨ prev ∈ D)
  | .unlink n (.storePrev next prev) => n ≠ leftmost ∧ Held bound m M n next ∧ Held bound m M prev (some n)
  | .unlink n (.publish next prev) =>
    n ≠ leftmost ∧ Held bound m M n next ∧ Held bound m M prev (some n) ∧ ∀ y, next = some y → m.prev y = some prev

variable {bound leftmost} {c c' : Call N} {x : N}

theorem Call.Holds.held (holds : c.Holds bound leftmost m M D) (owns : c.Owns x) :
    (∃ next, Held bound m M x next ∧ (x = c.n ∨ next.isSome)) ∨ ∃ nr, c = .linkSplit x nr .publish := by
  cases c with
  | linkSplit n nr rest =>
    cases rest with
    | start => cases owns
    | lock => cases owns
    | storeNext =>
      obtain rfl := owns
      exact .inl ⟨_, holds.2.2, .inl rfl⟩
    | storePrev =>
      obtain rfl := owns
      exact .inl ⟨_, holds.2.2.1, .inl rfl⟩
    | publish =>
      obtain rfl := owns
      exact .inr ⟨nr, rfl⟩
  | unlink n rest =>
    cases rest with
    | lock => cases owns
    | readPrev =>
      obtain rfl := owns
      exact .inl ⟨_, holds.2, .inl rfl⟩
    | cmpxchg =>
      obtain rfl := owns
      exact .inl ⟨_, holds.2.1, .inl rfl⟩
    | storePrev =>
      obtain rfl | rfl := owns
      · exact .inl ⟨_, holds.2.1, .inl rfl⟩
      · exact .inl ⟨_, holds.2.2, .inr rfl⟩
    | publish =>
      obtain rfl | rfl := owns
      · exact .inl ⟨_, holds.2.1, .inl rfl⟩
      · exact .inl ⟨_, holds.2.2.1, .inr rfl⟩

theorem Call.Holds.marked (holds : c.Holds bound leftmost m M D) (owns : c.Owns x) :
    ∃ next, m.next x = mark next ∧ (x = c.n ∨ next.isSome) := by
  rcases holds.held owns with ⟨next, held, place⟩ | ⟨nr, rfl⟩
  · exact ⟨next, held.link, place⟩
  · obtain ⟨-, w, -, link, -⟩ := holds
    exact ⟨w, link, .inl rfl⟩

/-! ### What other calls do -/

variable (bound) in
/-- What other calls leave alone while the call waits. -/
structure Frame (m : Memory N) (M : List N) (D : Set N) (m' : Memory N) (M' : List N) (D' : Set N) (c : Call N) : Prop where
  held : ∀ x y, c.Owns x → After bound M x y → m'.next x = m.next x ∧ After bound M' x y
  fresh : ∀ nr, c.nr = some nr → nr ∉ M → m'.next nr = m.next nr ∧ m'.prev nr = m.prev nr
  gap : ∀ nr, c.nr = some nr → Gap bound M c.n nr → Gap bound M' c.n nr
  target : c.n ∈ M → c.n ∈ M'
  known : ∀ x, x ∈ M ∨ x ∈ D → x ∈ M' ∨ x ∈ D'
  leads : ∀ nr w y, c.nr = some nr → After bound M nr y → Leads m D w y → ∃ y, After bound M' nr y ∧ Leads m' D' w y
  prev : ∀ y, c.Owns c.n → After bound M c.n (some y) → m'.prev y = m.prev y

/-- A step that moves no leaf. -/
theorem Frame.of_same (held : ∀ x ∈ M, c.Owns x → m'.next x = m.next x)
    (fresh : ∀ nr, c.nr = some nr → nr ∉ M → m'.next nr = m.next nr ∧ m'.prev nr = m.prev nr) (off : ∀ d ∈ D, m'.next d = m.next d)
    (prev : ∀ y, After bound M c.n (some y) → m'.prev y = m.prev y) : Frame bound m M D m' M D c where
  held := fun x _ own after => ⟨held x after.mem own, after⟩
  fresh := fresh
  gap := fun _ _ gap => gap
  target := id
  known := fun _ => id
  leads := fun _ _ y _ after leads => ⟨y, after, leads.mono fun d out => ⟨out, off d out⟩⟩
  prev := fun y _ after => prev y after

theorem Held.frame {next : Option N} (held : Held bound m M x next) (frame : Frame bound m M D m' M' D' c) (owns : c.Owns x) :
    Held bound m' M' x next := by
  obtain ⟨link, after⟩ := frame.held x next owns held.after
  exact ⟨after, link.trans held.link⟩

theorem Call.Holds.frame (holds : c.Holds bound leftmost m M D) (ordered : Ordered bound M) (frame : Frame bound m M D m' M' D' c) :
    c.Holds bound leftmost m' M' D' := by
  cases c with
  | linkSplit n nr rest =>
    have fresh : Gap bound M n nr → m'.next nr = m.next nr ∧ m'.prev nr = m.prev nr := fun gap =>
      frame.fresh nr rfl (gap.not_mem ordered)
    cases rest with
    | start => exact frame.gap nr rfl holds
    | lock =>
      obtain ⟨gap, prev⟩ := holds
      exact ⟨frame.gap nr rfl gap, (fresh gap).2.trans prev⟩
    | storeNext =>
      obtain ⟨gap, prev, held⟩ := holds
      exact ⟨frame.gap nr rfl gap, (fresh gap).2.trans prev, held.frame frame rfl⟩
    | storePrev =>
      obtain ⟨gap, prev, held, next⟩ := holds
      exact ⟨frame.gap nr rfl gap, (fresh gap).2.trans prev, held.frame frame rfl, (fresh gap).1.trans next⟩
    | publish =>
      obtain ⟨after, w, y, link, after', leads⟩ := holds
      obtain ⟨same, after⟩ := frame.held n _ rfl after
      obtain ⟨y, after', leads⟩ := frame.leads nr w y rfl after' leads
      exact ⟨after, w, y, same.trans link, after', leads⟩
  | unlink n rest =>
    cases rest with
    | lock => exact ⟨holds.1, frame.target holds.2⟩
    | readPrev => exact ⟨holds.1, holds.2.frame frame rfl⟩
    | cmpxchg =>
      obtain ⟨other, held, known⟩ := holds
      exact ⟨other, held.frame frame rfl, frame.known _ known⟩
    | storePrev =>
      obtain ⟨other, held, held'⟩ := holds
      exact ⟨other, held.frame frame (.inl rfl), held'.frame frame (.inr rfl)⟩
    | publish =>
      obtain ⟨other, held, held', prev⟩ := holds
      refine ⟨other, held.frame frame (.inl rfl), held'.frame frame (.inr rfl), ?_⟩
      rintro y rfl
      exact (frame.prev y (.inl rfl) held.after).trans (prev y rfl)

/-! ### The leaves of a call -/

structure Threads (calls : T → Option (Call N)) (locked linked made : List N) : Prop where
  lock : Every calls fun c => c.n ∈ locked
  live : Every calls fun c => c.n ∈ linked
  targets : Apart calls fun c n => c.n = n
  new : Every calls fun c => ∀ nr, c.nr = some nr → nr ∈ made ∧ nr ∉ linked
  news : Apart calls fun c nr => c.nr = some nr
  known : ∀ x ∈ linked, x ∈ made

variable [DecidableEq T] {calls : T → Option (Call N)} {t : T} {locked linked made : List N}

theorem Threads.begin (threads : Threads calls locked linked made) (idle : calls t = none) (live : c.n ∈ linked) (free : c.n ∉ locked)
    (fresh : ∀ nr, c.nr = some nr → nr ∉ made) :
    Threads (Function.update calls t (some c)) (c.n :: locked) linked (c.nr.toList ++ made) := by
  have more : ∀ {x}, x ∈ made → x ∈ c.nr.toList ++ made := List.mem_append_right _
  refine ⟨(every_begin idle).mpr ⟨List.mem_cons_self, ?_⟩, (every_begin idle).mpr ⟨live, threads.live⟩, threads.targets.update ?_,
    (every_begin idle).mpr ⟨fun nr new => ⟨?_, ?_⟩, ?_⟩, threads.news.update ?_, ?_⟩
  · exact fun t' c' calling => List.mem_cons_of_mem _ (threads.lock t' c' calling)
  · rintro c₁ ⟨⟩ a rfl t' c' - calling same
    exact free (same ▸ threads.lock t' c' calling)
  · exact List.mem_append_left _ (by simp [new])
  · exact fun member => fresh nr new (threads.known nr member)
  · intro t' c' calling nr its
    obtain ⟨old, free⟩ := threads.new t' c' calling nr its
    exact ⟨more old, free⟩
  · rintro c₁ ⟨⟩ nr new t' c' - calling its
    exact fresh nr new (threads.new t' c' calling nr its).1
  · exact fun x member => more (threads.known x member)

theorem Threads.move (threads : Threads calls locked linked made) (calling : calls t = some c) (n : c'.n = c.n) (nr : c'.nr = c.nr) :
    Threads (Function.update calls t (some c')) locked linked made where
  lock := (every_move calling (by rw [n])).mpr threads.lock
  live := (every_move calling (by rw [n])).mpr threads.live
  targets := threads.targets.move calling fun _ own => n.symm.trans own
  new := (every_move calling (by rw [nr])).mpr threads.new
  news := threads.news.move calling fun _ own => nr.symm.trans own
  known := threads.known

theorem Threads.finish [DecidableEq N] (threads : Threads calls locked linked made) (calling : calls t = some c) :
    Threads (Function.update calls t none) (locked.filter (· ≠ c.n)) (c.linked linked) made := by
  have apart : ∀ {t' c'}, t' ≠ t → calls t' = some c' → c'.n ≠ c.n := fun other calling' same =>
    threads.targets.others calling rfl _ _ other calling' same
  have kept : ∀ {x}, x ∈ linked → x ≠ c.n → x ∈ c.linked linked := by
    intro x mem other
    cases c with
    | linkSplit n nr rest => exact List.mem_cons_of_mem nr mem
    | unlink n rest => exact mem_erase.mpr ⟨mem, other⟩
  have old_or_new : ∀ {x}, x ∈ c.linked linked → x ∈ linked ∨ c.nr = some x := by
    intro x mem
    cases c with
    | linkSplit n nr rest =>
      rcases List.mem_cons.mp mem with rfl | old
      · exact .inr rfl
      · exact .inl old
    | unlink n rest => exact .inl (mem_erase.mp mem).1
  refine ⟨every_finish.mpr ?_, every_finish.mpr ?_, threads.targets.update nofun, every_finish.mpr ?_, threads.news.update nofun, ?_⟩
  · exact fun t' c' other calling' => mem_erase.mpr ⟨threads.lock t' c' calling', apart other calling'⟩
  · exact fun t' c' other calling' => kept (threads.live t' c' calling') (apart other calling')
  · intro t' c' other calling' nr its
    obtain ⟨made, fresh⟩ := threads.new t' c' calling' nr its
    refine ⟨made, fun member => ?_⟩
    rcases old_or_new member with old | mine
    · exact fresh old
    · exact threads.news.others calling mine t' c' other calling' its
  · intro x member
    rcases old_or_new member with old | mine
    · exact threads.known x old
    · exact (threads.new t c calling x mine).1

end Masstree.Tree.Leaflink
