import Masstree.Lib.Steps
import Masstree.Rcu.Clean

/-!
# Reclaiming registered objects

Every run of any number of threads.
-/

namespace Masstree.Rcu

structure State where
  globalepoch : Epoch := 1
  activeEpoch : Epoch := 1
  thread : Nat → Threadinfo := fun _ => {}
  /-- How many threads there are. -/
  allthreads : Nat := 0
  log : List Event := []

inductive Call where
  /-- `threadinfo::make` -/
  | make
  | recordRcu (t : Nat) (tag : Memtag)
  | rcuStart (t : Nat)
  /-- Callback `ptr` registers objects with the tags `calls ptr`. -/
  | rcuStop (t : Nat) (calls : Nat → List Memtag)
  | rcuQuiesce (t : Nat) (calls : Nat → List Memtag)
  /-- `globalepoch.store(e)` in `set_global_epoch` -/
  | advance (e : Epoch)
  /-- `active_epoch.store(threadinfo::min_active_epoch())` -/
  | activate

namespace Work

def rcuStart (w : Work) (globalepoch : Epoch) : Work :=
  if w.ti.gcEpoch ≠ globalepoch then { w with ti.gcEpoch := globalepoch } else w

def collect (w : Work) (globalepoch activeEpoch : Epoch) (calls : Nat → List Memtag) : Option Work :=
  if w.ti.performGcEpoch ≠ activeEpoch then w.hardRcuQuiesce globalepoch calls activeEpoch else some w

def rcuStop (w : Work) (globalepoch activeEpoch : Epoch) (calls : Nat → List Memtag) : Option Work :=
  (w.collect globalepoch activeEpoch calls).map fun w => { w with ti.gcEpoch := 0 }

def rcuQuiesce (w : Work) (globalepoch activeEpoch : Epoch) (calls : Nat → List Memtag) : Option Work :=
  (w.rcuStart globalepoch).collect globalepoch activeEpoch calls

def note (w : Work) (ev : Event) : Work := { w with log := ev :: w.log }

end Work

namespace State

def minActiveEpoch (s : State) : Epoch :=
  (List.range s.allthreads).reverse.foldl
    (fun ae t =>
      let te := (s.thread t).gcEpoch
      if te ≠ 0 ∧ (te - ae).toInt < 0 then te else ae)
    s.globalepoch

def work (s : State) (t : Nat) : Work := ⟨s.thread t, s.log⟩

def worked (s : State) (t : Nat) (w : Work) : State :=
  { s with thread := Function.update s.thread t w.ti, log := w.log }

/-- `none` where an assertion fails. -/
def step (s : State) : Call → Option State
  | .make => some { s with thread := Function.update s.thread s.allthreads {}, allthreads := s.allthreads + 1 }
  | .recordRcu t tag => ((s.work t).register s.globalepoch tag).map (s.worked t)
  | .rcuStart t => some (s.worked t (((s.work t).rcuStart s.globalepoch).note (.start t)))
  | .rcuStop t calls =>
    ((s.work t).rcuStop s.globalepoch s.activeEpoch calls).map fun w => s.worked t (w.note (.stop t))
  | .rcuQuiesce t calls =>
    ((s.work t).rcuQuiesce s.globalepoch s.activeEpoch calls).map fun w => s.worked t (w.note (.quiesce t))
  | .advance e => some (if 0 < (e - s.globalepoch).toInt then { s with globalepoch := e } else s)
  | .activate => some { s with activeEpoch := s.minActiveEpoch }

def inLimbo (s : State) : List Nat := (List.range s.allthreads).flatMap fun t => (s.thread t).objects

/-- The calls are of threads there are, a thread starts a section when it is in none, and the global epoch is not set to
zero or 2^63 past the active epoch. -/
def Meets (s : State) : Call → Prop
  | .make | .activate => True
  | .recordRcu t _ | .rcuStop t _ | .rcuQuiesce t _ => t < s.allthreads
  | .rcuStart t => t < s.allthreads ∧ inside t s.log = false
  | .advance e => 0 < (e - s.globalepoch).toInt → e ≠ 0 ∧ 0 ≤ (e - s.activeEpoch).toInt

instance (s : State) : (call : Call) → Decidable (s.Meets call)
  | .make | .activate => isTrue trivial
  | .recordRcu t _ | .rcuStop t _ | .rcuQuiesce t _ => inferInstanceAs (Decidable (t < s.allthreads))
  | .rcuStart t => inferInstanceAs (Decidable (t < s.allthreads ∧ inside t s.log = false))
  | .advance e => inferInstanceAs (Decidable (0 < (e - s.globalepoch).toInt → e ≠ 0 ∧ 0 ≤ (e - s.activeEpoch).toInt))

/-- Every registered object has been freed once, when no thread held it, or waits in limbo once. -/
structure Reclaimed (s : State) : Prop where
  nodup : (registered s.log).Nodup
  exact : (freed s.log ++ s.inLimbo).Perm (registered s.log)
  safe : Safe s.log

def env (s : State) : Env :=
  ⟨s.globalepoch, s.activeEpoch, fun u => (s.thread u).gcEpoch, fun u => inside u s.log, []⟩

end State

/-- A thread between calls, with the objects it has in limbo. -/
def Threadinfo.Quiet (ti : Threadinfo) (mine : List (Epoch × Nat)) : Prop :=
  ∃ live spare, ti.Holds 0 [] live spare ∧ ti.pending 0 live = mine ∧ ∀ i ∈ live, (ti.group i).Settled

namespace State

/-- `waiting t` is what thread `t` has in limbo. -/
structure Inv (s : State) (waiting : Nat → List (Epoch × Nat)) : Prop where
  unmade : ∀ t, s.allthreads ≤ t → s.thread t = {}
  quiet : ∀ t < s.allthreads, (s.thread t).Quiet (waiting t)
  account : Account s.env s.log ((List.range s.allthreads).flatMap waiting)
  recent : age s.globalepoch s.activeEpoch < 2 ^ 63
  nonzero : s.globalepoch ≠ 0
  sections : ∀ u, inside u s.log = true → u < s.allthreads ∧ (s.thread u).gcEpoch ≠ 0
  behind : ∀ u < s.allthreads, (s.thread u).gcEpoch ≠ 0 →
    age s.globalepoch (s.thread u).gcEpoch ≤ age s.globalepoch s.activeEpoch

variable {s : State} {waiting : Nat → List (Epoch × Nat)}

theorem Inv.reclaimed (inv : s.Inv waiting) : s.Reclaimed := by
  have waits : s.inLimbo = ((List.range s.allthreads).flatMap waiting).map Prod.snd := by
    rw [inLimbo, List.map_flatMap]
    refine List.flatMap_congr ?_
    intro t mem
    obtain ⟨live, spare, holds, pending, -⟩ := inv.quiet t (List.mem_range.mp mem)
    rw [holds.objects_eq, pending]
  refine ⟨inv.account.nodup, ?_, inv.account.safe⟩
  have balance := inv.account.balance
  rwa [show s.env.others = [] from rfl, List.append_nil, ← waits] at balance

theorem quiet_new : ({} : Threadinfo).Quiet [] := by
  refine ⟨[0], [], ⟨⟨rfl, trivial⟩, List.nodup_singleton 0, ?_, rfl, rfl, ?_, nofun, nofun⟩, rfl, ?_⟩
  · intro i mem
    rw [show i = 0 from List.mem_singleton.mp mem]
    exact Nat.zero_lt_one
  · intro i _
    exact ⟨Nat.le_refl _, Nat.zero_le _, fun used => absurd rfl used⟩
  · intro i _
    exact .inl rfl

theorem inv_empty : ({} : State).Inv fun _ => [] := by
  refine ⟨fun _ _ => rfl, nofun, ⟨.nil, nofun, .nil, nofun, nofun, fun _ => rfl, trivial⟩, ?_, ?_, nofun, nofun⟩ <;> decide

/-- What the other threads have in limbo. -/
theorem exists_others (waiting : Nat → List (Epoch × Nat)) {n t : Nat} (inside : t < n) :
    ∃ others, ∀ mine, ((List.range n).flatMap (Function.update waiting t mine)).Perm (mine ++ others) := by
  refine ⟨((List.range n).erase t).flatMap waiting, ?_⟩
  intro mine
  have split := (List.perm_cons_erase (List.mem_range.mpr inside)).flatMap_right (Function.update waiting t mine)
  refine split.trans (.of_eq ?_)
  rw [List.flatMap_cons, Function.update_self]
  congr 1
  refine List.flatMap_congr ?_
  intro u mem
  have different : u ≠ t := (List.nodup_range.mem_erase_iff.mp mem).1
  rw [Function.update_of_ne different]

/-- What a thread starts a call from. -/
theorem Inv.work (inv : s.Inv waiting) {t : Nat} (here : t < s.allthreads) {others : List (Epoch × Nat)}
    (perm : ∀ mine, ((List.range s.allthreads).flatMap (Function.update waiting t mine)).Perm (mine ++ others)) :
    ∃ live spare, (s.work t).Rests { s.env with others } [] live spare (waiting t) := by
  obtain ⟨live, spare, holds, pending, settled⟩ := inv.quiet t here
  have all := perm (waiting t)
  rw [Function.update_eq_self] at all
  refine ⟨live, spare, ⟨holds, pending, inv.account.of_perm ?_ rfl rfl rfl rfl⟩, settled⟩
  exact all.symm.trans (.of_eq (List.append_nil _).symm)

/-- What it leaves after the call. -/
theorem Inv.worked (inv : s.Inv waiting) {t : Nat} (here : t < s.allthreads) {others : List (Epoch × Nat)}
    (perm : ∀ mine, ((List.range s.allthreads).flatMap (Function.update waiting t mine)).Perm (mine ++ others))
    {w : Work} {live spare : List Nat} {mine : List (Epoch × Nat)}
    (rests : w.Rests { s.env with
      gcEpoch := Function.update s.env.gcEpoch t w.ti.gcEpoch, inside := fun u => inside u w.log, others } [] live spare mine)
    (sections : ∀ u, inside u w.log = true → u ≠ t → inside u s.log = true)
    (own : inside t w.log = true → w.ti.gcEpoch ≠ 0)
    (behind : w.ti.gcEpoch ≠ 0 → age s.globalepoch w.ti.gcEpoch ≤ age s.globalepoch s.activeEpoch) :
    (s.worked t w).Inv (Function.update waiting t mine) := by
  have thread : (s.worked t w).thread = Function.update s.thread t w.ti := rfl
  have gcEpoch (u : Nat) : ((s.worked t w).thread u).gcEpoch = Function.update s.env.gcEpoch t w.ti.gcEpoch u := by
    rw [thread]
    by_cases same : u = t
    · rw [same, Function.update_self, Function.update_self]
    · rw [Function.update_of_ne same, Function.update_of_ne same]
      rfl
  refine ⟨?_, ?_, ?_, inv.recent, inv.nonzero, ?_, ?_⟩
  · intro u past
    have different : u ≠ t := by
      rintro rfl
      exact absurd here (Nat.not_lt_of_le past)
    rw [thread, Function.update_of_ne different]
    exact inv.unmade u past
  · intro u bound
    rw [thread]
    by_cases same : u = t
    · rw [same, Function.update_self, Function.update_self]
      exact ⟨live, spare, rests.keeps.holds, rests.keeps.pending, rests.settled⟩
    · rw [Function.update_of_ne same, Function.update_of_ne same]
      exact inv.quiet u bound
  · refine rests.keeps.account.of_perm ?_ rfl rfl (funext gcEpoch) rfl
    rw [show (s.worked t w).env.others = [] from rfl, List.append_nil]
    exact perm mine
  · intro u holds
    rw [gcEpoch]
    by_cases same : u = t
    · rw [same] at holds ⊢
      rw [Function.update_self]
      exact ⟨here, own holds⟩
    · rw [Function.update_of_ne same]
      exact inv.sections u (sections u holds same)
  · intro u bound nonzero
    rw [gcEpoch] at nonzero ⊢
    by_cases same : u = t
    · rw [same, Function.update_self] at nonzero ⊢
      exact behind nonzero
    · rw [Function.update_of_ne same] at nonzero ⊢
      exact inv.behind u bound nonzero

theorem Inv.recordRcu (inv : s.Inv waiting) {t : Nat} (here : t < s.allthreads) (tag : Memtag) :
    ∃ s' waiting', s.step (.recordRcu t tag) = some s' ∧ s'.Inv waiting' := by
  obtain ⟨others, perm⟩ := exists_others waiting here
  obtain ⟨live, spare, rests⟩ := inv.work here perm
  obtain ⟨w, live', spare', mine, registered, keeps, grown, settled⟩ := rests.keeps.register tag
  have gcEpoch : w.ti.gcEpoch = (s.thread t).gcEpoch := grown.gcEpoch
  have same : ∀ u, inside u w.log = inside u s.log := keeps.account.sections
  have kept : w.Rests { s.env with
      gcEpoch := Function.update s.env.gcEpoch t w.ti.gcEpoch, inside := fun u => inside u w.log, others } [] live' spare' mine := by
    refine ⟨⟨keeps.holds, keeps.pending, keeps.account.of_perm (.refl _) rfl rfl ?_ (funext same)⟩, settled rests.settled⟩
    rw [gcEpoch]
    exact Function.update_eq_self t s.env.gcEpoch
  refine ⟨_, _, congrArg (Option.map (s.worked t)) registered, inv.worked here perm kept ?_ ?_ ?_⟩
  · intro u holds _
    rwa [same] at holds
  · intro holds
    rw [same] at holds
    rw [gcEpoch]
    exact (inv.sections t holds).2
  · rw [gcEpoch]
    exact inv.behind t here

/-- A pass over the groups, where one is due. -/
theorem collect_spec {env : Env} {w : Work} {live spare : List Nat} {mine : List (Epoch × Nat)}
    (rests : w.Rests env [] live spare mine) (recent : age env.globalepoch env.activeEpoch < 2 ^ 63)
    (calls : Nat → List Memtag) :
    ∃ w' live' spare' mine', w.collect env.globalepoch env.activeEpoch calls = some w' ∧
      w'.Rests env [] live' spare' mine' ∧ w'.ti.gcEpoch = w.ti.gcEpoch := by
  unfold Work.collect
  split
  · exact Work.hardRcuQuiesce_spec rests recent calls
  · exact ⟨w, live, spare, mine, rfl, rests, rfl⟩

/-- A thread's call ends with an event. -/
theorem Inv.noted (inv : s.Inv waiting) {t : Nat} (here : t < s.allthreads) {others : List (Epoch × Nat)}
    (perm : ∀ mine, ((List.range s.allthreads).flatMap (Function.update waiting t mine)).Perm (mine ++ others))
    {w : Work} {live spare : List Nat} {mine : List (Epoch × Nat)}
    (rests : w.Rests { s.env with others } [] live spare mine) (ev : Event) (x : Epoch)
    (registered_ : registered (ev :: w.log) = registered w.log) (freed_ : freed (ev :: w.log) = freed w.log)
    (safe : Safe w.log → Safe (ev :: w.log))
    (held_ : ∀ u p, held u p (ev :: w.log) = true → held u p w.log = true ∧ u ≠ t)
    (other : ∀ u, u ≠ t → inside u (ev :: w.log) = inside u w.log)
    (own : inside t (ev :: w.log) = true → x ≠ 0) (now : x = s.globalepoch ∨ x = 0) :
    ∃ waiting', (s.worked t (Work.note { w with ti.gcEpoch := x } ev)).Inv waiting' := by
  have moved (u : Nat) (different : u ≠ t) : Function.update s.env.gcEpoch t x u = s.env.gcEpoch u :=
    Function.update_of_ne different _ _
  have account := rests.keeps.account.section_event (Function.update s.env.gcEpoch t x) registered_ freed_ safe
    (by
      intro u p holds
      obtain ⟨before, different⟩ := held_ u p holds
      exact ⟨before, moved u different⟩)
    (by
      intro u holds
      by_cases same : u = t
      · left
        rw [same] at holds ⊢
        rw [Function.update_self]
        exact now.resolve_right (own holds)
      · exact .inr ⟨by rwa [other u same] at holds, moved u same⟩)
  have set := rests.set_epochs x w.ti.performGcEpoch
  have noted : (Work.note { w with ti.gcEpoch := x } ev).Rests { s.env with
      gcEpoch := Function.update s.env.gcEpoch t x, inside := fun u => inside u (ev :: w.log), others } [] live spare mine :=
    ⟨⟨set.keeps.holds, set.keeps.pending, account⟩, set.settled⟩
  refine ⟨_, inv.worked here perm noted ?_ own ?_⟩
  · intro u holds different
    have sections := rests.keeps.account.sections u
    change inside u (ev :: w.log) = true at holds
    rw [other u different, sections] at holds
    exact holds
  · intro nonzero
    change x ≠ 0 at nonzero
    change age s.globalepoch x ≤ _
    rw [now.resolve_right nonzero, age_self]
    exact Nat.zero_le _

theorem rcuStart_eq (w : Work) (g : Epoch) : w.rcuStart g = { w with ti.gcEpoch := g } := by
  unfold Work.rcuStart
  split
  · rfl
  · rename_i same
    rw [← not_not.mp same]

theorem Inv.rcuStart (inv : s.Inv waiting) {t : Nat} (here : t < s.allthreads) (outside : inside t s.log = false) :
    ∃ s' waiting', s.step (.rcuStart t) = some s' ∧ s'.Inv waiting' := by
  obtain ⟨others, perm⟩ := exists_others waiting here
  obtain ⟨live, spare, rests⟩ := inv.work here perm
  obtain ⟨waiting', kept⟩ := inv.noted here perm rests (.start t) s.globalepoch rfl rfl id
    (by
      intro u p holds
      refine ⟨holds, ?_⟩
      rintro rfl
      have within : inside u s.log = true := held_inside holds
      rw [outside] at within
      cases within)
    (by
      intro u different
      rw [inside, decide_eq_false different.symm, Bool.false_or])
    (fun _ => inv.nonzero) (.inl rfl)
  refine ⟨_, waiting', ?_, kept⟩
  rw [step, rcuStart_eq]

theorem Inv.rcuStop (inv : s.Inv waiting) {t : Nat} (here : t < s.allthreads) (calls : Nat → List Memtag) :
    ∃ s' waiting', s.step (.rcuStop t calls) = some s' ∧ s'.Inv waiting' := by
  obtain ⟨others, perm⟩ := exists_others waiting here
  obtain ⟨live, spare, rests⟩ := inv.work here perm
  obtain ⟨w, live', spare', mine', collected, rests', -⟩ := collect_spec rests inv.recent calls
  obtain ⟨waiting', kept⟩ := inv.noted here perm rests' (.stop t) 0 rfl rfl id
    (by
      intro u p holds
      rw [held, Bool.and_eq_true, decide_eq_true_eq] at holds
      exact ⟨holds.2, holds.1.symm⟩)
    (by
      intro u different
      rw [inside, decide_eq_true different.symm, Bool.true_and])
    (by
      intro within
      rw [inside, decide_eq_false (not_not.mpr rfl), Bool.false_and] at within
      cases within)
    (.inr rfl)
  refine ⟨_, waiting', ?_, kept⟩
  have stopped : (s.work t).rcuStop s.globalepoch s.activeEpoch calls = some { w with ti.gcEpoch := 0 } :=
    congrArg (Option.map _) collected
  exact congrArg (Option.map fun w => s.worked t (w.note (.stop t))) stopped

theorem Inv.rcuQuiesce (inv : s.Inv waiting) {t : Nat} (here : t < s.allthreads) (calls : Nat → List Memtag) :
    ∃ s' waiting', s.step (.rcuQuiesce t calls) = some s' ∧ s'.Inv waiting' := by
  obtain ⟨others, perm⟩ := exists_others waiting here
  obtain ⟨live, spare, rests⟩ := inv.work here perm
  have started := rests.set_epochs s.globalepoch (s.work t).ti.performGcEpoch
  obtain ⟨w, live', spare', mine', collected, rests', gcEpoch⟩ := collect_spec started inv.recent calls
  obtain ⟨waiting', kept⟩ := inv.noted here perm rests' (.quiesce t) s.globalepoch rfl rfl id
    (by
      intro u p holds
      rw [held, Bool.and_eq_true, decide_eq_true_eq] at holds
      exact ⟨holds.2, holds.1.symm⟩)
    (fun _ _ => rfl) (fun _ => inv.nonzero) (.inl rfl)
  refine ⟨_, waiting', ?_, kept⟩
  have quiesced : (s.work t).rcuQuiesce s.globalepoch s.activeEpoch calls = some { w with ti.gcEpoch := s.globalepoch } := by
    rw [Work.rcuQuiesce, rcuStart_eq]
    refine collected.trans ?_
    rw [← show w.ti.gcEpoch = s.globalepoch from gcEpoch]
  exact congrArg (Option.map fun w => s.worked t (w.note (.quiesce t))) quiesced

theorem Inv.make (inv : s.Inv waiting) : ∃ s' waiting', s.step .make = some s' ∧ s'.Inv waiting' := by
  have same : Function.update s.thread s.allthreads {} = s.thread := by
    rw [← inv.unmade s.allthreads (Nat.le_refl _), Function.update_eq_self]
  have stepped : s.step .make = some { s with allthreads := s.allthreads + 1 } := by
    rw [step, same]
  refine ⟨_, Function.update waiting s.allthreads [], stepped, ?_, ?_, ?_, inv.recent, inv.nonzero, ?_, ?_⟩
  · exact fun t past => inv.unmade t (Nat.le_of_succ_le past)
  · intro t bound
    by_cases new : t = s.allthreads
    · rw [new, Function.update_self]
      change (s.thread s.allthreads).Quiet []
      rw [inv.unmade s.allthreads (Nat.le_refl _)]
      exact quiet_new
    · rw [Function.update_of_ne new]
      exact inv.quiet t (Nat.lt_of_le_of_ne (Nat.le_of_lt_succ bound) new)
  · have all : (List.range (s.allthreads + 1)).flatMap (Function.update waiting s.allthreads []) =
        (List.range s.allthreads).flatMap waiting := by
      rw [List.range_succ, List.flatMap_append, List.flatMap_singleton, Function.update_self, List.append_nil]
      refine List.flatMap_congr ?_
      intro t mem
      rw [Function.update_of_ne (Nat.ne_of_lt (List.mem_range.mp mem))]
    rw [all]
    exact inv.account
  · intro u holds
    have within := inv.sections u holds
    exact ⟨Nat.lt_succ_of_lt within.1, within.2⟩
  · intro u bound nonzero
    have made : u < s.allthreads := by
      by_contra past
      change (s.thread u).gcEpoch ≠ 0 at nonzero
      rw [inv.unmade u (Nat.le_of_not_lt past)] at nonzero
      exact nonzero rfl
    exact inv.behind u made nonzero

/-- The global epoch moves on, and everything in use is further behind. -/
theorem age_advance {g e x : Epoch} (later : 0 < (e - g).toInt) (recent : age g x < 2 ^ 63) (close : 0 ≤ (e - x).toInt) :
    age e x < 2 ^ 63 ∧ ∀ z, age g z ≤ age g x → ∀ y, age g y ≤ age g z → age e y ≤ age e z := by
  have ahead : (e - g).toNat < 2 ^ 63 := by
    by_contra far
    have negative := BitVec.toInt_neg_iff.mpr (by omega : 2 ^ 64 ≤ 2 * (e - g).toNat)
    omega
  have near : (e - x).toNat < 2 ^ 63 := by
    by_contra far
    have negative := BitVec.toInt_neg_iff.mpr (by omega : 2 ^ 64 ≤ 2 * (e - x).toNat)
    omega
  refine ⟨near, ?_⟩
  intro z young y younger
  unfold age at *
  bv_omega

theorem Inv.advance (inv : s.Inv waiting) {e : Epoch} (meets : s.Meets (.advance e)) :
    ∃ s' waiting', s.step (.advance e) = some s' ∧ s'.Inv waiting' := by
  refine ⟨_, waiting, rfl, ?_⟩
  split
  · rename_i later
    obtain ⟨nonzero, active⟩ := meets later
    obtain ⟨recent, further⟩ := age_advance later inv.recent active
    have active_ := further _ (Nat.le_refl _)
    obtain ⟨balance, below, nodup, guarded, -, sections, safe⟩ := inv.account
    refine ⟨inv.unmade, inv.quiet, ⟨balance, below, nodup, ?_, ?_, sections, safe⟩, recent, nonzero, inv.sections, ?_⟩
    · intro x mem u holds
      obtain ⟨made, started⟩ := inv.sections u (held_inside holds)
      exact further _ (inv.behind u made started) x.1 (guarded x mem u holds)
    · intro u within
      obtain ⟨made, started⟩ := inv.sections u within
      exact active_ _ (inv.behind u made started)
    · intro u made started
      exact active_ _ (inv.behind u made started)
  · exact inv

/-- The loop of `min_active_epoch` finds the oldest epoch. -/
theorem oldest {g : Epoch} (gc : Nat → Epoch) (threads : List Nat) (ae : Epoch) (recent : age g ae < 2 ^ 63)
    (used : ∀ t ∈ threads, gc t ≠ 0 → age g (gc t) < 2 ^ 63) :
    age g (threads.foldl (fun ae t => if gc t ≠ 0 ∧ (gc t - ae).toInt < 0 then gc t else ae) ae) < 2 ^ 63 ∧
    age g ae ≤ age g (threads.foldl (fun ae t => if gc t ≠ 0 ∧ (gc t - ae).toInt < 0 then gc t else ae) ae) ∧
    ∀ t ∈ threads, gc t ≠ 0 →
      age g (gc t) ≤ age g (threads.foldl (fun ae t => if gc t ≠ 0 ∧ (gc t - ae).toInt < 0 then gc t else ae) ae) := by
  induction threads generalizing ae with
  | nil => exact ⟨recent, Nat.le_refl _, nofun⟩
  | cons t threads ih =>
    have here := used t List.mem_cons_self
    have rest : ∀ u ∈ threads, gc u ≠ 0 → age g (gc u) < 2 ^ 63 := fun u mem => used u (List.mem_cons_of_mem t mem)
    rw [List.foldl_cons]
    by_cases older : gc t ≠ 0 ∧ (gc t - ae).toInt < 0
    · rw [if_pos older]
      obtain ⟨small, first, others⟩ := ih (gc t) (here older.1) rest
      have behind := (sub_neg_iff (here older.1) recent).mp older.2
      refine ⟨small, (Nat.le_of_lt behind).trans first, ?_⟩
      intro u mem nonzero
      rcases List.mem_cons.mp mem with rfl | mem
      · exact first
      · exact others u mem nonzero
    · rw [if_neg older]
      obtain ⟨small, first, others⟩ := ih ae recent rest
      refine ⟨small, first, ?_⟩
      intro u mem nonzero
      rcases List.mem_cons.mp mem with rfl | mem
      · refine Nat.le_trans (Nat.le_of_not_lt ?_) first
        intro behind
        exact older ⟨nonzero, (sub_neg_iff (here nonzero) recent).mpr behind⟩
      · exact others u mem nonzero

theorem Inv.activate (inv : s.Inv waiting) : ∃ s' waiting', s.step .activate = some s' ∧ s'.Inv waiting' := by
  have start : age s.globalepoch s.globalepoch < 2 ^ 63 := by
    rw [age_self]
    decide
  obtain ⟨recent, -, behind⟩ := oldest (fun t => (s.thread t).gcEpoch) (List.range s.allthreads).reverse s.globalepoch start
    (by
      intro t mem nonzero
      have made := List.mem_range.mp (List.mem_reverse.mp mem)
      exact Nat.lt_of_le_of_lt (inv.behind t made nonzero) inv.recent)
  have behind_ (u : Nat) (made : u < s.allthreads) (nonzero : (s.thread u).gcEpoch ≠ 0) :
      age s.globalepoch (s.thread u).gcEpoch ≤ age s.globalepoch s.minActiveEpoch :=
    behind u (List.mem_reverse.mpr (List.mem_range.mpr made)) nonzero
  obtain ⟨balance, below, nodup, guarded, -, sections, safe⟩ := inv.account
  refine ⟨_, waiting, rfl, inv.unmade, inv.quiet, ⟨balance, below, nodup, guarded, ?_, sections, safe⟩, recent,
    inv.nonzero, inv.sections, behind_⟩
  intro u within
  obtain ⟨made, started⟩ := inv.sections u within
  exact behind_ u made started

theorem inv_step {call : Call} (inv : ∃ waiting, s.Inv waiting) (meets : s.Meets call) :
    ∃ s', s.step call = some s' ∧ ∃ waiting', s'.Inv waiting' := by
  obtain ⟨waiting, inv⟩ := inv
  have all : ∃ s' waiting', s.step call = some s' ∧ s'.Inv waiting' := by
    cases call with
    | make => exact inv.make
    | recordRcu t tag => exact inv.recordRcu meets tag
    | rcuStart t => exact inv.rcuStart meets.1 meets.2
    | rcuStop t calls => exact inv.rcuStop meets calls
    | rcuQuiesce t calls => exact inv.rcuQuiesce meets calls
    | advance e => exact inv.advance meets
    | activate => exact inv.activate
  obtain ⟨s', waiting', stepped, inv'⟩ := all
  exact ⟨s', stepped, waiting', inv'⟩

end State

/-- In a run whose calls each meet the condition no assertion fails, each registered object is freed once or waits in limbo,
and when it is freed, every thread that was in a section at its registration has left that section or passed an
`rcu_quiesce`. -/
theorem objects_reclaimed {calls : List Call} (meets : Steps.Each State.step State.Meets {} calls) :
    ∃ s, Steps.run State.step {} calls = some s ∧ s.Reclaimed := by
  obtain ⟨s, ran, waiting, inv⟩ := Steps.run_of_each (fun s call => State.inv_step) ⟨_, State.inv_empty⟩ meets
  exact ⟨s, ran, inv.reclaimed⟩

/-- Two threads, and a callback that waits for the second one's section. -/
def twoThreads : List Call :=
  [.make, .make, .rcuStart 0, .rcuStart 1, .recordRcu 0 memtagCallback, .advance 3, .activate, .rcuStop 1 fun _ => [],
    .rcuQuiesce 0 fun _ => [0x1001], .activate, .rcuQuiesce 0 fun _ => [0x1001]]

theorem objects_reclaimed_twoThreads : ∃ s, Steps.run State.step {} twoThreads = some s ∧ s.Reclaimed :=
  objects_reclaimed (by decide)

def nestedStart : List Call :=
  [.make, .make, .rcuStart 0, .rcuStart 1, .recordRcu 0 0x1001, .advance 3, .rcuStart 1, .rcuQuiesce 0 fun _ => [],
    .activate, .rcuQuiesce 0 fun _ => []]

def farAdvance : List Call :=
  [.make, .make, .rcuStart 1, .advance (2 ^ 63), .advance (2 ^ 63 + 3), .activate, .rcuStart 0, .recordRcu 0 0x1001,
    .advance (2 ^ 63 + 5), .rcuQuiesce 0 fun _ => [], .activate, .rcuQuiesce 0 fun _ => []]

/-- The global epoch comes round to zero, which a thread outside sections has. -/
def zeroEpoch : List Call :=
  [.make, .make, .advance (2 ^ 63), .activate, .advance (-1), .activate, .advance 0, .activate, .rcuStart 0, .rcuStart 1,
    .recordRcu 0 0x1001, .advance 2, .activate, .rcuQuiesce 0 fun _ => []]

set_option maxRecDepth 8000 in
/-- Each time the object is freed while the second thread is in the section it was in before. -/
theorem freed_in_section :
    (∃ s, Steps.run State.step {} nestedStart = some s ∧ ¬ Safe s.log) ∧
    (∃ s, Steps.run State.step {} farAdvance = some s ∧ ¬ Safe s.log) ∧
    ∃ s, Steps.run State.step {} zeroEpoch = some s ∧ ¬ Safe s.log := by
  have broken {calls : List Call} {log : List Event} (ran : (Steps.run State.step {} calls).map State.log = some log)
      (holds : ¬ Safe log) : ∃ s, Steps.run State.step {} calls = some s ∧ ¬ Safe s.log := by
    obtain ⟨s, run, same⟩ := Option.map_eq_some_iff.mp ran
    exact ⟨s, run, same ▸ holds⟩
  have nested : (Steps.run State.step {} nestedStart).map State.log =
      some [.quiesce 0, .freed 0, .quiesce 0, .start 1, .registered 0, .start 1, .start 0] := by
    decide
  have far : (Steps.run State.step {} farAdvance).map State.log =
      some [.quiesce 0, .freed 0, .quiesce 0, .registered 0, .start 0, .start 1] := by
    decide
  have zero : (Steps.run State.step {} zeroEpoch).map State.log =
      some [.quiesce 0, .freed 0, .registered 0, .start 1, .start 0] := by
    decide
  refine ⟨broken nested ?_, broken far ?_, broken zero ?_⟩
  · intro safe
    cases safe.2.1 1
  · intro safe
    cases safe.2.1 1
  · intro safe
    cases safe.2.1 1

end Masstree.Rcu
