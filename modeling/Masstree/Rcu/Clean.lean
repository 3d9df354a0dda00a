import Mathlib.Data.List.Perm.Basic
import Masstree.Rcu.Limbo

/-!
# Cleaning limbo groups

What one thread's pass over its groups frees, with callbacks that register objects meanwhile.
-/

namespace Masstree.Rcu

/-- Thread `u` is between an `rcu_start` and the next `rcu_stop`. -/
def inside (u : Nat) : List Event → Bool
  | [] => false
  | .start t :: log => t = u || inside u log
  | .stop t :: log => t ≠ u && inside u log
  | _ :: log => inside u log

/-- Thread `u` was in a section when object `ptr` was registered, and has neither left it nor passed an `rcu_quiesce` since. -/
def held (u ptr : Nat) : List Event → Bool
  | [] => false
  | .registered p :: log => if p = ptr then inside u log else held u ptr log
  | .stop t :: log | .quiesce t :: log => t ≠ u && held u ptr log
  | _ :: log => held u ptr log

/-- What is freed was registered, and no thread holds it. -/
def Safe : List Event → Prop
  | [] => True
  | .freed ptr :: log => ptr ∈ registered log ∧ (∀ u, held u ptr log = false) ∧ Safe log
  | _ :: log => Safe log

/-- How far an epoch is behind the global one. -/
def age (globalepoch epoch : Epoch) : Nat := (globalepoch - epoch).toNat

theorem age_self (globalepoch : Epoch) : age globalepoch globalepoch = 0 := by
  rw [age, BitVec.sub_self]
  rfl

/-- The signed difference of two epochs. -/
theorem sub_neg_iff {globalepoch x y : Epoch} (recent : age globalepoch x < 2 ^ 63) (recent' : age globalepoch y < 2 ^ 63) :
    (x - y).toInt < 0 ↔ age globalepoch y < age globalepoch x := by
  unfold age at *
  rw [BitVec.toInt_neg_iff]
  bv_omega

/-- An object at least as young as the active epoch is not freed. -/
theorem bound_neg {globalepoch activeEpoch epoch : Epoch} (recent : age globalepoch activeEpoch < 2 ^ 63)
    (younger : age globalepoch epoch ≤ age globalepoch activeEpoch) : (activeEpoch - 1 - epoch).toInt < 0 := by
  unfold age at *
  rw [BitVec.toInt_neg_iff]
  bv_omega

theorem held_inside {u ptr : Nat} {log : List Event} (holds : held u ptr log = true) : inside u log = true := by
  induction log with
  | nil => cases holds
  | cons ev log ih =>
    cases ev with
    | registered p =>
      rw [held] at holds
      split at holds
      · exact holds
      · exact ih holds
    | freed p => exact ih holds
    | start t =>
      rw [inside, Bool.or_eq_true]
      exact .inr (ih holds)
    | stop t =>
      rw [held, Bool.and_eq_true] at holds
      rw [inside, Bool.and_eq_true]
      exact ⟨holds.1, ih holds.2⟩
    | quiesce t =>
      rw [held, Bool.and_eq_true] at holds
      exact ih holds.2

/-- The rest of the system while a thread works. -/
structure Env where
  globalepoch : Epoch
  activeEpoch : Epoch
  gcEpoch : Nat → Epoch
  /-- which threads are in a section -/
  inside : Nat → Bool
  /-- what the other threads have in limbo -/
  others : List (Epoch × Nat)

/-- The objects in limbo are those registered and not freed, and their epochs are no older than the section of a thread
that holds them. -/
structure Account (env : Env) (log : List Event) (mine : List (Epoch × Nat)) : Prop where
  balance : (freed log ++ (mine ++ env.others).map Prod.snd).Perm (registered log)
  below : ∀ p ∈ registered log, p < (registered log).length
  nodup : (registered log).Nodup
  guarded : ∀ x ∈ mine ++ env.others, ∀ u, held u x.2 log = true →
    age env.globalepoch x.1 ≤ age env.globalepoch (env.gcEpoch u)
  active : ∀ u, inside u log = true → age env.globalepoch (env.gcEpoch u) ≤ age env.globalepoch env.activeEpoch
  sections : ∀ u, inside u log = env.inside u
  safe : Safe log

namespace Account

variable {env : Env} {log : List Event} {mine : List (Epoch × Nat)}

theorem mem_registered (account : Account env log mine) {x : Epoch × Nat} (mem : x ∈ mine ++ env.others) :
    x.2 ∈ registered log :=
  account.balance.subset (List.mem_append_right _ (List.mem_map_of_mem mem))

theorem register (account : Account env log mine) : Account env (.registered (registered log).length :: log)
    (mine ++ [(env.globalepoch, (registered log).length)]) := by
  have new : registered (.registered (registered log).length :: log) = (registered log).length :: registered log := rfl
  refine ⟨?_, ?_, ?_, ?_, account.active, account.sections, account.safe⟩
  · rw [new]
    have same : freed (.registered (registered log).length :: log) = freed log := rfl
    have moved : (freed log ++ (mine ++ [(env.globalepoch, (registered log).length)] ++ env.others).map Prod.snd).Perm
        ((registered log).length :: (freed log ++ (mine ++ env.others).map Prod.snd)) := by
      simp only [List.map_append, List.map_cons, List.append_assoc, List.singleton_append]
      rw [← List.append_assoc, ← List.append_assoc (freed log)]
      exact List.perm_middle
    rw [same]
    exact moved.trans (account.balance.cons _)
  · intro p mem
    rw [new] at mem ⊢
    rcases List.mem_cons.mp mem with same | mem
    · rw [same]
      exact Nat.lt_succ_self _
    · exact Nat.lt_succ_of_lt (account.below p mem)
  · rw [new]
    exact List.nodup_cons.mpr ⟨fun mem => Nat.lt_irrefl _ (account.below _ mem), account.nodup⟩
  · intro x mem u holds
    have cases_ : x ∈ mine ++ env.others ∨ x = (env.globalepoch, (registered log).length) := by
      simp only [List.mem_append, List.mem_singleton] at mem ⊢
      tauto
    rcases cases_ with old | rfl
    · rw [held, if_neg (Nat.ne_of_gt (account.below _ (account.mem_registered old)))] at holds
      exact account.guarded x old u holds
    · rw [age_self]
      exact Nat.zero_le _

/-- The first object in limbo is freed, where its epoch is before the active one. -/
theorem free {epoch : Epoch} {ptr : Nat} (account : Account env log ((epoch, ptr) :: mine))
    (recent : age env.globalepoch env.activeEpoch < 2 ^ 63) (before : ¬ (env.activeEpoch - 1 - epoch).toInt < 0) :
    Account env (.freed ptr :: log) mine := by
  have out : ∀ u, held u ptr log = false := by
    intro u
    by_contra holds
    have holds' : held u ptr log = true := Bool.eq_true_of_not_eq_false holds
    have young := account.guarded (epoch, ptr) List.mem_cons_self u holds'
    exact before (bound_neg recent (young.trans (account.active u (held_inside holds'))))
  refine ⟨?_, account.below, account.nodup, ?_, account.active, account.sections, ?_, out, account.safe⟩
  · exact List.perm_middle.symm.trans account.balance
  · intro x mem u holds
    exact account.guarded x (List.mem_cons_of_mem _ mem) u holds
  · exact account.mem_registered List.mem_cons_self

/-- A different order, or other objects counted as the thread's own. -/
theorem of_perm {env' : Env} {mine' : List (Epoch × Nat)} (account : Account env log mine)
    (perm : (mine' ++ env'.others).Perm (mine ++ env.others)) (globalepoch : env'.globalepoch = env.globalepoch)
    (activeEpoch : env'.activeEpoch = env.activeEpoch) (gcEpoch : env'.gcEpoch = env.gcEpoch)
    (inside_ : env'.inside = env.inside) : Account env' log mine' := by
  refine ⟨?_, account.below, account.nodup, ?_, ?_, ?_, account.safe⟩
  · exact ((perm.map Prod.snd).append_left _).trans account.balance
  · intro x mem
    rw [globalepoch, gcEpoch]
    exact account.guarded x (perm.mem_iff.mp mem)
  · rw [globalepoch, gcEpoch, activeEpoch]
    exact account.active
  · rw [inside_]
    exact account.sections

/-- A thread enters, leaves or passes, and its epoch changes. -/
theorem section_event (account : Account env log mine) {ev : Event} (gcEpoch : Nat → Epoch)
    (registered_ : registered (ev :: log) = registered log) (freed_ : freed (ev :: log) = freed log)
    (safe : Safe log → Safe (ev :: log))
    (held_ : ∀ u p, held u p (ev :: log) = true → held u p log = true ∧ gcEpoch u = env.gcEpoch u)
    (inside_ : ∀ u, inside u (ev :: log) = true →
      gcEpoch u = env.globalepoch ∨ inside u log = true ∧ gcEpoch u = env.gcEpoch u) :
    Account { env with gcEpoch, inside := fun u => inside u (ev :: log) } (ev :: log) mine := by
  refine ⟨?_, ?_, ?_, ?_, ?_, fun _ => rfl, safe account.safe⟩
  · rw [registered_, freed_]
    exact account.balance
  · rw [registered_]
    exact account.below
  · rw [registered_]
    exact account.nodup
  · intro x mem u holds
    obtain ⟨before, same⟩ := held_ u x.2 holds
    have young := account.guarded x mem u before
    rwa [← same] at young
  · intro u here
    rcases inside_ u here with now | ⟨before, same⟩
    · change age env.globalepoch (gcEpoch u) ≤ _
      rw [now, age_self]
      exact Nat.zero_le _
    · have old := account.active u before
      rwa [← same] at old

end Account

namespace Work

open Threadinfo (Holds Grown)

variable {env : Env} {w : Work} {epoch : Epoch} {emptied live spare : List Nat} {mine : List (Epoch × Nat)}

/-- With `extra` before them in the groups, the objects of the account are in limbo. -/
structure Keeps (env : Env) (w : Work) (epoch : Epoch) (emptied live spare : List Nat) (extra mine : List (Epoch × Nat)) :
    Prop where
  holds : w.ti.Holds epoch emptied live spare
  pending : w.ti.pending epoch live = extra ++ mine
  account : Account env w.log mine

variable {extra : List (Epoch × Nat)}

theorem Keeps.register (keeps : w.Keeps env epoch emptied live spare extra mine) (tag : Memtag) :
    ∃ w' live' spare' mine', w.register env.globalepoch tag = some w' ∧
      w'.Keeps env epoch emptied live' spare' extra mine' ∧ Grown env.globalepoch w.ti live w'.ti live' ∧
      ((∀ i ∈ live, (w.ti.group i).Settled) → ∀ i ∈ live', (w'.ti.group i).Settled) := by
  obtain ⟨ti, live', spare', recorded, holds, pending, grown, settled⟩ :=
    Threadinfo.recordRcu_spec keeps.holds env.globalepoch (registered w.log).length tag
  refine ⟨⟨ti, .registered (registered w.log).length :: w.log⟩, live', spare', _, ?_,
    ⟨holds, ?_, keeps.account.register⟩, grown, settled⟩
  · rw [Work.register, recorded]
    rfl
  · rw [pending, keeps.pending, List.append_assoc]

theorem Keeps.registers (keeps : w.Keeps env epoch emptied live spare extra mine) (tags : List Memtag) :
    ∃ w' live' spare' mine', tags.foldlM (Work.register env.globalepoch) w = some w' ∧
      w'.Keeps env epoch emptied live' spare' extra mine' ∧ Grown env.globalepoch w.ti live w'.ti live' := by
  induction tags generalizing w live spare mine with
  | nil => exact ⟨w, live, spare, mine, rfl, keeps, .refl _ _ _⟩
  | cons tag tags ih =>
    obtain ⟨w₁, live₁, spare₁, mine₁, first, keeps₁, grown₁, -⟩ := keeps.register tag
    obtain ⟨w', live', spare', mine', rest, keeps', grown⟩ := ih keeps₁
    refine ⟨w', live', spare', mine', ?_, keeps', grown₁.trans grown⟩
    rw [List.foldlM_cons, first]
    exact rest

/-- The first object in limbo is freed, and stays in its slot for the moment. -/
theorem Keeps.freeRcu {ptr : Nat} (keeps : w.Keeps env epoch emptied live spare [] ((epoch, ptr) :: mine))
    (recent : age env.globalepoch env.activeEpoch < 2 ^ 63) (before : ¬ (env.activeEpoch - 1 - epoch).toInt < 0)
    (calls : Nat → List Memtag) (tag : Memtag) :
    ∃ w' live' spare' mine', w.freeRcu env.globalepoch calls ptr tag = some w' ∧
      w'.Keeps env epoch emptied live' spare' [(epoch, ptr)] mine' ∧ Grown env.globalepoch w.ti live w'.ti live' := by
  have out : Keeps env { w with log := .freed ptr :: w.log } epoch emptied live spare [(epoch, ptr)] mine :=
    ⟨keeps.holds, keeps.pending, keeps.account.free recent before⟩
  unfold Work.freeRcu
  simp only
  split
  · exact ⟨_, live, spare, mine, rfl, out, .refl _ _ _⟩
  · split
    · exact out.registers (calls ptr)
    · refine ⟨_, live, spare, mine, rfl, ⟨?_, out.pending, out.account⟩, ⟨⟨[], (List.append_nil _).symm, nofun⟩,
        fun _ _ => .refl _, rfl, rfl⟩⟩
      obtain ⟨linked, nodup, below, first, last, valid, later, empty⟩ := out.holds
      exact ⟨linked, nodup, below, first, last, valid, later, empty⟩

/-- The first group is replaced by one whose slots hold what is still on the account. -/
theorem Keeps.set_first {i : Nat} {rest : List Nat} (keeps : w.Keeps env epoch emptied (i :: rest) spare extra mine)
    {g : LimboGroup} (next : g.next = (w.ti.group i).next) {epoch' : Epoch} (valid : g.Valid epoch')
    (slots : extra ++ decode epoch' g.slots = decode epoch (w.ti.group i).slots) :
    (w.setGroup i g).Keeps env epoch' emptied (i :: rest) spare [] mine := by
  obtain ⟨holds, pending⟩ := keeps.holds.set_first next valid
  refine ⟨holds, pending.trans ?_, keeps.account⟩
  have before : decode epoch (w.ti.group i).slots ++ w.ti.pending epoch rest = extra ++ mine := keeps.pending
  rw [← slots, List.append_assoc] at before
  exact List.append_cancel_left before

theorem Grown.tail {g : Epoch} {ti ti' : Threadinfo} {i : Nat} {rest live' : List Nat} (grown : Grown g ti (i :: rest) ti' live') :
    ∃ rest', live' = i :: rest' ∧ Grown g ti rest ti' rest' := by
  obtain ⟨new, eq, fresh⟩ := grown.added
  exact ⟨rest ++ new, eq, ⟨new, rfl, fresh⟩, fun j mem => grown.kept j (List.mem_cons_of_mem i mem), grown.gcEpoch,
    grown.limboHead⟩

theorem Keeps.grown_set {i : Nat} {rest : List Nat} (keeps : w.Keeps env epoch emptied (i :: rest) spare extra mine)
    (g : LimboGroup) : Grown env.globalepoch w.ti rest (w.setGroup i g).ti rest := by
  refine ⟨⟨[], (List.append_nil _).symm, nofun⟩, ?_, rfl, rfl⟩
  intro j mem
  have different : j ≠ i := by
    rintro rfl
    exact keeps.holds.first_not_mem (by simp [mem])
  rw [show (w.setGroup i g).ti.group j = _ from Threadinfo.setGroup_other _ different g]
  exact .refl _

/-- The loop frees objects in order, up to a marker of an epoch that is not before the active one, and leaves the rest in
limbo. -/
theorem cleanLoop_spec (fuel count : Nat) {i : Nat} {rest : List Nat} (keeps : w.Keeps env epoch emptied (i :: rest) spare [] mine)
    (recent : age env.globalepoch env.activeEpoch < 2 ^ 63) (calls : Nat → List Memtag)
    (before : (w.ti.group i).Settled ∨ ¬ (env.activeEpoch - 1 - epoch).toInt < 0)
    (enough : capacity < fuel + (w.ti.group i).head) :
    ∃ w' count' epoch' rest' spare' mine',
      w.cleanLoop env.globalepoch calls (env.activeEpoch - 1) i fuel epoch count = some (w', count') ∧
      w'.Keeps env epoch' emptied (i :: rest') spare' [] mine' ∧
      ((w'.ti.group i).Settled ∨ (w'.ti.group i).head = (w'.ti.group i).tail) ∧
      Grown env.globalepoch w.ti rest w'.ti rest' := by
  have valid := keeps.holds.valid i List.mem_cons_self
  induction fuel generalizing w epoch spare rest mine count with
  | zero =>
    have head_le := valid.head_le
    have tail_le := valid.tail_le
    omega
  | succ fuel ih =>
    unfold Work.cleanLoop
    simp only
    by_cases done : (w.ti.group i).head = (w.ti.group i).tail
    · rw [if_pos done]
      exact ⟨w, count, epoch, rest, spare, mine, rfl, keeps, .inr done, .refl _ _ _⟩
    · rw [if_neg done]
      obtain ⟨x, here⟩ : ∃ x, (w.ti.group i).e[(w.ti.group i).head]? = some x := by
        have inside : (w.ti.group i).head < (w.ti.group i).e.length := Nat.lt_of_le_of_ne valid.head_le done
        exact ⟨_, List.getElem?_eq_getElem inside⟩
      rw [here, Option.bind_some]
      cases x with
      | marker m =>
        simp only
        split
        · exact ⟨w, count, epoch, rest, spare, mine, rfl, keeps, .inl (.inr ⟨m, _, LimboGroup.slots_cons here⟩), .refl _ _ _⟩
        · rename_i passed
          have next := keeps.set_first (g := (w.ti.group i).advance) rfl (valid.advance here)
            (by rw [LimboGroup.slots_cons here]; rfl)
          obtain ⟨w', count', epoch', rest', spare', mine', ran, keeps', state, grown⟩ := ih count next
            (.inr passed) (by
              rw [show (w.setGroup i _).ti.group i = _ from Threadinfo.setGroup_self _ _ _]
              exact (by omega : capacity < fuel + ((w.ti.group i).head + 1)))
            (next.holds.valid i List.mem_cons_self)
          exact ⟨w', count', epoch', rest', spare', mine', ran, keeps', state, (keeps.grown_set _).trans grown⟩
      | object ptr tag =>
        have passed : ¬ (env.activeEpoch - 1 - epoch).toInt < 0 := by
          rcases before with (reset | ⟨m, r, marker⟩) | passed
          · rw [reset] at here
            cases here
          · rw [LimboGroup.slots_cons here] at marker
            cases marker
          · exact passed
        obtain ⟨mine₁, rfl⟩ : ∃ mine₁, mine = (epoch, ptr) :: mine₁ := by
          have first : decode epoch (w.ti.group i).slots ++ w.ti.pending epoch rest = mine := keeps.pending
          rw [LimboGroup.slots_cons here] at first
          exact ⟨_, first.symm⟩
        obtain ⟨w₁, live₁, spare₁, mine₂, freed, keeps₁, grown₁⟩ := keeps.freeRcu recent passed calls tag
        obtain ⟨rest₁, rfl, later⟩ := Grown.tail grown₁
        have valid₁ := keeps₁.holds.valid i List.mem_cons_self
        have here₁ : (w₁.ti.group i).e[(w₁.ti.group i).head]? = some (.object ptr tag) := by
          obtain ⟨head, more, e⟩ := grown₁.kept i List.mem_cons_self
          rw [head, e]
          obtain ⟨inside, -⟩ := List.getElem?_eq_some_iff.mp here
          rw [List.getElem?_append_left inside, here]
        have head₁ := (grown₁.kept i List.mem_cons_self).1
        simp only [freed, Option.bind_some]
        split
        · obtain ⟨valid', slots⟩ := valid₁.set_marker here₁
          have settled : ((w₁.setGroup i ((w₁.ti.group i).setMarker epoch)).ti.group i).Settled := by
            rw [show (w₁.setGroup i _).ti.group i = _ from Threadinfo.setGroup_self _ _ _]
            exact .inr ⟨epoch, _, slots⟩
          have marked := keeps₁.set_first (g := (w₁.ti.group i).setMarker epoch) rfl valid'
            (by rw [slots, LimboGroup.slots_cons here₁]; rfl)
          exact ⟨_, 0, epoch, rest₁, spare₁, mine₂, rfl, marked, .inl settled, later.trans (keeps₁.grown_set _)⟩
        · have next := keeps₁.set_first (g := (w₁.ti.group i).advance) rfl (valid₁.advance here₁)
            (by rw [LimboGroup.slots_cons here₁]; rfl)
          obtain ⟨w', count', epoch', rest', spare', mine', ran, keeps', state, grown⟩ := ih (count - 1) next
            (.inr passed) (by
              rw [show (w₁.setGroup i _).ti.group i = _ from Threadinfo.setGroup_self _ _ _]
              exact (by omega : capacity < fuel + ((w₁.ti.group i).head + 1)))
            (next.holds.valid i List.mem_cons_self)
          exact ⟨w', count', epoch', rest', spare', mine', ran, keeps', state,
            (later.trans (keeps₁.grown_set _)).trans grown⟩

/-- Every group begins with a marker or is reset. -/
structure Rests (env : Env) (w : Work) (emptied live spare : List Nat) (mine : List (Epoch × Nat)) : Prop where
  keeps : w.Keeps env 0 emptied live spare [] mine
  settled : ∀ i ∈ live, (w.ti.group i).Settled

theorem Keeps.rests {i : Nat} {rest : List Nat} (keeps : w.Keeps env epoch emptied (i :: rest) spare [] mine)
    (settled : (w.ti.group i).Settled) : w.Rests env emptied (i :: rest) spare mine := by
  have all : ∀ j ∈ i :: rest, (w.ti.group j).Settled := by
    intro j mem
    rcases List.mem_cons.mp mem with same | mem
    · rwa [same]
    · exact keeps.holds.later j mem
  obtain ⟨linked, nodup, below, first, last, valid, later, empty⟩ := keeps.holds
  refine ⟨⟨⟨linked, nodup, below, first, last, ?_, later, empty⟩, ?_, keeps.account⟩, all⟩
  · intro j mem
    exact (all j mem).of_valid (valid j mem) 0
  · rw [← keeps.pending]
    refine List.flatMap_congr ?_
    intro j mem
    exact (all j mem).decode_eq 0 epoch

theorem Rests.set_epochs (rests : w.Rests env emptied live spare mine) (gcEpoch performGcEpoch : Epoch) :
    Rests env { w with ti.gcEpoch := gcEpoch, ti.performGcEpoch := performGcEpoch } emptied live spare mine := by
  obtain ⟨⟨⟨linked, nodup, below, first, last, valid, later, empty⟩, pending, account⟩, settled⟩ := rests
  exact ⟨⟨⟨linked, nodup, below, first, last, valid, later, empty⟩, pending, account⟩, settled⟩

/-- Some objects are freed, and a group without any is reset. -/
theorem Rests.cleanUntil {i : Nat} {rest : List Nat} (rests : w.Rests env emptied (i :: rest) spare mine)
    (recent : age env.globalepoch env.activeEpoch < 2 ^ 63) (calls : Nat → List Memtag) (count : Nat) :
    ∃ w' count' rest' spare' mine',
      w.cleanUntil env.globalepoch calls (env.activeEpoch - 1) i count = some (w', count') ∧
      w'.Rests env emptied (i :: rest') spare' mine' ∧
      ((w'.ti.group i).head = (w'.ti.group i).tail → (w'.ti.group i).head = 0 ∧ (w'.ti.group i).e = []) ∧
      Grown env.globalepoch w.ti rest w'.ti rest' := by
  obtain ⟨w₁, count', epoch', rest', spare', mine', ran, keeps, state, grown⟩ :=
    cleanLoop_spec (capacity + 1) count rests.keeps recent calls
      (.inl (rests.settled i List.mem_cons_self)) (by omega)
  unfold Work.cleanUntil
  rw [ran, Option.map_some]
  by_cases done : (w₁.ti.group i).head = (w₁.ti.group i).tail
  · have slots := (LimboGroup.slots_eq_nil (keeps.holds.valid i List.mem_cons_self)).mpr done
    have here : (w₁.setGroup i (w₁.ti.group i).reset).ti.group i = (w₁.ti.group i).reset := Threadinfo.setGroup_self _ _ _
    have cleared := keeps.set_first (g := (w₁.ti.group i).reset) rfl
      (show LimboGroup.Valid _ 0 from ⟨Nat.le_refl _, Nat.zero_le _, fun used => absurd rfl used⟩) (by rw [slots]; rfl)
    refine ⟨_, count', rest', spare', mine', by simp only [if_pos done], cleared.rests ?_, ?_, grown.trans (keeps.grown_set _)⟩
    · rw [here]
      exact .inl rfl
    · rw [here]
      exact fun _ => ⟨rfl, rfl⟩
  · refine ⟨w₁, count', rest', spare', mine', by simp only [if_neg done], keeps.rests ?_, fun same => absurd same done, grown⟩
    rcases state with settled | same
    · exact settled
    · exact absurd same done

/-- A group with an epoch that is not before the active one is not cleaned. -/
theorem cleanUntil_fresh {i : Nat} (fresh : (w.ti.group i).Fresh env.globalepoch)
    (recent : age env.globalepoch env.activeEpoch < 2 ^ 63) (calls : Nat → List Memtag) (count : Nat) :
    w.cleanUntil env.globalepoch calls (env.activeEpoch - 1) i count = some (w, count) ∧
      (w.ti.group i).head ≠ (w.ti.group i).tail := by
  obtain ⟨head, rest, e⟩ := fresh
  have used : (w.ti.group i).head ≠ (w.ti.group i).tail := by
    rw [head, LimboGroup.tail, e, List.length_cons]
    omega
  have here : (w.ti.group i).e[(w.ti.group i).head]? = some (.marker env.globalepoch) := by
    rw [head, e]
    rfl
  have late : (env.activeEpoch - 1 - env.globalepoch).toInt < 0 := by
    apply bound_neg recent
    rw [age_self]
    exact Nat.zero_le _
  refine ⟨?_, used⟩
  unfold Work.cleanUntil Work.cleanLoop
  simp only [if_neg used, here, Option.bind_some, if_pos late, Option.map_some]

def Ends (empties : Option (Nat × Nat)) (emptied : List Nat) : Prop :=
  empties.map Prod.fst = emptied.head? ∧ empties.map Prod.snd = emptied.getLast?

theorem Rests.hookEmpties (rests : w.Rests env emptied live spare mine) {empties : Option (Nat × Nat)}
    (ends : Ends empties emptied) : ∃ spare', (w.hookEmpties empties).Rests env [] live spare' mine ∧
      (w.hookEmpties empties).ti.gcEpoch = w.ti.gcEpoch := by
  obtain ⟨head, last⟩ := ends
  cases empties with
  | none =>
    have none_ : emptied = [] := List.head?_eq_none_iff.mp head.symm
    subst none_
    exact ⟨spare, rests, rfl⟩
  | some e =>
    obtain ⟨first, last_⟩ := e
    refine ⟨emptied ++ spare, ⟨⟨rests.keeps.holds.hook head.symm last.symm, ?_, rests.keeps.account⟩, ?_⟩, rfl⟩
    · exact (Threadinfo.pending_setNext _ _ _ _ _).trans ((Threadinfo.pending_setNext _ _ _ _ _).trans rests.keeps.pending)
    · intro i mem
      apply (Threadinfo.setNext_same _ _ _ _).settled
      apply (Threadinfo.setNext_same _ _ _ _).settled
      exact rests.settled i mem

/-- The loop ends with every group in its place, after at most the groups that were there and one more. -/
theorem quiesceLoop_spec (fuel count : Nat) (empties : Option (Nat × Nat)) {old new : List Nat}
    (rests : w.Rests env emptied (old ++ new) spare mine) (ends : Ends empties emptied)
    (fresh : ∀ i ∈ new, (w.ti.group i).Fresh env.globalepoch) (enough : old.length < fuel)
    (recent : age env.globalepoch env.activeEpoch < 2 ^ 63) (calls : Nat → List Memtag) :
    ∃ w' count' live' spare' mine',
      w.quiesceLoop env.globalepoch calls (env.activeEpoch - 1) fuel empties count = some (w', count') ∧
      w'.Rests env [] live' spare' mine' ∧ w'.ti.gcEpoch = w.ti.gcEpoch := by
  induction fuel generalizing w emptied old new spare mine empties count with
  | zero => cases enough
  | succ fuel ih =>
    unfold Work.quiesceLoop
    split
    · obtain ⟨spare', hooked, gcEpoch⟩ := rests.hookEmpties ends
      exact ⟨_, count, _, spare', mine, rfl, hooked, gcEpoch⟩
    · cases old with
      | nil =>
        -- a group that was filled by callbacks
        have member : w.ti.limboHead ∈ new := List.mem_of_mem_head? rests.keeps.holds.first
        obtain ⟨unchanged, used⟩ := cleanUntil_fresh (fresh _ member) recent calls count
        obtain ⟨spare', hooked, gcEpoch⟩ := rests.hookEmpties ends
        rw [unchanged, Option.bind_some]
        simp only [if_pos used]
        exact ⟨_, count, _, spare', mine, rfl, hooked, gcEpoch⟩
      | cons i old =>
        have head : w.ti.limboHead = i := (Option.some.inj rests.keeps.holds.first).symm
        obtain ⟨w₁, count₁, rest₁, spare₁, mine₁, cleaned, rests₁, reset, grown⟩ := rests.cleanUntil recent calls count
        have head₁ : w₁.ti.limboHead = i := grown.limboHead.trans head
        rw [head, cleaned, Option.bind_some]
        simp only [head₁]
        by_cases used : (w₁.ti.group i).head ≠ (w₁.ti.group i).tail
        · obtain ⟨spare', hooked, gcEpoch⟩ := rests₁.hookEmpties ends
          rw [if_pos used]
          exact ⟨_, count₁, _, spare', mine₁, rfl, hooked, gcEpoch.trans grown.gcEpoch⟩
        · rw [if_neg used]
          have empty := reset (not_not.mp used)
          have first : (emptied ++ [i]).head? = some ((empties.map Prod.fst).getD i) := by
            rw [List.head?_append, ends.1]
            cases emptied <;> rfl
          obtain ⟨new₁, eq, fresh₁⟩ := grown.added
          cases rest₁ with
          | nil =>
            have only : i = w₁.ti.limboTail := Option.some.inj rests₁.keeps.holds.last
            obtain ⟨spare', holds, pending, before, resetFirst⟩ := rests₁.keeps.holds.restart empty first
            rw [if_pos only]
            refine ⟨_, count₁, [_], spare', mine₁, rfl, ⟨⟨holds, ?_, rests₁.keeps.account⟩, ?_⟩, grown.gcEpoch⟩
            · exact pending.trans (before.symm.trans rests₁.keeps.pending)
            · intro k mem
              rw [List.mem_singleton.mp mem]
              exact .inl resetFirst
          | cons j rest₂ =>
            have further : i ≠ w₁.ti.limboTail := by
              intro same
              have member : w₁.ti.limboTail ∈ j :: rest₂ := List.mem_of_getLast? rests₁.keeps.holds.last
              rw [← same] at member
              exact rests₁.keeps.holds.first_not_mem (List.mem_append_left _ (List.mem_append_right _ member))
            obtain ⟨next, holds⟩ := rests₁.keeps.holds.next_group empty
            have pending : w₁.ti.pending 0 (j :: rest₂) = mine₁ := by
              refine Eq.trans ?_ rests₁.keeps.pending
              change _ = decode 0 (w₁.ti.group i).slots ++ w₁.ti.pending 0 (j :: rest₂)
              rw [LimboGroup.slots, empty.2, List.drop_nil]
              rfl
            have rests₂ : Rests env { w₁ with ti.limboHead := j } (emptied ++ [i]) (j :: rest₂) spare₁ mine₁ :=
              ⟨⟨holds, pending, rests₁.keeps.account⟩, fun k mem => rests₁.settled k (List.mem_cons_of_mem i mem)⟩
            have added : j :: rest₂ = old ++ (new ++ new₁) := by
              exact eq.trans (List.append_assoc old new new₁)
            rw [added] at rests₂
            rw [if_neg further, next, Option.bind_some]
            obtain ⟨w', count', live', spare', mine', ran, rests', gcEpoch⟩ := ih count₁ (some (_, i)) rests₂
              ⟨first.symm, List.getLast?_concat.symm⟩ (by
                intro k mem
                rcases List.mem_append.mp mem with mem | mem
                · exact (fresh k mem).extends (grown.kept k (List.mem_append_right _ mem))
                · exact fresh₁ k mem) (Nat.lt_of_succ_lt_succ enough)
            exact ⟨w', count', live', spare', mine', ran, rests', gcEpoch.trans grown.gcEpoch⟩

/-- A pass frees some objects that no thread holds, and keeps all others in limbo. -/
theorem hardRcuQuiesce_spec (rests : w.Rests env [] live spare mine)
    (recent : age env.globalepoch env.activeEpoch < 2 ^ 63) (calls : Nat → List Memtag) :
    ∃ w' live' spare' mine', w.hardRcuQuiesce env.globalepoch calls env.activeEpoch = some w' ∧
      w'.Rests env [] live' spare' mine' ∧ w'.ti.gcEpoch = w.ti.gcEpoch := by
  have member : w.ti.limboHead ∈ live := List.mem_of_mem_head? rests.keeps.holds.first
  unfold Work.hardRcuQuiesce
  simp only [Option.bind_eq_bind]
  split
  · exact ⟨_, live, spare, mine, rfl, rests.set_epochs w.ti.gcEpoch _, rfl⟩
  · rename_i used
    have inUse : (w.ti.group w.ti.limboHead).slots ≠ [] := by
      intro none_
      exact used ((LimboGroup.slots_eq_nil (rests.keeps.holds.valid _ member)).mp none_)
    obtain ⟨m, here⟩ := LimboGroup.firstEpoch_some (rests.settled _ member) inUse
    rw [here, Option.bind_some]
    split
    · exact ⟨_, live, spare, mine, rfl, rests.set_epochs w.ti.gcEpoch _, rfl⟩
    · have enough : live.length < w.ti.allocated + 1 := Nat.lt_succ_of_le rests.keeps.holds.length_le
      have all : w.Rests env [] (live ++ []) spare mine := by
        rwa [List.append_nil]
      obtain ⟨w', count', live', spare', mine', ran, rests', gcEpoch⟩ :=
        quiesceLoop_spec (w.ti.allocated + 1) rcuFreeCount none all ⟨rfl, rfl⟩ nofun enough recent calls
      rw [ran, Option.bind_some]
      exact ⟨_, live', spare', mine', rfl, rests'.set_epochs w'.ti.gcEpoch _, gcEpoch⟩

end Work

end Masstree.Rcu
