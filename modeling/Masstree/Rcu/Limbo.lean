import Mathlib.Data.BitVec
import Masstree.Lib.Linked

/-!
# Limbo groups

What a thread has registered waits in fixed-size groups, objects behind markers of their epoch.
-/

namespace Masstree.Rcu

/-- `mrcu_epoch_type` -/
abbrev Epoch := BitVec 64

abbrev Memtag := BitVec 32

def memtagPoolMask : Memtag := 0xFF

/-- `memtag(-1)` -/
def memtagCallback : Memtag := -1

def capacity : Nat := (4076 - 8 - 8) / 16

def rcuFreeCount : Nat := 128

/-- An object, or with a null pointer the marker of an epoch. -/
inductive LimboElement where
  | object (ptr : Nat) (tag : Memtag)
  | marker (epoch : Epoch)
  deriving DecidableEq

structure LimboGroup where
  head : Nat := 0
  /-- `e_`, up to `tail_` -/
  e : List LimboElement := []
  epoch : Epoch := 0
  next : Option Nat := none

namespace LimboGroup

def tail (g : LimboGroup) : Nat := g.e.length

/-- A slot of an object has no epoch. -/
def firstEpoch (g : LimboGroup) : Option Epoch :=
  match g.e[g.head]? with
  | some (.marker m) => some m
  | _ => none

/-- `none` where the assertion fails. -/
def pushBack (g : LimboGroup) (ptr : Nat) (tag : Memtag) (epoch : Epoch) : Option LimboGroup :=
  if g.tail + 2 ≤ capacity then
    let g := if g.head = g.tail ∨ g.epoch ≠ epoch then { g with e := g.e ++ [.marker epoch], epoch } else g
    some { g with e := g.e ++ [.object ptr tag] }
  else none

/-- `++head_` -/
def advance (g : LimboGroup) : LimboGroup := { g with head := g.head + 1 }

/-- The object in the first slot makes place for a marker. -/
def setMarker (g : LimboGroup) (epoch : Epoch) : LimboGroup := { g with e := g.e.set g.head (.marker epoch) }

/-- `head_ = tail_ = 0` -/
def reset (g : LimboGroup) : LimboGroup := { g with head := 0, e := [] }

def slots (g : LimboGroup) : List LimboElement := g.e.drop g.head

def objects (g : LimboGroup) : List Nat :=
  g.slots.filterMap fun x =>
    match x with
    | .object ptr _ => some ptr
    | .marker _ => none

end LimboGroup

/-- What happens to objects and threads. The n-th registration is of object n. -/
inductive Event where
  | registered (ptr : Nat)
  /-- freed, put back on its pool, or its callback run -/
  | freed (ptr : Nat)
  | start (thread : Nat)
  | stop (thread : Nat)
  | quiesce (thread : Nat)
  deriving DecidableEq

def registered (log : List Event) : List Nat :=
  log.filterMap fun ev =>
    match ev with
    | .registered ptr => some ptr
    | _ => none

def freed (log : List Event) : List Nat :=
  log.filterMap fun ev =>
    match ev with
    | .freed ptr => some ptr
    | _ => none

/-- A `threadinfo`. Its limbo groups are numbered as they are allocated. -/
structure Threadinfo where
  gcEpoch : Epoch := 0
  performGcEpoch : Epoch := 0
  group : Nat → LimboGroup := fun _ => {}
  allocated : Nat := 1
  limboHead : Nat := 0
  limboTail : Nat := 0
  /-- `pool_`, the free objects of each number of lines less one -/
  pool : Nat → List Nat := fun _ => []

namespace Threadinfo

def setGroup (ti : Threadinfo) (i : Nat) (g : LimboGroup) : Threadinfo :=
  { ti with group := Function.update ti.group i g }

def setNext (ti : Threadinfo) (i : Nat) (next : Option Nat) : Threadinfo :=
  ti.setGroup i { ti.group i with next }

/-- `limbo_tail_->next_ = new(limbo_space) limbo_group` -/
def newGroup (ti : Threadinfo) : Threadinfo :=
  { (ti.setGroup ti.allocated {}).setNext ti.limboTail (some ti.allocated) with allocated := ti.allocated + 1 }

def refillRcu (ti : Threadinfo) : Option Threadinfo :=
  let ti := if (ti.group ti.limboTail).next.isNone then ti.newGroup else ti
  (ti.group ti.limboTail).next.bind fun i =>
    if (ti.group i).head = 0 ∧ (ti.group i).tail = 0 then some { ti with limboTail := i } else none

def chain (ti : Threadinfo) : Nat → Nat → List Nat
  | 0, _ => []
  | fuel + 1, i =>
    if i = ti.limboTail then [i]
    else i :: (ti.group i).next.elim [] (ti.chain fuel)

def objects (ti : Threadinfo) : List Nat := (ti.chain ti.allocated ti.limboHead).flatMap fun i => (ti.group i).objects

def recordRcu (ti : Threadinfo) (globalepoch : Epoch) (ptr : Nat) (tag : Memtag) : Option Threadinfo := do
  let ti ← if capacity < (ti.group ti.limboTail).tail + 2 then ti.refillRcu else some ti
  let g ← (ti.group ti.limboTail).pushBack ptr tag globalepoch
  some (ti.setGroup ti.limboTail g)

end Threadinfo

/-- A thread at work, and what has happened so far. -/
structure Work where
  ti : Threadinfo
  log : List Event

namespace Work

variable (globalepoch : Epoch) (calls : Nat → List Memtag)

def register (w : Work) (tag : Memtag) : Option Work := do
  let ptr := (registered w.log).length
  let ti ← w.ti.recordRcu globalepoch ptr tag
  some ⟨ti, .registered ptr :: w.log⟩

/-- Object `ptr`, if it is a callback, registers objects with the tags `calls ptr`. -/
def freeRcu (w : Work) (ptr : Nat) (tag : Memtag) : Option Work :=
  let w := { w with log := .freed ptr :: w.log }
  if tag &&& memtagPoolMask = 0 then some w
  else if tag = memtagCallback then (calls ptr).foldlM (register globalepoch) w
  else
    let nl := (tag &&& memtagPoolMask).toNat
    some { w with ti.pool := Function.update w.ti.pool (nl - 1) (ptr :: w.ti.pool (nl - 1)) }

def setGroup (w : Work) (i : Nat) (g : LimboGroup) : Work := { w with ti := w.ti.setGroup i g }

/-- The loop of `clean_until` on group `i`. -/
def cleanLoop (bound : Epoch) (i : Nat) : Nat → Work → Epoch → Nat → Option (Work × Nat)
  | 0, _, _, _ => none
  | fuel + 1, w, epoch, count =>
    let g := w.ti.group i
    if g.head = g.tail then some (w, count)
    else
      g.e[g.head]?.bind fun x =>
        match x with
        | .object ptr tag =>
          (w.freeRcu globalepoch calls ptr tag).bind fun w =>
            let g := w.ti.group i
            if count - 1 = 0 then some (w.setGroup i (g.setMarker epoch), 0)
            else cleanLoop bound i fuel (w.setGroup i g.advance) epoch (count - 1)
        | .marker m =>
          if (bound - m).toInt < 0 then some (w, count)
          else cleanLoop bound i fuel (w.setGroup i g.advance) m count

/-- A pass of the loop takes one slot. -/
def cleanUntil (w : Work) (bound : Epoch) (i count : Nat) : Option (Work × Nat) :=
  (w.cleanLoop globalepoch calls bound i (capacity + 1) 0 count).map fun (w, count) =>
    let g := w.ti.group i
    if g.head = g.tail then (w.setGroup i g.reset, count) else (w, count)

/-- "hook empties after limbo_tail_" -/
def hookEmpties (w : Work) (empties : Option (Nat × Nat)) : Work :=
  match empties with
  | none => w
  | some (first, last) =>
    let ti := w.ti.setNext last (w.ti.group w.ti.limboTail).next
    { w with ti := ti.setNext ti.limboTail (some first) }

/-- "clean [limbo_head_, limbo_tail_]", with the first and the last group emptied. -/
def quiesceLoop (bound : Epoch) : Nat → Work → Option (Nat × Nat) → Nat → Option (Work × Nat)
  | 0, _, _, _ => none
  | fuel + 1, w, empties, count =>
    if count = 0 then some (w.hookEmpties empties, count)
    else
      (w.cleanUntil globalepoch calls bound w.ti.limboHead count).bind fun (w, count) =>
        let g := w.ti.group w.ti.limboHead
        if g.head ≠ g.tail then some (w.hookEmpties empties, count)
        else
          let first := (empties.map Prod.fst).getD w.ti.limboHead
          if w.ti.limboHead = w.ti.limboTail then
            some ({ w with ti.limboHead := first, ti.limboTail := first }, count)
          else
            g.next.bind fun next =>
              quiesceLoop bound fuel { w with ti.limboHead := next } (some (first, w.ti.limboHead)) count

/-- The loop visits a group at most once, and then one that was filled meanwhile. -/
def hardRcuQuiesce (w : Work) (activeEpoch : Epoch) : Option Work := do
  let bound := activeEpoch - 1
  let g := w.ti.group w.ti.limboHead
  let (w, count) ←
    if g.head = g.tail then some (w, rcuFreeCount)
    else
      g.firstEpoch.bind fun m =>
        if (bound - m).toInt < 0 then some (w, rcuFreeCount)
        else w.quiesceLoop globalepoch calls bound (w.ti.allocated + 1) none rcuFreeCount
  some { w with ti.performGcEpoch := if count = 0 then bound else bound + 1 }

end Work

/-! ### The objects of a group and their epochs -/

/-- Where `epoch` is in force before the first slot. -/
def decode (epoch : Epoch) : List LimboElement → List (Epoch × Nat)
  | [] => []
  | .object ptr _ :: rest => (epoch, ptr) :: decode epoch rest
  | .marker m :: rest => decode m rest

def lastEpoch (epoch : Epoch) : List LimboElement → Epoch
  | [] => epoch
  | .object _ _ :: rest => lastEpoch epoch rest
  | .marker m :: rest => lastEpoch m rest

theorem decode_append (epoch : Epoch) (front back : List LimboElement) :
    decode epoch (front ++ back) = decode epoch front ++ decode (lastEpoch epoch front) back := by
  induction front generalizing epoch with
  | nil => rfl
  | cons x front ih =>
    cases x with
    | object ptr tag => exact congrArg (List.cons (epoch, ptr)) (ih epoch)
    | marker m => exact ih m

theorem lastEpoch_append (epoch : Epoch) (front back : List LimboElement) :
    lastEpoch epoch (front ++ back) = lastEpoch (lastEpoch epoch front) back := by
  induction front generalizing epoch with
  | nil => rfl
  | cons x front ih =>
    cases x with
    | object ptr tag => exact ih epoch
    | marker m => exact ih m

namespace LimboGroup

variable {g g' : LimboGroup} {epoch globalepoch : Epoch}

theorem objects_eq (g : LimboGroup) (epoch : Epoch) : g.objects = (decode epoch g.slots).map Prod.snd := by
  unfold objects
  induction g.slots generalizing epoch with
  | nil => rfl
  | cons x slots ih =>
    cases x with
    | object ptr tag => exact congrArg (List.cons ptr) (ih epoch)
    | marker m => exact ih m

/-- Where `epoch` is in force at `head_`. -/
structure Valid (g : LimboGroup) (epoch : Epoch) : Prop where
  head_le : g.head ≤ g.tail
  tail_le : g.tail ≤ capacity
  last : g.slots ≠ [] → lastEpoch epoch g.slots = g.epoch

/-- The group is reset, or its first slot is a marker. -/
def Settled (g : LimboGroup) : Prop := g.e = [] ∨ ∃ m rest, g.slots = .marker m :: rest

/-- The group was empty when the epoch was `globalepoch`. -/
def Fresh (g : LimboGroup) (globalepoch : Epoch) : Prop := g.head = 0 ∧ ∃ rest, g.e = .marker globalepoch :: rest

def Extends (g g' : LimboGroup) : Prop := g'.head = g.head ∧ ∃ more, g'.e = g.e ++ more

theorem Extends.refl (g : LimboGroup) : g.Extends g := ⟨rfl, [], (List.append_nil _).symm⟩

theorem Extends.trans {g'' : LimboGroup} (first : g.Extends g') (second : g'.Extends g'') : g.Extends g'' := by
  obtain ⟨head, more, e⟩ := first
  obtain ⟨head', more', e'⟩ := second
  exact ⟨head'.trans head, more ++ more', by rw [e', e, List.append_assoc]⟩

theorem Fresh.extends (fresh : g.Fresh globalepoch) (ext : g.Extends g') : g'.Fresh globalepoch := by
  obtain ⟨head, rest, e⟩ := fresh
  obtain ⟨head', more, e'⟩ := ext
  exact ⟨head'.trans head, rest ++ more, by rw [e', e, List.cons_append]⟩

/-- Only the next pointer differs. -/
def Same (g g' : LimboGroup) : Prop := g'.head = g.head ∧ g'.e = g.e ∧ g'.epoch = g.epoch

theorem Same.slots (same : g.Same g') : g'.slots = g.slots := by
  rw [LimboGroup.slots, same.1, same.2.1]
  rfl

theorem Same.valid (same : g.Same g') (valid : g.Valid epoch) : g'.Valid epoch := by
  obtain ⟨head, e, current⟩ := same
  refine ⟨?_, ?_, ?_⟩
  · rw [tail, head, e]
    exact valid.head_le
  · rw [tail, e]
    exact valid.tail_le
  · rw [Same.slots ⟨head, e, current⟩, current]
    exact valid.last

theorem Same.settled (same : g.Same g') (settled : g.Settled) : g'.Settled := by
  rw [Settled, same.slots, same.2.1]
  exact settled

theorem Same.extends (same : g.Same g') : g.Extends g' := ⟨same.1, [], by rw [same.2.1, List.append_nil]⟩

theorem slots_eq_nil (valid : g.Valid epoch) : g.slots = [] ↔ g.head = g.tail := by
  have inside := valid.head_le
  unfold slots tail at *
  rw [List.drop_eq_nil_iff]
  omega

theorem Settled.of_valid (settled : g.Settled) (valid : g.Valid epoch) (epoch' : Epoch) : g.Valid epoch' := by
  refine ⟨valid.head_le, valid.tail_le, ?_⟩
  intro used
  rcases settled with reset | ⟨m, rest, first⟩
  · exact absurd (by rw [slots, reset, List.drop_nil]) used
  · have last := valid.last used
    rw [first] at last ⊢
    exact last

theorem Settled.decode_eq (settled : g.Settled) (epoch epoch' : Epoch) : decode epoch g.slots = decode epoch' g.slots := by
  rcases settled with reset | ⟨m, rest, first⟩
  · rw [slots, reset, List.drop_nil]
    rfl
  · rw [first]
    rfl

theorem Extends.slots (ext : g.Extends g') (valid : g.Valid epoch) : ∃ more, g'.slots = g.slots ++ more := by
  obtain ⟨head, more, e⟩ := ext
  refine ⟨more, ?_⟩
  rw [LimboGroup.slots, head, e, List.drop_append_of_le_length valid.head_le]
  rfl

theorem slots_cons {x : LimboElement} (here : g.e[g.head]? = some x) :
    g.slots = x :: g.advance.slots := by
  obtain ⟨inside, rfl⟩ := List.getElem?_eq_some_iff.mp here
  exact List.drop_eq_getElem_cons inside

theorem firstEpoch_some (settled : g.Settled) (used : g.slots ≠ []) : ∃ m, g.firstEpoch = some m := by
  rcases settled with reset | ⟨m, rest, first⟩
  · exact absurd (by rw [slots, reset, List.drop_nil]) used
  · have here : g.e[g.head]? = some (.marker m) := by
      rw [← List.head?_drop]
      exact congrArg List.head? first
    exact ⟨m, by rw [firstEpoch, here]⟩

/-- The first slot is passed. -/
theorem Valid.advance (valid : g.Valid epoch) {x : LimboElement} (here : g.e[g.head]? = some x) :
    g.advance.Valid (lastEpoch epoch [x]) := by
  obtain ⟨inside, -⟩ := List.getElem?_eq_some_iff.mp here
  refine ⟨inside, valid.tail_le, ?_⟩
  intro _
  have last := valid.last (by rw [slots_cons here]; nofun)
  rwa [slots_cons here, ← List.singleton_append, lastEpoch_append] at last

/-- A marker takes the place of the object in the first slot. -/
theorem Valid.set_marker (valid : g.Valid epoch) {ptr : Nat} {tag : Memtag} (here : g.e[g.head]? = some (.object ptr tag)) :
    (g.setMarker epoch).Valid epoch ∧
      (g.setMarker epoch).slots =
        .marker epoch :: g.advance.slots := by
  obtain ⟨inside, -⟩ := List.getElem?_eq_some_iff.mp here
  have slots : (g.setMarker epoch).slots =
      .marker epoch :: g.advance.slots := by
    change (g.e.set g.head _).drop g.head = _ :: g.e.drop (g.head + 1)
    rw [List.drop_eq_getElem_cons (by rwa [List.length_set]), List.getElem_set_self,
      List.drop_set_of_lt (Nat.lt_succ_self _)]
  have length : (g.setMarker epoch).tail = g.tail := List.length_set
  refine ⟨⟨?_, ?_, ?_⟩, slots⟩
  · rw [length]
    exact valid.head_le
  · rw [length]
    exact valid.tail_le
  · intro _
    have last := valid.last (by rw [slots_cons here]; nofun)
    rw [slots_cons here] at last
    rw [slots]
    exact last

/-- The new object is last, with the epoch of its registration. -/
theorem pushBack_spec (valid : g.Valid epoch) (room : g.tail + 2 ≤ capacity) (ptr : Nat) (tag : Memtag)
    (globalepoch : Epoch) :
    ∃ g', g.pushBack ptr tag globalepoch = some g' ∧ g.Extends g' ∧ g'.next = g.next ∧ g'.Valid epoch ∧
      decode epoch g'.slots = decode epoch g.slots ++ [(globalepoch, ptr)] ∧ (g.Settled → g'.Settled) ∧
      (g.head = 0 → g.e = [] → g'.Fresh globalepoch) := by
  have inside := valid.head_le
  unfold tail at inside room
  unfold pushBack
  rw [if_pos (show g.tail + 2 ≤ capacity from room)]
  refine ⟨_, rfl, ?_⟩
  split
  · have slots : ({ g with e := (g.e ++ [.marker globalepoch]) ++ [.object ptr tag], epoch := globalepoch } : LimboGroup).slots =
        g.slots ++ [.marker globalepoch, .object ptr tag] := by
      rw [LimboGroup.slots, List.append_assoc, List.drop_append_of_le_length inside]
      rfl
    refine ⟨⟨rfl, _, List.append_assoc _ _ _⟩, rfl, ⟨?_, ?_, ?_⟩, ?_, ?_, ?_⟩
    · simp only [tail, List.length_append, List.length_singleton]
      omega
    · simp only [tail, List.length_append, List.length_singleton]
      omega
    · intro _
      rw [slots, lastEpoch_append]
      rfl
    · rw [slots, decode_append]
      rfl
    · intro settled
      right
      rw [slots]
      rcases settled with reset | ⟨m, rest, first⟩
      · exact ⟨globalepoch, [.object ptr tag], by rw [LimboGroup.slots, reset, List.drop_nil]; rfl⟩
      · exact ⟨m, _, by rw [first]; rfl⟩
    · intro start reset
      exact ⟨start, [.object ptr tag], by rw [reset]; rfl⟩
  · rename_i same
    have used : g.slots ≠ [] := by
      intro empty
      exact same (.inl ((slots_eq_nil valid).mp empty))
    have current : lastEpoch epoch g.slots = globalepoch := by
      rw [valid.last used]
      by_contra different
      exact same (.inr different)
    have slots : ({ g with e := g.e ++ [.object ptr tag] } : LimboGroup).slots = g.slots ++ [.object ptr tag] := by
      rw [LimboGroup.slots, List.drop_append_of_le_length inside]
      rfl
    refine ⟨⟨rfl, _, rfl⟩, rfl, ⟨?_, ?_, ?_⟩, ?_, ?_, ?_⟩
    · simp only [tail, List.length_append, List.length_singleton]
      omega
    · simp only [tail, List.length_append, List.length_singleton]
      omega
    · intro _
      rw [slots, lastEpoch_append]
      exact valid.last used
    · rw [slots, decode_append, current]
      rfl
    · intro settled
      rcases settled with reset | ⟨m, rest, first⟩
      · exact absurd (by rw [LimboGroup.slots, reset, List.drop_nil]) used
      · exact .inr ⟨m, _, by rw [slots, first]; rfl⟩
    · intro _ reset
      exact absurd (by rw [LimboGroup.slots, reset, List.drop_nil]) used

end LimboGroup

namespace Threadinfo

/-- The chain is the groups emptied in this pass, those in use, and the spare ones. -/
structure Holds (ti : Threadinfo) (epoch : Epoch) (emptied live spare : List Nat) : Prop where
  linked : Linked (fun i => (ti.group i).next) (emptied ++ live ++ spare) none
  nodup : (emptied ++ live ++ spare).Nodup
  below : ∀ i ∈ emptied ++ live ++ spare, i < ti.allocated
  first : live.head? = some ti.limboHead
  last : live.getLast? = some ti.limboTail
  valid : ∀ i ∈ live, (ti.group i).Valid epoch
  later : ∀ i ∈ live.tail, (ti.group i).Settled
  empty : ∀ i ∈ emptied ++ spare, (ti.group i).head = 0 ∧ (ti.group i).e = []

def pending (ti : Threadinfo) (epoch : Epoch) (live : List Nat) : List (Epoch × Nat) :=
  live.flatMap fun i => decode epoch (ti.group i).slots

variable {ti ti' : Threadinfo} {epoch globalepoch : Epoch} {emptied live live' spare spare' : List Nat}

@[simp] theorem setGroup_self (ti : Threadinfo) (i : Nat) (g : LimboGroup) : (ti.setGroup i g).group i = g := by
  simp only [setGroup, Function.update_self]

theorem setGroup_other (ti : Threadinfo) {i j : Nat} (different : j ≠ i) (g : LimboGroup) :
    (ti.setGroup i g).group j = ti.group j := by
  simp only [setGroup, Function.update_of_ne different]

theorem newGroup_group (different : ti.limboTail ≠ ti.allocated) (j : Nat) :
    ti.newGroup.group j =
      if j = ti.limboTail then { ti.group ti.limboTail with next := some ti.allocated }
      else if j = ti.allocated then {} else ti.group j := by
  change ((ti.setGroup ti.allocated {}).setNext ti.limboTail (some ti.allocated)).group j = _
  by_cases last : j = ti.limboTail
  · rw [if_pos last, last, setNext, setGroup_self, setGroup_other _ different]
  · rw [if_neg last, setNext, setGroup_other _ last]
    by_cases new : j = ti.allocated
    · rw [if_pos new, new, setGroup_self]
    · rw [if_neg new, setGroup_other _ new]

theorem pending_congr (same : ∀ i ∈ live, (ti'.group i).slots = (ti.group i).slots) :
    ti'.pending epoch live = ti.pending epoch live := by
  refine List.flatMap_congr ?_
  intro i mem
  rw [same i mem]

theorem pending_append (ti : Threadinfo) (epoch : Epoch) (front back : List Nat) :
    ti.pending epoch (front ++ back) = ti.pending epoch front ++ ti.pending epoch back :=
  List.flatMap_append

theorem Holds.split_last (holds : ti.Holds epoch emptied live spare) :
    ∃ front, live = front ++ [ti.limboTail] ∧ ti.limboTail ∉ front ∧ ti.limboTail ∉ emptied ++ spare := by
  obtain ⟨front, eq⟩ := List.getLast?_eq_some_iff.mp holds.last
  have nodup := holds.nodup
  rw [eq, ← List.append_assoc, List.append_assoc _ _ spare] at nodup
  have apart := (List.nodup_cons.mp (List.nodup_middle.mp nodup)).1
  simp only [List.mem_append, not_or] at apart ⊢
  exact ⟨front, eq, apart.1.2, apart.1.1, apart.2⟩

/-- What the last group points to. -/
theorem Holds.next_last (holds : ti.Holds epoch emptied live spare) : (ti.group ti.limboTail).next = spare.head? := by
  obtain ⟨front, eq, -⟩ := holds.split_last
  have linked := holds.linked
  rw [eq, ← List.append_assoc, List.append_assoc _ _ spare] at linked
  exact (Linked.append_iff.mp linked).2.1.trans (Option.or_none)

/-- Putting another group in the place of the last one. -/
theorem Holds.set_last (holds : ti.Holds epoch emptied live spare) {g : LimboGroup}
    (next : g.next = (ti.group ti.limboTail).next) (valid : g.Valid epoch)
    (settled : (ti.group ti.limboTail).Settled → g.Settled) :
    (ti.setGroup ti.limboTail g).Holds epoch emptied live spare := by
  obtain ⟨front, eq, -, apart⟩ := holds.split_last
  refine ⟨?_, holds.nodup, holds.below, holds.first, holds.last, ?_, ?_, ?_⟩
  · refine holds.linked.congr ?_
    intro i _
    by_cases same : i = ti.limboTail
    · rw [same, setGroup_self, next]
    · rw [setGroup_other _ same]
  · intro i mem
    by_cases same : i = ti.limboTail
    · rwa [same, setGroup_self]
    · rw [setGroup_other _ same]
      exact holds.valid i mem
  · intro i mem
    by_cases same : i = ti.limboTail
    · rw [same] at mem ⊢
      rw [setGroup_self]
      exact settled (holds.later _ mem)
    · rw [setGroup_other _ same]
      exact holds.later i mem
  · intro i mem
    have different : i ≠ ti.limboTail := by
      rintro rfl
      exact apart mem
    rw [setGroup_other _ different]
    exact holds.empty i mem

theorem Holds.pending_set_last (holds : ti.Holds epoch emptied live spare) {g : LimboGroup} {more : List (Epoch × Nat)}
    (added : decode epoch g.slots = decode epoch (ti.group ti.limboTail).slots ++ more) :
    (ti.setGroup ti.limboTail g).pending epoch live = ti.pending epoch live ++ more := by
  obtain ⟨front, eq, other, -⟩ := holds.split_last
  have kept : (ti.setGroup ti.limboTail g).pending epoch front = ti.pending epoch front := by
    apply pending_congr
    intro i mem
    have different : i ≠ ti.limboTail := by
      rintro rfl
      exact other mem
    rw [setGroup_other _ different]
  have single (ti : Threadinfo) (i : Nat) : ti.pending epoch [i] = decode epoch (ti.group i).slots :=
    List.flatMap_singleton _ _
  rw [eq, pending_append, pending_append, kept, single, single, setGroup_self, added, List.append_assoc]

theorem Holds.first_not_mem {i : Nat} {rest : List Nat} (holds : ti.Holds epoch emptied (i :: rest) spare) :
    i ∉ emptied ++ rest ++ spare := by
  have nodup := holds.nodup
  rw [List.append_assoc, List.cons_append] at nodup
  rw [List.append_assoc]
  exact (List.nodup_cons.mp (List.nodup_middle.mp nodup)).1

/-- The epoch in force at the first group is of no matter to the others. -/
theorem Holds.pending_later {i : Nat} {rest : List Nat} (holds : ti.Holds epoch emptied (i :: rest) spare)
    (epoch' : Epoch) : ti.pending epoch' rest = ti.pending epoch rest := by
  refine List.flatMap_congr ?_
  intro j mem
  exact (holds.later j mem).decode_eq epoch' epoch

/-- Putting another group in the place of the first one. -/
theorem Holds.set_first {i : Nat} {rest : List Nat} (holds : ti.Holds epoch emptied (i :: rest) spare) {g : LimboGroup}
    (next : g.next = (ti.group i).next) {epoch' : Epoch} (valid : g.Valid epoch') :
    (ti.setGroup i g).Holds epoch' emptied (i :: rest) spare ∧
      (ti.setGroup i g).pending epoch' (i :: rest) = decode epoch' g.slots ++ ti.pending epoch rest := by
  have absent := holds.first_not_mem
  have other {cells : List Nat} (sub : ∀ j ∈ cells, j ∈ emptied ++ rest ++ spare) {j : Nat} (mem : j ∈ cells) : j ≠ i := by
    rintro rfl
    exact absent (sub j mem)
  have later : ∀ j ∈ rest, j ∈ emptied ++ rest ++ spare := by
    intro j mem
    simp [mem]
  refine ⟨⟨?_, holds.nodup, holds.below, holds.first, holds.last, ?_, ?_, ?_⟩, ?_⟩
  · refine holds.linked.congr ?_
    intro j _
    by_cases same : j = i
    · rw [same, setGroup_self, next]
    · rw [setGroup_other _ same]
  · intro j mem
    rcases List.mem_cons.mp mem with same | mem
    · rwa [same, setGroup_self]
    · rw [setGroup_other _ (other later mem)]
      exact (holds.later j mem).of_valid (holds.valid j (List.mem_cons_of_mem i mem)) epoch'
  · intro j mem
    rw [setGroup_other _ (other later mem)]
    exact holds.later j mem
  · intro j mem
    have sub : ∀ k ∈ emptied ++ spare, k ∈ emptied ++ rest ++ spare := by
      intro k mem
      rcases List.mem_append.mp mem with mem | mem <;> simp [mem]
    have different : j ≠ i := other sub mem
    rw [setGroup_other _ different]
    exact holds.empty j mem
  · change decode epoch' ((ti.setGroup i g).group i).slots ++ (ti.setGroup i g).pending epoch' rest = _
    have kept : (ti.setGroup i g).pending epoch' rest = ti.pending epoch' rest := by
      apply pending_congr
      intro j mem
      rw [setGroup_other _ (other later mem)]
    rw [setGroup_self, kept, holds.pending_later epoch']

/-- Some groups were added, and elements at the end of others. -/
structure Grown (globalepoch : Epoch) (ti : Threadinfo) (live : List Nat) (ti' : Threadinfo) (live' : List Nat) : Prop where
  added : ∃ new, live' = live ++ new ∧ ∀ i ∈ new, (ti'.group i).Fresh globalepoch
  kept : ∀ i ∈ live, (ti.group i).Extends (ti'.group i)
  gcEpoch : ti'.gcEpoch = ti.gcEpoch
  limboHead : ti'.limboHead = ti.limboHead

theorem Grown.refl (globalepoch : Epoch) (ti : Threadinfo) (live : List Nat) : Grown globalepoch ti live ti live :=
  ⟨⟨[], (List.append_nil _).symm, nofun⟩, fun _ _ => .refl _, rfl, rfl⟩

theorem Grown.trans {ti'' : Threadinfo} {live'' : List Nat} (first : Grown globalepoch ti live ti' live')
    (second : Grown globalepoch ti' live' ti'' live'') : Grown globalepoch ti live ti'' live'' := by
  obtain ⟨new, eq, fresh⟩ := first.added
  obtain ⟨new', eq', fresh'⟩ := second.added
  refine ⟨⟨new ++ new', by rw [eq', eq, List.append_assoc], ?_⟩, ?_, second.gcEpoch.trans first.gcEpoch,
    second.limboHead.trans first.limboHead⟩
  · intro i mem
    rcases List.mem_append.mp mem with mem | mem
    · exact (fresh i mem).extends (second.kept i (by rw [eq]; exact List.mem_append_right _ mem))
    · exact fresh' i mem
  · intro i mem
    exact (first.kept i mem).trans (second.kept i (by rw [eq]; exact List.mem_append_left _ mem))

/-- A new last group. -/
theorem Holds.append_live (holds : ti.Holds epoch emptied live spare) (ti' : Threadinfo) (i : Nat) (spare' : List Nat)
    (linked : Linked (fun j => (ti'.group j).next) (emptied ++ (live ++ [i]) ++ spare') none)
    (nodup : (emptied ++ (live ++ [i]) ++ spare').Nodup)
    (below : ∀ j ∈ emptied ++ (live ++ [i]) ++ spare', j < ti'.allocated)
    (limboHead : ti'.limboHead = ti.limboHead) (limboTail : ti'.limboTail = i)
    (same : ∀ j, j ≠ i → (ti.group j).Same (ti'.group j))
    (reset : (ti'.group i).head = 0 ∧ (ti'.group i).e = [])
    (spares : ∀ j ∈ spare', j ≠ i → j ∈ spare) :
    ti'.Holds epoch emptied (live ++ [i]) spare' ∧ ti'.pending epoch (live ++ [i]) = ti.pending epoch live := by
  have apart := (List.nodup_cons.mp (List.nodup_middle.mp
    (show (emptied ++ live ++ i :: spare').Nodup by simpa only [List.append_assoc, List.singleton_append] using nodup))).1
  simp only [List.mem_append, not_or] at apart
  have other {cells : List Nat} (absent : i ∉ cells) {j : Nat} (mem : j ∈ cells) : j ≠ i := by
    rintro rfl
    exact absent mem
  have slots_nil : (ti'.group i).slots = [] := by
    rw [LimboGroup.slots, reset.2, List.drop_nil]
  refine ⟨⟨linked, nodup, below, ?_, ?_, ?_, ?_, ?_⟩, ?_⟩
  · rw [List.head?_append, holds.first, limboHead]
    rfl
  · rw [limboTail, List.getLast?_concat]
  · intro j mem
    rcases List.mem_append.mp mem with mem | mem
    · exact (same j (other apart.1.2 mem)).valid (holds.valid j mem)
    · rw [List.mem_singleton.mp mem]
      exact ⟨by rw [reset.1]; exact Nat.zero_le _, by rw [LimboGroup.tail, reset.2]; exact Nat.zero_le _,
        fun used => absurd slots_nil used⟩
  · intro j mem
    by_cases new : j = i
    · rw [new]
      exact .inl reset.2
    · apply (same j new).settled
      apply holds.later
      cases live with
      | nil => cases holds.first
      | cons k rest =>
        rcases List.mem_append.mp mem with mem | mem
        · exact mem
        · exact absurd (List.mem_singleton.mp mem) new
  · intro j mem
    rcases List.mem_append.mp mem with mem | mem
    · obtain ⟨head, e, -⟩ := same j (other apart.1.1 mem)
      rw [head, e]
      exact holds.empty j (List.mem_append_left _ mem)
    · have different : j ≠ i := other apart.2 mem
      obtain ⟨head, e, -⟩ := same j different
      rw [head, e]
      exact holds.empty j (List.mem_append_right _ (spares j mem different))
  · rw [pending_append, pending_congr fun j mem => (same j (other apart.1.2 mem)).slots]
    have none_ : ti'.pending epoch [i] = [] := by
      rw [pending, List.flatMap_singleton, slots_nil]
      rfl
    rw [none_, List.append_nil]

/-- The thread goes on to a spare group, or a new one, which is empty. -/
theorem refillRcu_spec (holds : ti.Holds epoch emptied live spare) :
    ∃ ti' spare', ti.refillRcu = some ti' ∧ ti'.Holds epoch emptied (live ++ [ti'.limboTail]) spare' ∧
      ti'.pending epoch (live ++ [ti'.limboTail]) = ti.pending epoch live ∧
      (ti'.group ti'.limboTail).head = 0 ∧ (ti'.group ti'.limboTail).e = [] ∧
      (∀ i ∈ live, (ti.group i).Same (ti'.group i)) ∧ ti'.gcEpoch = ti.gcEpoch ∧ ti'.limboHead = ti.limboHead := by
  obtain ⟨front, eq, other, apart⟩ := holds.split_last
  cases spare with
  | nil =>
    -- a group is allocated
    have next : (ti.group ti.limboTail).next = none := holds.next_last
    have fresh : ∀ i ∈ emptied ++ live, i ≠ ti.allocated := by
      intro i mem
      have below := holds.below i (List.mem_append_left _ mem)
      omega
    have inside : ti.limboTail ∈ emptied ++ live := by
      rw [eq]
      simp
    have different : ti.limboTail ≠ ti.allocated := fresh _ inside
    have absent : ti.allocated ∉ emptied ++ live := fun mem => fresh _ mem rfl
    have groups := newGroup_group different
    let ti' : Threadinfo := { ti.newGroup with limboTail := ti.allocated }
    have new : ti'.group ti.allocated = {} := by
      refine (groups ti.allocated).trans ?_
      rw [if_neg different.symm, if_pos rfl]
    have same (j : Nat) (old : j ≠ ti.allocated) : (ti.group j).Same (ti'.group j) := by
      rw [show ti'.group j = _ from groups j, if_neg old]
      split
      · rename_i last
        rw [last]
        exact ⟨rfl, rfl, rfl⟩
      · exact ⟨rfl, rfl, rfl⟩
    have refilled : ti.refillRcu = some ti' := by
      have next' : (ti.newGroup.group ti.newGroup.limboTail).next = some ti.allocated := by
        rw [show ti.newGroup.group ti.newGroup.limboTail = _ from groups ti.limboTail, if_pos rfl]
      have empty : (ti.newGroup.group ti.allocated).head = 0 ∧ (ti.newGroup.group ti.allocated).tail = 0 := by
        rw [show ti.newGroup.group ti.allocated = _ from new]
        exact ⟨rfl, rfl⟩
      rw [refillRcu, next]
      simp only [Option.isNone_none, if_true, next', Option.bind_some, if_pos empty, ti']
    have cells : emptied ++ (live ++ [ti.allocated]) ++ [] = emptied ++ live ++ [ti.allocated] := by
      rw [List.append_nil, List.append_assoc]
    have nodup : (emptied ++ live ++ [ti.allocated]).Nodup := by
      rw [List.nodup_append_comm, List.singleton_append, List.nodup_cons]
      exact ⟨absent, by simpa only [List.append_nil] using holds.nodup⟩
    have chain : Linked (fun j => (ti'.group j).next) (emptied ++ live ++ [ti.allocated]) none := by
      have before := holds.linked
      rw [List.append_nil, eq, ← List.append_assoc] at before
      rw [eq, ← List.append_assoc emptied]
      have clear : ti.limboTail ∉ emptied ++ front := by
        rw [List.mem_append, not_or]
        rw [List.append_nil] at apart
        exact ⟨apart, other⟩
      refine Linked.append_iff.mpr ⟨?_, congrArg LimboGroup.next new, trivial⟩
      refine (before.update_last clear (some ti.allocated)).congr ?_
      intro j mem
      have old : j ≠ ti.allocated := fresh j (by rw [eq, ← List.append_assoc]; exact mem)
      rw [show ti'.group j = _ from groups j, if_neg old]
      by_cases last : j = ti.limboTail
      · rw [if_pos last, last, Function.update_self]
      · rw [if_neg last, Function.update_of_ne last]
    obtain ⟨holds', pending⟩ := holds.append_live ti' ti.allocated []
      (by rw [cells]; exact chain) (by rw [cells]; exact nodup)
      (by
        intro j mem
        rw [cells] at mem
        rcases List.mem_append.mp mem with mem | mem
        · have below := holds.below j (List.mem_append_left _ mem)
          exact Nat.lt_succ_of_lt below
        · rw [List.mem_singleton.mp mem]
          exact Nat.lt_succ_self _)
      rfl rfl same (by rw [new]; exact ⟨rfl, rfl⟩) nofun
    refine ⟨ti', [], refilled, holds', pending, by rw [new], by rw [new], ?_, rfl, rfl⟩
    intro i mem
    exact same i (fresh i (List.mem_append_right _ mem))
  | cons n spare =>
    have next : (ti.group ti.limboTail).next = some n := holds.next_last
    have reset := holds.empty n (List.mem_append_right _ List.mem_cons_self)
    have refilled : ti.refillRcu = some { ti with limboTail := n } := by
      simp only [refillRcu, next, Option.isNone_some, Bool.false_eq_true, if_false, Option.bind_some]
      rw [if_pos ⟨reset.1, by rw [LimboGroup.tail, reset.2]; rfl⟩]
    have cells : emptied ++ (live ++ [n]) ++ spare = emptied ++ live ++ n :: spare := by
      simp only [List.append_assoc, List.singleton_append]
    obtain ⟨holds', pending⟩ := holds.append_live { ti with limboTail := n } n spare
      (by rw [cells]; exact holds.linked) (by rw [cells]; exact holds.nodup) (by rw [cells]; exact holds.below)
      rfl rfl (fun j _ => ⟨rfl, rfl, rfl⟩) reset (fun j mem _ => List.mem_cons_of_mem n mem)
    exact ⟨_, spare, refilled, holds', pending, reset.1, reset.2, fun i _ => ⟨rfl, rfl, rfl⟩, rfl, rfl⟩

/-- A registered object is in limbo, with the epoch. -/
theorem recordRcu_spec (holds : ti.Holds epoch emptied live spare) (globalepoch : Epoch) (ptr : Nat) (tag : Memtag) :
    ∃ ti' live' spare', ti.recordRcu globalepoch ptr tag = some ti' ∧ ti'.Holds epoch emptied live' spare' ∧
      ti'.pending epoch live' = ti.pending epoch live ++ [(globalepoch, ptr)] ∧ Grown globalepoch ti live ti' live' ∧
      ((∀ i ∈ live, (ti.group i).Settled) → ∀ i ∈ live', (ti'.group i).Settled) := by
  unfold recordRcu
  by_cases full : capacity < (ti.group ti.limboTail).tail + 2
  · rw [if_pos full]
    obtain ⟨ti₁, spare₁, refilled, holds₁, pending₁, head, e, kept, gcEpoch, limboHead⟩ := refillRcu_spec holds
    obtain ⟨front, eq, other, -⟩ := holds₁.split_last
    have same : front = live := (List.append_cancel_right eq).symm
    have valid := holds₁.valid ti₁.limboTail (by simp)
    obtain ⟨g, pushed, ext, next, valid', added, settled, fresh⟩ := LimboGroup.pushBack_spec valid
      (by rw [LimboGroup.tail, e]; decide) ptr tag globalepoch
    refine ⟨_, _, spare₁, ?_, holds₁.set_last next valid' settled, ?_, ?_⟩
    · rw [refilled]
      exact congrArg (Option.bind · fun g => some (ti₁.setGroup ti₁.limboTail g)) pushed
    · rw [holds₁.pending_set_last added, pending₁]
    · have different {i : Nat} (mem : i ∈ live) : i ≠ ti₁.limboTail := by
        rintro rfl
        exact other (by rw [same]; exact mem)
      refine ⟨⟨⟨[ti₁.limboTail], rfl, ?_⟩, ?_, gcEpoch, limboHead⟩, ?_⟩
      · intro i mem
        rw [List.mem_singleton.mp mem, setGroup_self]
        exact fresh head e
      · intro i mem
        rw [setGroup_other _ (different mem)]
        exact (kept i mem).extends
      · intro all i mem
        rcases List.mem_append.mp mem with mem | mem
        · rw [setGroup_other _ (different mem)]
          exact (kept i mem).settled (all i mem)
        · rw [List.mem_singleton.mp mem, setGroup_self]
          exact settled (.inl e)
  · rw [if_neg full]
    obtain ⟨front, eq, other, -⟩ := holds.split_last
    have valid := holds.valid ti.limboTail (by rw [eq]; simp)
    obtain ⟨g, pushed, ext, next, valid', added, settled, -⟩ := LimboGroup.pushBack_spec valid
      (Nat.le_of_not_lt full) ptr tag globalepoch
    refine ⟨_, live, spare, ?_, holds.set_last next valid' settled, holds.pending_set_last added, ?_⟩
    · exact congrArg (Option.bind · fun g => some (ti.setGroup ti.limboTail g)) pushed
    · refine ⟨⟨⟨[], (List.append_nil _).symm, nofun⟩, ?_, rfl, rfl⟩, ?_⟩
      · intro i mem
        by_cases last : i = ti.limboTail
        · rw [last, setGroup_self]
          exact ext
        · rw [setGroup_other _ last]
          exact .refl _
      · intro all i mem
        by_cases last : i = ti.limboTail
        · rw [last, setGroup_self]
          exact settled (all _ (last ▸ mem))
        · rw [setGroup_other _ last]
          exact all i mem

theorem setNext_next (ti : Threadinfo) (i : Nat) (next : Option Nat) :
    (fun j => ((ti.setNext i next).group j).next) = Function.update (fun j => (ti.group j).next) i next := by
  funext j
  by_cases same : j = i
  · rw [same, Function.update_self, setNext, setGroup_self]
  · rw [Function.update_of_ne same, setNext, setGroup_other _ same]

theorem setNext_same (ti : Threadinfo) (i j : Nat) (next : Option Nat) : (ti.group j).Same ((ti.setNext i next).group j) := by
  by_cases same : j = i
  · rw [same, setNext, setGroup_self]
    exact ⟨rfl, rfl, rfl⟩
  · rw [setNext, setGroup_other _ same]
    exact ⟨rfl, rfl, rfl⟩

theorem pending_setNext (ti : Threadinfo) (i : Nat) (next : Option Nat) (epoch : Epoch) (live : List Nat) :
    (ti.setNext i next).pending epoch live = ti.pending epoch live :=
  pending_congr fun j _ => (setNext_same ti i j next).slots

/-- The emptied groups are spare again. -/
theorem Holds.hook (holds : ti.Holds epoch emptied live spare) {first last : Nat} (head : emptied.head? = some first)
    (tail : emptied.getLast? = some last) :
    ((ti.setNext last (ti.group ti.limboTail).next).setNext ti.limboTail (some first)).Holds epoch [] live (emptied ++ spare) := by
  obtain ⟨front, liveEq, other, apart⟩ := holds.split_last
  obtain ⟨before, emptiedEq⟩ := List.getLast?_eq_some_iff.mp tail
  have cells := holds.nodup
  rw [emptiedEq] at cells
  have lastApart : last ∉ before ∧ last ∉ live ∧ last ∉ spare := by
    rw [List.append_assoc, List.append_assoc, List.singleton_append] at cells
    have absent := (List.nodup_cons.mp (List.nodup_middle.mp cells)).1
    simpa only [List.mem_append, not_or] using absent
  obtain ⟨outBefore, outLive, outSpare⟩ := lastApart
  have same (j : Nat) : (ti.group j).Same
      (((ti.setNext last (ti.group ti.limboTail).next).setNext ti.limboTail (some first)).group j) := by
    obtain ⟨head, e, current⟩ := setNext_same ti last j (ti.group ti.limboTail).next
    obtain ⟨head', e', current'⟩ := setNext_same (ti.setNext last (ti.group ti.limboTail).next) ti.limboTail j (some first)
    exact ⟨head'.trans head, e'.trans e, current'.trans current⟩
  have moved : (emptied ++ live ++ spare).Perm ([] ++ live ++ (emptied ++ spare)) := by
    rw [List.nil_append, ← List.append_assoc]
    exact List.perm_append_comm.append_right spare
  obtain ⟨linkedFront, linkedSpare⟩ := Linked.append_iff.mp holds.linked
  obtain ⟨linkedEmptied, linkedLive⟩ := Linked.append_iff.mp linkedFront
  refine ⟨?_, moved.nodup_iff.mp holds.nodup, fun j mem => holds.below j (moved.mem_iff.mpr mem), holds.first, holds.last,
    fun j mem => (same j).valid (holds.valid j mem), fun j mem => (same j).settled (holds.later j mem), ?_⟩
  · rw [setNext_next, setNext_next, holds.next_last, List.nil_append]
    refine Linked.append_iff.mpr ⟨?_, Linked.append_iff.mpr ⟨?_, ?_⟩⟩
    · have stop : (emptied ++ spare).head?.or none = some first := by
        rw [Option.or_none, List.head?_append, head]
        rfl
      rw [stop, liveEq]
      rw [liveEq] at linkedLive outLive
      exact (linkedLive.update_of_not_mem outLive spare.head?).update_last other (some first)
    · rw [emptiedEq] at linkedEmptied ⊢
      rw [Option.or_none]
      refine (linkedEmptied.update_last outBefore spare.head?).update_of_not_mem ?_ (some first)
      rw [← emptiedEq]
      exact fun mem => apart (List.mem_append_left _ mem)
    · refine (linkedSpare.update_of_not_mem outSpare spare.head?).update_of_not_mem ?_ (some first)
      exact fun mem => apart (List.mem_append_right _ mem)
  · intro j mem
    obtain ⟨head, e, -⟩ := same j
    rw [head, e]
    exact holds.empty j mem

/-- The first group was emptied, and the next one is first. -/
theorem Holds.next_group {i j : Nat} {rest : List Nat} (holds : ti.Holds epoch emptied (i :: j :: rest) spare)
    (reset : (ti.group i).head = 0 ∧ (ti.group i).e = []) :
    (ti.group i).next = some j ∧ ({ ti with limboHead := j } : Threadinfo).Holds epoch (emptied ++ [i]) (j :: rest) spare := by
  have cells : emptied ++ [i] ++ (j :: rest) ++ spare = emptied ++ (i :: j :: rest) ++ spare := by
    simp only [List.append_assoc, List.singleton_append]
  refine ⟨?_, ⟨?_, ?_, ?_, rfl, ?_, ?_, ?_, ?_⟩⟩
  · have linked := (Linked.append_iff.mp (Linked.append_iff.mp holds.linked).1).2
    exact linked.1
  · rw [cells]
    exact holds.linked
  · rw [cells]
    exact holds.nodup
  · rw [cells]
    exact holds.below
  · exact holds.last
  · exact fun k mem => holds.valid k (List.mem_cons_of_mem i mem)
  · exact fun k mem => holds.later k (List.mem_cons_of_mem j mem)
  · intro k mem
    rw [List.append_assoc] at mem
    rcases List.mem_append.mp mem with mem | mem
    · exact holds.empty k (List.mem_append_left _ mem)
    · rcases List.mem_cons.mp mem with same | mem
      · rw [same]
        exact reset
      · exact holds.empty k (List.mem_append_right _ mem)

/-- All groups were emptied. -/
theorem Holds.restart {i first : Nat} (holds : ti.Holds epoch emptied [i] spare)
    (reset : (ti.group i).head = 0 ∧ (ti.group i).e = []) (head : (emptied ++ [i]).head? = some first) :
    ∃ spare', ({ ti with limboHead := first, limboTail := first } : Threadinfo).Holds epoch [] [first] spare' ∧
      ti.pending epoch [first] = [] ∧ ti.pending epoch [i] = [] ∧ (ti.group first).e = [] := by
  obtain ⟨more, eq⟩ : ∃ more, emptied ++ [i] = first :: more := List.head?_eq_some_iff.mp head
  have all : ∀ k ∈ first :: more, (ti.group k).head = 0 ∧ (ti.group k).e = [] := by
    intro k mem
    rw [← eq] at mem
    rcases List.mem_append.mp mem with mem | mem
    · exact holds.empty k (List.mem_append_left _ mem)
    · rw [List.mem_singleton.mp mem]
      exact reset
  have none_ (k : Nat) (empty : (ti.group k).e = []) : ti.pending epoch [k] = [] := by
    rw [pending, List.flatMap_singleton, LimboGroup.slots, empty, List.drop_nil]
    rfl
  have cells : [] ++ [first] ++ (more ++ spare) = emptied ++ [i] ++ spare := by
    rw [eq]
    rfl
  have firstEmpty := all first List.mem_cons_self
  refine ⟨more ++ spare, ⟨?_, ?_, ?_, rfl, rfl, ?_, nofun, ?_⟩, none_ first firstEmpty.2, none_ i reset.2, firstEmpty.2⟩
  · rw [cells]
    exact holds.linked
  · rw [cells]
    exact holds.nodup
  · rw [cells]
    exact holds.below
  · intro k mem
    rw [List.mem_singleton.mp mem]
    have slots : (ti.group first).slots = [] := by
      rw [LimboGroup.slots, firstEmpty.2, List.drop_nil]
    exact ⟨by rw [firstEmpty.1]; exact Nat.zero_le _, by rw [LimboGroup.tail, firstEmpty.2]; exact Nat.zero_le _,
      fun used => absurd slots used⟩
  · intro k mem
    rw [List.nil_append] at mem
    rcases List.mem_append.mp mem with mem | mem
    · exact all k (List.mem_cons_of_mem first mem)
    · exact holds.empty k (List.mem_append_right _ mem)

theorem chain_eq {fuel i : Nat} {rest : List Nat} (linked : Linked (fun j => (ti.group j).next) (i :: rest) spare.head?)
    (last : (i :: rest).getLast? = some ti.limboTail) (nodup : (i :: rest).Nodup) (enough : rest.length < fuel) :
    ti.chain fuel i = i :: rest := by
  induction fuel generalizing i rest with
  | zero => cases enough
  | succ fuel ih =>
    unfold chain
    cases rest with
    | nil =>
      have here : i = ti.limboTail := Option.some.inj last
      rw [if_pos here]
    | cons j rest =>
      obtain ⟨next, linked⟩ := linked
      obtain ⟨absent, nodup⟩ := List.nodup_cons.mp nodup
      have further : i ≠ ti.limboTail := by
        intro same
        rw [same] at absent
        exact absent (List.mem_of_getLast? last)
      have next : (ti.group i).next = some j := next
      rw [if_neg further, next, Option.elim_some, ih linked last nodup (Nat.lt_of_succ_lt_succ enough)]

theorem Holds.length_le (holds : ti.Holds epoch emptied live spare) : live.length ≤ ti.allocated := by
  have nodup : live.Nodup := (List.nodup_append.mp (List.nodup_append.mp holds.nodup).1).2.1
  have sub : live ⊆ List.range ti.allocated := by
    intro i mem
    exact List.mem_range.mpr (holds.below i (by simp [mem]))
  have length := (nodup.subperm sub).length_le
  rwa [List.length_range] at length

theorem Holds.objects_eq (holds : ti.Holds epoch [] live spare) : ti.objects = (ti.pending epoch live).map Prod.snd := by
  have chain : ti.chain ti.allocated ti.limboHead = live := by
    have length := holds.length_le
    obtain ⟨rest, rfl⟩ : ∃ rest, live = ti.limboHead :: rest := List.head?_eq_some_iff.mp holds.first
    obtain ⟨linked, -⟩ := Linked.append_iff.mp holds.linked
    rw [Option.or_none] at linked
    exact chain_eq linked holds.last (List.nodup_append.mp holds.nodup).1 length
  rw [objects, chain, pending, List.map_flatMap]
  refine List.flatMap_congr ?_
  intro i _
  exact LimboGroup.objects_eq _ epoch

end Threadinfo

end Masstree.Rcu
