import Masstree.Log.Sequential

/-!
# Phantom epochs

What is left of the timestamps of removed keys is the phantom epoch of the leaf responsible for them. Threads write
and remove keys under the lock of that leaf, while leaves split, make layers, are removed and collect layers. Only the
steps that read or write a phantom epoch, and those that make another leaf responsible, are told apart: raising the
phantom epoch of the leaf before a removed one takes no lock.
-/

namespace Masstree
open Msgpack (Bytes)

abbrev LeafId := Nat

/-- What the thread that holds a leaf's lock is in the middle of. -/
inductive Activity where
  /-- `apply_remove`, with the value to store in `node_ts` -/
  | removing (epoch : Nat)
  /-- `make_split`, from `leaf_type::make` to `link_split` -/
  | splitting (new : LeafId)
  /-- `make_new_layer`, from `make_root` to the new leaf value -/
  | layering (new : LeafId) (keys : Bytes → Bool)
  /-- `remove_leaf`, with the leaf before it whose phantom epoch was raised -/
  | deleting (raised : Option LeafId)
  /-- `remove_leaf` out of its loop, before `unlink` -/
  | unlinking
  /-- `gc_layer`, about to store the phantom epoch of the layer's leaf -/
  | collecting (layer : LeafId)
  /-- the layer's leaf that `gc_layer` has locked -/
  | collected
  /-- `mark_deleted` or `mark_deleted_layer`, and no longer responsible for a key -/
  | dead

structure Leaves where
  /-- `phantom_epoch_[0]` -/
  phantom : LeafId → Nat
  /-- `prev_` -/
  prev : LeafId → Option LeafId
  /-- the leaf that operations on a key go to -/
  owner : Bytes → LeafId
  activity : LeafId → Option Activity
  /-- the timestamp of a key's row -/
  rows : Bytes → Option Nat
  /-- `ti.ts_` of each thread -/
  ts : Nat → Nat
  /-- the leaves not made yet -/
  fresh : LeafId
  /-- `query_times.ts` of every write and remove, in order -/
  stamps : List (Bytes × Nat)

namespace Leaves

inductive Step where
  | write (thread : Nat) (key : Bytes)
  | remove (thread : Nat) (key : Bytes)
  | removeStore (leaf : LeafId)
  | splitMake (leaf : LeafId)
  | splitLink (leaf : LeafId) (upper : Bytes → Bool)
  | layerMake (leaf : LeafId) (keys : Bytes → Bool)
  | layerInstall (leaf : LeafId)
  | deleteBegin (leaf : LeafId)
  | deleteRaise (leaf : LeafId)
  | deleteCheck (leaf : LeafId)
  | unlink (leaf : LeafId)
  | gcBegin (leaf layer : LeafId)
  | gcStore (leaf : LeafId)

def Idle (s : Leaves) (leaf : LeafId) : Prop := leaf < s.fresh ∧ s.activity leaf = none

def Vacant (s : Leaves) (leaf : LeafId) : Prop := ∀ key, s.owner key = leaf → s.rows key = none

def Enabled (s : Leaves) : Step → Prop
  | .write _ key => s.activity (s.owner key) = none
  | .remove _ key => s.activity (s.owner key) = none ∧ s.rows key ≠ none
  | .removeStore leaf => ∃ epoch, s.activity leaf = some (.removing epoch)
  | .splitMake leaf => s.Idle leaf
  | .splitLink leaf upper => (∃ new, s.activity leaf = some (.splitting new)) ∧
      ∀ key, upper key = true → s.owner key = leaf
  | .layerMake leaf keys => s.Idle leaf ∧ ∀ key, keys key = true → s.owner key = leaf
  | .layerInstall leaf => ∃ new keys, s.activity leaf = some (.layering new keys)
  | .deleteBegin leaf => s.Idle leaf ∧ s.prev leaf ≠ none ∧ s.Vacant leaf
  | .deleteRaise leaf => s.activity leaf = some (.deleting none)
  | .deleteCheck leaf => ∃ raised, s.activity leaf = some (.deleting (some raised))
  | .unlink leaf => s.activity leaf = some .unlinking
  | .gcBegin leaf layer => s.Idle leaf ∧ s.Idle layer ∧ leaf ≠ layer ∧ s.Vacant layer ∧ s.prev layer = none ∧
      ∀ other, s.prev other ≠ some layer
  | .gcStore leaf => ∃ layer, s.activity leaf = some (.collecting layer) ∧ s.activity layer = some .collected

/-- The timestamp a write of the key is given: `observe_phantoms` without a row, `update_timestamp` over one. -/
def stamp (s : Leaves) (thread : Nat) (key : Bytes) : Nat :=
  match s.rows key with
  | none => observePhantoms (s.ts thread) (s.phantom (s.owner key))
  | some old => updateTimestamp (s.ts thread) old

def handOver (s : Leaves) (keys : Bytes → Bool) (leaf : LeafId) : Bytes → LeafId :=
  fun key => if keys key then leaf else s.owner key

/-- The leaves after `leaf` come after `other` instead. -/
def relink (s : Leaves) (leaf : LeafId) (other : Option LeafId) : LeafId → Option LeafId :=
  fun x => if s.prev x = some leaf then other else s.prev x

def setActivity (s : Leaves) (leaf : LeafId) (activity : Option Activity) : Leaves :=
  { s with activity := Function.update s.activity leaf activity }

def setPhantom (s : Leaves) (leaf : LeafId) (epoch : Nat) : Leaves :=
  { s with phantom := Function.update s.phantom leaf epoch }

/-- The timestamp `ts` is given to `key`, whose row is now `row`. -/
def assign (s : Leaves) (thread : Nat) (key : Bytes) (ts : Nat) (row : Option Nat) : Leaves :=
  { s with ts := Function.update s.ts thread ts, rows := Function.update s.rows key row
           stamps := s.stamps ++ [(key, ts)] }

def next (s : Leaves) : Step → Leaves
  | .write thread key => s.assign thread key (s.stamp thread key) (some (s.stamp thread key))
  | .remove thread key =>
    let leaf := s.owner key
    let (times, epoch) := applyRemove (s.ts thread) (s.phantom leaf) ⟨(s.rows key).getD 0, 0, [], []⟩
    (s.assign thread key times.ts none).setActivity leaf
      (if s.phantom leaf ≤ times.ts then some (.removing epoch) else none)
  | .removeStore leaf =>
    match s.activity leaf with
    | some (.removing epoch) => (s.setPhantom leaf epoch).setActivity leaf none
    | _ => s
  | .splitMake leaf =>
    { (s.setPhantom s.fresh (s.phantom leaf)).setActivity leaf (some (.splitting s.fresh)) with fresh := s.fresh + 1 }
  | .splitLink leaf upper =>
    match s.activity leaf with
    | some (.splitting new) =>
      { s.setActivity leaf none with
        prev := Function.update (s.relink leaf (some new)) new (some leaf)
        owner := s.handOver upper new }
    | _ => s
  | .layerMake leaf keys =>
    { (s.setPhantom s.fresh (s.phantom leaf)).setActivity leaf (some (.layering s.fresh keys)) with
      fresh := s.fresh + 1 }
  | .layerInstall leaf =>
    match s.activity leaf with
    | some (.layering new keys) =>
      { s.setActivity leaf none with
        prev := Function.update s.prev new none
        owner := s.handOver keys new }
    | _ => s
  | .deleteBegin leaf => s.setActivity leaf (some (.deleting none))
  | .deleteRaise leaf =>
    match s.prev leaf with
    | some before =>
      (s.setPhantom before (max (s.phantom before) (s.phantom leaf))).setActivity leaf (some (.deleting (some before)))
    | none => s
  | .deleteCheck leaf =>
    match s.activity leaf with
    | some (.deleting (some raised)) =>
      s.setActivity leaf (some (if s.prev leaf = some raised then .unlinking else .deleting none))
    | _ => s
  | .unlink leaf =>
    match s.prev leaf with
    | some before =>
      { s.setActivity leaf (some .dead) with
        prev := Function.update (s.relink leaf (some before)) leaf none
        owner := s.handOver (fun key => s.owner key = leaf) before }
    | none => s
  | .gcBegin leaf layer =>
    if s.phantom leaf < s.phantom layer then
      (s.setActivity leaf (some (.collecting layer))).setActivity layer (some .collected)
    else
      { s.setActivity layer (some .dead) with owner := s.handOver (fun key => s.owner key = layer) leaf }
  | .gcStore leaf =>
    match s.activity leaf with
    | some (.collecting layer) =>
      { ((s.setPhantom leaf (s.phantom layer)).setActivity leaf none).setActivity layer (some .dead) with
        owner := s.handOver (fun key => s.owner key = layer) leaf }
    | _ => s

def run (s : Leaves) : List Step → Leaves
  | [] => s
  | step :: rest => (s.next step).run rest

def Runs (s : Leaves) : List Step → Prop
  | [] => True
  | step :: rest => s.Enabled step ∧ (s.next step).Runs rest

/-- No phantom epoch that was raised meanwhile is lost: a new right leaf is linked with the phantom epoch of the left
one, the leaf before a removed one still has its phantom epoch when that is unlinked, and a plain store does not lower
the phantom epoch. -/
def Keeps (s : Leaves) : Step → Prop
  | .splitLink leaf _ => ∀ new, s.activity leaf = some (.splitting new) → s.phantom leaf ≤ s.phantom new
  | .unlink leaf => ∀ before, s.prev leaf = some before → s.phantom leaf ≤ s.phantom before
  | .removeStore leaf => ∀ epoch, s.activity leaf = some (.removing epoch) → s.phantom leaf ≤ epoch
  | .gcStore leaf => ∀ layer, s.activity leaf = some (.collecting layer) → s.phantom leaf ≤ s.phantom layer
  | _ => True

def KeepsAll (s : Leaves) : List Step → Prop
  | [] => True
  | step :: rest => s.Keeps step ∧ (s.next step).KeepsAll rest

/-- Operations on each key so far have increasing timestamps. -/
def Increasing (s : Leaves) : Prop := s.stamps.Pairwise fun a b => a.1 = b.1 → a.2 < b.2

/-- Before any operation: no lock is held and the leaves that are responsible have been made. -/
structure Start (s : Leaves) : Prop where
  stamps : s.stamps = []
  idle : ∀ leaf, s.activity leaf = none
  made : ∀ key, s.owner key < s.fresh
  linked : ∀ leaf before, s.prev leaf = some before → before < s.fresh

/-! ### What phantom epochs cover -/

/-- The timestamp is below the phantom epoch of the leaf, or below the one about to be stored there. -/
def Below (s : Leaves) (ts : Nat) (leaf : LeafId) : Prop :=
  ts < s.phantom leaf ∨ ∃ epoch, s.activity leaf = some (.removing epoch) ∧ ts < epoch

structure Covered (s : Leaves) : Prop where
  present : ∀ key ts, (key, ts) ∈ s.stamps → ∀ row, s.rows key = some row → ts ≤ row
  absent : ∀ key ts, (key, ts) ∈ s.stamps → s.rows key = none → s.Below ts (s.owner key)
  made : ∀ key, s.owner key < s.fresh
  linked : ∀ leaf before, s.prev leaf = some before → before < s.fresh
  active : ∀ leaf, s.activity leaf ≠ none → leaf < s.fresh
  splitting : ∀ leaf new, s.activity leaf = some (.splitting new) → new < s.fresh
  layering : ∀ leaf new keys, s.activity leaf = some (.layering new keys) → new < s.fresh ∧
    ∀ key, keys key = true → s.owner key = leaf ∧
      ∀ ts, (key, ts) ∈ s.stamps → s.rows key = none → ts < s.phantom new

variable {s : Leaves}

theorem start_covered (start : Start s) : Covered s where
  present key ts member := by simp [start.stamps] at member
  absent key ts member := by simp [start.stamps] at member
  made := start.made
  linked := start.linked
  active leaf doing := absurd (start.idle leaf) doing
  splitting leaf new doing := by simp [start.idle] at doing
  layering leaf new keys doing := by simp [start.idle] at doing

/-- Nothing but a remove under way is behind its leaf's phantom epoch. -/
theorem Below.stored {ts : Nat} {leaf : LeafId} (below : s.Below ts leaf)
    (done : ∀ epoch, s.activity leaf = some (.removing epoch) → epoch ≤ s.phantom leaf) : ts < s.phantom leaf := by
  rcases below with below | ⟨epoch, doing, below⟩
  · exact below
  · exact Nat.lt_of_lt_of_le below (done epoch doing)

theorem Below.idle {ts : Nat} {leaf : LeafId} (below : s.Below ts leaf) (idle : s.activity leaf = none) :
    ts < s.phantom leaf := below.stored fun epoch doing => by rw [idle] at doing; cases doing

theorem stamp_gt (covered : Covered s) (thread : Nat) {key : Bytes} (idle : s.activity (s.owner key) = none) {ts : Nat}
    (member : (key, ts) ∈ s.stamps) : ts < s.stamp thread key := by
  unfold stamp
  cases row : s.rows key with
  | none =>
    have below := (covered.absent key ts member row).idle idle
    unfold observePhantoms
    dsimp only
    split <;> omega
  | some old => exact Nat.lt_of_le_of_lt (covered.present key ts member old row) (Server.updateTimestamp_gt _ _)

/-! ### One step -/

theorem write_covered (covered : Covered s) {thread : Nat} {key : Bytes} (enabled : s.Enabled (.write thread key)) :
    Covered (s.next (.write thread key)) where
  present key' ts member row found := by
    dsimp only [next, assign] at member found
    rw [Function.update_apply] at found
    split at found
    · rename_i same
      subst same
      cases found
      rcases List.mem_append.mp member with old | new
      · exact Nat.le_of_lt (stamp_gt covered thread enabled old)
      · cases List.mem_singleton.mp new
        exact Nat.le_refl _
    · rename_i other
      rcases List.mem_append.mp member with old | new
      · exact covered.present key' ts old row found
      · cases List.mem_singleton.mp new
        exact absurd rfl other
  absent key' ts member found := by
    dsimp only [next, assign] at member found
    rw [Function.update_apply] at found
    split at found
    · cases found
    · rename_i other
      rcases List.mem_append.mp member with old | new
      · exact covered.absent key' ts old found
      · cases List.mem_singleton.mp new
        exact absurd rfl other
  made := covered.made
  linked := covered.linked
  active := covered.active
  splitting := covered.splitting
  layering leaf new keys doing := by
    obtain ⟨made, covers⟩ := covered.layering leaf new keys doing
    refine ⟨made, fun key' named => ⟨(covers key' named).1, fun ts member found => ?_⟩⟩
    dsimp only [next, assign] at member found
    rw [Function.update_apply] at found
    split at found
    · cases found
    · rename_i other
      rcases List.mem_append.mp member with old | new
      · exact (covers key' named).2 ts old found
      · cases List.mem_singleton.mp new
        exact absurd rfl other

theorem remove_stamp (covered : Covered s) (thread : Nat) {key : Bytes} (row : s.rows key ≠ none) {ts : Nat}
    (member : (key, ts) ∈ s.stamps) : ts < updateTimestamp (s.ts thread) ((s.rows key).getD 0) := by
  obtain ⟨old, row⟩ := Option.ne_none_iff_exists'.mp row
  rw [row]
  exact Nat.lt_of_le_of_lt (covered.present key ts member old row) (Server.updateTimestamp_gt _ _)

theorem next_remove (s : Leaves) (thread : Nat) (key : Bytes) :
    s.next (.remove thread key) =
      (s.assign thread key (updateTimestamp (s.ts thread) ((s.rows key).getD 0)) none).setActivity (s.owner key)
        (if s.phantom (s.owner key) ≤ updateTimestamp (s.ts thread) ((s.rows key).getD 0) then
          some (.removing (updateTimestamp (s.ts thread) ((s.rows key).getD 0) + 2)) else none) := by
  unfold next applyRemove ValueBag.timestamp
  dsimp only
  split
  · rfl
  · rfl

theorem remove_covered (covered : Covered s) {thread : Nat} {key : Bytes} (enabled : s.Enabled (.remove thread key)) :
    Covered (s.next (.remove thread key)) := by
  obtain ⟨idle, row⟩ := enabled
  have newer := fun ts member => @remove_stamp s covered thread key row ts member
  rw [next_remove]
  generalize updateTimestamp (s.ts thread) ((s.rows key).getD 0) = time at newer
  refine ⟨fun key' ts member row' found => ?_, fun key' ts member found => ?_, covered.made, covered.linked,
    fun leaf doing => ?_, fun leaf new doing => ?_, fun leaf new keys doing => ?_⟩
  · dsimp only [setActivity, assign] at member found
    rw [Function.update_apply] at found
    split at found
    · cases found
    · rename_i other
      rcases List.mem_append.mp member with old | new
      · exact covered.present key' ts old row' found
      · cases List.mem_singleton.mp new
        exact absurd rfl other
  · dsimp only [setActivity, assign] at member found
    have latest : key' = key → ts ≤ time := by
      intro same
      subst same
      rcases List.mem_append.mp member with old | new
      · exact Nat.le_of_lt (newer ts old)
      · cases List.mem_singleton.mp new
        exact Nat.le_refl _
    unfold Below
    dsimp only [setActivity, assign]
    by_cases same : key' = key
    · have le := latest same
      subst same
      rw [Function.update_self]
      split
      · exact .inr ⟨time + 2, rfl, by omega⟩
      · exact .inl (by omega)
    · rw [Function.update_of_ne same] at found
      have old : (key', ts) ∈ s.stamps := by
        rcases List.mem_append.mp member with old | new
        · exact old
        · cases List.mem_singleton.mp new
          exact absurd rfl same
      have below := covered.absent key' ts old found
      by_cases here : s.owner key' = s.owner key
      · rw [here] at below ⊢
        exact .inl (below.idle idle)
      · rw [Function.update_of_ne here]
        exact below
  · dsimp only [setActivity, assign] at doing
    rw [Function.update_apply] at doing
    split at doing
    · rename_i here
      rw [here]
      exact covered.made key
    · exact covered.active leaf doing
  · dsimp only [setActivity, assign] at doing
    rw [Function.update_apply] at doing
    split at doing
    · split at doing <;> cases doing
    · exact covered.splitting leaf new doing
  · dsimp only [setActivity, assign] at doing
    rw [Function.update_apply] at doing
    split at doing
    · split at doing <;> cases doing
    · rename_i elsewhere
      obtain ⟨made, covers⟩ := covered.layering leaf new keys doing
      refine ⟨made, fun key' named => ⟨(covers key' named).1, fun ts member found => ?_⟩⟩
      dsimp only [setActivity, assign] at member found
      have other : key' ≠ key := by
        intro same
        exact elsewhere (by rw [← (covers key' named).1, same])
      rw [Function.update_of_ne other] at found
      rcases List.mem_append.mp member with old | new
      · exact (covers key' named).2 ts old found
      · cases List.mem_singleton.mp new
        exact absurd rfl other

/-- A step that gives no key a timestamp. -/
theorem Covered.frame (covered : Covered s) {s' : Leaves} (stamps : s'.stamps = s.stamps) (rows : s'.rows = s.rows)
    (fresh : s.fresh ≤ s'.fresh) (grows : ∀ leaf < s.fresh, s.phantom leaf ≤ s'.phantom leaf)
    (made : ∀ key, s'.owner key < s'.fresh) (linked : ∀ leaf before, s'.prev leaf = some before → before < s'.fresh)
    (active : ∀ leaf, s'.activity leaf ≠ none → leaf < s'.fresh)
    (below : ∀ key ts, s.Below ts (s.owner key) → s.rows key = none → (key, ts) ∈ s.stamps →
      s'.Below ts (s'.owner key))
    (splitting : ∀ leaf new, s'.activity leaf = some (.splitting new) →
      s.activity leaf = some (.splitting new) ∨ new < s'.fresh)
    (layering : ∀ leaf new keys, s'.activity leaf = some (.layering new keys) →
      (s.activity leaf = some (.layering new keys) ∧ ∀ key, s.owner key = leaf → s'.owner key = leaf) ∨
        new < s'.fresh ∧ ∀ key, keys key = true → s'.owner key = leaf ∧
          ∀ ts, (key, ts) ∈ s.stamps → s.rows key = none → ts < s'.phantom new) : Covered s' where
  present := by
    rw [stamps, rows]
    exact covered.present
  absent key ts member found := by
    rw [stamps] at member
    rw [rows] at found
    exact below key ts (covered.absent key ts member found) found member
  made := made
  linked := linked
  active := active
  splitting leaf new doing := by
    rcases splitting leaf new doing with doing | made
    · exact Nat.lt_of_lt_of_le (covered.splitting leaf new doing) fresh
    · exact made
  layering leaf new keys doing := by
    rw [stamps, rows]
    rcases layering leaf new keys doing with ⟨doing, kept⟩ | made
    · obtain ⟨made, covers⟩ := covered.layering leaf new keys doing
      refine ⟨Nat.lt_of_lt_of_le made fresh, fun key named => ?_⟩
      obtain ⟨owned, covers⟩ := covers key named
      exact ⟨kept key owned, fun ts member found => Nat.lt_of_lt_of_le (covers ts member found) (grows new made)⟩
    · exact made

/-- Only what a leaf's lock holder is in the middle of changes. A remove under way has been stored. -/
theorem Covered.setActivity (covered : Covered s) {leaf : LeafId} {activity : Option Activity} (known : leaf < s.fresh)
    (done : ∀ epoch, s.activity leaf = some (.removing epoch) → epoch ≤ s.phantom leaf)
    (noSplit : ∀ new, activity ≠ some (.splitting new)) (noLayer : ∀ new keys, activity ≠ some (.layering new keys)) :
    Covered (s.setActivity leaf activity) := by
  refine covered.frame rfl rfl (Nat.le_refl _) (fun _ _ => Nat.le_refl _) covered.made covered.linked ?_ ?_ ?_ ?_
  · intro x doing
    dsimp only [Leaves.setActivity] at doing
    rw [Function.update_apply] at doing
    split at doing
    · rename_i here
      rw [here]
      exact known
    · exact covered.active x doing
  · intro key ts below found member
    unfold Below Leaves.setActivity
    dsimp only
    by_cases here : s.owner key = leaf
    · rw [here] at below ⊢
      exact .inl (below.stored done)
    · rw [Function.update_of_ne here]
      exact below
  · intro x new doing
    dsimp only [Leaves.setActivity] at doing
    rw [Function.update_apply] at doing
    split at doing
    · exact absurd doing (noSplit new)
    · exact .inl doing
  · intro x new keys doing
    dsimp only [Leaves.setActivity] at doing
    rw [Function.update_apply] at doing
    split at doing
    · exact absurd doing (noLayer new keys)
    · exact .inl ⟨doing, fun _ owned => owned⟩

theorem Covered.setPhantom (covered : Covered s) {leaf : LeafId} {epoch : Nat} (grows : s.phantom leaf ≤ epoch) :
    Covered (s.setPhantom leaf epoch) := by
  have mono : ∀ x, s.phantom x ≤ (s.setPhantom leaf epoch).phantom x := by
    intro x
    dsimp only [Leaves.setPhantom]
    rw [Function.update_apply]
    split
    · rename_i same
      rw [same]
      exact grows
    · exact Nat.le_refl _
  refine covered.frame rfl rfl (Nat.le_refl _) (fun x _ => mono x) covered.made covered.linked covered.active ?_
    (fun x new doing => .inl doing)
    (fun x new keys doing => .inl ⟨doing, fun _ owned => owned⟩)
  intro key ts below found member
  exact below.imp (fun below => Nat.lt_of_lt_of_le below (mono _)) id

/-- Absent keys go to a leaf whose phantom epoch covers them, and the leaf they go from is done. -/
theorem Covered.handOver (covered : Covered s) {leaf new : LeafId} {keys : Bytes → Bool} {activity : Option Activity}
    {prev : LeafId → Option LeafId} (known : leaf < s.fresh)
    (linked : ∀ x before, prev x = some before → before < s.fresh) (owned : ∀ key, keys key = true → s.owner key = leaf)
    (made : new < s.fresh)
    (covers : ∀ key ts, keys key = true → (key, ts) ∈ s.stamps → s.rows key = none → ts < s.phantom new)
    (done : ∀ epoch, s.activity leaf = some (.removing epoch) → epoch ≤ s.phantom leaf)
    (after : activity = none ∨ activity = some .dead) :
    Covered { s.setActivity leaf activity with prev, owner := s.handOver keys new } := by
  have settled : (∀ new, activity ≠ some (.splitting new)) ∧ ∀ new keys, activity ≠ some (.layering new keys) := by
    rcases after with rfl | rfl
    · simp
    · simp
  refine covered.frame rfl rfl (Nat.le_refl _) (fun _ _ => Nat.le_refl _) ?_ linked ?_ ?_ ?_ ?_
  · intro key
    dsimp only [Leaves.handOver, Leaves.setActivity]
    split
    · exact made
    · exact covered.made key
  · exact (covered.setActivity known done settled.1 settled.2).active
  · intro key ts below found member
    unfold Below
    dsimp only [Leaves.handOver, Leaves.setActivity]
    split
    · rename_i moved
      exact .inl (covers key ts moved member found)
    · by_cases here : s.owner key = leaf
      · rw [here] at below ⊢
        exact .inl (below.stored done)
      · rw [Function.update_of_ne here]
        exact below
  · intro x new' doing
    dsimp only [Leaves.setActivity] at doing
    rw [Function.update_apply] at doing
    split at doing
    · exact absurd doing (settled.1 new')
    · exact .inl doing
  · intro x new' keys' doing
    dsimp only [Leaves.setActivity] at doing
    rw [Function.update_apply] at doing
    split at doing
    · exact absurd doing (settled.2 new' keys')
    · rename_i elsewhere
      refine .inl ⟨doing, fun key owned' => ?_⟩
      dsimp only [Leaves.handOver]
      split
      · rename_i moved
        exact absurd ((owned key moved).symm.trans owned').symm elsewhere
      · exact owned'

/-- A new leaf is made with the phantom epoch of the one it splits or hangs off. -/
theorem Covered.make (covered : Covered s) {leaf : LeafId} (idle : s.Idle leaf) {activity : Activity}
    (which : activity = .splitting s.fresh ∨
      ∃ keys, activity = .layering s.fresh keys ∧ ∀ key, keys key = true → s.owner key = leaf) :
    Covered { (s.setPhantom s.fresh (s.phantom leaf)).setActivity leaf (some activity) with fresh := s.fresh + 1 } := by
  have same : ∀ x < s.fresh, Function.update s.phantom s.fresh (s.phantom leaf) x = s.phantom x :=
    fun x old => Function.update_of_ne (Nat.ne_of_lt old) _ _
  refine covered.frame rfl rfl (Nat.le_succ _) ?_ ?_ ?_ ?_ ?_ ?_ ?_
  · intro x old
    exact Nat.le_of_eq (same x old).symm
  · exact fun key => Nat.lt_succ_of_lt (covered.made key)
  · exact fun x before link => Nat.lt_succ_of_lt (covered.linked x before link)
  · intro x doing
    dsimp only [Leaves.setActivity, Leaves.setPhantom] at doing
    rw [Function.update_apply] at doing
    split at doing
    · rename_i here
      rw [here]
      exact Nat.lt_succ_of_lt idle.1
    · exact Nat.lt_succ_of_lt (covered.active x doing)
  · intro key ts below found member
    unfold Below
    dsimp only [Leaves.setActivity, Leaves.setPhantom]
    rw [same _ (covered.made key)]
    by_cases here : s.owner key = leaf
    · rw [here] at below ⊢
      exact .inl (below.idle idle.2)
    · rw [Function.update_of_ne here]
      exact below
  · intro x new doing
    dsimp only [Leaves.setActivity, Leaves.setPhantom] at doing
    rw [Function.update_apply] at doing
    split at doing
    · rcases which with rfl | ⟨keys, rfl, -⟩
      · cases doing
        exact .inr (Nat.lt_succ_self _)
      · cases doing
    · exact .inl doing
  · intro x new keys doing
    dsimp only [Leaves.setActivity, Leaves.setPhantom] at doing
    rw [Function.update_apply] at doing
    split at doing
    · rename_i here
      rcases which with rfl | ⟨keys', rfl, owned⟩
      · cases doing
      · cases doing
        refine .inr ⟨Nat.lt_succ_self _, fun key named => ⟨(owned key named).trans here.symm, fun ts member found => ?_⟩⟩
        have below := covered.absent key ts member found
        rw [owned key named] at below
        dsimp only [Leaves.setActivity, Leaves.setPhantom]
        rw [Function.update_self]
        exact below.idle idle.2
    · exact .inl ⟨doing, fun _ owned => owned⟩

theorem relink_linked (covered : Covered s) {leaf : LeafId} {other : Option LeafId}
    (known : ∀ x, other = some x → x < s.fresh) (x before : LeafId) (link : s.relink leaf other x = some before) :
    before < s.fresh := by
  unfold relink at link
  split at link
  · exact known before link
  · exact covered.linked x before link

theorem removeStore_covered (covered : Covered s) {leaf : LeafId}
    (enabled : s.Enabled (.removeStore leaf)) (keeps : s.Keeps (.removeStore leaf)) :
    Covered (s.next (.removeStore leaf)) := by
  obtain ⟨epoch, doing⟩ := enabled
  have known := covered.active leaf (by rw [doing]; simp)
  simp only [next, doing]
  refine (covered.setPhantom (keeps epoch doing)).setActivity known ?_ (by simp) (by simp)
  intro epoch' doing'
  cases doing.symm.trans doing'
  dsimp only [Leaves.setPhantom]
  rw [Function.update_self]

theorem splitLink_covered (covered : Covered s) {leaf : LeafId} {upper : Bytes → Bool}
    (enabled : s.Enabled (.splitLink leaf upper)) (keeps : s.Keeps (.splitLink leaf upper)) :
    Covered (s.next (.splitLink leaf upper)) := by
  obtain ⟨⟨new, doing⟩, owned⟩ := enabled
  have known := covered.active leaf (by rw [doing]; simp)
  have made := covered.splitting leaf new doing
  simp only [next, doing]
  refine covered.handOver known ?_ owned made ?_ (by rw [doing]; simp) (.inl rfl)
  · intro x before link
    rw [Function.update_apply] at link
    split at link
    · cases link
      exact known
    · exact relink_linked covered (fun x same => by cases same; exact made) x before link
  · intro key ts moved member found
    have below := covered.absent key ts member found
    rw [owned key moved] at below
    exact Nat.lt_of_lt_of_le (below.stored (by rw [doing]; simp)) (keeps new doing)

theorem layerInstall_covered (covered : Covered s) {leaf : LeafId} (enabled : s.Enabled (.layerInstall leaf)) :
    Covered (s.next (.layerInstall leaf)) := by
  obtain ⟨new, keys, doing⟩ := enabled
  obtain ⟨made, covers⟩ := covered.layering leaf new keys doing
  simp only [next, doing]
  refine covered.handOver (covered.active leaf (by rw [doing]; simp)) ?_ (fun key named => (covers key named).1) made
    (fun key ts named member found => (covers key named).2 ts member found) (by rw [doing]; simp) (.inl rfl)
  intro x before link
  rw [Function.update_apply] at link
  split at link
  · cases link
  · exact covered.linked x before link

theorem deleteRaise_covered (covered : Covered s) {leaf : LeafId} (enabled : s.Enabled (.deleteRaise leaf)) :
    Covered (s.next (.deleteRaise leaf)) := by
  have known := covered.active leaf (by rw [enabled]; simp)
  simp only [next]
  cases link : s.prev leaf with
  | none => exact covered
  | some before =>
    refine (covered.setPhantom (Nat.le_max_left _ _)).setActivity known ?_ (by simp) (by simp)
    intro epoch doing
    rw [show (s.setPhantom before (max (s.phantom before) (s.phantom leaf))).activity leaf = s.activity leaf from rfl,
      enabled] at doing
    cases doing

theorem deleteCheck_covered (covered : Covered s) {leaf : LeafId} (enabled : s.Enabled (.deleteCheck leaf)) :
    Covered (s.next (.deleteCheck leaf)) := by
  obtain ⟨raised, doing⟩ := enabled
  have known := covered.active leaf (by rw [doing]; simp)
  simp only [next, doing]
  refine covered.setActivity known (by rw [doing]; simp) ?_ ?_
  · intro new
    split <;> simp
  · intro new keys
    split <;> simp

theorem unlink_covered (covered : Covered s) {leaf : LeafId}
    (enabled : s.Enabled (.unlink leaf)) (keeps : s.Keeps (.unlink leaf)) :
    Covered (s.next (.unlink leaf)) := by
  have known := covered.active leaf (by rw [enabled]; simp)
  simp only [next]
  cases link : s.prev leaf with
  | none => exact covered
  | some before =>
    have made := covered.linked leaf before link
    refine covered.handOver known ?_ (fun key owned => by simpa using owned) made ?_ (by rw [enabled]; simp) (.inr rfl)
    · intro x other link'
      rw [Function.update_apply] at link'
      split at link'
      · cases link'
      · exact relink_linked covered (fun x same => by cases same; exact made) x other link'
    · intro key ts owned member found
      have below := covered.absent key ts member found
      rw [show s.owner key = leaf by simpa using owned] at below
      exact Nat.lt_of_lt_of_le (below.stored (by rw [enabled]; simp)) (keeps before link)

theorem gcBegin_covered (covered : Covered s) {leaf layer : LeafId} (enabled : s.Enabled (.gcBegin leaf layer)) :
    Covered (s.next (.gcBegin leaf layer)) := by
  obtain ⟨idle, idle', different, -⟩ := enabled
  have still : (s.setActivity leaf (some (.collecting layer))).activity layer = none := by
    dsimp only [Leaves.setActivity]
    rw [Function.update_of_ne (Ne.symm different), idle'.2]
  simp only [next]
  split
  · refine Covered.setActivity ?_ idle'.1 (by rw [still]; simp) (by simp) (by simp)
    exact covered.setActivity idle.1 (by rw [idle.2]; simp) (by simp) (by simp)
  · rename_i enough
    refine covered.handOver idle'.1 covered.linked (fun key owned => by simpa using owned) idle.1 ?_
      (by rw [idle'.2]; simp) (.inr rfl)
    intro key ts owned member found
    have below := covered.absent key ts member found
    rw [show s.owner key = layer by simpa using owned] at below
    exact Nat.lt_of_lt_of_le (below.idle idle'.2) (Nat.le_of_not_lt enough)

theorem gcStore_covered (covered : Covered s) {leaf : LeafId}
    (enabled : s.Enabled (.gcStore leaf)) (keeps : s.Keeps (.gcStore leaf)) :
    Covered (s.next (.gcStore leaf)) := by
  obtain ⟨layer, doing, locked⟩ := enabled
  have known := covered.active leaf (by rw [doing]; simp)
  have known' := covered.active layer (by rw [locked]; simp)
  have different : layer ≠ leaf := by
    intro same
    rw [same, doing] at locked
    cases locked
  have raised := covered.setPhantom (keeps layer doing)
  have unlocked : Covered ((s.setPhantom leaf (s.phantom layer)).setActivity leaf none) := by
    refine raised.setActivity known ?_ (by simp) (by simp)
    intro epoch doing'
    cases doing.symm.trans doing'
  have still : ((s.setPhantom leaf (s.phantom layer)).setActivity leaf none).activity layer = some .collected := by
    dsimp only [Leaves.setActivity, Leaves.setPhantom]
    rw [Function.update_of_ne different, locked]
  simp only [next, doing]
  refine unlocked.handOver known' covered.linked (fun key owned => of_decide_eq_true owned) known ?_
    (by rw [still]; simp) (.inr rfl)
  intro key ts owned member found
  have below := covered.absent key ts member found
  rw [show s.owner key = layer by simpa using owned] at below
  dsimp only [Leaves.setActivity, Leaves.setPhantom]
  rw [Function.update_self]
  exact below.stored (by rw [locked]; simp)

theorem step_covered (covered : Covered s) {step : Step} (enabled : s.Enabled step) (keeps : s.Keeps step) :
    Covered (s.next step) := by
  cases step with
  | write thread key => exact write_covered covered enabled
  | remove thread key => exact remove_covered covered enabled
  | removeStore leaf => exact removeStore_covered covered enabled keeps
  | splitMake leaf => exact covered.make enabled (.inl rfl)
  | splitLink leaf upper => exact splitLink_covered covered enabled keeps
  | layerMake leaf keys => exact covered.make enabled.1 (.inr ⟨keys, rfl, enabled.2⟩)
  | layerInstall leaf => exact layerInstall_covered covered enabled
  | deleteBegin leaf =>
    exact covered.setActivity enabled.1.1 (by rw [enabled.1.2]; simp) (by simp) (by simp)
  | deleteRaise leaf => exact deleteRaise_covered covered enabled
  | deleteCheck leaf => exact deleteCheck_covered covered enabled
  | unlink leaf => exact unlink_covered covered enabled keeps
  | gcBegin leaf layer => exact gcBegin_covered covered enabled
  | gcStore leaf => exact gcStore_covered covered enabled keeps

/-! ### Whole runs -/

theorem step_increasing (covered : Covered s) (increasing : s.Increasing) {step : Step} (enabled : s.Enabled step) :
    (s.next step).Increasing := by
  have appended : ∀ key time, (∀ ts, (key, ts) ∈ s.stamps → ts < time) →
      (s.stamps ++ [(key, time)]).Pairwise fun a b => a.1 = b.1 → a.2 < b.2 := by
    intro key time newer
    refine List.pairwise_append.mpr ⟨increasing, List.pairwise_singleton _ _, fun p member q last => ?_⟩
    cases List.mem_singleton.mp last
    rintro rfl
    exact newer p.2 member
  cases step with
  | write thread key => exact appended key _ fun ts member => stamp_gt covered thread enabled member
  | remove thread key =>
    rw [next_remove]
    exact appended key _ fun ts member => remove_stamp covered thread enabled.2 member
  | splitMake leaf => exact increasing
  | layerMake leaf keys => exact increasing
  | deleteBegin leaf => exact increasing
  | removeStore leaf =>
    obtain ⟨epoch, doing⟩ := enabled
    rw [next, doing]
    exact increasing
  | splitLink leaf upper =>
    obtain ⟨⟨new, doing⟩, -⟩ := enabled
    rw [next, doing]
    exact increasing
  | layerInstall leaf =>
    obtain ⟨new, keys, doing⟩ := enabled
    rw [next, doing]
    exact increasing
  | deleteRaise leaf =>
    rw [next]
    cases s.prev leaf <;> exact increasing
  | deleteCheck leaf =>
    obtain ⟨raised, doing⟩ := enabled
    rw [next, doing]
    exact increasing
  | unlink leaf =>
    rw [next]
    cases s.prev leaf <;> exact increasing
  | gcBegin leaf layer =>
    rw [next]
    split <;> exact increasing
  | gcStore leaf =>
    obtain ⟨layer, doing, -⟩ := enabled
    rw [next, doing]
    exact increasing

theorem run_covered (covered : Covered s) (increasing : s.Increasing) {steps : List Step} (runs : s.Runs steps)
    (keeps : s.KeepsAll steps) : Covered (s.run steps) ∧ (s.run steps).Increasing := by
  induction steps generalizing s with
  | nil => exact ⟨covered, increasing⟩
  | cons step rest ih =>
    exact ih (step_covered covered runs.1 keeps.1) (step_increasing covered increasing runs.1) runs.2 keeps.2

/-- As long as no raised phantom epoch is lost, every write and remove of a key is given a timestamp above those of all
earlier ones. -/
theorem stamps_increase (start : Start s) {steps : List Step} (runs : s.Runs steps) (keeps : s.KeepsAll steps) :
    (s.run steps).Increasing :=
  (run_covered (start_covered start) (by rw [Increasing, start.stamps]; exact .nil) runs keeps).2

/-- An empty tree of one leaf. The second thread has seen later rows. -/
def started : Leaves where
  phantom _ := 0
  prev _ := none
  owner _ := 0
  activity _ := none
  rows _ := none
  ts thread := if thread = 1 then 10 else 2
  fresh := 1
  stamps := []

theorem started_start : Start started := ⟨rfl, fun _ => rfl, fun _ => Nat.one_pos, fun _ _ link => by cases link⟩

/-- A leaf splits, the key in its right half is removed, and so is that leaf. Its raised phantom epoch goes to the leaf before it, where
another thread writes the key again. -/
def handedOver : List Step :=
  [.write 0 [97], .write 1 [98], .splitMake 0, .splitLink 0 (fun key => key = [98]), .remove 1 [98], .removeStore 1, .deleteBegin 1,
    .deleteRaise 1, .deleteCheck 1, .unlink 1, .write 0 [98]]

theorem right_vacant : (started.run (handedOver.take 6)).Vacant 1 := by
  intro key owned
  by_cases same : key = [98]
  · rw [same]
    rfl
  · have stays : (if decide (key = [98]) = true then 1 else 0) = 1 := owned
    rw [if_neg (by simpa using same)] at stays
    cases stays

theorem handedOver_runs : started.Runs handedOver :=
  ⟨rfl, rfl, ⟨by decide, rfl⟩, ⟨⟨1, rfl⟩, fun _ _ => rfl⟩, ⟨rfl, by decide⟩, ⟨14, rfl⟩, ⟨⟨by decide, rfl⟩, by decide, right_vacant⟩,
    rfl, ⟨0, rfl⟩, rfl, rfl, trivial⟩

theorem handedOver_keeps : started.KeepsAll handedOver := by
  refine ⟨trivial, trivial, trivial, ?_, trivial, ?_, trivial, trivial, trivial, ?_, trivial, trivial⟩
  · intro new doing
    cases doing
    decide
  · intro epoch doing
    cases doing
    decide
  · intro before link
    cases link
    decide

theorem stamps_increase_handedOver : (started.run handedOver).Increasing ∧
    (started.run handedOver).stamps = [([97], 2), ([98], 10), ([98], 12), ([98], 14)] :=
  ⟨stamps_increase started_start handedOver_runs handedOver_keeps, rfl⟩

/-- While a remove of the key `a` has read the phantom epoch of its leaf, the next leaf, which held `b`, raises it and is
removed; the remove's store takes the raise back, and `b` is written again. -/
def overwritten : List Step :=
  [.write 0 [97], .write 1 [98], .splitMake 0, .splitLink 0 (fun key => key = [98]), .remove 1 [98], .removeStore 1,
    .deleteBegin 1, .remove 0 [97], .deleteRaise 1, .deleteCheck 1, .removeStore 0, .unlink 1, .write 2 [98]]

theorem raise_overwritten : Start started ∧ started.Runs overwritten ∧
    (started.run overwritten).stamps = [([97], 2), ([98], 10), ([98], 12), ([97], 4), ([98], 6)] ∧
    ¬ (started.run overwritten).Increasing := by
  have stamps : (started.run overwritten).stamps = [([97], 2), ([98], 10), ([98], 12), ([97], 4), ([98], 6)] := rfl
  refine ⟨started_start, ?_, stamps, ?_⟩
  · exact ⟨rfl, rfl, ⟨by decide, rfl⟩, ⟨⟨1, rfl⟩, fun _ _ => rfl⟩, ⟨rfl, by decide⟩, ⟨14, rfl⟩,
      ⟨⟨by decide, rfl⟩, by decide, right_vacant⟩, ⟨rfl, by decide⟩, rfl, ⟨0, rfl⟩, ⟨6, rfl⟩, rfl, rfl, trivial⟩
  · rw [Increasing, stamps]
    decide

/-! ### The timestamps of the queries -/

/-- A thread's view of the leaves, where each has stopped moving. -/
structure Seen (s : Leaves) (thread : Nat) (live : Server) : Prop where
  phantom : live.phantom = s.phantom
  ts : live.ts = s.ts thread
  rows : ∀ key, s.rows key = (live.table key).map ValueBag.timestamp

theorem stamp_of_seen {thread : Nat} {live : Server} (seen : Seen s thread live) (key : Bytes) :
    s.stamp thread key = (live.table key).elim (live.seen { leaf := s.owner key } key) fun old =>
      updateTimestamp (live.seen { leaf := s.owner key } key) old.timestamp := by
  unfold stamp Server.seen
  rw [seen.rows key, seen.phantom, seen.ts]
  cases live.table key <;> rfl

theorem applyPut_ts {ts : Nat} {value : Option ValueBag} {changes : Changes} {row : ValueBag} {times : QueryTimes}
    (put : applyPut ts value changes = some (row, times)) :
    times.ts = value.elim ts fun old => updateTimestamp ts old.timestamp := by
  unfold applyPut at put
  split at put
  · obtain ⟨row, -, same⟩ := Option.bind_eq_some_iff.mp put
    cases same
    rfl
  · dsimp only at put
    split at put
    all_goals
      obtain ⟨row, -, same⟩ := Option.bind_eq_some_iff.mp put
      cases same
      rfl

theorem applyReplace_ts (ts : Nat) (value : Option ValueBag) (v : Bytes) :
    (applyReplace ts value v).2.ts = value.elim ts fun old => updateTimestamp ts old.timestamp := by
  cases value <;> rfl

/-- The record of a request carries the timestamp that the step gives its key. -/
theorem put_stamp {thread : Nat} {live live' : Server} (seen : Seen s thread live) {key wire : Bytes} {changes : Changes}
    {record : LogRecord} {room : Bool} {reused : Option (Nat → UInt8)}
    (ran : live.onego { leaf := s.owner key, room, reused } (.put key changes wire) = some (live', some record)) :
    record.ts = s.stamp thread key := by
  obtain ⟨-, ran⟩ := Option.ite_none_right_eq_some.mp ran
  obtain ⟨⟨row, times⟩, put, same⟩ := Option.bind_eq_some_iff.mp ran
  cases same
  rw [Server.logRecord_ts, applyPut_ts put, stamp_of_seen seen key]
  rfl

theorem replace_stamp {thread : Nat} {live live' : Server} (seen : Seen s thread live) {key value : Bytes}
    {record : LogRecord} {room : Bool} {reused : Option (Nat → UInt8)}
    (ran : live.onego { leaf := s.owner key, room, reused } (.replace key value) = some (live', some record)) :
    record.ts = s.stamp thread key := by
  obtain ⟨-, ran⟩ := Option.ite_none_right_eq_some.mp ran
  cases ran
  rw [Server.logRecord_ts, stamp_of_seen seen key]
  exact applyReplace_ts _ (live.table key) value

theorem remove_logged {thread : Nat} {live live' : Server} (seen : Seen s thread live) {key : Bytes}
    {record : LogRecord} {room : Bool} {reused : Option (Nat → UInt8)}
    (ran : live.onego { leaf := s.owner key, room, reused } (.remove key) = some (live', some record)) :
    (s.next (.remove thread key)).stamps = s.stamps ++ [(key, record.ts)] := by
  unfold Server.onego at ran
  dsimp only at ran
  split at ran
  · cases ran
  · rename_i old found
    have row : s.rows key = some old.timestamp := by
      rw [seen.rows key, found]
      rfl
    cases ran
    rw [Server.logRecord_ts, next_remove, row, ← seen.ts]
    rfl

end Leaves

end Masstree
