import Masstree.Tree.Cursor

/-!
# Cursors on a locked leaf

What holds of a cursor from its search to `finish`, and what the search has done to the leaf.
-/

namespace Masstree.Tree
open Msgpack (Bytes)
open Nodeversion (lockBit insertingBit splittingBit vinsertLowbit)

variable {V : Type}

/-! ### Leaves between operations -/

namespace Leaf

variable {l : Leaf V} {ka : Key}

structure Wf (l : Leaf V) : Prop where
  perm : l.perm.Wf
  slots : l.slots.length = width
  stable : l.version.Stable

theorem Wf.size_lt (wf : l.Wf) : l.size < 16 := Nat.lt_succ_of_le wf.perm.size_le

theorem lower_bounds (l : Leaf V) (ka : Key) :
    (l.lower ka).1 ≤ l.size ∧ ∀ p, (l.lower ka).2 = some p → (l.lower ka).1 < l.size := by
  have bounds := BinarySearch.lower_bounds
    (fun m => ka.compare (l.slot (l.perm.get m)).ikey0 (l.slot (l.perm.get m)).keylenx) l.size (Nat.zero_le l.size)
  refine ⟨bounds.1, ?_⟩
  intro p found
  unfold lower at found ⊢
  simp only at found ⊢
  split at found
  · exact bounds.2 ‹_›
  · cases found

theorem size_eq_length_keys (l : Leaf V) : l.size = l.keys.length := (List.length_map _).symm

/-- Only what the live slots hold counts. -/
theorem keys_congr {l l' : Leaf V} (live : l'.perm.live = l.perm.live)
    (same : ∀ p ∈ l.perm.live, (l'.slot p).key = (l.slot p).key) : l'.keys = l.keys := by
  unfold keys
  rw [live]
  exact List.map_congr_left same

theorem slot_assign (l : Leaf V) {p q : Nat} (ka : Key) (other : q ≠ p) : (l.assign p ka).slot q = l.slot q := by
  unfold slot assign
  rw [List.getD_eq_getElem?_getD, List.getD_eq_getElem?_getD, List.getElem?_set_ne other.symm]

theorem key_setValue (l : Leaf V) (p q : Nat) (v : V) : ((l.setValue p v).slot q).key = (l.slot q).key := by
  unfold slot setValue
  rw [List.getD_eq_getElem?_getD, List.getD_eq_getElem?_getD, List.getElem?_modify]
  cases l.slots[q]? with
  | none => rfl
  | some s =>
    simp only [Option.map_eq_map, Option.map_some, Option.getD_some]
    split <;> rfl

theorem unlock_wf (perm : l.perm.Wf) (slots : l.slots.length = width) : l.unlock.Wf := ⟨perm, slots, Nodeversion.stable_unlock _⟩

/-- `full_unlocked_version_value` of a locked leaf is `full_version_value` once it is unlocked. -/
theorem fullUnlocked_of_locked (locked : l.version.has lockBit = true) :
    l.fullUnlockedVersionValue = l.unlock.fullVersionValue := by
  unfold fullUnlockedVersionValue
  rw [if_pos locked]
  rfl

theorem fullUnlocked_of_stable (stable : l.version.Stable) : l.fullUnlockedVersionValue = l.fullVersionValue := by
  have unlocked : ¬l.version.has lockBit = true := by
    rw [stable.has (by decide)]
    decide
  unfold fullUnlockedVersionValue
  rw [if_neg unlocked]
  rfl

theorem wf_makeRoot : (makeRoot : Leaf V).Wf :=
  ⟨Permuter.wf_makeSorted (Nat.zero_le _), List.length_replicate, show Nodeversion.isleafBit.markRoot.Stable by decide⟩

theorem wf_ofLayer (oka : Key) : (ofLayer oka : Leaf V).Wf := by
  refine ⟨Permuter.wf_makeSorted (by decide), ?_, show Nodeversion.isleafBit.markRoot.Stable by decide⟩
  show (Slot.ofLayer oka :: List.replicate (width - 1) (default : Slot V)).length = width
  rw [List.length_cons, List.length_replicate]
  rfl

/-- The last leaf of a new layer holds the old key, and has room for the new one. -/
theorem ofTwo_spec (oka ka : Key) (old : Option V) :
    (ofTwo oka ka old).Wf ∧ (ofTwo oka ka old).size = 1 := by
  unfold ofTwo
  split
  · refine ⟨⟨Permuter.wf_makeSorted (by decide), ?_, show Nodeversion.isleafBit.markRoot.Stable by decide⟩, rfl⟩
    simp only [List.length_cons, List.length_replicate]
    rfl
  · refine ⟨⟨(Permuter.wf_makeSorted (by decide)).removeToBack (by decide), ?_,
      show Nodeversion.isleafBit.markRoot.Stable by decide⟩, rfl⟩
    simp only [List.length_cons, List.length_replicate]
    rfl

end Leaf

theorem makeTwig_wf {fuel : Nat} {oka ka : Key} {twig : List (Leaf V)} {rest : Key × Key}
    (made : makeTwig fuel oka ka = some (twig, rest)) : ∀ l ∈ twig, l.Wf := by
  induction fuel generalizing oka ka twig with
  | zero => cases made
  | succ fuel ih =>
    unfold makeTwig at made
    split at made
    · obtain ⟨⟨below, rest⟩, deeper, same⟩ := Option.map_eq_some_iff.mp made
      obtain ⟨rfl, rfl⟩ := Prod.mk.inj same
      intro l mem
      rcases List.mem_cons.mp mem with rfl | mem
      · exact Leaf.wf_ofLayer oka
      · exact ih deeper l mem
    · obtain ⟨rfl, -⟩ := Prod.mk.inj (Option.some.inj made)
      intro l mem
      cases mem

/-! ### Splits -/

theorem splitRounds_bounds {ikey : Nat → Nat} {n mid m : Nat} (le : mid ≤ n) (fuel k : Nat)
    (found : splitRounds ikey n mid fuel k = some m) : 0 < m ∧ m ≤ n := by
  induction fuel generalizing k with
  | zero => cases found
  | succ fuel ih =>
    unfold splitRounds at found
    split at found
    · obtain rfl := Option.some.inj found
      omega
    · split at found
      · obtain rfl := Option.some.inj found
        omega
      · exact ih (k + 1) found

theorem splitPoint_bounds {ikey : Nat → Nat} {n mid m : Nat} (pos : 0 < mid) (le : mid ≤ n)
    (found : splitPoint ikey n mid = some m) : 0 < m ∧ m ≤ n := by
  unfold splitPoint at found
  split at found
  · exact splitRounds_bounds le _ _ found
  · obtain rfl := Option.some.inj found
    exact ⟨pos, le⟩

/-- A leaf whose only free slot, if any, is slot 0. -/
theorem size_of_full {l : Leaf V} (perm : l.perm.Wf) (full : l.size < width → l.perm.back = 0)
    (full' : l.size < width → (l.perm.exchange l.size (width - 1)).back = 0) : 14 ≤ l.size := by
  by_contra small
  have room : l.size < width := by
    unfold width
    omega
  have len : l.perm.slots.length = 15 := by
    rw [Permuter.slots, List.length_append]
    exact perm.length
  have first := full' room
  have last := full room
  rw [Permuter.back_exchange perm] at first
  unfold Permuter.back at last
  unfold Permuter.get at first last
  rw [List.getD_eq_getElem _ _ (by omega)] at first
  rw [List.getD_eq_getElem _ _ (by rw [len]; decide)] at last
  have same := (List.Nodup.getElem_inj_iff perm.nodup).mp (first.trans last.symm)
  unfold width at same
  omega

/-- The permuter of the new leaf, with room for the new key where that goes there. -/
def rightPerm (n mid kxi : Nat) : Permuter :=
  if mid ≤ kxi then (Permuter.makeSorted (n + 1 - mid)).removeToBack (kxi - mid) else .makeSorted (n + 1 - mid)

theorem rightPerm_spec {n kxi : Nat} (mid : Nat) (most : n + 1 - mid ≤ 15) (le : kxi ≤ n) :
    (rightPerm n mid kxi).Wf ∧ (rightPerm n mid kxi).size = if mid ≤ kxi then n - mid else n + 1 - mid := by
  unfold rightPerm
  split
  · refine ⟨(Permuter.wf_makeSorted most).removeToBack ?_, ?_⟩
    · rw [Permuter.size_makeSorted]
      omega
    · unfold Permuter.size
      rw [Permuter.live_removeToBack, Permuter.live_makeSorted, List.length_eraseIdx_of_lt, List.length_range]
      · omega
      · rw [List.length_range]
        omega
  · exact ⟨Permuter.wf_makeSorted most, Permuter.size_makeSorted _⟩

/-- What `split_into` makes of a full leaf, and where the new key goes. -/
structure LeafSplit.Ok (s : LeafSplit V) (l : Leaf V) (kxi : Nat) : Prop where
  perm : s.right.perm.Wf
  slots : s.right.slots.length = width
  version : s.right.version = l.version
  left : l.size - s.right.size < 15 ∨ s.splitType ≠ 0
  old : s.splitType = 0 → kxi ≤ l.size - s.right.size
  new : s.splitType ≠ 0 → s.right.size < 15 ∧ kxi - (l.size - s.right.size) ≤ s.right.size

theorem splitInto_ok {l : Leaf V} (perm : l.perm.Wf) (many : 14 ≤ l.size) {prev next : Bool} {ka : Key} {kxi : Nat}
    (le : kxi ≤ l.size) {s : LeafSplit V} (split_ : l.splitInto prev next ka kxi = some s) : s.Ok l kxi := by
  have most : l.size ≤ 15 := perm.size_le
  unfold Leaf.splitInto at split_
  obtain ⟨mid, point, rfl⟩ := Option.map_eq_some_iff.mp split_
  have start : 0 < (if kxi = 0 ∧ ¬prev then 1 else if kxi = l.size ∧ ¬next then l.size else width / 2 + 1) ∧
      (if kxi = 0 ∧ ¬prev then 1 else if kxi = l.size ∧ ¬next then l.size else width / 2 + 1) ≤ l.size := by
    unfold width
    split
    · omega
    · split <;> omega
  obtain ⟨pos, top⟩ := splitPoint_bounds start.1 start.2 point
  obtain ⟨wf, size⟩ := rightPerm_spec mid (by omega) le
  have moved : (l.movedSlots ka kxi mid).length = l.size + 1 - mid := by
    unfold Leaf.movedSlots
    rw [List.length_map, List.length_range']
  refine ⟨wf, ?_, rfl, ?_, ?_, ?_⟩
  · show (l.movedSlots ka kxi mid ++ List.replicate (width - (l.movedSlots ka kxi mid).length) default).length = width
    rw [List.length_append, List.length_replicate, moved]
    unfold width
    omega
  · show l.size - (rightPerm l.size mid kxi).size < 15 ∨ (if kxi < mid then 0 else if mid = l.size then 2 else 1) ≠ 0
    rw [size]
    split
    · right
      rw [if_neg (by omega)]
      split <;> decide
    · left
      omega
  · show (if kxi < mid then 0 else if mid = l.size then 2 else 1) = 0 → kxi ≤ l.size - (rightPerm l.size mid kxi).size
    rw [size]
    intro zero
    split at zero
    · rw [if_neg (by omega)]
      omega
    · split at zero <;> cases zero
  · show (if kxi < mid then 0 else if mid = l.size then 2 else 1) ≠ 0 → (rightPerm l.size mid kxi).size < 15 ∧
      kxi - (l.size - (rightPerm l.size mid kxi).size) ≤ (rightPerm l.size mid kxi).size
    rw [size]
    intro new
    by_cases less : kxi < mid
    · rw [if_pos less] at new
      exact absurd rfl new
    · rw [if_pos (Nat.le_of_not_lt less)]
      omega

/-- The old leaf, once the moved items are stripped from it. -/
theorem strip_spec {l : Leaf V} (perm : l.perm.Wf) (right : Leaf V) :
    (l.strip right).perm.Wf ∧ (l.strip right).size = l.size - right.size := by
  have most : l.size ≤ 15 := perm.size_le
  have shrunk := perm.setSize (l.size - right.size)
  have size := Permuter.size_setSize perm (n := l.size - right.size) (by omega)
  by_cases full : l.size = width
  · have same : (l.strip right).perm = l.perm.setSize (l.size - right.size) := if_neg (fun other => other full)
    rw [Leaf.size, same]
    exact ⟨shrunk, size⟩
  · have same : (l.strip right).perm =
        (l.perm.setSize (l.size - right.size)).exchange (l.perm.setSize (l.size - right.size)).size (width - 1) :=
      if_pos full
    unfold width at full
    have last : (l.perm.setSize (l.size - right.size)).size ≤ width - 1 := by
      unfold width
      omega
    rw [Leaf.size, same]
    refine ⟨shrunk.exchange (by omega) (by decide), ?_⟩
    exact (congrArg List.length (Permuter.live_exchange (Nat.le_refl _) last)).trans size

/-! ### Between the search and `finish` -/

namespace Tcursor

variable {l : Leaf V} {c : Tcursor V} {ka : Key}

/-- What is known of a cursor that has locked leaf `l`, until it finishes. -/
structure Opened (l : Leaf V) (c : Tcursor V) : Prop where
  inside : c.n < c.nodes.length
  locked : c.node.version.has lockBit = true
  perm : c.node.perm.Wf
  slots : c.node.slots.length = width
  found : c.state = 1 → c.n = 0 ∧ c.kxi < c.node.size ∧ c.node.version.has splittingBit = false ∧
    c.node.version.has insertingBit = false
  room : c.state = 2 → c.node.size < 15 ∧ c.kxi ≤ c.node.size
  /-- the leaves that are not locked any more -/
  others : ∀ i, i ≠ c.n → ∀ other, c.nodes[i]? = some other → other.Wf
  reported : ∀ e ∈ c.newNodes, e.1 ≠ 0 ∧ e.1 ≠ c.n ∧ ∃ made, c.nodes[e.1]? = some made ∧ made.fullVersionValue = e.2
  left : c.n ≠ 0 → ∃ old, c.nodes[0]? = some old ∧ old.fullVersionValue = c.updatedV ∧
    old.version.counter ≠ l.version.counter
  counter : c.n = 0 → c.node.version.counter = l.version.counter
  same : c.n = 0 → c.node.version.has splittingBit = false → c.node.version.has insertingBit = false →
    c.node.modstate = l.modstate ∧ c.node.keys = l.keys ∧ (c.state = 2 → l.modstate = .insert)

theorem findLocked_cases (found : findLocked l ka = some c) : l.deletedLayer = false ∧ ∃ state,
    c = { nodes := [l.lock], n := 0, ka, kxi := (l.lower ka).1, kxp := (l.lower ka).2, state } ∧
      (state = 0 ∨ state = 1 ∧ ∃ p, (l.lower ka).2 = some p) := by
  unfold findLocked at found
  split at found
  · cases found
  · rename_i live
    simp only [not_or, Bool.not_eq_true] at live
    dsimp only at found
    split at found
    · cases found
    · refine ⟨live.2, _, (Option.some.inj found).symm, ?_⟩
      cases kxp : (l.lower ka).2 with
      | none => exact .inl (if_neg nofun)
      | some p =>
        split
        · exact .inr ⟨rfl, p, rfl⟩
        · exact .inl rfl

/-- A cursor on the leaf as it was. -/
theorem opened_lock (wf : l.Wf) (nodes : c.nodes = [l.lock]) (first : c.n = 0) (none : c.newNodes = [])
    (present : c.state = 1 → c.kxi < l.size) (search : c.state ≠ 2) : c.Opened l := by
  have node : c.node = l.lock := by
    rw [Tcursor.node, nodes, first]
    rfl
  have splitting : l.version.lock.has splittingBit = false := by
    rw [Nodeversion.splitting_lock]
    exact wf.stable.has (by decide)
  have inserting : l.version.lock.has insertingBit = false := by
    rw [Nodeversion.inserting_lock]
    exact wf.stable.has (by decide)
  constructor
  · rw [first, nodes]
    exact Nat.one_pos
  · rw [node]
    exact Nodeversion.locked_lock _
  · rw [node]
    exact wf.perm
  · rw [node]
    exact wf.slots
  · intro one
    rw [node]
    exact ⟨first, present one, splitting, inserting⟩
  · intro two
    exact absurd two search
  · intro i other m at_
    rw [first] at other
    rw [nodes, List.getElem?_cons, if_neg other] at at_
    cases at_
  · intro e mem
    rw [none] at mem
    cases mem
  · intro moved
    exact absurd first moved
  · intro _
    rw [node]
    exact Nodeversion.counter_lock _
  · intro _ _ _
    rw [node]
    exact ⟨rfl, rfl, fun two => absurd two search⟩

theorem findLocked_opened (wf : l.Wf) (found : findLocked l ka = some c) : c.Opened l := by
  obtain ⟨-, state, rfl, which⟩ := findLocked_cases found
  apply opened_lock wf rfl rfl rfl
  · intro one
    rcases which with zero | ⟨-, p, at_⟩
    · exact absurd (zero.symm.trans one) (by decide)
    · exact (l.lower_bounds ka).2 p at_
  · intro two
    rcases which with zero | ⟨one, -⟩
    · exact absurd (zero.symm.trans two) (by decide)
    · exact absurd (one.symm.trans two) (by decide)

/-- A cursor that is to insert into the leaf itself, and has made no leaf or one. -/
theorem opened_here {l' : Leaf V} {made : List (Leaf V)} (nodes : c.nodes = l' :: made) (first : c.n = 0)
    (two : c.state = 2) (locked : l'.version.has lockBit = true) (perm : l'.perm.Wf) (slots : l'.slots.length = width)
    (room : l'.size < 15 ∧ c.kxi ≤ l'.size) (counter : l'.version.counter = l.version.counter)
    (same : l'.version.has splittingBit = false → l'.version.has insertingBit = false →
      l'.modstate = l.modstate ∧ l'.keys = l.keys ∧ l.modstate = .insert)
    (wfs : ∀ m ∈ made, m.Wf)
    (reported : ∀ e ∈ c.newNodes, ∃ i m, made[i]? = some m ∧ e = (i + 1, m.fullVersionValue)) : c.Opened l := by
  have node : c.node = l' := by
    rw [Tcursor.node, nodes, first]
    rfl
  constructor
  · rw [first, nodes]
    exact Nat.succ_pos _
  · rwa [node]
  · rwa [node]
  · rwa [node]
  · intro one
    exact absurd (one.symm.trans two) (by decide)
  · intro _
    rwa [node]
  · intro i other m at_
    cases i with
    | zero => exact absurd first.symm other
    | succ i =>
      rw [nodes, List.getElem?_cons_succ] at at_
      exact wfs m (List.mem_of_getElem? at_)
  · intro e mem
    obtain ⟨i, m, at_, rfl⟩ := reported e mem
    refine ⟨Nat.succ_ne_zero i, ?_, m, ?_, rfl⟩
    · rw [first]
      exact Nat.succ_ne_zero i
    · rw [nodes, List.getElem?_cons_succ]
      exact at_
  · intro moved
    exact absurd first moved
  · intro _
    rwa [node]
  · intro _ splitting inserting
    rw [node] at splitting inserting ⊢
    obtain ⟨mode, keys, insert⟩ := same splitting inserting
    exact ⟨mode, keys, fun _ => insert⟩

/-- A cursor that is to insert into the last of the leaves it has made. -/
theorem opened_made (old new : Leaf V) (twig : List (Leaf V)) (nodes : c.nodes = old.unlock :: twig ++ [new])
    (last : c.n = twig.length + 1) (two : c.state = 2) (locked : new.version.has lockBit = true) (perm : new.perm.Wf)
    (slots : new.slots.length = width) (room : new.size < 15 ∧ c.kxi ≤ new.size) (wf : old.unlock.Wf)
    (locked' : old.version.has lockBit = true)
    (dirty : old.version.has splittingBit = true ∨ old.version.has insertingBit = true)
    (counter : old.version.counter = l.version.counter) (updated : c.updatedV = old.fullUnlockedVersionValue)
    (wfs : ∀ made ∈ twig, made.Wf)
    (reported : ∀ e ∈ c.newNodes, ∃ i made, twig[i]? = some made ∧ e = (i + 1, made.fullUnlockedVersionValue)) :
    c.Opened l := by
  have at_last : c.nodes[c.n]? = some new := by
    rw [nodes, last, List.cons_append, List.getElem?_cons_succ, List.getElem?_append_right (Nat.le_refl _), Nat.sub_self]
    rfl
  have node : c.node = new := by
    rw [Tcursor.node, List.getD_eq_getElem?_getD, at_last]
    rfl
  have moved : c.n ≠ 0 := by
    rw [last]
    exact Nat.succ_ne_zero _
  have at_twig : ∀ {i : Nat}, i < twig.length → c.nodes[i + 1]? = twig[i]? := by
    intro i below
    rw [nodes, List.cons_append, List.getElem?_cons_succ, List.getElem?_append_left below]
  constructor
  · exact (List.getElem?_eq_some_iff.mp at_last).1
  · rwa [node]
  · rwa [node]
  · rwa [node]
  · intro one
    exact absurd (one.symm.trans two) (by decide)
  · intro _
    rwa [node]
  · intro i other m at_
    cases i with
    | zero =>
      rw [nodes] at at_
      obtain rfl := Option.some.inj at_
      exact wf
    | succ i =>
      have below : i < twig.length := by
        have inside := (List.getElem?_eq_some_iff.mp at_).1
        rw [nodes, List.length_append, List.length_cons, List.length_singleton] at inside
        omega
      rw [at_twig below] at at_
      exact wfs m (List.mem_of_getElem? at_)
  · intro e mem
    obtain ⟨i, made, at_, rfl⟩ := reported e mem
    have below := (List.getElem?_eq_some_iff.mp at_).1
    refine ⟨Nat.succ_ne_zero i, ?_, made, (at_twig below).trans at_, ?_⟩
    · show i + 1 ≠ c.n
      omega
    · exact (Leaf.fullUnlocked_of_stable (wfs made (List.mem_of_getElem? at_)).stable).symm
  · intro _
    refine ⟨old.unlock, by rw [nodes]; rfl, ?_, ?_⟩
    · rw [updated, Leaf.fullUnlocked_of_locked locked']
    · rw [← counter]
      exact Nodeversion.counter_unlock_ne dirty
  · intro here
    exact absurd here moved
  · intro here
    exact absurd here moved

theorem makeNewLayer_opened (wf : l.Wf) {c' : Tcursor V} {p : Nat} (nodes : c.nodes = [l.lock]) (first : c.n = 0)
    (two : c.state = 2) (made : c.makeNewLayer p = some c') : c'.Opened l := by
  have node : c.node = l.lock := by
    rw [Tcursor.node, nodes, first]
    rfl
  unfold makeNewLayer at made
  obtain ⟨⟨twig, oka, ka⟩, twigged, rfl⟩ := Option.map_eq_some_iff.mp made
  rw [node]
  obtain ⟨last, one⟩ := Leaf.ofTwo_spec oka ka (l.lock.slot p).lv
  dsimp only
  refine opened_made (l.lock.setLayer p) (Leaf.ofTwo oka ka (l.lock.slot p).lv).lock twig rfl rfl two
    ?_ ?_ ?_ ?_ ?_ ?_ ?_ ?_ ?_ ?_ ?_
  · exact Nodeversion.locked_lock _
  · exact last.perm
  · exact last.slots
  · have size : (Leaf.ofTwo oka ka (l.lock.slot p).lv).lock.size = 1 := one
    rw [size]
    refine ⟨by decide, ?_⟩
    dsimp only
    split <;> decide
  · exact Leaf.unlock_wf wf.perm ((List.length_modify _ _ _).trans wf.slots)
  · show (l.version.lock.markInsert).has lockBit = true
    rw [Nodeversion.locked_markInsert, Nodeversion.locked_lock]
  · exact .inr (Nodeversion.inserting_markInsert _)
  · show (l.version.lock.markInsert).counter = l.version.counter
    rw [Nodeversion.counter_markInsert, Nodeversion.counter_lock]
  · rfl
  · exact makeTwig_wf twigged
  · intro e mem
    obtain ⟨⟨made, i⟩, at_, rfl⟩ := List.mem_map.mp mem
    exact ⟨i, made, List.mem_zipIdx_iff_getElem?.mp at_, rfl⟩

/-- What `find_insert` has done to the leaf before it makes room. -/
structure Started (l l' : Leaf V) : Prop where
  perm : l'.perm = l.perm
  slots : l'.slots = l.slots
  locked : l'.version.has lockBit = true
  counter : l'.version.counter = l.version.counter
  same : l'.version.has insertingBit = false → l'.modstate = l.modstate ∧ l.modstate = .insert

theorem started (l : Leaf V) : Started l l.lock.startInsert := by
  unfold Leaf.startInsert
  split
  · refine ⟨rfl, rfl, ?_, ?_, ?_⟩
    · show (l.version.lock.markInsert).has lockBit = true
      rw [Nodeversion.locked_markInsert, Nodeversion.locked_lock]
    · show (l.version.lock.markInsert).counter = l.version.counter
      rw [Nodeversion.counter_markInsert, Nodeversion.counter_lock]
    · intro clean
      exact absurd (clean.symm.trans (Nodeversion.inserting_markInsert l.version.lock)) (by decide)
  · rename_i inserts
    exact ⟨rfl, rfl, Nodeversion.locked_lock _, Nodeversion.counter_lock _, fun _ => ⟨rfl, not_not.mp inserts⟩⟩

/-- The new key goes to the next free slot. -/
theorem opened_assign (wf : l.Wf) {l' : Leaf V} (start : Started l l') (perm : Permuter) (live : perm.live = l.perm.live)
    (wf' : perm.Wf) (room : l.size < 15) (nodes : c.nodes = [{ l' with perm }.assign perm.back ka]) (first : c.n = 0)
    (two : c.state = 2) (none : c.newNodes = []) (le : c.kxi ≤ l.size) : c.Opened l := by
  have size : perm.size = l.size := congrArg List.length live
  apply opened_here nodes first two start.locked wf'
  · exact (List.length_set ..).trans ((congrArg List.length start.slots).trans wf.slots)
  · have same : ({ l' with perm }.assign perm.back ka).size = l.size := size
    rw [same]
    exact ⟨room, le⟩
  · exact start.counter
  · intro _ clean
    obtain ⟨mode, insert⟩ := start.same clean
    refine ⟨mode, ?_, insert⟩
    apply Leaf.keys_congr live
    intro p mem
    have other : p ≠ perm.back := by
      intro same
      rw [← live, same] at mem
      exact wf'.not_live (wf'.back_free (by rwa [size])) mem
    rw [Leaf.slot_assign _ ka other]
    exact congrArg (fun slots => (slots.getD p default).key) start.slots
  · intro m mem
    cases mem
  · intro e mem
    rw [none] at mem
    cases mem

theorem makeSplit_opened (wf : l.Wf) {l' : Leaf V} (start : Started l l') {c' : Tcursor V} {prev next : Bool}
    (nodes : c.nodes = [l']) (first : c.n = 0) (two : c.state = 2) (none : c.newNodes = []) (le : c.kxi ≤ l.size)
    (full : l.size < width → l.perm.back = 0) (made : c.makeSplit prev next = some c') : c'.Opened l := by
  have node : c.node = l' := by
    rw [Tcursor.node, nodes, first]
    rfl
  have size : l'.size = l.size := congrArg Permuter.size start.perm
  unfold makeSplit at made
  rw [node] at made
  dsimp only at made
  split at made
  · rename_i room
    obtain rfl := Option.some.inj made
    have below : l'.perm.size ≤ width - 1 := Nat.le_sub_one_of_lt room.1
    rw [start.perm] at below
    refine opened_assign wf start (l'.perm.exchange l'.size (width - 1)) ?_ ?_ ?_ rfl first two none le
    · rw [size, start.perm]
      exact Permuter.live_exchange (Nat.le_refl _) below
    · rw [start.perm]
      exact wf.perm.exchange room.1 (by decide)
    · rw [← size]
      exact room.1
  · rename_i crowded
    obtain ⟨s, split_, rfl⟩ := Option.map_eq_some_iff.mp made
    have perm : l'.perm.Wf := start.perm ▸ wf.perm
    have many : 14 ≤ l'.size := by
      apply size_of_full perm
      · intro room
        rw [start.perm]
        exact full (size ▸ room)
      · intro room
        exact not_not.mp (fun other => crowded ⟨room, other⟩)
    have ok := splitInto_ok perm many (size ▸ le) split_
    obtain ⟨leftPerm, leftSize⟩ := strip_spec perm s.right
    have rightLocked : s.right.version.has lockBit = true := by
      rw [ok.version]
      exact start.locked
    have leftLocked : (l'.strip s.right).version.has lockBit = true := by
      show (l'.version.markSplit).has lockBit = true
      rw [Nodeversion.locked_markSplit]
      exact start.locked
    have leftCounter : (l'.strip s.right).version.counter = l.version.counter :=
      (Nodeversion.counter_markSplit _).trans start.counter
    have leftSplitting : (l'.strip s.right).version.has splittingBit = true := Nodeversion.splitting_markSplit _
    have leftSlots : (l'.strip s.right).slots.length = width := (congrArg List.length start.slots).trans wf.slots
    split
    · rename_i zero
      refine opened_here rfl first two leftLocked leftPerm ((List.length_set ..).trans leftSlots)
        ?_ leftCounter ?_ ?_ ?_
      · show (l'.strip s.right).size < 15 ∧ c.kxi ≤ (l'.strip s.right).size
        rw [leftSize]
        exact ⟨ok.left.resolve_right (not_not.mpr zero), ok.old zero⟩
      · intro clean
        exact absurd (clean.symm.trans leftSplitting) (by decide)
      · intro m mem
        rw [List.mem_singleton.mp mem]
        exact Leaf.unlock_wf ok.perm ok.slots
      · intro e mem
        rw [List.mem_singleton.mp mem]
        exact ⟨0, s.right.unlock, rfl, by rw [Leaf.fullUnlocked_of_locked rightLocked]⟩
    · rename_i moved
      refine opened_made (l'.strip s.right) s.right [] rfl rfl two rightLocked ok.perm ok.slots ?_
        (Leaf.unlock_wf leftPerm leftSlots) leftLocked (.inl leftSplitting) leftCounter rfl ?_ ?_
      · obtain ⟨room, below⟩ := ok.new moved
        rw [← leftSize] at below
        exact ⟨room, below⟩
      · intro m mem
        cases mem
      · intro e mem
        have none' : e ∈ c.newNodes := mem
        rw [none] at none'
        cases none'

theorem findInsert_opened (wf : l.Wf) {prev next : Bool} (found : findInsert l prev next ka = some c) : c.Opened l := by
  unfold findInsert at found
  obtain ⟨c₀, locked, found⟩ := Option.bind_eq_some_iff.mp found
  obtain ⟨-, state, rfl, which⟩ := findLocked_cases locked
  dsimp only at found
  split at found
  · rename_i one
    obtain rfl := Option.some.inj found
    apply opened_lock wf rfl rfl rfl
    · intro _
      rcases which with zero | ⟨-, p, at_⟩
      · exact absurd (zero.symm.trans one) (by decide)
      · exact (l.lower_bounds ka).2 p at_
    · intro two
      exact absurd (one.symm.trans two) (by decide)
  · have le := (l.lower_bounds ka).1
    split at found
    · exact makeNewLayer_opened wf rfl rfl rfl found
    · have start := started l
      have size : l.lock.startInsert.size = l.size := congrArg Permuter.size start.perm
      split at found
      · rename_i room
        obtain rfl := Option.some.inj found
        refine opened_assign wf start l.lock.startInsert.perm (congrArg _ start.perm) ?_ ?_ rfl rfl rfl rfl le
        · rw [start.perm]
          exact wf.perm
        · rw [← size]
          exact room.1
      · rename_i crowded
        refine makeSplit_opened wf start rfl rfl rfl rfl le ?_ found
        intro room
        by_contra other
        apply crowded
        refine ⟨?_, .inl ?_⟩
        · rw [← size] at room
          exact room
        · rw [← start.perm] at other
          exact other

theorem makeNewLayer_state {c' : Tcursor V} {p : Nat} (made : c.makeNewLayer p = some c') : c'.state = c.state := by
  obtain ⟨⟨twig, oka, ka⟩, -, rfl⟩ := Option.map_eq_some_iff.mp made
  rfl

theorem makeSplit_state {c' : Tcursor V} {prev next : Bool} (made : c.makeSplit prev next = some c') :
    c'.state = c.state := by
  unfold makeSplit at made
  dsimp only at made
  split at made
  · obtain rfl := Option.some.inj made
    rfl
  · obtain ⟨s, -, rfl⟩ := Option.map_eq_some_iff.mp made
    split <;> rfl

theorem makeSplit_ka {c' : Tcursor V} {prev next : Bool} (made : c.makeSplit prev next = some c') : c'.ka = c.ka := by
  unfold makeSplit at made
  dsimp only at made
  split at made
  · obtain rfl := Option.some.inj made
    rfl
  · obtain ⟨s, -, rfl⟩ := Option.map_eq_some_iff.mp made
    split <;> rfl

theorem findInsert_state {prev next : Bool} (found : findInsert l prev next ka = some c) : c.state = 1 ∨ c.state = 2 := by
  obtain ⟨c₀, -, rest⟩ := Option.bind_eq_some_iff.mp found
  dsimp only at rest
  split at rest
  · rename_i one
    obtain rfl := Option.some.inj rest
    exact .inl one
  · right
    split at rest
    · exact makeNewLayer_state rest
    · split at rest
      · obtain rfl := Option.some.inj rest
        rfl
      · exact makeSplit_state rest

end Tcursor

end Masstree.Tree
