import Masstree.Tree.Entries
import Masstree.Tree.Versions

/-!
# The two halves of a full leaf

`split_into` counts positions in the entries with the new one among them, a list that nowhere exists.
-/

namespace Masstree.Tree
open Msgpack (Bytes)
open Positions

variable {V : Type}

theorem rank_ofKey (ka : Key) : (Slot.ofKey ka : Slot V).rank = ka.rank := by
  unfold Slot.ofKey Slot.rank Key.rank
  split
  · rename_i suffix
    have long := ka.hasSuffix_iff.mp suffix
    unfold rank ksufKeylenx Key.length
    dsimp only
    omega
  · rfl

theorem ikey_ofKey (ka : Key) : (Slot.ofKey ka : Slot V).ikey0 = ka.ikey := by
  unfold Slot.ofKey
  split <;> rfl

/-! ### The point of a split -/

/-- Rounds go on while all that they have passed has the ikey of the middle; they end, as some other ikey is there. -/
theorem splitRounds_spec {ikey : Nat → Nat} {n mid : Nat} (pos : 0 < mid) (le : mid ≤ n) (differ : ∃ i, i ≤ n ∧ ikey i ≠ ikey mid)
    (fuel k : Nat) (enough : n < fuel + k) (right : ∀ j, mid ≤ j → j ≤ mid + k → j ≤ n → ikey j = ikey mid)
    (left : ∀ j, j ≤ mid → mid ≤ j + (k + 1) → ikey j = ikey mid) :
    ∃ m, splitRounds ikey n mid fuel k = some m ∧ 0 < m ∧ m ≤ n ∧ ikey (m - 1) ≠ ikey m := by
  induction fuel generalizing k with
  | zero =>
    obtain ⟨i, le', other⟩ := differ
    exfalso
    apply other
    rcases Nat.le_total mid i with after | before
    · exact right i after (by omega) le'
    · exact left i before (by omega)
  | succ fuel ih =>
    unfold splitRounds
    split
    · rename_i found
      refine ⟨_, rfl, by omega, found.1, ?_⟩
      have last := right (mid + k) (Nat.le_add_right _ _) (Nat.le_refl _) (by omega)
      have index : mid + 1 + k - 1 = mid + k := by omega
      rw [index, last]
      exact found.2
    · rename_i passed
      split
      · rename_i found
        refine ⟨_, rfl, by omega, by omega, ?_⟩
        have last := left (mid - (k + 2) + 1) (by omega) (by omega)
        rw [Nat.add_sub_cancel, last]
        exact Ne.symm found.2
      · rename_i passed'
        apply ih (k + 1) (by omega)
        · intro j low high bound
          by_cases new : j = mid + 1 + k
          · subst new
            by_contra other
            exact passed ⟨bound, Ne.symm other⟩
          · exact right j low (by omega) bound
        · intro j high low
          by_cases new : j + (k + 2) = mid
          · have index : j = mid - (k + 2) := by omega
            subst index
            by_contra other
            exact passed' ⟨by omega, Ne.symm other⟩
          · exact left j high (by omega)

theorem splitPoint_spec {ikey : Nat → Nat} {n mid : Nat} (pos : 0 < mid) (le : mid ≤ n) (small : n ≤ width)
    (differ : ∃ i, i ≤ n ∧ ikey i ≠ ikey mid) : ∃ m, splitPoint ikey n mid = some m ∧ 0 < m ∧ m ≤ n ∧ ikey (m - 1) ≠ ikey m := by
  unfold splitPoint
  split
  · rename_i same
    apply splitRounds_spec pos le differ _ _ (Nat.lt_succ_of_le small)
    · intro j low high _
      rw [Nat.le_antisymm high low, Nat.add_zero]
    · intro j high low
      rcases Nat.lt_or_eq_of_le high with lt | rfl
      · have index : j = mid - 1 := by omega
        rw [index, same]
      · rfl
  · rename_i other
    exact ⟨mid, rfl, pos, le, Ne.symm other⟩

/-! ### Ranks and ikeys -/

section Ranks
variable {C : List (Slot V)} {s s' : Slot V} {i j : Nat}

theorem ikey_le (h : s.rank ≤ s'.rank) : s.ikey0 ≤ s'.ikey0 := by
  unfold Slot.rank rank at h
  omega

/-- Ranks increase by one at least. -/
theorem Increasing.rank_add (h : Increasing C) (at_ : C[i]? = some s) (at' : C[i + j]? = some s') : s.rank + j ≤ s'.rank := by
  induction j generalizing s' with
  | zero =>
    obtain rfl := Option.some.inj (at_.symm.trans at')
    exact Nat.le_refl _
  | succ j ih =>
    obtain ⟨inside, there⟩ := List.getElem?_eq_some_iff.mp at'
    have inside' : i + j < C.length := by omega
    have step := List.pairwise_iff_getElem.mp h (i + j) (i + (j + 1)) inside' inside (by omega)
    rw [there] at step
    have before := ih (List.getElem?_eq_getElem inside')
    omega

/-- Ten entries at most have the same ikey. -/
theorem Increasing.exists_other (h : Increasing C) (many : 10 < C.length) (ikey : Nat) :
    ∃ (i : Nat) (s : Slot V), C[i]? = some s ∧ s.ikey0 ≠ ikey := by
  by_contra same
  simp only [not_exists, not_and, not_not] at same
  have first := List.getElem?_eq_getElem (l := C) (i := 0) (by omega)
  have last := List.getElem?_eq_getElem (l := C) (i := 0 + 10) (by omega)
  have apart := h.rank_add first last
  have ikey₁ := same 0 _ first
  have ikey₂ := same (0 + 10) _ last
  unfold Slot.rank rank at apart
  omega

/-- Around a point between different ikeys. -/
theorem Increasing.ikey_split {mid : Nat} (h : Increasing C) (at_ : C[mid - 1]? = some s') (at' : C[mid]? = some s) (pos : 0 < mid)
    (other : s'.ikey0 ≠ s.ikey0) : (∀ e ∈ C.take mid, e.ikey0 < s.ikey0) ∧ ∀ e ∈ C.drop mid, s.ikey0 ≤ e.ikey0 := by
  have split_ : s'.ikey0 < s.ikey0 := by
    have ranks := h.rank_add (j := 1) at_ (by rwa [Nat.sub_add_cancel pos])
    exact Nat.lt_of_le_of_ne (ikey_le (by omega)) other
  refine ⟨?_, ?_⟩
  · intro e mem
    obtain ⟨j, there⟩ := List.mem_iff_getElem?.mp mem
    have lt : j < mid := by
      have inside := (List.getElem?_eq_some_iff.mp there).1
      rw [List.length_take] at inside
      omega
    rw [List.getElem?_take_of_lt lt] at there
    have ranks := h.rank_add (j := mid - 1 - j) there (by rwa [show j + (mid - 1 - j) = mid - 1 by omega])
    exact Nat.lt_of_le_of_lt (ikey_le (by omega)) split_
  · intro e mem
    obtain ⟨j, there⟩ := List.mem_iff_getElem?.mp mem
    rw [List.getElem?_drop] at there
    have ranks := h.rank_add at' there
    exact ikey_le (by omega)

end Ranks

/-! ### The halves -/

section Halves
variable {l : Leaf V} {ka : Key} {kxi mid : Nat} {e : Slot V}

/-- `ikey_after_insert` reads the ikeys of the entries with the new one. -/
theorem ikeyAfterInsert_eq (le : kxi ≤ l.size) (same : e.ikey0 = ka.ikey) {i : Nat} (inside : i ≤ l.size) :
    ∃ s, (l.entries.insertIdx kxi e)[i]? = some s ∧ s.ikey0 = l.ikeyAfterInsert ka kxi i := by
  unfold Leaf.ikeyAfterInsert
  rw [List.getElem?_insertIdx]
  split
  · rename_i before
    exact ⟨_, Leaf.getElem?_entries (Nat.lt_of_lt_of_le before le), rfl⟩
  · rename_i not_before
    split
    · rename_i here
      rw [if_pos (here ▸ (Leaf.length_entries l).symm ▸ le)]
      exact ⟨e, rfl, same⟩
    · rename_i after
      have lt : i - 1 < l.size := by omega
      exact ⟨_, Leaf.getElem?_entries lt, rfl⟩

/-- The slots that are moved are the entries with the new one, from the point of the split on. -/
theorem movedSlots_eq (le : kxi ≤ l.size) (ka : Key) (mid : Nat) :
    l.movedSlots ka kxi mid = (l.entries.insertIdx kxi (.ofKey ka)).drop mid := by
  apply List.ext_getElem?
  intro j
  rw [List.getElem?_drop, List.getElem?_insertIdx, Leaf.movedSlots, List.getElem?_map, Leaf.length_entries]
  by_cases inside : mid + j ≤ l.size
  · have range : (List.range' mid (l.size + 1 - mid))[j]? = some (mid + j) := by
      rw [List.getElem?_range' (by omega), Nat.one_mul]
    rw [range, Option.map_some]
    rcases Nat.lt_trichotomy (mid + j) kxi with before | here | after
    · rw [if_pos before, if_neg (Nat.ne_of_lt before), if_neg (Nat.lt_asymm before),
        Leaf.getElem?_entries (Nat.lt_of_lt_of_le before le)]
    · rw [if_neg (Nat.not_lt_of_le (Nat.le_of_eq here.symm)), if_pos here, if_pos here, if_pos inside]
    · have lt : mid + j - 1 < l.size := by omega
      rw [if_neg (Nat.lt_asymm after), if_neg (Nat.ne_of_gt after), if_neg (Nat.ne_of_gt after), if_pos after,
        Leaf.getElem?_entries lt]
  · have range : (List.range' mid (l.size + 1 - mid))[j]? = none := by
      apply List.getElem?_eq_none
      rw [List.length_range']
      omega
    rw [range, if_neg (by omega), if_neg (by omega), List.getElem?_eq_none]
    · rfl
    · rw [Leaf.length_entries]
      omega

theorem entries_makeSorted {moved pad : List (Slot V)} (r : Leaf V) (slots : r.slots = moved ++ pad) :
    (List.range moved.length).map r.slot = moved := by
  apply List.ext_getElem?
  intro j
  rw [List.getElem?_map]
  by_cases inside : j < moved.length
  · rw [List.getElem?_range inside, Option.map_some, Leaf.slot, slots, List.getD_eq_getElem?_getD, List.getElem?_append_left inside,
      List.getElem?_eq_getElem inside]
    rfl
  · rw [List.getElem?_eq_none (Nat.le_of_not_lt inside), List.getElem?_eq_none]
    · rfl
    · rw [List.length_range]
      exact Nat.le_of_not_lt inside

theorem live_strip (perm : l.perm.Wf) (right : Leaf V) :
    (l.strip right).perm.live = l.perm.live.take (l.size - right.size) := by
  have shrunk := Permuter.live_setSize (p := l.perm) (Nat.sub_le l.size right.size)
  have size := Permuter.size_setSize perm (n := l.size - right.size) (Nat.le_trans (Nat.sub_le _ _) perm.size_le)
  show (if l.size ≠ width then _ else _ : Permuter).live = _
  split
  · rename_i partial_
    have most : l.size ≤ 15 := perm.size_le
    rw [Permuter.live_exchange (Nat.le_refl _), shrunk]
    rw [size]
    unfold width at *
    omega
  · exact shrunk

theorem entries_strip (perm : l.perm.Wf) (right : Leaf V) :
    (l.strip right).entries = l.entries.take (l.size - right.size) := by
  show (l.strip right).perm.live.map l.slot = _
  rw [live_strip perm right, List.map_take]
  rfl

/-- What `split_into` leaves of a leaf: a new leaf that begins at a point between different ikeys. -/
structure LeafSplit.Sound (s : LeafSplit V) (l : Leaf V) (ka : Key) (kxi : Nat) : Prop where
  pos : 0 < s.mid
  inside : s.mid ≤ l.size
  apart : ∃ a b, (l.entries.insertIdx kxi (.ofKey ka))[s.mid - 1]? = some a ∧
    (l.entries.insertIdx kxi (.ofKey ka))[s.mid]? = some b ∧ a.ikey0 ≠ b.ikey0 ∧ s.right.ikeyBound = b.ikey0
  old : kxi < s.mid → s.splitType = 0 ∧ s.right.size = l.size + 1 - s.mid ∧ s.right.entries = l.entries.drop (s.mid - 1)
  new : s.mid ≤ kxi → s.splitType ≠ 0 ∧ s.right.size = l.size - s.mid ∧ s.right.entries = l.entries.drop s.mid ∧
    s.right.perm.back = kxi - s.mid ∧ s.right.slot (kxi - s.mid) = .ofKey ka

theorem splitInto_sound (perm : l.perm.Wf) (sorted : Increasing (l.entries.insertIdx kxi (.ofKey ka))) (many : 14 ≤ l.size)
    (le : kxi ≤ l.size) (prev next : Bool) : ∃ s, l.splitInto prev next ka kxi = some s ∧ s.Sound l ka kxi := by
  have most : l.size ≤ 15 := perm.size_le
  have length : (l.entries.insertIdx kxi (.ofKey ka)).length = l.size + 1 := by
    rw [List.length_insertIdx_of_le_length (Nat.le_trans le (Nat.le_of_eq (Leaf.length_entries l).symm)), Leaf.length_entries]
  have read : ∀ i, i ≤ l.size → ∃ s, (l.entries.insertIdx kxi (.ofKey ka))[i]? = some s ∧
      s.ikey0 = l.ikeyAfterInsert ka kxi i := fun i => ikeyAfterInsert_eq le (ikey_ofKey ka)
  have start : 0 < (if kxi = 0 ∧ ¬prev then 1 else if kxi = l.size ∧ ¬next then l.size else width / 2 + 1) ∧
      (if kxi = 0 ∧ ¬prev then 1 else if kxi = l.size ∧ ¬next then l.size else width / 2 + 1) ≤ l.size := by
    unfold width
    split
    · omega
    · split <;> omega
  unfold Leaf.splitInto
  dsimp only
  generalize (if kxi = 0 ∧ ¬prev then 1 else if kxi = l.size ∧ ¬next then l.size else width / 2 + 1) = first at start
  have differ : ∃ i, i ≤ l.size ∧ l.ikeyAfterInsert ka kxi i ≠ l.ikeyAfterInsert ka kxi first := by
    obtain ⟨i, s, at_, other⟩ := sorted.exists_other (by omega) (l.ikeyAfterInsert ka kxi first)
    have inside := (List.getElem?_eq_some_iff.mp at_).1
    obtain ⟨s', at', same⟩ := read i (by omega)
    obtain rfl := Option.some.inj (at_.symm.trans at')
    exact ⟨i, by omega, same ▸ other⟩
  obtain ⟨mid, point, pos, inside, apart⟩ := splitPoint_spec start.1 start.2 most differ
  refine ⟨_, Option.map_eq_some_iff.mpr ⟨mid, point, rfl⟩, ?_⟩
  obtain ⟨a, at_, ikey⟩ := read (mid - 1) (by omega)
  obtain ⟨b, at', ikey'⟩ := read mid inside
  have moved := movedSlots_eq le ka mid
  have moves : (l.movedSlots ka kxi mid).length = l.size + 1 - mid := by
    rw [moved, List.length_drop, length]
  obtain ⟨wf, size⟩ := rightPerm_spec mid (by omega) le
  have parts := insertIdx_halves (Slot.ofKey ka : Slot V) (Nat.le_trans le (Nat.le_of_eq (Leaf.length_entries l).symm))
    (Nat.le_trans inside (Nat.le_of_eq (Leaf.length_entries l).symm))
  constructor
  · exact pos
  · exact inside
  · refine ⟨a, b, at_, at', ikey ▸ ikey' ▸ apart, ?_⟩
    have first : (l.entries.insertIdx kxi (.ofKey ka)).drop mid =
        b :: (l.entries.insertIdx kxi (.ofKey ka)).drop (mid + 1) := by
      obtain ⟨lt, rfl⟩ := List.getElem?_eq_some_iff.mp at'
      exact (List.getElem_cons_drop lt).symm
    show ((l.movedSlots ka kxi mid ++ _).getD 0 default).ikey0 = b.ikey0
    rw [moved, first]
    rfl
  · intro before
    dsimp only at before ⊢
    rw [if_pos before] at parts
    rw [if_neg (Nat.not_le_of_lt before)] at size
    refine ⟨if_pos before, size, ?_⟩
    have live : (rightPerm l.size mid kxi).live = List.range (l.movedSlots ka kxi mid).length := by
      rw [rightPerm, if_neg (Nat.not_le_of_lt before), Permuter.live_makeSorted, moves]
    show (rightPerm l.size mid kxi).live.map _ = _
    rw [live, entries_makeSorted _ rfl, moved]
    exact parts.2
  · intro after
    dsimp only at after ⊢
    rw [if_neg (Nat.not_lt_of_le after)] at parts
    rw [if_pos after] at size
    have inside' : kxi - mid < (Permuter.makeSorted (l.size + 1 - mid)).size := by
      rw [Permuter.size_makeSorted]
      omega
    have back : (rightPerm l.size mid kxi).back = kxi - mid := by
      rw [rightPerm, if_pos after, (Permuter.wf_makeSorted (by omega)).back_removeToBack inside', Permuter.get_live inside']
      exact List.getElem_range _
    refine ⟨?_, size, ?_, back, ?_⟩
    · rw [if_neg (Nat.not_lt_of_le after)]
      split <;> decide
    · have live : (rightPerm l.size mid kxi).live = (List.range (l.movedSlots ka kxi mid).length).eraseIdx (kxi - mid) := by
        rw [rightPerm, if_pos after, Permuter.live_removeToBack, Permuter.live_makeSorted, moves]
      show (rightPerm l.size mid kxi).live.map _ = _
      rw [live, ← List.eraseIdx_map, entries_makeSorted _ rfl, moved, parts.2, List.eraseIdx_insertIdx_self]
    · have here : (l.movedSlots ka kxi mid)[kxi - mid]? = some (.ofKey ka) := by
        rw [moved, parts.2, List.getElem?_insertIdx_self, List.length_drop, Leaf.length_entries, if_pos (by omega)]
      have lt := (List.getElem?_eq_some_iff.mp here).1
      show (l.movedSlots ka kxi mid ++ _).getD (kxi - mid) default = _
      rw [List.getD_eq_getElem?_getD, List.getElem?_append_left lt, here]
      rfl

end Halves

/-! ### `make_split` -/

/-- A sorted leaf with no free slot, or only with slot 0. -/
structure Leaf.Crowded (l : Leaf V) : Prop where
  perm : l.perm.Wf
  slots : l.slots.length = width
  sorted : Increasing l.entries
  full : l.size = 15 ∨ l.size = 14 ∧ l.perm.free = [0]

namespace Tcursor

/-- The cursor's leaves after a split, `all` being the entries with the new one among them: they are divided at `mid`, and
the cursor is at the free slot that has the new key. -/
structure Divides (c : Tcursor V) (all : List (Slot V)) (ka : Key) (mid : Nat) : Prop where
  two : ∃ left right, c.nodes = [left, right] ∧ left.perm.Wf ∧ right.perm.Wf
  pos : 0 < mid
  inside : mid < all.length
  bound : ∀ s, all[mid]? = some s → (c.leaf 1).ikeyBound = s.ikey0
  below : ∀ s ∈ all.take mid, s.ikey0 < (c.leaf 1).ikeyBound
  above : ∀ s ∈ all.drop mid, (c.leaf 1).ikeyBound ≤ s.ikey0
  left : (c.finishInsert.leaf 0).entries = all.take mid
  right : (c.finishInsert.leaf 1).entries = all.drop mid
  here : c.n = if c.ka.ikey < (c.leaf 1).ikeyBound then 0 else 1
  slot : c.kxp = some c.node.perm.back ∧ c.node.perm.back ∈ c.node.perm.free ∧ c.node.slot c.node.perm.back = .ofKey ka
  place : c.kxi ≤ c.node.size

/-- `finish_insert` in the first of two leaves, and in the second. -/
theorem finishInsert_first {c : Tcursor V} {x y : Leaf V} (nodes : c.nodes = [x, y]) (first : c.n = 0) :
    c.finishInsert.leaf 0 = { x with perm := x.perm.insertFromBack c.kxi } ∧ c.finishInsert.leaf 1 = y := by
  have node : c.node = x := by
    rw [Tcursor.node, nodes, first]
    rfl
  unfold finishInsert setNode leaf
  rw [node, nodes, first]
  exact ⟨rfl, rfl⟩

theorem finishInsert_second {c : Tcursor V} {x y : Leaf V} (nodes : c.nodes = [x, y]) (second : c.n = 1) :
    c.finishInsert.leaf 0 = x ∧ c.finishInsert.leaf 1 = { y with perm := y.perm.insertFromBack c.kxi } := by
  have node : c.node = y := by
    rw [Tcursor.node, nodes, second]
    rfl
  unfold finishInsert setNode leaf
  rw [node, nodes, second]
  exact ⟨rfl, rfl⟩

/-- The new key comes between the smaller entries and the greater ones. -/
theorem insert_lower {l : Leaf V} (sorted : Increasing l.entries) {ka : Key} {kxi : Nat} (search : l.lower ka = (kxi, none))
    {e : Slot V} (rank : e.rank = ka.rank) : kxi ≤ l.size ∧ Increasing (l.entries.insertIdx kxi e) ∧
      slotSet (l.entries.insertIdx kxi e) = putSlot e (slotSet l.entries) := by
  rcases Leaf.lower_cases sorted ka with ⟨i, -, found, -⟩ | ⟨i, le, found, below, above⟩
  · cases (found.symm.trans search)
  · obtain ⟨rfl, -⟩ := Prod.mk.inj (found.symm.trans search)
    rw [← rank] at below above
    exact ⟨le, sorted.insert ((Leaf.length_entries l).symm ▸ le) below above⟩

theorem crowded_full {l : Leaf V} (crowded : l.Crowded) :
    14 ≤ l.size ∧ ¬(l.size < width ∧ (l.perm.exchange l.size (width - 1)).back ≠ 0) := by
  rcases crowded.full with full | ⟨size, free⟩
  · exact ⟨by omega, fun room => absurd room.1 (by rw [full]; decide)⟩
  · refine ⟨Nat.le_of_eq size.symm, fun room => room.2 ?_⟩
    have length : l.perm.live.length = 14 := size
    rw [Permuter.back_exchange crowded.perm, size, Permuter.get_free (Nat.le_of_eq length) (by rw [length, free]; decide)]
    simp [free, length]

/-- Where a split divides the entries, whichever half the new one is in. -/
theorem sound_point {l : Leaf V} {ka : Key} {kxi : Nat} {s : LeafSplit V} (sound : s.Sound l ka kxi)
    (sorted : Increasing (l.entries.insertIdx kxi (.ofKey ka))) :
    (∀ e, (l.entries.insertIdx kxi (.ofKey ka))[s.mid]? = some e → s.right.ikeyBound = e.ikey0) ∧
      (∀ e ∈ (l.entries.insertIdx kxi (.ofKey ka)).take s.mid, e.ikey0 < s.right.ikeyBound) ∧
        ∀ e ∈ (l.entries.insertIdx kxi (.ofKey ka)).drop s.mid, s.right.ikeyBound ≤ e.ikey0 := by
  obtain ⟨a, b, at_, at', apart, bound⟩ := sound.apart
  obtain ⟨below, above⟩ := sorted.ikey_split at_ at' sound.pos apart
  rw [bound]
  refine ⟨fun e there => ?_, below, above⟩
  obtain rfl := Option.some.inj (at'.symm.trans there)
  rfl

section
variable {l : Leaf V} {c : Tcursor V} {s : LeafSplit V} {prev next : Bool}

/-- The new key is to go into the old leaf. -/
theorem divides_old (crowded : l.Crowded) (first : c.n = 0) (le : c.kxi ≤ l.size)
    (sorted : Increasing (l.entries.insertIdx c.kxi (.ofKey c.ka))) (split_ : l.splitInto prev next c.ka c.kxi = some s)
    (sound : s.Sound l c.ka c.kxi) (before : c.kxi < s.mid) : Divides { c with
      nodes := [(l.strip s.right).assign (l.strip s.right).perm.back c.ka, s.right.unlock]
      kxp := some (l.strip s.right).perm.back
      newNodes := [(1, s.right.fullUnlockedVersionValue)] } (l.entries.insertIdx c.kxi (.ofKey c.ka)) c.ka s.mid := by
  obtain ⟨-, size, entries⟩ := sound.old before
  obtain ⟨atMid, below, above⟩ := sound_point sound sorted
  obtain ⟨stripPerm, stripSize⟩ := strip_spec crowded.perm s.right
  have ok := splitInto_ok crowded.perm (crowded_full crowded).1 le split_
  have pos := sound.pos
  have inside := sound.inside
  have most : l.size ≤ 15 := crowded.perm.size_le
  have length := Leaf.length_entries l
  have parts := insertIdx_halves (Slot.ofKey c.ka : Slot V) (Nat.le_trans le (Nat.le_of_eq length.symm))
    (Nat.le_trans sound.inside (Nat.le_of_eq length.symm))
  rw [if_pos before] at parts
  have shrunk : (l.strip s.right).size = s.mid - 1 := by omega
  have room : (l.strip s.right).perm.size < 15 := by
    show (l.strip s.right).size < 15
    omega
  have free := stripPerm.back_free room
  have backLt : (l.strip s.right).perm.back < (l.strip s.right).slots.length := by
    show _ < l.slots.length
    rw [crowded.slots]
    exact stripPerm.back_lt room
  have slot := Leaf.slot_assign_self (l.strip s.right) c.ka backLt
  have kept := Leaf.entries_assign (stripPerm.not_live free) c.ka
  have smaller : c.ka.ikey < s.right.ikeyBound := by
    rw [← ikey_ofKey (V := V) c.ka]
    apply below
    apply List.mem_of_getElem? (i := c.kxi)
    rw [List.getElem?_take_of_lt before, List.getElem?_insertIdx_self, length, if_pos le]
  obtain ⟨leaf₀, leaf₁⟩ := finishInsert_first (c := { c with
    nodes := [(l.strip s.right).assign (l.strip s.right).perm.back c.ka, s.right.unlock]
    kxp := some (l.strip s.right).perm.back
    newNodes := [(1, s.right.fullUnlockedVersionValue)] }) rfl first
  have node : ({ c with
      nodes := [(l.strip s.right).assign (l.strip s.right).perm.back c.ka, s.right.unlock]
      kxp := some (l.strip s.right).perm.back
      newNodes := [(1, s.right.fullUnlockedVersionValue)] } : Tcursor V).node =
        (l.strip s.right).assign (l.strip s.right).perm.back c.ka := by
    rw [Tcursor.node, first]
    rfl
  constructor
  · exact ⟨_, _, rfl, stripPerm, ok.perm⟩
  · exact pos
  · rw [List.length_insertIdx_of_le_length (Nat.le_trans le (Nat.le_of_eq length.symm)), length]
    exact Nat.lt_succ_of_le inside
  · exact atMid
  · exact below
  · exact above
  · rw [leaf₀, Leaf.entries_insertFromBack, kept]
    show List.insertIdx _ _ (((l.strip s.right).assign _ c.ka).slot (l.strip s.right).perm.back) = _
    rw [slot, entries_strip crowded.perm s.right, size, parts.1]
    congr 2
    omega
  · rw [leaf₁]
    exact entries.trans parts.2.symm
  · exact first.trans (if_pos smaller).symm
  · rw [node]
    exact ⟨rfl, free, slot⟩
  · rw [node]
    show c.kxi ≤ (l.strip s.right).size
    omega

/-- It is to go into the new leaf, which has it in a slot already. -/
theorem divides_new (crowded : l.Crowded) (le : c.kxi ≤ l.size) (sorted : Increasing (l.entries.insertIdx c.kxi (.ofKey c.ka)))
    (split_ : l.splitInto prev next c.ka c.kxi = some s) (sound : s.Sound l c.ka c.kxi) (after : s.mid ≤ c.kxi) : Divides { c with
      nodes := [(l.strip s.right).unlock, s.right]
      n := 1
      kxi := c.kxi - (l.strip s.right).size
      kxp := some (c.kxi - (l.strip s.right).size)
      updatedV := (l.strip s.right).fullUnlockedVersionValue } (l.entries.insertIdx c.kxi (.ofKey c.ka)) c.ka s.mid := by
  obtain ⟨-, size, entries, back, slot⟩ := sound.new after
  obtain ⟨atMid, below, above⟩ := sound_point sound sorted
  obtain ⟨stripPerm, stripSize⟩ := strip_spec crowded.perm s.right
  have ok := splitInto_ok crowded.perm (crowded_full crowded).1 le split_
  have pos := sound.pos
  have inside := sound.inside
  have most : l.size ≤ 15 := crowded.perm.size_le
  have length := Leaf.length_entries l
  have parts := insertIdx_halves (Slot.ofKey c.ka : Slot V) (Nat.le_trans le (Nat.le_of_eq length.symm))
    (Nat.le_trans sound.inside (Nat.le_of_eq length.symm))
  rw [if_neg (Nat.not_lt_of_le after)] at parts
  have shrunk : (l.strip s.right).size = s.mid := by omega
  have room : s.right.perm.size < 15 := by
    show s.right.size < 15
    omega
  have free := ok.perm.back_free room
  have greater : ¬c.ka.ikey < s.right.ikeyBound := by
    rw [← ikey_ofKey (V := V) c.ka]
    apply Nat.not_lt_of_le
    apply above
    apply List.mem_of_getElem? (i := c.kxi - s.mid)
    rw [List.getElem?_drop, Nat.add_sub_cancel' after, List.getElem?_insertIdx_self, length, if_pos le]
  rw [shrunk]
  obtain ⟨leaf₀, leaf₁⟩ := finishInsert_second (c := { c with
    nodes := [(l.strip s.right).unlock, s.right]
    n := 1
    kxi := c.kxi - s.mid
    kxp := some (c.kxi - s.mid)
    updatedV := (l.strip s.right).fullUnlockedVersionValue }) rfl rfl
  constructor
  · exact ⟨_, _, rfl, stripPerm, ok.perm⟩
  · exact pos
  · rw [List.length_insertIdx_of_le_length (Nat.le_trans le (Nat.le_of_eq length.symm)), length]
    exact Nat.lt_succ_of_le inside
  · exact atMid
  · exact below
  · exact above
  · rw [leaf₀, parts.1]
    show (l.strip s.right).entries = _
    rw [entries_strip crowded.perm s.right, size]
    congr 1
    omega
  · rw [leaf₁, Leaf.entries_insertFromBack, entries, back, slot, parts.2]
  · exact (if_neg greater).symm
  · show some (c.kxi - s.mid) = some s.right.perm.back ∧ s.right.perm.back ∈ s.right.perm.free ∧
      s.right.slot s.right.perm.back = .ofKey c.ka
    rw [← back] at slot ⊢
    exact ⟨rfl, free, slot⟩
  · show c.kxi - s.mid ≤ s.right.size
    omega

theorem makeSplit_divides (crowded : l.Crowded) (nodes : c.nodes = [l]) (first : c.n = 0)
    (search : l.lower c.ka = (c.kxi, none)) (prev next : Bool) : ∃ c' mid, c.makeSplit prev next = some c' ∧
      c'.Divides (l.entries.insertIdx c.kxi (.ofKey c.ka)) c.ka mid := by
  obtain ⟨le, sorted, -⟩ := insert_lower crowded.sorted search (rank_ofKey c.ka)
  obtain ⟨many, full⟩ := crowded_full crowded
  obtain ⟨s, split_, sound⟩ := splitInto_sound crowded.perm sorted many le prev next
  have node : c.node = l := by
    rw [Tcursor.node, nodes, first]
    rfl
  unfold makeSplit
  rw [node]
  dsimp only
  rw [if_neg full, split_, Option.map_some]
  rcases Nat.lt_or_ge c.kxi s.mid with before | after
  · rw [if_pos (sound.old before).1]
    exact ⟨_, s.mid, rfl, divides_old crowded first le sorted split_ sound before⟩
  · rw [if_neg (sound.new after).1]
    exact ⟨_, s.mid, rfl, divides_new crowded le sorted split_ sound after⟩

end

end Tcursor

end Masstree.Tree
