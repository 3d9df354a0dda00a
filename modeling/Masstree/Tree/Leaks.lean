import Masstree.Tree.Runs
import Mathlib.Data.Set.Finite.Lattice

/-!
# Layers that nothing collects

A layer below the top waits for its collection when its one leaf empties, and when the last of several leaves does, nothing waits.
The runs are without suffix bags (see `suffixes_kept_of_short`).
-/

namespace Masstree.Tree
open Msgpack (Bytes)

variable {V : Type}

namespace Table

variable {t t₁ t' : Table V} {key at_ : Bytes} {p : Place V} {j r lo hi bound : Nat} {root : Node (Leaf V)} {l : Leaf V}

/-! ### Empty layers wait -/

/-- The layers below the top that are empty are single leaves, and wait for their collection. -/
def Waiting (t : Table V) : Prop :=
  ∀ at_ ≠ [], ∀ root, t.layers at_ = some root → root.entries = [] → root.leaves.length = 1 ∧ at_ ∈ t.callbacks

/-- The search for the key ends in a layer below the top that has one slot, and more leaves than one. -/
def LastOfMany (t : Table V) (key : Bytes) : Prop :=
  ∃ p root, t.locate key = some p ∧ p.ka.prefixString ≠ [] ∧ t.layers p.ka.prefixString = some root ∧
    root.entries.length = 1 ∧ 1 < root.leaves.length

/-- The operation takes the last slot of a layer below the top that has more leaves than one. -/
def Strands (t : Table V) : Op V → Prop
  | .remove key => (t.get key).isSome ∧ t.LastOfMany key
  | .collect i => ∃ at_ root, t.callbacks[i]? = some at_ ∧ t.layers at_ = some root ∧ root.entries = [] ∧ t.LastOfMany at_
  | _ => False

instance (t : Table V) (key : Bytes) : Decidable (t.LastOfMany key) :=
  decidable_of_iff ((t.locate key).any fun p => decide (p.ka.prefixString ≠ []) && (t.layers p.ka.prefixString).any fun root =>
      decide (root.entries.length = 1) && decide (1 < root.leaves.length)) (by
    simp only [Option.any_eq_true, Bool.and_eq_true, decide_eq_true_eq]
    constructor
    · rintro ⟨p, found, below, root, layer, one, more⟩
      exact ⟨p, root, found, below, layer, one, more⟩
    · rintro ⟨p, root, found, below, layer, one, more⟩
      exact ⟨p, found, below, root, layer, one, more⟩)

instance (t : Table V) : (op : Op V) → Decidable (t.Strands op)
  | .insert _ _ => isFalse id
  | .cancel _ => isFalse id
  | .remove _ => inferInstanceAs (Decidable (_ ∧ _))
  | .collect i =>
    decidable_of_iff ((t.callbacks[i]?).any fun at_ => (t.layers at_).any fun root =>
        root.entries.isEmpty && decide (t.LastOfMany at_)) (by
      simp only [Option.any_eq_true, Bool.and_eq_true, decide_eq_true_eq, List.isEmpty_iff]
      constructor
      · rintro ⟨at_, pending, root, layer, empty, last⟩
        exact ⟨at_, root, pending, layer, empty, last⟩
      · rintro ⟨at_, root, pending, layer, empty, last⟩
        exact ⟨at_, pending, root, layer, empty, last⟩)

theorem settle_keeps (settled : t.settle p l = some t') : ∀ at_ ∈ t.callbacks, at_ ∈ t'.callbacks := by
  intro at_ mem
  rcases settle_callbacks settled with same | ⟨-, more⟩
  · rwa [same]
  · rw [more]
    exact List.mem_append_left _ mem

/-- The only leaf of a layer is empty, and the layer is registered. -/
theorem At.settle_single (place : t.At key j p root lo hi bound) (below : key.take (8 * j) ≠ []) (one : root.leaves.length = 1)
    (empty : l.entries = []) (settled : t₁.settle p l = some t') : key.take (8 * j) ∈ t'.callbacks ∧
      ∃ root', t'.layers (key.take (8 * j)) = some root' ∧ root'.leaves.length = 1 := by
  have zero : l.size = 0 := by
    rw [← Leaf.length_entries, empty]
    rfl
  obtain ⟨leaves', leaves⟩ := place.leaves l
  rw [leaves, List.length_append, List.length_append, List.length_singleton] at one
  have left : before p.path = [] := List.length_eq_zero_iff.mp (by omega)
  have right : after p.path = [] := List.length_eq_zero_iff.mp (by omega)
  have prev : ¬p.prev = true := by
    rw [Place.prev, hasPrev, left]
    exact Bool.false_ne_true
  have next : ¬p.next = true := by
    rw [Place.next, hasNext, right]
    exact Bool.false_ne_true
  have prefix_ := prefixString_at place
  rw [settle, if_neg (not_not.mpr zero), if_neg prev, prefix_] at settled
  obtain rfl := Option.some.inj settled
  refine ⟨?_, plug (.leaf l) p.path, ?_, ?_⟩
  · show _ ∈ if ¬p.next = true ∧ key.take (8 * j) ≠ [] then _ else _
    rw [if_pos ⟨next, below⟩]
    exact List.mem_append_right _ (List.mem_singleton_self _)
  · show Function.update t₁.layers p.ka.prefixString _ _ = _
    rw [prefix_, Function.update_self]
  · rw [leaves', left, right]
    rfl

/-- The entries that are left when all of one rank are gone. -/
theorem length_of_dropped {E E' : List (Slot V)} (sorted : Increasing E) (had : ∃ s ∈ E, s.rank = r)
    (dropped : slotSet E' = dropRank r (slotSet E)) (empty : E' = []) : E.length = 1 := by
  have all : ∀ s ∈ E, s.rank = r := by
    intro s mem
    by_contra other
    have kept : s ∈ slotSet E' := dropped ▸ mem_dropRank.mpr ⟨mem, other⟩
    rw [empty] at kept
    cases kept
  obtain ⟨s, mem, -⟩ := had
  cases E with
  | nil => cases mem
  | cons a E =>
    cases E with
    | nil => rfl
    | cons b E =>
      have less := List.rel_of_pairwise_cons sorted List.mem_cons_self
      have same := (all a List.mem_cons_self).trans (all b (List.mem_cons_of_mem _ List.mem_cons_self)).symm
      exact absurd less (Nat.not_lt_of_le (Nat.le_of_eq same.symm))

/-- A layer that is empty after a slot has gone from it is a single leaf, and is registered. -/
theorem Drops.waits (ok : t.Ok) (place : t.At key j p root lo hi bound) (drops : t.Drops t₁ t' key j p l r)
    (careful : ¬t.LastOfMany key) : ∀ at_ ≠ [], ∀ root', t'.layers at_ = some root' → root'.entries = [] →
      t₁.layers at_ = some root' ∨ root'.leaves.length = 1 ∧ at_ ∈ t'.callbacks := by
  intro at_ below root' layer empty
  obtain ⟨root'', layers, sound, parts⟩ := drops.result
  by_cases here : at_ = key.take (8 * j)
  · subst here
    right
    rw [layers, Function.update_self] at layer
    obtain rfl := Option.some.inj layer
    rw [parts, List.append_eq_nil_iff, List.append_eq_nil_iff] at empty
    obtain ⟨⟨left, middle⟩, right⟩ := empty
    have entries : root.entries = p.n.entries := by
      rw [(place.leaf place.holds).2.2, left, right, List.nil_append, List.append_nil]
    have one : root.entries.length = 1 := entries ▸ length_of_dropped place.holds.sorted drops.had drops.dropped middle
    have prefix_ := prefixString_at place
    have single : root.leaves.length = 1 := by
      have some_ : 0 < root.leaves.length := List.length_pos_iff.mpr (ok.sound _ _ place.layer).leaves_ne_nil
      by_contra more
      exact careful ⟨p, root, drops.found, prefix_ ▸ below, prefix_ ▸ place.layer, one, by omega⟩
    obtain ⟨registered, root', layer', length⟩ := place.settle_single below single middle drops.settled
    rw [layers, Function.update_self] at layer'
    obtain rfl := Option.some.inj layer'
    exact ⟨length, registered⟩
  · left
    rwa [layers, Function.update_of_ne here] at layer

theorem start_waiting : (start : Table V).Waiting := by
  intro at_ below root layer
  change (if at_ = [] then some (Node.leaf Leaf.makeRoot) else none) = some root at layer
  rw [if_neg below] at layer
  cases layer

theorem Fills.waiting (fills : t.Fills t') (waiting : t.Waiting) (callbacks : t'.callbacks = t.callbacks) : t'.Waiting := by
  intro at_ below root' layer' empty'
  obtain ⟨root, layer, empty, length⟩ := fills at_ root' layer' empty'
  rw [length, callbacks]
  exact waiting at_ below root layer empty

theorem remove_waiting (ok : t.Ok) (waiting : t.Waiting) (careful : ¬((t.get key).isSome ∧ t.LastOfMany key))
    (removed : t.remove key = some t') : t'.Waiting := by
  obtain ⟨j, p, root, lo, hi, bound, t'', place, removed', ⟨some_, -, l, drops⟩ | ⟨-, m, holds, entries, rfl⟩⟩ := remove_cases ok key
  · obtain rfl := Option.some.inj (removed.symm.trans removed')
    intro at_ below root' layer empty
    rcases drops.waits ok place (fun last => careful ⟨some_, last⟩) at_ below root' layer empty with old | new
    · obtain ⟨length, mem⟩ := waiting at_ below root' old empty
      exact ⟨length, settle_keeps drops.settled at_ mem⟩
    · exact new
  · obtain rfl := Option.some.inj (removed.symm.trans removed')
    refine Fills.waiting (place.fills holds (fun empty => entries ▸ empty) ?_) waiting rfl
    rw [← prefixString_at place]
    rfl

theorem collect_waiting (good : t.Good) (waiting : t.Waiting) {i : Nat} (careful : ¬t.Strands (.collect i))
    (stepped : t.step (.collect i) = some t') : t'.Waiting := by
  obtain ⟨at_, pending, collected⟩ := Option.bind_eq_some_iff.mp stepped
  obtain ⟨below, aligned⟩ := good.registers _ (List.mem_of_getElem? pending)
  have ok : Ok { t with callbacks := t.callbacks.eraseIdx i } :=
    ⟨good.sound, good.top, good.linked, good.aligned, good.inner, good.finite⟩
  obtain ⟨t'', collected', ok', collects⟩ := gcLayer_spec ok aligned below
  obtain rfl := Option.some.inj (collected.symm.trans collected')
  -- the other callbacks are still registered
  have stays : ∀ at' ≠ at_, at' ∈ t.callbacks → at' ∈ t.callbacks.eraseIdx i := by
    intro at' other mem
    obtain ⟨k, there⟩ := List.mem_iff_getElem?.mp mem
    refine List.mem_eraseIdx_iff_getElem?.mpr ⟨k, ?_, there⟩
    rintro rfl
    exact other (Option.some.inj (there.symm.trans pending))
  intro at' below' root' layer' empty'
  cases collects with
  | kept slots layers others full callbacks =>
    by_cases here : at' = at_
    · subst here
      obtain ⟨root, layer⟩ := Option.isSome_iff_exists.mp ((layers at').mp (Option.isSome_iff_exists.mpr ⟨root', layer'⟩))
      have empty : root.entries = [] := by
        refine List.eq_nil_iff_forall_not_mem.mpr fun s mem => ?_
        have found := (find_eq_some (good.sound _ _ layer).sorted).mpr ⟨mem, rfl⟩
        rw [← Layers.slots_eq layer, ← slots, Layers.slots_eq layer', empty'] at found
        cases found
      exact absurd empty (full root layer (waiting at' below' root layer empty).1)
    · rw [others at' here] at layer'
      obtain ⟨length, mem⟩ := waiting at' below' root' layer' empty'
      exact ⟨length, callbacks ▸ stays at' here mem⟩
  | gone more same layer empty gone elsewhere slot slots place drops =>
    have careful' : ¬LastOfMany { t with callbacks := t.callbacks.eraseIdx i } at_ :=
      fun last => careful ⟨at_, _, pending, layer, empty, last⟩
    rcases drops.waits ok place careful' at' below' root' layer' empty' with old | new
    · by_cases here : at' = at_
      · rw [here, gone] at layer'
        cases layer'
      · change Function.update t.layers at_ none at' = some root' at old
        rw [Function.update_of_ne here] at old
        obtain ⟨length, mem⟩ := waiting at' below' root' old empty'
        exact ⟨length, settle_keeps drops.settled at' (stays at' here mem)⟩
    · exact new

theorem step_waiting (good : t.Good) (waiting : t.Waiting) {op : Op V} (careful : ¬t.Strands op) (stepped : t.step op = some t') :
    t'.Waiting := by
  cases op with
  | insert key value =>
    obtain ⟨t'', inserted, -, -, fills⟩ := insert_spec good.toOk key (some value)
    obtain rfl := Option.some.inj (inserted.symm.trans stepped)
    exact fills.waiting waiting (insert_callbacks inserted)
  | cancel key =>
    obtain ⟨t'', inserted, -, -, fills⟩ := insert_spec good.toOk key none
    obtain rfl := Option.some.inj (inserted.symm.trans stepped)
    exact fills.waiting waiting (insert_callbacks inserted)
  | remove key => exact remove_waiting good.toOk waiting careful stepped
  | collect i => exact collect_waiting good waiting careful stepped

/-! ### A key in every layer -/

/-- The search for a key goes on to its layers. -/
theorem passes_to (ok : t.Ok) {a : Nat} (inside : 8 * a < key.length) (layer : (t.layers (key.take (8 * a))).isSome) :
    t.layers.slots.Passes key a := by
  intro i lt
  obtain ⟨n, rfl⟩ : ∃ n, a = i + n + 1 := ⟨a - i - 1, by omega⟩
  by_contra other
  have missing := missing_below (n := n) ok inside fun s found layer_ => other ⟨s, found, Slot.ksufMatches_layer_iff.mpr layer_⟩
  rw [missing] at layer
  cases layer

/-- Where no layer below the top is empty, each has a key in it or below. -/
theorem layer_has_key (ok : t.Ok) (full : ∀ at_ ≠ [], ∀ root, t.layers at_ = some root → root.entries ≠ []) :
    ∀ at_ ≠ [], (t.layers at_).isSome → ∃ key, at_ <+: key ∧ at_.length < key.length ∧ (t.get key).isSome := by
  obtain ⟨most, bounded⟩ := (ok.finite.image List.length).bddAbove
  have deepest : ∀ at_, (t.layers at_).isSome → at_.length ≤ most := fun at_ there => bounded ⟨at_, there, rfl⟩
  intro at_ below there
  -- by how much deeper the layers can go
  induction left : most - at_.length using Nat.strongRecOn generalizing at_ with
  | ind left ih =>
    obtain ⟨root, layer⟩ := Option.isSome_iff_exists.mp there
    obtain ⟨a, aligned⟩ := ok.aligned at_ there
    have sound := ok.sound _ _ layer
    obtain ⟨s, mem⟩ := List.exists_mem_of_ne_nil _ (full at_ below root layer)
    have slot : t.layers.slots at_ s.rank = some s := by
      rw [Layers.slots_eq layer, find_eq_some sound.sorted]
      exact ⟨mem, rfl⟩
    have after_ : ∀ rest : Bytes, (at_ ++ rest).take (8 * a) = at_ ∧ Key.after (at_ ++ rest) a = ⟨at_, rest⟩ := by
      intro rest
      have take : (at_ ++ rest).take (8 * a) = at_ := by rw [← aligned, List.take_left]
      refine ⟨take, ?_⟩
      rw [Key.after, take, ← aligned, List.drop_left]
    cases sound.valid s mem with
    | key ka v =>
      obtain ⟨take, here⟩ := after_ ka.s
      have some_ : ka.s ≠ [] := by
        intro empty
        refine ok.inner at_ below _ _ slot ?_
        have short : ¬ka.hasSuffix = true := by
          rw [Key.hasSuffix_iff, empty]
          decide
        rw [Slot.holding_short short]
        exact List.length_eq_zero_iff.mpr empty
      have inside : 8 * a < (at_ ++ ka.s).length := by
        rw [List.length_append, ← aligned]
        exact Nat.lt_add_of_pos_right (List.length_pos_iff.mpr some_)
      have passes := passes_to ok inside (take.symm ▸ there)
      have found : t.layers.slots ((at_ ++ ka.s).take (8 * a)) (Key.after (at_ ++ ka.s) a).rank = some (.holding ka (some v)) := by
        rw [take, here]
        rwa [Slot.rank_holding] at slot
      refine ⟨at_ ++ ka.s, List.prefix_append _ _, aligned ▸ inside, ?_⟩
      rw [get_eq ok, Contents.get_of_passes passes (Nat.le_of_lt inside), Contents.look_some found, here,
        show (Slot.holding ka (some v)).ksufMatches ⟨at_, ka.s⟩ = .yes from Slot.ksufMatches_holding ⟨at_, ka.s⟩ _]
      rfl
    | layer ka ksuf long =>
      obtain ⟨take, here⟩ := after_ ka.s
      have more : 8 * (a + 1) < (at_ ++ ka.s).length := by
        rw [Key.hasSuffix_iff] at long
        rw [List.length_append, aligned]
        omega
      have found : t.layers.slots ((at_ ++ ka.s).take (8 * a))
        (Key.after (at_ ++ ka.s) a).rank = some ⟨ka.ikey, layerKeylenx, ksuf, none⟩ := by
        rw [take, here]
        rwa [Slot.rank_layer long] at slot
      have next := (ok.linked _ a more).mpr ⟨_, found, rfl⟩
      have length : ((at_ ++ ka.s).take (8 * (a + 1))).length = 8 * (a + 1) := List.length_take_of_le (Nat.le_of_lt more)
      have deep := deepest _ next
      rw [length] at deep
      obtain ⟨key, before, longer, some_⟩ := ih (most - 8 * (a + 1)) (by omega) ((at_ ++ ka.s).take (8 * (a + 1)))
        (List.ne_nil_of_length_pos (by omega)) next (by rw [length])
      refine ⟨key, List.IsPrefix.trans ?_ before, by omega, some_⟩
      have prefix_ := List.take_prefix_take_left (l := at_ ++ ka.s) (show 8 * a ≤ 8 * (a + 1) by omega)
      rwa [take] at prefix_

theorem run_waiting (good : t.Good) (waiting : t.Waiting) {ops : List (Op V)}
    (careful : Steps.Each step (fun t op => ¬t.Strands op) t ops) (ran : Steps.run step t ops = some t') : t'.Good ∧ t'.Waiting := by
  induction ops generalizing t with
  | nil =>
    obtain rfl := Option.some.inj ran
    exact ⟨good, waiting⟩
  | cons op ops ih =>
    obtain ⟨next, stepped, ran⟩ := Option.bind_eq_some_iff.mp ran
    obtain ⟨next', stepped', good', -⟩ := step_spec good (enabled_of_step stepped)
    obtain rfl := Option.some.inj (stepped.symm.trans stepped')
    exact ih good' (step_waiting good waiting careful.1 stepped) (careful.2 next stepped) ran

/-- Where the last slot of a layer below the top is never taken from one of several leaves, a table whose callbacks have all run has
a key in every layer below the top. -/
theorem no_leaks {ops : List (Op V)} (ran : Steps.run step start ops = some t)
    (careful : Steps.Each step (fun t op => ¬t.Strands op) start ops) (idle : t.callbacks = []) :
    (∀ at_ ≠ [], (t.layers at_).isSome → ∃ key, at_ <+: key ∧ at_.length < key.length ∧ (t.get key).isSome) ∧
      ((∀ key, t.get key = none) → ∀ at_ ≠ [], t.layers at_ = none) := by
  obtain ⟨good, waiting⟩ := run_waiting start_good start_waiting careful ran
  have keys := layer_has_key good.toOk fun at_ below root layer empty => by
    have pending := (waiting at_ below root layer empty).2
    rw [idle] at pending
    cases pending
  refine ⟨keys, fun none_ at_ below => ?_⟩
  by_contra there
  obtain ⟨key, -, -, some_⟩ := keys at_ below (Option.isSome_iff_ne_none.mpr there)
  rw [none_ key] at some_
  cases some_

/-- Two keys with a slice in common come and go. -/
theorem no_leaks_two : ∃ t : Table Nat, t.callbacks = [] ∧
    ((∀ at_ ≠ [], (t.layers at_).isSome → ∃ key, at_ <+: key ∧ at_.length < key.length ∧ (t.get key).isSome) ∧
      ((∀ key, t.get key = none) → ∀ at_ ≠ [], t.layers at_ = none)) := by
  let ops : List (Op Nat) := [.insert [1, 2, 3, 4, 5, 6, 7, 8, 9] 1, .insert [1, 2, 3, 4, 5, 6, 7, 8, 0] 2,
    .remove [1, 2, 3, 4, 5, 6, 7, 8, 9], .remove [1, 2, 3, 4, 5, 6, 7, 8, 0], .collect 0]
  have runs : ((Steps.run step start ops).map fun t => t.callbacks) = some [] := by decide +kernel
  obtain ⟨t, ran, idle⟩ := Option.map_eq_some_iff.mp runs
  exact ⟨t, idle, no_leaks ran (by decide +kernel) idle⟩

/-- Sixteen keys make two leaves of a layer, of which the left one empties first. -/
theorem empty_layer_leaks : ∃ (ops : List (Op Nat)) (t : Table Nat) (at_ : Bytes), Steps.run step start ops = some t ∧
    t.callbacks = [] ∧ at_ ≠ [] ∧ (t.layers at_).isSome ∧ ∀ key, at_ <+: key → key ≠ at_ → t.get key = none := by
  let keys : List Bytes := (List.range 16).map fun k => [1, 2, 3, 4, 5, 6, 7, 8, UInt8.ofNat k]
  let ops : List (Op Nat) := keys.map (.insert · 1) ++ keys.map .remove
  have runs : ((Steps.run step start ops).bind fun t => (t.layers [1, 2, 3, 4, 5, 6, 7, 8]).map fun root =>
      (root.entries.length, t.callbacks)) = some (0, []) := by decide +kernel
  obtain ⟨t, ran, layer⟩ := Option.bind_eq_some_iff.mp runs
  obtain ⟨root, layer, same⟩ := Option.map_eq_some_iff.mp layer
  obtain ⟨empty, idle⟩ := Prod.mk.inj same
  refine ⟨ops, t, [1, 2, 3, 4, 5, 6, 7, 8], ran, idle, by decide, Option.isSome_iff_exists.mpr ⟨root, layer⟩, ?_⟩
  intro key before ne
  exact (run_spec start_good ran).1.toOk.get_none layer (List.length_eq_zero_iff.mp empty) before ne

end Table

end Masstree.Tree
