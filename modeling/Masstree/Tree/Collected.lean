import Masstree.Tree.Refines

/-!
# Collected layers

`gc_layer` removes a layer without keys, and no search finds anything else than before.
-/

namespace Masstree.Tree
open Msgpack (Bytes)
open Nodeversion (unused1Bit deletedBit rootBit)

variable {V : Type}

/-! ### The new root of a layer -/

theorem Leaf.Alive.makeLayerRoot {l : Leaf V} (alive : l.Alive) : l.makeLayerRoot.Alive := by
  refine Leaf.Alive.unlock (l := { l.lock with version := l.lock.version.markRoot }) ⟨?_, ?_, alive.layer⟩
  · show l.lock.version.markRoot.has unused1Bit = false
    rw [Nodeversion.markRoot, Nodeversion.has_or, alive.lock.clear, show rootBit.has unused1Bit = false by decide, Bool.or_false]
  · show l.lock.version.markRoot.has deletedBit = false
    rw [Nodeversion.markRoot, Nodeversion.has_or, alive.lock.kept, show rootBit.has deletedBit = false by decide, Bool.or_false]

theorem makeLayerRoot_spec {n : Node (Leaf V)} {lo hi : Nat} (wf : n.Wf Leaf.Holds lo hi) :
    n.makeLayerRoot.Wf Leaf.Holds lo hi ∧ n.makeLayerRoot.entries = n.entries ∧
      n.makeLayerRoot.leaves.length = n.leaves.length ∧ n.makeLayerRoot.height = n.height := by
  cases n with
  | leaf l =>
    obtain ⟨lt, holds⟩ := wf_leaf.mp wf
    have holds' : l.makeLayerRoot.Holds lo hi := ⟨Leaf.unlock_wf holds.wf.perm holds.wf.slots, holds.sorted, holds.valid,
      holds.range, holds.bound, holds.alive.makeLayerRoot⟩
    refine ⟨wf_leaf.mpr ⟨lt, holds'⟩, ?_, rfl, rfl⟩
    show (Node.leaf l.makeLayerRoot).entries = _
    rw [entries_leaf, entries_leaf]
    rfl
  | internode p => exact ⟨wf.version _, rfl, rfl, rfl⟩

/-- An internode with an ikey, on the left edge of a layer, has a second leaf. -/
theorem two_leaves {p : Internode (Node (Leaf V))} {hi : Nat} (wf : (Node.internode p).Wf Leaf.Holds 0 hi) (keys : 0 < p.size) :
    1 < (Node.internode p).leaves.length := by
  obtain ⟨-, -, chain⟩ := wf_internode.mp wf
  have first := chain.1
  cases child : p.first with
  | none =>
    rw [child] at first
    exact absurd (childWf_none.mp first).2 (Nat.lt_irrefl 0)
  | some m =>
    rw [child] at first
    obtain ⟨e, rest, more⟩ := List.exists_cons_of_ne_nil (List.ne_nil_of_length_pos keys)
    have after := chain.2
    rw [more, List.map_cons] at after
    have right := chain_leaves after List.mem_cons_self
    rw [leaves_internode p 0, Internode.cells, more, List.map_cons, cellLeaves_cons, child, firstLeaves, List.length_append]
    have left := List.length_pos_iff.mpr (childWf_some.mp first).2.leaves_ne_nil
    have right := List.length_pos_iff.mpr right
    omega

/-- The loop ends at a leaf, or at an internode with an ikey, and has lost no entry. -/
theorem collapse_spec {n : Node (Leaf V)} {fuel hi : Nat} (wf : n.Wf Leaf.Holds 0 hi) (enough : n.height ≤ fuel) :
    ∃ n', collapse fuel n = some n' ∧ n'.Wf Leaf.Holds 0 hi ∧ n'.entries = n.entries ∧ n'.leaves.length = n.leaves.length ∧
      ∀ p, n' = .internode p → 0 < p.size := by
  induction fuel generalizing n with
  | zero =>
    cases n with
    | leaf l => exact ⟨_, rfl, wf, rfl, rfl, nofun⟩
    | internode p =>
      obtain ⟨lt, -, chain⟩ := wf_internode.mp wf
      have some_ := chain.locate (ranged_childWf Leaf.Holds p.height) (Nat.le_refl 0) lt
      obtain ⟨A, lo', m, B, at_, -⟩ := some_
      rw [at_] at chain
      have below := (childWf_some.mp (chain_append.mp chain).2.1).1
      exact absurd (Nat.lt_of_lt_of_le below enough) (Nat.not_lt_zero _)
  | succ fuel ih =>
    cases n with
    | leaf l => exact ⟨_, rfl, wf, rfl, rfl, nofun⟩
    | internode p =>
      rw [collapse]
      by_cases keys : 0 < p.size
      · rw [if_pos keys]
        refine ⟨_, rfl, wf, rfl, rfl, ?_⟩
        rintro _ ⟨⟩
        exact keys
      · obtain ⟨-, -, first, -⟩ := wf_internode.mp wf
        have rest : p.rest = [] := List.length_eq_zero_iff.mp (Nat.eq_zero_of_not_pos keys)
        have leaves : (Node.internode p).leaves = firstLeaves p.first := by
          rw [leaves_internode p 0, Internode.cells, rest, List.map_nil, cellLeaves_cons]
          exact List.append_nil _
        rw [if_neg keys]
        cases child : p.first with
        | none =>
          rw [child] at first
          exact absurd (childWf_none.mp first).2 (Nat.lt_irrefl 0)
        | some m =>
          rw [child] at first
          obtain ⟨below, wf'⟩ := childWf_some.mp first
          rw [rest, List.map_nil] at wf'
          obtain ⟨root, kept, length, height⟩ := makeLayerRoot_spec wf'
          rw [Option.bind_some]
          obtain ⟨n', collapsed, sound, same, length', more⟩ :=
            ih root (by rw [height]; exact Nat.le_of_lt_succ (Nat.lt_of_lt_of_le below enough))
          refine ⟨n', collapsed, sound, ?_, ?_, more⟩
          · rw [same, kept, Node.entries, Node.entries, leaves, child, firstLeaves]
          · rw [length', length, leaves, child, firstLeaves]

/-! ### The slot of the layer -/

namespace Tcursor

variable {l : Leaf V} {lo hi : Nat}

theorem isLayer_iff {s : Slot V} (valid : s.Valid) : s.isLayer = true ↔ s.keylenx = layerKeylenx := by
  cases valid with
  | key ka v =>
    by_cases long : ka.hasSuffix = true
    · rw [Slot.holding_long long]
      show decide (127 < ksufKeylenx) = true ↔ ksufKeylenx = layerKeylenx
      decide
    · have small := Slot.length_lt long
      rw [Slot.holding_short long]
      unfold Slot.isLayer ksufKeylenx at *
      rw [decide_eq_true_iff]
      constructor
      · intro big
        exact absurd big (by dsimp only; omega)
      · intro same
        change ka.length = layerKeylenx at same
        unfold layerKeylenx at same
        omega
  | layer ka ksuf long => exact ⟨fun _ => rfl, fun _ => rfl⟩

/-- `gc_layer` finds nothing to do, or the slot of the layer with the key. -/
theorem gcLayer_spec (holds : l.Holds lo hi) (ka : Key) :
    gcLayer l ka = none ∨ ∃ c s, gcLayer l ka = some c ∧ c.node = l.lock ∧ l.entries[c.kxi]? = some s ∧
      s.keylenx = layerKeylenx ∧ s.ikey0 = ka.ikey ∧ ¬ka.hasSuffix = true := by
  cases found : gcLayer l ka with
  | none => exact .inl rfl
  | some c =>
    right
    obtain ⟨c₀, locked, found⟩ := Option.bind_eq_some_iff.mp found
    obtain ⟨-, state, rfl, -⟩ := findLocked_cases locked
    dsimp only at found
    generalize (if (l.lower ka).2.isSome = true then (l.lower ka).1 + 1 else (l.lower ka).1) = kxi at found
    split at found
    · cases found
    · rename_i present
      rw [not_or, not_or, not_or, not_not, not_not, Nat.not_le] at present
      obtain ⟨short, inside, ikey, layer⟩ := present
      obtain rfl := Option.some.inj found
      have at_ := Leaf.getElem?_entries inside
      exact ⟨_, _, rfl, rfl, at_, (isLayer_iff (holds.valid _ (List.mem_of_getElem? at_))).mp layer, ikey, short⟩

/-- It finds the slot of the layer, wherever the search for the prefix ends in the leaf. -/
theorem gcLayer_isSome (holds : l.Holds lo hi) {ka : Key} {s : Slot V} (mem : s ∈ l.entries) (layer : s.keylenx = layerKeylenx)
    (ikey : s.ikey0 = ka.ikey) (whole : ka.length = 8) : (gcLayer l ka).isSome := by
  obtain ⟨alive, live⟩ := holds.alive.found
  obtain ⟨i, at_⟩ := List.mem_iff_getElem?.mp mem
  have inside : i < l.size := by
    have inside := (List.getElem?_eq_some_iff.mp at_).1
    rwa [Leaf.length_entries] at inside
  have next : s.rank = ka.rank + 1 := by
    rw [Slot.rank, Key.rank, rank, rank, layer, ikey, whole]
    rfl
  have short : ¬ka.hasSuffix = true := by
    rw [Key.hasSuffix_iff]
    rw [Key.length] at whole
    omega
  have here : l.slot (l.perm.get i) = s := Option.some.inj ((Leaf.getElem?_entries inside).symm.trans at_)
  have located : ∃ c, findLocked l ka = some c ∧ (if c.kxp.isSome then c.kxi + 1 else c.kxi) = i := by
    rcases Leaf.lower_cases holds.sorted ka with ⟨i', lt, found, same⟩ | ⟨i', le, found, below, above⟩
    · -- the key of the prefix itself is right before the layer
      have at' := Leaf.getElem?_entries lt
      have notLayer : (l.slot (l.perm.get i')).ksufMatches ka ≠ .layer := by
        intro matches_
        obtain ⟨-, long⟩ := (holds.valid _ (List.mem_of_getElem? at')).of_layer same matches_
        exact short long
      refine ⟨_, (findLocked_some alive live (by rw [found])).trans (if_neg notLayer), ?_⟩
      show (l.lower ka).1 + 1 = i
      rw [found]
      rcases Nat.lt_or_ge i' i with less | more
      · obtain ⟨d, rfl⟩ := Nat.exists_eq_add_of_lt less
        have apart := holds.sorted.rank_add at' (j := d + 1) at_
        show i' + 1 = i' + d + 1
        omega
      · obtain ⟨d, rfl⟩ := Nat.exists_eq_add_of_le more
        have apart := holds.sorted.rank_add at_ at'
        omega
    · refine ⟨_, findLocked_none alive live (by rw [found]), ?_⟩
      show (l.lower ka).1 = i
      rw [found]
      rcases Nat.lt_or_ge i i' with less | more
      · have early := below s (List.mem_of_getElem? (i := i) (by rw [List.getElem?_take_of_lt less, at_]))
        omega
      · obtain ⟨d, rfl⟩ := Nat.exists_eq_add_of_le more
        have at' := Leaf.getElem?_entries (show i' < l.size by omega)
        have late := above _ (List.mem_of_getElem? (i := 0) (by rw [List.getElem?_drop, Nat.add_zero, at']))
        have apart := holds.sorted.rank_add at' at_
        show i' = i' + d
        omega
  obtain ⟨c, locked, kxi⟩ := located
  rw [gcLayer, locked, Option.bind_some]
  dsimp only
  rw [kxi, here, if_neg]
  · rfl
  · rw [not_or, not_or, not_or, not_not, not_not]
    exact ⟨short, Nat.not_le_of_lt inside, ikey, (isLayer_iff (holds.valid s mem)).mpr layer⟩

end Tcursor

/-! ### The table without the layer -/

namespace Table

variable {t : Table V} {key at_ : Bytes} {p : Place V} {j lo hi bound : Nat} {root root' : Node (Leaf V)}

/-- What a collection does: nothing that a search can see, or the layer had no slots, and goes with its own slot. -/
inductive Collects (t t' : Table V) (at_ : Bytes) : Prop
  | kept : t'.layers.slots = t.layers.slots → (∀ at', (t'.layers at').isSome ↔ (t.layers at').isSome) →
      (∀ at' ≠ at_, t'.layers at' = t.layers at') →
      (∀ root, t.layers at_ = some root → root.leaves.length = 1 → root.entries ≠ []) → t'.callbacks = t.callbacks → Collects t t' at_
  | gone {root below : Node (Leaf V)} {key : Bytes} {i j lo hi bound : Nat} {p : Place V} {l : Leaf V} {behind : Bytes → Nat} :
      8 * (i + 1) < key.length → at_ = key.take (8 * (i + 1)) → t.layers at_ = some below → below.entries = [] → t'.layers at_ = none →
      (∀ at' ≠ at_, (t'.layers at').isSome ↔ (t.layers at').isSome) →
      (∃ s, t.layers.slots (key.take (8 * i)) (Key.after key i).rank = some s ∧ s.keylenx = layerKeylenx) →
      t'.layers.slots = t.layers.slots.set (key.take (8 * i)) (Key.after key i).rank none →
      t.At at_ j p root lo hi bound → t.Drops ⟨Function.update t.layers at_ none, behind, t.callbacks⟩ t' at_ j p l
      (Key.after key i).rank →
      Collects t t' at_

theorem Collects.get {t' : Table V} (ok : t.Ok) (collects : t.Collects t' at_) :
    t'.layers.slots.get = t.layers.slots.get := by
  cases collects with
  | kept slots _ _ _ _ => rw [slots]
  | gone more same layer empty _ _ slot slots _ _ =>
    obtain ⟨s, slot, layer_⟩ := slot
    rw [slots]
    refine Contents.get_collect ok.lawful more slot layer_ ?_
    intro r
    rw [← same, Layers.slots_eq layer, empty, List.find?_nil]

/-- The key of a layer, going on. -/
theorem after_append_zero (at_ : Bytes) (i : Nat) (inside : 8 * i < at_.length) (short : at_.length ≤ 8 * (i + 1))
    (aligned : 8 ∣ at_.length) :
    at_.length = 8 * (i + 1) ∧ 8 * (i + 1) < (at_ ++ [0]).length ∧ at_ = (at_ ++ [0]).take (8 * (i + 1)) ∧
      (at_ ++ [0]).take (8 * i) = at_.take (8 * i) ∧ (Key.after (at_ ++ [0]) i).ikey = (Key.after at_ i).ikey ∧
        (Key.after (at_ ++ [0]) i).hasSuffix = true := by
  obtain ⟨n, length⟩ := aligned
  have exact_ : at_.length = 8 * (i + 1) := by omega
  refine ⟨exact_, ?_, ?_, ?_, ?_, ?_⟩
  · rw [List.length_append, exact_]
    exact Nat.lt_succ_self _
  · rw [← exact_, List.take_left]
  · exact List.take_append_of_le_length (by omega)
  · show makeComparable ((at_ ++ [0]).drop (8 * i)) = makeComparable (at_.drop (8 * i))
    rw [List.drop_append_of_le_length (by omega), ← makeComparable_take, ← makeComparable_take (at_.drop _),
      List.take_append_of_le_length]
    rw [List.length_drop]
    omega
  · rw [Key.hasSuffix_iff]
    show 8 < (List.drop _ _).length
    rw [List.length_drop, List.length_append, exact_, List.length_singleton]
    omega

/-- A layer without slots has nothing to be found in it. -/
theorem slots_empty {layers : Layers V} (layer : layers at_ = some root) (empty : root.entries = []) :
    Layers.slots (Function.update layers at_ none) = layers.slots := by
  funext at' r
  by_cases here : at' = at_
  · subst here
    rw [Layers.slots_none (Function.update_self ..), Layers.slots_eq layer, empty, List.find?_nil]
  · rw [Layers.slots, Layers.slots, Function.update_of_ne here]

/-- The layer and its slot are gone. -/
theorem Ok.collected (ok : t.Ok) (more : 8 * (j + 1) < key.length) (same : at_ = key.take (8 * (j + 1)))
    (layer : t.layers (key.take (8 * j)) = some root) (sound : root'.Sound) {t' : Table V}
    (layers : t'.layers = Function.update (Function.update t.layers at_ none) (key.take (8 * j)) (some root'))
    (slots : t'.layers.slots = t.layers.slots.set (key.take (8 * j)) (Key.after key j).rank none) :
    t'.layers at_ = none ∧ (∀ at' ≠ at_, (t'.layers at').isSome ↔ (t.layers at').isSome) ∧ t'.Ok := by
  have lengths : ∀ {other : Bytes} {a b}, a ≤ other.length → b ≤ key.length → other.take a = key.take b → a = b := by
    intro other a b le le' same
    have lengths := congrArg List.length same
    rw [List.length_take, List.length_take] at lengths
    omega
  have apart : at_ ≠ key.take (8 * j) := by
    rw [same]
    intro same'
    have index := lengths (Nat.le_of_lt more) (by omega) same'
    omega
  have gone : t'.layers at_ = none := by rw [layers, Function.update_of_ne apart, Function.update_self]
  have elsewhere : ∀ at' ≠ at_, ((t'.layers at').isSome ↔ (t.layers at').isSome) := by
    intro at' ne
    rw [layers]
    by_cases here : at' = key.take (8 * j)
    · rw [here, Function.update_self, layer]
      exact ⟨fun _ => rfl, fun _ => rfl⟩
    · rw [Function.update_of_ne here, Function.update_of_ne ne]
  refine ⟨gone, elsewhere, ?_, ?_, ?_, ?_, ?_, ?_⟩
  · intro at' root'' layer'
    by_cases here : at' = key.take (8 * j)
    · rw [layers, here, Function.update_self] at layer'
      rwa [← Option.some.inj layer']
    · by_cases there : at' = at_
      · rw [there, gone] at layer'
        cases layer'
      · rw [layers, Function.update_of_ne here, Function.update_of_ne there] at layer'
        exact ok.sound at' root'' layer'
  · refine (elsewhere [] ?_).mpr ok.top
    intro top
    have lengths := congrArg List.length (top.trans same)
    rw [List.length_nil, List.length_take] at lengths
    omega
  · intro other i more'
    by_cases this : other.take (8 * (i + 1)) = at_
    · -- the slot of the layer was the one that is gone
      have index := lengths (Nat.le_of_lt more') (Nat.le_of_lt more) (this.trans same)
      obtain rfl : i = j := by omega
      obtain ⟨before, rank⟩ := Key.rank_after more more' (this.trans same)
      rw [this, gone, slots, before, rank, Contents.set_same]
      refine iff_of_false (by simp) ?_
      rintro ⟨s, none_, -⟩
      cases none_
    · rw [elsewhere _ this, slots, Contents.set_other]
      · exact ok.linked other i more'
      · rintro ⟨before, rank⟩
        have index := lengths (by omega) (by omega) before
        obtain rfl : i = j := by omega
        exact this ((Contents.take_succ before rank).trans same.symm)
  · intro at' there
    refine ok.aligned at' ?_
    by_cases here : at' = at_
    · rw [here, gone] at there
      cases there
    · exact (elsewhere at' here).mp there
  · rw [slots]
    refine set_inner ok.inner ?_
    intro below s none_
    cases none_
  · refine ok.finite.subset ?_
    intro at' there
    by_cases here : at' = at_
    · change (t'.layers at').isSome at there
      rw [here, gone] at there
      cases there
    · exact (elsewhere at' here).mp there

/-- The layer of a slot that is found where the search for its prefix ends. -/
theorem At.layer_of_slot (ok : t.Ok) (place : t.At at_ j p root lo hi bound) (aligned : 8 ∣ at_.length) (some_ : at_ ≠ [])
    {i : Nat} {s : Slot V}
    (slotAt : p.n.entries[i]? = some s) (layer_ : s.keylenx = layerKeylenx) (ikey : s.ikey0 = (Key.after at_ j).ikey)
    (short : ¬(Key.after at_ j).hasSuffix = true) :
    ∃ key below, 8 * (j + 1) < key.length ∧ at_ = key.take (8 * (j + 1)) ∧ key.take (8 * j) = at_.take (8 * j) ∧
      (Key.after key j).ikey = (Key.after at_ j).ikey ∧ t.layers at_ = some below ∧ s.rank = (Key.after key j).rank ∧
        t.layers.slots (key.take (8 * j)) (Key.after key j).rank = some s := by
  have inside : 8 * j < at_.length := by
    rcases place.inside with rfl | lt
    · exact List.length_pos_iff.mpr some_
    · exact lt
  have atMost : at_.length ≤ 8 * (j + 1) := by
    have length := Key.length_after at_ j
    rw [Key.hasSuffix_iff] at short
    rw [Key.length] at length
    omega
  obtain ⟨-, more, same, before, ikey', long⟩ := after_append_zero at_ j inside atMost aligned
  have rank : s.rank = (Key.after (at_ ++ [0]) j).rank := by
    have ofLayer := Slot.rank_layer (V := V) long s.ksuf s.lv
    rw [ikey', ← ikey, ← layer_] at ofLayer
    exact ofLayer
  have sound := ok.sound _ _ place.layer
  have found : t.layers.slots ((at_ ++ [0]).take (8 * j)) (Key.after (at_ ++ [0]) j).rank = some s := by
    rw [before, Layers.slots_eq place.layer, find_eq_some sound.sorted]
    refine ⟨?_, rank⟩
    rw [(place.leaf place.holds).2.2]
    exact List.mem_append_left _ (List.mem_append_right _ (List.mem_of_getElem? slotAt))
  obtain ⟨below, there⟩ := Option.isSome_iff_exists.mp ((ok.linked _ j more).mpr ⟨s, found, layer_⟩)
  rw [← same] at there
  exact ⟨at_ ++ [0], below, more, same, before, ikey', there, rank, found⟩

/-- A layer without slots that is there is found by its callback. -/
theorem At.finds (ok : t.Ok) (place : t.At at_ j p root lo hi bound) (some_ : at_ ≠ []) {below : Node (Leaf V)}
    (layer : t.layers at_ = some below) : (Tcursor.gcLayer p.n (.after at_ j)).isSome := by
  obtain ⟨a, aligned⟩ := ok.aligned at_ (Option.isSome_iff_exists.mpr ⟨below, layer⟩)
  have inside : 8 * j < at_.length := by
    rcases place.inside with rfl | lt
    · exact List.length_pos_iff.mpr some_
    · exact lt
  obtain ⟨n, rfl⟩ : ∃ n, a = j + n + 1 := ⟨a - j - 1, by omega⟩
  have more : 8 * (j + n + 1) < (at_ ++ [0]).length := by
    rw [List.length_append, ← aligned]
    exact Nat.lt_succ_self _
  have whole : (at_ ++ [0]).take (8 * (j + n + 1)) = at_ := by rw [← aligned, List.take_left]
  have before : (at_ ++ [0]).take (8 * j) = at_.take (8 * j) := List.take_append_of_le_length (Nat.le_of_lt inside)
  -- the slot is that of a layer, or there would be none below it
  have slot : ∃ s, t.layers.slots (at_.take (8 * j)) (Key.after (at_ ++ [0]) j).rank = some s ∧ s.keylenx = layerKeylenx := by
    by_contra missing
    have none_ := missing_below (n := n) ok more fun s found layer_ => missing ⟨s, before ▸ found, layer_⟩
    rw [whole, layer] at none_
    cases none_
  obtain ⟨s, found, layer_⟩ := slot
  have longer : 8 < (Key.after (at_ ++ [0]) j).length := by
    rw [Key.length_after, List.length_append, aligned, List.length_singleton]
    omega
  have ikey : (Key.after (at_ ++ [0]) j).ikey = (Key.after at_ j).ikey := by
    show makeComparable ((at_ ++ [0]).drop (8 * j)) = makeComparable (at_.drop (8 * j))
    rw [List.drop_append_of_le_length (Nat.le_of_lt inside), ← makeComparable_take, ← makeComparable_take (at_.drop _),
      List.take_append_of_le_length]
    rw [List.length_drop, aligned]
    omega
  obtain ⟨rank_, valid⟩ := ok.lawful _ _ _ found
  have same : s.ikey0 = (Key.after at_ j).ikey := by
    rw [← ikey]
    exact (rank_inj.mp rank_).1
  cases n with
  | zero =>
    have sound := ok.sound _ _ place.layer
    have lower := find_layer place.way place.holds (ikey.symm ▸ place.low) (ikey.symm ▸ place.high) (place.plugged.symm ▸ sound)
    rw [place.plugged, ← Layers.slots_eq place.layer, found] at lower
    obtain ⟨q, search, slot⟩ := Option.map_eq_some_iff.mp lower.symm
    have pair : p.n.lower (.after (at_ ++ [0]) j) = ((p.n.lower (.after (at_ ++ [0]) j)).1, some q) := by rw [← search]
    obtain ⟨-, -, -, there⟩ := Tcursor.search_some place.holds pair
    rw [slot] at there
    refine Tcursor.gcLayer_isSome place.holds (List.mem_of_getElem? there) layer_ same ?_
    rw [Key.length_after, aligned]
    omega
  | succ n =>
    -- the search would have gone on
    have rank' : (Key.after (at_ ++ [0]) j).rank = (Key.after at_ j).rank := by
      refine (Key.rank_after (by omega) (by omega) ?_).2
      exact List.take_append_of_le_length (by omega)
    have slot := place.slot ok
    have ends := place.ends
    rw [← rank', found] at slot
    obtain ⟨q, search, at'⟩ := Option.map_eq_some_iff.mp slot.symm
    rw [Leaf.leadsOn, search, Option.any_some, at', Slot.ksufMatches_layer_iff.mpr layer_] at ends
    cases ends

/-- `gc_layer` and what comes after it end, whatever the layer has become. -/
theorem gcLayer_spec (ok : t.Ok) (aligned : 8 ∣ at_.length) (some_ : at_ ≠ []) :
    ∃ t', t.gcLayer at_ = some t' ∧ t'.Ok ∧ t.Collects t' at_ := by
  obtain ⟨j, p, root, lo, hi, bound, found, place⟩ := locate_spec ok at_
  have full : p.ka.fullString = at_ := by rw [place.ka, Key.fullString_after]
  rw [gcLayer, found, Option.bind_some]
  dsimp only
  rcases Tcursor.gcLayer_spec place.holds (.after at_ j) with none_ | ⟨c, s, made, node, slotAt, layer_, ikey, short⟩
  · rw [place.ka, none_]
    refine ⟨_, rfl, ⟨ok.sound, ok.top, ok.linked, ok.aligned, ok.inner, ok.finite⟩,
      .kept rfl (fun _ => Iff.rfl) (fun _ _ => rfl) ?_ rfl⟩
    intro below layer
    have found := place.finds ok some_ layer
    rw [none_] at found
    cases found
  · obtain ⟨key, below, more, same, before, ikey', layer, rank, slot⟩ := place.layer_of_slot ok aligned some_ slotAt layer_ ikey short
    have soundBelow := ok.sound _ _ layer
    obtain ⟨below', collapsed, sound, entries, length, keys⟩ := collapse_spec soundBelow (Nat.le_refl _)
    -- what is left of the layer stays
    have stays : (below'.leaves.length = 1 → below'.entries ≠ []) → ∀ t' : Table V,
        t'.layers = Function.update t.layers at_ (some below') → t'.callbacks = t.callbacks → t'.Ok ∧ t.Collects t' at_ := by
      intro full_ t' layers callbacks
      have slots := Layers.slots_same layer soundBelow sound (congrArg slotSet entries)
      refine ⟨ok.setLayer layer sound (fun at' r => by rw [slots]) (slots ▸ ok.inner) layers,
        .kept (by rw [layers, slots]) ?_ ?_ ?_ callbacks⟩
      · intro at'
        rw [layers]
        by_cases here : at' = at_
        · rw [here, Function.update_self, layer]
          exact ⟨fun _ => rfl, fun _ => rfl⟩
        · rw [Function.update_of_ne here]
      · intro at' other
        rw [layers, Function.update_of_ne other]
      · intro root' layer'
        obtain rfl := Option.some.inj (layer.symm.trans layer')
        rwa [← entries, ← length]
    rw [full, place.ka, made]
    dsimp only
    rw [show (t.arrive p).layers at_ = some below from layer, Option.bind_some, collapsed, Option.bind_some]
    cases below' with
    | internode q =>
      refine ⟨_, rfl, stays (fun one => ?_) _ rfl rfl⟩
      exact absurd one (Nat.ne_of_gt (two_leaves sound (keys q rfl)))
    | leaf l =>
      dsimp only
      by_cases zero : l.size = 0
      · have empty : below.entries = [] := by
          rw [← entries, entries_leaf]
          exact List.length_eq_zero_iff.mp ((Leaf.length_entries l).trans zero)
        obtain ⟨dropped, bound_, which⟩ := Tcursor.removed place.holds node slotAt p.prev
        obtain ⟨t', root', settled, layers, sound', parts⟩ := settle_spec place
          ⟨Function.update t.layers at_ none, Function.update (t.arrive p).behind at_ 0, t.callbacks⟩ bound_ which
        rw [rank] at dropped
        have drop : slotSet root'.entries = dropRank (Key.after key j).rank (slotSet root.entries) := by
          rw [parts, (place.leaf place.holds).2.2]
          exact slotSet_drop place.way.around (ikey' ▸ place.low) (ikey' ▸ place.high) dropped
        have here : t.layers (key.take (8 * j)) = some root := by rw [before, place.layer]
        have slots : t'.layers.slots = t.layers.slots.set (key.take (8 * j)) (Key.after key j).rank none := by
          have apart : key.take (8 * j) ≠ at_ := by
            rw [same]
            intro same'
            have lengths := congrArg List.length same'
            rw [List.length_take, List.length_take] at lengths
            omega
          have here' : Function.update t.layers at_ none (key.take (8 * j)) = some root := by
            rw [Function.update_of_ne apart, here]
          rw [layers, ← before, Layers.slots_drop here' (ok.sound _ _ place.layer) sound' drop, slots_empty layer empty]
        obtain ⟨gone, elsewhere, ok'⟩ := ok.collected more same here sound' (by rw [layers, before]) slots
        rw [if_pos zero]
        exact ⟨t', settled, ok', .gone more same layer empty gone elsewhere ⟨s, slot, layer_⟩ slots place
          ⟨found, ⟨s, List.mem_of_getElem? slotAt, rank⟩, dropped, settled, root', layers, sound', parts⟩⟩
      · rw [if_neg zero]
        refine ⟨_, rfl, stays (fun _ empty => zero ?_) _ rfl rfl⟩
        rw [← Leaf.length_entries, ← entries_leaf, empty]
        rfl

end Table

end Masstree.Tree
