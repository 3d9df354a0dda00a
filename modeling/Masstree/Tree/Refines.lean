import Masstree.Tree.Located

/-!
# A table is a map

Every operation keeps what holds of a table, and changes what a search finds for its own key only.
-/

namespace Masstree.Tree
open Msgpack (Bytes)

variable {V : Type}

namespace Table

variable {t : Table V} {key : Bytes} {p : Place V} {j lo hi bound : Nat} {root root' : Node (Leaf V)} {l : Leaf V}

/-! ### One layer -/

theorem At.leaf (at_ : t.At key j p root lo hi bound) (holds : l.Holds lo hi) :
    (plug (.leaf l) p.path).Sound ∧ (plug (.leaf l) p.path).entries =
      (before p.path).flatMap Leaf.entries ++ l.entries ++ (after p.path).flatMap Leaf.entries ∧
        root.entries = (before p.path).flatMap Leaf.entries ++ p.n.entries ++ (after p.path).flatMap Leaf.entries := by
  refine ⟨at_.way.plug (wf_leaf.mpr ⟨Nat.lt_of_le_of_lt at_.low at_.high, holds⟩) at_.pos, ?_, ?_⟩
  · rw [at_.way.entries, entries_leaf]
  · rw [← at_.plugged, at_.way.entries, entries_leaf]

/-- Both leaves of a split, in the tree. -/
theorem At.split (at_ : t.At key j p root lo hi bound) {m m' : Leaf V} (splitType : Nat) (above : lo < m'.ikeyBound)
    (below : m'.ikeyBound < hi) (holds : m.Holds lo m'.ikeyBound) (holds' : m'.Holds m'.ikeyBound hi) :
    (insertSplit splitType 0 (.leaf m) m'.ikeyBound (.leaf m') p.path).Sound ∧
      (insertSplit splitType 0 (.leaf m) m'.ikeyBound (.leaf m') p.path).entries =
        (before p.path).flatMap Leaf.entries ++ (m.entries ++ m'.entries) ++ (after p.path).flatMap Leaf.entries := by
  have low : (Node.leaf m).Wf Leaf.Holds lo m'.ikeyBound := wf_leaf.mpr ⟨above, holds⟩
  have high : (Node.leaf m').Wf Leaf.Holds m'.ikeyBound hi := wf_leaf.mpr ⟨below, holds'⟩
  have height : (Node.leaf m).height = 0 ∧ (Node.leaf m').height = 0 := ⟨rfl, rfl⟩
  obtain ⟨sound, leaves⟩ := insertSplit_spec at_.way low high height.1 height.2 at_.pos
  refine ⟨sound, ?_⟩
  rw [Node.entries, leaves, List.flatMap_append, List.flatMap_append, List.flatMap_append]
  simp [Node.leaves]

/-- The slot of the key's rank, if there is one, has the key. -/
theorem At.mine (ok : t.Ok) (at_ : t.At key j p root lo hi bound)
    (match_ : ∀ q, (p.n.lower (.after key j)).2 = some q → (p.n.slot q).ksufMatches (.after key j) = .yes) :
    t.layers.slots.Mine key j := by
  have slot := at_.slot ok
  cases search : (p.n.lower (.after key j)).2 with
  | none => exact .inl (by rw [slot, search]; rfl)
  | some q =>
    rw [search, Option.map_some] at slot
    obtain ⟨rank, valid⟩ := ok.lawful _ _ _ slot
    obtain ⟨v, same⟩ := valid.of_yes rank (match_ q search)
    exact .inr ⟨some v, by rw [slot, same]⟩

theorem At.inner (at_ : t.At key j p root lo hi bound) (below : key.take (8 * j) ≠ []) (v : Option V) :
    (Slot.holding (.after key j) v : Slot V).keylenx ≠ 0 := by
  rcases at_.inside with rfl | lt
  · exact absurd List.take_zero below
  · exact inner_holding lt v

theorem mine_layer (mine : t.layers.slots.Mine key j) :
    ∀ s, t.layers.slots (key.take (8 * j)) (Key.after key j).rank = some s → s.keylenx ≠ layerKeylenx := by
  intro s some_
  rcases mine with none_ | ⟨v, holding⟩
  · rw [none_] at some_
    cases some_
  · rw [holding] at some_
    rw [← Option.some.inj some_]
    exact keylenx_holding _ _

theorem slotSet_congr {A B E E' : List (Slot V)} (same : slotSet E' = slotSet E) :
    slotSet (A ++ E' ++ B) = slotSet (A ++ E ++ B) := by
  have member : ∀ s, s ∈ E' ↔ s ∈ E := fun s => by rw [← mem_slotSet, same, mem_slotSet]
  ext s
  rw [mem_slotSet, mem_slotSet, List.mem_append, List.mem_append, List.mem_append, List.mem_append, member]

/-- The value comes in the key's slot of the layer. -/
theorem At.store (ok : t.Ok) (at_ : t.At key j p root lo hi bound) (mine : t.layers.slots.Mine key j) (value : Option V)
    (sound : root'.Sound) {E : List (Slot V)}
    (entries : root'.entries = (before p.path).flatMap Leaf.entries ++ E ++ (after p.path).flatMap Leaf.entries)
    (result : slotSet E = stored (.after key j) value (slotSet p.n.entries)) {t' : Table V}
    (layers : t'.layers = Function.update t.layers (key.take (8 * j)) (some root')) :
    t'.Ok ∧ t'.layers.slots.get = value.elim t.layers.slots.get fun v => Function.update t.layers.slots.get key (some v) := by
  have soundRoot := ok.sound _ _ at_.layer
  have old := (at_.leaf at_.holds).2.2
  cases value with
  | none =>
    have same : slotSet root'.entries = slotSet root.entries := by
      rw [entries, old]
      exact slotSet_congr result
    have slots := Layers.slots_same at_.layer soundRoot sound same
    refine ⟨ok.setLayer at_.layer sound (fun at' r => by rw [slots]) (slots ▸ ok.inner) layers, ?_⟩
    rw [layers, slots]
    rfl
  | some v =>
    have put : slotSet root'.entries = putSlot (.holding (.after key j) (some v)) (slotSet root.entries) := by
      rw [entries, old]
      exact slotSet_put at_.way.around at_.low at_.high (Slot.rank_holding _ _) result
    have slots := Layers.slots_put at_.layer soundRoot sound put
    rw [Slot.rank_holding] at slots
    refine ⟨ok.setLayer at_.layer sound ?_ ?_ layers, ?_⟩
    · rw [slots]
      refine set_layers (mine_layer mine) ?_
      intro s some_
      rw [← Option.some.inj some_]
      exact keylenx_holding _ _
    · rw [slots]
      refine set_inner ok.inner ?_
      intro below s some_
      rw [← Option.some.inj some_]
      exact at_.inner below _
    · rw [layers, slots]
      exact Contents.get_set ok.lawful at_.le mine at_.passes v

/-- The key's slot goes from the layer. -/
theorem At.drop (ok : t.Ok) (at_ : t.At key j p root lo hi bound) (mine : t.layers.slots.Mine key j) (sound : root'.Sound)
    {E : List (Slot V)} (entries : root'.entries = (before p.path).flatMap Leaf.entries ++ E ++ (after p.path).flatMap Leaf.entries)
    (result : slotSet E = dropRank (Key.after key j).rank (slotSet p.n.entries)) {t' : Table V}
    (layers : t'.layers = Function.update t.layers (key.take (8 * j)) (some root')) :
    t'.Ok ∧ t'.layers.slots.get = Function.update t.layers.slots.get key none := by
  have dropped : slotSet root'.entries = dropRank (Key.after key j).rank (slotSet root.entries) := by
    rw [entries, (at_.leaf at_.holds).2.2]
    exact slotSet_drop at_.way.around at_.low at_.high result
  have slots := Layers.slots_drop at_.layer (ok.sound _ _ at_.layer) sound dropped
  refine ⟨ok.setLayer at_.layer sound ?_ ?_ layers, ?_⟩
  · rw [slots]
    refine set_layers (mine_layer mine) ?_
    intro s some_
    cases some_
  · rw [slots]
    refine set_inner ok.inner ?_
    intro below s none_
    cases none_
  · rw [layers, slots]
    exact Contents.get_drop ok.lawful at_.le mine at_.passes

/-- What has become of a leaf after a remove. -/
theorem settle_spec (at_ : t.At key j p root lo hi bound) (t₁ : Table V)
    (bound_ : l.ikeyBound = p.n.ikeyBound) (which : l.size = 0 ∧ p.prev = true ∨ l.Holds lo hi) :
    ∃ t' root', t₁.settle p l = some t' ∧ t'.layers = Function.update t₁.layers (key.take (8 * j)) (some root') ∧ root'.Sound ∧
      root'.entries = (before p.path).flatMap Leaf.entries ++ l.entries ++ (after p.path).flatMap Leaf.entries := by
  have place : p.ka.prefixString = key.take (8 * j) := by rw [at_.ka, Key.prefixString_after]
  by_cases gone : l.size = 0 ∧ p.prev = true
  · have pos : 0 < lo := at_.way.hasPrev_iff.mp gone.2
    have low : l.ikeyBound = lo := bound_.trans (at_.holds.bound pos)
    have parents : p.path ≠ [] := by
      intro empty
      have prev := gone.2
      rw [Place.prev, empty] at prev
      cases prev
    have empty : l.entries = [] := List.length_eq_zero_iff.mp ((Leaf.length_entries l).trans gone.1)
    obtain ⟨root', removed, sound, leaves⟩ := removeNode_spec Leaf.extends_holds at_.way (Nat.le_of_eq low.symm)
      (low ▸ Nat.lt_of_le_of_lt at_.low at_.high) (r := none) pos parents
    refine ⟨t₁.setLayer p.ka.prefixString root', root', ?_, ?_, sound, ?_⟩
    · rw [settle, if_neg (not_not.mpr gone.1), if_pos gone.2, removed, Option.map_some]
    · show Function.update _ p.ka.prefixString _ = _
      rw [place]
    · rw [Node.entries, leaves, empty, firstLeaves, List.append_nil, List.append_nil, List.flatMap_append]
  · have holds := which.resolve_left gone
    obtain ⟨sound, entries, -⟩ := at_.leaf holds
    refine ⟨{ t₁.setLeaf p l with callbacks := if l.size = 0 ∧ (¬p.next ∧ p.ka.prefixString ≠ []) then
      t₁.callbacks ++ [p.ka.prefixString] else t₁.callbacks }, _, ?_, ?_, sound, entries⟩
    · rw [settle]
      by_cases some_ : l.size ≠ 0
      · rw [if_pos some_, if_neg (fun both => some_ both.1)]
        rfl
      · have zero := not_not.mp some_
        rw [if_neg some_, if_neg (fun prev => gone ⟨zero, prev⟩)]
        simp only [zero, true_and]
    · show Function.update _ p.ka.prefixString _ = _
      rw [place]

/-- A slot goes from the leaf where the search for the key ends, and what is left of the leaf is settled in `t₁`. -/
structure Drops (t t₁ t' : Table V) (key : Bytes) (j : Nat) (p : Place V) (l : Leaf V) (r : Nat) : Prop where
  found : t.locate key = some p
  had : ∃ s ∈ p.n.entries, s.rank = r
  dropped : slotSet l.entries = dropRank r (slotSet p.n.entries)
  settled : t₁.settle p l = some t'
  result : ∃ root' : Node (Leaf V), t'.layers = Function.update t₁.layers (key.take (8 * j)) (some root') ∧ root'.Sound ∧
    root'.entries = (before p.path).flatMap Leaf.entries ++ l.entries ++ (after p.path).flatMap Leaf.entries

/-! ### Layers below -/

/-- The new leaves are in the layers of the next slices. -/
theorem hang_spec (layers : Layers V) {twig : List (Leaf V)} (inside : 8 * (j + twig.length) ≤ key.length) :
    (∀ k l, twig[k]? = some l → layers.hang (.after key j) twig (key.take (8 * (j + 1 + k))) = some (.leaf l)) ∧
      ∀ at_, (∀ k < twig.length, at_ ≠ key.take (8 * (j + 1 + k))) → layers.hang (.after key j) twig at_ = layers at_ := by
  induction twig generalizing layers j with
  | nil =>
    refine ⟨?_, fun at_ _ => rfl⟩
    intro k l none_
    cases none_
  | cons m twig ih =>
    rw [List.length_cons] at inside
    have index : ∀ k, j + 1 + 1 + k = j + 1 + (k + 1) := fun k => by omega
    have inside' : 8 * (j + 1 + twig.length) ≤ key.length := by omega
    obtain ⟨here, elsewhere⟩ := ih (Function.update layers (key.take (8 * (j + 1))) (some (.leaf m))) inside'
    simp only [index] at here elsewhere
    have hang : layers.hang (.after key j) (m :: twig) =
        Layers.hang (Function.update layers (key.take (8 * (j + 1))) (some (.leaf m))) (.after key (j + 1)) twig := by
      rw [Layers.hang, Key.shift_after, Key.prefixString_after]
    refine ⟨?_, ?_⟩
    · intro k l at_
      rw [hang]
      cases k with
      | zero =>
        obtain rfl := Option.some.inj at_
        rw [elsewhere, Nat.add_zero, Function.update_self]
        intro k lt same
        have lengths := congrArg List.length same
        rw [List.length_take, List.length_take] at lengths
        omega
      | succ k => exact here k l at_
    · intro at_ ne
      rw [hang, elsewhere at_ fun k lt => ne (k + 1) (Nat.succ_lt_succ lt), Function.update_of_ne]
      exact ne 0 (Nat.succ_pos _)

/-- Below a slot that is not that of a layer there are no layers. -/
theorem missing_below (ok : t.Ok) {n : Nat} (inside : 8 * (j + n + 1) < key.length)
    (slot : ∀ s, t.layers.slots (key.take (8 * j)) (Key.after key j).rank = some s → s.keylenx ≠ layerKeylenx) :
    t.layers (key.take (8 * (j + n + 1))) = none := by
  induction n with
  | zero =>
    by_contra some_
    obtain ⟨s, at_, layer⟩ := (ok.linked key j inside).mp (Option.isSome_iff_ne_none.mpr some_)
    exact slot s at_ layer
  | succ n ih =>
    by_contra some_
    obtain ⟨s, at_, -⟩ := (ok.linked key (j + (n + 1)) inside).mp (Option.isSome_iff_ne_none.mpr some_)
    change t.layers.slots (key.take (8 * (j + n + 1))) _ = some s at at_
    rw [Layers.slots_none (ih (by omega))] at at_
    cases at_

theorem sound_leaf (holds : l.Holds 0 top) : (Node.leaf l).Sound := wf_leaf.mpr ⟨by decide, holds⟩

theorem find_ofLayer (ka : Key) (long : ka.hasSuffix = true) (r : Nat) : (Node.leaf (Leaf.ofLayer ka : Leaf V)).entries.find?
    (fun s => s.rank = r) = if r = ka.rank then some (Slot.ofLayer ka) else none := by
  have rank : (Slot.ofLayer ka : Slot V).rank = ka.rank := Slot.rank_layer long _ _
  have entries : (Leaf.ofLayer ka : Leaf V).entries = [Slot.ofLayer ka] := rfl
  rw [entries_leaf, entries]
  by_cases same : r = ka.rank
  · rw [if_pos same, List.find?_cons_of_pos (by simp [rank, same])]
  · rw [if_neg same, List.find?_cons_of_neg (by simp [rank, Ne.symm same]), List.find?_nil]

theorem find_last {old ka : Key} {v₀ : V} {value : Option V} (holds : l.Holds 0 top) (apart : old.rank ≠ ka.rank)
    (entries : slotSet l.entries = stored ka value {.holding old (some v₀)}) (r : Nat) :
    (Node.leaf l).entries.find? (fun s => s.rank = r) = if r = old.rank then some (.holding old (some v₀))
      else if r = ka.rank then value.map fun v => .holding ka (some v) else none := by
  have rank : (Slot.holding old (some v₀)).rank = old.rank := Slot.rank_holding _ _
  have member : ∀ s, s ∈ l.entries ↔ s ∈ stored ka value {.holding old (some v₀)} := fun s => by rw [← entries, mem_slotSet]
  rw [entries_leaf]
  by_cases isOld : r = old.rank
  · rw [if_pos isOld, find_eq_some holds.sorted, member]
    refine ⟨?_, rank.trans isOld.symm⟩
    cases value with
    | none => rfl
    | some v => exact .inr ⟨rfl, by rw [rank, Slot.rank_holding]; exact apart⟩
  · rw [if_neg isOld]
    by_cases isNew : r = ka.rank
    · rw [if_pos isNew]
      cases value with
      | none =>
        rw [Option.map_none, find_eq_none]
        intro s mem same
        obtain rfl : s = .holding old (some v₀) := (member s).mp mem
        exact isOld (same.symm.trans rank)
      | some v =>
        rw [Option.map_some, find_eq_some holds.sorted, member]
        exact ⟨.inl rfl, (Slot.rank_holding _ _).trans isNew.symm⟩
    · rw [if_neg isNew, find_eq_none]
      intro s mem same
      rcases mem_stored ((member s).mp mem) with rfl | ⟨v, rfl⟩
      · exact isOld (same.symm.trans rank)
      · exact isNew (same.symm.trans (Slot.rank_holding _ _))

/-- The table with the layers for two keys. -/
structure Hung (t t' : Table V) (key old : Bytes) (v₀ : V) (value : Option V) (j n : Nat) (ksuf : Bytes) : Prop where
  together : Together key old (j + 1) n
  inside : 8 * (j + 1 + n) < key.length
  point : t'.layers.slots (key.take (8 * j)) (Key.after key j).rank = some ⟨(Key.after key j).ikey, layerKeylenx, ksuf, none⟩
  twig : ∀ k < n, ∀ r, t'.layers.slots (key.take (8 * (j + 1 + k))) r =
    if r = (Key.after key (j + 1 + k)).rank then some (Slot.ofLayer (.after key (j + 1 + k))) else none
  last : ∀ r, t'.layers.slots (key.take (8 * (j + 1 + n))) r =
    if r = (Key.after old (j + 1 + n)).rank then some (.holding (.after old (j + 1 + n)) (some v₀))
    else if r = (Key.after key (j + 1 + n)).rank then value.map fun v => .holding (.after key (j + 1 + n)) (some v) else none
  made : ∀ k ≤ n, (t'.layers (key.take (8 * (j + 1 + k)))).isSome ∧ t.layers (key.take (8 * (j + 1 + k))) = none
  other : ∀ at_, (∀ k ≤ n, at_ ≠ key.take (8 * (j + 1 + k))) → ((t'.layers at_).isSome ↔ (t.layers at_).isSome) ∧
    ∀ r, ¬(at_ = key.take (8 * j) ∧ r = (Key.after key j).rank) → t'.layers.slots at_ r = t.layers.slots at_ r
  rest : ∀ at_, (∀ k ≤ n, at_ ≠ key.take (8 * (j + 1 + k))) → at_ ≠ key.take (8 * j) → t'.layers at_ = t.layers at_
  leaves : ∀ k < n, t'.layers (key.take (8 * (j + 1 + k))) = some (.leaf (.ofLayer (.after key (j + 1 + k))))
  lastLeaf : ∃ l : Leaf V, t'.layers (key.take (8 * (j + 1 + n))) = some (.leaf l) ∧
    slotSet l.entries = stored (.after key (j + 1 + n)) value {.holding (.after old (j + 1 + n)) (some v₀)}

section Hung
variable {t' : Table V} {old : Bytes} {v₀ : V} {value : Option V} {n : Nat} {ksuf : Bytes}

theorem Hung.forks (hung : t.Hung t' key old v₀ value j n ksuf)
    (apart : (Key.after old (j + 1 + n)).rank ≠ (Key.after key (j + 1 + n)).rank) :
    t'.layers.slots.Forks key old v₀ value (j + 1) := by
  have from_ : ∀ d ≤ n, t'.layers.slots.Forks key old v₀ value (j + 1 + (n - d)) := by
    intro d le
    induction d with
    | zero => exact .last apart hung.last
    | succ d ih =>
      have below := ih (Nat.le_of_succ_le le)
      have next : j + 1 + (n - d) = j + 1 + (n - (d + 1)) + 1 := by omega
      obtain ⟨agree, long⟩ := hung.together (n - (d + 1)) (by omega)
      rw [next] at below
      exact .more agree long (hung.twig (n - (d + 1)) (by omega)) below
  have first := from_ n (Nat.le_refl n)
  rwa [Nat.sub_self] at first

theorem Hung.get (hung : t.Hung t' key old v₀ value j n ksuf) (ok : t.Ok) (passes : t.layers.slots.Passes key j)
    (apart : (Key.after old (j + 1 + n)).rank ≠ (Key.after key (j + 1 + n)).rank) (ne : old ≠ key)
    (shared : old.take (8 * j) = key.take (8 * j)) (agree : (Key.after old j).rank = (Key.after key j).rank)
    (long : (Key.after key j).hasSuffix = true)
    (slot : t.layers.slots (key.take (8 * j)) (Key.after key j).rank = some (.holding (.after old j) (some v₀))) :
    t'.layers.slots.get = Function.update t.layers.slots.get key value := by
  refine Contents.get_fork ok.lawful passes ne shared agree long slot hung.point ?_ (hung.forks apart)
  intro at_ r elsewhere above
  refine (hung.other at_ ?_).2 r elsewhere
  rintro k le rfl
  refine above ⟨by have inside := hung.inside; omega, ?_⟩
  exact List.take_prefix_take_left (by omega)

theorem Hung.linked (hung : t.Hung t' key old v₀ value j n ksuf) (ok : t.Ok)
    (slot : t.layers.slots (key.take (8 * j)) (Key.after key j).rank = some (.holding (.after old j) (some v₀))) :
    ∀ other i, 8 * (i + 1) < other.length → ((t'.layers (other.take (8 * (i + 1)))).isSome ↔
      ∃ s, t'.layers.slots (other.take (8 * i)) (Key.after other i).rank = some s ∧ s.keylenx = layerKeylenx) := by
  intro other i more
  have inside := hung.inside
  have lengths : ∀ {a b}, a ≤ other.length → b ≤ key.length → other.take a = key.take b → a = b := by
    intro a b le le' same
    have lengths := congrArg List.length same
    rw [List.length_take, List.length_take] at lengths
    omega
  by_cases isHung : ∃ k ≤ n, other.take (8 * (i + 1)) = key.take (8 * (j + 1 + k))
  · -- a new layer, of the slot in the layer before
    obtain ⟨k, le, same⟩ := isHung
    have index := lengths (Nat.le_of_lt more) (by omega) same
    obtain rfl : i = j + k := by omega
    have same' : other.take (8 * (j + k + 1)) = key.take (8 * (j + k + 1)) := by
      rw [same]
      congr 2
      omega
    obtain ⟨before, rank⟩ := Key.rank_after (show 8 * (j + k + 1) < key.length by omega) more same'
    rw [same, before, rank]
    refine iff_of_true (hung.made k le).1 ?_
    cases k with
    | zero => exact ⟨_, hung.point, rfl⟩
    | succ k =>
      have twig := hung.twig k (Nat.lt_of_succ_le le) (Key.after key (j + 1 + k)).rank
      rw [if_pos rfl] at twig
      have next : j + (k + 1) = j + 1 + k := by omega
      rw [next]
      exact ⟨_, twig, rfl⟩
  · have notHung : ∀ k ≤ n, other.take (8 * (i + 1)) ≠ key.take (8 * (j + 1 + k)) := fun k le same => isHung ⟨k, le, same⟩
    rw [(hung.other _ notHung).1, ok.linked other i more]
    by_cases below : ∃ k ≤ n, other.take (8 * i) = key.take (8 * (j + 1 + k))
    · -- in a new layer there is only the slot of the next one
      obtain ⟨k, le, same⟩ := below
      have index := lengths (by omega) (by omega) same
      obtain rfl : i = j + 1 + k := by omega
      rw [same]
      refine iff_of_false ?_ ?_
      · rintro ⟨s, some_, -⟩
        rw [Layers.slots_none (hung.made k le).2] at some_
        cases some_
      · rintro ⟨s, some_, layer⟩
        rcases Nat.lt_or_eq_of_le le with lt | rfl
        · rw [hung.twig k lt] at some_
          split at some_
          · rename_i rank
            exact notHung (k + 1) lt (Contents.take_succ same rank)
          · cases some_
        · rw [hung.last] at some_
          split at some_
          · rw [← Option.some.inj some_] at layer
            exact keylenx_holding _ _ layer
          · split at some_
            · obtain ⟨v, -, rfl⟩ := Option.map_eq_some_iff.mp some_
              exact keylenx_holding _ _ layer
            · cases some_
    · have elsewhere : ¬(other.take (8 * i) = key.take (8 * j) ∧ (Key.after other i).rank = (Key.after key j).rank) := by
        rintro ⟨same, rank⟩
        have index := lengths (by omega) (by omega) same
        obtain rfl : i = j := by omega
        exact notHung 0 (Nat.zero_le n) (Contents.take_succ same rank)
      rw [(hung.other _ fun k le same => below ⟨k, le, same⟩).2 _ elsewhere]

theorem Hung.finite (hung : t.Hung t' key old v₀ value j n ksuf) (ok : t.Ok) : {at_ | (t'.layers at_).isSome}.Finite := by
  refine (ok.finite.union ((Set.finite_le_nat n).image fun k => key.take (8 * (j + 1 + k)))).subset ?_
  intro at_ there
  by_cases new : ∃ k ≤ n, at_ = key.take (8 * (j + 1 + k))
  · obtain ⟨k, le, same⟩ := new
    exact .inr ⟨k, le, same.symm⟩
  · exact .inl ((hung.other at_ fun k le same => new ⟨k, le, same⟩).1.mp there)

theorem Hung.inner (hung : t.Hung t' key old v₀ value j n ksuf) (ok : t.Ok) (agree : (Key.after old j).rank = (Key.after key j).rank)
    (long : (Key.after key j).hasSuffix = true) : ∀ at_ ≠ [], ∀ r s, t'.layers.slots at_ r = some s → s.keylenx ≠ 0 := by
  intro at_ below r s found
  have inside := hung.inside
  by_cases new : ∃ k ≤ n, at_ = key.take (8 * (j + 1 + k))
  · obtain ⟨k, le, rfl⟩ := new
    rcases Nat.lt_or_eq_of_le le with lt | rfl
    · rw [hung.twig k lt] at found
      split at found
      · rw [← Option.some.inj found]
        exact Nat.ne_of_gt (show 0 < layerKeylenx by decide)
      · cases found
    · rw [hung.last] at found
      split at found
      · rw [← Option.some.inj found]
        refine inner_holding ?_ _
        cases k with
        | zero => exact Contents.long_of_rank agree long
        | succ n =>
          obtain ⟨agree', long'⟩ := hung.together n (Nat.lt_succ_self n)
          exact Contents.long_of_rank (i := j + 1 + n) agree' long'
      · split at found
        · obtain ⟨v, -, rfl⟩ := Option.map_eq_some_iff.mp found
          exact inner_holding inside _
        · cases found
  · have other := hung.other at_ fun k le same => new ⟨k, le, same⟩
    by_cases point : at_ = key.take (8 * j) ∧ r = (Key.after key j).rank
    · obtain ⟨rfl, rfl⟩ := point
      rw [hung.point] at found
      rw [← Option.some.inj found]
      exact Nat.ne_of_gt (show 0 < layerKeylenx by decide)
    · rw [other.2 r point] at found
      exact ok.inner at_ below r s found

end Hung

/-- The layers that a twig hangs in, those of its leaves, and the other ones. -/
theorem layers_hang {l : Leaf V} {n : Nat} {m : Node (Leaf V)} (inside : 8 * (j + 1 + n) < key.length) {t' : Table V}
    (layers : t'.layers = Layers.hang (Function.update t.layers (key.take (8 * j)) (some m)) (.after key j)
      (twigOf key (j + 1) n ++ [l])) :
    (∀ k < n, t'.layers (key.take (8 * (j + 1 + k))) = some (.leaf (.ofLayer (.after key (j + 1 + k))))) ∧
      t'.layers (key.take (8 * (j + 1 + n))) = some (.leaf l) ∧
        ∀ at', (∀ k ≤ n, at' ≠ key.take (8 * (j + 1 + k))) →
        t'.layers at' = Function.update t.layers (key.take (8 * j)) (some m) at' := by
  have length : (twigOf key (j + 1) n ++ [l]).length = n + 1 := by
    rw [List.length_append, length_twigOf, List.length_singleton]
  obtain ⟨here, elsewhere⟩ := hang_spec (Function.update t.layers (key.take (8 * j)) (some m))
    (show 8 * (j + (twigOf key (j + 1) n ++ [l]).length) ≤ key.length by
      rw [length]
      omega)
  rw [← layers] at here elsewhere
  rw [length] at elsewhere
  refine ⟨fun k lt => ?_, ?_, fun at' ne => elsewhere at' fun k lt => ne k (Nat.le_of_lt_succ lt)⟩
  · apply here
    rw [List.getElem?_append_left (by rwa [length_twigOf]), twigOf, List.getElem?_map, List.getElem?_range lt]
    rfl
  · apply here
    rw [List.getElem?_append_right (by rw [length_twigOf]), length_twigOf, Nat.sub_self]
    rfl

theorem inside_of_together {old : Bytes} {n : Nat} (together : Together key old (j + 1) n) (long : (Key.after key j).hasSuffix = true) :
    8 * (j + 1 + n) < key.length := by
  cases n with
  | zero => exact Contents.long_of_rank (rfl : (Key.after key j).rank = _) long
  | succ n =>
    have last := (together n (Nat.lt_succ_self n)).2
    exact Contents.long_of_rank (i := j + 1 + n) (rfl : (Key.after key (j + 1 + n)).rank = _) last

/-- `make_new_layer` hangs a twig in the slot of its table that both keys lead to. -/
theorem At.hung (ok : t.Ok) (at_ : t.At key j p root lo hi bound) {i q n : Nat} (search : p.n.lower (.after key j) = (i, some q))
    {old : Bytes} {v₀ : V} (slot : p.n.slot q = .holding (.after old j) (some v₀))
    (agree : (Key.after old j).rank = (Key.after key j).rank)
    (long : (Key.after key j).hasSuffix = true) {c : Tcursor V} (layered : c.Layered p.n q key old v₀ (j + 1) n) (value : Option V)
    {t' : Table V} (layers : t'.layers = Layers.hang (Function.update t.layers (key.take (8 * j))
      (some (plug (.leaf (p.n.lock.setLayer q).unlock) p.path))) (.after key j) (twigOf key (j + 1) n ++ [c.outcome value])) :
    t.Hung t' key old v₀ value j n (p.n.slot q).ksuf := by
  have inside := inside_of_together layered.together long
  obtain ⟨holds, put⟩ := Tcursor.layer_slot at_.holds search slot agree long
  obtain ⟨holdsLast, entriesLast⟩ := layered.last value
  obtain ⟨sound, entries, oldEntries⟩ := at_.leaf holds
  have put' : slotSet (plug (.leaf (p.n.lock.setLayer q).unlock) p.path).entries =
      putSlot ⟨(Key.after key j).ikey, layerKeylenx, (p.n.slot q).ksuf, none⟩ (slotSet root.entries) := by
    rw [entries, oldEntries]
    exact slotSet_put at_.way.around at_.low at_.high (Slot.rank_layer long _ _) put
  have slots := Layers.slots_put at_.layer (ok.sound _ _ at_.layer) sound put'
  rw [Slot.rank_layer long] at slots
  obtain ⟨twig, last, layersAt⟩ := layers_hang inside layers
  have slotsAt : ∀ at', (∀ k ≤ n, at' ≠ key.take (8 * (j + 1 + k))) → ∀ r, t'.layers.slots at' r =
      t.layers.slots.set (key.take (8 * j)) (Key.after key j).rank
        (some ⟨(Key.after key j).ikey, layerKeylenx, (p.n.slot q).ksuf, none⟩) at' r := by
    intro at' ne r
    rw [← slots, Layers.slots, layersAt at' ne]
    rfl
  have notLayer : ∀ s, t.layers.slots (key.take (8 * j)) (Key.after key j).rank = some s → s.keylenx ≠ layerKeylenx := by
    intro s some_
    rw [at_.slot ok, search, Option.map_some, slot] at some_
    rw [← Option.some.inj some_]
    exact keylenx_holding _ _
  constructor
  · exact layered.together
  · exact inside
  · rw [slotsAt, Contents.set_same]
    intro k le same
    have lengths := congrArg List.length same
    rw [List.length_take, List.length_take] at lengths
    omega
  · intro k lt r
    rw [Layers.slots_eq (twig k lt)]
    exact find_ofLayer _ (layered.together k lt).2 r
  · intro r
    rw [Layers.slots_eq last]
    exact find_last holdsLast layered.apart entriesLast r
  · intro k le
    refine ⟨?_, ?_⟩
    · rcases Nat.lt_or_eq_of_le le with lt | rfl
      · rw [twig k lt]
        rfl
      · rw [last]
        rfl
    · have missing := missing_below (n := k) ok (by omega) notLayer
      have next : j + k + 1 = j + 1 + k := by omega
      rwa [next] at missing
  · intro at' ne
    refine ⟨?_, ?_⟩
    · rw [layersAt at' ne]
      by_cases same : at' = key.take (8 * j)
      · subst same
        rw [Function.update_self, at_.layer]
        exact ⟨fun _ => rfl, fun _ => rfl⟩
      · rw [Function.update_of_ne same]
    · intro r off
      rw [slotsAt at' ne, Contents.set_other _ _ off]
  · intro at' ne elsewhere
    rw [layersAt at' ne, Function.update_of_ne elsewhere]
  · exact twig
  · exact ⟨c.outcome value, last, entriesLast⟩

/-- Every layer is a tree of its own after a twig has been hung. -/
theorem sound_hang {l : Leaf V} {old : Bytes} {n : Nat} {m : Node (Leaf V)} (ok : t.Ok) (together : Together key old (j + 1) n)
    (inside : 8 * (j + 1 + n) < key.length) (holds : l.Holds 0 top) (sound : m.Sound) {t' : Table V}
    (layers : t'.layers = Layers.hang (Function.update t.layers (key.take (8 * j)) (some m)) (.after key j)
      (twigOf key (j + 1) n ++ [l])) : ∀ at' root', t'.layers at' = some root' → root'.Sound := by
  obtain ⟨twig, last, layersAt⟩ := layers_hang inside layers
  intro at' root' layer
  by_cases new : ∃ k ≤ n, at' = key.take (8 * (j + 1 + k))
  · obtain ⟨k, le, rfl⟩ := new
    rcases Nat.lt_or_eq_of_le le with lt | rfl
    · rw [twig k lt] at layer
      rw [← Option.some.inj layer]
      exact sound_leaf (Tcursor.holds_ofLayer (together k lt).2)
    · rw [last] at layer
      rw [← Option.some.inj layer]
      exact sound_leaf holds
  · rw [layersAt at' fun k le same => new ⟨k, le, same⟩] at layer
    by_cases same : at' = key.take (8 * j)
    · subst same
      rw [Function.update_self] at layer
      rwa [← Option.some.inj layer]
    · rw [Function.update_of_ne same] at layer
      exact ok.sound at' root' layer

/-- `make_new_layer` in its table. -/
theorem At.layered (ok : t.Ok) (at_ : t.At key j p root lo hi bound) {i q n : Nat} (search : p.n.lower (.after key j) = (i, some q))
    {old : Bytes} {v₀ : V} (slot : p.n.slot q = .holding (.after old j) (some v₀)) (ne : old ≠ key)
    (shared : old.take (8 * j) = key.take (8 * j)) (agree : (Key.after old j).rank = (Key.after key j).rank)
    (long : (Key.after key j).hasSuffix = true) {c : Tcursor V} (layered : c.Layered p.n q key old v₀ (j + 1) n) (value : Option V)
    {t' : Table V} (layers : t'.layers = Layers.hang (Function.update t.layers (key.take (8 * j))
      (some (plug (.leaf (p.n.lock.setLayer q).unlock) p.path))) (.after key j) (twigOf key (j + 1) n ++ [c.outcome value])) :
    t'.Ok ∧ t'.layers.slots.get = Function.update t.layers.slots.get key value ∧
      t.Hung t' key old v₀ value j n (p.n.slot q).ksuf := by
  have slotAt : t.layers.slots (key.take (8 * j)) (Key.after key j).rank = some (.holding (.after old j) (some v₀)) := by
    rw [at_.slot ok, search, Option.map_some, slot]
  have hung := at_.hung ok search slot agree long layered value layers
  have inside := hung.inside
  obtain ⟨sound, -, -⟩ := at_.leaf (Tcursor.layer_slot at_.holds search slot agree long).1
  refine ⟨⟨sound_hang ok layered.together inside (layered.last value).1 sound layers, ?_, hung.linked ok slotAt, ?_,
    hung.inner ok agree long, hung.finite ok⟩, hung.get ok at_.passes layered.apart ne shared agree long slotAt, hung⟩
  · refine (hung.other [] ?_).1.mpr ok.top
    intro k le same
    have lengths := congrArg List.length same
    rw [List.length_nil, List.length_take] at lengths
    omega
  · intro at' there
    by_cases new : ∃ k ≤ n, at' = key.take (8 * (j + 1 + k))
    · obtain ⟨k, le, rfl⟩ := new
      rw [List.length_take, Nat.min_eq_left (by omega)]
      exact Nat.dvd_mul_right 8 _
    · exact ok.aligned at' ((hung.other at' fun k le same => new ⟨k, le, same⟩).1.mp there)

/-! ### Empty layers -/

/-- A layer that is empty afterwards was so before, and has as many leaves. -/
def Fills (t t' : Table V) : Prop := ∀ at_ root', t'.layers at_ = some root' → root'.entries = [] →
  ∃ root, t.layers at_ = some root ∧ root.entries = [] ∧ root'.leaves.length = root.leaves.length

theorem fills_set {at_ : Bytes} (layer : t.layers at_ = some root) {t' : Table V}
    (layers : t'.layers = Function.update t.layers at_ (some root'))
    (here : root'.entries = [] → root.entries = [] ∧ root'.leaves.length = root.leaves.length) : t.Fills t' := by
  intro at' root'' layer' empty
  rw [layers] at layer'
  by_cases same : at' = at_
  · subst same
    rw [Function.update_self] at layer'
    obtain rfl := Option.some.inj layer'
    exact ⟨root, layer, here empty⟩
  · rw [Function.update_of_ne same] at layer'
    exact ⟨root'', layer', empty, rfl⟩

/-- A leaf in the place of one that is empty if it is. -/
theorem At.leaves (at_ : t.At key j p root lo hi bound) (l : Leaf V) :
    (plug (.leaf l) p.path).leaves = before p.path ++ [l] ++ after p.path ∧ root.leaves = before p.path ++ [p.n] ++ after p.path := by
  have leaves := at_.way.leaves (.leaf p.n)
  rw [at_.plugged] at leaves
  exact ⟨at_.way.leaves (.leaf l), leaves⟩

theorem At.fills (at_ : t.At key j p root lo hi bound) (holds : l.Holds lo hi) (empty : l.entries = [] → p.n.entries = [])
    {t' : Table V} (layers : t'.layers = Function.update t.layers (key.take (8 * j)) (some (plug (.leaf l) p.path))) : t.Fills t' := by
  obtain ⟨-, entries, old⟩ := at_.leaf holds
  obtain ⟨leaves, oldLeaves⟩ := at_.leaves l
  refine fills_set at_.layer layers ?_
  intro none_
  rw [entries, List.append_eq_nil_iff, List.append_eq_nil_iff] at none_
  obtain ⟨⟨left, here⟩, right⟩ := none_
  rw [old, leaves, oldLeaves, left, empty here, right]
  refine ⟨rfl, ?_⟩
  rw [List.length_append, List.length_append, List.length_append, List.length_append]
  rfl

theorem empty_of_stored {ka : Key} {value : Option V} (result : slotSet l.entries = stored ka value (slotSet p.n.entries))
    (empty : l.entries = []) : p.n.entries = [] := by
  have none_ : ∀ s, s ∉ stored ka value (slotSet p.n.entries) := by
    intro s mem
    rw [← result, mem_slotSet, empty] at mem
    cases mem
  cases value with
  | none => exact List.eq_nil_iff_forall_not_mem.mpr fun s mem => none_ s mem
  | some v => exact absurd (mem_putSlot.mpr (.inl rfl)) (none_ _)

theorem entries_ne_nil {layers : Layers V} {at_ : Bytes} (layer : layers at_ = some root) {r : Nat} {s : Slot V}
    (slot : layers.slots at_ r = some s) : root.entries ≠ [] := by
  intro empty
  rw [Layers.slots_eq layer, empty] at slot
  cases slot

theorem Hung.fills {t' : Table V} {old : Bytes} {v₀ : V} {value : Option V} {n : Nat} {ksuf : Bytes}
    (hung : t.Hung t' key old v₀ value j n ksuf) : t.Fills t' := by
  intro at_ root' layer empty
  by_cases new : ∃ k ≤ n, at_ = key.take (8 * (j + 1 + k))
  · obtain ⟨k, le, rfl⟩ := new
    exfalso
    rcases Nat.lt_or_eq_of_le le with lt | rfl
    · exact entries_ne_nil layer ((hung.twig k lt _).trans (if_pos rfl)) empty
    · exact entries_ne_nil layer ((hung.last _).trans (if_pos rfl)) empty
  · have notNew : ∀ k ≤ n, at_ ≠ key.take (8 * (j + 1 + k)) := fun k le same => new ⟨k, le, same⟩
    by_cases point : at_ = key.take (8 * j)
    · subst point
      exact absurd empty (entries_ne_nil layer hung.point)
    · rw [hung.rest at_ notNew point] at layer
      exact ⟨root', layer, empty, rfl⟩

/-! ### Operations -/

theorem prefixString_at (at_ : t.At key j p root lo hi bound) : p.ka.prefixString = key.take (8 * j) := by
  rw [at_.ka, Key.prefixString_after]

/-- The slot with the rank of the key is that of another one. -/
theorem insert_layered (ok : t.Ok) (found : t.locate key = some p) (at_ : t.At key j p root lo hi bound) {i q : Nat}
    (search : p.n.lower (.after key j) = (i, some q)) (matches_ : (p.n.slot q).ksufMatches (.after key j) = .no) :
    ∃ old v₀ c n, (p.n.slot q = .holding (.after old j) (some v₀) ∧ old ≠ key ∧ old.take (8 * j) = key.take (8 * j) ∧
        (Key.after old j).rank = (Key.after key j).rank ∧ (Key.after key j).hasSuffix = true) ∧
      (Tcursor.findInsert p.n p.prev p.next (.after key j) = some c ∧ c.Layered p.n q key old v₀ (j + 1) n) ∧
      ∀ value : Option V, ∃ t' ksuf, t.insert key value = some t' ∧ t'.Ok ∧
        t'.layers.slots.get = Function.update t.layers.slots.get key value ∧ t.Hung t' key old v₀ value j n ksuf := by
  have prefix_ := prefixString_at at_
  obtain ⟨old, v₀, same, ne, shared, agree, long, rest⟩ := Tcursor.collides at_.holds search matches_
  obtain ⟨c, n, made, layered⟩ := Tcursor.layered at_.holds search p.prev p.next matches_ same ne shared agree long rest
  refine ⟨old, v₀, c, n, ⟨same, ne, shared, agree, long⟩, ⟨made, layered⟩, fun value => ?_⟩
  obtain ⟨last, nodes⟩ := layered.nodes
  have finished := Tcursor.nodes_outcome (show c.n < c.nodes.length by
    rw [nodes, layered.at_, List.length_cons, List.length_append, length_twigOf]
    exact Nat.lt_succ_self _) layered.state p.prev value
  rw [nodes, layered.at_, List.set_cons_succ, List.set_append_right _ _ (by rw [length_twigOf]), length_twigOf, Nat.sub_self,
    List.set_cons_zero] at finished
  obtain ⟨right, twig, cons⟩ := List.exists_cons_of_ne_nil
    (List.append_ne_nil_of_right_ne_nil (twigOf key (j + 1) n) (List.cons_ne_nil (c.outcome value) []))
  rw [insert, found, Option.bind_some, at_.ka, made, Option.map_some, finished, cons, put, at_.ka, search,
    if_pos (show (some q).isSome = true from rfl)]
  refine ⟨_, (p.n.slot q).ksuf, rfl, at_.layered ok search same ne shared agree long layered value ?_⟩
  rw [← prefix_, cons]
  rfl

theorem insert_spec (ok : t.Ok) (key : Bytes) (value : Option V) : ∃ t', t.insert key value = some t' ∧ t'.Ok ∧
    t'.layers.slots.get = (value.elim t.layers.slots.get fun v => Function.update t.layers.slots.get key (some v)) ∧ t.Fills t' := by
  obtain ⟨j, p, root, lo, hi, bound, found, at_⟩ := locate_spec ok key
  have prefix_ := prefixString_at at_
  rw [insert, found, Option.bind_some, at_.ka]
  cases search : (p.n.lower (.after key j)).2 with
  | none =>
    have mine := at_.mine ok (fun q some_ => by rw [search] at some_; cases some_)
    obtain ⟨c, made, inserted⟩ := Tcursor.inserted_none at_.holds at_.low at_.high search
      (show p.prev = true ↔ _ from at_.way.hasPrev_iff) p.next
    rw [made, Option.map_some]
    rcases inserted value with ⟨m, nodes, holds, entries⟩ | ⟨m, m', nodes, above, below, holds, holds', entries, some_⟩
    · obtain ⟨sound, parts, -⟩ := at_.leaf holds
      have layers : ((t.arrive p).put p c.splitType [m]).layers =
          Function.update t.layers (key.take (8 * j)) (some (plug (.leaf m) p.path)) := by
        rw [← prefix_]
        rfl
      obtain ⟨ok', contents⟩ := at_.store ok mine value sound parts entries layers
      rw [nodes]
      exact ⟨_, rfl, ok', contents, at_.fills holds (empty_of_stored entries) layers⟩
    · obtain ⟨sound, parts⟩ := at_.split c.splitType above below holds holds'
      rw [nodes, put, at_.ka, search, if_neg (by decide)]
      have layers : ((t.arrive p).setSplit p c.splitType m m').layers = Function.update t.layers (key.take (8 * j))
          (some (insertSplit c.splitType 0 (.leaf m) m'.ikeyBound (.leaf m') p.path)) := by
        rw [← prefix_]
        rfl
      obtain ⟨ok', contents⟩ := at_.store ok mine value sound parts entries layers
      refine ⟨_, rfl, ok', contents, fills_set at_.layer layers ?_⟩
      intro empty
      rw [parts, List.append_eq_nil_iff, List.append_eq_nil_iff] at empty
      obtain ⟨s, mem⟩ := some_
      rw [← entries, mem_slotSet, empty.1.2] at mem
      cases mem
  | some q =>
    have pair : p.n.lower (.after key j) = ((p.n.lower (.after key j)).1, some q) := by rw [← search]
    have slot := at_.slot ok
    rw [search, Option.map_some] at slot
    cases matches_ : (p.n.slot q).ksufMatches (.after key j) with
    | yes =>
      have mine := at_.mine ok (fun q' some_ => by
        obtain rfl := Option.some.inj (search.symm.trans some_)
        exact matches_)
      obtain ⟨c, made, inserted⟩ := Tcursor.inserted_yes at_.holds pair matches_ p.prev p.next
      obtain ⟨m, nodes, holds, entries⟩ := inserted value
      obtain ⟨sound, parts, -⟩ := at_.leaf holds
      have layers : ((t.arrive p).put p c.splitType [m]).layers =
          Function.update t.layers (key.take (8 * j)) (some (plug (.leaf m) p.path)) := by
        rw [← prefix_]
        rfl
      obtain ⟨ok', contents⟩ := at_.store ok mine value sound parts entries layers
      rw [made, Option.map_some, nodes]
      exact ⟨_, rfl, ok', contents, at_.fills holds (empty_of_stored entries) layers⟩
    | no =>
      obtain ⟨old, v₀, c, n, -, -, layered⟩ := insert_layered ok found at_ pair matches_
      obtain ⟨t', ksuf, inserted, ok', contents, hung⟩ := layered value
      have none_ : t.layers.slots.get key = none := by
        rw [Contents.get_of_passes at_.passes at_.le, Contents.look_some slot, matches_]
      refine ⟨t', ?_, ok', ?_, hung.fills⟩
      · rw [insert, found, Option.bind_some, at_.ka] at inserted
        exact inserted
      · rw [contents]
        cases value with
        | none => exact Function.update_eq_self_iff.mpr none_.symm
        | some v => rfl
    | layer =>
      have ends := at_.ends
      rw [Leaf.leadsOn, search, Option.any_some, matches_] at ends
      cases ends

/-- The key's slot goes, or nothing does. -/
theorem remove_cases (ok : t.Ok) (key : Bytes) : ∃ j p root lo hi bound t', t.At key j p root lo hi bound ∧ t.remove key = some t' ∧
    ((t.get key).isSome ∧ t.layers.slots.Mine key j ∧ (∃ l, t.Drops (t.arrive p) t' key j p l (Key.after key j).rank) ∨
      t.get key = none ∧ ∃ m : Leaf V, m.Holds lo hi ∧ m.entries = p.n.entries ∧ t' = (t.arrive p).setLeaf p m) := by
  obtain ⟨j, p, root, lo, hi, bound, found, at_⟩ := locate_spec ok key
  have slot := at_.slot ok
  by_cases match_ : ∃ q, (p.n.lower (.after key j)).2 = some q ∧ (p.n.slot q).ksufMatches (.after key j) = .yes
  · obtain ⟨q, search, matches_⟩ := match_
    have pair : p.n.lower (.after key j) = ((p.n.lower (.after key j)).1, some q) := by rw [← search]
    have mine := at_.mine ok (fun q' some_ => by
      obtain rfl := Option.some.inj (search.symm.trans some_)
      exact matches_)
    rw [search, Option.map_some] at slot
    obtain ⟨rank, valid⟩ := ok.lawful _ _ _ slot
    obtain ⟨v, holding⟩ := valid.of_yes rank matches_
    obtain ⟨-, -, -, there⟩ := Tcursor.search_some at_.holds pair
    obtain ⟨c, m, located, one, leaf, entries, bound_, which⟩ := Tcursor.removed_yes at_.holds pair matches_ p.prev
    obtain ⟨t', root', settled, result⟩ := settle_spec at_ (t.arrive p) bound_ which
    refine ⟨j, p, root, lo, hi, bound, t', at_, ?_, .inl ⟨?_, mine, m, found, ⟨_, List.mem_of_getElem? there, rank⟩, entries, settled,
      root', result⟩⟩
    · rw [remove, found, Option.bind_some, at_.ka, located, Option.bind_some, if_pos one, leaf, settled]
    · rw [get_eq ok, Contents.get_of_passes at_.passes at_.le, Contents.look_some slot, matches_, holding]
      rfl
  · have missing : ∀ q, (p.n.lower (.after key j)).2 = some q → (p.n.slot q).ksufMatches (.after key j) = .no := by
      intro q search
      cases matches_ : (p.n.slot q).ksufMatches (.after key j) with
      | yes => exact absurd ⟨q, search, matches_⟩ match_
      | no => rfl
      | layer =>
        have ends := at_.ends
        rw [Leaf.leadsOn, search, Option.any_some, matches_] at ends
        cases ends
    obtain ⟨c, m, located, other, leaf, holds, entries⟩ := Tcursor.removed_no at_.holds missing p.prev
    refine ⟨j, p, root, lo, hi, bound, _, at_, ?_, .inr ⟨?_, m, holds, entries, rfl⟩⟩
    · rw [remove, found, Option.bind_some, at_.ka, located, Option.bind_some, if_neg other, leaf]
    · rw [get_eq ok, Contents.get_of_passes at_.passes at_.le]
      cases search : (p.n.lower (.after key j)).2 with
      | none => exact Contents.look_none (by rw [slot, search]; rfl) _
      | some q => rw [Contents.look_some (by rw [slot, search]; rfl), missing q search]

theorem remove_spec (ok : t.Ok) (key : Bytes) : ∃ t', t.remove key = some t' ∧ t'.Ok ∧
    t'.layers.slots.get = Function.update t.layers.slots.get key none := by
  obtain ⟨j, p, root, lo, hi, bound, t', at_, removed, ⟨-, mine, l, drops⟩ | ⟨none_, m, holds, entries, rfl⟩⟩ := remove_cases ok key
  · obtain ⟨root', layers, sound, parts⟩ := drops.result
    exact ⟨t', removed, at_.drop ok mine sound parts drops.dropped layers⟩
  · obtain ⟨sound, parts, old⟩ := at_.leaf holds
    have same : slotSet (plug (.leaf m) p.path).entries = slotSet root.entries := by rw [parts, old, entries]
    have slots := Layers.slots_same at_.layer (ok.sound _ _ at_.layer) sound same
    have layers : ((t.arrive p).setLeaf p m).layers = Function.update t.layers (key.take (8 * j)) (some (plug (.leaf m) p.path)) := by
      rw [← prefixString_at at_]
      rfl
    refine ⟨_, removed, ok.setLayer at_.layer sound (fun at' r => by rw [slots]) (slots ▸ ok.inner) layers, ?_⟩
    rw [layers, slots]
    rw [get_eq ok] at none_
    exact (Function.update_eq_self_iff.mpr none_.symm).symm

end Table

end Masstree.Tree
