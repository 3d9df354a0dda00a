import Masstree.Tree.Stored

/-!
# New layers

`make_new_layer` for two keys that agree in a slice: they share a layer for each further slice that both go on after.
-/

namespace Masstree.Tree
open Msgpack (Bytes)

variable {V : Type}

/-! ### Keys without their beginnings -/

section Congr
variable {a b : Key}

theorem Key.rank_congr (same : a.s = b.s) : a.rank = b.rank := by
  unfold Key.rank Key.ikey Key.length
  rw [same]

theorem Slot.ofKey_congr (same : a.s = b.s) : (Slot.ofKey a : Slot V) = .ofKey b := by
  unfold Slot.ofKey Key.hasSuffix Key.ikey Key.suffix Key.length
  rw [same]

theorem Slot.holding_congr (same : a.s = b.s) (v : Option V) : Slot.holding a v = .holding b v := by
  rw [Slot.holding, Slot.holding, Slot.ofKey_congr same]

theorem Leaf.ofLayer_congr (same : a.rank = b.rank) : (Leaf.ofLayer a : Leaf V) = .ofLayer b := by
  have ikeys : a.ikey = b.ikey := (rank_inj.mp same).1
  unfold Leaf.ofLayer Slot.ofLayer
  rw [ikeys]

theorem compare_eq_iff : a.compare b.ikey b.length = .eq ↔ a.rank = b.rank := by
  rw [Key.compare_eq]
  exact Nat.compare_eq_eq

theorem compare_lt_iff : a.compare b.ikey b.length = .lt ↔ a.rank < b.rank := by
  rw [Key.compare_eq]
  exact Nat.compare_eq_lt

end Congr

/-! ### The layers between -/

/-- Both keys have the next `n` slices in common, and go on after each. -/
def Together (key old : Bytes) (i n : Nat) : Prop :=
  ∀ k < n, (Key.after old (i + k)).rank = (Key.after key (i + k)).rank ∧ (Key.after key (i + k)).hasSuffix = true

theorem Together.take {key old : Bytes} {i n : Nat} (together : Together key old i n)
    (shared : old.take (8 * i) = key.take (8 * i)) : ∀ k ≤ n, old.take (8 * (i + k)) = key.take (8 * (i + k)) := by
  intro k le
  induction k with
  | zero => exact shared
  | succ k ih => exact Contents.take_succ (ih (Nat.le_of_succ_le le)) (together k le).1

/-- A leaf with a layer for each of the slices in common. -/
def twigOf (key : Bytes) (i n : Nat) : List (Leaf V) := (List.range n).map fun k => .ofLayer (.after key (i + k))

theorem twigOf_succ (key : Bytes) (i n : Nat) :
    (twigOf key i (n + 1) : List (Leaf V)) = .ofLayer (.after key i) :: twigOf key (i + 1) n := by
  unfold twigOf
  rw [List.range_succ_eq_map, List.map_cons, List.map_map]
  refine congrArg _ (List.map_congr_left ?_)
  intro k _
  rw [Function.comp_apply, Nat.succ_eq_add_one, Nat.add_right_comm, Nat.add_assoc]

theorem length_twigOf (key : Bytes) (i n : Nat) : (twigOf key i n : List (Leaf V)).length = n := by
  rw [twigOf, List.length_map, List.length_range]

/-- The loop ends at the first slices that differ, or that one of the keys ends with. -/
theorem makeTwig_spec {key old : Bytes} (ne : old ≠ key) {i fuel : Nat} {oka : Key} (shared : old.take (8 * i) = key.take (8 * i))
    (rest : oka.s = (Key.after old i).s) (inside : 8 * i ≤ key.length) (enough : key.length < 8 * (i + fuel)) :
    ∃ n oka', makeTwig fuel oka (.after key i) = some ((twigOf key i n : List (Leaf V)), oka', .after key (i + n)) ∧
      oka'.s = (Key.after old (i + n)).s ∧ Together key old i n ∧
        (Key.after old (i + n)).rank ≠ (Key.after key (i + n)).rank := by
  induction fuel generalizing i oka with
  | zero => omega
  | succ fuel ih =>
    have rank := Key.rank_congr rest
    rw [makeTwig]
    by_cases same : (Key.after old i).rank = (Key.after key i).rank
    · have long : (Key.after key i).hasSuffix = true := by
        by_contra short
        rw [Key.hasSuffix_iff] at short
        exact ne (Key.eq_of_rank_after shared same (Nat.le_of_not_lt short))
      have more := Contents.long_of_rank (rfl : (Key.after key i).rank = _) long
      have rest' : oka.shift.s = (Key.after old (i + 1)).s := by
        rw [← Key.shift_after]
        exact congrArg (List.drop 8) rest
      obtain ⟨n, oka', made, last, together, apart⟩ :=
        ih (Contents.take_succ shared same) rest' (Nat.le_of_lt more) (by omega)
      have index : ∀ k, i + 1 + k = i + (k + 1) := fun k => by omega
      rw [index] at made last apart
      refine ⟨n + 1, oka', ?_, last, ?_, apart⟩
      · rw [if_pos (compare_eq_iff.mpr (rank.trans same)), Key.shift_after, made, Option.map_some, twigOf_succ,
          Leaf.ofLayer_congr (rank.trans same)]
      · intro k lt
        cases k with
        | zero => exact ⟨same, long⟩
        | succ k =>
          have here := together k (Nat.lt_of_succ_lt_succ lt)
          rwa [index] at here
    · refine ⟨0, oka, ?_, rest, ?_, same⟩
      · rw [if_neg (fun eq => same (rank.symm.trans (compare_eq_iff.mp eq)))]
        rfl
      · intro k lt
        cases lt

/-! ### The last layer -/

/-- The leaf with the old key has a slot for the new one, in its place. -/
theorem ofTwo_entries (old ka : Key) (v₀ : V) :
    (Leaf.ofTwo old ka (some v₀)).entries = [.holding old (some v₀)] ∧
      (Leaf.ofTwo old ka (some v₀)).perm.back = (if old.compare ka.ikey ka.length = .lt then 1 else 0) ∧
      (Leaf.ofTwo old ka (some v₀)).slot (Leaf.ofTwo old ka (some v₀)).perm.back = .ofKey ka := by
  unfold Leaf.ofTwo
  by_cases less : old.compare ka.ikey ka.length = .lt
  · rw [if_pos less, if_pos less]
    exact ⟨rfl, rfl, rfl⟩
  · rw [if_neg less, if_neg less]
    exact ⟨rfl, rfl, rfl⟩

theorem alive_ofTwo (old ka : Key) (v : Option V) : (Leaf.ofTwo old ka v).Alive := by
  have version : (Leaf.ofTwo old ka v).version = (Leaf.makeRoot : Leaf V).version ∧ (Leaf.ofTwo old ka v).modstate = .insert := by
    unfold Leaf.ofTwo
    dsimp only
    split <;> exact ⟨rfl, rfl⟩
  exact ⟨version.1 ▸ Leaf.alive_makeRoot.clear, version.1 ▸ Leaf.alive_makeRoot.kept, version.2 ▸ nofun⟩

namespace Tcursor

/-- The cursor after `make_new_layer`: a layer for each slice that the keys have in common, and then a leaf with the old key
and its value, where the new key's slot is the next free one. -/
structure Layered (c : Tcursor V) (l : Leaf V) (p : Nat) (key old : Bytes) (v₀ : V) (i n : Nat) : Prop where
  nodes : ∃ last, c.nodes = (l.lock.setLayer p).unlock :: (twigOf key i n ++ [last])
  at_ : c.n = n + 1
  ka : c.ka = .after key (i + n)
  state : c.state = 2
  together : Together key old i n
  apart : (Key.after old (i + n)).rank ≠ (Key.after key (i + n)).rank
  ready : c.Ready (.after key (i + n))
  entries : c.node.entries = [.holding (.after old (i + n)) (some v₀)]
  place : c.kxi = if (Key.after old (i + n)).rank < (Key.after key (i + n)).rank then 1 else 0
  alive : c.node.Alive

variable {l : Leaf V} {key : Bytes} {i j p : Nat} {lo hi : Nat}

/-- The key in the slot agrees with the new one so far, and in this slice. -/
theorem collides (holds : l.Holds lo hi) (search : l.lower (.after key j) = (i, some p))
    (other : (l.slot p).ksufMatches (.after key j) = .no) : ∃ old v₀, l.slot p = .holding (.after old j) (some v₀) ∧ old ≠ key ∧
      old.take (8 * j) = key.take (8 * j) ∧ (Key.after old j).rank = (Key.after key j).rank ∧
        (Key.after key j).hasSuffix = true ∧ (l.slot p).ksuf = (Key.after old (j + 1)).s := by
  obtain ⟨lt, -, rank, at_⟩ := search_some holds search
  obtain ⟨ka', v₀, slot, same, long', long, differ⟩ := (holds.valid _ (List.mem_of_getElem? at_)).of_no rank other
  have more := Contents.long_of_rank (rfl : (Key.after key j).rank = _) long
  have length : (key.take (8 * j)).length = 8 * j := by
    rw [List.length_take]
    omega
  have take : (key.take (8 * j) ++ ka'.s).take (8 * j) = key.take (8 * j) := List.take_left' length
  have drop : (key.take (8 * j) ++ ka'.s).drop (8 * j) = ka'.s := List.drop_left' length
  refine ⟨key.take (8 * j) ++ ka'.s, v₀, ?_, ?_, take, ?_, long, ?_⟩
  · rw [slot]
    exact Slot.holding_congr drop.symm _
  · intro eq
    have suffixes : ka'.suffix = (Key.after key j).suffix := by
      unfold Key.suffix
      rw [← drop, eq]
      rfl
    exact differ suffixes
  · rw [← same]
    exact Key.rank_congr drop
  · rw [slot, Slot.holding_long long', ← Key.shift_after]
    exact congrArg (List.drop 8) drop.symm

/-- `make_new_layer` ends, for all keys that collide. -/
theorem layered (holds : l.Holds lo hi) (search : l.lower (.after key j) = (i, some p)) (prev next : Bool) {old : Bytes} {v₀ : V}
    (other : (l.slot p).ksufMatches (.after key j) = .no) (slot : l.slot p = .holding (.after old j) (some v₀)) (ne : old ≠ key)
    (shared : old.take (8 * j) = key.take (8 * j)) (agree : (Key.after old j).rank = (Key.after key j).rank)
    (long : (Key.after key j).hasSuffix = true) (rest : (l.slot p).ksuf = (Key.after old (j + 1)).s) :
    ∃ c n, findInsert l prev next (.after key j) = some c ∧ c.Layered l p key old v₀ (j + 1) n := by
  obtain ⟨alive, live⟩ := holds.alive.found
  have found : findInsert l prev next (.after key j) = _ := findInsert_no alive live (by rw [search]) other
  have more := Contents.long_of_rank (rfl : (Key.after key j).rank = _) long
  have enough : key.length < 8 * (j + 1 + ((Key.after key j).length + 1)) := by
    rw [Key.length_after]
    omega
  obtain ⟨n, oka, made, rest', together, apart⟩ := makeTwig_spec (V := V) ne (Contents.take_succ shared agree)
    (show (Key.mk [] (l.slot p).ksuf).s = _ from rest) (Nat.le_of_lt more) enough
  have value : (l.slot p).lv = some v₀ := by
    rw [slot]
    rfl
  obtain ⟨entries, back, free⟩ := ofTwo_entries oka (.after key (j + 1 + n)) v₀
  obtain ⟨wf, size⟩ := Leaf.ofTwo_spec oka (.after key (j + 1 + n)) (some v₀)
  obtain ⟨c, layer, nodes, at_, ka, state, kxi, kxp⟩ : ∃ c, makeNewLayer (absent l (.after key j)) p = some c ∧
      c.nodes = (l.lock.setLayer p).unlock :: (twigOf key (j + 1) n ++ [(Leaf.ofTwo oka (.after key (j + 1 + n)) (some v₀)).lock]) ∧
      c.n = n + 1 ∧ c.ka = .after key (j + 1 + n) ∧ c.state = 2 ∧
      c.kxi = (if oka.compare (Key.after key (j + 1 + n)).ikey (Key.after key (j + 1 + n)).length = .lt then 1 else 0) ∧
      c.kxp = some (if oka.compare (Key.after key (j + 1 + n)).ikey (Key.after key (j + 1 + n)).length = .lt then 1 else 0) := by
    unfold makeNewLayer
    change ∃ c, (makeTwig _ ⟨[], (l.slot p).ksuf⟩ (Key.after key j).shift).map _ = some c ∧ _
    rw [Key.shift_after]
    change ∃ c, (makeTwig ((Key.after key j).length + 1) ⟨[], (l.slot p).ksuf⟩ (.after key (j + 1))).map _ = some c ∧ _
    rw [made, Option.map_some]
    dsimp only
    rw [length_twigOf]
    refine ⟨_, rfl, ?_, rfl, rfl, rfl, rfl, rfl⟩
    change _ :: (_ ++ [(Leaf.ofTwo oka _ (l.slot p).lv).lock]) = _
    rw [value]
    rfl
  have node : c.node = (Leaf.ofTwo oka (.after key (j + 1 + n)) (some v₀)).lock := by
    rw [Tcursor.node, nodes, at_, List.getD_eq_getElem?_getD, List.getElem?_cons_succ,
      List.getElem?_append_right (by rw [length_twigOf]), length_twigOf, Nat.sub_self]
    rfl
  have alive' := alive_ofTwo oka (.after key (j + 1 + n)) (some v₀)
  generalize Leaf.ofTwo oka (.after key (j + 1 + n)) (some v₀) = last at entries back free wf size nodes node alive'
  refine ⟨c, n, found.trans layer, ⟨⟨_, nodes⟩, at_, ka, state, together, apart, ?_, ?_, ?_, ?_⟩⟩
  · constructor
    · rw [node]
      exact wf.perm
    · rw [node]
      exact wf.slots
    · rw [node]
      show last.size < 15
      rw [size]
      decide
    · rw [node, kxp]
      exact congrArg some back.symm
    · rw [node]
      exact free
  · rw [node, Leaf.entries_lock, entries, Slot.holding_congr rest']
  · rw [kxi, ← Key.rank_congr rest']
    simp only [compare_lt_iff]
  · rw [node]
    exact alive'.lock

/-- The slot of the layer comes in the place of that of the old key. -/
theorem layer_slot (holds : l.Holds lo hi) (search : l.lower (.after key j) = (i, some p)) {old : Bytes} {v₀ : V}
    (slot : l.slot p = .holding (.after old j) (some v₀)) (agree : (Key.after old j).rank = (Key.after key j).rank)
    (long : (Key.after key j).hasSuffix = true) : (l.lock.setLayer p).unlock.Holds lo hi ∧
      slotSet (l.lock.setLayer p).unlock.entries =
        putSlot ⟨(Key.after key j).ikey, layerKeylenx, (l.slot p).ksuf, none⟩ (slotSet l.entries) := by
  have ikeys : (l.slot p).ikey0 = (Key.after key j).ikey := by
    rw [slot]
    exact (ikey_ofKey (V := V) _).trans (rank_inj.mp agree).1
  refine modified holds search (f := ({ · with keylenx := layerKeylenx, lv := none })) ?_ (Slot.rank_layer long _ _) (fun _ => rfl)
    (.layer _ _ long) (l.lock.setLayer p) rfl rfl (holds.alive.lock.markInsert.congr rfl rfl)
  rw [← ikeys]

theorem ikey_lt (ka : Key) : ka.ikey < top := makeComparable_lt ka.s

/-- The leaf that the new key is to be in. -/
theorem Layered.last {c : Tcursor V} {old : Bytes} {v₀ : V} {n : Nat} (layered : c.Layered l p key old v₀ i n) (value : Option V) :
    (c.outcome value).Holds 0 top ∧
      slotSet (c.outcome value).entries = stored (.after key (i + n)) value {.holding (.after old (i + n)) (some v₀)} := by
  have apart := layered.apart
  have entries := layered.entries
  have place := layered.place
  have alive := layered.alive
  have ready := layered.ready
  have sizes : c.node.size = 1 := by rw [← Leaf.length_entries, entries]; rfl
  generalize Key.after old (i + n) = oka at apart entries place
  generalize Key.after key (i + n) = ka at apart place ready
  have rank : (Slot.holding oka (some v₀)).rank = oka.rank := Slot.rank_holding _ _
  have rank' : (Slot.ofKey ka : Slot V).rank = ka.rank := rank_ofKey ka
  have le : c.kxi ≤ c.node.size := by
    rw [place, sizes]
    split <;> decide
  obtain ⟨X, whole, increasing, pair⟩ : ∃ X : List (Slot V), c.node.entries.insertIdx c.kxi (.ofKey ka) = X ∧ Increasing X ∧
      ∀ s, s ∈ X ↔ s = .ofKey ka ∨ s = .holding oka (some v₀) := by
    rw [entries, place]
    by_cases less : oka.rank < ka.rank
    · rw [if_pos less]
      refine ⟨[.holding oka (some v₀), .ofKey ka], rfl, ?_, fun s => by simp [or_comm]⟩
      refine List.pairwise_pair.mpr ?_
      rwa [rank, rank']
    · rw [if_neg less]
      refine ⟨[.ofKey ka, .holding oka (some v₀)], rfl, ?_, fun s => by simp⟩
      refine List.pairwise_pair.mpr ?_
      rw [rank, rank']
      exact Nat.lt_of_le_of_ne (Nat.le_of_not_lt less) (Ne.symm apart)
  obtain ⟨sorted, set_⟩ := ready.result le value whole increasing
  have dropped : dropRank ka.rank (slotSet X) = {.holding oka (some v₀)} := by
    ext s
    rw [mem_dropRank, mem_slotSet, pair, Set.mem_singleton_iff]
    constructor
    · rintro ⟨rfl | rfl, other⟩
      · exact absurd rank' other
      · rfl
    · rintro rfl
      exact ⟨.inr rfl, by rw [rank]; exact apart⟩
  rw [dropped] at set_
  have each : ∀ s ∈ (c.outcome value).entries, s.Valid ∧ s.ikey0 < top := by
    intro s mem
    rcases mem_stored (set_ ▸ mem_slotSet.mpr mem) with rfl | ⟨v, rfl⟩
    · exact ⟨.key _ _, (ikey_ofKey (V := V) oka).symm ▸ ikey_lt oka⟩
    · exact ⟨.key _ _, (ikey_ofKey (V := V) ka).symm ▸ ikey_lt ka⟩
  exact ⟨⟨ready.wf le value, sorted, fun s mem => (each s mem).1, fun s mem => ⟨Nat.zero_le _, (each s mem).2⟩,
    fun pos => absurd pos (Nat.lt_irrefl 0), alive_outcome alive value⟩, set_⟩

theorem holds_ofLayer {ka : Key} (long : ka.hasSuffix = true) : (Leaf.ofLayer ka : Leaf V).Holds 0 top := by
  have entries : (Leaf.ofLayer ka : Leaf V).entries = [Slot.ofLayer ka] := rfl
  refine ⟨Leaf.wf_ofLayer ka, ?_, ?_, ?_, fun pos => absurd pos (Nat.lt_irrefl 0), Leaf.alive_makeRoot.congr rfl rfl⟩
  · rw [entries]
    exact List.pairwise_singleton _ _
  · intro s mem
    rw [entries, List.mem_singleton] at mem
    subst mem
    exact .layer ka [] long
  · intro s mem
    rw [entries, List.mem_singleton] at mem
    subst mem
    exact ⟨Nat.zero_le _, ikey_lt ka⟩

end Tcursor

end Masstree.Tree
