import Masstree.Tree.Runs

/-!
# Two keys in one slot

`make_new_layer` makes a layer with one entry for each further slice that both keys have and go on after, and then a leaf for both.
-/

namespace Masstree.Tree
open Msgpack (Bytes)

variable {V : Type}

/-! ### Common bytes -/

def common : Bytes → Bytes → Nat
  | x :: a, y :: b => if x = y then common a b + 1 else 0
  | _, _ => 0

theorem common_append (s a b : Bytes) : common (s ++ a) (s ++ b) = s.length + common a b := by
  induction s with
  | nil => exact (Nat.zero_add _).symm
  | cons x s ih =>
    rw [List.cons_append, List.cons_append, common, if_pos rfl, ih, List.length_cons]
    omega

theorem take_of_common {a b : Bytes} {n : Nat} (le : n ≤ common a b) : a.take n = b.take n := by
  fun_induction common a b generalizing n with
  | case1 x a b ih =>
    cases n with
    | zero => rfl
    | succ n => rw [List.take_succ_cons, List.take_succ_cons, ih (Nat.le_of_succ_le_succ le)]
  | case2 x a y b other =>
    obtain rfl := Nat.le_zero.mp le
    rfl
  | case3 a b other =>
    obtain rfl := Nat.le_zero.mp le
    rfl

/-- How many whole slices are the same at the beginning, with something left of both after each. -/
def slicesShared (a b : Bytes) : Nat := min (common a b) (min a.length b.length - 1) / 8

theorem slicesShared_le (a b : Bytes) : slicesShared a b ≤ (a.length - 1) / 8 := by
  unfold slicesShared
  omega

theorem slices_of_together {key old : Bytes} {i n : Nat} (together : Together key old i n)
    (apart : (Key.after old (i + n)).rank ≠ (Key.after key (i + n)).rank) :
    slicesShared (old.drop (8 * i)) (key.drop (8 * i)) = n := by
  induction n generalizing i with
  | zero =>
    by_contra some_
    unfold slicesShared at some_
    refine apart (Key.rank_eq_iff.mpr ⟨?_, ?_⟩)
    · exact take_of_common (show 8 ≤ common (old.drop (8 * i)) (key.drop (8 * i)) by omega)
    · show min (old.drop (8 * i)).length 9 = min (key.drop (8 * i)).length 9
      omega
  | succ n ih =>
    obtain ⟨rank, long⟩ := together 0 (Nat.succ_pos n)
    rw [Nat.add_zero] at rank long
    have slice := (Key.rank_eq_iff.mp rank).1
    change (old.drop (8 * i)).take 8 = (key.drop (8 * i)).take 8 at slice
    have more := Contents.long_of_rank (rfl : (Key.after key i).rank = _) long
    have more' := Contents.long_of_rank rank long
    have rest := ih (i := i + 1) (fun k lt => by
      have next := together (k + 1) (Nat.succ_lt_succ lt)
      rwa [show i + (k + 1) = i + 1 + k by omega] at next) (by rwa [show i + 1 + n = i + (n + 1) by omega])
    have parts : ∀ k : Bytes, k.drop (8 * i) = (k.drop (8 * i)).take 8 ++ k.drop (8 * (i + 1)) := by
      intro k
      rw [show 8 * (i + 1) = 8 * i + 8 from rfl, ← List.drop_drop, List.take_append_drop]
    have length : ((key.drop (8 * i)).take 8).length = 8 := by
      rw [List.length_take, List.length_drop]
      omega
    rw [parts old, parts key, slice, slicesShared, common_append, List.length_append, List.length_append, length]
    rw [slicesShared] at rest
    have left : (old.drop (8 * (i + 1))).length = old.length - 8 * (i + 1) := List.length_drop
    have left' : (key.drop (8 * (i + 1))).length = key.length - 8 * (i + 1) := List.length_drop
    omega

namespace Table

variable {t : Table V} {key : Bytes} {p : Place V} {q : Nat}

/-- A key that agrees with another one, up to the slot that the search for it ends with, is found there. -/
theorem At.get_other (ok : t.Ok) {j lo hi bound : Nat} {root : Node (Leaf V)} (place : t.At key j p root lo hi bound)
    (search : (p.n.lower (.after key j)).2 = some q) {old : Bytes} {v₀ : V} (slot : p.n.slot q = .holding (.after old j) (some v₀))
    (shared : old.take (8 * j) = key.take (8 * j)) (agree : (Key.after old j).rank = (Key.after key j).rank)
    (inside : 8 * j < old.length) (inside' : 8 * j < key.length) : t.get old = some v₀ := by
  have before : ∀ i < j, old.take (8 * i) = key.take (8 * i) ∧ (Key.after old i).rank = (Key.after key i).rank := by
    intro i lt
    refine Key.rank_after (by omega) (by omega) ?_
    have take := congrArg (List.take (8 * (i + 1))) shared
    rwa [List.take_take, List.take_take, Nat.min_eq_left (by omega)] at take
  have passes : t.layers.slots.Passes old j := by
    intro i lt
    obtain ⟨s, found, layer⟩ := place.passes i lt
    obtain ⟨same, rank⟩ := before i lt
    exact ⟨s, by rw [same, rank, found], Slot.ksufMatches_layer_iff.mpr (Slot.ksufMatches_layer_iff.mp layer)⟩
  have found : t.layers.slots (old.take (8 * j)) (Key.after old j).rank = some (.holding (.after old j) (some v₀)) := by
    rw [shared, agree, place.slot ok, search, Option.map_some, slot]
  rw [get_eq ok, Contents.get_of_passes passes (Nat.le_of_lt inside), Contents.look_some found, Slot.ksufMatches_holding]
  rfl

/-- What `make_new_layer` leaves for the key in slot `q` and the new one. -/
structure Separates (t : Table V) (key : Bytes) (p : Place V) (q : Nat) (j n : Nat) (old : Bytes) (v₀ : V) : Prop where
  ka : p.ka = .after key j
  ne : old ≠ key
  slice : old.take (8 * (j + 1)) = key.take (8 * (j + 1))
  length : 8 * (j + 1) < old.length ∧ 8 * (j + 1) < key.length
  held : t.get old = some v₀ ∧ t.get key = none
  slices : n = slicesShared (old.drop (8 * (j + 1))) (key.drop (8 * (j + 1)))
  made : ∃ c last, Tcursor.findInsert p.n p.prev p.next p.ka = some c ∧
    c.nodes = (p.n.lock.setLayer q).unlock :: ((List.range n).map fun k => .ofLayer (.after key (j + 1 + k))) ++ [last] ∧
    last.entries = [.holding (.after old (j + 1 + n)) (some v₀)] ∧
    c.kxp = some last.perm.back ∧ last.slot last.perm.back = .ofKey (.after key (j + 1 + n)) ∧
    (Key.after old (j + 1 + n)).rank ≠ (Key.after key (j + 1 + n)).rank ∧
    c.kxi = (if (Key.after old (j + 1 + n)).rank < (Key.after key (j + 1 + n)).rank then 1 else 0) ∧
    c.state = 2 ∧ c.ka = .after key (j + 1 + n)
  finish : ∀ value : Option V, ∃ t', t.insert key value = some t' ∧
    (∀ k < n, t'.layers (key.take (8 * (j + 1 + k))) = some (.leaf (.ofLayer (.after key (j + 1 + k))))) ∧
    (∃ l : Leaf V, t'.layers (key.take (8 * (j + 1 + n))) = some (.leaf l) ∧
      slotSet l.entries = stored (.after key (j + 1 + n)) value {.holding (.after old (j + 1 + n)) (some v₀)}) ∧
    t'.get old = some v₀ ∧ t'.get key = value ∧ ∀ other ≠ key, t'.get other = t.get other

/-- The search for a key ends at the slot of another one that has the same slice. -/
def Collides (t : Table V) (key : Bytes) (p : Place V) (q : Nat) : Prop :=
  t.locate key = some p ∧ (p.n.lower p.ka).2 = some q ∧ (p.n.slot q).ksufMatches p.ka = .no

/-- The two keys are apart after `make_new_layer`, which makes a leaf for each slice that both have and go on after. -/
theorem new_layer_separates (ok : t.Ok) (collides : t.Collides key p q) : ∃ j n old v₀, t.Separates key p q j n old v₀ := by
  obtain ⟨found, search, matches_⟩ := collides
  obtain ⟨j, p', root, lo, hi, bound, found', place⟩ := locate_spec ok key
  obtain rfl := Option.some.inj (found.symm.trans found')
  rw [place.ka] at search matches_
  have pair : p.n.lower (.after key j) = ((p.n.lower (.after key j)).1, some q) := by rw [← search]
  obtain ⟨old, v₀, c, n, ⟨slot, ne, shared, agree, long⟩, ⟨made, layered⟩, inserted⟩ := insert_layered ok found place pair matches_
  have more := Contents.long_of_rank (rfl : (Key.after key j).rank = _) long
  have more' := Contents.long_of_rank agree long
  have held := place.get_other ok search slot shared agree (by omega) (by omega)
  have none_ : t.get key = none := by
    have slot' := place.slot ok
    rw [search, Option.map_some] at slot'
    rw [get_eq ok, Contents.get_of_passes place.passes place.le, Contents.look_some slot', matches_]
  have slices := slices_of_together layered.together layered.apart
  refine ⟨j, n, old, v₀, place.ka, ne, Contents.take_succ shared agree, ⟨more', more⟩, ⟨held, none_⟩, slices.symm, ?_, ?_⟩
  · obtain ⟨last, nodes⟩ := layered.nodes
    have node : c.node = last := by
      rw [Tcursor.node, layered.at_, nodes, List.getD_cons_succ, List.getD_append_right _ _ _ _ (by rw [length_twigOf]),
        length_twigOf, Nat.sub_self]
      rfl
    have ready := layered.ready
    refine ⟨c, last, by rw [place.ka, made], nodes, ?_, ?_, ?_, layered.apart, layered.place, layered.state,
      layered.ka⟩
    · rw [← node, layered.entries]
    · rw [← node]
      exact ready.kxp
    · rw [← node]
      exact ready.slot
  · intro value
    obtain ⟨t', ksuf, done, ok', contents, hung⟩ := inserted value
    have gets : t'.get = Function.update t.get key value := by rw [get_eq ok', contents, get_eq ok]
    refine ⟨t', done, hung.leaves, hung.lastLeaf, ?_, ?_, ?_⟩
    · rw [gets, Function.update_of_ne ne, held]
    · rw [gets, Function.update_self]
    · intro other apart
      rw [gets, Function.update_of_ne apart]

theorem collides_of_match (key : Bytes) (ops : List (Op V)) (match_ : ((Steps.run step start ops).bind fun t =>
    (t.locate key).bind fun p =>
    (p.n.lower p.ka).2.map fun q => (p.n.slot q).ksufMatches p.ka) = some .no) :
    ∃ (t : Table V) (p : Place V) (q : Nat), Steps.run step start ops = some t ∧ t.Collides key p q := by
  obtain ⟨t, ran, match_⟩ := Option.bind_eq_some_iff.mp match_
  obtain ⟨p, found, match_⟩ := Option.bind_eq_some_iff.mp match_
  obtain ⟨q, search, match_⟩ := Option.map_eq_some_iff.mp match_
  exact ⟨t, p, q, ran, found, search, match_⟩

/-- The old key ends with the second slice that both have: there is no layer for that slice. -/
theorem new_layer_ends : ∃ (old key : Bytes) (t : Table Nat) (p : Place Nat) (q : Nat) (c : Tcursor Nat),
    Steps.run step start [.insert old 7] = some t ∧ t.Collides key p q ∧ Tcursor.findInsert p.n p.prev p.next p.ka = some c ∧
      common (old.drop 8) (key.drop 8) / 8 = 1 ∧ c.nodes.length = 2 := by
  let old : Bytes := [1, 1, 1, 1, 1, 1, 1, 1, 2, 2, 2, 2, 2, 2, 2, 2]
  let key : Bytes := [1, 1, 1, 1, 1, 1, 1, 1, 2, 2, 2, 2, 2, 2, 2, 2, 3]
  obtain ⟨t, p, q, ran, found, search, match_⟩ := collides_of_match key [Op.insert old 7] (by decide)
  have nodes : ((Steps.run step start [Op.insert old 7]).bind fun t => (t.locate key).bind fun p =>
      (Tcursor.findInsert p.n p.prev p.next p.ka).map fun c => c.nodes.length) = some 2 := by decide
  rw [ran, Option.bind_some, found, Option.bind_some] at nodes
  obtain ⟨c, made, length⟩ := Option.map_eq_some_iff.mp nodes
  exact ⟨old, key, t, p, q, c, ran, ⟨found, search, match_⟩, made, by decide, length⟩

end Table

end Masstree.Tree
