import Masstree.Tree.Sound
import Mathlib.Data.Set.Finite.Basic

/-!
# Where searches end
-/

namespace Masstree.Tree
open Msgpack (Bytes)

variable {V : Type}

namespace Table

/-- The layers are trees between operations, and all but the first are those of the layer slots. -/
structure Ok (t : Table V) : Prop where
  sound : ∀ at_ root, t.layers at_ = some root → root.Sound
  top : (t.layers []).isSome
  linked : ∀ key j, 8 * (j + 1) < key.length → ((t.layers (key.take (8 * (j + 1)))).isSome ↔
    ∃ s, t.layers.slots (key.take (8 * j)) (Key.after key j).rank = some s ∧ s.keylenx = layerKeylenx)
  aligned : ∀ at_, (t.layers at_).isSome → 8 ∣ at_.length
  inner : ∀ at_ ≠ [], ∀ r s, t.layers.slots at_ r = some s → s.keylenx ≠ 0
  finite : {at_ | (t.layers at_).isSome}.Finite

/-- The leaf that a search for the key ends in, after `j` layers. -/
structure At (t : Table V) (key : Bytes) (j : Nat) (p : Place V) (root : Node (Leaf V)) (lo hi bound : Nat) : Prop where
  ka : p.ka = .after key j
  inside : j = 0 ∨ 8 * j < key.length
  passes : t.layers.slots.Passes key j
  layer : t.layers (key.take (8 * j)) = some root
  plugged : plug (.leaf p.n) p.path = root
  way : Path Leaf.Holds lo hi bound p.path
  pos : 0 < bound
  holds : p.n.Holds lo hi
  low : lo ≤ (Key.after key j).ikey
  high : (Key.after key j).ikey < hi
  ends : p.n.leadsOn (.after key j) = false

variable {t : Table V} {key : Bytes} {p : Place V} {i j lo hi bound : Nat} {root : Node (Leaf V)}

theorem Ok.lawful (ok : t.Ok) : t.layers.slots.Lawful := by
  intro at_ r s found
  obtain ⟨root, layer, found⟩ := Option.bind_eq_some_iff.mp found
  have sound := ok.sound at_ root layer
  obtain ⟨mem, rank⟩ := (find_eq_some sound.sorted).mp found
  exact ⟨rank, sound.valid s mem⟩

theorem At.le (at_ : t.At key j p root lo hi bound) : 8 * j ≤ key.length := by
  rcases at_.inside with rfl | lt
  · exact Nat.zero_le _
  · exact Nat.le_of_lt lt

/-- What a leaf's search finds is in the contents. -/
theorem At.slot (ok : t.Ok) (at_ : t.At key j p root lo hi bound) : t.layers.slots (key.take (8 * j)) (Key.after key j).rank =
    (p.n.lower (.after key j)).2.map p.n.slot := by
  have sound := ok.sound _ _ at_.layer
  rw [Layers.slots_eq at_.layer, ← at_.plugged]
  exact find_layer at_.way at_.holds at_.low at_.high (at_.plugged.symm ▸ sound)

theorem locate_from (ok : t.Ok) {fuel : Nat} (layer : (t.layers (key.take (8 * i))).isSome) (inside : i = 0 ∨ 8 * i < key.length)
    (passes : t.layers.slots.Passes key i) (enough : key.length < 8 * (i + fuel)) :
    ∃ j p root lo hi bound, t.layers.locate fuel (.after key i) = some p ∧ t.At key j p root lo hi bound := by
  induction fuel generalizing i with
  | zero => omega
  | succ fuel ih =>
    obtain ⟨root, layer⟩ := Option.isSome_iff_exists.mp layer
    have sound := ok.sound _ _ layer
    obtain ⟨l, path, lo, hi, bound, reached, way, holds, low, high, pos, plugged⟩ := reachLeaf_spec sound (Nat.zero_le _)
      (Tcursor.ikey_lt (.after key i)) (.root (root.height + 1)) (Nat.lt_succ_self _) (Nat.le_refl _)
    have slots := find_layer way holds low high (show (plug (.leaf l) path).Sound from plugged.symm ▸ sound)
    rw [plugged, plug, ← Layers.slots_eq layer] at slots
    rw [Layers.locate, Key.prefixString_after, layer, Option.bind_some, reached, Option.bind_some]
    dsimp only
    by_cases on : l.leadsOn (.after key i) = true
    · obtain ⟨p, search, matches_⟩ := (Option.any_eq_true ..).mp on
      rw [search, Option.map_some] at slots
      have matches_ := of_decide_eq_true matches_
      obtain ⟨rank, valid⟩ := ok.lawful _ _ _ slots
      obtain ⟨-, long⟩ := valid.of_layer rank matches_
      have more := Contents.long_of_rank (rfl : (Key.after key i).rank = _) long
      rw [if_pos on, Key.shift_after]
      refine ih ((ok.linked key i more).mpr ⟨_, slots, Slot.ksufMatches_layer_iff.mp matches_⟩) (.inr more) ?_ (by omega)
      intro k lt
      rcases Nat.lt_succ_iff_lt_or_eq.mp lt with below | rfl
      · exact passes k below
      · exact ⟨_, slots, matches_⟩
    · rw [if_neg on]
      exact ⟨i, ⟨.after key i, l, path⟩, root, lo, hi, bound, rfl, rfl, inside, passes, layer, plugged, way, pos, holds, low, high,
        Bool.not_eq_true _ ▸ on⟩

/-- A search ends in a leaf that is responsible for the key. -/
theorem locate_spec (ok : t.Ok) (key : Bytes) :
    ∃ j p root lo hi bound, t.locate key = some p ∧ t.At key j p root lo hi bound := by
  have top : (t.layers (key.take (8 * 0))).isSome := ok.top
  exact locate_from ok top (.inl rfl) (fun i lt => absurd lt (Nat.not_lt_zero i)) (by omega)

/-- What is found is in the contents. -/
theorem get_eq (ok : t.Ok) : t.get = t.layers.slots.get := by
  funext key
  obtain ⟨j, p, root, lo, hi, bound, found, at_⟩ := locate_spec ok key
  have slot := at_.slot ok
  have ends := at_.ends
  rw [get, found, Option.bind_some, at_.ka, Contents.get_of_passes at_.passes at_.le]
  cases search : (p.n.lower (.after key j)).2 with
  | none =>
    rw [search] at slot
    rw [Contents.look_none slot, Option.bind_none]
  | some q =>
    rw [search, Option.map_some] at slot
    rw [Option.bind_some, Contents.look_some slot]
    have notLayer : (p.n.slot q).ksufMatches (.after key j) ≠ .layer := by
      intro layer
      rw [Leaf.leadsOn, search, Option.any_some, layer] at ends
      cases ends
    cases matches_ : (p.n.slot q).ksufMatches (.after key j) with
    | yes => rfl
    | no => rfl
    | layer => exact absurd matches_ notLayer

/-! ### Other layers stay -/

/-- One layer's tree has changed, its slot and all others are as they were, but for slots that are not of layers. -/
theorem Ok.setLayer (ok : t.Ok) {at_ : Bytes} {root' : Node (Leaf V)} (layer : t.layers at_ = some root) (sound : root'.Sound)
    (same : ∀ at' r, (∃ s, Layers.slots (Function.update t.layers at_ (some root')) at' r = some s ∧ s.keylenx = layerKeylenx) ↔
      ∃ s, t.layers.slots at' r = some s ∧ s.keylenx = layerKeylenx)
    (inner : ∀ at' ≠ [], ∀ r s, Layers.slots (Function.update t.layers at_ (some root')) at' r = some s → s.keylenx ≠ 0)
    {t' : Table V} (layers : t'.layers = Function.update t.layers at_ (some root')) : t'.Ok := by
  have some_ : ∀ at', (Function.update t.layers at_ (some root') at').isSome ↔ (t.layers at').isSome := by
    intro at'
    by_cases here : at' = at_
    · subst here
      rw [Function.update_self, layer]
      exact ⟨fun _ => rfl, fun _ => rfl⟩
    · rw [Function.update_of_ne here]
  constructor
  · intro at' root'' layer'
    rw [layers] at layer'
    by_cases here : at' = at_
    · subst here
      rw [Function.update_self] at layer'
      rwa [← Option.some.inj layer']
    · rw [Function.update_of_ne here] at layer'
      exact ok.sound at' root'' layer'
  · rw [layers, some_]
    exact ok.top
  · intro key j more
    rw [layers, some_, same]
    exact ok.linked key j more
  · intro at' there
    rw [layers, some_] at there
    exact ok.aligned at' there
  · rwa [layers]
  · rw [layers]
    simp only [some_]
    exact ok.finite

/-- In a layer below the top there is something left of every key. -/
theorem set_inner {C : Contents V} {at_ : Bytes} {r : Nat} {x : Option (Slot V)}
    (inner : ∀ at_ ≠ [], ∀ r s, C at_ r = some s → s.keylenx ≠ 0)
    (new : at_ ≠ [] → ∀ s, x = some s → s.keylenx ≠ 0) : ∀ at' ≠ [], ∀ r' s, C.set at_ r x at' r' = some s → s.keylenx ≠ 0 := by
  intro at' below r' s found
  by_cases here : at' = at_ ∧ r' = r
  · obtain ⟨rfl, rfl⟩ := here
    rw [Contents.set_same] at found
    exact new below s found
  · rw [Contents.set_other _ _ here] at found
    exact inner at' below r' s found

theorem inner_holding {key : Bytes} (inside : 8 * j < key.length) (v : Option V) :
    (Slot.holding (.after key j) v : Slot V).keylenx ≠ 0 := by
  have length := Key.length_after key j
  by_cases long : (Key.after key j).hasSuffix = true
  · rw [Slot.holding_long long]
    show ksufKeylenx ≠ 0
    decide
  · rw [Slot.holding_short long]
    show (Key.after key j).length ≠ 0
    omega

/-- No layer is at the place, before and after. -/
theorem set_layers {C : Contents V} {at_ : Bytes} {r : Nat} {x : Option (Slot V)}
    (before : ∀ s, C at_ r = some s → s.keylenx ≠ layerKeylenx)
    (after : ∀ s, x = some s → s.keylenx ≠ layerKeylenx) (at' : Bytes) (r' : Nat) :
    (∃ s, C.set at_ r x at' r' = some s ∧ s.keylenx = layerKeylenx) ↔ ∃ s, C at' r' = some s ∧ s.keylenx = layerKeylenx := by
  by_cases here : at' = at_ ∧ r' = r
  · obtain ⟨rfl, rfl⟩ := here
    rw [Contents.set_same]
    constructor
    · rintro ⟨s, some_, layer⟩
      exact absurd layer (after s some_)
    · rintro ⟨s, some_, layer⟩
      exact absurd layer (before s some_)
  · rw [Contents.set_other _ _ here]

theorem keylenx_holding (ka : Key) (v : Option V) : (Slot.holding ka v : Slot V).keylenx ≠ layerKeylenx := by
  intro layer
  have matches_ := Slot.ksufMatches_holding ka v
  rw [Slot.ksufMatches_layer_iff.mpr layer] at matches_
  cases matches_

end Table

end Masstree.Tree
