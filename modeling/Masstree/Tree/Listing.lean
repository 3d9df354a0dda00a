import Masstree.Lib.OrderedMap
import Masstree.Tree.Destroy
import Masstree.Tree.Layered

/-!
# The keys of a table in order

Layers are ordered by slices, and keys as strings: the entries of a layer in order, each with what is in the layer below it, have the
keys in order.
-/

namespace Masstree.Tree
open Msgpack (Bytes toNetOrder)

variable {V : Type} {s : Slot V} {at_ key other : Bytes} {i depth fuel : Nat}

/-- What is left of the key of a slot. -/
def Slot.bytes (s : Slot V) : Bytes :=
  if s.keylenx = ksufKeylenx then toNetOrder 8 s.ikey0 ++ s.ksuf else (toNetOrder 8 s.ikey0).take s.keylenx

/-- The keys of a slot, where `below` has those of each layer. -/
def Slot.keys (below : Bytes → List (Bytes × Option V)) (at_ : Bytes) (s : Slot V) : List (Bytes × Option V) :=
  if s.isLayer then below (at_ ++ toNetOrder 8 s.ikey0) else [(at_ ++ s.bytes, s.lv)]

/-- The keys in a layer and those below, for at most `depth` of them. -/
def Table.listing (t : Table V) : Nat → Bytes → List (Bytes × Option V)
  | 0, _ => []
  | depth + 1, at_ => ((t.layers at_).elim [] Node.entries).flatMap (Slot.keys (listing t depth) at_)

/-- All layers from one on are among the next `depth`. -/
def Table.Deep (t : Table V) (at_ : Bytes) (depth : Nat) : Prop :=
  ∀ at', (t.layers at').isSome → at_ <+: at' → at'.length < at_.length + 8 * depth

/-! ### Keys of slots -/

theorem toNetOrder_slice (s : Bytes) : toNetOrder 8 (makeComparable s) = s.take 8 ++ List.replicate (8 - s.length) 0 := by
  refine netOrder_inj (by rw [Msgpack.toNetOrder_length, makeComparable_length]) ?_
  rw [Msgpack.netOrder_toNetOrder 8 (makeComparable_lt s), makeComparable]

theorem Slot.bytes_holding (ka : Key) (v : Option V) : (Slot.holding ka v).bytes = ka.s := by
  by_cases long : ka.hasSuffix = true
  · have more := ka.hasSuffix_iff.mp long
    rw [holding_long long, bytes, if_pos rfl]
    show toNetOrder 8 (makeComparable ka.s) ++ ka.s.drop 8 = ka.s
    rw [toNetOrder_makeComparable (Nat.le_of_lt more), List.take_append_drop]
  · have short : ka.s.length ≤ 8 := Nat.le_of_not_lt fun more => long (ka.hasSuffix_iff.mpr more)
    rw [holding_short long, bytes, if_neg (Nat.ne_of_lt (length_lt long))]
    show (toNetOrder 8 (makeComparable ka.s)).take ka.s.length = ka.s
    rw [toNetOrder_slice, List.take_of_length_le short]
    exact List.take_left

theorem Slot.isLayer_holding (ka : Key) (v : V) : (Slot.holding ka (some v)).isLayer = false := by
  rw [Bool.eq_false_iff, Ne, Tcursor.isLayer_iff (.key ka v)]
  unfold holding ofKey ksufKeylenx layerKeylenx
  split
  · show ¬64 = 128
    decide
  · rename_i short
    rw [Key.hasSuffix_iff] at short
    show ¬ka.s.length = 128
    omega

/-- A slot without a layer has a key. -/
theorem Slot.Valid.of_key (valid : s.Valid) (isKey : s.isLayer = false) : ∃ ka v, s = .holding ka (some v) := by
  cases valid with
  | key ka v => exact ⟨ka, v, rfl⟩
  | layer ka ksuf long => cases isKey

theorem Key.s_append (aligned : at_.length = 8 * i) (rest : Bytes) : (after (at_ ++ rest) i).s = rest := List.drop_left' aligned

/-- The key that is in a slot. -/
theorem Slot.Valid.place (valid : s.Valid) (isKey : s.isLayer = false) (aligned : at_.length = 8 * i) :
    (at_ ++ s.bytes).take (8 * i) = at_ ∧ (Key.after (at_ ++ s.bytes) i).rank = s.rank := by
  obtain ⟨ka, v, rfl⟩ := valid.of_key isKey
  rw [bytes_holding, rank_holding]
  exact ⟨List.take_left' aligned, Key.rank_congr (Key.s_append aligned _)⟩

/-- The keys that go on after the slice of a layer. -/
theorem Slot.Valid.place_below (valid : s.Valid) (isLayer : s.isLayer = true) (aligned : at_.length = 8 * i)
    (slice : key.take (8 * (i + 1)) = at_ ++ toNetOrder 8 s.ikey0) (more : 8 * (i + 1) < key.length) :
    key.take (8 * i) = at_ ∧ (Key.after key i).rank = s.rank := by
  have length : (toNetOrder 8 s.ikey0).length = 8 := Msgpack.toNetOrder_length 8 _
  have parts : key = at_ ++ (toNetOrder 8 s.ikey0 ++ key.drop (8 * (i + 1))) := by
    rw [← List.append_assoc, ← slice, List.take_append_drop]
  have rest : (Key.after key i).s = toNetOrder 8 s.ikey0 ++ key.drop (8 * (i + 1)) := by
    conv_lhs => rw [parts]
    exact Key.s_append aligned _
  refine ⟨?_, rank_inj.mpr ⟨?_, ?_⟩⟩
  · conv_lhs => rw [parts]
    exact List.take_left' aligned
  · rw [Key.ikey, rest, makeComparable_toNetOrder valid.ikey_lt]
  · rw [Key.length, rest, List.length_append, length, List.length_drop, (Tcursor.isLayer_iff valid).mp isLayer]
    unfold layerKeylenx
    omega

/-! ### Order -/

theorem lexCompare_lt_iff {a b : Bytes} : lexCompare a b = .lt ↔ a < b := by
  refine ⟨fun less => ?_, lexCompare_lt⟩
  by_contra not
  unfold lexCompare compareOfLessAndEq at less
  rw [if_neg not] at less
  split at less <;> cases less

theorem lt_of_drop {a b : Bytes} {n : Nat} (same : a.take n = b.take n) (less : a.drop n < b.drop n) : a < b := by
  rw [← lexCompare_lt_iff, ← lexCompare_drop same]
  exact lexCompare_lt less

/-- Keys of a layer are in the order of their ranks. -/
theorem lt_of_rank (same : key.take (8 * i) = other.take (8 * i)) (less : (Key.after key i).rank < (Key.after other i).rank) :
    key < other := lt_of_drop same (lt_of_slice (rank_lt.mp less))

namespace Table

variable {t : Table V} {root : Node (Leaf V)} {o : Option V}

theorem listing_succ (layer : t.layers at_ = some root) (depth : Nat) :
    t.listing (depth + 1) at_ = root.entries.flatMap (Slot.keys (t.listing depth) at_) := by
  rw [listing, layer]
  rfl

theorem Deep.of_slot (deep : t.Deep at_ (depth + 1)) (s : Slot V) : t.Deep (at_ ++ toNetOrder 8 s.ikey0) depth := by
  intro at' there before
  have bound := deep at' there ((List.prefix_append _ _).trans before)
  rw [List.length_append, Msgpack.toNetOrder_length]
  omega

theorem Deep.pos (deep : t.Deep at_ depth) (layer : t.layers at_ = some root) : ∃ below, depth = below + 1 := by
  have bound := deep at_ (Option.isSome_iff_exists.mpr ⟨root, layer⟩) (List.prefix_refl _)
  exact Nat.exists_eq_add_one.mpr (by omega)

/-- A table has finitely many layers. -/
theorem Ok.deep (ok : t.Ok) : ∃ depth, t.Deep [] depth := by
  obtain ⟨bound, most⟩ := (ok.finite.image List.length).bddAbove
  refine ⟨bound + 1, fun at' there _ => ?_⟩
  have le : at'.length ≤ bound := most ⟨at', there, rfl⟩
  rw [List.length_nil]
  omega

theorem length_below (aligned : at_.length = 8 * i) (s : Slot V) : (at_ ++ toNetOrder 8 s.ikey0).length = 8 * (i + 1) := by
  rw [List.length_append, aligned, Msgpack.toNetOrder_length]
  rfl

/-- The keys of a slot have its rank, those of a layer its prefix. -/
theorem Ok.place (ok : t.Ok) (layer : t.layers at_ = some root) (aligned : at_.length = 8 * i) (mem : s ∈ root.entries)
    (there : (key, o) ∈ s.keys (t.listing depth) at_) :
    key.take (8 * i) = at_ ∧ (Key.after key i).rank = s.rank ∧
    (s.isLayer = true → key.take (8 * (i + 1)) = at_ ++ toNetOrder 8 s.ikey0) := by
  induction depth generalizing at_ root i s with
  | zero =>
    unfold Slot.keys at there
    split at there
    · cases there
    · rename_i isKey
      obtain ⟨rfl, -⟩ := Prod.mk.inj (List.mem_singleton.mp there)
      obtain ⟨before, rank⟩ := ((ok.sound _ _ layer).valid s mem).place (Bool.eq_false_iff.mpr isKey) aligned
      exact ⟨before, rank, fun isLayer => absurd isLayer isKey⟩
  | succ depth ih =>
    have valid := (ok.sound _ _ layer).valid s mem
    unfold Slot.keys at there
    split at there
    · rename_i isLayer
      obtain ⟨root', layer'⟩ := Option.isSome_iff_exists.mp (ok.layer_of_slot layer mem isLayer)
      have aligned' := length_below aligned s
      rw [listing_succ layer'] at there
      obtain ⟨s', mem', there⟩ := List.mem_flatMap.mp there
      obtain ⟨slice, rank, -⟩ := ih layer' aligned' mem' there
      have some_ : s'.keylenx ≠ 0 := by
        have nonempty : at_ ++ toNetOrder 8 s.ikey0 ≠ [] := by
          rw [← List.length_pos_iff, aligned']
          omega
        refine ok.inner _ nonempty s'.rank s' ?_
        rw [Layers.slots_eq layer', find_eq_some (ok.sound _ _ layer').sorted]
        exact ⟨mem', rfl⟩
      have more : 8 * (i + 1) < key.length := by
        have lengths : min (Key.after key (i + 1)).length 9 = min s'.keylenx 9 := (rank_inj.mp rank).2
        rw [Key.length_after] at lengths
        omega
      obtain ⟨before, rank⟩ := valid.place_below isLayer aligned slice more
      exact ⟨before, rank, fun _ => slice⟩
    · rename_i isKey
      obtain ⟨rfl, -⟩ := Prod.mk.inj (List.mem_singleton.mp there)
      obtain ⟨before, rank⟩ := valid.place (Bool.eq_false_iff.mpr isKey) aligned
      exact ⟨before, rank, fun isLayer => absurd isLayer isKey⟩

theorem Ok.aligned_below (ok : t.Ok) (layer : t.layers at_ = some root) : ∃ i, at_.length = 8 * i :=
  ok.aligned at_ (Option.isSome_iff_exists.mpr ⟨root, layer⟩)

/-- The keys are in order, and none is there twice. -/
theorem Ok.listing_sorted (ok : t.Ok) (depth : Nat) (layer : t.layers at_ = some root) :
    (t.listing depth at_).Pairwise fun p q => p.1 < q.1 := by
  induction depth generalizing at_ root with
  | zero => exact .nil
  | succ depth ih =>
    obtain ⟨i, aligned⟩ := ok.aligned_below layer
    have sound := ok.sound _ _ layer
    rw [listing_succ layer, List.pairwise_flatMap]
    refine ⟨fun s mem => ?_, sound.sorted.imp_of_mem fun {s s'} mem mem' less => ?_⟩
    · unfold Slot.keys
      split
      · rename_i isLayer
        obtain ⟨root', layer'⟩ := Option.isSome_iff_exists.mp (ok.layer_of_slot layer mem isLayer)
        exact ih layer'
      · exact List.pairwise_singleton _ _
    · rintro ⟨key, o⟩ here ⟨other, o'⟩ there
      obtain ⟨before, rank, -⟩ := ok.place layer aligned mem here
      obtain ⟨before', rank', -⟩ := ok.place layer aligned mem' there
      refine lt_of_rank (i := i) (before.trans before'.symm) ?_
      rw [rank, rank']
      exact less

/-! ### What is listed -/

theorem Ok.look_of_mem (ok : t.Ok) (layer : t.layers at_ = some root) (aligned : at_.length = 8 * i)
    (there : (key, o) ∈ t.listing depth at_) :
    ∃ v, o = some v ∧ ∀ fuel, key.length < 8 * (i + fuel) → t.layers.slots.look key fuel i = some v := by
  induction depth generalizing at_ root i with
  | zero => cases there
  | succ depth ih =>
    have sound := ok.sound _ _ layer
    rw [listing_succ layer] at there
    obtain ⟨s, mem, there⟩ := List.mem_flatMap.mp there
    obtain ⟨before, rank, slice⟩ := ok.place layer aligned mem there
    have slot : t.layers.slots (key.take (8 * i)) (Key.after key i).rank = some s := by
      rw [before, rank, Layers.slots_eq layer, find_eq_some sound.sorted]
      exact ⟨mem, rfl⟩
    have inside : 8 * i ≤ key.length := by
      rw [← aligned, ← before]
      exact List.length_take_le' _ _
    have positive : ∀ fuel, key.length < 8 * (i + fuel) → ∃ less, fuel = less + 1 :=
      fun fuel enough => Nat.exists_eq_add_one.mpr (by omega)
    unfold Slot.keys at there
    split at there
    · rename_i isLayer
      obtain ⟨root', layer'⟩ := Option.isSome_iff_exists.mp (ok.layer_of_slot layer mem isLayer)
      obtain ⟨v, value, found⟩ := ih layer' (length_below aligned s) there
      refine ⟨v, value, fun fuel enough => ?_⟩
      obtain ⟨fuel, rfl⟩ := positive fuel enough
      rw [Contents.look_some slot, Slot.ksufMatches_layer_iff.mpr ((Tcursor.isLayer_iff (sound.valid s mem)).mp isLayer)]
      exact found fuel (by omega)
    · rename_i isKey
      obtain ⟨ka, v, rfl⟩ := (sound.valid s mem).of_key (Bool.eq_false_iff.mpr isKey)
      obtain ⟨rfl, rfl⟩ := Prod.mk.inj (List.mem_singleton.mp there)
      rw [Slot.bytes_holding] at slot positive ⊢
      have same : Slot.holding ka (some v) = .holding (Key.after (at_ ++ ka.s) i) (some v) :=
        Slot.holding_congr (Key.s_append aligned _).symm _
      refine ⟨v, rfl, fun fuel enough => ?_⟩
      obtain ⟨fuel, rfl⟩ := positive fuel enough
      rw [Contents.look_some slot, same, Slot.ksufMatches_holding]
      rfl

theorem Ok.mem_of_look (ok : t.Ok) (layer : t.layers at_ = some root) (before : key.take (8 * i) = at_) (inside : 8 * i ≤ key.length)
    (deep : t.Deep at_ depth) {v : V} (found : t.layers.slots.look key fuel i = some v) : (key, some v) ∈ t.listing depth at_ := by
  induction fuel generalizing at_ root i depth with
  | zero => cases found
  | succ fuel ih =>
    obtain ⟨depth, rfl⟩ := deep.pos layer
    have sound := ok.sound _ _ layer
    rw [Contents.look] at found
    obtain ⟨s, slot, found⟩ := Option.bind_eq_some_iff.mp found
    rw [before, Layers.slots_eq layer, find_eq_some sound.sorted] at slot
    obtain ⟨mem, rank⟩ := slot
    have valid := sound.valid s mem
    rw [listing_succ layer]
    refine List.mem_flatMap.mpr ⟨s, mem, ?_⟩
    split at found
    · rename_i yes
      obtain ⟨v', rfl⟩ := valid.of_yes rank yes
      obtain rfl : v' = v := Option.some.inj found
      have whole : at_ ++ (Key.after key i).s = key := by
        rw [← before]
        exact List.take_append_drop _ _
      rw [Slot.keys, if_neg (Bool.eq_false_iff.mp (Slot.isLayer_holding _ _)), Slot.bytes_holding, whole]
      exact List.mem_singleton_self _
    · rename_i below
      obtain ⟨isLayer, long⟩ := valid.of_layer rank below
      have more := Contents.long_of_rank (rfl : (Key.after key i).rank = _) long
      have ikey : s.ikey0 = makeComparable (key.drop (8 * i)) := (rank_inj.mp rank).1
      have slice : key.take (8 * (i + 1)) = at_ ++ toNetOrder 8 s.ikey0 := by
        rw [ikey, toNetOrder_makeComparable (by rw [List.length_drop]; omega), Nat.mul_succ, List.take_add, before]
      obtain ⟨root', layer'⟩ := Option.isSome_iff_exists.mp (ok.layer_of_slot layer mem isLayer)
      rw [Slot.keys, if_pos isLayer]
      exact ih layer' slice (Nat.le_of_lt more) (deep.of_slot s) found
    · cases found

theorem Ok.mem_listing (ok : t.Ok) (deep : t.Deep [] depth) {v : V} : (key, some v) ∈ t.listing depth [] ↔ t.get key = some v := by
  obtain ⟨root, layer⟩ := Option.isSome_iff_exists.mp ok.top
  rw [get_eq ok, Contents.get]
  constructor
  · intro there
    obtain ⟨v', value, found⟩ := ok.look_of_mem (i := 0) layer rfl there
    obtain rfl := Option.some.inj value
    exact found (key.length + 1) (by omega)
  · exact ok.mem_of_look layer rfl (Nat.zero_le _) deep

end Table

end Masstree.Tree
