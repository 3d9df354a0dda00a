import Masstree.Tree.Directions

/-!
# Steps of a scan

What the helpers find in a leaf, and where `find_next` goes from there.
-/

namespace Masstree.Tree
open Msgpack (Bytes toNetOrder)
open Positions

variable {V : Type} {h : Host} {t : Table V} {root : Node (Leaf V)} {l : Leaf V} {helper : Helper} {k : RawKey} {e : Slot V}
  {n lo hi ikey length : Nat} {ki : Int} {c : Scan V}

/-! ### Leaves of a layer -/

/-- The leaf at a place of a layer, with the range that it is responsible for. -/
structure LeafAt (root : Node (Leaf V)) (n : Nat) (l : Leaf V) (lo hi : Nat) : Prop where
  leaf : root.leaves[n]? = some l
  lt : lo < hi
  holds : l.Holds lo hi
  before : Tiles Leaf.Holds 0 lo (root.leaves.take n)
  after : Tiles Leaf.Holds hi top (root.leaves.drop (n + 1))

theorem Node.Sound.leafAt (sound : root.Sound) (leaf : root.leaves[n]? = some l) : ∃ lo hi, LeafAt root n l lo hi := by
  obtain ⟨A, B, parts, rfl⟩ := exists_middle leaf
  have tiles := Node.Wf.tiles sound
  rw [parts] at tiles
  obtain ⟨lo, before, hi, lt, holds, after⟩ := tiles_append.mp tiles
  refine ⟨lo, hi, leaf, lt, holds, ?_, ?_⟩
  · rwa [parts, List.take_left]
  · have rest : (A ++ l :: B).drop (A.length + 1) = B := by
      rw [← List.drop_drop, List.drop_left]
      rfl
    rwa [parts, rest]

/-- The leaf that `reach_leaf` comes to. -/
theorem reachLeaf_at (layer : t.layers c.root = some root) (sound : root.Sound) (small : ikey < top) :
    ∃ n l lo hi, t.reachLeaf c.root ikey = some n ∧ LeafAt root n l lo hi ∧ lo ≤ ikey ∧ ikey < hi := by
  obtain ⟨l, path, lo, hi, bound, reached, way, holds, low, high, -, plugged⟩ :=
    reachLeaf_spec sound (Nat.zero_le _) small (.root (root.height + 1)) (Nat.lt_succ_self _) (Nat.le_refl _)
  have leaves : root.leaves = before path ++ l :: after path := by
    have parts := way.leaves (.leaf l)
    rw [plugged, Node.leaves, List.append_assoc] at parts
    exact parts
  have rest : (before path ++ l :: after path).drop ((before path).length + 1) = after path := by
    rw [← List.drop_drop, List.drop_left]
    rfl
  refine ⟨(before path).length, l, lo, hi, ?_, ⟨?_, Nat.lt_of_le_of_lt low high, holds, ?_, ?_⟩, low, high⟩
  · rw [Table.reachLeaf, layer, Option.bind_some, reached]
    rfl
  · rw [leaves, List.getElem?_append_right (Nat.le_refl _), Nat.sub_self]
    rfl
  · rw [leaves, List.take_left]
    exact way.tiles.1
  · rw [leaves, rest]
    exact way.tiles.2

namespace Helper

def slots (helper : Helper) (leaves : List (Leaf V)) : List (Slot V) := leaves.flatMap fun l => helper.order l.entries

theorem mem_slots {leaves : List (Leaf V)} : e ∈ helper.slots leaves ↔ e ∈ leaves.flatMap Leaf.entries := by
  unfold slots
  rw [List.mem_flatMap, List.mem_flatMap]
  exact exists_congr fun l => and_congr_right fun _ => helper.mem_order

theorem mem_slots_reverse {leaves : List (Leaf V)} : e ∈ helper.slots leaves.reverse ↔ e ∈ leaves.flatMap Leaf.entries := by
  rw [mem_slots, List.mem_flatMap, List.mem_flatMap]
  exact exists_congr fun l => and_congr_left fun _ => List.mem_reverse

@[simp] theorem slots_complete (leaves : List (Leaf V)) : helper.complete.slots leaves = helper.slots leaves := by
  unfold slots
  simp only [order_complete]

theorem order_entries (leaf : root.leaves[n]? = some l) : helper.order root.entries =
    helper.slots (helper.earlier root.leaves n) ++ (helper.order l.entries ++ helper.slots (helper.later root.leaves n)) := by
  show helper.order (root.leaves.flatMap Leaf.entries) = _
  rw [order_flatMap, order_split helper leaf, List.flatMap_append, List.flatMap_cons]
  rfl

end Helper

namespace LeafAt

theorem mem_before (at_ : LeafAt root n l lo hi) : ∀ e ∈ (root.leaves.take n).flatMap Leaf.entries, e.ikey0 < lo :=
  fun e mem => (at_.before.entries.2 e mem).2.2

theorem mem_after (at_ : LeafAt root n l lo hi) : ∀ e ∈ (root.leaves.drop (n + 1)).flatMap Leaf.entries, hi ≤ e.ikey0 ∧ e.ikey0 < top :=
  fun e mem => (at_.after.entries.2 e mem).2

theorem later_ahead (at_ : LeafAt root n l lo hi) (low : lo ≤ ikey) (high : ikey < hi) (length : Nat) (helper : Helper) :
    ∀ e ∈ helper.slots (helper.later root.leaves n), helper.ahead (rank ikey length) e.rank = true := by
  intro e mem
  cases helper with
  | forward => exact decide_eq_true (rank_lt.mpr (.inl (Nat.lt_of_lt_of_le high (at_.mem_after e (Helper.mem_slots.mp mem)).1)))
  | reverse upperBound =>
    have before := at_.mem_before e (Helper.mem_slots_reverse.mp mem)
    show (upperBound || decide (e.rank < _)) = true
    rw [Bool.or_eq_true, decide_eq_true_eq]
    exact .inr (rank_lt.mpr (.inl (Nat.lt_of_lt_of_le before low)))

theorem earlier_behind (at_ : LeafAt root n l lo hi) (low : lo ≤ ikey) (high : ikey < hi) (length : Nat) (helper : Helper) :
    ∀ e ∈ helper.slots (helper.earlier root.leaves n),
      helper.complete.ahead (rank ikey length) e.rank = false ∧ e.ikey0 ≠ ikey := by
  intro e mem
  cases helper with
  | forward =>
    have before := at_.mem_before e (Helper.mem_slots.mp mem)
    have less : e.rank < rank ikey length := rank_lt.mpr (.inl (Nat.lt_of_lt_of_le before low))
    exact ⟨decide_eq_false (Nat.lt_asymm less), Nat.ne_of_lt (Nat.lt_of_lt_of_le before low)⟩
  | reverse upperBound =>
    have after := (at_.mem_after e (Helper.mem_slots_reverse.mp mem)).1
    have more : rank ikey length < e.rank := rank_lt.mpr (.inl (Nat.lt_of_lt_of_le high after))
    refine ⟨?_, Nat.ne_of_gt (Nat.lt_of_lt_of_le high after)⟩
    show (false || decide (e.rank < _)) = false
    rw [Bool.false_or]
    exact decide_eq_false (Nat.lt_asymm more)

/-- The entries after one in the leaf, and in the leaves after, are those ahead of it. -/
theorem tail_ahead (at_ : LeafAt root n l lo hi) (sound : root.Sound) {A B : List (Slot V)}
    (parts : helper.order l.entries = A ++ e :: B) :
    ∀ b ∈ B ++ helper.slots (helper.later root.leaves n), helper.complete.ahead e.rank b.rank = true := by
  have sorted := helper.order_ahead sound.sorted
  rw [helper.order_entries at_.leaf, parts, List.append_assoc, List.cons_append, ← List.append_assoc] at sorted
  exact (List.pairwise_cons.mp (List.pairwise_append.mp sorted).2.1).1

theorem mem_entries (at_ : LeafAt root n l lo hi) (mem : e ∈ l.entries) : e ∈ root.entries :=
  List.mem_flatMap.mpr ⟨l, List.mem_of_getElem? at_.leaf, mem⟩

end LeafAt

/-! ### Searches in a leaf -/

/-- With `upper_bound_` the search is not made. -/
theorem lower_upper (l : Leaf V) (k : RawKey) : (Helper.reverse true).Inside l.entries.length ((Helper.reverse true).lower k l) ∧
    (Helper.reverse true).todo l.entries ((Helper.reverse true).lower k l) = l.entries.reverse := by
  have place : (Helper.reverse true).lower k l = (l.entries.length : Int) - 1 := by
    rw [Leaf.length_entries]
    rfl
  have whole : ((l.entries.length : Int) - 1 + 1).toNat = l.entries.length := by omega
  rw [place]
  refine ⟨show (l.entries.length : Int) - 1 < _ by omega, ?_⟩
  show (l.entries.take ((l.entries.length : Int) - 1 + 1).toNat).reverse = _
  rw [whole, List.take_length]

section Search
variable (sorted : Increasing l.entries) (k : RawKey)
include sorted

theorem lowerBy_cases :
    (∃ i e, l.entries[i]? = some e ∧ l.slot (l.perm.get i) = e ∧ l.lowerBy k = (i, some (l.perm.get i)) ∧ e.rank = k.rank) ∨
      ∃ i, i ≤ l.entries.length ∧ l.lowerBy k = (i, none) ∧ (∀ s ∈ l.entries.take i, s.rank < k.rank) ∧
        ∀ s ∈ l.entries.drop i, k.rank < s.rank := by
  unfold Leaf.lowerBy
  dsimp only
  cases search : BinarySearch.lower (fun m => k.compare (l.slot (l.perm.get m)).ikey0 (l.slot (l.perm.get m)).keylenx)
    l.size 0 l.size with
  | mk i hit =>
    rcases Leaf.search_cases sorted k.ikey0.toNat k.len search with ⟨lt, rfl, rank⟩ | ⟨le, rfl, below, above⟩
    · exact .inl ⟨i, _, Leaf.getElem?_entries lt, rfl, rfl, rank⟩
    · rw [← Leaf.length_entries] at le
      exact .inr ⟨i, le, rfl, below, above⟩

/-- `lower` passes only what is not ahead of the key. -/
theorem lower_spec (helper : Helper) : helper.Inside l.entries.length (helper.lower k l) ∧
    (helper.todo l.entries (helper.lower k l)).filter (fun s => helper.ahead k.rank s.rank) =
      (helper.order l.entries).filter fun s => helper.ahead k.rank s.rank := by
  have behind : ∀ {i : Nat}, (∀ s ∈ l.entries.take i, s.rank < k.rank) →
      Helper.forward.Inside l.entries.length i ∧ (Helper.forward.todo l.entries i).filter (fun s => Helper.forward.ahead k.rank s.rank) =
        l.entries.filter fun s => Helper.forward.ahead k.rank s.rank := by
    intro i below
    refine ⟨Int.natCast_nonneg i, ?_⟩
    have none_ : (l.entries.take i).filter (fun s => Helper.forward.ahead k.rank s.rank) = [] :=
      List.filter_eq_nil_iff.mpr fun s mem ahead => Nat.lt_asymm (below s mem) (of_decide_eq_true ahead)
    conv_rhs => rw [← List.take_append_drop i l.entries, List.filter_append, none_, List.nil_append]
    rfl
  have beyond : ∀ {i : Nat} {ki : Int}, (∀ s ∈ l.entries.drop i, k.rank < s.rank) → i ≤ l.entries.length → ki + 1 = i →
      (Helper.reverse false).Inside l.entries.length ki ∧
        ((Helper.reverse false).todo l.entries ki).filter (fun s => (Helper.reverse false).ahead k.rank s.rank) =
          l.entries.reverse.filter fun s => (Helper.reverse false).ahead k.rank s.rank := by
    intro i ki above le place
    refine ⟨show ki < l.entries.length by omega, ?_⟩
    have none_ : (l.entries.drop i).filter (fun s => (Helper.reverse false).ahead k.rank s.rank) = [] := by
      refine List.filter_eq_nil_iff.mpr fun s mem ahead => ?_
      exact Nat.lt_asymm (above s mem) (of_decide_eq_true ((Bool.false_or _).symm.trans ahead))
    have index : (ki + 1).toNat = i := by omega
    show ((l.entries.take (ki + 1).toNat).reverse).filter _ = _
    conv_rhs => rw [← List.take_append_drop i l.entries]
    rw [index, List.filter_reverse, List.filter_reverse, List.filter_append, none_, List.append_nil]
  rcases lowerBy_cases sorted k with ⟨i, e, at_, slot, found, rank⟩ | ⟨i, le, found, below, above⟩
  · have lt := (List.getElem?_eq_some_iff.mp at_).1
    obtain ⟨A, B, parts, length⟩ := exists_middle at_
    obtain ⟨-, below, above⟩ := increasing_middle.mp (parts ▸ sorted)
    have taken : l.entries.take i = A := by rw [parts, List.take_left' length]
    have dropped : l.entries.drop (i + 1) = B := by
      rw [parts, ← List.drop_drop, List.drop_left' length]
      rfl
    rw [rank, ← taken] at below
    rw [rank, ← dropped] at above
    cases helper with
    | forward =>
      unfold Helper.lower
      rw [found]
      exact behind below
    | reverse upperBound =>
      cases upperBound with
      | true => exact ⟨(lower_upper l k).1, by rw [(lower_upper l k).2]; rfl⟩
      | false =>
        unfold Helper.lower Helper.lowerWithPosition
        rw [found]
        exact beyond above lt (by simp)
  · cases helper with
    | forward =>
      unfold Helper.lower
      rw [found]
      exact behind below
    | reverse upperBound =>
      cases upperBound with
      | true => exact ⟨(lower_upper l k).1, by rw [(lower_upper l k).2]; rfl⟩
      | false =>
        unfold Helper.lower Helper.lowerWithPosition
        rw [found]
        exact beyond above le (by simp)

/-- `lower_with_position` finds the entry of the key's rank. -/
theorem lowerWithPosition_cases (complete : helper.complete = helper) :
    (∃ i e, l.entries[i]? = some e ∧ l.slot (l.perm.get i) = e ∧ e.rank = k.rank ∧
      helper.lowerWithPosition k l = ((i : Int), some (l.perm.get i))) ∨
    ((∀ s ∈ l.entries, s.rank ≠ k.rank) ∧ helper.lowerWithPosition k l = (helper.lower k l, none)) := by
  rcases lowerBy_cases sorted k with ⟨i, e, at_, slot, found, rank⟩ | ⟨i, le, found, below, above⟩
  · refine .inl ⟨i, e, at_, slot, rank, ?_⟩
    cases helper with
    | forward =>
      unfold Helper.lowerWithPosition
      rw [found]
    | reverse upperBound =>
      unfold Helper.lowerWithPosition
      rw [found]
      simp
  · refine .inr ⟨fun s mem => ?_, ?_⟩
    · rcases List.mem_append.mp ((List.take_append_drop i l.entries).symm ▸ mem) with mem | mem
      · exact Nat.ne_of_lt (below s mem)
      · exact Nat.ne_of_gt (above s mem)
    · cases helper with
      | forward =>
        unfold Helper.lowerWithPosition Helper.lower
        rw [found]
      | reverse upperBound =>
        obtain rfl : false = upperBound := Helper.reverse.inj complete
        unfold Helper.lower Helper.lowerWithPosition
        rw [found]
        rfl

end Search

/-! ### Entries -/

section Entry
variable (valid : e.Valid)
include valid

/-- What `find_next` stores of an entry's key. -/
theorem load_spec (h : Host) (k : RawKey) : ∃ keylen k',
    (if e.keylenx = ksufKeylenx then k.assignStoreSuffix e.ksuf else (e.keylenx, k)) = (keylen, k') ∧ k'.rank = k.rank ∧
      k'.prefixString = k.prefixString ∧ (e.isLayer = true → k' = k) ∧
        (e.isLayer = false → (k'.assignStoreIkey h (BitVec.ofNat _ e.ikey0)).assignStoreLength keylen = k.rebuild h e.bytes) := by
  cases valid with
  | layer ka ksuf long => exact ⟨_, _, rfl, rfl, rfl, fun _ => rfl, fun isKey => by cases isKey⟩
  | key ka v =>
    have isKey := Slot.isLayer_holding ka v
    rw [Slot.bytes_holding]
    by_cases long : ka.hasSuffix = true
    · have more := ka.hasSuffix_iff.mp long
      rw [Slot.holding_long long] at isKey ⊢
      rw [if_pos rfl]
      refine ⟨_, _, rfl, rfl, k.prefix_assignStoreSuffix _, fun isLayer => ?_, fun _ => ?_⟩
      · rw [isKey] at isLayer
        cases isLayer
      · unfold RawKey.rebuild
        rw [if_pos more]
        rfl
    · have short : ¬8 < ka.s.length := fun more => long (ka.hasSuffix_iff.mpr more)
      rw [Slot.holding_short long] at isKey ⊢
      rw [if_neg (Nat.ne_of_lt (Slot.length_lt long))]
      refine ⟨_, _, rfl, rfl, rfl, fun _ => rfl, fun _ => ?_⟩
      unfold RawKey.rebuild
      rw [if_neg short]
      rfl

/-- The key that the scan has in the buffer at an entry. -/
theorem rebuild_spec (h : Host) (k : RawKey) (isKey : e.isLayer = false) : (k.rebuild h e.bytes).rank = e.rank ∧
    (k.rebuild h e.bytes).prefixString = k.prefixString ∧ (k.rebuild h e.bytes).fullString = k.prefixString ++ e.bytes := by
  obtain ⟨ka, v, rfl⟩ := valid.of_key isKey
  have rep := RawKey.represents_rebuild h k (Slot.holding ka (some v)).bytes
  refine ⟨?_, rep.first, rep.fullString⟩
  rw [rep.rank, Slot.rank_holding]
  exact Key.rank_congr (Slot.bytes_holding ka _)

end Entry

def Scan.meet (h : Host) (c : Scan V) (e : Slot V) (ki : Int) (ka : RawKey) : Scan V :=
  let c := { c with ki, entry := e.lv, helper := c.helper.markKeyComplete }
  if e.isLayer then ({ c with ka := ka.assignStoreIkey h (BitVec.ofNat _ e.ikey0) } : Scan V).push e.ikey0
  else { c with ka := ka.rebuild h e.bytes, state := .emit }

/-- The entries that are behind the key are passed. -/
theorem retryEntry_spec (h : Host) (holds : l.Holds lo hi) {fuel : Nat} (inside : c.helper.Inside l.entries.length c.ki)
    (enough : (c.helper.todo l.entries c.ki).length < fuel) :
    ((c.helper.todo l.entries c.ki).filter (fun s => c.helper.ahead c.ka.rank s.rank) = [] ∧
      ∃ ka ki entry, c.retryEntry h l fuel = { c with ka, ki, entry, state := .findNext } ∧ ka.rank = c.ka.rank ∧
        ka.prefixString = c.ka.prefixString) ∨
    ∃ e ka ki, e ∈ l.entries ∧ e :: c.helper.todo l.entries (c.helper.next ki) <:+ c.helper.todo l.entries c.ki ∧
      (c.helper.todo l.entries c.ki).filter (fun s => c.helper.ahead c.ka.rank s.rank) =
        (e :: c.helper.todo l.entries (c.helper.next ki)).filter (fun s => c.helper.ahead c.ka.rank s.rank) ∧
      c.helper.ahead c.ka.rank e.rank = true ∧ c.helper.Inside l.entries.length (c.helper.next ki) ∧
      ka.prefixString = c.ka.prefixString ∧ c.retryEntry h l fuel = c.meet h e ki ka := by
  induction fuel generalizing c with
  | zero => exact absurd enough (Nat.not_lt_zero _)
  | succ fuel ih =>
    by_cases within : 0 ≤ c.ki ∧ c.ki < l.size
    · obtain ⟨low, high⟩ := within
      rw [← Leaf.length_entries] at high
      obtain ⟨e, at_, parts, inside'⟩ := c.helper.todo_next inside low high
      have mem := List.mem_of_getElem? at_
      have valid := holds.valid e mem
      have slot : l.slot (l.perm.get c.ki.toNat) = e := by
        rw [Leaf.getElem?_entries (by rw [← Leaf.length_entries]; omega)] at at_
        exact Option.some.inj at_
      have position : l.kp c.ki = some (l.perm.get c.ki.toNat) := if_pos ⟨low, Leaf.length_entries l ▸ high⟩
      obtain ⟨keylen, ka, loaded, same, before, isLayer, isKey⟩ := load_spec valid h c.ka
      rw [Scan.retryEntry, position]
      dsimp only
      rw [slot, loaded]
      dsimp only
      rw [c.helper.isDuplicate_eq, same, parts]
      change c.helper.Inside _ _ at inside'
      by_cases ahead : c.helper.ahead c.ka.rank e.rank = true
      · right
        refine ⟨e, c.ka, c.ki, mem, List.suffix_refl _, rfl, ahead, inside', rfl, ?_⟩
        rw [if_neg (by rw [show rank e.ikey0 e.keylenx = e.rank from rfl, ahead]; decide)]
        unfold Scan.meet
        dsimp only
        split
        · rename_i layer
          rw [isLayer layer]
        · rename_i key
          rw [isKey (Bool.eq_false_iff.mpr key)]
      · rw [if_pos (by rw [show rank e.ikey0 e.keylenx = e.rank from rfl, (Bool.not_eq_true _).mp ahead]; rfl)]
        rw [parts, List.length_cons] at enough
        have rest := ih (c := { c with ka, entry := e.lv, ki := c.helper.next c.ki }) inside' (Nat.lt_of_succ_lt_succ enough)
        dsimp only at rest
        rw [same, before] at rest
        rw [List.filter_cons, if_neg ahead]
        rcases rest with ⟨none_, ka', ki', entry, stopped, rank', before'⟩ |
          ⟨e', ka', ki', mem', suffix_, same, ahead', inside'', before', met⟩
        · exact .inl ⟨none_, ka', ki', entry, stopped, rank', before'⟩
        · exact .inr ⟨e', ka', ki', mem', suffix_.trans (List.suffix_cons _ _), same, ahead', inside'', before', met⟩
    · left
      have position : l.kp c.ki = none := if_neg within
      rw [← Leaf.length_entries] at within
      rw [c.helper.todo_end inside within, Scan.retryEntry, position]
      exact ⟨rfl, c.ka, c.ki, c.entry, rfl, rfl, rfl⟩

/-! ### Positions -/

/-- A scan in a leaf of a layer, with all that is in later leaves still to come. -/
structure Scan.Placed (t : Table V) (c : Scan V) (root : Node (Leaf V)) (l : Leaf V) (lo hi : Nat) : Prop extends
    LeafAt root c.n l lo hi where
  layer : t.layers c.root = some root
  place : c.ka.prefixString = c.root
  inside : c.helper.Inside l.entries.length c.ki
  later : ∀ e ∈ c.helper.slots (c.helper.later root.leaves c.n), c.helper.ahead c.ka.rank e.rank = true

def Scan.rest (c : Scan V) (root : Node (Leaf V)) (l : Leaf V) : List (Slot V) :=
  (c.helper.todo l.entries c.ki).filter (fun s => c.helper.ahead c.ka.rank s.rank) ++ c.helper.slots (c.helper.later root.leaves c.n)

theorem settle_stays {leaves : List (Leaf V)} (stays : ∀ next, leaves[n + 1]? = some next →
    k.ikey0.toNat < next.ikeyBound ∨ k.ikey0.toNat = next.ikeyBound ∧ k.len = 0) (helper : Helper) : helper.stable leaves k n = n := by
  cases helper with
  | forward => rfl
  | reverse upperBound =>
    show Helper.settle leaves k leaves.length n = n
    cases leaves.length with
    | zero => rfl
    | succ fuel =>
      rw [Helper.settle]
      cases next : leaves[n + 1]? with
      | none => rfl
      | some l => exact if_pos (stays l next)

/-- `stable` stays at the leaf that is responsible for the key. -/
theorem LeafAt.stable (at_ : LeafAt root n l lo hi) (below : k.ikey0.toNat < hi) (helper : Helper) :
    helper.stable root.leaves k n = n := by
  refine settle_stays (fun next there => .inl ?_) helper
  have parts : root.leaves.drop (n + 1) = next :: root.leaves.drop (n + 1 + 1) := by
    rw [← (List.getElem?_eq_some_iff.mp there).2, List.getElem_cons_drop]
  obtain ⟨mid, -, holds, -⟩ := parts ▸ at_.after
  rwa [holds.bound (Nat.zero_lt_of_lt at_.lt)]

/-- What is left where a scan comes to a leaf with a key. -/
theorem changed_spec (at_ : LeafAt root c.n l lo hi) (layer : t.layers c.root = some root) (place : c.ka.prefixString = c.root)
    (stays : c.helper.stable root.leaves c.ka c.n = c.n)
    (later : ∀ e ∈ c.helper.slots (c.helper.later root.leaves c.n), c.helper.ahead c.ka.rank e.rank = true) :
    ∃ c', c.changed t = some c' ∧ c' = { c with ki := c.helper.lower c.ka l, state := .findNext } ∧ c'.Placed t root l lo hi ∧
      c'.rest root l = (c.helper.order l.entries).filter (fun s => c.helper.ahead c.ka.rank s.rank) ++
        c.helper.slots (c.helper.later root.leaves c.n) := by
  obtain ⟨inside, passed⟩ := lower_spec at_.holds.sorted c.ka c.helper
  refine ⟨_, ?_, rfl, ⟨at_, layer, place, inside, later⟩, congrArg (· ++ _) passed⟩
  rw [Scan.changed, layer, Option.bind_some, stays]
  dsimp only
  rw [at_.leaf]
  rfl

/-! ### The next leaf -/

theorem advance_cases {leaves : List (Leaf V)} (helper : Helper) (h : Host) (k : RawKey) (leaf : leaves[n]? = some l) :
    (helper.later leaves n = [] ∧ (helper.advance h leaves n l k).1 = none) ∨
      ∃ n' l', leaves[n']? = some l' ∧ (helper.advance h leaves n l k).1 = some n' ∧
        helper.later leaves n = l' :: helper.later leaves n' := by
  have lt := (List.getElem?_eq_some_iff.mp leaf).1
  cases helper with
  | forward =>
    by_cases more : n + 1 < leaves.length
    · exact .inr ⟨n + 1, leaves[n + 1], List.getElem?_eq_getElem more, if_pos more, (List.getElem_cons_drop (h := more)).symm⟩
    · exact .inl ⟨List.drop_eq_nil_of_le (Nat.le_of_not_lt more), if_neg more⟩
  | reverse upperBound =>
    cases n with
    | zero => exact .inl ⟨rfl, rfl⟩
    | succ n =>
      have inside := Nat.lt_of_succ_lt lt
      refine .inr ⟨n, leaves[n], List.getElem?_eq_getElem inside, rfl, ?_⟩
      show (leaves.take (n + 1)).reverse = leaves[n] :: (leaves.take n).reverse
      rw [List.take_succ_eq_append_getElem inside, List.reverse_append]
      rfl

theorem prefix_advance {leaves : List (Leaf V)} (helper : Helper) (h : Host) (k : RawKey) :
    (helper.advance h leaves n l k).2.prefixString = k.prefixString := by
  cases helper with
  | forward => rfl
  | reverse upperBound => exact k.prefix_assignStoreIkey h _

/-- The key that a scan goes to the next leaf with, where it stays. -/
theorem LeafAt.advance (at_ : LeafAt root n l lo hi) (helper : Helper) (h : Host)
    (later : ∀ e ∈ helper.slots (helper.later root.leaves n), helper.ahead k.rank e.rank = true) {m : Nat}
    (next : (helper.advance h root.leaves n l k).1 = some m) :
    (∀ e ∈ helper.slots (helper.later root.leaves n), helper.ahead (helper.advance h root.leaves n l k).2.rank e.rank = true) ∧
      helper.stable root.leaves (helper.advance h root.leaves n l k).2 m = m := by
  cases helper with
  | forward => exact ⟨later, rfl⟩
  | reverse upperBound =>
    cases n with
    | zero => cases next
    | succ n =>
      obtain rfl : n = m := Option.some.inj next
      have positive : 0 < lo := by
        refine at_.before.lt_of_ne_nil fun none_ => ?_
        have inside := (List.getElem?_eq_some_iff.mp at_.leaf).1
        have length := congrArg List.length none_
        rw [List.length_take, List.length_nil] at length
        omega
      have small : lo < 2 ^ (8 * 8) := Nat.lt_of_lt_of_le at_.lt at_.after.le
      have bound := at_.holds.bound positive
      have ikey : (BitVec.ofNat (8 * 8) l.ikeyBound).toNat = l.ikeyBound := by
        rw [bound, BitVec.toNat_ofNat, Nat.mod_eq_of_lt small]
      refine ⟨fun e mem => ?_, settle_stays (fun next there => .inr ⟨?_, rfl⟩) _⟩
      · have before := at_.mem_before e (Helper.mem_slots_reverse.mp mem)
        show (upperBound || decide (e.rank < rank (BitVec.ofNat (8 * 8) l.ikeyBound).toNat 0)) = true
        rw [ikey, bound, Bool.or_eq_true, decide_eq_true_eq]
        exact .inr (rank_lt.mpr (.inl before))
      · obtain rfl := Option.some.inj (there.symm.trans at_.leaf)
        exact ikey

/-! ### `find_next` -/

theorem leaf_eq (layer : t.layers c.root = some root) (leaf : root.leaves[c.n]? = some l) :
    t.leaf c.root c.n = some (root.leaves, l) := by
  rw [Table.leaf, layer, Option.bind_some, leaf]
  rfl

section FindNext
variable {c' : Scan V} {ka : RawKey} (layer : t.layers c.root = some root) (leaf : root.leaves[c.n]? = some l)
    (alive : l.deleted = false)
  (stopped : c.retryEntry h l (l.size + 1) = c')
include layer leaf alive stopped

theorem findNext_met (state : c'.state ≠ .findNext) : c.findNext h t = some c' := by
  rw [Scan.findNext, leaf_eq layer leaf, Option.bind_some]
  dsimp only
  rw [alive, if_neg Bool.false_ne_true, stopped, if_pos state]

variable (state : c'.state = .findNext)
include state

theorem findNext_end (last : c'.helper.advance h root.leaves c'.n l c'.ka = (none, ka)) :
    c.findNext h t = some { c' with ka, helper := c'.helper.markKeyComplete, state := .up } := by
  rw [Scan.findNext, leaf_eq layer leaf, Option.bind_some]
  dsimp only
  rw [alive, if_neg Bool.false_ne_true, stopped, if_neg (not_not.mpr state), last]

theorem findNext_next (next : c'.helper.advance h root.leaves c'.n l c'.ka = (some n, ka)) :
    c.findNext h t = { c' with ka, n }.changed t := by
  rw [Scan.findNext, leaf_eq layer leaf, Option.bind_some]
  dsimp only
  rw [alive, if_neg Bool.false_ne_true, stopped, if_neg (not_not.mpr state), next]

end FindNext

/-- An entry that is still to come is met, or the scan goes on in the next leaf, or the layer is at its end. -/
theorem Scan.Placed.findNext (on : c.Placed t root l lo hi) (sound : root.Sound) (h : Host) :
    (∃ e ka ki, c.findNext h t = some (c.meet h e ki ka) ∧ e ∈ l.entries ∧ ka.prefixString = c.root ∧
      c.helper.Inside l.entries.length (c.helper.next ki) ∧
      (∃ A, c.helper.order l.entries = A ++ e :: c.helper.todo l.entries (c.helper.next ki)) ∧
      c.rest root l = e :: (c.helper.todo l.entries (c.helper.next ki) ++ c.helper.slots (c.helper.later root.leaves c.n))) ∨
    (∃ c' l' lo' hi', c.findNext h t = some c' ∧ c'.state = .findNext ∧ c'.root = c.root ∧ c'.nodeStack = c.nodeStack ∧
      c'.helper = c.helper ∧ c'.Placed t root l' lo' hi' ∧ c'.rest root l' = c.rest root l ∧
      (c.helper.later root.leaves c'.n).length < (c.helper.later root.leaves c.n).length) ∨
    (c.rest root l = [] ∧ ∃ c', c.findNext h t = some c' ∧ c'.state = .up ∧ c'.nodeStack = c.nodeStack ∧
      c'.ka.prefixString = c.root ∧ c'.helper = c.helper.complete) := by
  have alive := on.holds.alive.found.1
  have enough : (c.helper.todo l.entries c.ki).length < l.size + 1 := by
    rw [← Leaf.length_entries]
    exact Nat.lt_succ_of_le c.helper.length_todo_le
  rcases retryEntry_spec h on.holds on.inside enough with
    ⟨none_, ka, ki, entry, stopped, same, before⟩ | ⟨e, ka, ki, mem, suffix_, filtered, ahead, inside, before, met⟩
  · right
    have rest : c.rest root l = c.helper.slots (c.helper.later root.leaves c.n) := by rw [Scan.rest, none_, List.nil_append]
    have later : ∀ e ∈ c.helper.slots (c.helper.later root.leaves c.n), c.helper.ahead ka.rank e.rank = true := same ▸ on.later
    have prefix_ : (c.helper.advance h root.leaves c.n l ka).2.prefixString = c.root :=
      (prefix_advance c.helper h ka).trans (before.trans on.place)
    have ends := advance_cases c.helper h ka on.leaf
    have moves := fun m => on.toLeafAt.advance c.helper h later (m := m)
    generalize advanced : c.helper.advance h root.leaves c.n l ka = result at prefix_ ends moves
    obtain ⟨next, ka'⟩ := result
    rcases ends with ⟨last, rfl⟩ | ⟨n', l', leaf, rfl, split_⟩
    · right
      rw [rest, last]
      exact ⟨rfl, _, findNext_end on.layer on.leaf alive stopped rfl advanced, rfl, rfl, prefix_, rfl⟩
    · left
      obtain ⟨ahead, stays⟩ := moves n' rfl
      obtain ⟨lo', hi', at_⟩ := sound.leafAt leaf
      have parts : c.helper.slots (c.helper.later root.leaves c.n) =
          c.helper.order l'.entries ++ c.helper.slots (c.helper.later root.leaves n') := by
        rw [split_]
        exact List.flatMap_cons
      rw [parts, List.forall_mem_append] at ahead
      obtain ⟨c', changed, rfl, placed, rest'⟩ := changed_spec (c := { c with ka := ka', ki, entry, n := n', state := .findNext })
        at_ on.layer prefix_ stays ahead.2
      refine ⟨_, l', lo', hi', (findNext_next on.layer on.leaf alive stopped rfl advanced).trans changed, rfl, rfl, rfl,
        rfl, placed, ?_, ?_⟩
      · rw [rest', rest, parts]
        exact congrArg (· ++ _) (List.filter_eq_self.mpr ahead.1)
      · rw [split_]
        exact Nat.lt_succ_self _
  · left
    obtain ⟨A, parts⟩ := suffix_.trans (c.helper.todo_suffix on.inside)
    have tail := on.toLeafAt.tail_ahead sound parts.symm
    refine ⟨e, ka, ki, ?_, mem, before.trans on.place, inside, ⟨A, parts.symm⟩, ?_⟩
    · refine findNext_met on.layer on.leaf alive met ?_
      unfold Scan.meet
      dsimp only
      split
      · exact (by decide : ScanState.down ≠ .findNext)
      · exact (by decide : ScanState.emit ≠ .findNext)
    · have all : (e :: c.helper.todo l.entries (c.helper.next ki)).filter (fun s => c.helper.ahead c.ka.rank s.rank) =
          e :: c.helper.todo l.entries (c.helper.next ki) := by
        refine List.filter_eq_self.mpr fun b there => ?_
        rcases List.mem_cons.mp there with rfl | there
        · exact ahead
        · exact Helper.ahead_trans ahead (tail b (List.mem_append_left _ there))
      rw [Scan.rest, filtered, all]
      rfl

end Masstree.Tree
