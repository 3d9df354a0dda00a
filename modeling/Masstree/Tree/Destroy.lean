import Masstree.Lib.Workq
import Masstree.Tree.Runs
import Mathlib.Data.Set.Finite.Lattice

/-!
# Destroying a table

`destroy` comes to every node that the layers' slots lead to, and to none twice. A slot that still names the former root of its
layer leads past the new one. The tables come from runs without suffix bags (see `suffixes_kept_of_short`).
-/

namespace Masstree.Tree
open Msgpack (Bytes toNetOrder)

variable {V L : Type}

/-- A node of a table: the prefix of its layer, and which children lead to it from the layer's root. -/
structure Address where
  at_ : Bytes
  way : List Nat
  deriving DecidableEq

def Node.follow : Node L → List Nat → Option (Node L)
  | n, [] => some n
  | .leaf _, _ :: _ => none
  | .internode p, i :: way => (p.child i).bind fun m => m.follow way

namespace Table

def node (t : Table V) (a : Address) : Option (Node (Leaf V)) := (t.layers a.at_).bind fun root => root.follow a.way

/-- The node that the slot of a layer names. -/
def named (t : Table V) (at_ : Bytes) : Address := ⟨at_, List.replicate (t.behind at_) 0⟩

/-- What `destroy_rcu_callback` enqueues at a node. -/
def below (t : Table V) (a : Address) : List Address :=
  match t.node a with
  | none => []
  | some (.leaf l) => (l.entries.filter Slot.isLayer).map fun s => t.named (a.at_ ++ toNetOrder 8 s.ikey0)
  | some (.internode p) => (List.range (p.size + 1)).filterMap fun i => (p.child i).map fun _ => ⟨a.at_, a.way ++ [i]⟩

/-- `destroy` and the second call of its callback, from the root on. The parent pointers become the links of the work queue, and
`done` are the nodes that have been deallocated. -/
def destroy (t : Table V) (parent : Address → Option Address) (fuel : Nat) : Option (Workq Address) :=
  Workq.loop t.below fuel (.start ⟨[], []⟩ parent)

end Table

/-! ### Ways from a root -/

section Ways
variable {P : Nat → Nat → L → Prop} {lo hi : Nat} {n m : Node L} {p : Internode (Node L)} {way way' : List Nat} {i : Nat} {l l' : L}

theorem follow_append : n.follow (way ++ [i]) = (n.follow way).bind fun m => m.follow [i] := by
  induction way generalizing n with
  | nil => rfl
  | cons j way ih =>
    cases n with
    | leaf l => rfl
    | internode p =>
      rw [List.cons_append, Node.follow, Node.follow, Option.bind_assoc]
      congr 1
      funext m
      exact ih

theorem follow_child : (Node.internode p).follow [i] = p.child i := by
  rw [Node.follow]
  cases p.child i <;> rfl

/-- The leaf is one of the tree, and responsible for part of the range. -/
theorem follow_leaf (wf : n.Wf P lo hi) (there : n.follow way = some (.leaf l)) :
    l ∈ n.leaves ∧ ∃ lo' hi', lo ≤ lo' ∧ hi' ≤ hi ∧ P lo' hi' l := by
  induction way generalizing n lo hi with
  | nil =>
    obtain rfl := Option.some.inj there
    exact ⟨List.mem_singleton_self l, lo, hi, Nat.le_refl _, Nat.le_refl _, (wf_leaf.mp wf).2⟩
  | cons i way ih =>
    cases n with
    | leaf l => cases there
    | internode p =>
      obtain ⟨m, child, there⟩ := Option.bind_eq_some_iff.mp there
      obtain ⟨lo', hi', low, high, wf', -, -⟩ := wf.child child
      obtain ⟨mem, lo'', hi'', low', high', holds⟩ := ih wf' there
      refine ⟨?_, lo'', hi'', Nat.le_trans low low', Nat.le_trans high' high, holds⟩
      obtain ⟨A, a, B, cells, -⟩ := Internode.cells_of_child child lo
      rw [leaves_internode p lo, cells, cellLeaves_append, cellLeaves_cons, firstLeaves]
      exact List.mem_append_right _ (List.mem_append_left _ mem)

/-- Every leaf of the tree has a way to it. -/
theorem exists_follow (wf : n.Wf P lo hi) (mem : l ∈ n.leaves) : ∃ way, n.follow way = some (.leaf l) := by
  induction height : n.height using Nat.strongRecOn generalizing n lo hi with
  | ind k ih =>
    cases n with
    | leaf l' =>
      obtain rfl := List.mem_singleton.mp mem
      exact ⟨[], rfl⟩
    | internode p =>
      rw [leaves_internode p lo] at mem
      obtain ⟨⟨a, c⟩, cell, mem⟩ := List.mem_flatMap.mp mem
      cases c with
      | none => cases mem
      | some m =>
        obtain ⟨A, B, cells⟩ := List.append_of_mem cell
        have child := Internode.child_at cells
        obtain ⟨lo', hi', -, -, wf', lower, -⟩ := wf.child child
        obtain ⟨way, there⟩ := ih m.height (height ▸ lower) wf' mem rfl
        refine ⟨A.length :: way, ?_⟩
        rw [Node.follow, child, Option.bind_some, there]

/-- A tree has finitely many nodes. -/
theorem finite_follow (wf : n.Wf P lo hi) : {way | (n.follow way).isSome}.Finite := by
  induction height : n.height using Nat.strongRecOn generalizing n lo hi with
  | ind k ih =>
    cases n with
    | leaf l =>
      refine (Set.finite_singleton []).subset ?_
      intro way there
      cases way with
      | nil => rfl
      | cons i way => cases there
    | internode p =>
      have inner : ∀ i ≤ p.size, {way | ((p.child i).bind fun m => m.follow way).isSome}.Finite := by
        intro i _
        cases child : p.child i with
        | none => exact Set.finite_empty.subset fun way there => by cases there
        | some m =>
          obtain ⟨lo', hi', -, -, wf', lower, -⟩ := wf.child child
          exact ih m.height (height ▸ lower) wf' rfl
      refine ((Set.finite_singleton []).union (((Set.finite_le_nat p.size).biUnion fun i le =>
        (inner i le).image (List.cons i)))).subset ?_
      intro way there
      cases way with
      | nil => exact .inl rfl
      | cons i way =>
        have le : i ≤ p.size := by
          obtain ⟨m', inside⟩ := Option.isSome_iff_exists.mp there
          obtain ⟨m, child, -⟩ := Option.bind_eq_some_iff.mp inside
          obtain ⟨A, a, B, cells, rfl⟩ := Internode.cells_of_child child lo
          have length := p.length_cells lo
          rw [cells, List.length_append, List.length_cons] at length
          omega
        exact .inr (Set.mem_biUnion le ⟨way, there, rfl⟩)

end Ways

section Leaves
variable {n : Node (Leaf V)} {lo hi : Nat} {way way' : List Nat} {l l' : Leaf V} {s s' : Slot V}

theorem follow_range (wf : n.Wf Leaf.Holds lo hi) (there : n.follow way = some (.leaf l)) (mem : s ∈ l.entries) :
    lo ≤ s.ikey0 ∧ s.ikey0 < hi := by
  obtain ⟨-, lo', hi', low, high, holds⟩ := follow_leaf wf there
  obtain ⟨above, below⟩ := holds.range s mem
  exact ⟨Nat.le_trans low above, Nat.lt_of_lt_of_le below high⟩

/-- Leaves with slots of the same ikey are the same one. -/
theorem follow_unique (wf : n.Wf Leaf.Holds lo hi) (there : n.follow way = some (.leaf l)) (there' : n.follow way' = some (.leaf l'))
    (mem : s ∈ l.entries) (mem' : s' ∈ l'.entries) (same : s'.ikey0 = s.ikey0) : way' = way := by
  induction way generalizing n lo hi way' with
  | nil =>
    obtain rfl := Option.some.inj there
    cases way' with
    | nil => rfl
    | cons i way' => cases there'
  | cons i way ih =>
    cases n with
    | leaf l => cases there
    | internode p =>
      cases way' with
      | nil => cases there'
      | cons i' way' =>
        obtain ⟨m, child, inner⟩ := Option.bind_eq_some_iff.mp there
        obtain ⟨m', child', inner'⟩ := Option.bind_eq_some_iff.mp there'
        obtain ⟨a, b, -, -, wfM, -, upper⟩ := wf.child child
        obtain ⟨a', b', -, -, wfM', -, upper'⟩ := wf.child child'
        obtain ⟨low, high⟩ := follow_range wfM inner mem
        obtain ⟨low', high'⟩ := follow_range wfM' inner' mem'
        obtain rfl : i' = i := by
          rw [← upper _ low high, ← upper' _ low' high', same]
        obtain rfl := Option.some.inj (child.symm.trans child')
        rw [ih wfM inner inner']

end Leaves

/-! ### Slices -/

theorem toNetOrder_makeComparable {s : Bytes} (long : 8 ≤ s.length) : toNetOrder 8 (makeComparable s) = s.take 8 := by
  have whole : makeComparable s = Msgpack.netOrder (s.take 8) := by
    rw [makeComparable, show 8 - s.length = 0 by omega, List.replicate_zero, List.append_nil]
  have length : (s.take 8).length = 8 := List.length_take_of_le long
  refine netOrder_inj (by rw [Msgpack.toNetOrder_length, length]) ?_
  rw [Msgpack.netOrder_toNetOrder 8 (makeComparable_lt s), whole]

theorem makeComparable_toNetOrder {ikey : Nat} (small : ikey < 2 ^ 64) (rest : Bytes) :
    makeComparable (toNetOrder 8 ikey ++ rest) = ikey := by
  have length : (toNetOrder 8 ikey).length = 8 := Msgpack.toNetOrder_length 8 ikey
  rw [makeComparable, List.take_left' length, List.length_append, length, show 8 - (8 + rest.length) = 0 by omega,
    List.replicate_zero, List.append_nil, Msgpack.netOrder_toNetOrder 8 small]

theorem Slot.Valid.ikey_lt {s : Slot V} (valid : s.Valid) : s.ikey0 < 2 ^ 64 := by
  cases valid with
  | key ka v =>
    rw [show (Slot.holding ka (some v)).ikey0 = ka.ikey from ikey_ofKey (V := V) ka]
    exact makeComparable_lt _
  | layer ka ksuf long => exact makeComparable_lt _

/-- A slot is found again by its slice. -/
theorem Slot.Valid.same_slice {s s' : Slot V} (valid : s.Valid) (valid' : s'.Valid)
    (same : toNetOrder 8 s'.ikey0 = toNetOrder 8 s.ikey0) : s'.ikey0 = s.ikey0 := by
  rw [← makeComparable_toNetOrder valid.ikey_lt [], ← makeComparable_toNetOrder valid'.ikey_lt [], same]

namespace Table

variable {t : Table V} {at_ : Bytes} {root : Node (Leaf V)} {s s' : Slot V} {a b c : Address} {j : Nat}

/-- A key that goes on after the slice of a slot. -/
theorem layer_key (aligned : at_.length = 8 * j) (valid : s.Valid) (layer : s.isLayer = true) :
    8 * (j + 1) < (at_ ++ toNetOrder 8 s.ikey0 ++ [0]).length ∧ (at_ ++ toNetOrder 8 s.ikey0 ++ [0]).take (8 * j) = at_ ∧
      (at_ ++ toNetOrder 8 s.ikey0 ++ [0]).take (8 * (j + 1)) = at_ ++ toNetOrder 8 s.ikey0 ∧
        (Key.after (at_ ++ toNetOrder 8 s.ikey0 ++ [0]) j).rank = s.rank := by
  have isLayer := (Tcursor.isLayer_iff valid).mp layer
  have length : (toNetOrder 8 s.ikey0).length = 8 := Msgpack.toNetOrder_length 8 _
  have whole : (at_ ++ toNetOrder 8 s.ikey0).length = 8 * (j + 1) := by
    rw [List.length_append, aligned, length]
    rfl
  refine ⟨?_, ?_, ?_, ?_⟩
  · rw [List.length_append, whole]
    exact Nat.lt_succ_self _
  · rw [List.append_assoc]
    exact List.take_left' aligned
  · exact List.take_left' whole
  · have rest : (Key.after (at_ ++ toNetOrder 8 s.ikey0 ++ [0]) j).s = toNetOrder 8 s.ikey0 ++ [0] := by
      show List.drop _ _ = _
      rw [List.append_assoc]
      exact List.drop_left' aligned
    rw [Key.rank, Key.ikey, Key.length, rest, makeComparable_toNetOrder valid.ikey_lt, Slot.rank, isLayer, List.length_append, length]
    rfl

/-- The layer of a slot is there. -/
theorem Ok.layer_of_slot (ok : t.Ok) (layer : t.layers at_ = some root) (mem : s ∈ root.entries) (isLayer : s.isLayer = true) :
    (t.layers (at_ ++ toNetOrder 8 s.ikey0)).isSome := by
  obtain ⟨j, aligned⟩ := ok.aligned at_ (Option.isSome_iff_exists.mpr ⟨root, layer⟩)
  have sound := ok.sound _ _ layer
  obtain ⟨more, here, there, rank⟩ := layer_key aligned (sound.valid s mem) isLayer
  rw [← there]
  refine (ok.linked _ j more).mpr ⟨s, ?_, (Tcursor.isLayer_iff (sound.valid s mem)).mp isLayer⟩
  rw [here, rank, Layers.slots_eq layer, find_eq_some sound.sorted]
  exact ⟨mem, rfl⟩

/-- A layer below the top has a slot in the layer before. -/
theorem Ok.above (ok : t.Ok) (ne : at_ ≠ []) (there : (t.layers at_).isSome) : ∃ before root s, t.layers before = some root ∧
    s ∈ root.entries ∧ s.isLayer = true ∧ at_ = before ++ toNetOrder 8 s.ikey0 := by
  obtain ⟨a, aligned⟩ := ok.aligned at_ there
  obtain ⟨j, rfl⟩ : ∃ j, a = j + 1 := ⟨a - 1, by have := List.length_pos_iff.mpr ne; omega⟩
  have more : 8 * (j + 1) < (at_ ++ [0]).length := by
    rw [List.length_append, aligned]
    exact Nat.lt_succ_self _
  have whole : (at_ ++ [0]).take (8 * (j + 1)) = at_ := List.take_left' aligned
  obtain ⟨s, found, isLayer⟩ := (ok.linked _ j more).mp (whole.symm ▸ there)
  obtain ⟨root, layer, found'⟩ := Option.bind_eq_some_iff.mp found
  have sound := ok.sound _ _ layer
  obtain ⟨mem, rank⟩ := (find_eq_some sound.sorted).mp found'
  refine ⟨_, root, s, layer, mem, (Tcursor.isLayer_iff (sound.valid s mem)).mpr isLayer, ?_⟩
  have ikey : s.ikey0 = makeComparable ((at_ ++ [0]).drop (8 * j)) := (rank_inj.mp rank).1
  rw [ikey, toNetOrder_makeComparable (by rw [List.length_drop]; omega), ← List.take_add]
  exact whole.symm

/-! ### The forest of the nodes -/

theorem mem_below : b ∈ t.below a ↔
    (∃ l s, t.node a = some (.leaf l) ∧ s ∈ l.entries ∧ s.isLayer = true ∧ b = t.named (a.at_ ++ toNetOrder 8 s.ikey0)) ∨
      ∃ p i, t.node a = some (.internode p) ∧ (p.child i).isSome ∧ b = ⟨a.at_, a.way ++ [i]⟩ := by
  unfold below
  cases here : t.node a with
  | none => simp
  | some n =>
    cases n with
    | leaf l =>
      simp only [List.mem_map, List.mem_filter]
      constructor
      · rintro ⟨s, ⟨mem, layer⟩, rfl⟩
        exact .inl ⟨l, s, rfl, mem, layer, rfl⟩
      · rintro (⟨l', s, same, mem, layer, rfl⟩ | ⟨p, i, other, -⟩)
        · obtain rfl := Node.leaf.inj (Option.some.inj same)
          exact ⟨s, ⟨mem, layer⟩, rfl⟩
        · cases other
    | internode p =>
      simp only [List.mem_filterMap, List.mem_range, Option.map_eq_some_iff]
      constructor
      · rintro ⟨i, -, m, child, rfl⟩
        exact .inr ⟨p, i, rfl, Option.isSome_iff_exists.mpr ⟨m, child⟩, rfl⟩
      · rintro (⟨l, s, other, -⟩ | ⟨p', i, same, child, rfl⟩)
        · cases other
        · obtain rfl := Node.internode.inj (Option.some.inj same)
          obtain ⟨m, child'⟩ := Option.isSome_iff_exists.mp child
          exact ⟨i, Nat.lt_succ_of_le (Internode.child_le child), m, child', rfl⟩

/-- The slots of a leaf are in its layer. -/
theorem Ok.node_leaf (ok : t.Ok) {l : Leaf V} (here : t.node a = some (.leaf l)) : ∃ root, t.layers a.at_ = some root ∧
    root.follow a.way = some (.leaf l) ∧ ∀ s ∈ l.entries, s ∈ root.entries := by
  obtain ⟨root, layer, there⟩ := Option.bind_eq_some_iff.mp here
  obtain ⟨mem, -⟩ := follow_leaf (ok.sound _ _ layer) there
  exact ⟨root, layer, there, fun s mem' => List.mem_flatMap.mpr ⟨l, mem, mem'⟩⟩

/-- The slot of each layer below the top names its root, or the first child of that. -/
def Names (t : Table V) : Prop :=
  ∀ at_ ≠ [], ∀ root, t.layers at_ = some root → t.behind at_ = 0 ∨ t.behind at_ = 1 ∧ (root.follow [0]).isSome

theorem Names.follow (names : t.Names) (ne : at_ ≠ []) (layer : t.layers at_ = some root) :
    (root.follow (List.replicate (t.behind at_) 0)).isSome := by
  rcases names at_ ne root layer with root_ | ⟨child, there⟩
  · rw [root_]
    cases root <;> rfl
  · rw [child]
    exact there

/-- What is reached is a node, in its layer below the one that the slot names. -/
theorem reach_spec (ok : t.Ok) (names : t.Names) (reach : Workq.Reach t.below ⟨[], []⟩ a) :
    (t.node a).isSome ∧ (a.at_ ≠ [] → List.replicate (t.behind a.at_) 0 <+: a.way) := by
  induction reach with
  | root =>
    obtain ⟨root, top⟩ := Option.isSome_iff_exists.mp ok.top
    refine ⟨?_, fun ne => absurd rfl ne⟩
    rw [node, top]
    rfl
  | @step a b _ below ih =>
    rcases mem_below.mp below with ⟨l, s, here, mem, isLayer, rfl⟩ | ⟨p, i, here, child, rfl⟩
    · obtain ⟨root, layer, -, entries⟩ := ok.node_leaf here
      obtain ⟨root', layer'⟩ := Option.isSome_iff_exists.mp (ok.layer_of_slot layer (entries s mem) isLayer)
      refine ⟨?_, fun _ => List.prefix_rfl⟩
      have ne : a.at_ ++ toNetOrder 8 s.ikey0 ≠ [] := by
        refine List.ne_nil_of_length_pos ?_
        rw [List.length_append, Msgpack.toNetOrder_length]
        omega
      have named_ := names.follow ne layer'
      show ((t.layers (a.at_ ++ toNetOrder 8 s.ikey0)).bind fun root => root.follow _).isSome
      rw [layer']
      exact named_
    · refine ⟨?_, fun ne => (ih.2 ne).trans (List.prefix_append _ _)⟩
      obtain ⟨root, layer, there⟩ := Option.bind_eq_some_iff.mp here
      show ((t.layers a.at_).bind fun root => root.follow (a.way ++ [i])).isSome
      rw [layer, Option.bind_some, follow_append, there, Option.bind_some, follow_child]
      exact child

/-- Slots that name the same node have the same slice, in leaves of the same layer. -/
theorem slices_of_named (valid : s.Valid) (valid' : s'.Valid)
    (same : t.named (a.at_ ++ toNetOrder 8 s.ikey0) = t.named (b.at_ ++ toNetOrder 8 s'.ikey0)) : a.at_ = b.at_ ∧
    s'.ikey0 = s.ikey0 := by
  have whole : a.at_ ++ toNetOrder 8 s.ikey0 = b.at_ ++ toNetOrder 8 s'.ikey0 := congrArg Address.at_ same
  obtain ⟨layer, slice⟩ := List.append_inj' whole (by rw [Msgpack.toNetOrder_length, Msgpack.toNetOrder_length])
  exact ⟨layer, valid.same_slice valid' slice.symm⟩

/-- The way to the node that a slot names does not go through the layer. -/
theorem named_ne_child (ok : t.Ok) (names : t.Names) (reach : Workq.Reach t.below ⟨[], []⟩ b) (ne : at_ ≠ []) (i : Nat) :
    t.named at_ ≠ ⟨b.at_, b.way ++ [i]⟩ := by
  intro same
  obtain ⟨layer, way⟩ := Address.mk.inj same
  subst layer
  have before := ((reach_spec ok names reach).2 ne).length_le
  rw [way, List.length_append] at before
  exact Nat.not_succ_le_self _ before

theorem below_nodup (ok : t.Ok) (a : Address) : (t.below a).Nodup := by
  unfold below
  cases here : t.node a with
  | none => exact List.nodup_nil
  | some n =>
    cases n with
    | leaf l =>
      obtain ⟨root, layer, there, entries⟩ := ok.node_leaf here
      have sound := ok.sound _ _ layer
      obtain ⟨-, _, _, -, -, holds⟩ := follow_leaf sound there
      have slots : l.entries.Nodup := by
        refine List.Pairwise.imp ?_ holds.sorted
        rintro s _ less rfl
        exact Nat.lt_irrefl _ less
      refine List.Nodup.map_on (fun s mem s' mem' same => ?_) (slots.filter _)
      obtain ⟨mem, isLayer⟩ := List.mem_filter.mp mem
      obtain ⟨mem', isLayer'⟩ := List.mem_filter.mp mem'
      have valid := sound.valid s (entries s mem)
      have valid' := sound.valid s' (entries s' mem')
      obtain ⟨-, ikey⟩ := slices_of_named (b := a) valid valid' same
      have rank : s'.rank = s.rank := by
        rw [Slot.rank, Slot.rank, ikey, (Tcursor.isLayer_iff valid).mp isLayer, (Tcursor.isLayer_iff valid').mp isLayer']
      have found := (find_eq_some holds.sorted).mpr ⟨mem, rfl⟩
      exact Option.some.inj (found.symm.trans ((find_eq_some holds.sorted).mpr ⟨mem', rank⟩))
    | internode p =>
      refine List.nodup_range.filterMap fun i i' b child child' => ?_
      obtain ⟨-, -, rfl⟩ := Option.map_eq_some_iff.mp child
      obtain ⟨-, -, same⟩ := Option.map_eq_some_iff.mp child'
      obtain ⟨-, last⟩ := List.append_inj' (congrArg Address.way same) rfl
      exact (List.singleton_inj.mp last).symm

theorem below_unique (ok : t.Ok) (names : t.Names) (reachA : Workq.Reach t.below ⟨[], []⟩ a) (reachB : Workq.Reach t.below ⟨[], []⟩ b)
    (belowA : c ∈ t.below a) (belowB : c ∈ t.below b) : a = b := by
  have slice_ne : ∀ (at_ : Bytes) (ikey : Nat), at_ ++ toNetOrder 8 ikey ≠ [] := by
    intro at_ ikey
    refine List.ne_nil_of_length_pos ?_
    rw [List.length_append, Msgpack.toNetOrder_length]
    omega
  rcases mem_below.mp belowA with ⟨l, s, here, mem, -, rfl⟩ | ⟨p, i, -, -, rfl⟩
  · rcases mem_below.mp belowB with ⟨l', s', here', mem', -, same⟩ | ⟨p, i, -, -, same⟩
    · obtain ⟨root, layer, there, entries⟩ := ok.node_leaf here
      obtain ⟨root', layer', there', entries'⟩ := ok.node_leaf here'
      have sound := ok.sound _ _ layer
      obtain ⟨at_, ikey⟩ := slices_of_named (sound.valid s (entries s mem)) ((ok.sound _ _ layer').valid s' (entries' s' mem')) same
      rw [at_, layer'] at layer
      obtain rfl := Option.some.inj layer
      have way := follow_unique sound there there' mem mem' ikey
      cases a
      cases b
      exact Address.mk.injEq .. ▸ ⟨at_, way.symm⟩
    · exact absurd same (named_ne_child ok names reachB (slice_ne _ _) i)
  · rcases mem_below.mp belowB with ⟨l', s', -, -, -, same⟩ | ⟨p', i', -, -, same⟩
    · exact absurd same.symm (named_ne_child ok names reachA (slice_ne _ _) i)
    · obtain ⟨at_, way⟩ := Address.mk.inj same
      obtain ⟨way, -⟩ := List.append_inj' way rfl
      cases a
      cases b
      exact Address.mk.injEq .. ▸ ⟨at_, way⟩

theorem forest (ok : t.Ok) (names : t.Names) : Workq.Forest t.below ⟨[], []⟩ where
  nodup := fun a _ => below_nodup ok a
  unique := fun a b c reachA reachB belowA belowB => below_unique ok names reachA reachB belowA belowB
  rootless := by
    intro a _ below
    rcases mem_below.mp below with ⟨l, s, -, -, -, same⟩ | ⟨p, i, -, -, same⟩
    · have length := congrArg (fun a : Address => a.at_.length) same
      change 0 = (a.at_ ++ toNetOrder 8 s.ikey0).length at length
      rw [List.length_append, Msgpack.toNetOrder_length] at length
      omega
    · have length := congrArg (fun a : Address => a.way.length) same
      change 0 = (a.way ++ [i]).length at length
      rw [List.length_append] at length
      exact absurd length (by simp)

/-! ### What is reached -/

theorem finite_reach (ok : t.Ok) (names : t.Names) : {a | Workq.Reach t.below ⟨[], []⟩ a}.Finite := by
  have ways : ∀ at_ ∈ {at_ | (t.layers at_).isSome}, {way | (t.node ⟨at_, way⟩).isSome}.Finite := by
    intro at_ there
    obtain ⟨root, layer⟩ := Option.isSome_iff_exists.mp there
    refine (finite_follow (ok.sound _ _ layer)).subset fun way isSome => ?_
    rwa [Set.mem_ofPred_eq, node, layer] at isSome
  refine (ok.finite.biUnion fun at_ there => (ways at_ there).image (Address.mk at_)).subset ?_
  intro a reach
  have isSome := (reach_spec ok names reach).1
  refine Set.mem_biUnion (x := a.at_) ?_ ⟨a.way, isSome, rfl⟩
  obtain ⟨n, there⟩ := Option.isSome_iff_exists.mp isSome
  obtain ⟨root, layer, -⟩ := Option.bind_eq_some_iff.mp there
  exact Option.isSome_iff_exists.mpr ⟨root, layer⟩

/-- From the root of a layer its nodes are reached. -/
theorem reach_node (reach : Workq.Reach t.below ⟨[], []⟩ ⟨at_, []⟩) {way : List Nat} (there : (t.node ⟨at_, way⟩).isSome) :
    Workq.Reach t.below ⟨[], []⟩ ⟨at_, way⟩ := by
  induction way using List.reverseRecOn with
  | nil => exact reach
  | append_singleton way i ih =>
    obtain ⟨m, there⟩ := Option.isSome_iff_exists.mp there
    obtain ⟨root, layer, there⟩ := Option.bind_eq_some_iff.mp there
    change root.follow (way ++ [i]) = some m at there
    rw [follow_append] at there
    obtain ⟨n, before, child⟩ := Option.bind_eq_some_iff.mp there
    have here : t.node ⟨at_, way⟩ = some n := by
      rw [node, layer, Option.bind_some, before]
    cases n with
    | leaf l => cases child
    | internode p =>
      rw [follow_child] at child
      exact (ih (Option.isSome_iff_exists.mpr ⟨_, here⟩)).step
        (mem_below.mpr (.inr ⟨p, i, here, Option.isSome_iff_exists.mpr ⟨m, child⟩, rfl⟩))

theorem reach_layer (ok : t.Ok) (present : ∀ at_ ≠ [], (t.layers at_).isSome → t.behind at_ = 0) (there : (t.layers at_).isSome) :
    Workq.Reach t.below ⟨[], []⟩ ⟨at_, []⟩ := by
  induction length : at_.length using Nat.strongRecOn generalizing at_ with
  | ind k ih =>
    by_cases top : at_ = []
    · rw [top]
      exact .root
    · obtain ⟨before, root, s, layer, mem, isLayer, rfl⟩ := ok.above top there
      obtain ⟨l, leaf, mem⟩ := List.mem_flatMap.mp mem
      obtain ⟨way, follow⟩ := exists_follow (ok.sound _ _ layer) leaf
      have here : t.node ⟨before, way⟩ = some (.leaf l) := by
        rw [node, layer, Option.bind_some, follow]
      rw [List.length_append, Msgpack.toNetOrder_length] at length
      have reach := ih before.length (by omega) (Option.isSome_iff_exists.mpr ⟨root, layer⟩) rfl
      have names := mem_below.mpr (.inl ⟨l, s, here, mem, isLayer, rfl⟩)
      rw [named, present _ top there, List.replicate_zero] at names
      exact (reach_node reach (Option.isSome_iff_exists.mpr ⟨_, here⟩)).step names

/-- Every node is reached where every slot names the root of its layer. -/
theorem reach_iff (ok : t.Ok) (names : t.Names) :
    (∀ a, (t.node a).isSome → Workq.Reach t.below ⟨[], []⟩ a) ↔ ∀ at_ ≠ [], (t.layers at_).isSome → t.behind at_ = 0 := by
  constructor
  · intro all at_ ne there
    obtain ⟨root, layer⟩ := Option.isSome_iff_exists.mp there
    have reach := all ⟨at_, []⟩ (by
      rw [node, layer]
      rfl)
    have before := (reach_spec ok names reach).2 ne
    have zero := List.length_eq_zero_iff.mpr (List.prefix_nil.mp before)
    rwa [List.length_replicate] at zero
  · intro present a there
    obtain ⟨n, there'⟩ := Option.isSome_iff_exists.mp there
    obtain ⟨root, layer, -⟩ := Option.bind_eq_some_iff.mp there'
    exact reach_node (reach_layer ok present (Option.isSome_iff_exists.mpr ⟨root, layer⟩)) there

/-! ### What slots name -/

variable {t' : Table V} {p : Place V} {key : Bytes} {l left right : Leaf V}

theorem height_plug {n n' : Node (Leaf V)} {path : List (Frame (Leaf V))} (same : n.height = n'.height) :
    (plug n path).height = (plug n' path).height := by
  induction path generalizing n n' with
  | nil => exact same
  | cons f path ih => exact ih (by rw [Node.height, Node.height, Internode.height_setChild, Internode.height_setChild])

/-- A root above the old one has the old one's left part as its first child. -/
theorem insertSplit_first {splitType height x : Nat} {n child : Node (Leaf V)} {path : List (Frame (Leaf V))} (old : Node (Leaf V)) :
    (insertSplit splitType height n x child path).height ≤ (plug old path).height ∨
      ((insertSplit splitType height n x child path).follow [0]).isSome := by
  induction path generalizing height n x child old with
  | nil => exact .inr rfl
  | cons f path ih =>
    rw [insertSplit]
    dsimp only
    split
    · refine .inl (Nat.le_of_eq (height_plug ?_))
      rw [Node.height, Node.height, Internode.height_setChild]
      exact (Internode.height_setChild ..).trans (Internode.height_setChild ..)
    · split
      · refine .inl (Nat.le_of_eq (height_plug ?_))
        rw [Node.height, Node.height, Internode.height_setChild]
        exact Internode.height_setChild ..
      · exact ih _

theorem Names.of (names : t.Names) (same : ∀ at_ ≠ [], ∀ root, t'.layers at_ = some root →
    t'.behind at_ = 0 ∨ t'.behind at_ = t.behind at_ ∧ t.layers at_ = some root) : t'.Names := by
  intro at_ ne root layer
  rcases same at_ ne root layer with zero | ⟨behind, before⟩
  · exact .inl zero
  · rw [behind]
    exact names at_ ne root before

/-- The slots on the way name the roots of their layers afterwards. -/
theorem Names.arrive (names : t.Names) (p : Place V) : (t.arrive p).Names := by
  refine names.of fun at_ ne root layer => ?_
  change t.layers at_ = some root at layer
  show (if at_ <+: p.ka.prefixString then t.behind at_ - 1 else t.behind at_) = 0 ∨ _
  by_cases passed : at_ <+: p.ka.prefixString
  · left
    rw [if_pos passed]
    rcases names at_ ne root layer with zero | ⟨one, -⟩
    · rw [zero]
    · rw [one]
  · exact .inr ⟨if_neg passed, layer⟩

theorem Names.arrived (names : t.Names) (found : t.locate key = some p) (ne : p.ka.prefixString ≠ []) :
    (t.arrive p).behind p.ka.prefixString = 0 := by
  obtain ⟨root, layer, -⟩ := Layers.locate_at found
  show (if _ then t.behind p.ka.prefixString - 1 else _) = 0
  rw [if_pos List.prefix_rfl]
  rcases names _ ne root layer with zero | ⟨one, -⟩
  · rw [zero]
  · rw [one]

theorem Names.setLayer (names : t.Names) (here : at_ ≠ [] → t.behind at_ = 0) (root : Node (Leaf V)) : (t.setLayer at_ root).Names := by
  refine names.of fun at' ne root' layer => ?_
  by_cases same : at' = at_
  · subst same
    exact .inl (here ne)
  · change Function.update t.layers at_ (some root) at' = some root' at layer
    rw [Function.update_of_ne same] at layer
    exact .inr ⟨rfl, layer⟩

theorem Names.setSplit (names : t.Names) (here : p.ka.prefixString ≠ [] → t.behind p.ka.prefixString = 0)
    (layer : t.layers p.ka.prefixString = some (plug (.leaf p.n) p.path)) (splitType : Nat) (left right : Leaf V) :
    (t.setSplit p splitType left right).Names := by
  unfold Table.setSplit
  dsimp only
  rw [layer, Option.elim]
  split
  · rename_i new
    intro at_ ne root layer'
    by_cases same : at_ = p.ka.prefixString
    · subst same
      change Function.update t.layers _ _ _ = _ at layer'
      rw [Function.update_self] at layer'
      obtain rfl := Option.some.inj layer'
      right
      refine ⟨?_, (insertSplit_first _).resolve_left (Nat.not_le_of_lt new)⟩
      show Function.update t.behind _ _ _ = 1
      rw [Function.update_self, here ne]
    · change Function.update t.layers _ _ at_ = _ at layer'
      rw [Function.update_of_ne same] at layer'
      show Function.update t.behind _ _ at_ = 0 ∨ Function.update t.behind _ _ at_ = 1 ∧ _
      rw [Function.update_of_ne same]
      exact names at_ ne root layer'
  · exact names.setLayer here _

/-- The layers that are hung up have a prefix of the key. -/
theorem hang_prefixes {layers : Layers V} {ka : Key} {twig : List (Leaf V)} (layer : layers.hang ka twig at_ = some root) :
    layers at_ = some root ∨ ka.prefixString.length ≤ at_.length ∧ at_ <+: ka.fullString := by
  induction twig generalizing layers ka with
  | nil => exact .inl layer
  | cons l twig ih =>
    have longer : ka.prefixString.length ≤ ka.shift.prefixString.length := by
      show ka.first.length ≤ (ka.first ++ ka.s.take 8).length
      rw [List.length_append]
      exact Nat.le_add_right _ _
    have whole : ka.shift.fullString = ka.fullString := by
      show ka.first ++ ka.s.take 8 ++ ka.s.drop 8 = ka.first ++ ka.s
      rw [List.append_assoc, List.take_append_drop]
    rcases ih layer with here | ⟨le, before⟩
    · by_cases same : at_ = ka.shift.prefixString
      · subst same
        exact .inr ⟨longer, whole ▸ List.prefix_append _ _⟩
      · rw [Function.update_of_ne same] at here
        exact .inl here
    · exact .inr ⟨Nat.le_trans longer le, whole ▸ before⟩

theorem Names.put (names : t.Names) (ok : t.Ok) (found : t.locate key = some p) (splitType : Nat) (nodes : List (Leaf V)) :
    ((t.arrive p).put p splitType nodes).Names := by
  have arrived := names.arrive p
  have here := names.arrived found
  have setLeaf : ∀ l, ((t.arrive p).setLeaf p l).Names := fun l => arrived.setLayer here _
  rcases nodes with _ | ⟨left, _ | ⟨right, twig⟩⟩
  · exact arrived
  · exact setLeaf left
  · rw [Table.put]
    split
    · refine (setLeaf left).of fun at_ ne root layer => ?_
      show (if p.ka.prefixString.length < at_.length ∧ at_ <+: p.ka.fullString then 0 else (t.arrive p).behind at_) = 0 ∨ _
      by_cases hung : p.ka.prefixString.length < at_.length ∧ at_ <+: p.ka.fullString
      · exact .inl (if_pos hung)
      · rw [if_neg hung]
        rcases hang_prefixes layer with old | ⟨le, before⟩
        · exact .inr ⟨if_neg hung, old⟩
        · -- the layer of the leaf itself
          have same := List.prefix_of_prefix_length_le before (List.prefix_append _ _ : p.ka.prefixString <+: p.ka.fullString)
            (Nat.le_of_not_lt fun lt => hung ⟨lt, before⟩)
          obtain rfl := same.eq_of_length (Nat.le_antisymm same.length_le le)
          exact .inl (here ne)
    · obtain ⟨j, p', root, lo, hi, bound, found', at_⟩ := locate_spec ok key
      obtain rfl := Option.some.inj (found.symm.trans found')
      refine arrived.setSplit here ?_ splitType left right
      show t.layers p.ka.prefixString = _
      rw [prefixString_at at_, at_.layer, at_.plugged]

theorem Names.settle (names : t.Names) (here : p.ka.prefixString ≠ [] → t.behind p.ka.prefixString = 0)
    (settled : t.settle p l = some t') : t'.Names := by
  rw [Table.settle] at settled
  split at settled
  · obtain rfl := Option.some.inj settled
    exact names.setLayer here _
  · split at settled
    · obtain ⟨root, -, rfl⟩ := Option.map_eq_some_iff.mp settled
      exact names.setLayer here root
    · obtain rfl := Option.some.inj settled
      exact names.setLayer here _

theorem insert_names (ok : t.Ok) (names : t.Names) {value : Option V} (inserted : t.insert key value = some t') : t'.Names := by
  obtain ⟨p, found, inserted⟩ := Option.bind_eq_some_iff.mp inserted
  obtain ⟨c, -, rfl⟩ := Option.map_eq_some_iff.mp inserted
  exact names.put ok found _ _

theorem remove_names (names : t.Names) (removed : t.remove key = some t') : t'.Names := by
  obtain ⟨p, found, removed⟩ := Option.bind_eq_some_iff.mp removed
  obtain ⟨c, -, removed⟩ := Option.bind_eq_some_iff.mp removed
  split at removed
  · exact (names.arrive p).settle (names.arrived found) removed
  · obtain rfl := Option.some.inj removed
    exact (names.arrive p).setLayer (names.arrived found) _

theorem gcLayer_names (names : t.Names) (collected : t.gcLayer at_ = some t') : t'.Names := by
  obtain ⟨p, found, collected⟩ := Option.bind_eq_some_iff.mp collected
  have arrived := names.arrive p
  have here := names.arrived found
  dsimp only at collected
  split at collected
  · obtain rfl := Option.some.inj collected
    exact arrived
  · obtain ⟨root, layer, collected⟩ := Option.bind_eq_some_iff.mp collected
    obtain ⟨root', -, collected⟩ := Option.bind_eq_some_iff.mp collected
    -- the slot has the root of the layer now
    have zero : ∀ at_, (t.arrive p).behind at_ = 0 → Function.update (t.arrive p).behind p.ka.fullString 0 at_ = 0 := by
      intro at_ zero
      by_cases same : at_ = p.ka.fullString
      · rw [same, Function.update_self]
      · rwa [Function.update_of_ne same]
    have behind : ∀ at_, Function.update (t.arrive p).behind p.ka.fullString 0 at_ = 0 ∨
        Function.update (t.arrive p).behind p.ka.fullString 0 at_ = (t.arrive p).behind at_ := by
      intro at_
      by_cases same : at_ = p.ka.fullString
      · rw [same, Function.update_self]
        exact .inl rfl
      · exact .inr (Function.update_of_ne same _ _)
    have updated : Names { t.arrive p with behind := Function.update (t.arrive p).behind p.ka.fullString 0 } :=
      arrived.of fun at_ _ root layer => (behind at_).imp_right fun same => ⟨same, layer⟩
    split at collected
    · split at collected
      · refine Names.settle ?_ (fun ne => zero _ (here ne)) collected
        refine updated.of fun at_ ne root layer => ?_
        change Function.update t.layers p.ka.fullString none at_ = some root at layer
        by_cases same : at_ = p.ka.fullString
        · rw [same, Function.update_self] at layer
          cases layer
        · rw [Function.update_of_ne same] at layer
          exact .inr ⟨rfl, layer⟩
      · obtain rfl := Option.some.inj collected
        exact updated.setLayer (fun _ => Function.update_self ..) _
    · obtain rfl := Option.some.inj collected
      exact updated.setLayer (fun _ => Function.update_self ..) _

theorem step_names (ok : t.Ok) (names : t.Names) {op : Op V} (stepped : t.step op = some t') : t'.Names := by
  cases op with
  | insert key value => exact insert_names ok names stepped
  | cancel key => exact insert_names ok names stepped
  | remove key => exact remove_names names stepped
  | collect i =>
    obtain ⟨at_, -, collected⟩ := Option.bind_eq_some_iff.mp stepped
    refine gcLayer_names ?_ collected
    exact names

theorem Reachable.names (reachable : t.Reachable) : t.Names := by
  obtain ⟨ops, ran⟩ := reachable
  have keeps : ∀ (t : Table V) (op : Op V) (next : Table V), t.Good ∧ t.Names → t.step op = some next → next.Good ∧ next.Names := by
    rintro t op next ⟨good, names⟩ stepped
    obtain ⟨next', stepped', good', -⟩ := step_spec good (enabled_of_step stepped)
    obtain rfl := Option.some.inj (stepped.symm.trans stepped')
    exact ⟨good', step_names good.toOk names stepped⟩
  exact (Steps.run_keeps keeps ⟨start_good, fun _ _ _ _ => .inl rfl⟩ ran).2

/-! ### What is freed -/

def Frees (t : Table V) (q : Workq Address) : Prop := q.done.Nodup ∧ ∀ a, a ∈ q.done ↔ (t.node a).isSome

/-- No root of a layer below the top has split since a search last passed its slot. -/
def RootsNamed (t : Table V) : Prop := ∀ at_ ≠ [], (t.layers at_).isSome → t.behind at_ = 0

/-- The traversal ends, and has deallocated what it reaches. -/
theorem destroy_spec (reachable : t.Reachable) (parent : Address → Option Address) :
    ∃ least q, (∀ fuel ≥ least, t.destroy parent fuel = some q) ∧ q.done.Nodup ∧ ∀ a, a ∈ q.done ↔ Workq.Reach t.below ⟨[], []⟩ a := by
  have ok := reachable.good.toOk
  exact Workq.loop_spec (forest ok reachable.names) (finite_reach ok reachable.names) parent

/-- Destroying a table ends and deallocates nodes of the table only, none of them twice, and all of them if and only if every slot
names the root of its layer. -/
theorem destroy_frees_iff {ops : List (Op V)} (ran : Steps.run step start ops = some t) (parent : Address → Option Address) :
    ∃ least q, (∀ fuel ≥ least, t.destroy parent fuel = some q) ∧ q.done.Nodup ∧ (∀ a ∈ q.done, (t.node a).isSome) ∧
      (t.Frees q ↔ t.RootsNamed) := by
  have reachable : t.Reachable := ⟨ops, ran⟩
  have ok := reachable.good.toOk
  have names := reachable.names
  obtain ⟨least, q, ends, nodup, done⟩ := destroy_spec reachable parent
  have nodes : ∀ a ∈ q.done, (t.node a).isSome := fun a mem => (reach_spec ok names ((done a).mp mem)).1
  refine ⟨least, q, ends, nodup, nodes, Iff.trans ?_ (reach_iff ok names)⟩
  constructor
  · rintro ⟨-, all⟩ a there
    exact (done a).mp ((all a).mpr there)
  · intro all
    exact ⟨nodup, fun a => ⟨nodes a, fun there => (done a).mpr (all a there)⟩⟩

/-- Two keys with a slice in common, from parent pointers that are all null. -/
theorem destroy_frees_iff_two : ∃ t : Table Nat,
    Steps.run step start [.insert [1, 2, 3, 4, 5, 6, 7, 8, 9] 1, .insert [1, 2, 3, 4, 5, 6, 7, 8, 0] 2] = some t ∧
      ∃ least q, (∀ fuel ≥ least, t.destroy (fun _ => none) fuel = some q) ∧ q.done.Nodup ∧ (∀ a ∈ q.done, (t.node a).isSome) ∧
        (t.Frees q ↔ t.RootsNamed) := by
  have runs : (Steps.run step (start : Table Nat)
      [.insert [1, 2, 3, 4, 5, 6, 7, 8, 9] 1, .insert [1, 2, 3, 4, 5, 6, 7, 8, 0] 2]).isSome := by decide
  obtain ⟨t, ran⟩ := Option.isSome_iff_exists.mp runs
  exact ⟨t, ran, destroy_frees_iff ran fun _ => none⟩

/-- Sixteen keys with a slice in common: the last one splits the root of their layer, which its slot does not name afterwards. -/
theorem destroy_misses_root : ∃ (ops : List (Op Nat)) (t : Table Nat) (a : Address) (fuel : Nat) (q : Workq Address),
    Steps.run step start ops = some t ∧ t.destroy (fun _ => none) fuel = some q ∧ (t.node a).isSome ∧ a ∉ q.done := by
  let keys : List Bytes := (List.range 16).map fun k => [1, 2, 3, 4, 5, 6, 7, 8, UInt8.ofNat k]
  let ops : List (Op Nat) := keys.map (.insert · 1)
  let at_ : Bytes := [1, 2, 3, 4, 5, 6, 7, 8]
  have runs : (Steps.run step start ops).map (fun t => (t.behind at_, (t.node ⟨at_, []⟩).isSome)) = some (1, true) := by
    decide
  obtain ⟨t, ran, same⟩ := Option.map_eq_some_iff.mp runs
  obtain ⟨behind, there⟩ := Prod.mk.inj same
  have reachable : t.Reachable := ⟨ops, ran⟩
  obtain ⟨least, q, ends, -, done⟩ := destroy_spec reachable fun _ => none
  refine ⟨ops, t, ⟨at_, []⟩, least, q, ran, ends least (Nat.le_refl _), there, fun mem => ?_⟩
  have before := (reach_spec reachable.good.toOk reachable.names ((done _).mp mem)).2 (by decide)
  rw [behind] at before
  cases List.prefix_nil.mp before

end Table

end Masstree.Tree
