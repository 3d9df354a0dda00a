import Masstree.Tree.Layer

/-!
# What holds of a table between operations
-/

namespace Masstree.Tree
open Msgpack (Bytes)

variable {V : Type}

/-! ### The entries of a layer -/

section Find
variable {E E' : List (Slot V)} {s : Slot V} {r : Nat}

theorem find_eq_some (sorted : Increasing E) : E.find? (fun s => s.rank = r) = some s ↔ s ∈ E ∧ s.rank = r := by
  constructor
  · intro found
    exact ⟨List.mem_of_find?_eq_some found, by simpa using List.find?_some found⟩
  · rintro ⟨mem, rank⟩
    obtain ⟨A, B, rfl⟩ := List.append_of_mem mem
    obtain ⟨-, below, -⟩ := increasing_middle.mp sorted
    have before : A.find? (fun s => s.rank = r) = none := by
      rw [List.find?_eq_none]
      intro a before found
      exact Nat.ne_of_lt (below a before) ((of_decide_eq_true found).trans rank.symm)
    rw [List.find?_append, before, Option.none_or]
    simp [rank]

theorem find_eq_none : E.find? (fun s => s.rank = r) = none ↔ ∀ s ∈ E, s.rank ≠ r := by
  rw [List.find?_eq_none]
  simp only [decide_eq_true_eq, ne_eq]

/-- Only what is in the list counts. -/
theorem find_congr (sorted : Increasing E) (sorted' : Increasing E') (same : ∀ s, s.rank = r → (s ∈ E' ↔ s ∈ E)) :
    E'.find? (fun s => s.rank = r) = E.find? (fun s => s.rank = r) := by
  cases found : E.find? (fun s => s.rank = r) with
  | some s =>
    obtain ⟨mem, rank⟩ := (find_eq_some sorted).mp found
    exact (find_eq_some sorted').mpr ⟨(same s rank).mpr mem, rank⟩
  | none =>
    rw [find_eq_none] at found ⊢
    intro s mem rank
    exact found s ((same s rank).mp mem) rank

end Find

def Node.entries (n : Node (Leaf V)) : List (Slot V) := n.leaves.flatMap Leaf.entries

theorem rank_lt_of_ikey {s s' : Slot V} (lt : s.ikey0 < s'.ikey0) : s.rank < s'.rank := by
  unfold Slot.rank rank
  omega

theorem Tiles.entries {leaves : List (Leaf V)} {lo hi : Nat} (tiles : Tiles Leaf.Holds lo hi leaves) :
    Increasing (leaves.flatMap Leaf.entries) ∧ ∀ s ∈ leaves.flatMap Leaf.entries, s.Valid ∧ lo ≤ s.ikey0 ∧ s.ikey0 < hi := by
  induction leaves generalizing lo with
  | nil => exact ⟨.nil, fun s mem => by cases mem⟩
  | cons l leaves ih =>
    obtain ⟨mid, lt, holds, rest⟩ := tiles
    obtain ⟨sorted, each⟩ := ih rest
    rw [List.flatMap_cons]
    refine ⟨List.pairwise_append.mpr ⟨holds.sorted, sorted, ?_⟩, ?_⟩
    · intro a here b there
      exact rank_lt_of_ikey (Nat.lt_of_lt_of_le (holds.range a here).2 (each b there).2.1)
    · intro s mem
      rcases List.mem_append.mp mem with here | there
      · exact ⟨holds.valid s here, (holds.range s here).1, Nat.lt_of_lt_of_le (holds.range s here).2 rest.le⟩
      · exact ⟨(each s there).1, Nat.le_of_lt (Nat.lt_of_lt_of_le lt (each s there).2.1), (each s there).2.2⟩

/-- A layer between operations. -/
abbrev Node.Sound (root : Node (Leaf V)) : Prop := root.Wf Leaf.Holds 0 top

theorem Node.Sound.sorted {root : Node (Leaf V)} (sound : root.Sound) : Increasing root.entries :=
  (Node.Wf.tiles sound).entries.1

theorem Node.Sound.valid {root : Node (Leaf V)} (sound : root.Sound) : ∀ s ∈ root.entries, s.Valid :=
  fun s mem => ((Node.Wf.tiles sound).entries.2 s mem).1

/-! ### The leaf that a search comes to -/

/-- What is before the leaf and after it has other ikeys. -/
structure Around (lo hi : Nat) (A B : List (Slot V)) : Prop where
  before : ∀ s ∈ A, s.ikey0 < lo
  after : ∀ s ∈ B, hi ≤ s.ikey0

section Place
variable {lo hi bound : Nat} {path : List (Frame (Leaf V))} {l : Leaf V} {ka : Key} {S : Set (Slot V)} {r : Nat}

theorem Path.around (way : Path Leaf.Holds lo hi bound path) :
    Around lo hi ((before path).flatMap Leaf.entries) ((after path).flatMap Leaf.entries) :=
  ⟨fun s mem => (way.tiles.1.entries.2 s mem).2.2, fun s mem => (way.tiles.2.entries.2 s mem).2.1⟩

/-- The entries of a layer, by those of one leaf. -/
theorem Path.entries (way : Path Leaf.Holds lo hi bound path) (n : Node (Leaf V)) :
    (Tree.plug n path).entries = (Tree.before path).flatMap Leaf.entries ++ n.entries ++ (Tree.after path).flatMap Leaf.entries := by
  rw [Node.entries, way.leaves, List.flatMap_append, List.flatMap_append]
  rfl

theorem entries_leaf (l : Leaf V) : (Node.leaf l).entries = l.entries := by
  rw [Node.entries, Node.leaves, List.flatMap_cons, List.flatMap_nil, List.append_nil]

/-- Where the key's rank can be. -/
theorem Around.ne {A B : List (Slot V)} (around : Around lo hi A B) (low : lo ≤ ka.ikey) (high : ka.ikey < hi) :
    ∀ s, s ∈ A ∨ s ∈ B → s.rank ≠ ka.rank := by
  intro s mem same
  have ikeys : s.ikey0 = ka.ikey := (rank_inj.mp same).1
  rcases mem with mem | mem
  · exact absurd (around.before s mem) (Nat.not_lt_of_le (ikeys ▸ low))
  · exact absurd (around.after s mem) (Nat.not_le_of_lt (ikeys ▸ high))

/-- What a leaf's search finds is what is in the layer. -/
theorem find_layer (way : Path Leaf.Holds lo hi bound path) (holds : l.Holds lo hi) (low : lo ≤ ka.ikey) (high : ka.ikey < hi)
    (sound : (plug (.leaf l) path).Sound) :
    (plug (.leaf l) path).entries.find? (fun s => s.rank = ka.rank) = (l.lower ka).2.map l.slot := by
  have others := way.around.ne low high
  have sorted := sound.sorted
  have parts := way.entries (.leaf l)
  rw [entries_leaf] at parts
  rcases Leaf.lower_cases holds.sorted ka with ⟨i, lt, found, rank⟩ | ⟨i, -, found, below, above⟩
  · rw [found, Option.map_some, find_eq_some sorted, parts]
    exact ⟨List.mem_append_left _ (List.mem_append_right _ (List.mem_of_getElem? (Leaf.getElem?_entries lt))), rank⟩
  · rw [found, Option.map_none, find_eq_none, parts]
    intro s mem
    rcases List.mem_append.mp mem with mem | mem
    · rcases List.mem_append.mp mem with mem | mem
      · exact others s (.inl mem)
      · rcases List.mem_append.mp ((List.take_append_drop i l.entries).symm ▸ mem) with mem | mem
        · exact Nat.ne_of_lt (below s mem)
        · exact Nat.ne_of_gt (above s mem)
    · exact others s (.inr mem)

/-- A change at the key's rank in the leaf is one in the layer. -/
theorem slotSet_put {A B E E' : List (Slot V)} (around : Around lo hi A B) (low : lo ≤ ka.ikey) (high : ka.ikey < hi) {e : Slot V}
    (rank : e.rank = ka.rank) (set_ : slotSet E' = putSlot e (slotSet E)) :
    slotSet (A ++ E' ++ B) = putSlot e (slotSet (A ++ E ++ B)) := by
  have others := around.ne low high
  have member : ∀ s, s ∈ E' ↔ s = e ∨ s ∈ E ∧ s.rank ≠ e.rank := fun s => by rw [← mem_slotSet, set_, mem_putSlot, mem_slotSet]
  ext s
  rw [mem_slotSet, mem_putSlot, mem_slotSet, List.mem_append, List.mem_append, List.mem_append, List.mem_append, member, rank]
  constructor
  · rintro ((mem | here | ⟨mem, ne⟩) | mem)
    · exact .inr ⟨.inl (.inl mem), others s (.inl mem)⟩
    · exact .inl here
    · exact .inr ⟨.inl (.inr mem), ne⟩
    · exact .inr ⟨.inr mem, others s (.inr mem)⟩
  · rintro (here | ⟨(mem | mem) | mem, ne⟩)
    · exact .inl (.inr (.inl here))
    · exact .inl (.inl mem)
    · exact .inl (.inr (.inr ⟨mem, ne⟩))
    · exact .inr mem

theorem slotSet_drop {A B E E' : List (Slot V)} (around : Around lo hi A B) (low : lo ≤ ka.ikey) (high : ka.ikey < hi)
    (set_ : slotSet E' = dropRank ka.rank (slotSet E)) :
    slotSet (A ++ E' ++ B) = dropRank ka.rank (slotSet (A ++ E ++ B)) := by
  have others := around.ne low high
  have member : ∀ s, s ∈ E' ↔ s ∈ E ∧ s.rank ≠ ka.rank := fun s => by rw [← mem_slotSet, set_, mem_dropRank, mem_slotSet]
  ext s
  rw [mem_slotSet, mem_dropRank, mem_slotSet, List.mem_append, List.mem_append, List.mem_append, List.mem_append, member]
  constructor
  · rintro ((mem | ⟨mem, ne⟩) | mem)
    · exact ⟨.inl (.inl mem), others s (.inl mem)⟩
    · exact ⟨.inl (.inr mem), ne⟩
    · exact ⟨.inr mem, others s (.inr mem)⟩
  · rintro ⟨(mem | mem) | mem, ne⟩
    · exact .inl (.inl mem)
    · exact .inl (.inr ⟨mem, ne⟩)
    · exact .inr mem

end Place

/-! ### Tables -/

namespace Layers

variable {layers : Layers V} {root root' : Node (Leaf V)} {at_ at' : Bytes} {r : Nat} {s : Slot V}

def slots (layers : Layers V) : Contents V := fun at_ r => (layers at_).bind fun root => root.entries.find? fun s => s.rank = r

theorem slots_eq (layer : layers at_ = some root) (r : Nat) : layers.slots at_ r = root.entries.find? (fun s => s.rank = r) := by
  rw [slots, layer, Option.bind_some]

theorem slots_none (missing : layers at_ = none) (r : Nat) : layers.slots at_ r = none := by
  rw [slots, missing, Option.bind_none]

section Update
variable (layer : layers at_ = some root) (sound : root.Sound) (sound' : root'.Sound)
include layer sound sound'

theorem slots_same (same : slotSet root'.entries = slotSet root.entries) :
    slots (Function.update layers at_ (some root')) = layers.slots := by
  funext at' r
  by_cases here : at' = at_
  · subst here
    rw [slots_eq layer, slots_eq (Function.update_self ..)]
    refine find_congr sound.sorted sound'.sorted fun s _ => ?_
    rw [← mem_slotSet, same, mem_slotSet]
  · rw [slots, slots, Function.update_of_ne here]

theorem slots_put (put : slotSet root'.entries = putSlot s (slotSet root.entries)) :
    slots (Function.update layers at_ (some root')) = layers.slots.set at_ s.rank (some s) := by
  funext at' r
  have member : ∀ s', s' ∈ root'.entries ↔ s' = s ∨ s' ∈ root.entries ∧ s'.rank ≠ s.rank :=
    fun s' => by rw [← mem_slotSet, put, mem_putSlot, mem_slotSet]
  by_cases here : at' = at_
  · subst here
    rw [slots_eq (Function.update_self ..)]
    by_cases rank : r = s.rank
    · subst rank
      rw [Contents.set_same, find_eq_some sound'.sorted]
      exact ⟨(member s).mpr (.inl rfl), rfl⟩
    · rw [Contents.set_other _ _ (fun both => rank both.2), slots_eq layer]
      refine find_congr sound.sorted sound'.sorted fun s' rank' => (member s').trans ?_
      have ne : s'.rank ≠ s.rank := fun eq => rank (rank'.symm.trans eq)
      constructor
      · rintro (rfl | old)
        · exact absurd rfl ne
        · exact old.1
      · exact fun old => .inr ⟨old, ne⟩
  · rw [Contents.set_other _ _ (fun both => here both.1), slots, slots, Function.update_of_ne here]

theorem slots_drop (drop : slotSet root'.entries = dropRank r (slotSet root.entries)) :
    slots (Function.update layers at_ (some root')) = layers.slots.set at_ r none := by
  funext at' r'
  have member : ∀ s', s' ∈ root'.entries ↔ s' ∈ root.entries ∧ s'.rank ≠ r :=
    fun s' => by rw [← mem_slotSet, drop, mem_dropRank, mem_slotSet]
  by_cases here : at' = at_
  · subst here
    rw [slots_eq (Function.update_self ..)]
    by_cases rank : r' = r
    · subst rank
      rw [Contents.set_same, find_eq_none]
      exact fun s' mem => ((member s').mp mem).2
    · rw [Contents.set_other _ _ (fun both => rank both.2), slots_eq layer]
      refine find_congr sound.sorted sound'.sorted fun s' rank' => (member s').trans (and_iff_left ?_)
      exact fun eq => rank (rank'.symm.trans eq)
  · rw [Contents.set_other _ _ (fun both => here both.1), slots, slots, Function.update_of_ne here]

end Update

end Layers

end Masstree.Tree
