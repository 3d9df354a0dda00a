import Masstree.Lib.Positions
import Masstree.Tree.Opened
import Mathlib.Data.Set.Defs

/-!
# The entries of a leaf

The live slots in key order, and the search among them.
-/

namespace Masstree.Tree
open Msgpack (Bytes)
open Positions

variable {V : Type}

def Slot.rank (s : Slot V) : Nat := Tree.rank s.ikey0 s.keylenx

/-! ### Sets of slots, one for each rank -/

section Sets
variable {E : List (Slot V)} {s s' : Slot V} {S : Set (Slot V)} {i r : Nat}

/-- The slot comes in the place of the one of its rank, if there is one. -/
def putSlot (s : Slot V) (S : Set (Slot V)) : Set (Slot V) := {s' | s' = s ∨ s' ∈ S ∧ s'.rank ≠ s.rank}

def dropRank (r : Nat) (S : Set (Slot V)) : Set (Slot V) := {s' | s' ∈ S ∧ s'.rank ≠ r}

theorem mem_putSlot : s' ∈ putSlot s S ↔ s' = s ∨ s' ∈ S ∧ s'.rank ≠ s.rank := Iff.rfl

theorem mem_dropRank : s' ∈ dropRank r S ↔ s' ∈ S ∧ s'.rank ≠ r := Iff.rfl

def slotSet (E : List (Slot V)) : Set (Slot V) := {s | s ∈ E}

theorem mem_slotSet : s ∈ slotSet E ↔ s ∈ E := Iff.rfl

def Increasing (E : List (Slot V)) : Prop := E.Pairwise fun a b => a.rank < b.rank

theorem increasing_middle {A B : List (Slot V)} : Increasing (A ++ s :: B) ↔
    Increasing (A ++ B) ∧ (∀ a ∈ A, a.rank < s.rank) ∧ ∀ b ∈ B, s.rank < b.rank := by
  unfold Increasing
  rw [List.pairwise_append, List.pairwise_append, List.pairwise_cons]
  constructor
  · rintro ⟨first, ⟨above, second⟩, across⟩
    exact ⟨⟨first, second, fun a mem b mem' => across a mem b (List.mem_cons_of_mem _ mem')⟩,
      fun a mem => across a mem s List.mem_cons_self, above⟩
  · rintro ⟨⟨first, second, across⟩, below, above⟩
    refine ⟨first, ⟨above, second⟩, ?_⟩
    intro a mem b mem'
    rcases List.mem_cons.mp mem' with rfl | mem'
    · exact below a mem
    · exact across a mem b mem'

theorem increasing_other {A B : List (Slot V)} (h : Increasing (A ++ s :: B)) : ∀ s' ∈ A ++ B, s'.rank ≠ s.rank := by
  obtain ⟨-, below, above⟩ := increasing_middle.mp h
  intro s' mem
  rcases List.mem_append.mp mem with mem | mem
  · exact Nat.ne_of_lt (below s' mem)
  · exact Nat.ne_of_gt (above s' mem)

theorem slotSet_middle {A B : List (Slot V)} (h : Increasing (A ++ s :: B)) :
    slotSet (A ++ s :: B) = putSlot s (slotSet (A ++ B)) := by
  have others := increasing_other h
  ext s'
  rw [mem_slotSet, mem_putSlot, mem_slotSet, List.perm_middle.mem_iff, List.mem_cons]
  constructor
  · rintro (same | mem)
    · exact .inl same
    · exact .inr ⟨mem, others s' mem⟩
  · rintro (same | ⟨mem, -⟩)
    · exact .inl same
    · exact .inr mem

/-- A slot of a rank that is missing comes between the smaller and the greater ones. -/
theorem Increasing.insert (h : Increasing E) (le : i ≤ E.length) (below : ∀ s' ∈ E.take i, s'.rank < s.rank)
    (above : ∀ s' ∈ E.drop i, s.rank < s'.rank) :
    Increasing (E.insertIdx i s) ∧ slotSet (E.insertIdx i s) = putSlot s (slotSet E) := by
  have parts := List.take_append_drop i E
  have length := List.length_take_of_le le
  have inserted : E.insertIdx i s = E.take i ++ s :: E.drop i := by
    have middle := insertIdx_middle (E.take i) (E.drop i) s
    rwa [parts, length] at middle
  have increasing : Increasing (E.take i ++ s :: E.drop i) := increasing_middle.mpr ⟨by rwa [parts], below, above⟩
  rw [inserted, slotSet_middle increasing, parts]
  exact ⟨increasing, rfl⟩

/-- A slot comes in the place of one of its rank. -/
theorem Increasing.set (h : Increasing E) (at_ : E[i]? = some s') (same : s'.rank = s.rank) :
    Increasing (E.set i s) ∧ slotSet (E.set i s) = putSlot s (slotSet E) := by
  obtain ⟨A, B, rfl, rfl⟩ := exists_middle at_
  obtain ⟨rest, below, above⟩ := increasing_middle.mp h
  rw [same] at below above
  have increasing : Increasing (A ++ s :: B) := increasing_middle.mpr ⟨rest, below, above⟩
  rw [set_middle, slotSet_middle increasing, slotSet_middle h]
  refine ⟨increasing, ?_⟩
  ext s''
  rw [mem_putSlot, mem_putSlot, mem_putSlot, same]
  constructor
  · rintro (here | there)
    · exact .inl here
    · exact .inr ⟨.inr there, there.2⟩
  · rintro (here | ⟨rfl | there, other⟩)
    · exact .inl here
    · exact absurd same other
    · exact .inr there

theorem Increasing.erase (h : Increasing E) (at_ : E[i]? = some s) :
    Increasing (E.eraseIdx i) ∧ slotSet (E.eraseIdx i) = dropRank s.rank (slotSet E) := by
  obtain ⟨A, B, rfl, rfl⟩ := exists_middle at_
  have others := increasing_other h
  rw [eraseIdx_middle, slotSet_middle h]
  refine ⟨(increasing_middle.mp h).1, ?_⟩
  ext s'
  rw [mem_dropRank, mem_putSlot]
  constructor
  · intro mem
    exact ⟨.inr ⟨mem, others s' mem⟩, others s' mem⟩
  · rintro ⟨rfl | ⟨mem, -⟩, other⟩
    · exact absurd rfl other
    · exact mem

end Sets

namespace Leaf

variable {l l' : Leaf V} {ka : Key} {i p q : Nat} {s : Slot V}

def entries (l : Leaf V) : List (Slot V) := l.perm.live.map l.slot

theorem length_entries (l : Leaf V) : l.entries.length = l.size := List.length_map _

theorem getElem?_entries (lt : i < l.size) : l.entries[i]? = some (l.slot (l.perm.get i)) := by
  have lt' : i < l.perm.live.length := lt
  rw [entries, List.getElem?_map, List.getElem?_eq_getElem lt', Permuter.get_live lt']
  rfl

theorem entries_congr (live : l'.perm.live = l.perm.live) (same : ∀ p ∈ l.perm.live, l'.slot p = l.slot p) :
    l'.entries = l.entries := by
  unfold entries
  rw [live]
  exact List.map_congr_left same

theorem rank_lt (sorted : Increasing l.entries) {j : Nat} (lt : i < j) (bound : j < l.size) :
    (l.slot (l.perm.get i)).rank < (l.slot (l.perm.get j)).rank := by
  have here := getElem?_entries (Nat.lt_trans lt bound)
  have there := getElem?_entries bound
  obtain ⟨inside, here⟩ := List.getElem?_eq_some_iff.mp here
  obtain ⟨inside', there⟩ := List.getElem?_eq_some_iff.mp there
  have pair := List.pairwise_iff_getElem.mp sorted i j inside inside' lt
  rwa [here, there] at pair

/-- What a search finds: the entry of the rank, or the place between the entries of smaller and greater ranks. -/
theorem search_cases (sorted : Increasing l.entries) (ikey length : Nat) {result : Nat × Bool}
    (search : BinarySearch.lower (fun m => keyCompare ikey length (l.slot (l.perm.get m)).ikey0 (l.slot (l.perm.get m)).keylenx)
      l.size 0 l.size = result) :
    (result.1 < l.size ∧ result.2 = true ∧ (l.slot (l.perm.get result.1)).rank = Tree.rank ikey length) ∨
      (result.1 ≤ l.size ∧ result.2 = false ∧ (∀ s ∈ l.entries.take result.1, s.rank < Tree.rank ikey length) ∧
        ∀ s ∈ l.entries.drop result.1, Tree.rank ikey length < s.rank) := by
  have compares : BinarySearch.Compares
      (fun m => keyCompare ikey length (l.slot (l.perm.get m)).ikey0 (l.slot (l.perm.get m)).keylenx) (Tree.rank ikey length)
      (fun m => (l.slot (l.perm.get m)).rank) l.size :=
    ⟨fun m _ => keyCompare_eq _ _ _ _, fun i j lt bound => rank_lt sorted lt bound⟩
  obtain ⟨le, below, above, found⟩ :=
    BinarySearch.lower_between compares l.size 0 l.size (Nat.le_refl _) (BinarySearch.Between.start _ _ _)
  rw [search] at le below above found
  obtain ⟨i, hit⟩ := result
  dsimp only at le below above found ⊢
  cases hit with
  | true =>
    obtain ⟨lt, same⟩ := found.mp rfl
    exact .inl ⟨lt, rfl, same⟩
  | false =>
    refine .inr ⟨le, rfl, ?_, ?_⟩
    · intro s mem
      obtain ⟨j, at_⟩ := List.mem_iff_getElem?.mp mem
      have lt : j < i := by
        have inside := (List.getElem?_eq_some_iff.mp at_).1
        rw [List.length_take] at inside
        omega
      rw [List.getElem?_take_of_lt lt, getElem?_entries (Nat.lt_of_lt_of_le lt le)] at at_
      obtain rfl := Option.some.inj at_
      exact below j lt
    · intro s mem
      obtain ⟨j, at_⟩ := List.mem_iff_getElem?.mp mem
      rw [List.getElem?_drop] at at_
      have inside := (List.getElem?_eq_some_iff.mp at_).1
      rw [length_entries] at inside
      rw [getElem?_entries inside] at at_
      obtain rfl := Option.some.inj at_
      have least := above (i + j) (Nat.le_add_right _ _) inside
      have least' := above i (Nat.le_refl _) (Nat.lt_of_le_of_lt (Nat.le_add_right _ _) inside)
      rcases Nat.lt_or_eq_of_le least with less | same
      · exact less
      · cases j with
        | zero => exact absurd (found.mpr ⟨inside, same.symm⟩) (by decide)
        | succ j =>
          exact Nat.lt_of_le_of_lt least' (rank_lt sorted (Nat.lt_add_of_pos_right (Nat.succ_pos j)) inside)

/-- What `lower` finds. -/
theorem lower_cases (sorted : Increasing l.entries) (ka : Key) :
    (∃ i, i < l.size ∧ l.lower ka = (i, some (l.perm.get i)) ∧ (l.slot (l.perm.get i)).rank = ka.rank) ∨
      ∃ i, i ≤ l.size ∧ l.lower ka = (i, none) ∧ (∀ s ∈ l.entries.take i, s.rank < ka.rank) ∧
        ∀ s ∈ l.entries.drop i, ka.rank < s.rank := by
  unfold lower
  dsimp only
  cases search : BinarySearch.lower (fun m => ka.compare (l.slot (l.perm.get m)).ikey0 (l.slot (l.perm.get m)).keylenx)
    l.size 0 l.size with
  | mk i hit =>
    rcases search_cases sorted ka.ikey ka.length search with ⟨lt, rfl, rank⟩ | ⟨le, rfl, below, above⟩
    · exact .inl ⟨i, lt, rfl, rank⟩
    · exact .inr ⟨i, le, rfl, below, above⟩

/-! ### Changes of one slot -/

theorem slot_assign_self (l : Leaf V) (ka : Key) (inside : p < l.slots.length) : (l.assign p ka).slot p = .ofKey ka := by
  unfold slot assign
  rw [List.getD_eq_getElem?_getD, List.getElem?_set_self inside]
  rfl

theorem slot_modify (l : Leaf V) (f : Slot V → Slot V) (inside : p < l.slots.length) (q : Nat) :
    ({ l with slots := l.slots.modify p f } : Leaf V).slot q = if q = p then f (l.slot q) else l.slot q := by
  unfold slot
  rw [List.getD_eq_getElem?_getD, List.getD_eq_getElem?_getD, List.getElem?_modify]
  by_cases same : p = q
  · subst same
    rw [if_pos rfl, List.getElem?_eq_getElem inside]
    simp
  · rw [if_neg (Ne.symm same)]
    simp [same]

theorem entries_assign (free : p ∉ l.perm.live) (ka : Key) : (l.assign p ka).entries = l.entries := by
  refine entries_congr rfl ?_
  intro q mem
  apply slot_assign
  rintro rfl
  exact free mem

theorem entries_modify_free (f : Slot V → Slot V) (inside : p < l.slots.length) (free : p ∉ l.perm.live) :
    ({ l with slots := l.slots.modify p f } : Leaf V).entries = l.entries := by
  refine entries_congr rfl ?_
  intro q mem
  rw [slot_modify l f inside, if_neg]
  rintro rfl
  exact free mem

/-- A live slot is the entry at its position only. -/
theorem entries_modify (wf : l.perm.Wf) (slots : l.slots.length = width) (f : Slot V → Slot V) (lt : i < l.size) :
    ({ l with slots := l.slots.modify (l.perm.get i) f } : Leaf V).entries = l.entries.set i (f (l.slot (l.perm.get i))) := by
  have lt' : i < l.perm.live.length := lt
  have inside : l.perm.get i < l.slots.length := by
    rw [slots]
    exact wf.mem_iff.mp (.inl (Permuter.get_mem_live lt'))
  apply List.ext_getElem?
  intro j
  rw [List.getElem?_set, length_entries]
  by_cases bound : j < l.size
  · have here := getElem?_entries (l := { l with slots := l.slots.modify (l.perm.get i) f }) bound
    rw [here, slot_modify l f inside]
    have bound' : j < l.perm.live.length := bound
    by_cases same : i = j
    · subst same
      rw [if_pos rfl, if_pos rfl, if_pos lt]
    · have other : ¬l.perm.get j = l.perm.get i := by
        rw [Permuter.get_live bound', Permuter.get_live lt', wf.live_nodup.getElem_inj_iff]
        exact Ne.symm same
      rw [if_neg same, if_neg other, getElem?_entries bound]
  · have length := length_entries ({ l with slots := l.slots.modify (l.perm.get i) f } : Leaf V)
    have length' := length_entries l
    have missing : ¬i = j := fun same => bound (same ▸ lt)
    rw [if_neg missing, List.getElem?_eq_none, List.getElem?_eq_none]
    · omega
    · rw [length]
      exact Nat.le_of_not_lt bound

theorem entries_remove (l : Leaf V) (i : Nat) :
    ({ l with perm := l.perm.remove i } : Leaf V).entries = l.entries.eraseIdx i := (List.eraseIdx_map ..).symm

theorem entries_insertFromBack (l : Leaf V) (i : Nat) : ({ l with perm := l.perm.insertFromBack i } : Leaf V).entries =
    l.entries.insertIdx i (l.slot l.perm.back) := List.map_insertIdx ..

end Leaf

end Masstree.Tree
