import Masstree.Lib.Partial
import Masstree.Query.Pivots
import Masstree.Tree.Layered

/-!
# The order of pivots

Where no product overflows, a later pivot falls into the same child as an earlier one or into a later child, so that pivots that are
keys are in order.
-/

namespace Masstree.Tree
open Msgpack (Bytes netOrder toNetOrder)

variable {V : Type} {n m : Node (Leaf V)} {p : Internode (Node (Leaf V))} {l : Leaf V} {lo hi x y i j k B b s fuel : Nat}
  {pvi npv nbranch branchid : Int} {key key' : Bytes}

/-! ### Slices as keys -/

theorem unparseComparable_bytes (x : Nat) : (List.range 8).map (fun k => UInt8.ofNat (x / 256 ^ (7 - k))) = toNetOrder 8 x := by
  have byte : ∀ z, UInt8.ofNat (z % 256) = UInt8.ofNat z := fun z => UInt8.toNat_inj.mp (by simp)
  simp [toNetOrder, List.range, List.range.loop, Nat.div_div_eq_div_mul, byte]

theorem length_unparseComparable (x : Nat) : (unparseComparable x).length ≤ 8 := by
  have le := (List.rdropWhile_prefix (· = 0) (l := (List.range 8).map fun k => UInt8.ofNat (x / 256 ^ (7 - k)))).length_le
  rw [List.length_map, List.length_range] at le
  exact le

/-- A string without the zeros at its end has them for a slice. -/
theorem pad_rdropWhile (s : Bytes) :
    (s.rdropWhile (· = 0)).take s.length ++ List.replicate (s.length - (s.rdropWhile (· = 0)).length) 0 = s := by
  have parts : s.rdropWhile (· = 0) ++ (s.reverse.takeWhile (· = 0)).reverse = s := by
    rw [List.rdropWhile, ← List.reverse_append, List.takeWhile_append_dropWhile, List.reverse_reverse]
  have zeros : (s.reverse.takeWhile (· = 0)).reverse = List.replicate (s.reverse.takeWhile (· = 0)).length 0 := by
    rw [List.eq_replicate_iff, List.length_reverse]
    refine ⟨rfl, fun b mem => ?_⟩
    simpa using List.mem_takeWhile_imp (List.mem_reverse.mp mem)
  rw [zeros] at parts
  have length := congrArg List.length parts
  rw [List.length_append, List.length_replicate] at length
  rw [List.take_of_length_le (by omega), show s.length - (s.rdropWhile (· = 0)).length = (s.reverse.takeWhile (· = 0)).length by omega]
  exact parts

theorem makeComparable_unparse (small : x < 2 ^ 64) : makeComparable (unparseComparable x) = x := by
  have length := Msgpack.toNetOrder_length 8 x
  have padded := pad_rdropWhile (toNetOrder 8 x)
  rw [length] at padded
  rw [makeComparable, unparseComparable, unparseComparable_bytes, padded, Msgpack.netOrder_toNetOrder 8 small]

theorem unparseComparable_le (le : x ≤ y) (small : y < 2 ^ 64) : unparseComparable x ≤ unparseComparable y := by
  rcases Nat.eq_or_lt_of_le le with rfl | less
  · exact List.le_refl _
  · refine List.le_of_lt (lt_of_slice (n := 8) (.inl ?_))
    rw [← makeComparable_eq, ← makeComparable_eq, makeComparable_unparse small, makeComparable_unparse (Nat.lt_trans less small)]
    exact less

/-! ### Children in order -/

/-- Children are responsible for ranges one after the other. -/
theorem Node.Wf.children {P : Nat → Nat → Leaf V → Prop} (wf : (Node.internode p).Wf P lo hi) (lt : i < j) (child : p.child i = some n)
    (child' : p.child j = some m) : ∃ lo₁ hi₁ lo₂ hi₂, n.Wf P lo₁ hi₁ ∧ m.Wf P lo₂ hi₂ ∧ hi₁ ≤ lo₂ ∧ hi₂ ≤ hi := by
  obtain ⟨-, -, chain⟩ := wf_internode.mp wf
  obtain ⟨A, lo₁, B, at_, rfl⟩ := Internode.cells_of_child child lo
  rw [at_] at chain
  obtain ⟨-, here, after⟩ := chain_append.mp chain
  rw [Internode.child_eq p lo, at_] at child'
  obtain ⟨d, rfl⟩ := Nat.exists_eq_add_of_lt lt
  rw [List.getElem?_append_right (by omega), show A.length + d + 1 - A.length = d + 1 by omega, List.getElem?_cons_succ] at child'
  obtain ⟨⟨lo₂, c⟩, there, same⟩ := Option.bind_eq_some_iff.mp child'
  obtain rfl : c = some m := same
  obtain ⟨C, D, rfl, -⟩ := Positions.exists_middle there
  have ranged := ranged_childWf P p.height
  obtain ⟨-, later, last⟩ := chain_append.mp after
  refine ⟨lo₁, _, lo₂, _, (childWf_some.mp here).2, (childWf_some.mp later).2, ?_, (last.start_le ranged).1⟩
  exact ((after.start_le ranged).2 _ (List.mem_append_right _ List.mem_cons_self)).1

/-- The ikeys of an internode are in order and in its range. -/
theorem Node.Wf.ikeys {P : Nat → Nat → Leaf V → Prop} (wf : (Node.internode p).Wf P lo hi) (le : i ≤ j) (inside : j < p.size) :
    lo ≤ (p.ikey i).getD 0 ∧ (p.ikey i).getD 0 ≤ (p.ikey j).getD 0 ∧ (p.ikey j).getD 0 < hi := by
  obtain ⟨-, -, chain⟩ := wf_internode.mp wf
  have ranged := ranged_childWf P p.height
  have before : i < p.rest.length := Nat.lt_of_le_of_lt le inside
  have inside : j < p.rest.length := inside
  have sorted := chain.2.increasing ranged fun e mem => by
    obtain ⟨e', -, rfl⟩ := List.mem_map.mp mem
    rfl
  rw [List.pairwise_map] at sorted
  rw [Internode.ikey, Internode.ikey, List.getElem?_eq_getElem before, List.getElem?_eq_getElem inside, Option.map_some, Option.map_some,
    Option.getD_some, Option.getD_some]
  have mem : ∀ k (lt : k < p.rest.length), (p.rest[k].1, some p.rest[k].2) ∈ p.cells lo := by
    intro k lt
    exact List.mem_cons_of_mem _ (List.mem_map_of_mem (List.getElem_mem lt))
  refine ⟨((chain.start_le ranged).2 _ (mem i before)).1, ?_, ?_⟩
  · rcases Nat.eq_or_lt_of_le le with rfl | lt
    · exact Nat.le_refl _
    · exact Nat.le_of_lt (List.pairwise_iff_getElem.mp sorted i j before inside lt)
  · obtain ⟨A, B, at_⟩ := List.append_of_mem (mem j inside)
    rw [at_] at chain
    obtain ⟨-, here, after⟩ := chain_append.mp chain
    exact Nat.lt_of_lt_of_le (ranged.some_lt _ _ _ here) (after.start_le ranged).1

theorem Leaf.Holds.ikeys (holds : l.Holds lo hi) (le : i ≤ j) (inside : j < l.size) :
    lo ≤ (l.slot (l.perm.get i)).ikey0 ∧ (l.slot (l.perm.get i)).ikey0 ≤ (l.slot (l.perm.get j)).ikey0 ∧
      (l.slot (l.perm.get j)).ikey0 < hi := by
  have first := Leaf.getElem?_entries (Nat.lt_of_le_of_lt le inside)
  have last := Leaf.getElem?_entries inside
  refine ⟨(holds.range _ (List.mem_of_getElem? first)).1, ?_, (holds.range _ (List.mem_of_getElem? last)).2⟩
  rcases Nat.eq_or_lt_of_le le with rfl | lt
  · exact Nat.le_refl _
  · obtain ⟨_, first⟩ := List.getElem?_eq_some_iff.mp first
    obtain ⟨_, last⟩ := List.getElem?_eq_some_iff.mp last
    have ranks := List.pairwise_iff_getElem.mp holds.sorted i j ‹_› ‹_› lt
    rw [first, last] at ranks
    exact (Tree.rank_lt.mp ranks).elim Nat.le_of_lt fun same => Nat.le_of_eq same.1

/-! ### Walks -/

theorem clamp_lt {x : Int} {m : Nat} (pos : 0 < m) : (clamp x (m + 1 - 1 - 1)).toNat < m := by
  unfold clamp
  omega

theorem walk_leaf_eq : (Node.leaf l).walk pvi npv fuel nbranch branchid =
    .ok (if l.size = 0 then [] else unparseComparable (l.slot (l.perm.get (pvChild pvi npv nbranch branchid l.size).toNat)).ikey0) := by
  unfold Node.walk
  dsimp only
  split
  · rfl
  · rw [if_pos (pvChild_bounds (by omega))]

theorem walk_range_leaf (wf : (Node.leaf l).Wf Leaf.Holds lo hi) (walked : (Node.leaf l).walk pvi npv fuel nbranch branchid = .ok key) :
    key = [] ∨ ∃ x, lo ≤ x ∧ x < hi ∧ key = unparseComparable x := by
  rw [walk_leaf_eq] at walked
  obtain rfl := Except.ok.inj walked
  split
  · exact .inl rfl
  · have inside : 0 ≤ pvChild pvi npv nbranch branchid l.size ∧ pvChild pvi npv nbranch branchid l.size < l.size :=
      pvChild_bounds (by omega)
    obtain ⟨low, -, high⟩ := (wf_leaf.mp wf).2.ikeys (Nat.le_refl _)
      (show (pvChild pvi npv nbranch branchid l.size).toNat < l.size by omega)
    exact .inr ⟨_, low, high, rfl⟩

/-- What a walk comes to is in the range of the node that it goes on from, or there is no key there. -/
theorem walk_range (wf : n.Wf Leaf.Holds lo hi) (few : Few npv nbranch) (walked : n.walk pvi npv fuel nbranch branchid = .ok key) :
    key = [] ∨ ∃ x, lo ≤ x ∧ x < hi ∧ key = unparseComparable x := by
  induction fuel generalizing n lo hi nbranch branchid with
  | zero =>
    cases n with
    | leaf l => exact walk_range_leaf wf walked
    | internode p =>
      rw [Node.walk] at walked
      cases walked
  | succ fuel ih =>
    cases n with
    | leaf l => exact walk_range_leaf wf walked
    | internode p =>
      rw [walk_down few] at walked
      split at walked
      · rename_i fewer
        cases child : p.child (pvChild pvi npv nbranch branchid (p.size + 1)).toNat with
        | none =>
          rw [child] at walked
          cases walked
        | some m =>
          rw [child] at walked
          obtain ⟨lo', hi', low, high, wf', -⟩ := wf.child child
          refine (ih wf' (Few.total fewer) walked).imp id fun found => ?_
          obtain ⟨x, above, below, same⟩ := found
          exact ⟨x, Nat.le_trans low above, Nat.lt_of_lt_of_le below high, same⟩
      · rename_i many
        obtain ⟨low, -, high⟩ := wf.ikeys (Nat.le_refl _)
          (clamp_lt (x := pvOffset pvi npv nbranch branchid (p.size + 1)) (few.size_pos many))
        exact .inr ⟨_, low, high, (Except.ok.inj walked).symm⟩

/-- Where no product overflows, what is left of the index is an index in the node, or before or after it. -/
theorem pvOffset_eq (product : i * (B * s) < 2 ^ 31) (first : b * s < 2 ^ 31) (total : B * s < 2 ^ 31) :
    pvOffset i k B b s = (i * (B * s) / k : Nat) - (b * s : Nat) := by
  have quotient : i * (B * s) / k < 2 ^ 31 := Nat.lt_of_le_of_lt (Nat.div_le_self _ _) product
  rw [pvOffset, totalNkeysEstimate_eq total, firstPvInNode, ← Nat.cast_mul, int_eq product, ← Nat.cast_mul, int_eq first,
    ← Int.ofNat_tdiv]
  generalize i * (B * s) / k = q at quotient
  generalize b * s = f at first
  exact Int.bmod_eq_of_le (by omega) (by omega)

/-- Up to 11585 pivots no product is too large. -/
theorem products_lt (lt : i < k) (few : k ≤ 11585) (branch : b < B) (branches : B < k) (small : s ≤ width + 1) :
    i * (B * s) < 2 ^ 31 ∧ b * s < 2 ^ 31 ∧ B * s < 2 ^ 31 := by
  have total : B * s ≤ 11584 * 16 := Nat.mul_le_mul (by omega) small
  have product : i * (B * s) ≤ 11584 * (11584 * 16) := Nat.mul_le_mul (by omega) total
  have first : b * s ≤ B * s := Nat.mul_le_mul_right s (Nat.le_of_lt branch)
  omega

theorem pvOffset_le (le : i ≤ j) (lt : j < k) (few : k ≤ 11585) (branch : b < B) (branches : B < k) (small : s ≤ width + 1) :
    pvOffset i k B b s ≤ pvOffset j k B b s := by
  obtain ⟨product, first, total⟩ := products_lt lt few branch branches small
  have less := Nat.mul_le_mul_right (B * s) le
  have quotients : i * (B * s) / k ≤ j * (B * s) / k := Nat.div_le_div_right less
  rw [pvOffset_eq product first total, pvOffset_eq (Nat.lt_of_le_of_lt less product) first total]
  generalize i * (B * s) / k = q at quotients
  generalize j * (B * s) / k = q' at quotients
  omega

theorem clamp_le {x y : Int} (last : Int) (le : x ≤ y) : clamp x last ≤ clamp y last := by
  unfold clamp
  omega

theorem walk_le_leaf (wf : (Node.leaf l).Wf Leaf.Holds lo hi) (below : hi ≤ 2 ^ 64) (le : i ≤ j) (lt : j < k) (few : k ≤ 11585)
    (branch : b < B) (branches : B < k) (walked : (Node.leaf l).walk i k fuel B b = .ok key)
    (walked' : (Node.leaf l).walk j k fuel B b = .ok key') : key' = [] ∨ key ≤ key' := by
  have holds := (wf_leaf.mp wf).2
  rw [walk_leaf_eq] at walked walked'
  obtain rfl := Except.ok.inj walked
  obtain rfl := Except.ok.inj walked'
  by_cases empty : l.size = 0
  · exact .inl (if_pos empty)
  · rw [if_neg empty, if_neg empty]
    have indices : pvChild i k B b l.size ≤ pvChild j k B b l.size :=
      clamp_le _ (pvOffset_le le lt few branch branches (Nat.le_succ_of_le holds.wf.perm.size_le))
    have inside : 0 ≤ pvChild j k B b l.size ∧ pvChild j k B b l.size < l.size := pvChild_bounds (by omega)
    obtain ⟨-, ikeys, high⟩ := holds.ikeys (Int.toNat_le_toNat indices) (by omega)
    exact .inr (unparseComparable_le ikeys (Nat.lt_of_lt_of_le high below))

/-- The branches before a child. -/
theorem branches_before {c : Nat} (branch : b < B) (inside : c < s) : b * s + c < B * s := by
  have more := Nat.mul_le_mul_right s (Nat.succ_le_of_lt branch)
  rw [Nat.succ_mul] at more
  omega

theorem firstPvInNode_add {c m : Nat} (small : b * (m + 1) + c < 2 ^ 31) :
    int (firstPvInNode b (m + 1) + c) = (b * (m + 1) + c : Nat) := by
  have first : firstPvInNode b (m + 1) = (b * (m + 1) : Nat) := by
    rw [firstPvInNode, ← int_eq (B := b * (m + 1)) (by omega), Nat.cast_mul, Nat.cast_add, Nat.cast_one]
  rw [first, ← Nat.cast_add, int_eq small]

/-- A later pivot comes to a later key. -/
theorem walk_le (wf : n.Wf Leaf.Holds lo hi) (below : hi ≤ 2 ^ 64) (le : i ≤ j) (lt : j < k) (few : k ≤ 11585) (branch : b < B)
    (branches : B < k)
    (walked : n.walk i k fuel B b = .ok key) (walked' : n.walk j k fuel B b = .ok key') : key' = [] ∨ key ≤ key' := by
  induction fuel generalizing n lo hi B b with
  | zero =>
    cases n with
    | leaf l => exact walk_le_leaf wf below le lt few branch branches walked walked'
    | internode p =>
      rw [Node.walk] at walked
      cases walked
  | succ fuel ih =>
    cases n with
    | leaf l => exact walk_le_leaf wf below le lt few branch branches walked walked'
    | internode p =>
      have fewB : Few k B := ⟨by omega, int_eq (by omega)⟩
      have small : p.size + 1 ≤ width + 1 := Nat.succ_le_succ (wf_internode.mp wf).2.1
      have offsets := pvOffset_le le lt few branch branches small
      rw [Nat.cast_add, Nat.cast_one] at offsets
      rw [walk_down fewB] at walked walked'
      by_cases fewer : totalNkeysEstimate B (p.size + 1) < k
      · rw [if_pos fewer] at walked walked'
        have indices : pvChild i k B b (p.size + 1) ≤ pvChild j k B b (p.size + 1) := clamp_le _ offsets
        have low : 0 ≤ pvChild i k B b (p.size + 1) ∧ pvChild i k B b (p.size + 1) < p.size + 1 := pvChild_bounds (by omega)
        have high : 0 ≤ pvChild j k B b (p.size + 1) ∧ pvChild j k B b (p.size + 1) < p.size + 1 := pvChild_bounds (by omega)
        obtain ⟨c, at_⟩ := Int.eq_ofNat_of_zero_le low.1
        obtain ⟨d, at'⟩ := Int.eq_ofNat_of_zero_le high.1
        rw [at_] at walked indices
        rw [at'] at walked' indices high
        rw [Int.toNat_natCast] at walked walked'
        cases child : p.child c with
        | none =>
          rw [child] at walked
          cases walked
        | some n =>
          cases child' : p.child d with
          | none =>
            rw [child'] at walked'
            cases walked'
          | some m =>
            rw [child] at walked
            rw [child'] at walked'
            rcases Nat.eq_or_lt_of_le (Int.ofNat_le.mp indices) with rfl | before
            · obtain rfl := Option.some.inj (child.symm.trans child')
              obtain ⟨lo', hi', -, high', wf', -⟩ := wf.child child
              have total := wf.total branches (by omega)
              have before := branches_before branch (show c < p.size + 1 by omega)
              rw [total] at fewer walked walked'
              have fewer := Int.ofNat_lt.mp fewer
              rw [firstPvInNode_add (Nat.lt_trans before (small_of_lt fewer (by omega)))] at walked walked'
              exact ih wf' (Nat.le_trans high' below) before fewer walked walked'
            · obtain ⟨lo₁, hi₁, lo₂, hi₂, wf₁, wf₂, apart, inside⟩ := wf.children before child child'
              rcases walk_range wf₂ (Few.total fewer) walked' with none_ | ⟨y, above, high', same⟩
              · exact .inl none_
              · refine .inr ?_
                rcases walk_range wf₁ (Few.total fewer) walked with none_ | ⟨x, -, low', rfl⟩
                · rw [none_]
                  exact List.nil_le _
                · rw [same]
                  exact unparseComparable_le (Nat.le_trans (Nat.le_of_lt low') (Nat.le_trans apart above))
                    (Nat.lt_of_lt_of_le high' (Nat.le_trans inside below))
      · rw [if_neg fewer] at walked walked'
        have some_ := fewB.size_pos fewer
        obtain rfl := Except.ok.inj walked
        obtain rfl := Except.ok.inj walked'
        have indices := clamp_le (p.size + 1 - 1 - 1) offsets
        obtain ⟨-, ikeys, high⟩ := wf.ikeys (Int.toNat_le_toNat indices) (clamp_lt some_)
        exact .inr (unparseComparable_le ikeys (Nat.lt_of_lt_of_le high below))

/-! ### All pivots -/

namespace Table

variable {t : Table V} {npv : Nat} {pv : List Bytes} {root : Node (Leaf V)}

theorem findpivots_get (layer : t.layers [] = some root) (pivots : t.findpivots npv = .ok pv) (lt : i < npv - 1) :
    if i = 0 then pv.getD i [] = [] else root.findpv i (npv - 1 : Nat) = .ok (pv.getD i []) := by
  obtain ⟨length, each⟩ := List.forall₂_iff_get.mp (Partial.forall₂_of_mapM pivots)
  rw [List.length_range] at length
  have here := each i (by rw [List.length_range]; omega) (by omega)
  rw [List.get_eq_getElem, List.get_eq_getElem, List.getElem_range, if_neg (Nat.ne_of_lt lt), layer] at here
  rw [List.getD_eq_getElem _ _ (by omega)]
  split
  · rename_i first
    rw [if_pos first] at here
    exact (Except.ok.inj here).symm
  · rename_i later
    rw [if_neg later] at here
    exact here

/-- The pivots begin with the empty key, are no longer than a slice, and up to 11585 ranges those that are not empty are in order. -/
theorem findpivots_spec (reachable : t.Reachable) (pivots : t.findpivots npv = .ok pv) :
    (0 < npv - 1 → pv.getD 0 [] = []) ∧ (∀ i < npv - 1, (pv.getD i []).length ≤ 8) ∧
      (npv - 1 ≤ 11585 → ∀ i j, i ≤ j → j < npv - 1 → pv.getD j [] = [] ∨ pv.getD i [] ≤ pv.getD j []) := by
  have ok := reachable.good.toOk
  obtain ⟨root, layer⟩ := Option.isSome_iff_exists.mp ok.top
  have sound := ok.sound [] root layer
  refine ⟨fun lt => by simpa using findpivots_get layer pivots lt, fun i lt => ?_, fun few i j le lt => ?_⟩
  · have found := findpivots_get layer pivots lt
    split at found
    · rw [found]
      exact Nat.zero_le 8
    · rcases walk_range sound (few_one (by omega)) found with none_ | ⟨x, -, -, same⟩
      · rw [none_]
        exact Nat.zero_le 8
      · rw [same]
        exact length_unparseComparable x
  · have found := findpivots_get layer pivots lt
    have earlier := findpivots_get layer pivots (Nat.lt_of_le_of_lt le lt)
    by_cases first : i = 0
    · rw [if_pos first] at earlier
      rw [earlier]
      exact .inr (List.nil_le _)
    · rw [if_neg first] at earlier
      rw [if_neg (by omega)] at found
      exact walk_le (B := 1) (b := 0) sound (Nat.le_refl _) le lt few Nat.one_pos (by omega) earlier found

end Table

end Masstree.Tree
