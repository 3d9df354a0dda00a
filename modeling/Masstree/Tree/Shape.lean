import Masstree.Lib.Positions
import Masstree.Tree.Node
import Mathlib.Data.List.Pairwise

/-!
# The ranges of a layer's nodes

A node is responsible for the ikeys from `lo` up to `hi`. Its first child begins where it begins, every other child at
its ikey, and each ends where the next begins; a null `child_[0]` has an empty range. Only the leaves of the leftmost
path begin at 0, so these are never null.
-/

namespace Masstree.Tree
open Positions

/-! ### Children side by side -/

section Chain
variable {N : Type} {R S : Nat → Nat → Option N → Prop} {hi hi' lo x : Nat} {c : Option N} {n : N}
  {A B cells : List (Nat × Option N)}

/-- Where the next child begins, or the node ends. -/
def start (hi : Nat) : List (Nat × Option N) → Nat
  | [] => hi
  | e :: _ => e.1

/-- Children with where they begin, each of which is as `R` says of its range. -/
def Chain (R : Nat → Nat → Option N → Prop) (hi : Nat) : List (Nat × Option N) → Prop
  | [] => True
  | e :: cells => R e.1 (start hi cells) e.2 ∧ Chain R hi cells

theorem start_append (A B : List (Nat × Option N)) : start hi (A ++ B) = start (start hi B) A := by
  cases A <;> rfl

theorem chain_append : Chain R hi (A ++ B) ↔ Chain R (start hi B) A ∧ Chain R hi B := by
  induction A with
  | nil => exact ⟨fun h => ⟨trivial, h⟩, And.right⟩
  | cons e A ih =>
    rw [List.cons_append, Chain, Chain, ih, start_append]
    exact and_assoc.symm

theorem Chain.imp (h : Chain R hi cells) (imp : ∀ lo hi c, R lo hi c → S lo hi c) : Chain S hi cells := by
  induction cells with
  | nil => trivial
  | cons e cells ih => exact ⟨imp _ _ _ h.1, ih h.2⟩

/-- The last child takes in what follows. -/
theorem Chain.extend (h : Chain R hi A) (more : ∀ e, A.getLast? = some e → R e.1 hi e.2 → R e.1 hi' e.2) : Chain R hi' A := by
  rcases List.eq_nil_or_concat A with rfl | ⟨A, e, rfl⟩
  · trivial
  · rw [List.concat_eq_append] at h more ⊢
    obtain ⟨before, here, -⟩ := chain_append.mp h
    exact chain_append.mpr ⟨before, more e List.getLast?_concat here, trivial⟩

/-- Children have a range; a null one an empty range. -/
structure Ranged (R : Nat → Nat → Option N → Prop) : Prop where
  some_lt : ∀ lo hi n, R lo hi (some n) → lo < hi
  none_eq : ∀ lo hi, R lo hi none → lo = hi

theorem Ranged.le (ranged : Ranged R) (h : R lo hi c) : lo ≤ hi := by
  cases c with
  | none => exact Nat.le_of_eq (ranged.none_eq _ _ h)
  | some n => exact Nat.le_of_lt (ranged.some_lt _ _ _ h)

theorem Chain.start_le (ranged : Ranged R) (h : Chain R hi cells) :
    start hi cells ≤ hi ∧ ∀ e ∈ cells, start hi cells ≤ e.1 ∧ e.1 ≤ hi := by
  induction cells with
  | nil => exact ⟨Nat.le_refl _, fun _ mem => by cases mem⟩
  | cons e cells ih =>
    obtain ⟨le, all⟩ := ih h.2
    have here := ranged.le h.1
    refine ⟨Nat.le_trans here le, ?_⟩
    intro e' mem
    rcases List.mem_cons.mp mem with rfl | mem
    · exact ⟨Nat.le_refl _, Nat.le_trans here le⟩
    · exact ⟨Nat.le_trans here (all e' mem).1, (all e' mem).2⟩

theorem Chain.start_lt (ranged : Ranged R) (h : Chain R hi cells) {a : Nat} (mem : (a, some n) ∈ cells) :
    start hi cells < hi := by
  induction cells with
  | nil => cases mem
  | cons e cells ih =>
    rcases List.mem_cons.mp mem with rfl | mem
    · exact Nat.lt_of_lt_of_le (ranged.some_lt _ _ _ h.1) (h.2.start_le ranged).1
    · exact Nat.lt_of_le_of_lt (ranged.le h.1) (ih h.2 mem)

/-- Children that are not null begin one after the other. -/
theorem Chain.increasing (ranged : Ranged R) (h : Chain R hi cells) (some_ : ∀ e ∈ cells, e.2.isSome) :
    cells.Pairwise fun a b => a.1 < b.1 := by
  induction cells with
  | nil => exact .nil
  | cons e cells ih =>
    obtain ⟨n, child⟩ := Option.isSome_iff_exists.mp (some_ e List.mem_cons_self)
    have here := h.1
    rw [child] at here
    have lt := ranged.some_lt _ _ _ here
    refine .cons ?_ (ih h.2 fun e' mem => some_ e' (List.mem_cons_of_mem _ mem))
    intro e' mem
    exact Nat.lt_of_lt_of_le lt ((h.2.start_le ranged).2 e' mem).1

/-- Every ikey in the range has its child. -/
theorem Chain.locate (ranged : Ranged R) (h : Chain R hi cells) (low : start hi cells ≤ x) (high : x < hi) :
    ∃ A lo' n B, cells = A ++ (lo', some n) :: B ∧ lo' ≤ x ∧ x < start hi B := by
  induction cells with
  | nil => exact absurd high (Nat.not_lt_of_le low)
  | cons e cells ih =>
    obtain ⟨lo', c⟩ := e
    by_cases here : x < start hi cells
    · cases c with
      | none => exact absurd (ranged.none_eq _ _ h.1) (Nat.ne_of_lt (Nat.lt_of_le_of_lt low here))
      | some n => exact ⟨[], lo', n, cells, rfl, low, here⟩
    · obtain ⟨A, lo'', n, B, rfl, found⟩ := ih h.2 (Nat.le_of_not_lt here)
      exact ⟨(lo', c) :: A, lo'', n, B, rfl, found⟩

end Chain

/-! ### The children of an internode -/

namespace Internode

variable {N : Type} {R : Nat → Nat → Option N → Prop} {p : Internode N} {hi lo lo' x kp : Nat} {c : Option N} {n : N}
  {A B : List (Nat × Option N)}

def cells (p : Internode N) (lo : Nat) : List (Nat × Option N) := (lo, p.first) :: p.rest.map fun e => (e.1, some e.2)

theorem length_cells (p : Internode N) (lo : Nat) : (p.cells lo).length = p.size + 1 := by
  rw [cells, List.length_cons, List.length_map, size]

theorem child_eq (p : Internode N) (lo kp : Nat) : p.child kp = (p.cells lo)[kp]?.bind Prod.snd := by
  cases kp with
  | zero => rfl
  | succ i =>
    rw [child, cells, List.getElem?_cons_succ, List.getElem?_map]
    cases p.rest[i]? <;> rfl

theorem child_at (at_ : p.cells lo = A ++ (lo', c) :: B) : p.child A.length = c := by
  rw [child_eq p lo, at_, List.getElem?_append_right (Nat.le_refl _), Nat.sub_self]
  rfl

/-- A child, in the cells. -/
theorem cells_of_child (child : p.child kp = some n) (lo : Nat) : ∃ A lo' B, p.cells lo = A ++ (lo', some n) :: B ∧ A.length = kp := by
  rw [child_eq p lo] at child
  obtain ⟨⟨lo', c⟩, at_, same⟩ := Option.bind_eq_some_iff.mp child
  obtain rfl : c = some n := same
  obtain ⟨A, B, cells, length⟩ := exists_middle at_
  exact ⟨A, lo', B, cells, length⟩

theorem child_le (child : (p.child kp).isSome) : kp ≤ p.size := by
  obtain ⟨n, child⟩ := Option.isSome_iff_exists.mp child
  obtain ⟨A, lo, B, cells, rfl⟩ := cells_of_child child 0
  have length := p.length_cells 0
  rw [cells, List.length_append, List.length_cons] at length
  omega

/-- Only `child_[0]` can be null. -/
theorem child_isSome (inside : kp ≤ p.size) (there : kp = 0 → p.first.isSome) : (p.child kp).isSome := by
  cases kp with
  | zero => exact there rfl
  | succ i =>
    rw [child, List.getElem?_eq_getElem inside]
    rfl

/-- The place of a cell in the source's arrays. -/
theorem cells_split (at_ : p.cells lo = A ++ (lo', c) :: B) :
    (A = [] ∧ lo' = lo ∧ c = p.first ∧ B = p.rest.map fun e => (e.1, some e.2)) ∨
      ∃ A' n B', A = (lo, p.first) :: A'.map (fun e => (e.1, some e.2)) ∧ c = some n ∧
        B = B'.map (fun e => (e.1, some e.2)) ∧ p.rest = A' ++ (lo', n) :: B' := by
  cases A with
  | nil =>
    obtain ⟨first, rest⟩ := List.cons.inj at_
    obtain ⟨rfl, rfl⟩ := Prod.mk.inj first
    exact .inl ⟨rfl, rfl, rfl, rest.symm⟩
  | cons a A =>
    obtain ⟨rfl, rest⟩ := List.cons.inj at_
    obtain ⟨A', later, same, rfl, later_⟩ := List.map_eq_append_iff.mp rest
    obtain ⟨⟨k, n⟩, B', rfl, here, rfl⟩ := List.map_eq_cons_iff.mp later_
    obtain ⟨rfl, rfl⟩ := Prod.mk.inj here
    exact .inr ⟨A', n, B', rfl, rfl, rfl, same⟩

theorem cells_setChild (at_ : p.cells lo = A ++ (lo', c) :: B) (n : N) :
    (p.setChild A.length n).cells lo = A ++ (lo', some n) :: B := by
  rcases cells_split at_ with ⟨rfl, rfl, -, rfl⟩ | ⟨A', m, B', rfl, -, rfl, rest⟩
  · rfl
  · rw [List.length_cons, List.length_map]
    show (lo, p.first) :: (p.rest.modify A'.length fun e => (e.1, n)).map _ = _
    rw [rest, modify_middle, List.map_append]
    rfl

/-- A second child after the one at a cell. -/
theorem cells_insert (at_ : p.cells lo = A ++ (lo', c) :: B) (n : N) :
    (p.insert A.length x n).cells lo = A ++ (lo', c) :: (x, some n) :: B := by
  rcases cells_split at_ with ⟨rfl, rfl, rfl, rfl⟩ | ⟨A', m, B', rfl, rfl, rfl, rest⟩
  · rfl
  · rw [List.length_cons, List.length_map]
    show (lo, p.first) :: (p.rest.insertIdx (A'.length + 1) (x, n)).map _ = _
    have whole : A' ++ (lo', m) :: B' = (A' ++ [(lo', m)]) ++ B' := by simp
    have length : A'.length + 1 = (A' ++ [(lo', m)]).length := by simp
    rw [rest, whole, length, insertIdx_middle, List.map_append, List.map_append]
    simp

theorem cells_setIkey (at_ : p.cells lo = A ++ (lo', c) :: B) (later : A ≠ []) (y : Nat) :
    (p.setIkey (A.length - 1) y).cells lo = A ++ (y, c) :: B := by
  rcases cells_split at_ with ⟨rfl, -⟩ | ⟨A', m, B', rfl, rfl, rfl, rest⟩
  · exact absurd rfl later
  · rw [List.length_cons, List.length_map, Nat.add_sub_cancel]
    show (lo, p.first) :: (p.rest.modify A'.length fun e => (y, e.2)).map _ = _
    rw [rest, modify_middle, List.map_append]
    rfl

theorem cells_remove (at_ : p.cells lo = A ++ (lo', c) :: B) (later : A ≠ []) :
    (p.remove A.length).cells lo = A ++ B := by
  rcases cells_split at_ with ⟨rfl, -⟩ | ⟨A', m, B', rfl, rfl, rfl, rest⟩
  · exact absurd rfl later
  · rw [List.length_cons, List.length_map]
    show (lo, p.first) :: (p.rest.eraseIdx (A'.length + 1 - 1)).map _ = _
    rw [rest, Nat.add_sub_cancel, eraseIdx_middle, List.map_append]
    rfl

/-- An internode whose own range begins elsewhere. -/
theorem cells_raise (at_ : p.cells lo = (lo', c) :: B) (y : Nat) : p.cells y = (y, c) :: B := by
  obtain ⟨first, rest⟩ := List.cons.inj at_
  obtain ⟨-, rfl⟩ := Prod.mk.inj first
  exact congrArg (List.cons _) rest

/-- Only the first of several children can be null. -/
theorem last_some {a : Nat} (last : (p.cells lo).getLast? = some (a, c)) : (a = lo ∧ c = p.first ∧ p.rest = []) ∨ c.isSome := by
  cases rest : p.rest with
  | nil =>
    rw [cells, rest] at last
    obtain ⟨rfl, rfl⟩ := Prod.mk.inj (Option.some.inj last)
    exact .inl ⟨rfl, rfl, rfl⟩
  | cons e rest' =>
    right
    obtain ⟨A, same⟩ := List.getLast?_eq_some_iff.mp last
    cases A with
    | nil => 
      have length := p.length_cells lo
      rw [same, size, rest] at length
      cases length
    | cons b A =>
      rw [cells] at same
      have mem : (a, c) ∈ p.rest.map fun e => (e.1, some e.2) := by
        rw [(List.cons.inj same).2]
        exact List.mem_append_right A List.mem_cons_self
      obtain ⟨r, -, here⟩ := List.mem_map.mp mem
      rw [← (Prod.mk.inj here).2]
      rfl

theorem ikey_eq (p : Internode N) (lo i : Nat) : p.ikey i = (p.cells lo)[i + 1]?.map Prod.fst := by
  rw [ikey, cells, List.getElem?_cons_succ, List.getElem?_map, Option.map_map]
  rfl

/-- `upper` finds the child with the ikey in its range. -/
theorem upper_eq (ranged : Ranged R) (h : Chain R hi (p.cells lo)) (at_ : p.cells lo = A ++ (lo', c) :: B) (low : lo' ≤ x)
    (high : x < start hi B) : p.upper x = A.length := by
  have length := p.length_cells lo
  rw [at_, List.length_append, List.length_cons] at length
  have read : ∀ i (lt : i < p.rest.length), (p.ikey i).getD 0 = p.rest[i].1 := by
    intro i lt
    rw [ikey, List.getElem?_eq_getElem lt]
    rfl
  have compares : BinarySearch.Compares (fun m => compare x ((p.ikey m).getD 0)) x (fun m => (p.ikey m).getD 0) p.size := by
    refine ⟨fun _ _ => rfl, ?_⟩
    intro i j lt bound
    have sorted := h.2.increasing ranged (by
      intro e mem
      obtain ⟨r, -, rfl⟩ := List.mem_map.mp mem
      rfl)
    rw [read i (Nat.lt_trans lt bound), read j bound]
    exact List.pairwise_iff_getElem.mp (List.pairwise_map.mp sorted) i j _ _ lt
  obtain ⟨le, below, above⟩ :=
    BinarySearch.upper_between compares p.size 0 p.size (Nat.le_refl _) (BinarySearch.Between.start _ _ _)
  rw [at_] at h
  obtain ⟨before, here, later⟩ := chain_append.mp h
  change p.upper x ≤ p.size at le
  rcases Nat.lt_trichotomy (p.upper x) A.length with less | same | more
  · have inside : p.upper x < p.size := by omega
    have high' := above (p.upper x) (Nat.le_refl _) inside
    rw [p.ikey_eq lo, at_] at high'
    have bound : ∀ e, (A ++ (lo', c) :: B)[p.upper x + 1]? = some e → e.1 ≤ lo' := by
      intro e found
      rcases Nat.lt_or_eq_of_le (Nat.succ_le_of_lt less) with inner | last
      · rw [List.getElem?_append_left inner] at found
        exact ((before.start_le ranged).2 e (List.mem_of_getElem? found)).2
      · rw [← Nat.succ_eq_add_one, last, List.getElem?_append_right (Nat.le_refl _), Nat.sub_self] at found
        obtain rfl := Option.some.inj found
        exact Nat.le_refl _
    have there : p.upper x + 1 < (A ++ (lo', c) :: B).length := by
      rw [List.length_append, List.length_cons]
      omega
    have le' := bound _ (List.getElem?_eq_getElem there)
    rw [List.getElem?_eq_getElem there, Option.map_some, Option.getD_some] at high'
    omega
  · exact same
  · have low' := below A.length more
    have next : (A ++ (lo', c) :: B)[A.length + 1]? = B[0]? := by
      rw [List.getElem?_append_right (Nat.le_succ _), Nat.succ_sub (Nat.le_refl _), Nat.sub_self]
      rfl
    rw [p.ikey_eq lo, at_, next] at low'
    cases B with
    | nil =>
      rw [List.length_nil] at length
      omega
    | cons b B => exact absurd high (Nat.not_lt_of_le low')

end Internode

/-! ### Nodes -/

section Wf
variable {L : Type}

mutual

/-- The node is responsible for the ikeys from `lo` up to `hi`, and its leaves are as `P` says of theirs. -/
def Node.Wf (P : Nat → Nat → L → Prop) (lo hi : Nat) : Node L → Prop
  | .leaf l => lo < hi ∧ P lo hi l
  | .internode ⟨_, height, first, rest⟩ =>
    lo < hi ∧ rest.length ≤ width ∧ ChildWf P height lo (start hi (rest.map fun e => (e.1, some e.2))) first ∧
      RestWf P height hi rest

/-- A null `child_[0]`, or a child below the given height. -/
def ChildWf (P : Nat → Nat → L → Prop) (height lo hi : Nat) : Option (Node L) → Prop
  | none => lo = hi ∧ 0 < lo
  | some n => n.height < height ∧ n.Wf P lo hi

def RestWf (P : Nat → Nat → L → Prop) (height hi : Nat) : List (Nat × Node L) → Prop
  | [] => True
  | (k, n) :: rest =>
    (n.height < height ∧ n.Wf P k (start hi (rest.map fun e => (e.1, some e.2)))) ∧ RestWf P height hi rest

end

variable {P : Nat → Nat → L → Prop} {height lo hi hi' lo' : Nat} {l : L} {n : Node L} {p : Internode (Node L)}
  {c : Option (Node L)} {A B : List (Nat × Option (Node L))} {rest : List (Nat × Node L)}

theorem wf_leaf : (Node.leaf l).Wf P lo hi ↔ lo < hi ∧ P lo hi l := by rw [Node.Wf]

theorem restWf_iff : RestWf P height hi rest ↔ Chain (ChildWf P height) hi (rest.map fun e => (e.1, some e.2)) := by
  induction rest with
  | nil => exact Iff.of_eq (by rw [RestWf]; rfl)
  | cons e rest ih =>
    rw [RestWf, ih, List.map_cons, Chain, ChildWf]

theorem wf_internode : (Node.internode p).Wf P lo hi ↔
    lo < hi ∧ p.size ≤ width ∧ Chain (ChildWf P p.height) hi (p.cells lo) := by
  rw [Node.Wf, restWf_iff]
  rfl

theorem Node.Wf.version (wf : (Node.internode p).Wf P lo hi) (v : Nodeversion) :
    (Node.internode { p with version := v }).Wf P lo hi := wf_internode.mpr (wf_internode.mp wf)

theorem Node.Wf.lt (wf : n.Wf P lo hi) : lo < hi := by
  cases n with
  | leaf l => exact (wf_leaf.mp wf).1
  | internode p => exact (wf_internode.mp wf).1

theorem childWf_some : ChildWf P height lo hi (some n) ↔ n.height < height ∧ n.Wf P lo hi := by rw [ChildWf]

theorem childWf_none : ChildWf P height lo hi none ↔ lo = hi ∧ 0 < lo := by rw [ChildWf]

theorem ranged_childWf (P : Nat → Nat → L → Prop) (height : Nat) : Ranged (ChildWf P height) where
  some_lt _ _ _ child := (childWf_some.mp child).2.lt
  none_eq _ _ child := (childWf_none.mp child).1

theorem Node.Wf.height_pos (wf : (Node.internode p).Wf P lo hi) : 0 < p.height := by
  obtain ⟨lt, -, chain⟩ := wf_internode.mp wf
  obtain ⟨A, lo', m, B, at_, -⟩ := chain.locate (ranged_childWf P p.height) (Nat.le_refl lo) lt
  rw [at_] at chain
  exact Nat.zero_lt_of_lt (childWf_some.mp (chain_append.mp chain).2.1).1

/-- A child is lower, and responsible for part of the range, where the search goes to it. -/
theorem Node.Wf.child {i : Nat} (wf : (Node.internode p).Wf P lo hi) (child : p.child i = some n) :
    ∃ lo' hi', lo ≤ lo' ∧ hi' ≤ hi ∧ n.Wf P lo' hi' ∧ n.height < p.height ∧
      ∀ ikey, lo' ≤ ikey → ikey < hi' → p.upper ikey = i := by
  obtain ⟨-, -, chain⟩ := wf_internode.mp wf
  obtain ⟨A, lo', B, at_, rfl⟩ := Internode.cells_of_child child lo
  have parts := chain
  rw [at_] at parts
  obtain ⟨before, here, after⟩ := chain_append.mp parts
  obtain ⟨lower, wf'⟩ := childWf_some.mp here
  refine ⟨lo', start hi B, ?_, ?_, wf', lower, fun ikey low high => Internode.upper_eq (ranged_childWf P p.height) chain at_ low high⟩
  · have least := (chain.start_le (ranged_childWf P p.height)).2 (lo', some n) (by
      rw [at_]
      exact List.mem_append_right _ List.mem_cons_self)
    exact least.1
  · exact (after.start_le (ranged_childWf P p.height)).1

/-- A node can be responsible for more above its range, where its leaves can. -/
theorem Node.Wf.extend (more : ∀ lo hi hi' l, hi ≤ hi' → P lo hi l → P lo hi' l) (wf : n.Wf P lo hi) (le : hi ≤ hi') :
    n.Wf P lo hi' := by
  induction height : n.height using Nat.strongRecOn generalizing n lo hi hi' with
  | ind k ih =>
    cases n with
    | leaf l =>
      obtain ⟨lt, holds⟩ := wf_leaf.mp wf
      exact wf_leaf.mpr ⟨Nat.lt_of_lt_of_le lt le, more _ _ _ _ le holds⟩
    | internode p =>
      obtain ⟨lt, size, chain⟩ := wf_internode.mp wf
      refine wf_internode.mpr ⟨Nat.lt_of_lt_of_le lt le, size, chain.extend ?_⟩
      intro e last child
      obtain ⟨a, c⟩ := e
      cases c with
      | some n =>
        obtain ⟨lower, wf⟩ := childWf_some.mp child
        exact childWf_some.mpr ⟨lower, ih n.height (height ▸ lower) wf le rfl⟩
      | none =>
        rcases Internode.last_some last with ⟨rfl, -, -⟩ | some_
        · exact absurd (childWf_none.mp child).1 (Nat.ne_of_lt lt)
        · cases some_

/-! ### Leaves -/

def cellLeaves (cells : List (Nat × Option (Node L))) : List L := cells.flatMap fun e => firstLeaves e.2

theorem cellLeaves_append (A B : List (Nat × Option (Node L))) : cellLeaves (A ++ B) = cellLeaves A ++ cellLeaves B :=
  List.flatMap_append

theorem cellLeaves_cons (a : Nat) (c : Option (Node L)) (B : List (Nat × Option (Node L))) :
    cellLeaves ((a, c) :: B) = firstLeaves c ++ cellLeaves B := List.flatMap_cons

theorem restLeaves_eq (rest : List (Nat × Node L)) :
    restLeaves rest = cellLeaves (rest.map fun e => (e.1, some e.2)) := by
  induction rest with
  | nil => rfl
  | cons e rest ih =>
    rw [restLeaves, ih, List.map_cons, cellLeaves_cons, firstLeaves]

theorem leaves_internode (p : Internode (Node L)) (lo : Nat) : (Node.internode p).leaves = cellLeaves (p.cells lo) := by
  rw [Node.leaves, restLeaves_eq, Internode.cells, cellLeaves_cons]

theorem frame_leaves (at_ : p.cells lo = A ++ (lo', c) :: B) :
    (⟨p, A.length⟩ : Frame L).before = cellLeaves A ∧ (⟨p, A.length⟩ : Frame L).after = cellLeaves B := by
  rcases Internode.cells_split at_ with ⟨rfl, -, -, rfl⟩ | ⟨A', m, B', rfl, -, rfl, rest⟩
  · exact ⟨rfl, restLeaves_eq p.rest⟩
  · rw [List.length_cons, List.length_map]
    refine ⟨?_, ?_⟩
    · show firstLeaves p.first ++ restLeaves (p.rest.take A'.length) = _
      rw [rest, List.take_left, restLeaves_eq, cellLeaves_cons]
    · show restLeaves (p.rest.drop (A'.length + 1)) = _
      have whole : A' ++ (lo', m) :: B' = (A' ++ [(lo', m)]) ++ B' := by simp
      rw [rest, whole, List.drop_left' (by simp), restLeaves_eq]

/-- No node is without leaves. -/
theorem Node.Wf.leaves_ne_nil (wf : n.Wf P lo hi) : n.leaves ≠ [] := by
  induction height : n.height using Nat.strongRecOn generalizing n lo hi with
  | ind k ih =>
    cases n with
    | leaf l => exact List.cons_ne_nil l []
    | internode p =>
      obtain ⟨lt, -, chain⟩ := wf_internode.mp wf
      obtain ⟨A, lo', m, B, at_, -⟩ := chain.locate (ranged_childWf P p.height) (Nat.le_refl lo) lt
      rw [at_] at chain
      obtain ⟨lower, wf⟩ := childWf_some.mp (chain_append.mp chain).2.1
      have inner := ih m.height (height ▸ lower) wf rfl
      rw [leaves_internode p lo, at_, cellLeaves_append, cellLeaves_cons, firstLeaves]
      intro none
      exact inner (List.append_eq_nil_iff.mp (List.append_eq_nil_iff.mp none).2).1

theorem chain_leaves (h : Chain (ChildWf P height) hi A) {a : Nat} (mem : (a, some n) ∈ A) : cellLeaves A ≠ [] := by
  obtain ⟨A₁, A₂, rfl⟩ := List.append_of_mem mem
  obtain ⟨-, wf⟩ := childWf_some.mp (chain_append.mp h).2.1
  rw [cellLeaves_append, cellLeaves_cons, firstLeaves]
  intro none
  exact wf.leaves_ne_nil (List.append_eq_nil_iff.mp (List.append_eq_nil_iff.mp none).2).1

/-- Leaves side by side, from `lo` up to `hi`. -/
def Tiles (P : Nat → Nat → L → Prop) (lo hi : Nat) : List L → Prop
  | [] => lo = hi
  | l :: leaves => ∃ m, lo < m ∧ P lo m l ∧ Tiles P m hi leaves

theorem tiles_append {leaves leaves' : List L} :
    Tiles P lo hi (leaves ++ leaves') ↔ ∃ m, Tiles P lo m leaves ∧ Tiles P m hi leaves' := by
  induction leaves generalizing lo with
  | nil => exact ⟨fun h => ⟨lo, rfl, h⟩, fun ⟨_, same, h⟩ => same ▸ h⟩
  | cons l leaves ih =>
    constructor
    · rintro ⟨m, lt, holds, rest⟩
      obtain ⟨m', first, second⟩ := ih.mp rest
      exact ⟨m', ⟨m, lt, holds, first⟩, second⟩
    · rintro ⟨m', ⟨m, lt, holds, first⟩, second⟩
      exact ⟨m, lt, holds, ih.mpr ⟨m', first, second⟩⟩

theorem Tiles.le {leaves : List L} (h : Tiles P lo hi leaves) : lo ≤ hi := by
  induction leaves generalizing lo with
  | nil => exact Nat.le_of_eq h
  | cons l leaves ih =>
    obtain ⟨m, lt, -, rest⟩ := h
    exact Nat.le_trans (Nat.le_of_lt lt) (ih rest)

theorem Tiles.lt_of_ne_nil {leaves : List L} (h : Tiles P lo hi leaves) (some_ : leaves ≠ []) : lo < hi := by
  cases leaves with
  | nil => exact absurd rfl some_
  | cons l leaves =>
    obtain ⟨m, lt, -, rest⟩ := h
    exact Nat.lt_of_lt_of_le lt rest.le

theorem Tiles.mem {leaves : List L} (h : Tiles P lo hi leaves) (mem : l ∈ leaves) :
    ∃ lo' hi', lo ≤ lo' ∧ lo' < hi' ∧ hi' ≤ hi ∧ P lo' hi' l := by
  obtain ⟨A, B, rfl⟩ := List.append_of_mem mem
  obtain ⟨lo', before, hi', lt, holds, after⟩ := tiles_append.mp h
  exact ⟨lo', hi', before.le, lt, after.le, holds⟩

theorem Chain.tiles (h : Chain (ChildWf P height) hi A)
    (each : ∀ m lo hi, Node.height m < height → m.Wf P lo hi → Tiles P lo hi m.leaves) :
    Tiles P (start hi A) hi (cellLeaves A) := by
  induction A with
  | nil => exact (rfl : hi = hi)
  | cons e A ih =>
    obtain ⟨a, c⟩ := e
    rw [cellLeaves_cons]
    apply tiles_append.mpr
    refine ⟨start hi A, ?_, ih h.2⟩
    cases c with
    | none => exact (childWf_none.mp h.1).1
    | some m =>
      obtain ⟨lower, wf⟩ := childWf_some.mp h.1
      exact each m _ _ lower wf

/-- The leaves of a node make up its range. -/
theorem Node.Wf.tiles (wf : n.Wf P lo hi) : Tiles P lo hi n.leaves := by
  induction height : n.height using Nat.strongRecOn generalizing n lo hi with
  | ind k ih =>
    cases n with
    | leaf l =>
      obtain ⟨lt, holds⟩ := wf_leaf.mp wf
      exact ⟨hi, lt, holds, rfl⟩
    | internode p =>
      obtain ⟨-, -, chain⟩ := wf_internode.mp wf
      rw [leaves_internode p lo]
      exact chain.tiles fun m _ _ lower wf => ih m.height (height ▸ lower) wf rfl

theorem tiles_cellLeaves (h : Chain (ChildWf P height) hi A) : Tiles P (start hi A) hi (cellLeaves A) :=
  h.tiles fun _ _ _ _ wf => wf.tiles

end Wf

end Masstree.Tree
