import Masstree.Tree.Shape

/-!
# The path to a leaf
-/

namespace Masstree.Tree

variable {L : Type} {P : Nat → Nat → L → Prop} {lo hi lo' hi' bound ikey fuel : Nat} {l : L} {n : Node L}
  {p : Internode (Node L)} {m : Node L} {c : Option (Node L)} {A B : List (Nat × Option (Node L))} {path : List (Frame L)}

/-- What `upper` needs of the child that a path goes to. -/
def Spans {N : Type} (lo hi : Nat) : Option N → Prop
  | none => lo = hi
  | some _ => lo < hi

/-- `upper` finds the way of a path, whatever node it leads to. -/
theorem upper_path (at_ : p.cells lo = A ++ (lo', some m) :: B) (before : Chain (ChildWf P p.height) lo' A)
    (after : Chain (ChildWf P p.height) hi B) (low : lo' ≤ ikey) (high : ikey < start hi B) : p.upper ikey = A.length := by
  have spans : ∀ lo hi (c : Option (Node L)), ChildWf P p.height lo hi c → Spans lo hi c := by
    intro lo hi c child
    cases c with
    | none => exact (childWf_none.mp child).1
    | some m => exact (childWf_some.mp child).2.lt
  have ranged : Ranged (Spans (N := Node L)) := ⟨fun _ _ _ h => h, fun _ _ h => h⟩
  apply Internode.upper_eq ranged ?_ at_ low high
  rw [at_]
  exact chain_append.mpr ⟨before.imp spans, Nat.lt_of_le_of_lt low high, after.imp spans⟩

def top : Nat := Nat.pow 2 64

/-- A path to a node that is to have the range `lo` to `hi` and a height less than `bound`. -/
inductive Path (P : Nat → Nat → L → Prop) : Nat → Nat → Nat → List (Frame L) → Prop where
  | root (bound : Nat) : Path P 0 top bound []
  | frame {p : Internode (Node L)} {path : List (Frame L)} {lo hi lo' hi' bound : Nat} {m : Node L}
      {A B : List (Nat × Option (Node L))} (lt : lo < hi) (size : p.size ≤ width)
      (at_ : p.cells lo = A ++ (lo', some m) :: B) (ends : hi' = start hi B) (before : Chain (ChildWf P p.height) lo' A)
      (after : Chain (ChildWf P p.height) hi B)
      (lower : p.height < bound) (above : Path P lo hi bound path) : Path P lo' hi' p.height (⟨p, A.length⟩ :: path)

@[simp] theorem Internode.version_setChild {N : Type} (p : Internode N) (kp : Nat) (n : N) :
    (p.setChild kp n).version = p.version := by cases kp <;> rfl

@[simp] theorem Internode.height_setChild {N : Type} (p : Internode N) (kp : Nat) (n : N) :
    (p.setChild kp n).height = p.height := by cases kp <;> rfl

@[simp] theorem Internode.size_setChild {N : Type} (p : Internode N) (kp : Nat) (n : N) :
    (p.setChild kp n).size = p.size := by
  cases kp with
  | zero => rfl
  | succ kp => exact List.length_modify ..

theorem Internode.ext_cells {N : Type} {p q : Internode N} (version : p.version = q.version) (height : p.height = q.height)
    (cells : p.cells lo = q.cells lo) : p = q := by
  obtain ⟨v, h, first, rest⟩ := p
  obtain ⟨v', h', first', rest'⟩ := q
  obtain rfl := version
  obtain rfl := height
  obtain ⟨same, same'⟩ := List.cons.inj cells
  obtain rfl : first = first' := (Prod.mk.inj same).2
  have injective : Function.Injective fun e : Nat × N => (e.1, some e.2) := by
    intro a b same
    exact Prod.ext (Prod.mk.inj same).1 (Option.some.inj (Prod.mk.inj same).2)
  obtain rfl := List.map_injective_iff.mpr injective same'
  rfl

/-- The internode with a node in the hole. -/
theorem wf_setChild (lt : lo < hi) (size : p.size ≤ width) (at_ : p.cells lo = A ++ (lo', c) :: B)
    (before : Chain (ChildWf P p.height) lo' A) (after : Chain (ChildWf P p.height) hi B) (lower : n.height < p.height)
    (wf : n.Wf P lo' (start hi B)) : (Node.internode (p.setChild A.length n)).Wf P lo hi := by
  refine wf_internode.mpr ⟨lt, by rwa [Internode.size_setChild], ?_⟩
  rw [Internode.height_setChild, Internode.cells_setChild at_]
  exact chain_append.mpr ⟨before, childWf_some.mpr ⟨lower, wf⟩, after⟩

theorem Path.plug (h : Path P lo hi bound path) (wf : n.Wf P lo hi) (lower : n.height < bound) :
    (Tree.plug n path).Wf P 0 top := by
  induction h generalizing n with
  | root => exact wf
  | frame lt size at_ ends before after below above ih =>
    subst ends
    refine ih (wf_setChild lt size at_ before after lower wf) ?_
    show Internode.height _ < _
    rwa [Internode.height_setChild]

/-- The leaves before and after the path do not depend on what it leads to. -/
theorem Path.leaves (h : Path P lo hi bound path) (n : Node L) :
    (Tree.plug n path).leaves = before path ++ n.leaves ++ after path := by
  induction h generalizing n with
  | root => simp [Tree.plug, Tree.before, Tree.after]
  | @frame p path lo hi lo' hi' bound m A B lt size at_ ends before after below above ih =>
    obtain ⟨left, right⟩ := frame_leaves at_
    rw [Tree.plug, ih, Tree.before, Tree.after, left, right, leaves_internode _ lo, Internode.cells_setChild at_,
      cellLeaves_append, cellLeaves_cons, firstLeaves]
    simp only [List.append_assoc]

/-- The leaves before and after a path make up the rest of the range. -/
theorem Path.tiles (h : Path P lo hi bound path) : Tiles P 0 lo (before path) ∧ Tiles P hi top (after path) := by
  induction h with
  | root => exact ⟨rfl, rfl⟩
  | @frame p path lo hi lo' hi' bound m A B lt size at_ ends before_ after_ below above ih =>
    obtain ⟨left, right⟩ := frame_leaves at_
    refine ⟨?_, ?_⟩
    · rw [Tree.before, left]
      apply tiles_append.mpr
      rcases Internode.cells_split at_ with ⟨rfl, rfl, -⟩ | ⟨A', n, B', rfl, -⟩
      · exact ⟨lo', ih.1, rfl⟩
      · exact ⟨lo, ih.1, tiles_cellLeaves before_⟩
    · rw [Tree.after, right]
      apply tiles_append.mpr
      exact ⟨hi, ends ▸ tiles_cellLeaves after_, ih.2⟩

/-- Only the leftmost leaf has no leaf before it. -/
theorem Path.before_eq_nil (h : Path P lo hi bound path) : before path = [] ↔ lo = 0 := by
  have tiles := h.tiles.1
  constructor
  · intro none
    rw [none] at tiles
    exact tiles.symm
  · intro zero
    by_contra some_
    exact absurd zero (Nat.ne_of_gt (tiles.lt_of_ne_nil some_))

theorem Path.hasPrev_iff (h : Path P lo hi bound path) : hasPrev path = true ↔ 0 < lo := by
  rw [hasPrev, Bool.not_eq_true', List.isEmpty_eq_false_iff, Ne, h.before_eq_nil]
  exact Nat.pos_iff_ne_zero.symm

/-- The leaf that a descent ends in is the one responsible for the ikey. -/
theorem reachLeaf_spec (wf : n.Wf P lo hi) (low : lo ≤ ikey) (high : ikey < hi) (h : Path P lo hi bound path)
    (lower : n.height < bound) (enough : n.height ≤ fuel) :
    ∃ l path' lo' hi' bound', n.reachLeaf ikey fuel path = some (l, path') ∧ Path P lo' hi' bound' path' ∧
      P lo' hi' l ∧ lo' ≤ ikey ∧ ikey < hi' ∧ 0 < bound' ∧ Tree.plug (.leaf l) path' = Tree.plug n path := by
  induction fuel generalizing n lo hi bound path with
  | zero =>
    cases n with
    | leaf l => exact ⟨l, path, lo, hi, bound, rfl, h, (wf_leaf.mp wf).2, low, high, lower, rfl⟩
    | internode p =>
      obtain ⟨lt, -, chain⟩ := wf_internode.mp wf
      obtain ⟨A, lo', m, B, at_, -⟩ := chain.locate (ranged_childWf P p.height) low high
      rw [at_] at chain
      have below := (childWf_some.mp (chain_append.mp chain).2.1).1
      exact absurd (Nat.lt_of_lt_of_le below enough) (Nat.not_lt_zero _)
  | succ fuel ih =>
    cases n with
    | leaf l => exact ⟨l, path, lo, hi, bound, rfl, h, (wf_leaf.mp wf).2, low, high, lower, rfl⟩
    | internode p =>
      obtain ⟨lt, size, chain⟩ := wf_internode.mp wf
      obtain ⟨A, lo', m, B, at_, low', high'⟩ := chain.locate (ranged_childWf P p.height) low high
      have kp := Internode.upper_eq (ranged_childWf P p.height) chain at_ low' high'
      have child := Internode.child_at at_
      have split := chain
      rw [at_] at split
      obtain ⟨before, there, after⟩ := chain_append.mp split
      obtain ⟨below, wf'⟩ := childWf_some.mp there
      have inner : Path P lo' (start hi B) p.height (⟨p, A.length⟩ :: path) :=
        .frame lt size at_ rfl before after lower h
      obtain ⟨l, path', rest⟩ := ih wf' low' high' inner below (Nat.le_of_lt_succ (Nat.lt_of_lt_of_le below enough))
      refine ⟨l, path', ?_⟩
      have whole : p.setChild A.length m = p :=
        Internode.ext_cells (Internode.version_setChild ..) (Internode.height_setChild ..)
        ((Internode.cells_setChild at_ m).trans at_.symm)
      rw [Node.reachLeaf]
      simp only [kp, child]
      rw [Tree.plug, whole] at rest
      exact rest

end Masstree.Tree
