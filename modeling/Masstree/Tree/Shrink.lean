import Masstree.Tree.Path

/-!
# Removals on the way up

An internode left without children goes as well, and one left with a single child gives it to its parent. The ikeys of
what is gone fall to the node before, so the separators above move.
-/

namespace Masstree.Tree

variable {L : Type}

/-- `redirect`, from the internode that the path leads to. `none` is a broken invariant of the loop, or a null
parent. -/
def redirect (ikey replacement : Nat) : List (Frame L) → Option (List (Frame L))
  | [] => none
  | f :: path =>
    let kp := f.p.upper ikey
    if kp ≠ f.kp then none
    else
      let p := if 0 < kp then f.p.setIkey (kp - 1) replacement else f.p
      if kp = 0 ∨ kp = 1 ∧ p.first.isNone then (redirect ikey replacement path).map (⟨p, kp⟩ :: ·)
      else some (⟨p, kp⟩ :: path)

/-- The child at `kp` goes, and `replacement` comes in its place. -/
def Internode.replaceChild {N : Type} (p : Internode N) (kp : Nat) : Option N → Internode N
  | some c => p.setChild kp c
  | none => if 0 < kp then p.remove kp else { p with first := none }

/-- The loop of `remove_leaf` from a node whose parents are `path`: the node goes, and `replacement` comes in its
place. `none` is a broken invariant of the loop, or a null parent. -/
def removeNode (ikey : Nat) : Option (Node L) → List (Frame L) → Option (Node L)
  | _, [] => none
  | replacement, f :: path =>
    let kp := f.p.upper ikey
    if kp ≠ f.kp ∨ 0 < kp ∧ ikey < (f.p.ikey (kp - 1)).getD 0 then none
    else
      let p := (f.p.replaceChild kp replacement).lock.markInsert.unlock
      if kp ≤ 1 ∧ 0 < p.size ∧ p.first.isNone then
        (redirect ikey ((p.ikey 0).getD 0) path).map (plug (.internode p))
      else if 0 < p.size ∨ path = [] then some (plug (.internode p) path)
      else removeNode ikey p.first path

/-! ### Ranges after a removal -/

variable {P : Nat → Nat → L → Prop} {lo hi lo' hi' x bound ikey height : Nat} {l : L} {n : Node L}
  {p : Internode (Node L)} {m : Node L} {c : Option (Node L)} {A B : List (Nat × Option (Node L))} {path : List (Frame L)}

/-- The leaves can be responsible for more above their ranges. -/
def Extends (P : Nat → Nat → L → Prop) : Prop := ∀ lo hi hi' l, hi ≤ hi' → P lo hi l → P lo hi' l

/-- Only a null `child_[0]` cannot take over what is above it. -/
theorem chain_extend (more : Extends P) (at_ : p.cells lo = A ++ B) (h : Chain (ChildWf P height) lo' A) (le : lo' ≤ x)
    (first : ¬(A = [(lo, none)])) : Chain (ChildWf P height) x A := by
  apply h.extend
  rintro ⟨a, c⟩ last child
  cases c with
  | some n =>
    obtain ⟨lower, wf⟩ := childWf_some.mp child
    exact childWf_some.mpr ⟨lower, wf.extend more le⟩
  | none =>
    obtain ⟨A', rfl⟩ := List.getLast?_eq_some_iff.mp last
    exfalso
    apply first
    cases A' with
    | nil =>
      obtain ⟨rfl, -⟩ := Prod.mk.inj (List.cons.inj at_).1
      rfl
    | cons b A' =>
      have rest := (List.cons.inj at_).2
      have mem : (a, none) ∈ p.rest.map fun e => (e.1, some e.2) := by
        rw [rest]
        simp
      obtain ⟨r, -, same⟩ := List.mem_map.mp mem
      cases (Prod.mk.inj same).2

theorem redirect_cons {i : Nat} (kp : p.upper ikey = i) (path : List (Frame L)) : redirect ikey x (⟨p, i⟩ :: path) =
    let p' := if 0 < i then p.setIkey (i - 1) x else p
    if i = 0 ∨ i = 1 ∧ p'.first.isNone then (redirect ikey x path).map (⟨p', i⟩ :: ·) else some (⟨p', i⟩ :: path) := by
  subst kp
  rw [redirect, if_neg (not_not.mpr rfl)]

/-- The range of a path is within that of its parent. -/
theorem cells_low (at_ : p.cells lo = A ++ (lo', c) :: B) (h : Chain (ChildWf P height) lo' A) : lo ≤ lo' := by
  rcases Internode.cells_split at_ with ⟨-, rfl, -⟩ | ⟨A', n, B', rfl, -⟩
  · exact Nat.le_refl _
  · exact (h.start_le (ranged_childWf P height)).1

/-- `redirect` moves where the range of a path begins, and leaves everything before to the node that comes before. -/
theorem redirect_spec (more : Extends P) (h : Path P lo hi bound path) (low : lo ≤ ikey) (high : ikey < hi) (pos : 0 < lo)
    (le : lo ≤ x) (lt : x < hi) : ∃ path', redirect ikey x path = some path' ∧ Path P x hi bound path' ∧
      before path' = before path ∧ after path' = after path := by
  induction h with
  | root => exact absurd pos (Nat.lt_irrefl 0)
  | @frame p path lo hi lo' hi' bound m A B lt' size at_ ends before_ after_ below above ih =>
    subst ends
    have kp := upper_path at_ before_ after_ low high
    have le_hi := (after_.start_le (ranged_childWf P p.height)).1
    have low' := cells_low at_ before_
    have up : 0 < lo → ∃ path', redirect ikey x path = some path' ∧ Path P x hi bound path' ∧
        Tree.before path' = Tree.before path ∧ Tree.after path' = Tree.after path := by
      intro pos'
      exact ih (Nat.le_trans low' low) (Nat.lt_of_lt_of_le high le_hi) pos' (Nat.le_trans low' le) (Nat.lt_of_lt_of_le lt le_hi)
    obtain ⟨left, right⟩ := frame_leaves at_
    rw [redirect_cons kp]
    by_cases leftmost : A = []
    · subst leftmost
      obtain ⟨rfl, -⟩ := Prod.mk.inj (List.cons.inj at_).1
      obtain ⟨path', moved, wf, sameBefore, sameAfter⟩ := up pos
      have raised : p.cells x = [] ++ (x, some m) :: B := Internode.cells_raise at_ x
      refine ⟨⟨p, 0⟩ :: path', ?_, .frame (Nat.lt_of_lt_of_le lt le_hi) size raised rfl trivial after_ below wf, ?_, ?_⟩
      · rw [moved]
        rfl
      · rw [before, before, sameBefore]
        rfl
      · rw [after, after, sameAfter]
        rfl
    · have later : 0 < A.length := List.length_pos_iff.mpr leftmost
      have set := Internode.cells_setIkey at_ leftmost x
      have sizes : (p.setIkey (A.length - 1) x).size = p.size := List.length_modify ..
      obtain ⟨left', right'⟩ := frame_leaves set
      rw [if_pos later]
      dsimp only
      have first : p.first = none ∧ A.length = 1 ↔ A = [(lo, none)] := by
        cases A with
        | nil => exact absurd rfl leftmost
        | cons a A' =>
          obtain ⟨rfl, -⟩ := List.cons.inj at_
          simp
      by_cases null : A = [(lo, none)]
      · obtain ⟨none_, one⟩ := first.mpr null
        subst null
        obtain ⟨rfl, pos'⟩ := childWf_none.mp before_.1
        obtain ⟨path', moved, wf, sameBefore, sameAfter⟩ := up pos'
        have raised : (p.setIkey 0 x).cells x = [(x, none)] ++ (x, some m) :: B := Internode.cells_raise set x
        have begins : Chain (ChildWf P p.height) x [(x, none)] :=
          ⟨childWf_none.mpr ⟨rfl, Nat.lt_of_lt_of_le pos le⟩, trivial⟩
        refine ⟨⟨p.setIkey 0 x, 1⟩ :: path', ?_,
          .frame (Nat.lt_of_lt_of_le lt le_hi) (sizes ▸ size) raised rfl begins after_ below wf, ?_, ?_⟩
        · apply (if_pos (Or.inr ⟨rfl, Option.isNone_iff_eq_none.mpr none_⟩)).trans
          rw [moved]
          rfl
        · rw [before, before, sameBefore]
          exact congrArg (Tree.before path ++ ·) (left'.trans left.symm)
        · rw [after, after, sameAfter]
          exact congrArg (· ++ Tree.after path) (right'.trans right.symm)
      · have stays : ¬(A.length = 0 ∨ A.length = 1 ∧ (p.setIkey (A.length - 1) x).first.isNone = true) := by
          rintro (zero | ⟨one, none_⟩)
          · exact absurd zero (Nat.ne_of_gt later)
          · exact null (first.mp ⟨Option.isNone_iff_eq_none.mp none_, one⟩)
        rw [if_neg stays]
        refine ⟨_, rfl, .frame lt' (sizes ▸ size) set rfl (chain_extend more at_ before_ le null) after_ below above, ?_, ?_⟩
        · rw [before, before, left, left']
        · rw [after, after, right, right']

/-! ### Removals -/

/-- What may come in the place of a node: nothing at all only where another node comes before. -/
def Replaces (P : Nat → Nat → L → Prop) (bound lo hi : Nat) : Option (Node L) → Prop
  | none => 0 < lo
  | some n => n.height < bound ∧ n.Wf P lo hi

/-- What `remove_leaf` makes of an internode: its children are as they should be, or it begins with a null child whose
range it can leave to the node before. -/
structure Replaced (P : Nat → Nat → L → Prop) (lo hi kp : Nat) (p p' : Internode (Node L)) : Prop where
  height : p'.height = p.height
  size : p'.size ≤ p.size
  chain : Chain (ChildWf P p.height) hi (p'.cells lo) ∨
    p'.first = none ∧ kp ≤ 1 ∧ 0 < lo ∧ lo ≤ start hi (p'.cells lo).tail ∧
      Chain (ChildWf P p.height) hi (p'.cells lo).tail

theorem replaceChild_spec (more : Extends P) (at_ : p.cells lo = A ++ (lo', c) :: B)
    (before_ : Chain (ChildWf P p.height) lo' A) (after_ : Chain (ChildWf P p.height) hi B) {r : Option (Node L)}
    (replaces : Replaces P p.height lo' (start hi B) r) (lt : lo' < start hi B) :
    Replaced P lo hi A.length p (p.replaceChild A.length r) ∧
      cellLeaves ((p.replaceChild A.length r).cells lo) = cellLeaves A ++ firstLeaves r ++ cellLeaves B := by
  cases r with
  | some n =>
    have cells := Internode.cells_setChild at_ n
    refine ⟨⟨Internode.height_setChild .., Nat.le_of_eq (Internode.size_setChild ..), .inl ?_⟩, ?_⟩
    · exact cells ▸ chain_append.mpr ⟨before_, childWf_some.mpr replaces, after_⟩
    · show cellLeaves ((p.setChild A.length n).cells lo) = _
      rw [cells, cellLeaves_append, cellLeaves_cons, List.append_assoc]
  | none =>
    by_cases leftmost : A = []
    · subst leftmost
      obtain ⟨first, rest⟩ := List.cons.inj at_
      obtain ⟨rfl, -⟩ := Prod.mk.inj first
      have cells : (p.replaceChild 0 none).cells lo = (lo, none) :: B := congrArg (List.cons _) rest
      refine ⟨⟨rfl, Nat.le_refl _, .inr ⟨rfl, Nat.zero_le _, replaces, ?_⟩⟩, ?_⟩
      · show lo ≤ start hi ((p.replaceChild 0 none).cells lo).tail ∧
          Chain _ hi ((p.replaceChild 0 none).cells lo).tail
        rw [cells]
        exact ⟨Nat.le_of_lt lt, after_⟩
      · show cellLeaves ((p.replaceChild 0 none).cells lo) = _
        rw [cells, cellLeaves_cons]
        rfl
    · have later : 0 < A.length := List.length_pos_iff.mpr leftmost
      have cells := Internode.cells_remove at_ leftmost
      have removes : p.replaceChild A.length none = p.remove A.length := if_pos later
      rw [removes]
      refine ⟨⟨rfl, ?_, ?_⟩, ?_⟩
      · exact List.length_eraseIdx_le ..
      · show Chain _ hi ((p.remove A.length).cells lo) ∨ _
        rw [cells]
        by_cases null : A = [(lo, none)]
        · subst null
          obtain ⟨same, pos⟩ := childWf_none.mp before_.1
          have le : lo ≤ start hi B := Nat.le_trans (Nat.le_of_eq same) (Nat.le_of_lt lt)
          exact .inr ⟨(Prod.mk.inj (List.cons.inj at_).1).2, Nat.le_refl _, pos, le, after_⟩
        · exact .inl (chain_append.mpr ⟨chain_extend more at_ before_ (Nat.le_of_lt lt) null, after_⟩)
      · rw [cells, cellLeaves_append, firstLeaves, List.append_nil]

theorem removeNode_cons {i : Nat} (kp : p.upper ikey = i) (separator : 0 < i → (p.ikey (i - 1)).getD 0 ≤ ikey) (r : Option (Node L))
    (path : List (Frame L)) : removeNode ikey r (⟨p, i⟩ :: path) =
      let p' := (p.replaceChild i r).lock.markInsert.unlock
      if i ≤ 1 ∧ 0 < p'.size ∧ p'.first.isNone then
        (redirect ikey ((p'.ikey 0).getD 0) path).map (plug (.internode p'))
      else if 0 < p'.size ∨ path = [] then some (plug (.internode p') path)
      else removeNode ikey p'.first path := by
  subst kp
  rw [removeNode, if_neg]
  rintro (other | ⟨pos, above⟩)
  · exact other rfl
  · exact Nat.not_lt_of_le (separator pos) above

/-- The separator of a child is where its range begins. -/
theorem separator (at_ : p.cells lo = A ++ (lo', c) :: B) (pos : 0 < A.length) : p.ikey (A.length - 1) = some lo' := by
  rw [p.ikey_eq lo, Nat.sub_add_cancel pos, at_, List.getElem?_append_right (Nat.le_refl _), Nat.sub_self]
  rfl

/-- The node goes from the tree, and nothing else. -/
theorem removeNode_spec (more : Extends P) (h : Path P lo hi bound path) (low : lo ≤ ikey) (high : ikey < hi)
    {r : Option (Node L)} (replaces : Replaces P bound lo hi r) (below : path ≠ []) :
    ∃ root, removeNode ikey r path = some root ∧ root.Wf P 0 top ∧
      root.leaves = before path ++ firstLeaves r ++ after path := by
  induction h generalizing r with
  | root => exact absurd rfl below
  | @frame p path lo hi lo' hi' bound m A B lt size at_ ends before_ after_ under above ih =>
    subst ends
    have kp := upper_path at_ before_ after_ low high
    have low' := Nat.le_trans (cells_low at_ before_) low
    have high' := Nat.lt_of_lt_of_le high (after_.start_le (ranged_childWf P p.height)).1
    obtain ⟨left, right⟩ := frame_leaves at_
    obtain ⟨replaced, leaves⟩ := replaceChild_spec more at_ before_ after_ replaces (Nat.lt_of_le_of_lt low high)
    rw [removeNode_cons kp (fun pos => by rw [separator at_ pos]; exact low)]
    change cellLeaves ((p.replaceChild A.length r).lock.markInsert.unlock.cells lo) = _ at leaves
    have replaced : Replaced P lo hi A.length p (p.replaceChild A.length r).lock.markInsert.unlock :=
      ⟨replaced.height, replaced.size, replaced.chain⟩
    generalize (p.replaceChild A.length r).lock.markInsert.unlock = p' at replaced leaves
    have total : Tree.before (⟨p, A.length⟩ :: path) ++ firstLeaves r ++ Tree.after (⟨p, A.length⟩ :: path) =
        Tree.before path ++ cellLeaves (p'.cells lo) ++ Tree.after path := by
      rw [Tree.before, Tree.after, left, right, leaves]
      simp only [List.append_assoc]
    rw [total]
    have small : p'.size ≤ width := Nat.le_trans replaced.size size
    dsimp only
    split
    · rename_i moved
      obtain ⟨-, some_, null⟩ := moved
      have null := Option.isNone_iff_eq_none.mp null
      obtain ⟨pos, le, chain⟩ : 0 < lo ∧ lo ≤ start hi (p'.cells lo).tail ∧
          Chain (ChildWf P p.height) hi (p'.cells lo).tail := by
        rcases replaced.chain with chain | ⟨-, -, rest⟩
        · obtain ⟨here, chain⟩ := chain
          rw [null] at here
          obtain ⟨same, pos⟩ := childWf_none.mp here
          exact ⟨pos, Nat.le_of_eq same, chain⟩
        · exact rest
      obtain ⟨e, rest, at'⟩ := List.exists_cons_of_length_pos some_
      have x_ : start hi (p'.cells lo).tail = (p'.ikey 0).getD 0 := by
        rw [Internode.cells, Internode.ikey, at']
        rfl
      obtain ⟨m', mem⟩ : ∃ m', (e.1, some m') ∈ (p'.cells lo).tail := ⟨e.2, by
        rw [Internode.cells, at']
        exact List.mem_cons_self⟩
      have lt' := chain.start_lt (ranged_childWf P p.height) mem
      obtain ⟨path', moved, wf, sameBefore, sameAfter⟩ := redirect_spec more above low' high' pos le lt'
      rw [← x_, moved]
      have cells := Internode.cells_raise (show p'.cells lo = (lo, none) :: (p'.cells lo).tail by
        rw [Internode.cells, null]
        rfl) (start hi (p'.cells lo).tail)
      refine ⟨_, rfl, wf.plug (wf_internode.mpr ⟨lt', small, ?_⟩) ?_, ?_⟩
      · rw [cells, replaced.height]
        exact ⟨childWf_none.mpr ⟨rfl, Nat.lt_of_lt_of_le pos le⟩, chain⟩
      · show p'.height < bound
        rwa [replaced.height]
      · rw [wf.leaves, sameBefore, sameAfter, leaves_internode p' lo]
    · rename_i stays
      split
      · rename_i ended
        have chain : Chain (ChildWf P p.height) hi (p'.cells lo) := by
          apply replaced.chain.resolve_right
          rintro ⟨null, kp, pos, -⟩
          rcases ended with some_ | root
          · exact stays ⟨kp, some_, Option.isNone_iff_eq_none.mpr null⟩
          · subst root
            cases above
            exact Nat.lt_irrefl 0 pos
        refine ⟨_, rfl, above.plug (wf_internode.mpr ⟨lt, small, replaced.height ▸ chain⟩) ?_, ?_⟩
        · show p'.height < bound
          rwa [replaced.height]
        · rw [above.leaves, leaves_internode p' lo]
      · rename_i gone
        rw [not_or] at gone
        have empty : p'.rest = [] := List.length_eq_zero_iff.mp (Nat.eq_zero_of_not_pos gone.1)
        have cells : p'.cells lo = [(lo, p'.first)] := by
          rw [Internode.cells, empty]
          rfl
        have replaces' : Replaces P bound lo hi p'.first := by
          cases first : p'.first with
          | none =>
            rcases replaced.chain with chain | ⟨-, -, pos, -⟩
            · rw [cells, first] at chain
              exact (childWf_none.mp chain.1).2
            · exact pos
          | some n =>
            have chain := replaced.chain.resolve_right (by
              rintro ⟨null, -⟩
              rw [first] at null
              cases null)
            rw [cells, first] at chain
            obtain ⟨lower, wf⟩ := childWf_some.mp chain.1
            exact ⟨Nat.lt_trans lower under, wf⟩
        obtain ⟨root, removed, wf, leaves⟩ := ih low' high' replaces' gone.2
        refine ⟨root, removed, wf, ?_⟩
        rw [leaves, cells, cellLeaves_cons, cellLeaves, List.flatMap_nil, List.append_nil]

end Masstree.Tree
