import Masstree.Tree.Path

/-!
# Splits on the way up

The right half of a split node goes into its parent, which may be full and split in turn.
-/

namespace Masstree.Tree

variable {L : Type}

/-- The loop of `make_split`, from the level at `height` up: `n` has been split, `child` begins at `xikey`. -/
def insertSplit (splitType : Nat) : Nat → Node L → Nat → Node L → List (Frame L) → Node L
  | height, n, xikey, child, [] => .internode ⟨Nodeversion.markRoot 0, height + 1, some n, [(xikey, child)]⟩
  | height, n, xikey, child, f :: path =>
    let p := (f.p.setChild f.kp n).lock.markInsert
    let kp := p.upper xikey
    if height + 1 < p.height then
      plug (.internode (p.setChild kp (.internode ⟨0, height + 1, some n, [(xikey, child)]⟩)).unlock) path
    else if p.size < width then
      plug (.internode (p.insert kp xikey child).unlock) path
    else
      let (left, xikey', right) := p.splitInto (height + 1) kp xikey child splitType
      insertSplit splitType (height + 1) (.internode left.markSplit.unlock) xikey'
        (.internode right.markNonroot.unlock) path

/-! ### A full internode -/

section Split
variable {N : Type} {p : Internode N} {lo lo' : Nat} {c : Option N} {A B : List (Nat × Option N)}

/-- Both halves, by the children with the new one. -/
theorem splitInto_eq (ka : Nat) {kp mid : Nat} (le : kp ≤ p.size) (inside : mid ≤ p.size) (pos : 0 < mid) {splitType : Nat}
    (mid_ : mid = if splitType = 2 then width else (width + 1) / 2) (height : Nat) (value : N) :
    ∃ e, (p.rest.insertIdx kp (ka, value))[mid]? = some e ∧ p.splitInto height kp ka value splitType =
      ({ p with rest := (p.rest.insertIdx kp (ka, value)).take mid }, e.1,
        ⟨p.version, height, some e.2, (p.rest.insertIdx kp (ka, value)).drop (mid + 1)⟩) := by
  have parts := Positions.insertIdx_parts (ka, value) le inside
  unfold Internode.splitInto
  dsimp only
  rw [← mid_]
  by_cases before : kp < mid
  · rw [if_pos before] at parts ⊢
    obtain ⟨left, middle, right⟩ := parts
    have lt : mid - 1 < p.rest.length := Nat.lt_of_lt_of_le (Nat.sub_one_lt_of_lt pos) inside
    rw [List.getElem?_eq_getElem lt] at middle
    refine ⟨_, middle, ?_⟩
    have child : p.child mid = some p.rest[mid - 1].2 := by
      obtain ⟨i, rfl⟩ := Nat.exists_eq_add_one.mpr pos
      exact congrArg (Option.map Prod.snd) (List.getElem?_eq_getElem lt)
    rw [left, right, Internode.ikey, List.getElem?_eq_getElem lt, child]
    rfl
  · rw [if_neg before] at parts ⊢
    by_cases same : kp = mid
    · rw [if_pos same] at parts ⊢
      obtain ⟨left, middle, right⟩ := parts
      exact ⟨_, middle, by rw [left, right]⟩
    · rw [if_neg same] at parts ⊢
      obtain ⟨left, middle, right⟩ := parts
      have lt : mid < p.rest.length := Nat.lt_of_lt_of_le (by omega) le
      rw [List.getElem?_eq_getElem lt] at middle
      refine ⟨_, middle, ?_⟩
      rw [left, right, Internode.ikey, Internode.child, List.getElem?_eq_getElem lt]
      rfl

/-- The children of both halves are the children with the new one, and the ikey between is where the right half begins. -/
theorem cells_splitInto (ka : Nat) (at_ : p.cells lo = A ++ (lo', c) :: B) (full : p.size = width) (height : Nat) (value : N)
    (splitType : Nat) : ∃ left xikey right, p.splitInto height A.length ka value splitType = (left, xikey, right) ∧
      left.cells lo ++ right.cells xikey = A ++ (lo', c) :: (ka, some value) :: B ∧ left.height = p.height ∧
      right.height = height ∧ 0 < left.size ∧ left.size + right.size = width ∧ right.first.isSome := by
  have length := p.length_cells lo
  rw [at_, List.length_append, List.length_cons] at length
  have inside : (if splitType = 2 then width else (width + 1) / 2) ≤ p.size := by
    rw [full]
    split <;> decide
  have pos : 0 < if splitType = 2 then width else (width + 1) / 2 := by
    split <;> decide
  have le : A.length ≤ p.size := by omega
  obtain ⟨e, middle, split_⟩ := splitInto_eq ka le inside pos rfl height value
  have total : (p.rest.insertIdx A.length (ka, value)).length = width + 1 := by
    rw [List.length_insertIdx_of_le_length le, ← full]
    rfl
  refine ⟨_, _, _, split_, ?_, rfl, rfl, ?_, ?_, rfl⟩
  · have whole := Internode.cells_insert at_ (x := ka) value
    rw [← whole]
    obtain ⟨lt, rfl⟩ := List.getElem?_eq_some_iff.mp middle
    have parts := List.take_append_drop (if splitType = 2 then width else (width + 1) / 2)
      (p.rest.insertIdx A.length (ka, value))
    rw [← List.getElem_cons_drop lt] at parts
    have mapped := congrArg (List.map fun e : Nat × N => (e.1, some e.2)) parts
    rw [List.map_append, List.map_cons] at mapped
    exact congrArg (List.cons (lo, p.first)) mapped
  · show 0 < (List.take _ _).length
    rw [List.length_take, total]
    omega
  · show (List.take _ _).length + (List.drop _ _).length = width
    rw [List.length_take, List.length_drop, total]
    omega

end Split

/-! ### The tree with both halves -/

variable {P : Nat → Nat → L → Prop} {lo hi x bound height splitType : Nat} {n child : Node L} {path : List (Frame L)}

/-- A node over both halves. -/
theorem wf_pair (low : n.Wf P lo x) (high : child.Wf P x hi) (below : n.height < height) (below' : child.height < height)
    (v : Nodeversion) : (Node.internode ⟨v, height, some n, [(x, child)]⟩).Wf P lo hi := by
  refine wf_internode.mpr ⟨Nat.lt_trans low.lt high.lt, show 1 ≤ width by decide, ?_⟩
  exact ⟨childWf_some.mpr ⟨below, low⟩, childWf_some.mpr ⟨below', high⟩, trivial⟩

theorem leaves_pair (v : Nodeversion) (height x : Nat) :
    (Node.internode ⟨v, height, some n, [(x, child)]⟩).leaves = n.leaves ++ child.leaves := by
  rw [Node.leaves, firstLeaves, restLeaves, restLeaves, List.append_nil]

/-- The leaves of both halves come in the place of the one that was split. -/
theorem insertSplit_spec (h : Path P lo hi bound path) (low : n.Wf P lo x) (high : child.Wf P x hi)
    (same : n.height = height) (same' : child.height = height) (below : height < bound) :
    (insertSplit splitType height n x child path).Wf P 0 top ∧
      (insertSplit splitType height n x child path).leaves = before path ++ (n.leaves ++ child.leaves) ++ after path := by
  have lower : n.height < height + 1 := same ▸ Nat.lt_succ_self _
  have lower' : child.height < height + 1 := same' ▸ Nat.lt_succ_self _
  induction path generalizing height n x child lo hi bound with
  | nil =>
    cases h
    refine ⟨wf_pair low high lower lower' _, ?_⟩
    rw [insertSplit, leaves_pair, before, after, List.nil_append, List.append_nil]
  | cons f path ih =>
    cases h with
    | @frame p _ lo₀ hi₀ _ _ bound₀ m A B lt size at_ ends before_ after_ under above =>
      subst ends
      obtain ⟨left, right⟩ := frame_leaves at_
      rw [insertSplit]
      have at' : (p.setChild A.length n).lock.markInsert.cells lo₀ = A ++ (lo, some n) :: B := Internode.cells_setChild at_ n
      have height' : (p.setChild A.length n).lock.markInsert.height = p.height := p.height_setChild A.length n
      have size' : (p.setChild A.length n).lock.markInsert.size = p.size := p.size_setChild A.length n
      generalize (p.setChild A.length n).lock.markInsert = q at at' height' size'
      have upper : q.upper x = A.length :=
        upper_path at' (height'.symm ▸ before_) (height'.symm ▸ after_) (Nat.le_of_lt low.lt) high.lt
      simp only [upper, height', size']
      split
      · rename_i gap
        have pair := wf_pair low high lower lower' 0
        have wf := wf_setChild lt (size'.symm ▸ size) at' (height'.symm ▸ before_) (height'.symm ▸ after_) (height'.symm ▸ gap) pair
        refine ⟨above.plug (wf.version _) ?_, ?_⟩
        · show (q.setChild A.length _).height < bound₀
          rwa [Internode.height_setChild, height']
        · have cells := Internode.cells_setChild at' (.internode ⟨0, height + 1, some n, [(x, child)]⟩)
          have leaves : (Node.internode (q.setChild A.length
              (.internode ⟨0, height + 1, some n, [(x, child)]⟩)).unlock).leaves = _ := leaves_internode _ lo₀
          rw [above.leaves, leaves]
          change _ ++ cellLeaves ((q.setChild A.length _).cells lo₀) ++ _ = _
          rw [cells, cellLeaves_append, cellLeaves_cons, firstLeaves, leaves_pair, before, after, left, right]
          simp only [List.append_assoc]
      · rename_i next
        have level : p.height = height + 1 := Nat.le_antisymm (Nat.le_of_not_lt next) below
        have cells := Internode.cells_insert at' (x := x) child
        have chain : Chain (ChildWf P p.height) hi₀ (A ++ (lo, some n) :: (x, some child) :: B) :=
          chain_append.mpr ⟨before_, childWf_some.mpr ⟨level ▸ lower, low⟩, childWf_some.mpr ⟨level ▸ lower', high⟩, after_⟩
        split
        · rename_i room
          have wf : (Node.internode (q.insert A.length x child)).Wf P lo₀ hi₀ := by
            refine wf_internode.mpr ⟨lt, ?_, ?_⟩
            · exact Nat.le_trans List.length_insertIdx_le_succ (Nat.le_trans (Nat.le_of_eq (congrArg Nat.succ size')) room)
            · rw [cells]
              exact height'.symm ▸ chain
          refine ⟨above.plug (wf.version _) ?_, ?_⟩
          · show q.height < bound₀
            rwa [height']
          · rw [above.leaves, leaves_internode _ lo₀]
            change _ ++ cellLeaves ((q.insert A.length x child).cells lo₀) ++ _ = _
            rw [cells, cellLeaves_append, cellLeaves_cons, cellLeaves_cons, before, after, left, right]
            simp only [firstLeaves, List.append_assoc]
        · rename_i full
          obtain ⟨leftHalf, xikey', rightHalf, split_, joined, leftHeight, rightHeight, pos, sum, first⟩ :=
            cells_splitInto x at' (size'.trans (Nat.le_antisymm size (Nat.le_of_not_lt full))) (height + 1) child splitType
          rw [split_]
          rw [← joined] at chain
          obtain ⟨chainLeft, chainRight⟩ := chain_append.mp chain
          have wfLeft : (Node.internode leftHalf).Wf P lo₀ xikey' := by
            refine wf_internode.mpr ⟨?_, Nat.le_of_lt_succ (by omega), leftHeight.trans height' ▸ chainLeft⟩
            obtain ⟨e, mem⟩ := List.exists_mem_of_length_pos pos
            exact chainLeft.start_lt (ranged_childWf P p.height) (List.mem_cons_of_mem _ (List.mem_map_of_mem mem))
          have wfRight : (Node.internode rightHalf).Wf P xikey' hi₀ := by
            refine wf_internode.mpr ⟨?_, by omega, rightHeight.trans level.symm ▸ chainRight⟩
            obtain ⟨m', first⟩ := Option.isSome_iff_exists.mp first
            have mem : (xikey', some m') ∈ rightHalf.cells xikey' := first ▸ List.mem_cons_self
            exact chainRight.start_lt (ranged_childWf P p.height) mem
          have left' : leftHalf.height = height + 1 := leftHeight.trans (height'.trans level)
          obtain ⟨wf, leaves⟩ := ih above (wfLeft.version leftHalf.markSplit.unlock.version)
            (wfRight.version rightHalf.markNonroot.unlock.version) left' rightHeight (level ▸ under)
            (left' ▸ Nat.lt_succ_self _) (rightHeight ▸ Nat.lt_succ_self _)
          refine ⟨wf, leaves.trans ?_⟩
          rw [leaves_internode _ lo₀, leaves_internode _ xikey']
          change _ ++ (cellLeaves (leftHalf.cells lo₀) ++ cellLeaves (rightHalf.cells xikey')) ++ _ = _
          rw [← cellLeaves_append, joined, cellLeaves_append, cellLeaves_cons, cellLeaves_cons, before, after, left, right]
          simp only [firstLeaves, List.append_assoc]

end Masstree.Tree
