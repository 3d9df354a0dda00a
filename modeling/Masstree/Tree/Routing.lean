import Masstree.Tree.Shrink

/-!
# Where ikeys are routed
-/

namespace Masstree.Tree

variable {L : Type} {ikeyBound : L → Nat} {x lo hi : Nat} {l l' prev : L} {leaves : List L} {root : Node L}

def Node.route (n : Node L) (ikey : Nat) : Option L := (n.reachLeaf ikey n.height []).map Prod.fst

/-- A leaf's `ikey_bound` is where its range begins; that of the leftmost leaf is never read. -/
def Bounded (ikeyBound : L → Nat) (lo _hi : Nat) (l : L) : Prop := 0 < lo → ikeyBound l = lo

theorem extends_bounded (ikeyBound : L → Nat) : Extends (Bounded ikeyBound) := fun _ _ _ _ _ bounded => bounded

/-- The last of the leaves that does not begin above `x`. -/
def Routes (ikeyBound : L → Nat) (leaves : List L) (x : Nat) (l : L) : Prop :=
  ∃ A B, leaves = A ++ l :: B ∧ (A = [] ∨ ikeyBound l ≤ x) ∧ ∀ b ∈ B, x < ikeyBound b

theorem Routes.unique (first : Routes ikeyBound leaves x l) (second : Routes ikeyBound leaves x l') : l = l' := by
  obtain ⟨A, B, rfl, low, high⟩ := first
  obtain ⟨A', B', same, low', high'⟩ := second
  rcases List.append_eq_append_iff.mp same with ⟨C, rfl, rest⟩ | ⟨C, rfl, rest⟩
  · cases C with
    | nil => exact (List.cons.inj rest).1
    | cons c C =>
      obtain ⟨rfl, rfl⟩ := List.cons.inj rest
      have le := low'.resolve_left (by simp)
      exact absurd (high l' (by simp)) (Nat.not_lt_of_le le)
  · cases C with
    | nil => exact (List.cons.inj rest).1.symm
    | cons c C =>
      obtain ⟨rfl, rfl⟩ := List.cons.inj rest
      have le := low.resolve_left (by simp)
      exact absurd (high' l (by simp)) (Nat.not_lt_of_le le)

theorem Tiles.routes {A B : List L} (before : Tiles (Bounded ikeyBound) 0 lo A) (here : Bounded ikeyBound lo hi l) (low : lo ≤ x)
    (high : x < hi) (after : Tiles (Bounded ikeyBound) hi top B) : Routes ikeyBound (A ++ l :: B) x l := by
  refine ⟨A, B, rfl, ?_, ?_⟩
  · cases A with
    | nil => exact .inl rfl
    | cons a A => exact .inr (Nat.le_trans (Nat.le_of_eq (here (before.lt_of_ne_nil (List.cons_ne_nil _ _)))) low)
  · intro b mem
    obtain ⟨lo', hi', le, -, -, bounded⟩ := after.mem mem
    rw [bounded (Nat.lt_of_lt_of_le (Nat.zero_lt_of_lt high) le)]
    exact Nat.lt_of_lt_of_le high le

/-- A descent ends in the leaf whose range has the ikey. -/
theorem route_spec (wf : root.Wf (Bounded ikeyBound) 0 top) (below : x < top) : ∃ l path lo hi bound,
    root.reachLeaf x root.height [] = some (l, path) ∧ Path (Bounded ikeyBound) lo hi bound path ∧ Bounded ikeyBound lo hi l ∧
      lo ≤ x ∧ x < hi ∧ 0 < bound ∧ root.leaves = before path ++ l :: after path := by
  obtain ⟨l, path, lo, hi, bound, reached, way, bounded, low, high, pos, plugged⟩ :=
    reachLeaf_spec wf (Nat.zero_le x) below (.root (root.height + 1)) (Nat.lt_succ_self _) (Nat.le_refl _)
  have leaves := way.leaves (.leaf l)
  rw [plugged, plug, Node.leaves, List.append_assoc] at leaves
  exact ⟨l, path, lo, hi, bound, reached, way, bounded, low, high, pos, leaves⟩

theorem route_routes (wf : root.Wf (Bounded ikeyBound) 0 top) (below : x < top) :
    ∃ l, root.route x = some l ∧ Routes ikeyBound root.leaves x l := by
  obtain ⟨l, path, lo, hi, bound, reached, way, bounded, low, high, -, leaves⟩ := route_spec wf below
  refine ⟨l, congrArg (Option.map Prod.fst) reached, ?_⟩
  rw [leaves]
  exact way.tiles.1.routes bounded low high way.tiles.2

/-- Without a leaf that is not the leftmost, its ikeys are routed to the leaf before it, and others as before. -/
theorem Routes.remove {A B : List L} (tiles : Tiles (Bounded ikeyBound) 0 top (A ++ prev :: l :: B))
    (routes : Routes ikeyBound (A ++ prev :: l :: B) x l') :
    Routes ikeyBound (A ++ prev :: B) x l' ∨ l' = l ∧ Routes ikeyBound (A ++ prev :: B) x prev := by
  obtain ⟨A', B', same, low, high⟩ := routes
  rcases List.append_eq_append_iff.mp same with ⟨C, rfl, rest⟩ | ⟨C, rfl, rest⟩
  · rcases C with - | ⟨c, - | ⟨d, C⟩⟩
    · obtain ⟨rfl, rfl⟩ := List.cons.inj rest
      exact .inl ⟨A, B, rfl, by simpa using low, fun b mem => high b (List.mem_cons_of_mem _ mem)⟩
    · obtain ⟨rfl, rest'⟩ := List.cons.inj rest
      obtain ⟨rfl, rfl⟩ := List.cons.inj rest'
      refine .inr ⟨rfl, A, B, rfl, ?_, high⟩
      cases A with
      | nil => exact .inl rfl
      | cons a A =>
        right
        obtain ⟨m, before, hi, lt, bounded, later⟩ := tiles_append.mp tiles
        obtain ⟨hi', lt', bounded', -⟩ := later
        have pos := before.lt_of_ne_nil (List.cons_ne_nil a A)
        have le := low.resolve_left (by simp)
        rw [bounded' (Nat.lt_trans pos lt)] at le
        rw [bounded pos]
        exact Nat.le_trans (Nat.le_of_lt lt) le
    · obtain ⟨rfl, rest'⟩ := List.cons.inj rest
      obtain ⟨rfl, rfl⟩ := List.cons.inj rest'
      refine .inl ⟨A ++ prev :: C, B', by simp, .inr (low.resolve_left (by simp)), high⟩
  · cases C with
    | nil =>
      obtain ⟨rfl, rfl⟩ := List.cons.inj rest
      exact .inl ⟨A', B, by simp, low, fun b mem => high b (List.mem_cons_of_mem _ mem)⟩
    | cons c C =>
      obtain ⟨rfl, rfl⟩ := List.cons.inj rest
      refine .inl ⟨A', C ++ prev :: B, by simp, low, ?_⟩
      intro b mem
      apply high b
      rcases List.mem_append.mp mem with mem | mem
      · exact List.mem_append_left _ mem
      · rcases List.mem_cons.mp mem with rfl | mem
        · simp
        · simp [mem]

/-- `remove_leaf` of a leaf that is not the leftmost: what its loops rely on holds, its ikeys are routed to the leaf before it,
all others to the leaf that they were routed to. -/
theorem removeNode_reroutes (ikeyBound : L → Nat) (root : Node L) (wf : root.Wf (Bounded ikeyBound) 0 top)
    (distinct : root.leaves.Nodup) {A B : List L} {prev l : L} (leaves : root.leaves = A ++ prev :: l :: B) :
    ∃ path root', root.reachLeaf (ikeyBound l) root.height [] = some (l, path) ∧
      removeNode (ikeyBound l) none path = some root' ∧ root'.Wf (Bounded ikeyBound) 0 top ∧
        root'.leaves = A ++ prev :: B ∧ (∀ x < top, root.route x = some l → root'.route x = some prev) ∧
          (∀ x < top, root.route x ≠ some l → root'.route x = root.route x) ∧
            ∀ x < top, ∃ l' ∈ root'.leaves, root'.route x = some l' := by
  have tiles := wf.tiles
  rw [leaves] at tiles distinct
  obtain ⟨b, before_, here⟩ := tiles_append.mp (show Tiles _ 0 top ((A ++ [prev]) ++ l :: B) by simpa using tiles)
  obtain ⟨c, lt, bounded, after_⟩ := here
  have pos : 0 < b := before_.lt_of_ne_nil (by simp)
  have bound := bounded pos
  have below : ikeyBound l < top := bound ▸ Nat.lt_of_lt_of_le lt after_.le
  have mine := before_.routes bounded (Nat.le_of_eq bound.symm) (bound.symm ▸ lt) after_
  obtain ⟨l₁, path, lo, hi, bound₁, reached, way, bounded₁, low, high, -, leaves₁⟩ := route_spec wf below
  obtain rfl : l₁ = l := by
    apply (way.tiles.1.routes bounded₁ low high way.tiles.2).unique
    rw [← leaves₁, leaves]
    simpa using mine
  have absent : l₁ ∉ A ++ [prev] ∧ l₁ ∉ B := by
    have moved := List.nodup_middle.mp (show ((A ++ [prev]) ++ l₁ :: B).Nodup by simpa using distinct)
    have missing := (List.nodup_cons.mp moved).1
    rw [List.mem_append, not_or] at missing
    exact missing
  obtain ⟨sameBefore, -, sameAfter⟩ := (List.append_cons_inj_of_notMem absent.1 absent.2).mp
    (show (A ++ [prev]) ++ l₁ :: B = before path ++ l₁ :: after path by rw [← leaves₁, leaves]; simp)
  have some_ : before path ≠ [] := by
    rw [← sameBefore]
    simp
  have pos' : 0 < lo := Nat.pos_of_ne_zero fun zero => some_ (way.before_eq_nil.mpr zero)
  have parents : path ≠ [] := by
    rintro rfl
    exact some_ rfl
  obtain ⟨root', removed, wf', leaves'⟩ :=
    removeNode_spec (extends_bounded ikeyBound) way low high (r := none) pos' parents
  have kept : root'.leaves = A ++ prev :: B := by
    rw [leaves', ← sameBefore, ← sameAfter, firstLeaves]
    simp
  refine ⟨path, root', reached, removed, wf', kept, ?_, ?_, ?_⟩
  · intro x small routed
    obtain ⟨l', routed', routes'⟩ := route_routes wf' small
    obtain ⟨l₂, routed₂, routes⟩ := route_routes wf small
    obtain rfl := Option.some.inj (routed.symm.trans routed₂)
    rw [kept] at routes'
    rw [leaves] at routes
    rcases routes.remove tiles with still | ⟨-, moved⟩
    · obtain ⟨A', B', same, -⟩ := still
      have mem : l₁ ∈ A ++ prev :: B := same ▸ by simp
      rcases List.mem_append.mp (show l₁ ∈ (A ++ [prev]) ++ B by simpa using mem) with mem | mem
      · exact absurd mem absent.1
      · exact absurd mem absent.2
    · rw [routed', routes'.unique moved]
  · intro x small other
    obtain ⟨l', routed', routes'⟩ := route_routes wf' small
    obtain ⟨l₂, routed₂, routes⟩ := route_routes wf small
    rw [kept] at routes'
    rw [leaves] at routes
    rcases routes.remove tiles with still | ⟨rfl, -⟩
    · rw [routed', routed₂, routes'.unique still]
    · exact absurd routed₂ other
  · intro x small
    obtain ⟨l', routed, A', B', at_, -⟩ := route_routes wf' small
    exact ⟨l', at_ ▸ by simp, routed⟩

/-- Four leaves that begin at multiples of 100, below internodes of which the second has lost its first child. -/
def fourLeaves : Node Nat :=
  .internode ⟨0, 2, some (.internode ⟨0, 1, some (.leaf 0), [(100, .leaf 1)]⟩),
    [(200, .internode ⟨0, 1, none, [(200, .leaf 2), (300, .leaf 3)]⟩)]⟩

theorem wf_fourLeaves : fourLeaves.Wf (Bounded (100 * ·)) 0 top := by
  have leaf : ∀ i hi, 100 * i < hi → (Node.leaf i).Wf (Bounded (100 * ·)) (100 * i) hi :=
    fun i hi lt => wf_leaf.mpr ⟨lt, fun _ => rfl⟩
  have first : (Node.internode ⟨0, 1, some (.leaf 0), [(100, .leaf 1)]⟩).Wf (Bounded (100 * ·)) 0 200 :=
    wf_internode.mpr ⟨by decide, show 1 ≤ width by decide, childWf_some.mpr ⟨Nat.one_pos, leaf 0 100 (by decide)⟩,
      childWf_some.mpr ⟨Nat.one_pos, leaf 1 200 (by decide)⟩, trivial⟩
  have second : (Node.internode ⟨0, 1, none, [(200, .leaf 2), (300, .leaf 3)]⟩).Wf (Bounded (100 * ·)) 200 top :=
    wf_internode.mpr ⟨by decide, show 2 ≤ width by decide, childWf_none.mpr ⟨rfl, by decide⟩,
      childWf_some.mpr ⟨Nat.one_pos, leaf 2 300 (by decide)⟩, childWf_some.mpr ⟨Nat.one_pos, leaf 3 top (by decide)⟩, trivial⟩
  exact wf_internode.mpr ⟨by decide, show 1 ≤ width by decide, childWf_some.mpr ⟨by decide, first⟩,
    childWf_some.mpr ⟨by decide, second⟩, trivial⟩

/-- Leaf 2 goes: leaf 1, below the other internode, takes its ikeys over. -/
theorem removeNode_reroutes_across : ∃ path root', fourLeaves.reachLeaf 200 fourLeaves.height [] = some (2, path) ∧
    removeNode 200 none path = some root' ∧ root'.Wf (Bounded (100 * ·)) 0 top ∧ root'.leaves = [0, 1, 3] ∧
      (∀ x < top, fourLeaves.route x = some 2 → root'.route x = some 1) ∧
        (∀ x < top, fourLeaves.route x ≠ some 2 → root'.route x = fourLeaves.route x) ∧
          ∀ x < top, ∃ l' ∈ root'.leaves, root'.route x = some l' :=
  removeNode_reroutes (100 * ·) fourLeaves wf_fourLeaves (by simp [fourLeaves, Node.leaves, firstLeaves, restLeaves])
    (show fourLeaves.leaves = [0] ++ 1 :: 2 :: [3] by simp [fourLeaves, Node.leaves, firstLeaves, restLeaves])

end Masstree.Tree
