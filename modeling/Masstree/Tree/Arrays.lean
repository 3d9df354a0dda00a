import Masstree.Tree.Grow
import Mathlib.Logic.Function.Basic

/-!
# Internodes in memory

The arrays of an internode and the parent pointers of nodes, as a split moves children about. Past the occupied places
the arrays hold whatever was there.
-/

namespace Masstree.Tree

/-- `N` is what points to a node. -/
structure Arrays (N : Type) where
  nkeys : Nat
  ikey0 : Nat → Nat
  child : Nat → Option N

/-- The `parent_` of every node. -/
abbrev Parents (N : Type) := N → Option N

def copyItems {α : Type} (to_ : Nat → α) (p : Nat) (x : Nat → α) (xp n : Nat) : Nat → α :=
  fun i => if p ≤ i ∧ i < p + n then x (xp + (i - p)) else to_ i

variable {N : Type}

/-- The loop of `shift_up` over the children, from the last one. -/
def shiftUpChildren (p xp : Nat) : Nat → (Nat → Option N) → Nat → Option N
  | 0, child => child
  | n + 1, child => shiftUpChildren p xp n (Function.update child (p + (n + 1)) (child (xp + (n + 1))))

/-- It is a `memmove` as well. -/
theorem shiftUpChildren_eq {p xp : Nat} (le : xp ≤ p) (n : Nat) (child : Nat → Option N) :
    shiftUpChildren p xp n child = copyItems child (p + 1) child (xp + 1) n := by
  induction n generalizing child with
  | zero =>
    funext i
    rw [shiftUpChildren, copyItems, if_neg (by omega)]
  | succ n ih =>
    rw [shiftUpChildren, ih]
    funext i
    unfold copyItems
    by_cases last : i = p + (n + 1)
    · subst last
      rw [if_neg (by omega), if_pos (by omega), Function.update_self]
      congr 1
      omega
    · by_cases inside : p + 1 ≤ i ∧ i < p + 1 + n
      · have other : xp + 1 + (i - (p + 1)) ≠ p + (n + 1) := by omega
        rw [if_pos inside, if_pos (by omega), Function.update_of_ne other]
      · rw [if_neg inside, if_neg (by omega), Function.update_of_ne last]

variable [DecidableEq N]

/-- `set_parent` of each of these children; `none` is a null one. -/
def setParents (owner : N) : List (Option N) → Parents N → Option (Parents N)
  | [], parent => some parent
  | none :: _, _ => none
  | some c :: children, parent => setParents owner children (Function.update parent c (some owner))

namespace Arrays

def children (a : Arrays N) : List (Option N) := (List.range (a.nkeys + 1)).map a.child

def keys (a : Arrays N) : List Nat := (List.range a.nkeys).map a.ikey0

def setFirst (a : Arrays N) (c : Option N) : Arrays N := { a with child := Function.update a.child 0 c }

def assign (a : Arrays N) (p ikey : Nat) (c : N) : Arrays N :=
  { a with child := Function.update a.child (p + 1) (some c), ikey0 := Function.update a.ikey0 p ikey }

def shiftFrom (a : Arrays N) (p : Nat) (x : Arrays N) (xp n : Nat) : Arrays N :=
  { a with ikey0 := copyItems a.ikey0 p x.ikey0 xp n, child := copyItems a.child (p + 1) x.child (xp + 1) n }

def shiftUp (a : Arrays N) (p xp n : Nat) : Arrays N :=
  { a with ikey0 := copyItems a.ikey0 p a.ikey0 xp n, child := shiftUpChildren p xp n a.child }

/-- What `split_into` changes: both nodes, the `split_ikey` and where the insertion is still to be made, if it is. -/
structure Split (N : Type) where
  left : Arrays N
  right : Arrays N
  splitIkey : Nat
  kp : Option Nat
  parent : Parents N

/-- `split_into`; `new` is `nr`. -/
def splitInto (a nr : Arrays N) (new : N) (p ka : Nat) (value : N) (splitType : Nat) (parent : Parents N) : Option (Split N) :=
  let mid := if splitType = 2 then width else (width + 1) / 2
  let nr := { nr with nkeys := width + 1 - (mid + 1) }
  let (nr, splitIkey, parent) :=
    if p < mid then ((nr.setFirst (a.child mid)).shiftFrom 0 a mid (width - mid), a.ikey0 (mid - 1), parent)
    else if p = mid then ((nr.setFirst (some value)).shiftFrom 0 a mid (width - mid), ka, parent)
    else
      let nr := (nr.setFirst (a.child (mid + 1))).shiftFrom 0 a (mid + 1) (p - (mid + 1))
      let nr := nr.assign (p - (mid + 1)) ka value
      (nr.shiftFrom (p + 1 - (mid + 1)) a p (width - p), a.ikey0 mid, Function.update parent value (some new))
  (setParents new nr.children parent).map fun parent =>
    if p < mid then ⟨{ a with nkeys := mid - 1 }, nr, splitIkey, some p, parent⟩
    else ⟨{ a with nkeys := mid }, nr, splitIkey, none, parent⟩

/-- The step of `make_split` at a full internode: `this` is the internode, `new` the one made. -/
def splitInsert (this new : N) (a nr : Arrays N) (kp xikey : Nat) (child : N) (splitType : Nat) (parent : Parents N) :
    Option (Split N) :=
  (a.splitInto nr new kp xikey child splitType parent).map fun s =>
    match s.kp with
    | none => s
    | some kp =>
      let a := (s.left.shiftUp (kp + 1) kp (s.left.nkeys - kp)).assign kp xikey child
      { s with left := { a with nkeys := a.nkeys + 1 }, parent := Function.update s.parent child (some this) }

end Arrays

/-! ### The arrays as sequences -/

section Sequences
variable {α : Type} {f g h : Nat → α} {m n i : Nat} {x : α}

/-- Items with one more at `i`. -/
def withItem (f : Nat → α) (i : Nat) (x : α) : Nat → α := fun j => if j < i then f j else if j = i then x else f (j - 1)

theorem insertIdx_range (f : Nat → α) (le : i ≤ n) (x : α) :
    ((List.range n).map f).insertIdx i x = (List.range (n + 1)).map (withItem f i x) := by
  apply List.ext_getElem?
  intro j
  unfold withItem
  rw [List.getElem?_insertIdx]
  grind

theorem range_append (before : ∀ j, j < m → f j = h j) (after : ∀ j, j < n → g j = h (m + j)) :
    (List.range m).map f ++ (List.range n).map g = (List.range (m + n)).map h := by
  rw [List.range_add, List.map_append, List.map_map]
  congr 1
  · apply List.map_congr_left
    intro j mem
    exact before j (List.mem_range.mp mem)
  · apply List.map_congr_left
    intro j mem
    exact after j (List.mem_range.mp mem)

end Sequences

/-- Every one of the children gets the parent, and no other node. -/
theorem setParents_spec (owner : N) {children : List (Option N)} (some_ : ∀ c ∈ children, c.isSome) (parent : Parents N) :
    ∃ parent', setParents owner children parent = some parent' ∧ (∀ c, some c ∈ children → parent' c = some owner) ∧
      ∀ c, some c ∉ children → parent' c = parent c := by
  induction children generalizing parent with
  | nil => exact ⟨parent, rfl, nofun, fun _ _ => rfl⟩
  | cons c children ih =>
    obtain ⟨n, rfl⟩ := Option.isSome_iff_exists.mp (some_ c List.mem_cons_self)
    obtain ⟨parent', set, mine, others⟩ :=
      ih (fun c mem => some_ c (List.mem_cons_of_mem _ mem)) (Function.update parent n (some owner))
    refine ⟨parent', set, ?_, ?_⟩
    · intro c mem
      by_cases later : some c ∈ children
      · exact mine c later
      · obtain rfl := Option.some.inj ((List.mem_cons.mp mem).resolve_right later)
        rw [others c later, Function.update_self]
    · intro c missing
      rw [List.mem_cons, not_or] at missing
      rw [others c missing.2, Function.update_of_ne]
      exact fun same => missing.1 (congrArg some same)

/-! ### The split of a full internode -/

/-- A full internode in a tree: only its first child may be null, no child is there twice, and all have it as their
parent. -/
structure Arrays.Full (a : Arrays N) (this : N) (parent : Parents N) : Prop where
  nkeys : a.nkeys = width
  some_ : ∀ i, 0 < i → i ≤ width → (a.child i).isSome
  distinct : ∀ i j c, i ≤ width → j ≤ width → a.child i = some c → a.child j = some c → i = j
  parents : ∀ i c, i ≤ width → a.child i = some c → parent c = some this

namespace Arrays

def rightArrays (a nr : Arrays N) (mid p ka : Nat) (value : N) : Arrays N :=
  if p < mid then (nr.setFirst (a.child mid)).shiftFrom 0 a mid (width - mid)
  else if p = mid then (nr.setFirst (some value)).shiftFrom 0 a mid (width - mid)
  else
    (((nr.setFirst (a.child (mid + 1))).shiftFrom 0 a (mid + 1) (p - (mid + 1))).assign (p - (mid + 1)) ka value).shiftFrom
      (p + 1 - (mid + 1)) a p (width - p)

omit [DecidableEq N] in
theorem rightArrays_spec (a nr : Arrays N) {mid p : Nat} (ka : Nat) (value : N) (le : p ≤ width) (le' : mid ≤ width) :
    (∀ j, j < width - mid → (rightArrays a nr mid p ka value).ikey0 j = withItem a.ikey0 p ka (mid + 1 + j)) ∧
      ∀ j, j ≤ width - mid → (rightArrays a nr mid p ka value).child j = withItem a.child (p + 1) (some value) (mid + 1 + j) := by
  unfold rightArrays
  split
  · refine ⟨fun j lt => ?_, fun j lt => ?_⟩
    · simp only [shiftFrom, setFirst, copyItems, withItem]
      grind
    · simp only [shiftFrom, setFirst, copyItems, withItem, Function.update_apply]
      grind
  · split
    · refine ⟨fun j lt => ?_, fun j lt => ?_⟩
      · simp only [shiftFrom, setFirst, copyItems, withItem]
        grind
      · simp only [shiftFrom, setFirst, copyItems, withItem, Function.update_apply]
        grind
    · refine ⟨fun j lt => ?_, fun j lt => ?_⟩
      · simp only [shiftFrom, setFirst, assign, copyItems, withItem, Function.update_apply]
        grind
      · simp only [shiftFrom, setFirst, assign, copyItems, withItem, Function.update_apply]
        grind

/-- The arrays of the old node, where the insertion is made in it. -/
def leftArrays (a : Arrays N) (mid p ka : Nat) (value : N) : Arrays N :=
  (({ a with nkeys := mid - 1 } : Arrays N).shiftUp (p + 1) p (mid - 1 - p)).assign p ka value

omit [DecidableEq N] in
theorem leftArrays_spec (a : Arrays N) {mid p : Nat} (ka : Nat) (value : N) (lt : p < mid) :
    (∀ j, j < mid → (leftArrays a mid p ka value).ikey0 j = withItem a.ikey0 p ka j) ∧
      ∀ j, j ≤ mid → (leftArrays a mid p ka value).child j = withItem a.child (p + 1) (some value) j := by
  refine ⟨fun j lt => ?_, fun j lt => ?_⟩
  · simp only [leftArrays, shiftUp, assign, copyItems, withItem, Function.update_apply]
    grind
  · simp only [leftArrays, shiftUp, assign, copyItems, withItem, Function.update_apply, shiftUpChildren_eq (Nat.le_succ p)]
    grind
/-- The two nodes hold `keys` and `children`, but for the key at `mid` between them, and are the parents of what they
hold. -/
structure Split.Holds (s : Split N) (this new : N) (mid : Nat) (keys : List Nat) (children : List (Option N)) : Prop where
  mid : s.left.nkeys = mid
  keys : s.left.keys ++ s.splitIkey :: s.right.keys = keys
  children : s.left.children ++ s.right.children = children
  left : s.left.nkeys ≤ width
  right : s.right.nkeys ≤ width
  parentLeft : ∀ c, some c ∈ s.left.children → s.parent c = some this
  parentRight : ∀ c, some c ∈ s.right.children → s.parent c = some new

section Assembly
variable {a l r : Arrays N} {this child : N} {parent : Parents N} {kp mid : Nat} {key : Nat → Nat}
  {ch : Nat → Option N}

omit [DecidableEq N] in
/-- Both nodes read as one sequence. -/
theorem sequences (le : mid ≤ width) (leftSize : l.nkeys = mid) (rightSize : r.nkeys = width - mid)
    (leftKeys : ∀ j, j < mid → l.ikey0 j = key j) (leftChildren : ∀ j, j ≤ mid → l.child j = ch j)
    (rightKeys : ∀ j, j < width - mid → r.ikey0 j = key (mid + 1 + j))
    (rightChildren : ∀ j, j ≤ width - mid → r.child j = ch (mid + 1 + j)) :
    l.keys ++ key mid :: r.keys = (List.range (width + 1)).map key ∧
      l.children ++ r.children = (List.range (width + 2)).map ch := by
  refine ⟨?_, ?_⟩
  · have first := range_append (m := mid) (n := 1) (g := fun _ => key mid) leftKeys
      (fun j lt => by rw [Nat.lt_one_iff.mp lt, Nat.add_zero])
    have whole := range_append (f := key) (m := mid + 1) (n := width - mid) (fun _ _ => rfl) rightKeys
    rw [← first, Nat.add_right_comm, Nat.add_sub_cancel' le, List.append_assoc] at whole
    rw [keys, keys, leftSize, rightSize]
    exact whole
  · have whole := range_append (m := mid + 1) (n := width - mid + 1) (fun j lt => leftChildren j (Nat.le_of_lt_succ lt))
      (fun j lt => rightChildren j (Nat.le_of_lt_succ lt))
    have sum : mid + 1 + (width - mid + 1) = width + 2 := by omega
    rw [children, children, leftSize, rightSize, whole, sum]

omit [DecidableEq N] in
/-- No child is there twice after the insertion either. -/
theorem withItem_inj (full : a.Full this parent) (fresh : some child ∉ a.children) (le : kp ≤ width)
    {i j : Nat} {c : N} (lt : i < width + 2) (lt' : j < width + 2) (at_ : withItem a.child (kp + 1) (some child) i = some c)
    (at' : withItem a.child (kp + 1) (some child) j = some c) : i = j := by
  have old : ∀ i, i ≤ width → a.child i ≠ some child := by
    intro i le same
    apply fresh
    rw [← same, children, full.nkeys]
    exact List.mem_map_of_mem (List.mem_range.mpr (Nat.lt_succ_of_le le))
  have distinct := full.distinct
  unfold withItem at at_ at'
  grind

/-- The children of the new node get it as their parent, those of the old one keep theirs. -/
theorem setParents_children (new : N) (full : a.Full this parent) (fresh : some child ∉ a.children) (le : kp ≤ width)
    (pos : 0 < mid) (le' : mid ≤ width) (rightSize : r.nkeys = width - mid)
    (rightChildren : ∀ j, j ≤ width - mid → r.child j = withItem a.child (kp + 1) (some child) (mid + 1 + j))
    (parent₀ : Parents N) (start : ∀ c, c ≠ child → parent₀ c = parent c) : ∃ parent', setParents new r.children parent₀ = some parent' ∧
      (∀ c, some c ∈ r.children → parent' c = some new) ∧
        ∀ j c, j ≤ mid → withItem a.child (kp + 1) (some child) j = some c → c ≠ child → parent' c = some this := by
  have at_ : ∀ c, c ∈ r.children → ∃ j, mid < j ∧ j < width + 2 ∧ withItem a.child (kp + 1) (some child) j = c := by
    intro c mem
    obtain ⟨j, inside, rfl⟩ := List.mem_map.mp mem
    have inside := List.mem_range.mp inside
    rw [rightSize] at inside
    exact ⟨mid + 1 + j, by omega, by omega, (rightChildren j (by omega)).symm⟩
  have some_ : ∀ c ∈ r.children, c.isSome := by
    intro c mem
    obtain ⟨j, low, high, rfl⟩ := at_ c mem
    unfold withItem
    split
    · exact full.some_ j (by omega) (by omega)
    · split
      · rfl
      · exact full.some_ (j - 1) (by omega) (by omega)
  obtain ⟨parent', set, mine, others⟩ := setParents_spec new some_ parent₀
  refine ⟨parent', set, mine, ?_⟩
  intro j c inside here other
  have missing : some c ∉ r.children := by
    intro mem
    obtain ⟨j', low, high, here'⟩ := at_ _ mem
    have same := withItem_inj full fresh le (by omega) high here here'
    omega
  rw [others c missing, start c other]
  unfold withItem at here
  split at here
  · exact full.parents j c (by omega) here
  · split at here
    · exact absurd (Option.some.inj here).symm other
    · exact full.parents (j - 1) c (by omega) here

/-- The insertion is made in the old node after the split. -/
theorem holds_old (new : N) (full : a.Full this parent) (fresh : some child ∉ a.children) (le : kp ≤ width) (before : kp < mid)
    (le' : mid ≤ width) (xikey : Nat) (rightSize : r.nkeys = width - mid)
    (rightKeys : ∀ j, j < width - mid → r.ikey0 j = withItem a.ikey0 kp xikey (mid + 1 + j))
    (rightChildren : ∀ j, j ≤ width - mid → r.child j = withItem a.child (kp + 1) (some child) (mid + 1 + j)) :
    ∃ parent', setParents new r.children parent = some parent' ∧
      (⟨{ leftArrays a mid kp xikey child with nkeys := mid - 1 + 1 }, r, a.ikey0 (mid - 1), some kp,
        Function.update parent' child (some this)⟩ : Split N).Holds this new mid
          ((List.range (width + 1)).map (withItem a.ikey0 kp xikey))
          ((List.range (width + 2)).map (withItem a.child (kp + 1) (some child))) := by
  have pos : 0 < mid := Nat.zero_lt_of_lt before
  obtain ⟨parent', set, mine, others⟩ :=
    setParents_children new full fresh le pos le' rightSize rightChildren parent (fun _ _ => rfl)
  obtain ⟨leftKeys, leftChildren⟩ := leftArrays_spec a xikey child before
  have leftSize : (mid - 1) + 1 = mid := Nat.sub_add_cancel pos
  have at_ : a.ikey0 (mid - 1) = withItem a.ikey0 kp xikey mid := by
    rw [withItem, if_neg (Nat.lt_asymm before), if_neg (Nat.ne_of_gt before)]
  obtain ⟨keySeq, childSeq⟩ := sequences (l := { leftArrays a mid kp xikey child with nkeys := mid - 1 + 1 }) le' leftSize rightSize
    leftKeys leftChildren rightKeys rightChildren
  have fresh' : some child ∉ r.children := by
    intro mem
    obtain ⟨j, inside, here⟩ := List.mem_map.mp mem
    have inside := List.mem_range.mp inside
    rw [rightSize] at inside
    rw [rightChildren j (by omega)] at here
    have there : withItem a.child (kp + 1) (some child) (kp + 1) = some child := by
      rw [withItem, if_neg (Nat.lt_irrefl _), if_pos rfl]
    have same := withItem_inj full fresh le (by omega) (by omega) here there
    omega
  refine ⟨parent', set, leftSize, (congrArg (fun k => _ ++ k :: _) at_).trans keySeq, childSeq,
    Nat.le_trans (Nat.le_of_eq leftSize) le', Nat.le_trans (Nat.le_of_eq rightSize) (Nat.sub_le _ _), ?_, ?_⟩
  · intro c mem
    obtain ⟨j, inside, here⟩ := List.mem_map.mp mem
    have inside := List.mem_range.mp inside
    have inside' : j ≤ mid := Nat.le_of_lt_succ (leftSize ▸ inside)
    show Function.update parent' child (some this) c = some this
    by_cases same : c = child
    · rw [same, Function.update_self]
    · rw [Function.update_of_ne same]
      exact others j c inside' ((leftChildren j inside').symm.trans here) same
  · intro c mem
    show Function.update parent' child (some this) c = some new
    have other : c ≠ child := by
      rintro rfl
      exact fresh' mem
    rw [Function.update_of_ne other]
    exact mine c mem

/-- The split has made it, in the new node or between both. -/
theorem holds_new (new : N) (full : a.Full this parent) (fresh : some child ∉ a.children) (le : kp ≤ width) (pos : 0 < mid)
    (after : mid ≤ kp) (xikey : Nat) (rightSize : r.nkeys = width - mid)
    (rightKeys : ∀ j, j < width - mid → r.ikey0 j = withItem a.ikey0 kp xikey (mid + 1 + j))
    (rightChildren : ∀ j, j ≤ width - mid → r.child j = withItem a.child (kp + 1) (some child) (mid + 1 + j))
    {splitIkey : Nat} (at_ : splitIkey = withItem a.ikey0 kp xikey mid) (parent₀ : Parents N)
    (start : ∀ c, c ≠ child → parent₀ c = parent c) : ∃ parent', setParents new r.children parent₀ = some parent' ∧
      (⟨{ a with nkeys := mid }, r, splitIkey, none, parent'⟩ : Split N).Holds this new mid
        ((List.range (width + 1)).map (withItem a.ikey0 kp xikey))
        ((List.range (width + 2)).map (withItem a.child (kp + 1) (some child))) := by
  have le' : mid ≤ width := Nat.le_trans after le
  have leftKeys : ∀ j, j < mid → a.ikey0 j = withItem a.ikey0 kp xikey j := by
    intro j lt
    rw [withItem, if_pos (Nat.lt_of_lt_of_le lt after)]
  have leftChildren : ∀ j, j ≤ mid → a.child j = withItem a.child (kp + 1) (some child) j := by
    intro j lt
    rw [withItem, if_pos (Nat.lt_succ_of_le (Nat.le_trans lt after))]
  have other : ∀ j c, j ≤ mid → a.child j = some c → c ≠ child := by
    rintro j c inside here rfl
    apply fresh
    rw [← here, children, full.nkeys]
    exact List.mem_map_of_mem (List.mem_range.mpr (Nat.lt_succ_of_le (Nat.le_trans inside le')))
  obtain ⟨parent', set, mine, others⟩ :=
    setParents_children new full fresh le pos le' rightSize rightChildren parent₀ start
  obtain ⟨keySeq, childSeq⟩ := sequences (l := { a with nkeys := mid }) le' rfl rightSize leftKeys leftChildren rightKeys
    rightChildren
  refine ⟨parent', set, rfl, (congrArg (fun k => _ ++ k :: _) at_).trans keySeq, childSeq, le', ?_, ?_, mine⟩
  · exact Nat.le_trans (Nat.le_of_eq rightSize) (Nat.sub_le _ _)
  · intro c mem
    obtain ⟨j, inside, here⟩ := List.mem_map.mp mem
    have inside' : j ≤ mid := Nat.le_of_lt_succ (List.mem_range.mp inside)
    exact others j c inside' ((leftChildren j inside').symm.trans here) (other j c inside' here)

end Assembly

theorem splitInsert_holds {a : Arrays N} (nr : Arrays N) {this : N} (new : N) {child : N} {parent : Parents N}
    (full : a.Full this parent) (fresh : some child ∉ a.children) {kp : Nat} (le : kp ≤ width) (xikey splitType : Nat) :
    ∃ s, splitInsert this new a nr kp xikey child splitType parent = some s ∧
      s.Holds this new (if splitType = 2 then width else (width + 1) / 2) (a.keys.insertIdx kp xikey)
        (a.children.insertIdx (kp + 1) (some child)) := by
  have le' : kp + 1 ≤ a.nkeys + 1 := by
    rw [full.nkeys]
    exact Nat.succ_le_succ le
  have keys_ : a.keys.insertIdx kp xikey = (List.range (width + 1)).map (withItem a.ikey0 kp xikey) := by
    rw [keys, insertIdx_range _ (full.nkeys.symm ▸ le), full.nkeys]
  have children_ : a.children.insertIdx (kp + 1) (some child) =
      (List.range (width + 2)).map (withItem a.child (kp + 1) (some child)) := by
    rw [children, insertIdx_range _ le', full.nkeys]
  have mid_ : 0 < (if splitType = 2 then width else (width + 1) / 2) ∧
      (if splitType = 2 then width else (width + 1) / 2) ≤ width := by
    split <;> decide
  rw [keys_, children_]
  unfold splitInsert splitInto
  dsimp only
  generalize (if splitType = 2 then width else (width + 1) / 2) = mid at mid_
  obtain ⟨pos, le_⟩ := mid_
  have size : width + 1 - (mid + 1) = width - mid := Nat.add_sub_add_right ..
  obtain ⟨rightKeys, rightChildren⟩ := rightArrays_spec a { nr with nkeys := width + 1 - (mid + 1) }
    xikey child le le_
  have rightSize : (rightArrays a { nr with nkeys := width + 1 - (mid + 1) } mid kp xikey child).nkeys = width - mid := by
    unfold rightArrays
    split
    · exact size
    · split <;> exact size
  by_cases before : kp < mid
  · rw [rightArrays, if_pos before] at rightSize rightKeys rightChildren
    obtain ⟨parent', set, holds⟩ := holds_old new full fresh le before le_ xikey rightSize rightKeys rightChildren
    simp only [if_pos before]
    rw [set]
    exact ⟨_, rfl, holds⟩
  · have after : mid ≤ kp := Nat.le_of_not_lt before
    rw [rightArrays, if_neg before] at rightSize rightKeys rightChildren
    simp only [if_neg before]
    by_cases same : kp = mid
    · rw [if_pos same] at rightSize rightKeys rightChildren
      simp only [if_pos same]
      have at_ : xikey = withItem a.ikey0 kp xikey mid := by
        rw [withItem, if_neg (Nat.not_lt_of_le (Nat.le_of_eq same)), if_pos same.symm]
      obtain ⟨parent', set, holds⟩ :=
        holds_new new full fresh le pos after xikey rightSize rightKeys rightChildren at_ parent (fun _ _ => rfl)
      rw [set]
      exact ⟨_, rfl, holds⟩
    · rw [if_neg same] at rightSize rightKeys rightChildren
      simp only [if_neg same]
      have at_ : a.ikey0 mid = withItem a.ikey0 kp xikey mid := by
        rw [withItem, if_pos (Nat.lt_of_le_of_ne after (Ne.symm same))]
      obtain ⟨parent', set, holds⟩ := holds_new new full fresh le pos after xikey rightSize rightKeys rightChildren at_
        (Function.update parent child (some new)) (fun c other => Function.update_of_ne other _ _)
      rw [set]
      exact ⟨_, rfl, holds⟩

def fullArrays : Arrays Nat := ⟨15, fun i => 10 * i, fun i => if i = 0 then none else some i⟩

/-- A child after the fourth. -/
theorem splitInsert_holds_fourth : ∃ s, splitInsert 100 101 fullArrays ⟨0, fun _ => 0, fun _ => none⟩ 4 35 50 0
    (fun _ => some 100) = some s ∧
    s.Holds 100 101 8 (fullArrays.keys.insertIdx 4 35) (fullArrays.children.insertIdx 5 (some 50)) := by
  apply splitInsert_holds _ _ ⟨rfl, ?_, ?_, fun _ _ _ _ => rfl⟩ (by decide) (by decide)
  · intro i pos _
    show (if i = 0 then none else some i).isSome
    rw [if_neg (Nat.ne_of_gt pos)]
    rfl
  · intro i j c _ _ at_ at'
    change (if i = 0 then none else some i) = some c at at_
    change (if j = 0 then none else some j) = some c at at'
    grind

/-! ### The arrays and the list of children -/

structure Models (a : Arrays N) (p : Internode N) : Prop where
  keys : p.rest.map Prod.fst = a.keys
  children : p.first :: p.rest.map (fun e => some e.2) = a.children

omit [DecidableEq N] in
theorem Models.size {a : Arrays N} {p : Internode N} (models : Models a p) : p.size = a.nkeys := by
  have length := congrArg List.length models.keys
  rwa [List.length_map, Arrays.keys, List.length_map, List.length_range] at length

/-- The split in memory is the split of the list of children. -/
theorem splitInsert_models {a nr : Arrays N} {p : Internode N} {this new child : N} {parent : Parents N}
    (full : a.Full this parent) (fresh : some child ∉ a.children) (models : Models a p) {kp : Nat} (le : kp ≤ width)
    (xikey splitType height : Nat) : ∃ s left right, splitInsert this new a nr kp xikey child splitType parent = some s ∧
      p.splitInto height kp xikey child splitType = (left, s.splitIkey, right) ∧ Models s.left left ∧ Models s.right right := by
  obtain ⟨s, split_, holds⟩ := splitInsert_holds nr new full fresh le xikey splitType
  have size := models.size.trans full.nkeys
  have within : (if splitType = 2 then width else (width + 1) / 2) ≤ p.size := by
    rw [size]
    split <;> decide
  have pos : 0 < if splitType = 2 then width else (width + 1) / 2 := by
    split <;> decide
  obtain ⟨e, middle, split'⟩ := splitInto_eq (p := p) xikey (size ▸ le) within pos rfl height child
  obtain ⟨mid_, keys_, children_, -, -, -, -⟩ := holds
  generalize (if splitType = 2 then width else (width + 1) / 2) = mid at *
  obtain ⟨inside, rfl⟩ := List.getElem?_eq_some_iff.mp middle
  have parts := List.take_append_drop mid (p.rest.insertIdx kp (xikey, child))
  rw [← List.getElem_cons_drop inside] at parts
  have keySeq := congrArg (List.map Prod.fst) parts
  have childSeq := congrArg (fun rest => p.first :: rest.map fun e => some e.2) parts
  have oldChildren : p.first :: (p.rest.insertIdx kp (xikey, child)).map (fun e => some e.2) =
      a.children.insertIdx (kp + 1) (some child) := by
    rw [← models.children, List.insertIdx_succ_cons, List.map_insertIdx]
  rw [List.map_insertIdx, models.keys, ← keys_, List.map_append, List.map_cons] at keySeq
  rw [oldChildren, ← children_, List.map_append, List.map_cons, ← List.cons_append] at childSeq
  have leftLength : ((p.rest.insertIdx kp (xikey, child)).take mid).length = mid := List.length_take_of_le (Nat.le_of_lt inside)
  obtain ⟨leftKeys, later⟩ := List.append_inj keySeq
    (by rw [List.length_map, leftLength, keys, List.length_map, List.length_range, mid_])
  obtain ⟨leftChildren, rightChildren⟩ := List.append_inj childSeq
    (by rw [List.length_cons, List.length_map, leftLength, children, List.length_map, List.length_range, mid_])
  obtain ⟨key, rightKeys⟩ := List.cons.inj later
  refine ⟨s, { p with rest := (p.rest.insertIdx kp (xikey, child)).take mid },
    ⟨p.version, height, some _, (p.rest.insertIdx kp (xikey, child)).drop (mid + 1)⟩, split_, split'.trans ?_,
    ⟨leftKeys, leftChildren⟩, ⟨rightKeys, rightChildren⟩⟩
  exact congrArg (fun k => (_, k, _)) key

end Arrays

end Masstree.Tree
