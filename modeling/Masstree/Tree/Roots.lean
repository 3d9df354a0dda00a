import Masstree.Tree.Insertion
import Masstree.Tree.Table

/-!
# Root flags

Searches begin at the root of a layer, and find it by the root flag in the version of a node. The runs are without suffix bags (see
`suffixes_kept_of_short`).
-/

namespace Masstree.Tree
open Msgpack (Bytes)
open Nodeversion (rootBit unused1Bit splittingBit)

variable {V : Type}

/-! ### Versions -/

namespace Nodeversion

structure Idle (root : Bool) (v : Nodeversion) : Prop where
  stable : v.Stable
  clear : v.has unused1Bit = false
  flag : v.has rootBit = root

/-- A version under the lock, before a split. -/
structure Held (root : Bool) (v : Nodeversion) : Prop where
  clear : v.has unused1Bit = false
  flag : v.has rootBit = root
  whole : v.has splittingBit = false

variable {v : Nodeversion} {root : Bool}

theorem Idle.lock (idle : Idle root v) : Held root v.lock where
  clear := by rw [Nodeversion.lock, has_or, idle.clear, show lockBit.has unused1Bit = false by decide, Bool.or_false]
  flag := by rw [Nodeversion.lock, has_or, idle.flag, show lockBit.has rootBit = false by decide, Bool.or_false]
  whole := by
    rw [splitting_lock]
    exact idle.stable.has (by decide)

theorem Held.markInsert (held : Held root v) : Held root v.markInsert where
  clear := by
    rw [Nodeversion.markInsert, has_or, held.clear, show insertingBit.has unused1Bit = false by decide, Bool.or_false]
  flag := by rw [Nodeversion.markInsert, has_or, held.flag, show insertingBit.has rootBit = false by decide, Bool.or_false]
  whole := by rw [splitting_markInsert, held.whole]

theorem Held.markNonroot (held : Held root v) : Held false v.markNonroot where
  clear := by rw [Nodeversion.markNonroot, has_and (by decide), held.clear]
  flag := has_and_out (by decide)
  whole := by rw [Nodeversion.markNonroot, has_and (by decide), held.whole]

theorem Held.markRoot (held : Held root v) : Held true v.markRoot where
  clear := by rw [Nodeversion.markRoot, has_or, held.clear, show rootBit.has unused1Bit = false by decide, Bool.or_false]
  flag := by rw [Nodeversion.markRoot, has_or, show rootBit.has rootBit = true by decide, Bool.or_true]
  whole := by rw [Nodeversion.markRoot, has_or, held.whole, show rootBit.has splittingBit = false by decide, Bool.or_false]

theorem Held.unlock (held : Held root v) : Idle root v.unlock where
  stable := stable_unlock v
  clear := unused_unlock v
  flag := by rw [root_unlock held.clear, held.whole, held.flag, Bool.not_false, Bool.true_and]

/-- A split clears the flag. -/
theorem Held.unlock_split (held : Held root v) : Idle false v.markSplit.unlock where
  stable := stable_unlock _
  clear := unused_unlock _
  flag := by
    have clear : v.markSplit.has unused1Bit = false := by
      rw [Nodeversion.markSplit, has_or, held.clear, show splittingBit.has unused1Bit = false by decide, Bool.or_false]
    rw [root_unlock clear, splitting_markSplit]
    rfl

end Nodeversion

open Nodeversion (Idle Held)

theorem idle_zero : Idle false 0 := ⟨by decide, by decide, by decide⟩

theorem idle_root : Idle true (Nodeversion.markRoot 0) := ⟨by decide, by decide, by decide⟩

/-! ### Trees -/

def Node.version : Node (Leaf V) → Nodeversion
  | .leaf l => l.version
  | .internode p => p.version

def Node.isRoot (n : Node (Leaf V)) : Bool := n.version.has rootBit

/-- A node of the tree, with its parents from the nearest on. -/
inductive Node.Within {L : Type} (root : Node L) : Node L → List (Frame L) → Prop
  | root : Within root root []
  | child {p : Internode (Node L)} {path : List (Frame L)} {kp : Nat} {n : Node L} :
      Within root (.internode p) path → p.child kp = some n → Within root n (⟨p, kp⟩ :: path)

/-- The loop over `maybe_parent`: `none` where it never ends. -/
def climb : Node (Leaf V) → List (Frame (Leaf V)) → Option (Node (Leaf V))
  | n, [] => if n.isRoot then some n else none
  | n, f :: path => if n.isRoot then some n else climb (.internode f.p) path

/-- The flag is on the node without a parent and nowhere else, so it leads from every node to the root. -/
def Node.FlagsRoot (root : Node (Leaf V)) : Prop :=
  ∀ n path, root.Within n path → (n.isRoot = true ↔ path = []) ∧ climb n path = some root

/-- Versions between operations, with the flag at the root or not at all. -/
inductive Node.Flags : Bool → Node (Leaf V) → Prop
  | leaf {root : Bool} {l : Leaf V} : Idle root l.version → Flags root (.leaf l)
  | internode {root : Bool} {p : Internode (Node (Leaf V))} : Idle root p.version →
      (∀ n, p.first = some n → Flags false n) → (∀ e ∈ p.rest, Flags false e.2) → Flags root (.internode p)

/-- No node below has the flag. -/
def Internode.Plain (p : Internode (Node (Leaf V))) : Prop :=
  (∀ n, p.first = some n → n.Flags false) ∧ ∀ e ∈ p.rest, e.2.Flags false

/-- The same along a path, for the children that it passes. -/
def PathFlags : List (Frame (Leaf V)) → Prop
  | [] => True
  | f :: path => f.p.Plain ∧ Idle path.isEmpty f.p.version ∧ PathFlags path

section Trees
variable {root : Bool} {n n' : Node (Leaf V)} {l : Leaf V} {p : Internode (Node (Leaf V))} {path path' : List (Frame (Leaf V))}
  {kp ikey x height fuel : Nat}

theorem flags_leaf : (Node.leaf l).Flags root ↔ Idle root l.version := by
  constructor
  · intro flags
    cases flags with
    | leaf idle => exact idle
  · exact .leaf

theorem flags_internode : (Node.internode p).Flags root ↔ Idle root p.version ∧ p.Plain := by
  constructor
  · intro flags
    cases flags with
    | internode idle first rest => exact ⟨idle, first, rest⟩
  · rintro ⟨idle, first, rest⟩
    exact .internode idle first rest

theorem Node.Flags.idle (flags : n.Flags root) : Idle root n.version := by
  cases flags with
  | leaf idle => exact idle
  | internode idle => exact idle

theorem Internode.Plain.of_child (plain : p.Plain) (at_ : p.child kp = some n) : n.Flags false := by
  cases kp with
  | zero => exact plain.1 n at_
  | succ i =>
    obtain ⟨e, mem, rfl⟩ := Option.map_eq_some_iff.mp at_
    exact plain.2 e (List.mem_of_getElem? mem)

theorem Internode.Plain.of_child_at (plain : p.Plain) (kp : Nat) (at_ : p.child kp = some n) : n.Flags false := plain.of_child at_

theorem mem_modify {α : Type} {xs : List α} {i : Nat} {f : α → α} {e : α} (mem : e ∈ xs.modify i f) :
    ∃ e' ∈ xs, e = e' ∨ e = f e' := by
  obtain ⟨j, at_⟩ := List.mem_iff_getElem?.mp mem
  rw [List.getElem?_modify] at at_
  obtain ⟨e', at', rfl⟩ := Option.map_eq_some_iff.mp at_
  refine ⟨e', List.mem_of_getElem? at', ?_⟩
  split
  · exact .inr rfl
  · exact .inl rfl

theorem Internode.Plain.setChild (plain : p.Plain) (flags : n.Flags false) (kp : Nat) : (p.setChild kp n).Plain := by
  cases kp with
  | zero =>
    refine ⟨?_, plain.2⟩
    intro m first
    obtain rfl := Option.some.inj first
    exact flags
  | succ i =>
    refine ⟨plain.1, ?_⟩
    intro e mem
    obtain ⟨e', mem', rfl | rfl⟩ := mem_modify mem
    · exact plain.2 e mem'
    · exact flags

theorem Internode.Plain.setIkey (plain : p.Plain) (i ikey : Nat) : (p.setIkey i ikey).Plain := by
  refine ⟨plain.1, ?_⟩
  intro e mem
  obtain ⟨e', mem', rfl | rfl⟩ := mem_modify mem
  · exact plain.2 e mem'
  · exact plain.2 e' mem'

theorem mem_insertIdx {α : Type} {xs : List α} {a e : α} (mem : e ∈ xs.insertIdx kp a) : e = a ∨ e ∈ xs := by
  by_cases le : kp ≤ xs.length
  · exact (List.mem_insertIdx le).mp mem
  · rw [List.insertIdx_of_length_lt (Nat.lt_of_not_le le)] at mem
    exact .inr mem

theorem Internode.Plain.insert (plain : p.Plain) (flags : n.Flags false) (kp ikey : Nat) : (p.insert kp ikey n).Plain := by
  refine ⟨plain.1, ?_⟩
  intro e mem
  rcases mem_insertIdx mem with rfl | mem
  · exact flags
  · exact plain.2 e mem

theorem Internode.Plain.replaceChild {r : Option (Node (Leaf V))} (plain : p.Plain) (flags : ∀ n, r = some n → n.Flags false)
    (kp : Nat) : (p.replaceChild kp r).Plain := by
  cases r with
  | some n => exact plain.setChild (flags n rfl) kp
  | none =>
    show (if 0 < kp then p.remove kp else { p with first := none } : Internode _).Plain
    by_cases pos : 0 < kp
    · rw [if_pos pos]
      exact ⟨plain.1, fun e mem => plain.2 e (List.mem_of_mem_eraseIdx mem)⟩
    · rw [if_neg pos]
      refine ⟨?_, plain.2⟩
      intro n first
      cases first

theorem Internode.Plain.splitInto (plain : p.Plain) (flags : n.Flags false) (height kp ka splitType : Nat) :
    (p.splitInto height kp ka n splitType).1.Plain ∧ (p.splitInto height kp ka n splitType).2.2.Plain := by
  unfold Internode.splitInto
  dsimp only
  generalize (if splitType = 2 then width else (width + 1) / 2) = mid
  have within : ∀ xs : List (Nat × Node (Leaf V)), (∀ e ∈ xs, e ∈ p.rest) → ∀ i, ∀ e ∈ xs.insertIdx i (ka, n), e.2.Flags false := by
    intro xs sub i e mem
    rcases mem_insertIdx mem with rfl | mem
    · exact flags
    · exact plain.2 e (sub e mem)
  split
  · refine ⟨⟨plain.1, within _ (fun e => List.mem_of_mem_take) _⟩, fun m first => plain.of_child_at mid first, ?_⟩
    exact fun e mem => plain.2 e (List.mem_of_mem_drop mem)
  · split
    · refine ⟨⟨plain.1, fun e mem => plain.2 e (List.mem_of_mem_take mem)⟩, ?_, fun e mem => plain.2 e (List.mem_of_mem_drop mem)⟩
      intro m first
      obtain rfl := Option.some.inj first
      exact flags
    · refine ⟨⟨plain.1, fun e mem => plain.2 e (List.mem_of_mem_take mem)⟩, ?_, within _ (fun e => List.mem_of_mem_drop) _⟩
      intro m first
      exact plain.of_child_at (mid + 1) first

theorem plug_flags (along : PathFlags path) (flags : n.Flags path.isEmpty) : (plug n path).Flags true := by
  induction path generalizing n with
  | nil => exact flags
  | cons f path ih =>
    obtain ⟨plain, idle, above⟩ := along
    refine ih above (flags_internode.mpr ⟨?_, plain.setChild flags f.kp⟩)
    rwa [Internode.version_setChild]

theorem reachLeaf_flags (flags : n.Flags path.isEmpty) (along : PathFlags path)
    (reached : n.reachLeaf ikey fuel path = some (l, path')) : PathFlags path' ∧ Idle path'.isEmpty l.version := by
  induction fuel generalizing n path with
  | zero =>
    cases n with
    | leaf l' =>
      cases reached
      exact ⟨along, flags_leaf.mp flags⟩
    | internode p => cases reached
  | succ fuel ih =>
    cases n with
    | leaf l' =>
      cases reached
      exact ⟨along, flags_leaf.mp flags⟩
    | internode p =>
      obtain ⟨idle, plain⟩ := flags_internode.mp flags
      rw [Node.reachLeaf] at reached
      split at reached
      · cases reached
      · rename_i m at_
        have below : PathFlags (⟨p, p.upper ikey⟩ :: path) := ⟨plain, idle, along⟩
        exact ih (show m.Flags (List.isEmpty (⟨p, p.upper ikey⟩ :: path)) from plain.of_child at_) below reached

theorem version_splitInto (p : Internode (Node (Leaf V))) (height kp ka splitType : Nat) (n : Node (Leaf V)) :
    (p.splitInto height kp ka n splitType).1.version = p.version ∧
      (p.splitInto height kp ka n splitType).2.2.version = p.version := by
  unfold Internode.splitInto
  dsimp only
  generalize (if splitType = 2 then width else (width + 1) / 2) = mid
  split
  · exact ⟨rfl, rfl⟩
  · split
    · exact ⟨rfl, rfl⟩
    · exact ⟨rfl, rfl⟩

theorem idle_touch (idle : Idle root p.version) : Idle root p.lock.markInsert.unlock.version := idle.lock.markInsert.unlock

theorem insertSplit_flags {splitType : Nat} (along : PathFlags path) (flags : n.Flags false) (flags' : n'.Flags false) :
    (insertSplit splitType height n x n' path).Flags true := by
  induction path generalizing height n x n' with
  | nil =>
    refine flags_internode.mpr ⟨idle_root, ?_, ?_⟩
    · intro m first
      obtain rfl := Option.some.inj first
      exact flags
    · intro e mem
      rw [List.mem_singleton.mp mem]
      exact flags'
  | cons f path ih =>
    obtain ⟨plain, idle, above⟩ := along
    rw [insertSplit]
    have plain' : (f.p.setChild f.kp n).lock.markInsert.Plain := plain.setChild flags f.kp
    have held : Held path.isEmpty (f.p.setChild f.kp n).lock.markInsert.version := by
      show Held _ (f.p.setChild f.kp n).version.lock.markInsert
      rw [Internode.version_setChild]
      exact idle.lock.markInsert
    generalize (f.p.setChild f.kp n).lock.markInsert = q at plain' held
    dsimp only
    split
    · refine plug_flags above (flags_internode.mpr ⟨?_, plain'.setChild (flags_internode.mpr ⟨idle_zero, ?_, ?_⟩) _⟩)
      · show Idle _ (q.setChild _ _).version.unlock
        rw [Internode.version_setChild]
        exact held.unlock
      · intro m first
        obtain rfl := Option.some.inj first
        exact flags
      · intro e mem
        rw [List.mem_singleton.mp mem]
        exact flags'
    · split
      · exact plug_flags above (flags_internode.mpr ⟨held.unlock, plain'.insert flags' _ _⟩)
      · obtain ⟨left, right⟩ := plain'.splitInto flags' (height + 1) (q.upper x) x splitType
        have versions := version_splitInto q (height + 1) (q.upper x) x splitType n'
        generalize q.splitInto (height + 1) (q.upper x) x n' splitType = s at left right versions
        refine ih above (flags_internode.mpr ⟨?_, left⟩) (flags_internode.mpr ⟨?_, right⟩)
        · show Idle _ s.1.version.markSplit.unlock
          rw [versions.1]
          exact held.unlock_split
        · show Idle _ s.2.2.version.markNonroot.unlock
          rw [versions.2]
          exact held.markNonroot.unlock

theorem redirect_flags (along : PathFlags path) (moved : redirect ikey x path = some path') :
    PathFlags path' ∧ path'.isEmpty = path.isEmpty := by
  induction path generalizing path' with
  | nil => cases moved
  | cons f path ih =>
    obtain ⟨plain, idle, above⟩ := along
    rw [redirect] at moved
    dsimp only at moved
    split at moved
    · cases moved
    · have set : (if 0 < f.p.upper ikey then f.p.setIkey (f.p.upper ikey - 1) x else f.p).Plain ∧
          (if 0 < f.p.upper ikey then f.p.setIkey (f.p.upper ikey - 1) x else f.p).version = f.p.version := by
        split
        · exact ⟨plain.setIkey _ _, rfl⟩
        · exact ⟨plain, rfl⟩
      generalize (if 0 < f.p.upper ikey then f.p.setIkey (f.p.upper ikey - 1) x else f.p) = q at set moved
      split at moved
      · obtain ⟨rest, moved', rfl⟩ := Option.map_eq_some_iff.mp moved
        obtain ⟨along', same⟩ := ih above moved'
        refine ⟨⟨set.1, ?_, along'⟩, rfl⟩
        rw [same, set.2]
        exact idle
      · obtain rfl := Option.some.inj moved
        refine ⟨⟨set.1, ?_, above⟩, rfl⟩
        rw [set.2]
        exact idle

theorem version_replaceChild (p : Internode (Node (Leaf V))) (kp : Nat) (r : Option (Node (Leaf V))) :
    (p.replaceChild kp r).version = p.version := by
  cases r with
  | some n => exact Internode.version_setChild ..
  | none =>
    unfold Internode.replaceChild
    dsimp only
    split <;> rfl

theorem removeNode_flags {r : Option (Node (Leaf V))} {root' : Node (Leaf V)} (along : PathFlags path)
    (flags : ∀ n, r = some n → n.Flags false) (removed : removeNode ikey r path = some root') : root'.Flags true := by
  induction path generalizing r with
  | nil => cases removed
  | cons f path ih =>
    obtain ⟨plain, idle, above⟩ := along
    rw [removeNode] at removed
    dsimp only at removed
    split at removed
    · cases removed
    · have plain' : (f.p.replaceChild (f.p.upper ikey) r).lock.markInsert.unlock.Plain := plain.replaceChild flags _
      have idle' : Idle path.isEmpty (f.p.replaceChild (f.p.upper ikey) r).lock.markInsert.unlock.version := by
        apply idle_touch
        rwa [version_replaceChild]
      generalize (f.p.replaceChild (f.p.upper ikey) r).lock.markInsert.unlock = q at plain' idle' removed
      split at removed
      · obtain ⟨path', moved, rfl⟩ := Option.map_eq_some_iff.mp removed
        obtain ⟨along', same⟩ := redirect_flags above moved
        exact plug_flags along' (flags_internode.mpr ⟨same ▸ idle', plain'⟩)
      · split at removed
        · obtain rfl := Option.some.inj removed
          exact plug_flags above (flags_internode.mpr ⟨idle', plain'⟩)
        · exact ih above plain'.1 removed

theorem makeLayerRoot_flags (flags : n.Flags root) : n.makeLayerRoot.Flags true := by
  cases flags with
  | leaf idle => exact .leaf idle.lock.markRoot.unlock
  | internode idle first rest => exact .internode idle.lock.markRoot.unlock first rest

theorem collapse_flags (flags : n.Flags true) (collapsed : collapse fuel n = some n') : n'.Flags true := by
  induction fuel generalizing n with
  | zero =>
    cases n with
    | leaf l =>
      cases collapsed
      exact flags
    | internode p => cases collapsed
  | succ fuel ih =>
    cases n with
    | leaf l =>
      cases collapsed
      exact flags
    | internode p =>
      rw [collapse] at collapsed
      split at collapsed
      · cases collapsed
        exact flags
      · obtain ⟨m, first, collapsed⟩ := Option.bind_eq_some_iff.mp collapsed
        exact ih (makeLayerRoot_flags ((flags_internode.mp flags).2.1 m first)) collapsed

/-- Below the root no node has the flag, and the root has it. -/
theorem Node.Flags.flagsRoot {top_ : Node (Leaf V)} (flags : top_.Flags true) : top_.FlagsRoot := by
  intro n path within
  have here : n.Flags path.isEmpty ∧ climb n path = some top_ := by
    induction within with
    | root =>
      have flag : top_.isRoot = true := flags.idle.flag
      exact ⟨flags, if_pos flag⟩
    | @child p path kp n _ at_ ih =>
      have plain := (flags_internode.mp ih.1).2.of_child at_
      refine ⟨plain, ?_⟩
      rw [climb, if_neg (by rw [Node.isRoot, plain.idle.flag]; decide)]
      exact ih.2
  refine ⟨?_, here.2⟩
  rw [Node.isRoot, here.1.idle.flag, List.isEmpty_iff]

end Trees

/-! ### Cursors -/

namespace Tcursor

variable {l : Leaf V} {c : Tcursor V} {ka : Key} {prev next root : Bool} {state : Int}

theorem findInsert_alive (found : findInsert l prev next ka = some c) : l.deleted = false ∧ l.deletedLayer = false := by
  obtain ⟨c₀, locked, -⟩ := Option.bind_eq_some_iff.mp found
  exact findLocked_alive locked

/-- Unless it removes, `finish` only unlocks the cursor's leaf. -/
theorem finish_version (inside : c.n < c.nodes.length) (prev : Bool) (nonneg : 0 ≤ state) (value : Option V) :
    ∃ m, ((c.store value).finish prev state).nodes = c.nodes.set c.n m ∧ m.version = c.node.version.unlock := by
  have version : ∀ c' : Tcursor V, (c'.finished prev state).version = c'.node.version := by
    intro c'
    unfold finished
    rw [if_neg (fun removes => absurd removes.1 (Int.not_lt.mpr nonneg))]
    split <;> rfl
  cases value with
  | none =>
    refine ⟨_, (nodes_finish inside prev state).1, ?_⟩
    show (c.finished prev state).version.unlock = _
    rw [version]
  | some v =>
    have inside' : (c.store (some v)).n < (c.store (some v)).nodes.length := by
      show c.n < (c.nodes.set _ _).length
      rwa [List.length_set]
    refine ⟨_, (nodes_finish inside' prev state).1.trans (List.set_set ..), ?_⟩
    show ((c.store (some v)).finished prev state).version.unlock = _
    have node : (c.store (some v)).node = c.node.setValue (c.kxp.getD 0) v := node_setNode inside _
    rw [version, node]
    rfl

theorem node_at {i : Nat} {m : Leaf V} (at_ : c.nodes[i]? = some m) (n : c.n = i) : c.node = m := by
  rw [node, List.getD_eq_getElem?_getD, n, at_]
  rfl

theorem held_startInsert (idle : Idle root l.version) : Held root l.lock.startInsert.version := by
  unfold Leaf.startInsert
  split
  · exact idle.lock.markInsert
  · exact idle.lock

theorem twig_version {fuel : Nat} {oka ka : Key} {twig : List (Leaf V)} {rest : Key × Key}
    (made : makeTwig fuel oka ka = some (twig, rest)) : ∀ m ∈ twig, m.version = (Leaf.makeRoot : Leaf V).version := by
  induction fuel generalizing oka ka twig with
  | zero => cases made
  | succ fuel ih =>
    rw [makeTwig] at made
    split at made
    · obtain ⟨⟨twig', rest'⟩, made', same⟩ := Option.map_eq_some_iff.mp made
      cases same
      intro m mem
      rcases List.mem_cons.mp mem with rfl | mem
      · rfl
      · exact ih made' m mem
    · cases made
      intro m mem
      cases mem

theorem idle_makeRoot : Idle true (Leaf.makeRoot : Leaf V).version := by
  show Idle true Nodeversion.isleafBit.markRoot
  exact ⟨by decide, by decide, by decide⟩

/-- What an insertion leaves of the flag: only a split puts the leaf's flag on another leaf. -/
theorem insert_flags (idle : Idle root l.version) (found : findInsert l prev next ka = some c) (value : Option V)
    (nonneg : 0 ≤ state) :
    (∃ m, ((c.store value).finish prev state).nodes = [m] ∧ Idle root m.version) ∨
      ((l.lower ka).2.isSome ∧ ∃ m m' twig, ((c.store value).finish prev state).nodes = m :: m' :: twig ∧ Idle root m.version ∧
        ∀ m'' ∈ m' :: twig, Idle true m''.version) ∨
      ((l.lower ka).2 = none ∧ (prev = true ∨ width ≤ l.size) ∧ ∃ m m', ((c.store value).finish prev state).nodes = [m, m'] ∧
        Idle false m.version ∧ Idle root m'.version) := by
  obtain ⟨alive, live⟩ := findInsert_alive found
  have single : ∀ {m : Leaf V}, c.nodes = [m] → c.n = 0 → Held root m.version →
      ∃ m, ((c.store value).finish prev state).nodes = [m] ∧ Idle root m.version := by
    intro m nodes n held
    obtain ⟨m', nodes', version⟩ := finish_version (c := c) (by rw [nodes, n]; exact Nat.one_pos) prev nonneg value
    rw [nodes, n] at nodes'
    refine ⟨m', nodes', ?_⟩
    rw [version, node_at (by rw [nodes]; rfl) n]
    exact held.unlock
  cases search : (l.lower ka).2 with
  | some p =>
    cases matches_ : (l.slot p).ksufMatches ka with
    | yes =>
      rw [findInsert_yes alive live search matches_] at found
      obtain rfl := Option.some.inj found
      exact .inl (single rfl rfl idle.lock)
    | layer =>
      obtain ⟨c₀, locked, -⟩ := Option.bind_eq_some_iff.mp found
      rw [findLocked_some alive live search, matches_] at locked
      cases locked
    | no =>
      rw [findInsert_no alive live search matches_] at found
      obtain ⟨⟨twig, oka, ka'⟩, made, same⟩ := Option.map_eq_some_iff.mp found
      right
      left
      have nodes : c.nodes = ((absent l ka).node.setLayer p).unlock ::
        (twig ++ [(Leaf.ofTwo oka ka' ((absent l ka).node.slot p).lv).lock]) := by
        rw [← same]
        rfl
      have n : c.n = twig.length + 1 := by rw [← same]
      have last : c.nodes[twig.length + 1]? = some (Leaf.ofTwo oka ka' ((absent l ka).node.slot p).lv).lock := by
        rw [nodes, List.getElem?_cons_succ, List.getElem?_concat_length]
      obtain ⟨m, nodes', version⟩ := finish_version (c := c) (by rw [nodes, n]; simp) prev nonneg value
      rw [nodes, n, List.set_cons_succ, List.set_append_right _ _ (Nat.le_refl _), Nat.sub_self, List.set_cons_zero] at nodes'
      have version' : Idle true m.version := by
        rw [version, node_at last n]
        have two : (Leaf.ofTwo oka ka' ((absent l ka).node.slot p).lv).version = (Leaf.makeRoot : Leaf V).version := by
          unfold Leaf.ofTwo
          dsimp only
          split <;> rfl
        show Idle true (Leaf.ofTwo oka ka' ((absent l ka).node.slot p).lv).version.lock.unlock
        rw [two]
        exact idle_makeRoot.lock.unlock
      have all : ∀ m'' ∈ twig ++ [m], Idle true m''.version := by
        intro m'' mem
        rcases List.mem_append.mp mem with mem | mem
        · rw [twig_version made m'' mem]
          exact idle_makeRoot
        · rwa [List.mem_singleton.mp mem]
      refine ⟨rfl, ((absent l ka).node.setLayer p).unlock, ?_⟩
      obtain ⟨m', rest, cons⟩ := List.exists_cons_of_ne_nil (List.append_ne_nil_of_right_ne_nil twig (List.cons_ne_nil m []))
      rw [cons] at nodes' all
      exact ⟨m', rest, nodes', idle.lock.markInsert.unlock, all⟩
  | none =>
    rw [findInsert_none alive live search] at found
    have held := held_startInsert idle
    have size : l.lock.startInsert.size = l.size := by
      unfold Leaf.startInsert
      split <;> rfl
    split at found
    · obtain rfl := Option.some.inj found
      exact .inl (single rfl rfl held)
    · rename_i crowded
      unfold makeSplit at found
      dsimp only at found
      split at found
      · obtain rfl := Option.some.inj found
        exact .inl (single rfl rfl held)
      · right
        right
        obtain ⟨s, split_, same⟩ := Option.map_eq_some_iff.mp found
        have why : prev = true ∨ width ≤ l.size := by
          by_contra neither
          rw [not_or, Bool.not_eq_true] at neither
          exact crowded ⟨by rw [size]; exact Nat.lt_of_not_le neither.2, .inr (.inl (by rw [neither.1]; decide))⟩
        have right : s.right.version = l.lock.startInsert.version := by
          obtain ⟨mid, -, rfl⟩ := Option.map_eq_some_iff.mp split_
          rfl
        refine ⟨rfl, why, ?_⟩
        split at same
        · obtain ⟨m, nodes', version⟩ := finish_version (c := c) (by rw [← same]; exact Nat.succ_pos _) prev nonneg value
          rw [← same] at nodes' version
          refine ⟨m, s.right.unlock, by rw [← same]; exact nodes', ?_, ?_⟩
          · rw [version]
            exact held.unlock_split
          · show Idle root s.right.version.unlock
            rw [right]
            exact held.unlock
        · obtain ⟨m, nodes', version⟩ := finish_version (c := c) (by rw [← same]; exact Nat.lt_succ_self 1) prev nonneg value
          rw [← same] at nodes' version
          refine ⟨_, m, by rw [← same]; exact nodes', held.unlock_split, ?_⟩
          rw [version]
          show Idle root s.right.version.unlock
          rw [right]
          exact held.unlock

/-- A full leaf without the key splits in two. -/
theorem split_nodes (search : (l.lower ka).2 = none) (full : width ≤ l.size) (found : findInsert l prev next ka = some c) :
    c.nodes.length = 2 ∧ c.n < 2 := by
  obtain ⟨alive, live⟩ := findInsert_alive found
  have size : l.lock.startInsert.size = l.size := by
    unfold Leaf.startInsert
    split <;> rfl
  have crowded : ¬l.lock.startInsert.size < width := by rw [size]; exact Nat.not_lt.mpr full
  rw [findInsert_none alive live search, if_neg fun room => crowded room.1] at found
  unfold makeSplit at found
  dsimp only at found
  rw [if_neg fun room => crowded room.1] at found
  obtain ⟨s, -, same⟩ := Option.map_eq_some_iff.mp found
  split at same
  · rw [← same]
    exact ⟨rfl, Nat.zero_lt_two⟩
  · rw [← same]
    exact ⟨rfl, Nat.one_lt_two⟩

/-- A remove keeps the flag of the leaf, unless the leaf goes. -/
theorem finishRemove_flags (held : Held root l.version) (kxi : Nat) : Held root (l.finishRemove kxi).version := by
  unfold Leaf.finishRemove
  split
  · exact held.markInsert
  · exact held

theorem remove_flags (idle : Idle root l.version) (found : findLocked l ka = some c) (one : c.state = 1) (prev : Bool) :
    ((c.finish prev (-1)).leaf 0).size = 0 ∧ prev = true ∨ Idle root ((c.finish prev (-1)).leaf 0).version := by
  obtain ⟨-, state, rfl, -⟩ := findLocked_cases found
  have removes : (-1 : Int) < 0 ∧ state = 1 := ⟨by decide, one⟩
  have leaf := node_finish (c := ⟨[l.lock], 0, ka, (l.lower ka).1, (l.lower ka).2, state, 0, 0, []⟩) Nat.one_pos prev (-1)
  have at_ := (nodes_finish (c := ⟨[l.lock], 0, ka, (l.lower ka).1, (l.lower ka).2, state, 0, 0, []⟩) Nat.one_pos prev (-1)).1
  have held := finishRemove_flags (l := l.lock) idle.lock (l.lower ka).1
  rw [Tcursor.leaf, at_]
  show (Leaf.unlock (finished _ prev (-1))).size = 0 ∧ prev = true ∨ Idle root (Leaf.unlock (finished _ prev (-1))).version
  unfold finished
  rw [if_pos removes]
  show Leaf.size (Leaf.unlock (if (l.lock.finishRemove (l.lower ka).1).size = 0 ∧ prev = true then _ else _)) = 0 ∧ prev = true ∨ _
  by_cases goes : (l.lock.finishRemove (l.lower ka).1).size = 0 ∧ prev = true
  · exact .inl ⟨by rw [if_pos goes]; exact goes.1, goes.2⟩
  · right
    show Idle root (Leaf.unlock (if (l.lock.finishRemove (l.lower ka).1).size = 0 ∧ prev = true then _ else _)).version
    rw [if_neg goes]
    exact held.unlock

theorem unfinished_version (found : findLocked l ka = some c) (prev : Bool) :
    ((c.finish prev 0).leaf 0).version = l.version.lock.unlock := by
  obtain ⟨-, state, rfl, -⟩ := findLocked_cases found
  obtain ⟨nodes, -⟩ := nodes_finish (c := ⟨[l.lock], 0, ka, (l.lower ka).1, (l.lower ka).2, state, 0, 0, []⟩) Nat.one_pos prev 0
  rw [leaf, nodes]
  show (Leaf.unlock (finished _ prev 0)).version = _
  unfold finished
  rw [if_neg (fun removes => absurd removes.1 (Int.lt_irrefl 0)), if_neg (fun adds => absurd adds.1 (Int.lt_irrefl 0))]
  rfl

theorem removeLayer_held (held : Held root c.node.version) (prev : Bool) :
    (c.removeLayer prev).size = 0 ∧ prev = true ∨ Idle root (c.removeLayer prev).version := by
  unfold removeLayer
  dsimp only
  by_cases goes : (c.node.finishRemove c.kxi).size = 0 ∧ prev = true
  · exact .inl ⟨by rw [if_pos goes]; exact goes.1, goes.2⟩
  · right
    rw [if_neg goes]
    exact (finishRemove_flags held c.kxi).unlock

theorem removeLayer_flags (idle : Idle root l.version) (found : gcLayer l ka = some c) (prev : Bool) :
    (c.removeLayer prev).size = 0 ∧ prev = true ∨ Idle root (c.removeLayer prev).version := by
  obtain ⟨c₀, locked, found⟩ := Option.bind_eq_some_iff.mp found
  obtain ⟨-, state, rfl, -⟩ := findLocked_cases locked
  dsimp only at found
  generalize (if (l.lower ka).2.isSome = true then (l.lower ka).1 + 1 else (l.lower ka).1) = kxi at found
  split at found
  · cases found
  · obtain rfl := Option.some.inj found
    exact removeLayer_held idle.lock prev

end Tcursor

/-! ### Tables -/

namespace Table

/-- The key belongs in a full leaf without a parent. -/
def SplitsRoot (t : Table V) (key : Bytes) : Prop :=
  ∃ p, t.locate key = some p ∧ p.path = [] ∧ (p.n.lower p.ka).2 = none ∧ width ≤ p.n.size

instance (t : Table V) (key : Bytes) : Decidable (t.SplitsRoot key) :=
  decidable_of_iff ((t.locate key).any fun p => p.path.isEmpty && (p.n.lower p.ka).2.isNone && decide (width ≤ p.n.size)) (by
    simp [SplitsRoot, Option.any_eq_true, and_assoc])

/-- In every layer the flag marks the root. -/
def FlagsRight (t : Table V) : Prop := ∀ at_ root, t.layers at_ = some root → root.FlagsRoot

def Rooted (t : Table V) : Prop := ∀ at_ root, t.layers at_ = some root → root.Flags true

variable {t t' : Table V} {p : Place V} {key : Bytes} {l : Leaf V}

theorem Rooted.flagsRight (rooted : t.Rooted) : t.FlagsRight := fun at_ root layer => (rooted at_ root layer).flagsRoot

theorem Rooted.setLayer (rooted : t.Rooted) (at_ : Bytes) {root : Node (Leaf V)} (flags : root.Flags true) :
    (t.setLayer at_ root).Rooted := by
  intro at' root' layer
  change Function.update t.layers at_ (some root) at' = some root' at layer
  by_cases same : at' = at_
  · subst same
    rw [Function.update_self] at layer
    rwa [← Option.some.inj layer]
  · rw [Function.update_of_ne same] at layer
    exact rooted at' root' layer

theorem Rooted.place (rooted : t.Rooted) (found : t.locate key = some p) : PathFlags p.path ∧ Idle p.path.isEmpty p.n.version := by
  obtain ⟨root, layer, reached, -⟩ := Layers.locate_at found
  exact reachLeaf_flags (show root.Flags (List.isEmpty ([] : List (Frame (Leaf V)))) from rooted _ _ layer) trivial reached

theorem Rooted.setLeaf (rooted : t.Rooted) (along : PathFlags p.path) (idle : Idle p.path.isEmpty l.version) :
    (t.setLeaf p l).Rooted := rooted.setLayer _ (plug_flags along (.leaf idle))

theorem hang_mem {layers : Layers V} {ka : Key} {twig : List (Leaf V)} {at_ : Bytes} {root : Node (Leaf V)}
    (layer : layers.hang ka twig at_ = some root) : layers at_ = some root ∨ ∃ l ∈ twig, root = .leaf l := by
  induction twig generalizing layers ka with
  | nil => exact .inl layer
  | cons l twig ih =>
    rcases ih layer with here | ⟨l', mem, rfl⟩
    · by_cases same : at_ = ka.shift.prefixString
      · subst same
        rw [Function.update_self] at here
        exact .inr ⟨l, List.mem_cons_self, (Option.some.inj here).symm⟩
      · rw [Function.update_of_ne same] at here
        exact .inl here
    · exact .inr ⟨l', List.mem_cons_of_mem _ mem, rfl⟩

theorem settle_rooted (rooted : t.Rooted) (along : PathFlags p.path)
    (which : l.size = 0 ∧ p.prev = true ∨ Idle p.path.isEmpty l.version) (settled : t.settle p l = some t') : t'.Rooted := by
  unfold settle at settled
  split at settled
  · rename_i some_
    obtain rfl := Option.some.inj settled
    exact rooted.setLeaf along (which.resolve_left fun gone => some_ gone.1)
  · split at settled
    · obtain ⟨root, removed, rfl⟩ := Option.map_eq_some_iff.mp settled
      refine rooted.setLayer _ (removeNode_flags along ?_ removed)
      intro n none_
      cases none_
    · rename_i first
      obtain rfl := Option.some.inj settled
      exact rooted.setLeaf along (which.resolve_left fun gone => first gone.2)

theorem insert_rooted (rooted : t.Rooted) (stays : ¬t.SplitsRoot key) {value : Option V}
    (inserted : t.insert key value = some t') : t'.Rooted := by
  obtain ⟨p, found, inserted⟩ := Option.bind_eq_some_iff.mp inserted
  obtain ⟨c, searched, rfl⟩ := Option.map_eq_some_iff.mp inserted
  obtain ⟨along, idle⟩ := rooted.place found
  have arrived : (t.arrive p).Rooted := rooted
  have nonneg : (0 : Int) ≤ if value.isSome then 1 else 0 := by split <;> decide
  rcases Tcursor.insert_flags idle searched value nonneg with ⟨m, nodes, flag⟩ | ⟨layer, m, m', twig, nodes, flag, flags⟩ |
      ⟨none_, why, m, m', nodes, flag, flag'⟩
  · rw [nodes]
    exact arrived.setLeaf along flag
  · rw [nodes, put, if_pos layer]
    intro at_ root at_layer
    rcases hang_mem at_layer with before | ⟨l, mem, rfl⟩
    · exact arrived.setLeaf along flag at_ root before
    · exact .leaf (flags l mem)
  · have inner : p.path ≠ [] := by
      intro empty
      refine stays ⟨p, found, empty, none_, why.resolve_left ?_⟩
      rw [Place.prev, empty]
      exact Bool.false_ne_true
    have notRoot : p.path.isEmpty = false := List.isEmpty_eq_false_iff.mpr inner
    rw [notRoot] at flag'
    rw [nodes, put, if_neg (by rw [none_]; decide)]
    exact arrived.setLayer _ (insertSplit_flags along (.leaf flag) (.leaf flag'))

theorem remove_rooted (rooted : t.Rooted) (removed : t.remove key = some t') : t'.Rooted := by
  obtain ⟨p, found, removed⟩ := Option.bind_eq_some_iff.mp removed
  obtain ⟨c, searched, removed⟩ := Option.bind_eq_some_iff.mp removed
  obtain ⟨along, idle⟩ := rooted.place found
  have arrived : (t.arrive p).Rooted := rooted
  split at removed
  · rename_i one
    exact settle_rooted arrived along (Tcursor.remove_flags idle searched one p.prev) removed
  · obtain rfl := Option.some.inj removed
    refine arrived.setLeaf along ?_
    rw [Tcursor.unfinished_version searched]
    exact idle.lock.unlock

theorem gcLayer_rooted (rooted : t.Rooted) {at_ : Bytes} (collected : t.gcLayer at_ = some t') : t'.Rooted := by
  obtain ⟨p, found, collected⟩ := Option.bind_eq_some_iff.mp collected
  obtain ⟨along, idle⟩ := rooted.place found
  have arrived : (t.arrive p).Rooted := rooted
  dsimp only at collected
  split at collected
  · obtain rfl := Option.some.inj collected
    exact arrived
  · rename_i c searched
    obtain ⟨root, layer, collected⟩ := Option.bind_eq_some_iff.mp collected
    obtain ⟨root', collapsed, collected⟩ := Option.bind_eq_some_iff.mp collected
    have flags := collapse_flags (rooted _ _ layer) collapsed
    have here : ({ t.arrive p with behind := Function.update (t.arrive p).behind p.ka.fullString 0 } : Table V).Rooted := rooted
    split at collected
    · split at collected
      · refine settle_rooted ?_ along (Tcursor.removeLayer_flags idle searched p.prev) collected
        intro at' root'' layer'
        change Function.update t.layers p.ka.fullString none at' = some root'' at layer'
        by_cases same : at' = p.ka.fullString
        · subst same
          rw [Function.update_self] at layer'
          cases layer'
        · rw [Function.update_of_ne same] at layer'
          exact rooted at' root'' layer'
      · obtain rfl := Option.some.inj collected
        exact here.setLayer _ flags
    · obtain rfl := Option.some.inj collected
      exact here.setLayer _ flags

/-- The right half of a root leaf has the flag as well as the new root. -/
theorem insert_stray (rooted : t.Rooted) (splits : t.SplitsRoot key) {value : Option V}
    (inserted : t.insert key value = some t') : ¬t'.FlagsRight := by
  obtain ⟨p, found, inserted⟩ := Option.bind_eq_some_iff.mp inserted
  obtain ⟨c, searched, rfl⟩ := Option.map_eq_some_iff.mp inserted
  obtain ⟨p', found', empty, none_, full⟩ := splits
  obtain rfl := Option.some.inj (found.symm.trans found')
  obtain ⟨-, idle⟩ := rooted.place found
  rw [empty] at idle
  have nonneg : (0 : Int) ≤ if value.isSome then 1 else 0 := by split <;> decide
  obtain ⟨two, inside⟩ := Tcursor.split_nodes none_ full searched
  obtain ⟨m₀, nodes₀, -⟩ := Tcursor.finish_version (two.symm ▸ inside) p.prev nonneg value
  have length := congrArg List.length nodes₀
  rw [List.length_set, two] at length
  rcases Tcursor.insert_flags idle searched value nonneg with ⟨m, nodes, -⟩ | ⟨layer, -⟩ | ⟨-, -, m, m', nodes, flag, flag'⟩
  · rw [nodes] at length
    cases length
  · rw [none_] at layer
    cases layer
  · rw [nodes, put, if_neg (by rw [none_]; decide)]
    intro right
    have layer : ((t.arrive p).setSplit p c.splitType m m').layers p.ka.prefixString =
        some (.internode ⟨.markRoot 0, 1, some (.leaf m), [(m'.ikeyBound, .leaf m')]⟩) := by
      show Function.update t.layers p.ka.prefixString (some (insertSplit _ _ _ _ _ p.path)) p.ka.prefixString = _
      rw [Function.update_self, empty]
      rfl
    have within : Node.Within (.internode ⟨.markRoot 0, 1, some (.leaf m), [(m'.ikeyBound, .leaf m')]⟩) (.leaf m')
        [⟨⟨.markRoot 0, 1, some (.leaf m), [(m'.ikeyBound, .leaf m')]⟩, 1⟩] := .child .root rfl
    have flagged : (Node.leaf m').isRoot = true := flag'.flag
    have top := (right _ _ layer _ _ within).1.mp flagged
    cases top

/-! ### Runs -/

/-- The step does not insert a key into a full leaf without a parent. -/
def KeepsRoot (t : Table V) (op : Op V) : Prop := ∀ key, op.inserted = some key → ¬t.SplitsRoot key

instance (t : Table V) (op : Op V) : Decidable (t.KeepsRoot op) :=
  decidable_of_iff (op.inserted.all fun key => ¬t.SplitsRoot key) (by simp [KeepsRoot, Option.all_eq_true])

theorem start_rooted : (start : Table V).Rooted := by
  intro at_ root layer
  change (if at_ = [] then some (Node.leaf Leaf.makeRoot) else none) = some root at layer
  split at layer
  · obtain rfl := Option.some.inj layer
    exact .leaf Tcursor.idle_makeRoot
  · cases layer

theorem step_rooted (rooted : t.Rooted) {op : Op V} (keeps : t.KeepsRoot op) (stepped : t.step op = some t') : t'.Rooted := by
  cases op with
  | insert key value => exact insert_rooted rooted (keeps key rfl) stepped
  | cancel key => exact insert_rooted rooted (keeps key rfl) stepped
  | remove key => exact remove_rooted rooted stepped
  | collect i =>
    obtain ⟨at_, -, collected⟩ := Option.bind_eq_some_iff.mp stepped
    exact gcLayer_rooted (t := { t with callbacks := t.callbacks.eraseIdx i }) rooted collected

theorem step_stray (rooted : t.Rooted) {op : Op V} (splits : ¬t.KeepsRoot op) (stepped : t.step op = some t') :
    ¬t'.FlagsRight := by
  obtain ⟨key, inserted, splits⟩ : ∃ key, op.inserted = some key ∧ t.SplitsRoot key := by
    simpa only [KeepsRoot, not_forall, not_not, exists_prop] using splits
  cases op with
  | insert key' value =>
    obtain rfl := Option.some.inj inserted
    exact insert_stray rooted splits stepped
  | cancel key' =>
    obtain rfl := Option.some.inj inserted
    exact insert_stray rooted splits stepped
  | remove key' => cases inserted
  | collect i => cases inserted

/-- Every table of the run, the first one included, meets the condition. -/
def Throughout (condition : Table V → Prop) (t : Table V) (ops : List (Op V)) : Prop :=
  ∀ done todo, ops = done ++ todo → ∀ t', Steps.run step t done = some t' → condition t'

theorem throughout_nil {condition : Table V → Prop} : Throughout condition t [] ↔ condition t := by
  constructor
  · intro all
    exact all [] [] rfl t rfl
  · intro here done todo parts t' ran
    obtain ⟨rfl, -⟩ := List.nil_eq_append_iff.mp parts
    obtain rfl := Option.some.inj ran
    exact here

theorem throughout_cons {condition : Table V → Prop} {op : Op V} {ops : List (Op V)} (stepped : t.step op = some t') :
    Throughout condition t (op :: ops) ↔ condition t ∧ Throughout condition t' ops := by
  constructor
  · intro all
    refine ⟨all [] _ rfl t rfl, ?_⟩
    intro done todo parts t'' ran
    refine all (op :: done) todo ?_ t'' ?_
    · rw [parts, List.cons_append]
    · rwa [Steps.run_cons stepped]
  · rintro ⟨here, after⟩ done todo parts t'' ran
    cases done with
    | nil =>
      obtain rfl := Option.some.inj ran
      exact here
    | cons op' done =>
      rw [List.cons_append, List.cons.injEq] at parts
      obtain ⟨rfl, rest⟩ := parts
      rw [Steps.run_cons stepped] at ran
      exact after done todo rest t'' ran

theorem flags_iff (rooted : t.Rooted) {ops : List (Op V)} (ran : Steps.run step t ops = some t') :
    Throughout FlagsRight t ops ↔ Steps.Each step KeepsRoot t ops := by
  induction ops generalizing t with
  | nil => exact throughout_nil.trans (iff_true_intro rooted.flagsRight)
  | cons op ops ih =>
    obtain ⟨next, stepped, ran⟩ := Option.bind_eq_some_iff.mp ran
    rw [throughout_cons stepped, Steps.each_cons stepped]
    by_cases keeps : t.KeepsRoot op
    · rw [ih (step_rooted rooted keeps stepped) ran, and_iff_right keeps]
      exact and_iff_right rooted.flagsRight
    · constructor
      · rintro ⟨-, all⟩
        exact absurd (all [] ops rfl next rfl) (step_stray rooted keeps stepped)
      · rintro ⟨keeps', -⟩
        exact absurd keeps' keeps

/-- From an empty table on, the flags are right until a full leaf without a parent splits. -/
theorem root_flags_iff {ops : List (Op V)} (ran : Steps.run step start ops = some t) :
    Throughout FlagsRight start ops ↔ Steps.Each step KeepsRoot start ops := flags_iff start_rooted ran

/-- A key in the top layer, and two keys each in a layer and in the one below it. -/
def layered : List (Op Nat) :=
  let a : Bytes := [1, 2, 3, 4, 5, 6, 7, 8]
  let b : Bytes := [9, 10, 11, 12, 13, 14, 15, 16]
  [.insert [0] 1, .insert (a ++ [1]) 2, .insert (a ++ [2]) 3, .insert (a ++ b ++ [1]) 4, .insert (a ++ b ++ [2]) 5,
    .remove (a ++ b ++ [1]), .remove (a ++ [1]), .remove (a ++ b ++ [2]), .collect 0]

/-- Two keys are removed with their layer, which is collected. -/
theorem root_flags_iff_layered : ∃ t, Steps.run step (start : Table Nat) layered = some t ∧ t.callbacks = [] ∧
    (t.layers [1, 2, 3, 4, 5, 6, 7, 8]).isSome ∧ Throughout FlagsRight start layered := by
  have runs : (Steps.run step (start : Table Nat) layered).map (fun t => (t.callbacks, (t.layers [1, 2, 3, 4, 5, 6, 7, 8]).isSome)) =
      some ([], true) ∧ Steps.Each step KeepsRoot (start : Table Nat) layered := by decide +kernel
  obtain ⟨t, ran, after⟩ := Option.map_eq_some_iff.mp runs.1
  obtain ⟨none_, layer⟩ := Prod.mk.inj after
  exact ⟨t, ran, none_, layer, (root_flags_iff ran).mpr runs.2⟩

/-- Sixteen keys split the leaf of an empty table. -/
theorem root_flags_stray : ∃ ops t, Steps.run step (start : Table Nat) ops = some t ∧ ¬t.FlagsRight := by
  let ops : List (Op Nat) := (List.range 16).map fun k => .insert [UInt8.ofNat k] 1
  have right : ((Steps.run step start ops).bind fun t => (t.layers []).bind fun
      | .internode p => (p.child 1).map Node.isRoot
      | .leaf _ => none) = some true := by decide
  obtain ⟨t, ran, right⟩ := Option.bind_eq_some_iff.mp right
  obtain ⟨root, layer, right⟩ := Option.bind_eq_some_iff.mp right
  cases root with
  | leaf l => cases right
  | internode p =>
    obtain ⟨n, at_, flagged⟩ := Option.map_eq_some_iff.mp right
    refine ⟨ops, t, ran, ?_⟩
    intro flags
    have top := (flags [] _ layer n [⟨p, 1⟩] (.child .root at_)).1.mp flagged
    cases top

end Table

end Masstree.Tree
