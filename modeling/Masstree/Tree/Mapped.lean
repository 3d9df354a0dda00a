import Masstree.Tree.Grow
import Masstree.Tree.Shrink

/-!
# Trees whose leaves hold something else

What becomes of the internodes of a layer does not depend on what its leaves hold.
-/

namespace Masstree.Tree

/-! ### Internodes -/

namespace Internode

variable {N M : Type}

def map (g : N → M) (p : Internode N) : Internode M :=
  ⟨p.version, p.height, p.first.map g, p.rest.map fun e => (e.1, g e.2)⟩

variable (g : N → M) (p : Internode N)

@[simp] theorem version_map : (p.map g).version = p.version := rfl
@[simp] theorem height_map : (p.map g).height = p.height := rfl
@[simp] theorem first_map : (p.map g).first = p.first.map g := rfl
@[simp] theorem lock_map : (p.map g).lock = p.lock.map g := rfl
@[simp] theorem unlock_map : (p.map g).unlock = p.unlock.map g := rfl
@[simp] theorem markInsert_map : (p.map g).markInsert = p.markInsert.map g := rfl
@[simp] theorem markSplit_map : (p.map g).markSplit = p.markSplit.map g := rfl
@[simp] theorem markNonroot_map : (p.map g).markNonroot = p.markNonroot.map g := rfl

@[simp] theorem size_map : (p.map g).size = p.size := by simp [size, map]

@[simp] theorem ikey_map (i : Nat) : (p.map g).ikey i = p.ikey i := by simp [ikey, map, Function.comp_def]

@[simp] theorem child_map (i : Nat) : (p.map g).child i = (p.child i).map g := by
  cases i with
  | zero => rfl
  | succ i => simp [child, map, Function.comp_def]

@[simp] theorem upper_map (ikey : Nat) : (p.map g).upper ikey = p.upper ikey := by simp [upper]

theorem map_modify {α β : Type} {e : α → β} {u : α → α} {w : β → β} (same : ∀ a, w (e a) = e (u a)) (l : List α) (i : Nat) :
    (l.map e).modify i w = (l.modify i u).map e := by
  induction l generalizing i with
  | nil => simp
  | cons a l ih =>
    cases i with
    | zero => simp [same]
    | succ i => simp [ih]

@[simp] theorem setChild_map (kp : Nat) (n : N) : (p.map g).setChild kp (g n) = (p.setChild kp n).map g := by
  cases kp with
  | zero => rfl
  | succ i =>
    exact congrArg (Internode.mk _ _ _) (map_modify (e := fun e : Nat × N => (e.1, g e.2)) (u := fun e => (e.1, n))
      (fun _ => rfl) p.rest i)

@[simp] theorem setIkey_map (i ikey : Nat) : (p.map g).setIkey i ikey = (p.setIkey i ikey).map g :=
  congrArg (Internode.mk _ _ _) (map_modify (e := fun e : Nat × N => (e.1, g e.2)) (u := fun e => (ikey, e.2)) (fun _ => rfl) p.rest i)

@[simp] theorem insert_map (kp ikey : Nat) (n : N) : (p.map g).insert kp ikey (g n) = (p.insert kp ikey n).map g := by
  simp [insert, map, List.map_insertIdx]

@[simp] theorem remove_map (kp : Nat) : (p.map g).remove kp = (p.remove kp).map g := by
  simp [remove, map, List.eraseIdx_map]

theorem replaceChild_map (kp : Nat) (replacement : Option N) :
    (p.map g).replaceChild kp (replacement.map g) = (p.replaceChild kp replacement).map g := by
  cases replacement with
  | some n => exact setChild_map g p kp n
  | none =>
    unfold replaceChild
    dsimp only [Option.map_none]
    split
    · exact remove_map g p kp
    · rfl

theorem splitInto_map (height kp ka : Nat) (n : N) (splitType : Nat) : (p.map g).splitInto height kp ka (g n) splitType =
    ((p.splitInto height kp ka n splitType).1.map g, (p.splitInto height kp ka n splitType).2.1,
      (p.splitInto height kp ka n splitType).2.2.map g) := by
  unfold splitInto
  dsimp only
  generalize (if splitType = 2 then width else (width + 1) / 2) = mid
  rw [ikey_map, ikey_map, child_map, child_map]
  split_ifs <;> simp [map, List.map_insertIdx, List.map_take, List.map_drop]

end Internode

/-! ### Trees -/

variable {L K : Type}

mutual

def Node.map (f : L → K) : Node L → Node K
  | .leaf l => .leaf (f l)
  | .internode ⟨v, h, first, rest⟩ => .internode ⟨v, h, mapFirst f first, mapRest f rest⟩

def mapFirst (f : L → K) : Option (Node L) → Option (Node K)
  | none => none
  | some n => some (n.map f)

def mapRest (f : L → K) : List (Nat × Node L) → List (Nat × Node K)
  | [] => []
  | (x, n) :: rest => (x, n.map f) :: mapRest f rest

end

def Frame.map (f : L → K) (frame : Frame L) : Frame K := ⟨frame.p.map (Node.map f), frame.kp⟩

variable (f : L → K) (n : Node L) (path : List (Frame L))

theorem mapFirst_eq (first : Option (Node L)) : mapFirst f first = first.map (Node.map f) := by
  cases first with
  | none => rw [mapFirst, Option.map_none]
  | some n => rw [mapFirst, Option.map_some]

theorem mapRest_eq (rest : List (Nat × Node L)) : mapRest f rest = rest.map fun e => (e.1, e.2.map f) := by
  induction rest with
  | nil => rw [mapRest, List.map_nil]
  | cons e rest ih => rw [mapRest, ih, List.map_cons]

@[simp] theorem map_leaf (l : L) : (Node.leaf l).map f = .leaf (f l) := by rw [Node.map]

@[simp] theorem map_internode (p : Internode (Node L)) : (Node.internode p).map f = .internode (p.map (Node.map f)) := by
  obtain ⟨v, h, first, rest⟩ := p
  rw [Node.map, mapFirst_eq, mapRest_eq]
  rfl

@[simp] theorem height_map : (n.map f).height = n.height := by
  cases n with
  | leaf l => rw [map_leaf]; rfl
  | internode p => rw [map_internode]; rfl

mutual

theorem leaves_map : ∀ n : Node L, (n.map f).leaves = n.leaves.map f
  | .leaf l => by
    rw [map_leaf, Node.leaves, Node.leaves]
    rfl
  | .internode ⟨v, h, first, rest⟩ => by
    rw [Node.map, Node.leaves, Node.leaves, firstLeaves_map first, restLeaves_map rest, List.map_append]

theorem firstLeaves_map : ∀ first : Option (Node L), firstLeaves (mapFirst f first) = (firstLeaves first).map f
  | none => by
    rw [mapFirst, firstLeaves, firstLeaves]
    rfl
  | some n => by rw [mapFirst, firstLeaves, firstLeaves, leaves_map n]

theorem restLeaves_map : ∀ rest : List (Nat × Node L), restLeaves (mapRest f rest) = (restLeaves rest).map f
  | [] => by
    rw [mapRest, restLeaves, restLeaves]
    rfl
  | (x, n) :: rest => by rw [mapRest, restLeaves, restLeaves, leaves_map n, restLeaves_map rest, List.map_append]

end

theorem frame_before_map (frame : Frame L) : (frame.map f).before = frame.before.map f := by
  obtain ⟨p, kp⟩ := frame
  cases kp with
  | zero => rfl
  | succ i =>
    have first := firstLeaves_map f p.first
    have rest := restLeaves_map f (p.rest.take i)
    rw [mapFirst_eq] at first
    rw [mapRest_eq, List.map_take] at rest
    show firstLeaves (p.first.map (Node.map f)) ++ restLeaves ((p.rest.map fun e => (e.1, e.2.map f)).take i) = _
    rw [first, rest, ← List.map_append]
    rfl

theorem frame_after_map (frame : Frame L) : (frame.map f).after = frame.after.map f := by
  have rest := restLeaves_map f (frame.p.rest.drop frame.kp)
  rw [mapRest_eq, List.map_drop] at rest
  exact rest

theorem before_map : before (path.map (Frame.map f)) = (before path).map f := by
  induction path with
  | nil => rfl
  | cons frame path ih => rw [List.map_cons, before, before, ih, frame_before_map, List.map_append]

theorem after_map : after (path.map (Frame.map f)) = (after path).map f := by
  induction path with
  | nil => rfl
  | cons frame path ih => rw [List.map_cons, after, after, ih, frame_after_map, List.map_append]

@[simp] theorem hasPrev_map : hasPrev (path.map (Frame.map f)) = hasPrev path := by
  unfold hasPrev
  rw [before_map, List.isEmpty_map]

@[simp] theorem hasNext_map : hasNext (path.map (Frame.map f)) = hasNext path := by
  unfold hasNext
  rw [after_map, List.isEmpty_map]

theorem reachLeaf_map (ikey fuel : Nat) : (n.map f).reachLeaf ikey fuel (path.map (Frame.map f)) =
    (n.reachLeaf ikey fuel path).map fun r => (f r.1, r.2.map (Frame.map f)) := by
  induction fuel generalizing n path with
  | zero =>
    cases n with
    | leaf l => rw [map_leaf]; rfl
    | internode p => rw [map_internode]; rfl
  | succ fuel ih =>
    cases n with
    | leaf l => rw [map_leaf]; rfl
    | internode p =>
      rw [map_internode, Node.reachLeaf, Node.reachLeaf, Internode.upper_map, Internode.child_map]
      cases p.child (p.upper ikey) with
      | none => rfl
      | some n => exact ih n (⟨p, p.upper ikey⟩ :: path)

theorem plug_map : plug (n.map f) (path.map (Frame.map f)) = (plug n path).map f := by
  induction path generalizing n with
  | nil => rfl
  | cons frame path ih =>
    rw [List.map_cons, plug, plug, ← ih, map_internode, ← Internode.setChild_map]
    rfl

theorem insertSplit_map (splitType height xikey : Nat) (child : Node L) :
    insertSplit splitType height (n.map f) xikey (child.map f) (path.map (Frame.map f)) =
      (insertSplit splitType height n xikey child path).map f := by
  induction path generalizing height n xikey child with
  | nil => rw [List.map_nil, insertSplit, insertSplit, map_internode]; rfl
  | cons frame path ih =>
    have changed : (((frame.map f).p.setChild (frame.map f).kp (n.map f)).lock).markInsert =
        ((frame.p.setChild frame.kp n).lock.markInsert).map (Node.map f) := by
      rw [← Internode.markInsert_map, ← Internode.lock_map, ← Internode.setChild_map]
      rfl
    rw [List.map_cons, insertSplit, insertSplit]
    dsimp only
    rw [changed]
    generalize (frame.p.setChild frame.kp n).lock.markInsert = p
    rw [Internode.upper_map, Internode.height_map, Internode.size_map, apply_ite (Node.map f), apply_ite (Node.map f)]
    refine if_congr Iff.rfl ?_ (if_congr Iff.rfl ?_ ?_)
    · have pair : Node.internode ⟨0, height + 1, some (n.map f), [(xikey, child.map f)]⟩ =
          (Node.internode ⟨0, height + 1, some n, [(xikey, child)]⟩).map f :=
        (map_internode f ⟨0, height + 1, some n, [(xikey, child)]⟩).symm
      rw [pair, Internode.setChild_map, Internode.unlock_map, ← plug_map, map_internode]
    · rw [Internode.insert_map, Internode.unlock_map, ← plug_map, map_internode]
    · rw [Internode.splitInto_map]
      generalize p.splitInto (height + 1) (p.upper xikey) xikey child splitType = s
      obtain ⟨left, xikey', right⟩ := s
      dsimp only
      rw [← ih, map_internode, map_internode]
      rfl

theorem redirect_map (ikey x : Nat) : redirect ikey x (path.map (Frame.map f)) =
    (redirect ikey x path).map (List.map (Frame.map f)) := by
  induction path with
  | nil => rfl
  | cons frame path ih =>
    have upper : (frame.map f).p.upper ikey = frame.p.upper ikey := Internode.upper_map _ _ _
    have moved : (if 0 < frame.p.upper ikey then (frame.map f).p.setIkey (frame.p.upper ikey - 1) x else (frame.map f).p) =
        (if 0 < frame.p.upper ikey then frame.p.setIkey (frame.p.upper ikey - 1) x else frame.p).map (Node.map f) := by
      split
      · exact Internode.setIkey_map _ _ _ _
      · rfl
    rw [List.map_cons, redirect, redirect]
    dsimp only
    rw [upper, moved]
    generalize (if 0 < frame.p.upper ikey then frame.p.setIkey (frame.p.upper ikey - 1) x else frame.p) = p
    rw [Internode.first_map, Option.isNone_map, ih, show (frame.map f).kp = frame.kp from rfl]
    split_ifs
    · rfl
    · rw [Option.map_map, Option.map_map]
      rfl
    · rfl

theorem removeNode_map (ikey : Nat) (replacement : Option (Node L)) :
    removeNode ikey (replacement.map (Node.map f)) (path.map (Frame.map f)) = (removeNode ikey replacement path).map (Node.map f) := by
  induction path generalizing replacement with
  | nil => cases replacement <;> rfl
  | cons frame path ih =>
    have upper : (frame.map f).p.upper ikey = frame.p.upper ikey := Internode.upper_map _ _ _
    have at_ : (frame.map f).p.ikey (frame.p.upper ikey - 1) = frame.p.ikey (frame.p.upper ikey - 1) := Internode.ikey_map _ _ _
    have changed : (((frame.map f).p.replaceChild (frame.p.upper ikey) (replacement.map (Node.map f))).lock.markInsert).unlock =
        ((frame.p.replaceChild (frame.p.upper ikey) replacement).lock.markInsert.unlock).map (Node.map f) := by
      rw [← Internode.unlock_map, ← Internode.markInsert_map, ← Internode.lock_map, ← Internode.replaceChild_map]
      rfl
    rw [List.map_cons, removeNode, removeNode]
    dsimp only
    rw [upper, at_, changed]
    generalize (frame.p.replaceChild (frame.p.upper ikey) replacement).lock.markInsert.unlock = p
    rw [Internode.size_map, Internode.first_map, Option.isNone_map, Internode.ikey_map, redirect_map, ih,
      show (frame.map f).kp = frame.kp from rfl]
    simp only [List.map_eq_nil_iff]
    split_ifs
    · rfl
    · rw [Option.map_map, Option.map_map]
      refine congrArg (fun h => Option.map h _) (funext fun path' => ?_)
      rw [Function.comp, Function.comp, ← plug_map, map_internode]
    · rw [Option.map_some, ← plug_map, map_internode]
    · rfl

/-! ### What all leaves have -/

def Node.All (P : L → Prop) (n : Node L) : Prop := ∃ m : Node { l // P l }, m.map Subtype.val = n

def PathAll (P : L → Prop) (path : List (Frame L)) : Prop :=
  ∃ path' : List (Frame { l // P l }), path'.map (Frame.map Subtype.val) = path

variable {P : L → Prop} {f n path} {l : L}

theorem all_leaf : (Node.leaf l).All P ↔ P l := by
  constructor
  · rintro ⟨m, same⟩
    cases m with
    | leaf l' =>
      rw [map_leaf] at same
      exact Node.leaf.inj same ▸ l'.2
    | internode p =>
      rw [map_internode] at same
      cases same
  · exact fun holds => ⟨.leaf ⟨l, holds⟩, map_leaf _ _⟩

theorem Node.All.mem (all : n.All P) (mem : l ∈ n.leaves) : P l := by
  obtain ⟨m, rfl⟩ := all
  rw [leaves_map] at mem
  obtain ⟨l', -, rfl⟩ := List.mem_map.mp mem
  exact l'.2

theorem Node.All.child {p : Internode (Node L)} (all : (Node.internode p).All P) {kp : Nat} (child : p.child kp = some n) : n.All P := by
  obtain ⟨m, same⟩ := all
  cases m with
  | leaf l =>
    rw [map_leaf] at same
    cases same
  | internode p' =>
    rw [map_internode] at same
    obtain rfl := Node.internode.inj same
    rw [Internode.child_map] at child
    obtain ⟨m, -, rfl⟩ := Option.map_eq_some_iff.mp child
    exact ⟨m, rfl⟩

theorem Node.All.internode {p p' : Internode (Node L)} (all : (Node.internode p).All P) (first : p'.first = p.first)
    (rest : p'.rest = p.rest) : (Node.internode p').All P := by
  obtain ⟨m, same⟩ := all
  cases m with
  | leaf l =>
    rw [map_leaf] at same
    cases same
  | internode q =>
    rw [map_internode] at same
    obtain rfl := Node.internode.inj same
    refine ⟨.internode ⟨p'.version, p'.height, q.first, q.rest⟩, ?_⟩
    obtain ⟨v, h, f, rs⟩ := p'
    obtain rfl := first
    obtain rfl := rest
    rw [map_internode]
    rfl

theorem Node.All.reachLeaf (all : n.All P) {ikey fuel : Nat} (found : n.reachLeaf ikey fuel [] = some (l, path)) :
    P l ∧ PathAll P path := by
  obtain ⟨m, rfl⟩ := all
  rw [← List.map_nil, reachLeaf_map] at found
  obtain ⟨⟨l', path'⟩, -, same⟩ := Option.map_eq_some_iff.mp found
  obtain ⟨rfl, rfl⟩ := Prod.mk.inj same
  exact ⟨l'.2, path', rfl⟩

theorem PathAll.plug (path_ : PathAll P path) (all : n.All P) : (plug n path).All P := by
  obtain ⟨path', rfl⟩ := path_
  obtain ⟨m, rfl⟩ := all
  exact ⟨_, (plug_map _ m path').symm⟩

theorem PathAll.insertSplit (path_ : PathAll P path) {child : Node L} (all : n.All P) (all' : child.All P)
    (splitType height xikey : Nat) : (insertSplit splitType height n xikey child path).All P := by
  obtain ⟨path', rfl⟩ := path_
  obtain ⟨m, rfl⟩ := all
  obtain ⟨m', rfl⟩ := all'
  exact ⟨_, (insertSplit_map _ m path' splitType height xikey m').symm⟩

theorem PathAll.removeNode (path_ : PathAll P path) {ikey : Nat} {root : Node L} (removed : removeNode ikey none path = some root) :
    root.All P := by
  obtain ⟨path', rfl⟩ := path_
  rw [← Option.map_none, removeNode_map] at removed
  obtain ⟨m, -, rfl⟩ := Option.map_eq_some_iff.mp removed
  exact ⟨m, rfl⟩

end Masstree.Tree
