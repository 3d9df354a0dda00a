import Masstree.Tree.Mapped
import Masstree.Tree.RawHeap
import Masstree.Tree.Runs

/-!
# Tables whose leaves have bags

A search reads each suffix from the bag it is in, and an insert puts it in one. Where there is room for the suffixes, what is done to
such a table is what is done to one without bags.
-/

namespace Masstree.Tree
open Msgpack (Bytes)

variable {V : Type}

structure RawTable (V : Type) where
  layers : Bytes → Option (Node (RawLeaf V))
  /-- as for a `Table` -/
  behind : Bytes → Nat
  callbacks : List Bytes

/-- Where a search ends, with what it has seen of the leaf. -/
structure RawPlace (V : Type) where
  ka : Key
  r : RawLeaf V
  n : Leaf V
  path : List (Frame (RawLeaf V))

namespace RawPlace

def prev (p : RawPlace V) : Bool := hasPrev p.path
def next (p : RawPlace V) : Bool := hasNext p.path

def erase (p : RawPlace V) : Place V := ⟨p.ka, p.r.l, p.path.map (Frame.map RawLeaf.l)⟩

end RawPlace

namespace RawTable

variable (y : LeafLayout)

/-- The way of `find_locked` and `find_unlocked`. -/
def locateIn (layers : Bytes → Option (Node (RawLeaf V))) : Nat → Key → Option (RawPlace V)
  | 0, _ => none
  | fuel + 1, ka =>
    (layers ka.prefixString).bind fun root =>
      (root.reachLeaf ka.ikey root.height []).bind fun (r, path) =>
        (y.seen r ka).bind fun n => if n.leadsOn ka then locateIn layers fuel ka.shift else some ⟨ka, r, n, path⟩

/-- The leaves that `make_new_layer` makes. -/
def hang (layers : Bytes → Option (Node (RawLeaf V))) : Key → List (RawLeaf V) → Bytes → Option (Node (RawLeaf V))
  | _, [] => layers
  | ka, r :: twig => hang (Function.update layers ka.shift.prefixString (some (.leaf r))) ka.shift twig

def makeLayerRoot : Node (RawLeaf V) → Node (RawLeaf V)
  | .leaf r => .leaf ⟨r.l.makeLayerRoot, r.ksufs⟩
  | .internode p => .internode ({ p.lock with version := p.lock.version.markRoot } : Internode _).unlock

/-- The loop of `gc_layer` over redundant internodes. -/
def collapse : Nat → Node (RawLeaf V) → Option (Node (RawLeaf V))
  | _, .leaf r => some (.leaf r)
  | 0, .internode _ => none
  | fuel + 1, .internode p =>
    if 0 < p.size then some (.internode p) else p.first.bind fun n => collapse fuel (makeLayerRoot n)

/-- `initialize` -/
def start (mem : Memory) : Option (RawTable V) :=
  (y.make 0 mem).map fun k => ⟨fun at_ => if at_ = [] then some (.leaf ⟨.makeRoot, k⟩) else none, fun _ => 0, []⟩

def locate (t : RawTable V) (key : Bytes) : Option (RawPlace V) := locateIn y t.layers (key.length + 1) (.ofStr key)

def arrive (t : RawTable V) (p : RawPlace V) : RawTable V :=
  { t with behind := fun at_ => if at_ <+: p.ka.prefixString then t.behind at_ - 1 else t.behind at_ }

def setLayer (t : RawTable V) (at_ : Bytes) (root : Node (RawLeaf V)) : RawTable V :=
  { t with layers := Function.update t.layers at_ (some root) }

def setLeaf (t : RawTable V) (p : RawPlace V) (r : RawLeaf V) : RawTable V :=
  t.setLayer p.ka.prefixString (plug (.leaf r) p.path)

def setSplit (t : RawTable V) (p : RawPlace V) (splitType : Nat) (left right : RawLeaf V) : RawTable V :=
  let root := insertSplit splitType 0 (.leaf left) right.l.ikeyBound (.leaf right) p.path
  let new := (t.layers p.ka.prefixString).elim 0 Node.height < root.height
  { t.setLayer p.ka.prefixString root with
    behind := if new then Function.update t.behind p.ka.prefixString (t.behind p.ka.prefixString + 1) else t.behind }

/-- The leaves of a finished insertion with their bags. -/
def put (t : RawTable V) (p : RawPlace V) (splitType : Nat) : List (RawLeaf V) → RawTable V
  | [] => t
  | [r] => t.setLeaf p r
  | left :: right :: twig =>
    if (p.n.lower p.ka).2.isSome then
      let t := t.setLeaf p left
      { t with
        layers := hang t.layers p.ka (right :: twig)
        behind := fun at_ => if p.ka.prefixString.length < at_.length ∧ at_ <+: p.ka.fullString then 0 else t.behind at_ }
    else t.setSplit p splitType left right

def get (t : RawTable V) (key : Bytes) : Option V :=
  (t.locate y key).bind fun p =>
    (p.n.lower p.ka).2.bind fun i => if (p.n.slot i).ksufMatches p.ka = .yes then (p.n.slot i).lv else none

/-- `find_insert`, and then either the value is stored and `finish(1)` called, or `finish(0)`. -/
def insert (t : RawTable V) (key : Bytes) (value : Option V) (fresh : Fresh) : Option (RawTable V) :=
  (t.locate y key).bind fun p =>
    (Tcursor.findInsert p.n p.prev p.next p.ka).bind fun c =>
      (y.insertKsufs p.n p.r.ksufs p.prev p.next p.ka fresh).map fun ksufs =>
        (t.arrive p).put p c.splitType
          (List.zipWith RawLeaf.mk ((c.store value).finish p.prev (if value.isSome then 1 else 0)).nodes ksufs)

/-- The table with what `finish_remove` has made of the leaf. -/
def settle (t : RawTable V) (p : RawPlace V) (r : RawLeaf V) : Option (RawTable V) :=
  if r.l.size ≠ 0 then some (t.setLeaf p r)
  else if p.prev then (removeNode r.l.ikeyBound none p.path).map (t.setLayer p.ka.prefixString)
  else
    let register := ¬p.next ∧ p.ka.prefixString ≠ []
    some { t.setLeaf p r with callbacks := if register then t.callbacks ++ [p.ka.prefixString] else t.callbacks }

/-- `find_locked`, and then `finish(-1)` if the key is there, else `finish(0)`. -/
def remove (t : RawTable V) (key : Bytes) : Option (RawTable V) :=
  (t.locate y key).bind fun p =>
    (Tcursor.findLocked p.n p.ka).bind fun c =>
      if c.state = 1 then (t.arrive p).settle p ⟨(c.finish p.prev (-1)).leaf 0, p.r.ksufs⟩
      else some ((t.arrive p).setLeaf p ⟨(c.finish p.prev 0).leaf 0, p.r.ksufs⟩)

/-- `gc_layer` for the layer with prefix `at_`, and `finish_remove` if it has collected the layer. -/
def gcLayer (t : RawTable V) (at_ : Bytes) : Option (RawTable V) :=
  (t.locate y at_).bind fun p =>
    let t := t.arrive p
    match Tcursor.gcLayer p.n p.ka with
    | none => some t
    | some c =>
      let below := p.ka.fullString
      let t := { t with behind := Function.update t.behind below 0 }
      (t.layers below).bind fun root =>
        (collapse root.height root).bind fun
          | .leaf r =>
            if r.l.size = 0 then
              { t with layers := Function.update t.layers below none }.settle p ⟨c.removeLayer p.prev, p.r.ksufs⟩
            else some (t.setLayer below (.leaf r))
          | root => some (t.setLayer below root)

def step (t : RawTable V) : Table.Op V × Fresh → Option (RawTable V)
  | (.insert key value, fresh) => t.insert y key (some value) fresh
  | (.cancel key, fresh) => t.insert y key none fresh
  | (.remove key, _) => t.remove y key
  | (.collect i, _) => (t.callbacks[i]?).bind fun at_ => gcLayer y { t with callbacks := t.callbacks.eraseIdx i } at_

/-- The table without its bags. -/
def erase (t : RawTable V) : Table V := ⟨fun at_ => (t.layers at_).map (Node.map RawLeaf.l), t.behind, t.callbacks⟩

/-- The suffixes of each leaf that an insert puts a key in fit in an external bag of `2 ^ n` bytes. -/
def Room (y : LeafLayout) (n : Nat) (t : RawTable V) (op : Table.Op V × Fresh) : Prop :=
  ∀ key ∈ op.1.inserted, ∀ p, t.locate y key = some p → ∀ c, Tcursor.findInsert p.n p.prev p.next p.ka = some c → c.state = 2 →
    y.Fits n c ∧ y.Marks n p.r.ksufs p.ka c

/-! ### Without the bags -/

end RawTable

structure RawLeaf.Fine (y : LeafLayout) (n : Nat) (P : Slot V → Prop) (r : RawLeaf V) : Prop where
  ok : r.Ok y n
  all : r.l.All P

namespace RawTable

variable {y : LeafLayout} {n : Nat} {P : Slot V → Prop} {K : Key → Prop} {t : RawTable V} {p : RawPlace V} {r : RawLeaf V}
  {key : Bytes}

def Fine (y : LeafLayout) (n : Nat) (P : Slot V → Prop) (t : RawTable V) : Prop :=
  ∀ at_ root, t.layers at_ = some root → root.All (RawLeaf.Fine y n P)

/-- A search has seen the leaf as it is, and all leaves beside it are fine. -/
structure Found (y : LeafLayout) (n : Nat) (P : Slot V → Prop) (p : RawPlace V) : Prop where
  seen : p.n = p.r.l
  fine : p.r.Fine y n P
  path : PathAll (RawLeaf.Fine y n P) p.path

theorem update_map {layers : Bytes → Option (Node (RawLeaf V))} (at_ : Bytes) (root : Option (Node (RawLeaf V))) :
    (fun at' => (Function.update layers at_ root at').map (Node.map RawLeaf.l)) =
      Function.update (fun at' => (layers at').map (Node.map RawLeaf.l)) at_ (root.map (Node.map RawLeaf.l)) := by
  funext at'
  by_cases same : at' = at_
  · subst same
    rw [Function.update_self, Function.update_self]
  · rw [Function.update_of_ne same, Function.update_of_ne same]

theorem erase_setLayer (at_ : Bytes) (root : Node (RawLeaf V)) :
    (t.setLayer at_ root).erase = t.erase.setLayer at_ (root.map RawLeaf.l) :=
  congrArg (Table.mk · t.behind t.callbacks) (update_map at_ (some root))

theorem erase_setLeaf (p : RawPlace V) (r : RawLeaf V) : (t.setLeaf p r).erase = t.erase.setLeaf p.erase r.l := by
  rw [setLeaf, erase_setLayer, ← plug_map, map_leaf]
  rfl

theorem Table.ext_parts {t t' : Table V} (layers : t.layers = t'.layers) (behind : t.behind = t'.behind)
    (callbacks : t.callbacks = t'.callbacks) : t = t' := by
  obtain ⟨l, b, c⟩ := t
  obtain ⟨l', b', c'⟩ := t'
  obtain rfl := layers
  obtain rfl := behind
  obtain rfl := callbacks
  rfl

theorem erase_setSplit (p : RawPlace V) (splitType : Nat) (left right : RawLeaf V) :
    (t.setSplit p splitType left right).erase = t.erase.setSplit p.erase splitType left.l right.l := by
  have root : (insertSplit splitType 0 (.leaf left) right.l.ikeyBound (.leaf right) p.path).map RawLeaf.l =
      insertSplit splitType 0 (.leaf left.l) right.l.ikeyBound (.leaf right.l) (p.path.map (Frame.map RawLeaf.l)) := by
    rw [← insertSplit_map, map_leaf, map_leaf]
  have height : (t.erase.layers p.ka.prefixString).elim 0 Node.height = (t.layers p.ka.prefixString).elim 0 Node.height := by
    show ((t.layers p.ka.prefixString).map (Node.map RawLeaf.l)).elim 0 Node.height = _
    cases t.layers p.ka.prefixString with
    | none => rfl
    | some root => exact height_map RawLeaf.l root
  refine Table.ext_parts ?_ (if_congr ?_ rfl rfl) rfl
  · exact (congrArg Table.layers (erase_setLayer (t := t) p.ka.prefixString _)).trans (by rw [root]; rfl)
  · show _ < _ ↔ (t.erase.layers p.ka.prefixString).elim 0 Node.height < (insertSplit splitType 0 (.leaf left.l) right.l.ikeyBound
      (.leaf right.l) (p.path.map (Frame.map RawLeaf.l))).height
    rw [← root, height_map, height]

theorem erase_hang (layers : Bytes → Option (Node (RawLeaf V))) (ka : Key) (twig : List (RawLeaf V)) :
    (fun at_ => (hang layers ka twig at_).map (Node.map RawLeaf.l)) =
      Layers.hang (fun at_ => (layers at_).map (Node.map RawLeaf.l)) ka (twig.map RawLeaf.l) := by
  induction twig generalizing layers ka with
  | nil => rfl
  | cons r twig ih => rw [hang, List.map_cons, Layers.hang, ih, update_map, Option.map_some, map_leaf]

theorem erase_put (found : p.n = p.r.l) (splitType : Nat) (rs : List (RawLeaf V)) :
    (t.put p splitType rs).erase = t.erase.put p.erase splitType (rs.map RawLeaf.l) := by
  cases rs with
  | nil => rfl
  | cons left rs =>
    cases rs with
    | nil => exact erase_setLeaf p left
    | cons right twig =>
      rw [put, List.map_cons, List.map_cons, Table.put, found, show p.erase.n = p.r.l from rfl, show p.erase.ka = p.ka from rfl,
        apply_ite erase]
      refine if_congr Iff.rfl ?_ ?_
      · have leaf := erase_setLeaf (t := t) p left
        have hung := erase_hang (t.setLeaf p left).layers p.ka (right :: twig)
        rw [show (fun at_ => ((t.setLeaf p left).layers at_).map (Node.map RawLeaf.l)) = (t.erase.setLeaf p.erase left.l).layers from
          congrArg Table.layers leaf] at hung
        exact Table.ext_parts hung rfl rfl
      · exact erase_setSplit p splitType left right

theorem erase_settle (p : RawPlace V) (r : RawLeaf V) : t.erase.settle p.erase r.l = (t.settle p r).map erase := by
  unfold Table.settle settle
  rw [show p.erase.prev = p.prev from hasPrev_map RawLeaf.l p.path, show p.erase.next = p.next from hasNext_map RawLeaf.l p.path]
  split
  · rw [Option.map_some, erase_setLeaf]
  · split
    · have removed := removeNode_map RawLeaf.l p.path r.l.ikeyBound none
      rw [Option.map_none] at removed
      show (removeNode r.l.ikeyBound none (p.path.map (Frame.map RawLeaf.l))).map _ = _
      rw [removed, Option.map_map, Option.map_map]
      exact congrArg (Option.map · _) (funext fun root => (erase_setLayer _ root).symm)
    · rw [Option.map_some]
      exact congrArg some (Table.ext_parts (congrArg Table.layers (erase_setLeaf p r)).symm rfl rfl)

theorem map_makeLayerRoot (n : Node (RawLeaf V)) : (makeLayerRoot n).map RawLeaf.l = (n.map RawLeaf.l).makeLayerRoot := by
  cases n with
  | leaf r => rw [makeLayerRoot, map_leaf, map_leaf]; rfl
  | internode p => rw [makeLayerRoot, map_internode, map_internode]; rfl

theorem map_collapse (fuel : Nat) (n : Node (RawLeaf V)) :
    Tree.collapse fuel (n.map RawLeaf.l) = (collapse fuel n).map (Node.map RawLeaf.l) := by
  induction fuel generalizing n with
  | zero =>
    cases n with
    | leaf r => rw [map_leaf, collapse, Option.map_some, map_leaf]; rfl
    | internode p => rw [map_internode]; rfl
  | succ fuel ih =>
    cases n with
    | leaf r => rw [map_leaf, collapse, Option.map_some, map_leaf]; rfl
    | internode p =>
      rw [map_internode, Tree.collapse, collapse, Internode.size_map, Internode.first_map]
      split
      · rw [Option.map_some, map_internode]
      · cases p.first with
        | none => rfl
        | some m =>
          show Tree.collapse fuel (m.map RawLeaf.l).makeLayerRoot = _
          rw [← map_makeLayerRoot, ih]
          rfl

/-! ### What every leaf has -/

theorem Fine.update (fine : t.Fine y n P) {at_ : Bytes} {root : Option (Node (RawLeaf V))} {t' : RawTable V}
    (layers : t'.layers = Function.update t.layers at_ root) (all : ∀ root' ∈ root, root'.All (RawLeaf.Fine y n P)) :
    t'.Fine y n P := by
  intro at' root' layer
  rw [layers] at layer
  by_cases same : at' = at_
  · subst same
    rw [Function.update_self] at layer
    exact all root' layer
  · rw [Function.update_of_ne same] at layer
    exact fine at' root' layer

theorem Fine.setLayer (fine : t.Fine y n P) {root : Node (RawLeaf V)} (all : root.All (RawLeaf.Fine y n P)) (at_ : Bytes) :
    (t.setLayer at_ root).Fine y n P :=
  fine.update rfl fun _ mem => Option.some.inj mem ▸ all

theorem Fine.setLeaf (fine : t.Fine y n P) (found : Found y n P p) (leaf : r.Fine y n P) : (t.setLeaf p r).Fine y n P :=
  fine.setLayer (found.path.plug (all_leaf.mpr leaf)) _

theorem Fine.hang (fine : t.Fine y n P) {twig : List (RawLeaf V)} (leaves : ∀ r ∈ twig, r.Fine y n P) (ka : Key) {t' : RawTable V}
    (layers : t'.layers = RawTable.hang t.layers ka twig) : t'.Fine y n P := by
  induction twig generalizing t ka with
  | nil =>
    intro at_ root layer
    rw [layers] at layer
    exact fine at_ root layer
  | cons r twig ih =>
    exact ih (t := t.setLayer ka.shift.prefixString (.leaf r)) (fine.setLayer (all_leaf.mpr (leaves r List.mem_cons_self)) _)
      (fun r mem => leaves r (List.mem_cons_of_mem _ mem)) ka.shift layers

theorem Fine.put (fine : t.Fine y n P) (found : Found y n P p) (splitType : Nat) {rs : List (RawLeaf V)}
    (leaves : ∀ r ∈ rs, r.Fine y n P) : (t.put p splitType rs).Fine y n P := by
  cases rs with
  | nil => exact fine
  | cons left rs =>
    have first := leaves left List.mem_cons_self
    cases rs with
    | nil => exact fine.setLeaf found first
    | cons right twig =>
      rw [RawTable.put]
      split
      · exact (fine.setLeaf found first).hang (fun r mem => leaves r (List.mem_cons_of_mem _ mem)) p.ka rfl
      · have both := found.path.insertSplit (all_leaf.mpr first) (all_leaf.mpr (leaves right (by simp))) splitType 0 right.l.ikeyBound
        exact fine.update rfl fun root mem => Option.some.inj mem ▸ both

theorem Fine.settle (fine : t.Fine y n P) (found : Found y n P p) (leaf : r.Fine y n P) {t' : RawTable V}
    (settled : t.settle p r = some t') : t'.Fine y n P := by
  unfold RawTable.settle at settled
  split at settled
  · obtain rfl := Option.some.inj settled
    exact fine.setLeaf found leaf
  · split at settled
    · obtain ⟨root, removed, rfl⟩ := Option.map_eq_some_iff.mp settled
      exact fine.setLayer (found.path.removeNode removed) _
    · obtain rfl := Option.some.inj settled
      exact fine.setLeaf found leaf

theorem all_makeLayerRoot {m : Node (RawLeaf V)} (all : m.All (RawLeaf.Fine y n P)) : (makeLayerRoot m).All (RawLeaf.Fine y n P) := by
  cases m with
  | leaf r =>
    obtain ⟨ok, slots⟩ := all_leaf.mp all
    exact all_leaf.mpr ⟨⟨(Leaf.makeLayerRoot_moves ok.wf).1, ok.sound, ok.reads⟩, slots⟩
  | internode p => exact all.internode rfl rfl

theorem all_collapse {fuel : Nat} {m m' : Node (RawLeaf V)} (all : m.All (RawLeaf.Fine y n P)) (collapsed : collapse fuel m = some m') :
    m'.All (RawLeaf.Fine y n P) := by
  induction fuel generalizing m with
  | zero =>
    cases m with
    | leaf r => exact Option.some.inj collapsed ▸ all
    | internode p => cases collapsed
  | succ fuel ih =>
    cases m with
    | leaf r => exact Option.some.inj collapsed ▸ all
    | internode p =>
      rw [collapse] at collapsed
      split at collapsed
      · exact Option.some.inj collapsed ▸ all
      · obtain ⟨first, child, deeper⟩ := Option.bind_eq_some_iff.mp collapsed
        have child : p.child 0 = some first := child
        exact ih (all_makeLayerRoot (all.child child)) deeper

/-! ### Searches -/

theorem locateIn_spec (kind : Slot.Kind P K) (classed : ∀ s, P s → s.Classed) (fine : t.Fine y n P) (fuel : Nat) (ka : Key) :
    Layers.locate t.erase.layers fuel ka = (locateIn y t.layers fuel ka).map RawPlace.erase ∧
      ∀ p, locateIn y t.layers fuel ka = some p → Found y n P p ∧ (K ka → K p.ka) := by
  induction fuel generalizing ka with
  | zero => exact ⟨rfl, fun p found => by cases found⟩
  | succ fuel ih =>
    rw [Layers.locate, locateIn, show t.erase.layers ka.prefixString = (t.layers ka.prefixString).map (Node.map RawLeaf.l) from rfl]
    cases layer : t.layers ka.prefixString with
    | none => exact ⟨rfl, fun p found => by cases found⟩
    | some root =>
      have reached := reachLeaf_map RawLeaf.l root [] ka.ikey root.height
      rw [Option.map_some, Option.bind_some, Option.bind_some, height_map, ← List.map_nil, reached]
      cases reach : root.reachLeaf ka.ikey root.height [] with
      | none => exact ⟨rfl, fun p found => by cases found⟩
      | some found =>
        obtain ⟨r, path⟩ := found
        obtain ⟨leaf, parents⟩ := (fine _ _ layer).reachLeaf reach
        have seen := LeafLayout.seen_eq leaf.ok (fun s mem => classed s (leaf.all s mem)) ka
        rw [Option.map_some, Option.bind_some, Option.bind_some]
        dsimp only
        rw [seen, Option.bind_some]
        split
        · obtain ⟨same, rest⟩ := ih ka.shift
          exact ⟨same, fun p found => ⟨(rest p found).1, fun key => (rest p found).2 (kind.shift ka key)⟩⟩
        · refine ⟨rfl, fun p found => ?_⟩
          obtain rfl := Option.some.inj found
          exact ⟨⟨rfl, leaf, parents⟩, id⟩

theorem locate_spec (kind : Slot.Kind P K) (classed : ∀ s, P s → s.Classed) (fine : t.Fine y n P) (key : Bytes) :
    t.erase.locate key = (t.locate y key).map RawPlace.erase ∧
      ∀ p, t.locate y key = some p → Found y n P p ∧ (K (.ofStr key) → K p.ka) :=
  locateIn_spec kind classed fine _ _

theorem get_eq (kind : Slot.Kind P K) (classed : ∀ s, P s → s.Classed) (fine : t.Fine y n P) : t.get y = t.erase.get := by
  funext key
  obtain ⟨same, found⟩ := locate_spec kind classed fine key
  rw [RawTable.get, Table.get, same]
  cases at_ : t.locate y key with
  | none => rfl
  | some p =>
    rw [Option.map_some, Option.bind_some, Option.bind_some, (found p at_).1.seen]
    rfl

/-- The place that a search without bags comes to. -/
theorem locate_erase (kind : Slot.Kind P K) (classed : ∀ s, P s → s.Classed) (fine : t.Fine y n P) {q : Place V}
    (located : t.erase.locate key = some q) :
    ∃ p, t.locate y key = some p ∧ p.erase = q ∧ Found y n P p ∧ (K (.ofStr key) → K p.ka) := by
  obtain ⟨same, found⟩ := locate_spec kind classed fine key
  rw [same] at located
  obtain ⟨p, at_, rfl⟩ := Option.map_eq_some_iff.mp located
  exact ⟨p, at_, rfl, found p at_⟩

/-! ### Operations -/

theorem insert_spec (kind : Slot.Kind P K) (classed : ∀ s, P s → s.Classed) (fine : t.Fine y n P) (le : n ≤ 16) (of : K (.ofStr key))
    {value : Option V} {fresh : Fresh} {e : Table V}
    (room : ∀ p, t.locate y key = some p → ∀ c, Tcursor.findInsert p.n p.prev p.next p.ka = some c → c.state = 2 →
      y.Fits n c ∧ y.Marks n p.r.ksufs p.ka c) (inserted : t.erase.insert key value = some e) :
    ∃ t', t.insert y key value fresh = some t' ∧ t'.erase = e ∧ t'.Fine y n P := by
  obtain ⟨q, located, inserted⟩ := Option.bind_eq_some_iff.mp inserted
  obtain ⟨p, at_, rfl, found, shifted⟩ := locate_erase kind classed fine located
  obtain ⟨c, made, rfl⟩ := Option.map_eq_some_iff.mp inserted
  change Tcursor.findInsert p.r.l p.erase.prev p.erase.next p.ka = some c at made
  rw [show p.erase.prev = p.prev from hasPrev_map RawLeaf.l p.path, show p.erase.next = p.next from hasNext_map RawLeaf.l p.path] at made
  have open_ := Tcursor.findInsert_opened found.fine.ok.wf made
  obtain ⟨slots, -⟩ := Tcursor.findInsert_all kind found.fine.all (shifted of) made
  have room := room p at_ c (found.seen ▸ made)
  obtain ⟨ksufs, stored, filled⟩ := LeafLayout.insertKsufs_spec found.fine.ok le made room fresh
  have length := filled.length.trans (Tcursor.length_finish open_ value p.prev (if value.isSome then 1 else 0)).symm
  have leaves : ∀ r ∈ List.zipWith RawLeaf.mk ((c.store value).finish p.prev (if value.isSome then 1 else 0)).nodes ksufs,
      r.Fine y n P := by
    intro r mem
    obtain ⟨i, at_⟩ := List.mem_iff_getElem?.mp mem
    obtain ⟨m, k, node, bag, rfl⟩ := List.getElem?_zipWith_eq_some.mp at_
    exact ⟨Tcursor.finish_ok open_ filled value p.prev _ node bag,
      Tcursor.finish_all kind open_ slots value p.prev _ m (List.mem_of_getElem? node)⟩
  have arrived : (t.arrive p).Fine y n P := fine
  refine ⟨_, ?_, ?_, arrived.put found c.splitType leaves⟩
  · rw [RawTable.insert, at_, Option.bind_some, found.seen, made, Option.bind_some, stored, Option.map_some]
  · rw [erase_put found.seen, RawHeap.map_zipWith_mk length, ← show p.erase.prev = p.prev from hasPrev_map RawLeaf.l p.path]
    rfl

/-- The leaf of a cursor that puts no key in it. -/
theorem locked_fine (kind : Slot.Kind P K) (leaf : r.Fine y n P) {ka : Key} {c : Tcursor V} (locked : Tcursor.findLocked r.l ka = some c)
    (prev : Bool) (state : Int) : RawLeaf.Fine y n P ⟨(c.finish prev state).leaf 0, r.ksufs⟩ := by
  have open_ := Tcursor.findLocked_opened leaf.ok.wf locked
  obtain ⟨-, found, rfl, which⟩ := Tcursor.findLocked_cases locked
  let c : Tcursor V := ⟨[r.l.lock], 0, ka, (r.l.lower ka).1, (r.l.lower ka).2, found, 0, 0, []⟩
  have filled : y.Filled n c [r.ksufs] := Tcursor.filled_lock leaf.ok rfl (by
    rcases which with rfl | ⟨rfl, -⟩ <;> exact nofun)
  have first : (c.finish prev state).nodes[0]? = some ((c.finish prev state).leaf 0) := by
    rw [Tcursor.leaf, (Tcursor.nodes_finish open_.inside prev state).1]
    rfl
  refine ⟨Tcursor.finish_ok open_ filled none prev state first rfl, ?_⟩
  exact Tcursor.finish_all kind open_ (fun m mem => by rw [List.mem_singleton.mp mem]; exact leaf.all) none prev state _
    (List.mem_of_getElem? first)

theorem remove_spec (kind : Slot.Kind P K) (classed : ∀ s, P s → s.Classed) (fine : t.Fine y n P) {e : Table V}
    (removed : t.erase.remove key = some e) : ∃ t', t.remove y key = some t' ∧ t'.erase = e ∧ t'.Fine y n P := by
  obtain ⟨q, located, removed⟩ := Option.bind_eq_some_iff.mp removed
  obtain ⟨p, at_, rfl, found, -⟩ := locate_erase kind classed fine located
  obtain ⟨c, locked, removed⟩ := Option.bind_eq_some_iff.mp removed
  rw [show p.erase.prev = p.prev from hasPrev_map RawLeaf.l p.path] at removed
  have arrived : (t.arrive p).Fine y n P := fine
  have leaf := locked_fine kind found.fine locked p.prev
  rw [RawTable.remove, at_, Option.bind_some, found.seen, show Tcursor.findLocked p.r.l p.ka = some c from locked, Option.bind_some]
  split at removed
  · rename_i one
    rw [if_pos one]
    have settled := erase_settle (t := t.arrive p) p ⟨(c.finish p.prev (-1)).leaf 0, p.r.ksufs⟩
    rw [show (t.arrive p).erase = t.erase.arrive p.erase from rfl, removed] at settled
    obtain ⟨t', done, rfl⟩ := Option.map_eq_some_iff.mp settled.symm
    exact ⟨t', done, rfl, arrived.settle found (leaf (-1)) done⟩
  · rename_i other
    rw [if_neg other]
    obtain rfl := Option.some.inj removed
    exact ⟨_, rfl, erase_setLeaf p _, arrived.setLeaf found (leaf 0)⟩

theorem removeLayer_fine (leaf : r.Fine y n P) {ka : Key} {c : Tcursor V} (found : Tcursor.gcLayer r.l ka = some c)
    (prev : Bool) : RawLeaf.Fine y n P ⟨c.removeLayer prev, r.ksufs⟩ := by
  obtain ⟨nodes, first⟩ := Tcursor.nodes_gcLayer found
  refine ⟨RawHeap.removeLayer_ok leaf.ok found prev, ?_⟩
  rw [Tcursor.removeLayer_eq]
  refine leaf.all.congr (?_ : (Tcursor.finished _ prev (-1)).unlock.slots = _)
  show (Tcursor.finished _ prev (-1)).slots = _
  rw [Tcursor.slots_finished, Tcursor.node]
  show (c.nodes.getD c.n .makeRoot).slots = _
  rw [nodes, first]
  rfl

theorem gcLayer_spec (kind : Slot.Kind P K) (classed : ∀ s, P s → s.Classed) (fine : t.Fine y n P) {at_ : Bytes} {e : Table V}
    (collected : t.erase.gcLayer at_ = some e) : ∃ t', gcLayer y t at_ = some t' ∧ t'.erase = e ∧ t'.Fine y n P := by
  obtain ⟨q, located, collected⟩ := Option.bind_eq_some_iff.mp collected
  obtain ⟨p, place, rfl, found, -⟩ := locate_erase kind classed fine located
  have arrived : (t.arrive p).Fine y n P := fine
  rw [gcLayer, place, Option.bind_some, found.seen]
  change (match Tcursor.gcLayer p.r.l p.ka with | none => _ | some c => _ : Option (Table V)) = some e at collected
  cases search : Tcursor.gcLayer p.r.l p.ka with
  | none =>
    rw [search] at collected
    obtain rfl := Option.some.inj collected
    exact ⟨_, rfl, rfl, arrived⟩
  | some c =>
    rw [search] at collected
    obtain ⟨_, mapped, collected⟩ := Option.bind_eq_some_iff.mp collected
    obtain ⟨root, layer, rfl⟩ := Option.map_eq_some_iff.mp mapped
    obtain ⟨_, ended, collected⟩ := Option.bind_eq_some_iff.mp collected
    rw [height_map, map_collapse] at ended
    obtain ⟨bottom, collapsed, rfl⟩ := Option.map_eq_some_iff.mp ended
    have all := all_collapse (fine _ _ layer) collapsed
    have prev : p.erase.prev = p.prev := hasPrev_map RawLeaf.l p.path
    let t₁ : RawTable V := { t.arrive p with behind := Function.update (t.arrive p).behind p.ka.fullString 0 }
    have fine₁ : t₁.Fine y n P := fine
    dsimp only
    rw [show (t.arrive p).layers p.ka.fullString = some root from layer, Option.bind_some, collapsed, Option.bind_some]
    cases bottom with
    | leaf r =>
      rw [map_leaf] at collected
      dsimp only at collected ⊢
      split at collected
      · rename_i empty
        rw [if_pos empty]
        have leaf := removeLayer_fine found.fine search p.prev
        have gone : ({ t₁ with layers := Function.update t₁.layers p.ka.fullString none } : RawTable V).Fine y n P :=
          fine₁.update rfl fun root' mem => by cases mem
        have settled := erase_settle (t := { t₁ with layers := Function.update t₁.layers p.ka.fullString none }) p
          ⟨c.removeLayer p.prev, p.r.ksufs⟩
        rw [prev] at collected
        have same : ({ t₁ with layers := Function.update t₁.layers p.ka.fullString none } : RawTable V).erase =
            { t₁.erase with layers := Function.update t₁.erase.layers p.ka.fullString none } :=
          congrArg (Table.mk · _ _) (update_map _ none)
        rw [same] at settled
        obtain ⟨t', done, rfl⟩ := Option.map_eq_some_iff.mp (settled.symm.trans collected)
        exact ⟨t', done, rfl, gone.settle found leaf done⟩
      · rename_i full
        rw [if_neg full]
        obtain rfl := Option.some.inj collected
        refine ⟨_, rfl, ?_, fine₁.setLayer all _⟩
        rw [← map_leaf]
        exact erase_setLayer (t := t₁) _ _
    | internode b =>
      rw [map_internode] at collected
      obtain rfl := Option.some.inj collected
      refine ⟨_, rfl, ?_, fine₁.setLayer all _⟩
      rw [← map_internode]
      exact erase_setLayer (t := t₁) _ _

/-- An operation that has room does what it does without bags. -/
theorem step_spec (kind : Slot.Kind P K) (classed : ∀ s, P s → s.Classed) (fine : t.Fine y n P) (le : n ≤ 16) {op : Table.Op V}
    {fresh : Fresh} {e : Table V} (of : ∀ key ∈ op.inserted, K (.ofStr key)) (room : t.Room y n (op, fresh))
    (stepped : t.erase.step op = some e) : ∃ t', t.step y (op, fresh) = some t' ∧ t'.erase = e ∧ t'.Fine y n P := by
  cases op with
  | insert key value => exact insert_spec kind classed fine le (of key rfl) (room key rfl) stepped
  | cancel key => exact insert_spec kind classed fine le (of key rfl) (room key rfl) stepped
  | remove key => exact remove_spec kind classed fine stepped
  | collect i =>
    obtain ⟨at_, pending, collected⟩ := Option.bind_eq_some_iff.mp stepped
    rw [step, show t.callbacks[i]? = some at_ from pending, Option.bind_some]
    exact gcLayer_spec (t := { t with callbacks := t.callbacks.eraseIdx i }) kind classed fine collected

theorem run_spec (kind : Slot.Kind P K) (classed : ∀ s, P s → s.Classed) (fine : t.Fine y n P) (le : n ≤ 16)
    {ops : List (Table.Op V × Fresh)} {e : Table V} (of : ∀ op ∈ ops, ∀ key ∈ op.1.inserted, K (.ofStr key))
    (ran : Steps.run Table.step t.erase (ops.map Prod.fst) = some e) (room : Steps.Each (step y) (Room y n) t ops) :
    ∃ t', Steps.run (step y) t ops = some t' ∧ t'.erase = e ∧ t'.Fine y n P := by
  induction ops generalizing t with
  | nil =>
    obtain rfl := Option.some.inj ran
    exact ⟨t, rfl, rfl, fine⟩
  | cons op ops ih =>
    obtain ⟨next, stepped, ran⟩ := Option.bind_eq_some_iff.mp ran
    obtain ⟨t', stepped', rfl, fine'⟩ := step_spec kind classed fine le (of op List.mem_cons_self) room.1 stepped
    obtain ⟨t'', ran', rest⟩ := ih fine' (fun op mem => of op (List.mem_cons_of_mem _ mem)) ran (room.2 t' stepped')
    exact ⟨t'', (Steps.run_cons stepped' ops).trans ran', rest⟩

theorem start_spec (kind : Slot.Kind P K) (y : LeafLayout) (n : Nat) (mem : Memory) :
    ∃ s : RawTable V, start y mem = some s ∧ s.erase = .start ∧ s.Fine y n P := by
  obtain ⟨k, made, sound⟩ := LeafLayout.make_spec y 0 n mem
  refine ⟨_, by rw [start, made, Option.map_some], ?_, ?_⟩
  · refine congrArg (Table.mk · _ _) (funext fun at_ => ?_)
    dsimp only
    split
    · rw [Option.map_some, map_leaf]
    · rfl
  · intro at_ root layer
    dsimp only at layer
    split at layer
    · obtain rfl := Option.some.inj layer
      exact all_leaf.mpr ⟨⟨Leaf.wf_makeRoot, sound.mono (Nat.zero_le _), fun p none_ => absurd none_ List.not_mem_nil⟩,
        Leaf.all_makeRoot kind⟩
    · cases layer

end RawTable

end Masstree.Tree
