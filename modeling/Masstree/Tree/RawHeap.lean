import Masstree.Tree.RawLeaf

/-!
# The leaves of a table with their bags

Runs that read and store each suffix in its bag. They do what runs over the leaves alone do.
-/

namespace Masstree.Tree
open Msgpack (Bytes)
open Nodeversion (rootBit)

variable {V : Type}

structure RawHeap (V : Type) where
  leaves : List (RawLeaf V)

namespace RawHeap

variable (y : LeafLayout)

/-- `initialize` -/
def start (mem : Memory) : Option (RawHeap V) := (y.make 0 mem).map fun k => ⟨[⟨.makeRoot, k⟩]⟩

/-- The cursor's leaves with their bags. The first was leaf `i`; the others are new. -/
def put (h : RawHeap V) (i : Nat) (c : Tcursor V) (ksufs : List Ksufs) : RawHeap V :=
  match List.zipWith RawLeaf.mk c.nodes ksufs with
  | [] => h
  | r :: made => ⟨h.leaves.set i r ++ made⟩

def step (h : RawHeap V) : Heap.Op V × Fresh → Option (RawHeap V)
  | (.insert i prev next ka value state, fresh) =>
    (h.leaves[i]?).bind fun r => (y.seen r ka).bind fun l => (Tcursor.findInsert l prev next ka).bind fun c =>
      (y.insertKsufs l r.ksufs prev next ka fresh).map fun ksufs => h.put i ((c.store value).finish prev state) ksufs
  | (.locked i prev ka value state, _) =>
    (h.leaves[i]?).bind fun r => (y.seen r ka).bind fun l => (Tcursor.findLocked l ka).map fun c =>
      h.put i ((c.store value).finish prev state) [r.ksufs]
  | (.collect i j prev ka, _) =>
    (h.leaves[i]?).bind fun r => (h.leaves[j]?).bind fun layer => (y.seen r ka).bind fun l => (Tcursor.gcLayer l ka).bind fun c =>
      if i ≠ j ∧ layer.l.size = 0 ∧ layer.l.version.has rootBit then
        some ⟨(h.leaves.set i ⟨c.removeLayer prev, r.ksufs⟩).set j ⟨layer.l.markDeletedLayer, layer.ksufs⟩⟩
      else none
  | (.layerRoot i, _) => (h.leaves[i]?).map fun r => ⟨h.leaves.set i ⟨r.l.makeLayerRoot, r.ksufs⟩⟩

def erase (h : RawHeap V) : Heap V := ⟨h.leaves.map RawLeaf.l⟩

end RawHeap

/-- What is left of the key after its slice has at most `m` bytes. -/
def Key.Short (m : Nat) (ka : Key) : Prop := ka.suffix.length ≤ m

def Slot.Short (m : Nat) (s : Slot V) : Prop := s.Classed ∧ ∀ t, s.suffix = some t → t.length ≤ m

/-! ### The end of an operation -/

section Slots
variable {s s' : Slot V}

theorem suffix_of_key (same : s'.key = s.key) : s'.suffix = s.suffix := by
  obtain ⟨-, rest⟩ := Prod.mk.inj same
  obtain ⟨class_, ksuf⟩ := Prod.mk.inj rest
  unfold Slot.suffix
  by_cases has : s.hasKsuf = true
  · have long : s.keylenx = ksufKeylenx := hasKsuf_iff.mp has
    have long' : s'.keylenx = ksufKeylenx := class_.trans long
    rw [if_pos long, if_pos long'] at ksuf
    rw [if_pos has, if_pos (hasKsuf_iff.mpr long'), ksuf]
  · have has' : ¬s'.hasKsuf = true := fun has' => has (hasKsuf_iff.mpr (class_.symm.trans (hasKsuf_iff.mp has')))
    rw [if_neg has, if_neg has']

end Slots

namespace Tcursor

variable {c : Tcursor V} {l : Leaf V} {prev : Bool} {state : Int} {y : LeafLayout} {n : Nat} {ksufs : List Ksufs}

/-- `finish` makes no slot live but the one the new key is in. -/
theorem live_finished (c : Tcursor V) : ∀ p ∈ (c.finished prev state).perm.live, p ∈ c.positions c.n c.node := by
  intro p mem
  rw [perm_finished] at mem
  unfold positions
  split at mem
  · rename_i removes
    rw [if_neg fun both => absurd (removes.2.symm.trans both.2) (by decide)]
    exact List.mem_of_mem_eraseIdx mem
  · split at mem
    · rename_i inserts
      rw [if_pos ⟨rfl, inserts.2⟩]
      rcases List.eq_or_mem_of_mem_insertIdx mem with rfl | mem
      · exact List.mem_cons_self
      · exact List.mem_cons_of_mem _ mem
    · split
      · exact List.mem_cons_of_mem _ mem
      · exact mem

/-- What is stored in the slot the cursor is at changes no key. -/
theorem store_spec (inside : c.n < c.nodes.length) (value : Option V) : (c.store value).n = c.n ∧
    (c.store value).nodes.length = c.nodes.length ∧ (∀ i, i ≠ c.n → (c.store value).nodes[i]? = c.nodes[i]?) ∧
      (c.store value).node.perm = c.node.perm ∧ ∀ p, ((c.store value).node.slot p).key = (c.node.slot p).key := by
  cases value with
  | none => exact ⟨rfl, rfl, fun _ _ => rfl, rfl, fun _ => rfl⟩
  | some v =>
    have node : (c.store (some v)).node = c.node.setValue (c.kxp.getD 0) v := node_setNode inside _
    rw [node]
    exact ⟨rfl, List.length_set, fun i other => List.getElem?_set_ne (Ne.symm other), rfl, fun p => Leaf.key_setValue c.node _ p v⟩

/-- The leaves that an operation leaves, with their bags. -/
theorem finish_ok (open_ : c.Opened l) (filled : y.Filled n c ksufs) (value : Option V) (prev : Bool) (state : Int) {i : Nat}
    {m : Leaf V} {k : Ksufs} (at_ : ((c.store value).finish prev state).nodes[i]? = some m) (at' : ksufs[i]? = some k) :
    RawLeaf.Ok y n ⟨m, k⟩ := by
  have open' := open_.store value
  have wf := finish_wf open' prev state m (List.mem_of_getElem? at_)
  obtain ⟨n_, length, others, perm, keys⟩ := store_spec open_.inside value
  obtain ⟨nodes, -⟩ := nodes_finish open'.inside prev state
  rw [nodes, n_] at at_
  by_cases same : i = c.n
  · subst same
    rw [List.getElem?_set_self (length.symm ▸ open_.inside)] at at_
    obtain rfl := Option.some.inj at_
    have node : c.nodes[c.n]? = some c.node := by
      rw [Tcursor.node, List.getD_eq_getElem _ _ open_.inside]
      exact List.getElem?_eq_getElem open_.inside
    obtain ⟨sound, reads⟩ := filled.each c.n c.node k node at'
    have slot : ∀ p, ((c.store value).finished prev state).unlock.slot p = (c.store value).node.slot p := fun p =>
      congrArg (fun slots => slots.getD p default) (slots_finished (c.store value))
    refine ⟨wf, sound, reads.mono fun p mem t suffix => ?_⟩
    rw [slot, suffix_of_key (keys p)] at suffix
    refine ⟨?_, suffix⟩
    have live := live_finished (c.store value) p mem
    unfold positions at live ⊢
    rwa [n_, state_store, perm] at live
  · rw [List.getElem?_set_ne (Ne.symm same), others i same] at at_
    obtain ⟨sound, reads⟩ := filled.each i m k at_ at'
    unfold positions at reads
    rw [if_neg fun both => same both.1] at reads
    exact ⟨wf, sound, reads⟩

/-- A cursor on the leaf as it was. -/
theorem filled_lock {r : RawLeaf V} (ok : r.Ok y n) (nodes : c.nodes = [r.l.lock]) (search : c.state ≠ 2) : y.Filled n c [r.ksufs] := by
  refine ⟨by rw [nodes]; rfl, fun i m k at_ at' => ?_⟩
  rw [nodes] at at_
  unfold positions
  rw [if_neg fun both => search both.2]
  cases i with
  | zero =>
    obtain rfl := Option.some.inj at_
    obtain rfl := Option.some.inj at'
    exact ⟨ok.sound, ok.reads⟩
  | succ i => cases at_

theorem length_finish (open_ : c.Opened l) (value : Option V) (prev : Bool) (state : Int) :
    ((c.store value).finish prev state).nodes.length = c.nodes.length := by
  rw [(nodes_finish (open_.store value).inside prev state).1, List.length_set]
  exact (store_spec open_.inside value).2.1

end Tcursor

namespace RawHeap

variable {y : LeafLayout} {n : Nat} {h : RawHeap V} {i : Nat}

def Ok (y : LeafLayout) (n : Nat) (h : RawHeap V) : Prop := ∀ r ∈ h.leaves, r.Ok y n

/-- The suffixes of each leaf that the operation puts a key in fit in an external bag of `2 ^ n` bytes. -/
def Room (y : LeafLayout) (n : Nat) (h : RawHeap V) (op : Heap.Op V × Fresh) : Prop :=
  match op.1 with
  | .insert i prev next ka _ _ =>
    ∀ r, h.leaves[i]? = some r → ∀ c, Tcursor.findInsert r.l prev next ka = some c → c.state = 2 → y.Fits n c ∧ y.Marks n r.ksufs ka c
  | _ => True

theorem map_zipWith_mk {ms : List (Leaf V)} {ks : List Ksufs} (length : ks.length = ms.length) :
    (List.zipWith RawLeaf.mk ms ks).map RawLeaf.l = ms := by
  induction ms generalizing ks with
  | nil => rfl
  | cons m ms ih =>
    cases ks with
    | nil => cases length
    | cons k ks => rw [List.zipWith_cons_cons, List.map_cons, ih (Nat.succ.inj length)]

/-- A cursor's leaves with bags that have what the leaves need. -/
theorem put_spec (ok : h.Ok y n) {c : Tcursor V} {ksufs : List Ksufs} (some_ : 0 < c.nodes.length)
    (length : ksufs.length = c.nodes.length)
    (each : ∀ (j : Nat) m k, c.nodes[j]? = some m → ksufs[j]? = some k → RawLeaf.Ok y n ⟨m, k⟩) (i : Nat) :
    (h.put i c ksufs).erase = h.erase.put i c ∧ (h.put i c ksufs).Ok y n := by
  have all : ∀ r ∈ List.zipWith RawLeaf.mk c.nodes ksufs, r.Ok y n := by
    intro r mem
    obtain ⟨j, at_⟩ := List.mem_iff_getElem?.mp mem
    obtain ⟨m, k, node, bag, rfl⟩ := List.getElem?_zipWith_eq_some.mp at_
    exact each j m k node bag
  have lists := map_zipWith_mk length
  unfold put
  cases zip : List.zipWith RawLeaf.mk c.nodes ksufs with
  | nil =>
    rw [zip] at lists
    rw [← lists] at some_
    cases some_
  | cons r made =>
    rw [zip] at lists all
    refine ⟨?_, ?_⟩
    · show Heap.mk ((h.leaves.set i r ++ made).map RawLeaf.l) =
        Heap.mk ((h.leaves.map RawLeaf.l).set i (c.nodes.getD 0 .makeRoot) ++ c.nodes.tail)
      rw [← lists, List.map_append, List.map_set]
      rfl
    · intro r' mem
      rcases List.mem_append.mp mem with mem | mem
      · rcases List.mem_or_eq_of_mem_set mem with mem | rfl
        · exact ok r' mem
        · exact all _ List.mem_cons_self
      · exact all r' (List.mem_cons_of_mem r mem)

theorem getElem?_erase {l : Leaf V} (at_ : h.erase.leaves[i]? = some l) : ∃ r, h.leaves[i]? = some r ∧ r.l = l := by
  change (h.leaves.map RawLeaf.l)[i]? = some l at at_
  rw [List.getElem?_map] at at_
  exact Option.map_eq_some_iff.mp at_

theorem set_spec (ok : h.Ok y n) {r : RawLeaf V} (ok' : r.Ok y n) (i : Nat) :
    (⟨h.leaves.set i r⟩ : RawHeap V).erase = ⟨h.erase.leaves.set i r.l⟩ ∧ (⟨h.leaves.set i r⟩ : RawHeap V).Ok y n := by
  refine ⟨congrArg Heap.mk List.map_set, fun r' mem => ?_⟩
  rcases List.mem_or_eq_of_mem_set mem with mem | rfl
  · exact ok r' mem
  · exact ok'

/-- A finished cursor with its bags. -/
theorem finish_spec (ok : h.Ok y n) {l : Leaf V} {c : Tcursor V} (open_ : c.Opened l) {ksufs : List Ksufs} (filled : y.Filled n c ksufs)
    (i : Nat) (value : Option V) (prev : Bool) (state : Int) :
    (h.put i ((c.store value).finish prev state) ksufs).erase = h.erase.put i ((c.store value).finish prev state) ∧
      (h.put i ((c.store value).finish prev state) ksufs).Ok y n := by
  have length := Tcursor.length_finish open_ value prev state
  refine put_spec ok ?_ (filled.length.trans length.symm) (fun j m k => Tcursor.finish_ok open_ filled value prev state) i
  rw [length]
  exact Nat.zero_lt_of_lt open_.inside

/-- The leaf that `gc_layer` removes a slot from. -/
theorem removeLayer_ok {r : RawLeaf V} (leaf : r.Ok y n) {ka : Key} {c : Tcursor V} (found : Tcursor.gcLayer r.l ka = some c)
    (prev : Bool) : RawLeaf.Ok y n ⟨c.removeLayer prev, r.ksufs⟩ := by
  obtain ⟨nodes, first⟩ := Tcursor.nodes_gcLayer found
  obtain ⟨-, -, open_⟩ := Tcursor.gcLayer_opened leaf.wf found
  have filled : y.Filled n { c with state := 1 } [r.ksufs] := Tcursor.filled_lock leaf nodes (show (1 : Nat) ≠ 2 by decide)
  have ended := (Tcursor.nodes_finish open_.inside prev (-1)).1
  rw [Tcursor.removeLayer_eq]
  refine Tcursor.finish_ok (i := 0) open_ filled none prev (-1) ?_ rfl
  show (Tcursor.finish { c with state := 1 } prev (-1)).nodes[0]? = _
  rw [ended]
  show (c.nodes.set c.n _)[0]? = _
  rw [first, nodes]
  rfl

/-- An operation that has room does what it does to the leaves alone. -/
theorem step_spec (ok : h.Ok y n) (classed : h.erase.All Slot.Classed) (le : n ≤ 16) {op : Heap.Op V} {fresh : Fresh} {e : Heap V}
    (room : h.Room y n (op, fresh))
    (stepped : h.erase.step op = some e) : ∃ h', h.step y (op, fresh) = some h' ∧ h'.erase = e ∧ h'.Ok y n := by
  cases op with
  | insert i prev next ka value state =>
    obtain ⟨l, at_, ended⟩ := Option.bind_eq_some_iff.mp stepped
    obtain ⟨c, found, rfl⟩ := Option.map_eq_some_iff.mp ended
    obtain ⟨r, at', rfl⟩ := getElem?_erase at_
    have leaf := ok r (List.mem_of_getElem? at')
    obtain ⟨ksufs, made, filled⟩ := LeafLayout.insertKsufs_spec leaf le found (room r at' c found) fresh
    refine ⟨h.put i ((c.store value).finish prev state) ksufs, ?_,
      finish_spec ok (Tcursor.findInsert_opened leaf.wf found) filled i value prev state⟩
    rw [step, at', Option.bind_some, LeafLayout.seen_eq leaf (classed _ (List.mem_of_getElem? at_)), Option.bind_some, found,
      Option.bind_some, made, Option.map_some]
  | locked i prev ka value state =>
    obtain ⟨l, at_, ended⟩ := Option.bind_eq_some_iff.mp stepped
    obtain ⟨c, found, rfl⟩ := Option.map_eq_some_iff.mp ended
    obtain ⟨r, at', rfl⟩ := getElem?_erase at_
    have leaf := ok r (List.mem_of_getElem? at')
    obtain ⟨-, state', rfl, which⟩ := Tcursor.findLocked_cases found
    have filled : y.Filled n _ [r.ksufs] := Tcursor.filled_lock leaf
      (c := ⟨[r.l.lock], 0, ka, (r.l.lower ka).1, (r.l.lower ka).2, state', 0, 0, []⟩) rfl (by
        rcases which with rfl | ⟨rfl, -⟩ <;> exact nofun)
    refine ⟨_, ?_, finish_spec ok (Tcursor.findLocked_opened leaf.wf found) filled i value prev state⟩
    rw [step, at', Option.bind_some, LeafLayout.seen_eq leaf (classed _ (List.mem_of_getElem? at_)), Option.bind_some, found,
      Option.map_some]
  | collect i j prev ka =>
    obtain ⟨l, at_, layered⟩ := Option.bind_eq_some_iff.mp stepped
    obtain ⟨layer, at_layer, located⟩ := Option.bind_eq_some_iff.mp layered
    obtain ⟨c, found, ended⟩ := Option.bind_eq_some_iff.mp located
    obtain ⟨r, at', rfl⟩ := getElem?_erase at_
    obtain ⟨r', at_layer', rfl⟩ := getElem?_erase at_layer
    have leaf := ok r (List.mem_of_getElem? at')
    have leaf' := ok r' (List.mem_of_getElem? at_layer')
    split at ended
    · rename_i empty
      obtain rfl := Option.some.inj ended
      obtain ⟨erased, ok'⟩ := set_spec ok (removeLayer_ok leaf found prev) i
      obtain ⟨erased', ok''⟩ := set_spec ok'
        (show RawLeaf.Ok y n ⟨r'.l.markDeletedLayer, r'.ksufs⟩ from
          ⟨(Leaf.markDeletedLayer_moves leaf'.wf).1, leaf'.sound, leaf'.reads⟩) j
      refine ⟨_, ?_, erased'.trans (by rw [erased]), ok''⟩
      rw [step, at', Option.bind_some, at_layer', Option.bind_some, LeafLayout.seen_eq leaf (classed _ (List.mem_of_getElem? at_)),
        Option.bind_some, found, Option.bind_some,
        if_pos empty]
    · cases ended
  | layerRoot i =>
    obtain ⟨l, at_, rfl⟩ := Option.map_eq_some_iff.mp stepped
    obtain ⟨r, at', rfl⟩ := getElem?_erase at_
    have leaf := ok r (List.mem_of_getElem? at')
    refine ⟨⟨h.leaves.set i ⟨r.l.makeLayerRoot, r.ksufs⟩⟩, by rw [step, at', Option.map_some], ?_⟩
    exact set_spec ok (show RawLeaf.Ok y n ⟨r.l.makeLayerRoot, r.ksufs⟩ from
      ⟨(Leaf.makeLayerRoot_moves leaf.wf).1, leaf.sound, leaf.reads⟩) i

theorem Ok.wf (ok : h.Ok y n) : h.erase.Wf := by
  intro l mem
  obtain ⟨r, present, rfl⟩ := List.mem_map.mp mem
  exact (ok r present).wf

theorem run_spec (ok : h.Ok y n) (classed : h.erase.All Slot.Classed) (le : n ≤ 16) {ops : List (Heap.Op V × Fresh)} {e : Heap V}
    (ran : Steps.run Heap.step h.erase (ops.map Prod.fst) = some e) (room : Steps.Each (step y) (Room y n) h ops) :
    ∃ h', Steps.run (step y) h ops = some h' ∧ h'.erase = e ∧ h'.Ok y n ∧ e.All Slot.Classed := by
  induction ops generalizing h with
  | nil =>
    obtain rfl := Option.some.inj ran
    exact ⟨h, rfl, rfl, ok, classed⟩
  | cons op ops ih =>
    obtain ⟨next, stepped, ran⟩ := Option.bind_eq_some_iff.mp ran
    obtain ⟨h', stepped', rfl, ok'⟩ := step_spec ok classed le room.1 stepped
    have classed' : h'.erase.All Slot.Classed := Heap.step_all classed_kind ok.wf classed (by
      unfold Heap.Op.Of
      split <;> trivial) stepped
    obtain ⟨h'', ran', rest⟩ := ih ok' classed' ran (room.2 h' stepped')
    exact ⟨h'', (Steps.run_cons stepped' ops).trans ran', rest⟩

theorem start_spec (y : LeafLayout) (n : Nat) (mem : Memory) :
    ∃ s : RawHeap V, start y mem = some s ∧ s.erase = Heap.start ∧ s.Ok y n := by
  obtain ⟨k, made, sound⟩ := LeafLayout.make_spec y 0 n mem
  refine ⟨⟨[⟨.makeRoot, k⟩]⟩, by rw [start, made, Option.map_some], rfl, fun r mem_ => ?_⟩
  rw [List.mem_singleton.mp mem_]
  exact ⟨Leaf.wf_makeRoot, sound.mono (Nat.zero_le _), fun p none_ => absurd none_ List.not_mem_nil⟩

/-- What is read of a leaf's suffixes is what was assigned last, and a search sees nothing else. -/
def Faithful (y : LeafLayout) (h : RawHeap V) : Prop :=
  ∀ r ∈ h.leaves, (∀ p ∈ r.l.perm.live, y.ksuf r.l r.ksufs p = (r.l.slot p).suffix) ∧ ∀ ka, y.seen r ka = some r.l

theorem Ok.faithful (ok : h.Ok y n) (classed : h.erase.All Slot.Classed) : h.Faithful y := fun r mem =>
  ⟨fun _ live => (ok r mem).reads.suffix live, fun ka => LeafLayout.seen_eq (ok r mem) (classed r.l (List.mem_map_of_mem mem)) ka⟩

/-! ### Keys of bounded length -/

theorem short_kind (m : Nat) : Slot.Kind (Slot.Short m : Slot V → Prop) (Key.Short m) where
  empty := ⟨classed_kind.empty, nofun⟩
  ofKey ka short := by
    refine ⟨classed_ofKey ka, fun t at_ => ?_⟩
    rw [suffix_ofKey, Key.ksuf] at at_
    split at at_
    · obtain rfl := Option.some.inj at_
      exact short
    · cases at_
  ofLayer oka := ⟨.inr (.inr rfl), nofun⟩
  value s v short := short
  setLayer s short := ⟨.inr (.inr rfl), nofun⟩
  shift ka short := by
    show (ka.suffix.drop 8).length ≤ m
    rw [List.length_drop]
    exact (Nat.sub_le _ _).trans short
  ksuf s ka short other := by
    show (s.ksuf.drop 8).length ≤ m
    rw [List.length_drop]
    refine (Nat.sub_le _ _).trans (short.2 s.ksuf (suffix_eq_some.mpr ⟨hasKsuf_iff.mpr ?_, rfl⟩))
    unfold Slot.ksufMatches at other
    rcases short.1 with few | ksuf | layer
    · rw [if_pos (Nat.lt_of_le_of_lt few (show 8 < ksufKeylenx by decide))] at other
      cases other
    · exact ksuf
    · rw [layer] at other
      cases other

theorem ksufBytes_le {l : Leaf V} {m : Nat} (short : l.All (Slot.Short m)) (ps : List Nat) : l.ksufBytes ps ≤ ps.length * m := by
  induction ps with
  | nil => exact Nat.zero_le _
  | cons p ps ih =>
    rw [ksufBytes_cons, List.length_cons, Nat.succ_mul, Nat.add_comm]
    refine Nat.add_le_add ih ?_
    have here := (short.slot (short_kind m) p).2
    cases suffix : (l.slot p).suffix with
    | none => exact Nat.zero_le m
    | some t => exact here t suffix

/-- A leaf has room for fifteen suffixes of `m` bytes. -/
theorem fits_of_short {r : RawLeaf V} (leaf : r.Ok y n) {m : Nat} (short : r.l.All (Slot.Short m)) {ka : Key} (of : Key.Short m ka)
    (enough : y.external.safeSize width (width * m) ≤ 2 ^ n) {prev next : Bool} {c : Tcursor V}
    (found : Tcursor.findInsert r.l prev next ka = some c) (two : c.state = 2) : y.Fits n c := by
  have open_ := Tcursor.findInsert_opened leaf.wf found
  obtain ⟨all, key⟩ := Tcursor.findInsert_all (short_kind m) short of found
  intro j l node _
  have bytes := ksufBytes_le (all l (List.mem_of_getElem? node)) l.perm.live
  have few : l.ksufBytes l.perm.live + (if j = c.n then c.ka.suffix.length else 0) ≤ width * m := by
    split
    · rename_i here
      have size : l.size < 15 := by
        have room := (open_.room two).1
        rwa [Tcursor.node, List.getD_eq_getElem?_getD, ← here, node] at room
      calc l.ksufBytes l.perm.live + c.ka.suffix.length
        _ ≤ l.size * m + m := Nat.add_le_add bytes key
        _ = (l.size + 1) * m := (Nat.succ_mul ..).symm
        _ ≤ width * m := Nat.mul_le_mul_right m size
    · rename_i away
      exact bytes.trans (Nat.mul_le_mul_right m (open_.others j away l node).perm.size_le)
  rw [LeafLayout.safeSize_external] at enough ⊢
  omega

theorem room_of_short (ok : h.Ok y n) {m : Nat} (short : h.erase.All (Slot.Short m)) {op : Heap.Op V × Fresh}
    (of : op.1.Of (Key.Short m)) (enough : y.external.safeSize width (width * m) ≤ 2 ^ n) (lt : n < 16) : h.Room y n op := by
  obtain ⟨op, fresh⟩ := op
  cases op with
  | insert i prev next ka value state =>
    intro r at_ c found two
    have present := List.mem_of_getElem? at_
    exact ⟨fits_of_short (ok r present) (short r.l (List.mem_map_of_mem present)) of enough found two,
      fun same => absurd same (Nat.ne_of_lt lt)⟩
  | _ => trivial

theorem each_room_of_short (ok : h.Ok y n) {m : Nat} (short : h.erase.All (Slot.Short m)) {ops : List (Heap.Op V × Fresh)} {e : Heap V}
    (of : ∀ op ∈ ops, op.1.Of (Key.Short m)) (enough : y.external.safeSize width (width * m) ≤ 2 ^ n) (lt : n < 16)
    (ran : Steps.run Heap.step h.erase (ops.map Prod.fst) = some e) : Steps.Each (step y) (Room y n) h ops := by
  induction ops generalizing h with
  | nil => trivial
  | cons op ops ih =>
    obtain ⟨next, stepped, ran⟩ := Option.bind_eq_some_iff.mp ran
    have key := of op List.mem_cons_self
    have room := room_of_short ok short key enough lt
    refine ⟨room, fun h' stepped' => ?_⟩
    have classed : h.erase.All Slot.Classed := fun l mem s slot => (short l mem s slot).1
    obtain ⟨h'', same, rfl, ok'⟩ := step_spec ok classed (Nat.le_of_lt lt) room stepped
    obtain rfl := Option.some.inj (stepped'.symm.trans same)
    exact ih ok' (Heap.step_all (short_kind m) ok.wf short key stepped) (fun op mem => of op (List.mem_cons_of_mem _ mem)) ran

/-! ### Main results -/

theorem two_le_slice : 2 ≤ 8 := by decide
theorem slice_lt_int : 8 < 2 ^ 31 := by decide
theorem fiveLines_lt : 320 + 191 < 128 * 64 := by decide

def fiveLines : LeafLayout := ⟨⟨false, true⟩, 8, 320, two_le_slice, slice_lt_int, fiveLines_lt⟩

def twoKeys : List (Heap.Op Unit × Fresh) :=
  [(.insert 0 false false (.ofStr [1, 2, 3, 4, 5, 6, 7, 8, 9, 10, 11]) (some ()) 1, ⟨fun _ _ _ => 0, fun _ _ => 0⟩),
    (.insert 0 false false (.ofStr (List.replicate 200 7)) (some ()) 1, ⟨fun _ _ _ => 0, fun _ _ => 0⟩)]

set_option maxRecDepth 8000 in
theorem twoKeys_run : (Steps.run Heap.step Heap.start (twoKeys.map Prod.fst)).isSome := by decide

theorem twoKeys_short : ∀ op ∈ twoKeys, op.1.Of (Key.Short 247) := by
  rintro op (_ | ⟨_, _ | ⟨_, ⟨⟩⟩⟩)
  · exact show List.length _ ≤ 247 by decide
  · show ((List.replicate 200 7).drop 8).length ≤ 247
    rw [List.length_drop, List.length_replicate]
    decide

/-- A run in which the suffixes fit in their bags never fails, and no suffix is lost. -/
theorem suffixes_kept (y : LeafLayout) {n : Nat} (le : n ≤ 16) (mem : Memory) : ∃ s₀ : RawHeap V, start y mem = some s₀ ∧
    ∀ ops e, Steps.run Heap.step Heap.start (ops.map Prod.fst) = some e → Steps.Each (step y) (Room y n) s₀ ops →
      ∃ s, Steps.run (step y) s₀ ops = some s ∧ s.erase = e ∧ s.Faithful y := by
  obtain ⟨s₀, started, erased, ok⟩ := start_spec (V := V) y n mem
  refine ⟨s₀, started, fun ops e ran room => ?_⟩
  rw [← erased] at ran
  have classed : s₀.erase.All Slot.Classed := erased ▸ Heap.all_start classed_kind
  obtain ⟨s, ran', rfl, ok', classed'⟩ := run_spec ok classed le ran room
  exact ⟨s, ran', rfl, ok'.faithful classed'⟩

/-- A run in which no bag is ever full. -/
theorem suffixes_kept_two : ∃ (s : RawHeap Unit) (e : Heap Unit), Steps.run Heap.step Heap.start (twoKeys.map Prod.fst) = some e ∧
    (start fiveLines fun _ => 0).bind (fun s₀ => Steps.run (step fiveLines) s₀ twoKeys) = some s ∧ s.erase = e ∧
    s.Faithful fiveLines := by
  obtain ⟨e, ran⟩ := Option.isSome_iff_exists.mp twoKeys_run
  obtain ⟨s₀, started, all⟩ := suffixes_kept (V := Unit) (n := 15) fiveLines (by decide) fun _ => 0
  obtain ⟨s₀', started', erased, ok⟩ := start_spec (V := Unit) fiveLines 15 fun _ => 0
  obtain rfl := Option.some.inj (started.symm.trans started')
  have short : s₀.erase.All (Slot.Short 247) := erased ▸ Heap.all_start (short_kind 247)
  have room := each_room_of_short ok short twoKeys_short (by decide) (by decide) (erased ▸ ran)
  obtain ⟨s, ran', rest⟩ := all twoKeys e ran room
  exact ⟨s, e, ran, by rw [started, Option.bind_some, ran'], rest⟩

/-- Where fifteen of the longest suffixes fit in a bag of `2 ^ 15` bytes, no run fails and no suffix is lost. -/
theorem suffixes_kept_of_short (y : LeafLayout) {m : Nat} (enough : y.external.safeSize width (width * m) ≤ 2 ^ 15) (mem : Memory) :
    ∃ s₀ : RawHeap V, start y mem = some s₀ ∧ ∀ ops e, Steps.run Heap.step Heap.start (ops.map Prod.fst) = some e →
      (∀ op ∈ ops, op.1.Of (Key.Short m)) → ∃ s, Steps.run (step y) s₀ ops = some s ∧ s.erase = e ∧ s.Faithful y := by
  obtain ⟨s₀, started, erased, ok⟩ := start_spec (V := V) y 15 mem
  refine ⟨s₀, started, fun ops e ran of => ?_⟩
  rw [← erased] at ran
  have short : s₀.erase.All (Slot.Short m) := erased ▸ Heap.all_start (short_kind m)
  have room := each_room_of_short ok short of enough (by decide) ran
  obtain ⟨s, ran', rfl, ok', classed⟩ := run_spec ok (fun l mem s slot => (short l mem s slot).1) (by decide) ran room
  exact ⟨s, ran', rfl, ok'.faithful classed⟩

/-- Keys of 255 bytes at most. -/
theorem suffixes_kept_of_short_two : ∃ (s : RawHeap Unit) (e : Heap Unit),
    Steps.run Heap.step Heap.start (twoKeys.map Prod.fst) = some e ∧
      (start fiveLines fun _ => 0).bind (fun s₀ => Steps.run (step fiveLines) s₀ twoKeys) = some s ∧ s.erase = e ∧
        s.Faithful fiveLines := by
  obtain ⟨e, ran⟩ := Option.isSome_iff_exists.mp twoKeys_run
  obtain ⟨s₀, started, all⟩ := suffixes_kept_of_short (V := Unit) fiveLines (m := 247) (by decide) fun _ => 0
  obtain ⟨s, ran', rest⟩ := all twoKeys e ran twoKeys_short
  exact ⟨s, e, ran, by rw [started, Option.bind_some, ran'], rest⟩

end RawHeap

end Masstree.Tree
