import Masstree.Tree.NewLayer
import Masstree.Tree.RawTable

/-!
# Runs of tables with bags

What runs without bags have proved holds of every run in which the suffixes have room. Keys of bounded length always have room, and a
suffix of more than `2 ^ 16` bytes never has.
-/

namespace Masstree.Tree
open Msgpack (Bytes)

variable {V : Type}

namespace RawTable

variable {y : LeafLayout} {n : Nat} {P : Slot V → Prop} {K : Key → Prop} {t t' : RawTable V} {key : Bytes}
  {ops : List (Table.Op V × Fresh)}

structure Good (y : LeafLayout) (n : Nat) (t : RawTable V) : Prop where
  fine : t.Fine y n Slot.Classed
  good : t.erase.Good

theorem Good.get_eq (good : t.Good y n) : t.get y = t.erase.get := RawTable.get_eq classed_kind (fun _ => id) good.fine

theorem enabled_of_step {op : Table.Op V × Fresh} (stepped : t.step y op = some t') : op.1.Enabled t.erase := by
  obtain ⟨op, fresh⟩ := op
  cases op with
  | collect i =>
    obtain ⟨at_, there, -⟩ := Option.bind_eq_some_iff.mp stepped
    exact (List.getElem?_eq_some_iff.mp there).1
  | _ => trivial

theorem Good.step (good : t.Good y n) (le : n ≤ 16) {op : Table.Op V × Fresh} (enabled : op.1.Enabled t.erase) (room : t.Room y n op) :
    ∃ t', t.step y op = some t' ∧ t'.Good y n ∧ t.erase.step op.1 = some t'.erase ∧ t'.get y = op.1.apply (t.get y) := by
  obtain ⟨e, stepped, good', contents⟩ := Table.step_spec good.good enabled
  obtain ⟨t', stepped', rfl, fine⟩ := step_spec classed_kind (fun _ => id) good.fine le (fun _ _ => trivial) room stepped
  have after : t'.Good y n := ⟨fine, good'⟩
  exact ⟨t', stepped', after, stepped, by rw [after.get_eq, good.get_eq, contents]⟩

theorem Good.run (good : t.Good y n) (le : n ≤ 16) (ran : Steps.run (RawTable.step y) t ops = some t')
    (room : Steps.Each (RawTable.step y) (Room y n) t ops) : t'.Good y n ∧
    t'.get y = (ops.map Prod.fst).foldl Table.Op.apply (t.get y) := by
  induction ops generalizing t with
  | nil =>
    obtain rfl := Option.some.inj ran
    exact ⟨good, rfl⟩
  | cons op ops ih =>
    obtain ⟨next, stepped, ran⟩ := Option.bind_eq_some_iff.mp ran
    obtain ⟨next', stepped', good', -, contents⟩ := good.step le (enabled_of_step stepped) room.1
    obtain rfl := Option.some.inj (stepped.symm.trans stepped')
    rw [List.map_cons, List.foldl_cons, ← contents]
    exact ih good' ran (room.2 next stepped)

theorem start_good (y : LeafLayout) (n : Nat) (mem : Memory) :
    ∃ s : RawTable V, start y mem = some s ∧ s.Good y n ∧ s.get y = fun _ => none := by
  obtain ⟨s, started, erased, fine⟩ := start_spec (V := V) classed_kind y n mem
  have good : s.Good y n := ⟨fine, erased ▸ Table.start_good⟩
  exact ⟨s, started, good, by rw [good.get_eq, erased, Table.start_get]⟩

/-! ### Keys of bounded length -/

theorem room_of_short {m : Nat} (fine : t.Fine y n (Slot.Short m)) {op : Table.Op V × Fresh}
    (of : ∀ key ∈ op.1.inserted, Key.Short m (.ofStr key)) (enough : y.external.safeSize width (width * m) ≤ 2 ^ n) (lt : n < 16) :
    t.Room y n op := by
  intro key inserted p found c made two
  obtain ⟨place, shifted⟩ := (RawTable.locate_spec (RawHeap.short_kind m) (fun _ short => short.1) fine key).2 p found
  rw [place.seen] at made
  exact ⟨RawHeap.fits_of_short place.fine.ok place.fine.all (shifted (of key inserted)) enough made two,
    fun same => absurd same (Nat.ne_of_lt lt)⟩

theorem each_room_of_short {m : Nat} (fine : t.Fine y n (Slot.Short m))
    (of : ∀ op ∈ ops, ∀ key ∈ op.1.inserted, Key.Short m (.ofStr key)) (enough : y.external.safeSize width (width * m) ≤ 2 ^ n)
    (lt : n < 16) {e : Table V} (ran : Steps.run Table.step t.erase (ops.map Prod.fst) = some e) :
    Steps.Each (step y) (Room y n) t ops := by
  induction ops generalizing t with
  | nil => trivial
  | cons op ops ih =>
    obtain ⟨next, stepped, ran⟩ := Option.bind_eq_some_iff.mp ran
    have key := of op List.mem_cons_self
    have room := room_of_short fine key enough lt
    refine ⟨room, fun t' stepped' => ?_⟩
    obtain ⟨_, same, rfl, fine'⟩ := step_spec (RawHeap.short_kind m) (fun _ short => short.1) fine (Nat.le_of_lt lt) key room stepped
    obtain rfl := Option.some.inj (stepped'.symm.trans same)
    exact ih fine' (fun op mem => of op (List.mem_cons_of_mem _ mem)) ran

/-- What is read of a leaf's suffixes is what was assigned last, and a search sees nothing else. -/
def Faithful (y : LeafLayout) (t : RawTable V) : Prop :=
  ∀ at_ root, t.layers at_ = some root → ∀ r ∈ root.leaves,
    (∀ p ∈ r.l.perm.live, y.ksuf r.l r.ksufs p = (r.l.slot p).suffix) ∧ ∀ ka, y.seen r ka = some r.l

theorem Fine.faithful (classed : ∀ s, P s → s.Classed) (fine : t.Fine y n P) : t.Faithful y := by
  intro at_ root layer r mem
  obtain ⟨ok, all⟩ := (fine at_ root layer).mem mem
  exact ⟨fun p live => ok.reads.suffix live, LeafLayout.seen_eq ok fun s there => classed s (all s there)⟩

/-- A run without bags whose keys are short is one with bags. -/
theorem run_of_short (y : LeafLayout) {m : Nat} (enough : y.external.safeSize width (width * m) ≤ 2 ^ 15) (mem : Memory) {e : Table V}
    (ran : Steps.run Table.step .start (ops.map Prod.fst) = some e)
    (of : ∀ op ∈ ops, ∀ key ∈ op.1.inserted, Key.Short m (.ofStr key)) :
    ∃ s₀ s : RawTable V, start y mem = some s₀ ∧ Steps.run (step y) s₀ ops = some s ∧ Steps.Each (step y) (Room y 15) s₀ ops ∧
      s.erase = e ∧ s.get y = e.get ∧ s.Fine y 15 (Slot.Short m) := by
  have classed : ∀ s : Slot V, Slot.Short m s → s.Classed := fun _ short => short.1
  obtain ⟨s₀, started, erased, fine⟩ := start_spec (V := V) (RawHeap.short_kind m) y 15 mem
  rw [← erased] at ran
  have room := each_room_of_short fine of enough (by decide) ran
  obtain ⟨s, ran', rfl, fine'⟩ := run_spec (RawHeap.short_kind m) classed fine (by decide) of ran room
  exact ⟨s₀, s, started, ran', room, rfl, RawTable.get_eq (RawHeap.short_kind m) classed fine', fine'⟩

/-! ### Keys that are too long -/

/-- The search ends in a leaf that is to have more than `2 ^ 16` bytes of the key. -/
theorem insert_long (kind : Slot.Kind P K) (classed : ∀ s, P s → s.Classed) (fine : t.Fine y n P) {q : Place V}
    (located : t.erase.locate key = some q) {c : Tcursor V} (made : Tcursor.findInsert q.n q.prev q.next q.ka = some c)
    (two : c.state = 2) (long : 2 ^ 16 < c.ka.suffix.length) (short : c.ka.suffix.length < 2 ^ 31) (value : Option V) (fresh : Fresh) :
    t.insert y key value fresh = none := by
  obtain ⟨p, at_, rfl, found, -⟩ := locate_erase kind classed fine located
  rw [show p.erase.prev = p.prev from hasPrev_map RawLeaf.l p.path, show p.erase.next = p.next from hasNext_map RawLeaf.l p.path] at made
  change Tcursor.findInsert p.r.l p.prev p.next p.ka = some c at made
  rw [RawTable.insert, at_, Option.bind_some, found.seen, made, Option.bind_some, LeafLayout.insertKsufs_long made two long short,
    Option.map_none]

/-! ### A table is a map -/

theorem Good.locate (good : t.Good y n) (key : Bytes) : ∃ p, t.locate y key = some p := by
  obtain ⟨j, q, root, lo, hi, bound, found, -⟩ := Table.locate_spec good.good.toOk key
  obtain ⟨p, at_, -⟩ := locate_erase classed_kind (fun _ => id) good.fine found
  exact ⟨p, at_⟩

/-- After any run in which the suffixes have room a search ends and finds what the map of the operations has, and every operation
that can come next and has room ends, does to the contents what it does to the map, and nothing to other keys. -/
theorem refines_map (y : LeafLayout) {n : Nat} (le : n ≤ 16) (mem : Memory) : ∃ s₀ : RawTable V, start y mem = some s₀ ∧
    ∀ ops s, Steps.run (step y) s₀ ops = some s → Steps.Each (step y) (Room y n) s₀ ops →
      (∀ key, (s.locate y key).isSome) ∧ s.get y = (ops.map Prod.fst).foldl Table.Op.apply (fun _ => none) ∧
        ∀ op : Table.Op V × Fresh, op.1.Enabled s.erase → s.Room y n op → ∃ s', s.step y op = some s' ∧
          s'.get y = op.1.apply (s.get y) ∧ ∀ other, op.1.key ≠ some other → s'.get y other = s.get y other := by
  obtain ⟨s₀, started, good₀, empty⟩ := start_good (V := V) y n mem
  refine ⟨s₀, started, fun ops s ran room => ?_⟩
  obtain ⟨good, contents⟩ := good₀.run le ran room
  refine ⟨fun key => Option.isSome_iff_exists.mpr (good.locate key), empty ▸ contents, fun op enabled room => ?_⟩
  obtain ⟨s', stepped, -, -, contents⟩ := good.step le enabled room
  exact ⟨s', stepped, contents, fun other ne => by rw [contents, Table.Op.apply_other ne]⟩

def noMemory : Fresh := ⟨fun _ _ _ => 0, fun _ _ => 0⟩

/-- Two keys with a slice in common, of which one goes, and a key with a suffix for an external bag. -/
def fourOps : List (Table.Op Nat × Fresh) :=
  [(.insert [1, 2, 3, 4, 5, 6, 7, 8, 9] 1, noMemory), (.insert (List.replicate 200 7) 3, noMemory),
    (.insert [1, 2, 3, 4, 5, 6, 7, 8, 0] 2, noMemory), (.remove [1, 2, 3, 4, 5, 6, 7, 8, 9], noMemory)]

set_option maxRecDepth 8000 in
theorem fourOps_run : (Steps.run Table.step .start (fourOps.map Prod.fst)).isSome := by decide

theorem fourOps_short : ∀ op ∈ fourOps, ∀ key ∈ op.1.inserted, Key.Short 247 (.ofStr key) := by
  rintro op (_ | ⟨_, _ | ⟨_, _ | ⟨_, _ | ⟨_, ⟨⟩⟩⟩⟩⟩) key ⟨⟩
  · exact show List.length _ ≤ 247 by decide
  · show ((List.replicate 200 7).drop 8).length ≤ 247
    rw [List.length_drop, List.length_replicate]
    decide
  · exact show List.length _ ≤ 247 by decide

theorem refines_map_four : ∃ s₀ s : RawTable Nat, start RawHeap.fiveLines (fun _ => 0) = some s₀ ∧
    Steps.run (step RawHeap.fiveLines) s₀ fourOps = some s ∧ (∀ key, (s.locate RawHeap.fiveLines key).isSome) ∧
      s.get RawHeap.fiveLines = (fourOps.map Prod.fst).foldl Table.Op.apply (fun _ => none) ∧
        ∃ s', s.step RawHeap.fiveLines (.remove (List.replicate 200 7), noMemory) = some s' ∧
          ∀ other ≠ List.replicate 200 7, s'.get RawHeap.fiveLines other = s.get RawHeap.fiveLines other := by
  obtain ⟨e, ran⟩ := Option.isSome_iff_exists.mp fourOps_run
  obtain ⟨s₀, s, started, ran', room, -⟩ :=
    run_of_short RawHeap.fiveLines (m := 247) (by decide) (fun _ => 0) ran fourOps_short
  obtain ⟨s₀', started', all⟩ := refines_map (V := Nat) RawHeap.fiveLines (n := 15) (by decide) fun _ => 0
  obtain rfl := Option.some.inj (started.symm.trans started')
  obtain ⟨found, contents, next⟩ := all fourOps s ran' room
  obtain ⟨s', stepped, -, others⟩ := next (.remove (List.replicate 200 7), noMemory) trivial (fun key none_ => by cases none_)
  exact ⟨s₀, s, started, ran', found, contents, s', stepped, fun other ne => others other fun same => ne (Option.some.inj same).symm⟩

theorem start_search (key : Bytes) : (.start : Table V).locate key = some ⟨.ofStr key, .makeRoot, []⟩ ∧
    ∃ c, Tcursor.findInsert (.makeRoot : Leaf V) false false (.ofStr key) = some c ∧ c.state = 2 ∧ c.ka = .ofStr key := by
  refine ⟨rfl, ?_⟩
  rw [Tcursor.findInsert_none Leaf.alive_makeRoot.found.1 Leaf.alive_makeRoot.found.2 rfl,
    if_pos ⟨show Permuter.makeEmpty.size < width by decide, .inr (.inl nofun)⟩]
  exact ⟨_, rfl, rfl, rfl⟩

/-- The bag that is to have the suffix of the first key would be too large. -/
theorem refines_map_long : ∃ s₀ : RawTable Nat, start RawHeap.fiveLines (fun _ => 0) = some s₀ ∧
    ∀ fresh, s₀.step RawHeap.fiveLines (.insert (List.replicate 70008 7) 1, fresh) = none := by
  obtain ⟨s₀, started, erased, fine⟩ := start_spec (V := Nat) classed_kind RawHeap.fiveLines 16 fun _ => 0
  obtain ⟨located, c, made, two, key⟩ := start_search (V := Nat) (List.replicate 70008 7)
  have length : c.ka.suffix.length = 70000 := by
    rw [key]
    show ((List.replicate 70008 7).drop 8).length = 70000
    rw [List.length_drop, List.length_replicate]
  refine ⟨s₀, started, fun fresh => ?_⟩
  exact insert_long classed_kind (fun _ => id) fine (erased ▸ located) made two (by omega) (by omega) (some 1) fresh

/-! ### New layers -/

/-- The tables that runs in which the suffixes have room lead to. -/
def Reachable (y : LeafLayout) (n : Nat) (s : RawTable V) : Prop := ∃ mem s₀ ops, start y mem = some s₀ ∧
  Steps.run (step y) s₀ ops = some s ∧ Steps.Each (step y) (Room y n) s₀ ops

theorem Reachable.good {s : RawTable V} (reachable : s.Reachable y n) (le : n ≤ 16) : s.Good y n := by
  obtain ⟨mem, s₀, ops, started, ran, room⟩ := reachable
  obtain ⟨s₀', started', good, -⟩ := start_good (V := V) y n mem
  obtain rfl := Option.some.inj (started.symm.trans started')
  exact (good.run le ran room).1

/-- The two keys are apart after `make_new_layer`, which makes a leaf for each slice that both have and go on after. Where their
suffixes have room, both can be read afterwards. -/
theorem make_new_layer_separates (le : n ≤ 16) {s : RawTable V} (reachable : s.Reachable y n) {p : RawPlace V} {q : Nat}
    (located : s.locate y key = some p) (search : (p.n.lower p.ka).2 = some q) (other : (p.n.slot q).ksufMatches p.ka = .no) :
    ∃ j m old v₀, s.erase.Separates key p.erase q j m old v₀ ∧ ∀ value fresh, s.Room y n (.cancel key, fresh) →
      ∃ s', s.insert y key value fresh = some s' ∧ s.erase.insert key value = some s'.erase ∧ s'.Faithful y ∧
        s'.get y old = some v₀ ∧ s'.get y key = value ∧ ∀ other ≠ key, s'.get y other = s.get y other := by
  have good := reachable.good le
  obtain ⟨same, found⟩ := RawTable.locate_spec classed_kind (fun _ => id) good.fine key
  rw [located, Option.map_some] at same
  rw [(found p located).1.seen] at search other
  obtain ⟨j, m, old, v₀, separates⟩ := Table.new_layer_separates good.good.toOk ⟨same, search, other⟩
  refine ⟨j, m, old, v₀, separates, fun value fresh room => ?_⟩
  obtain ⟨e, inserted, -, -, old_, key_, others⟩ := separates.finish value
  obtain ⟨s', inserted', rfl, fine⟩ : ∃ s', s.insert y key value fresh = some s' ∧ s'.erase = e ∧ s'.Fine y n Slot.Classed :=
    insert_spec classed_kind (fun _ => id) good.fine le trivial (room key rfl) inserted
  have get : s'.get y = s'.erase.get := RawTable.get_eq classed_kind (fun _ => id) fine
  refine ⟨s', inserted', inserted, fine.faithful fun _ => id, ?_⟩
  rw [get, good.get_eq]
  exact ⟨old_, key_, others⟩

theorem reachable_of_one {key : Bytes} {value : Nat} (short : key.length ≤ 255) {e : Table Nat}
    (ran : Steps.run Table.step .start [.insert key value] = some e) :
    ∃ s : RawTable Nat, s.Reachable RawHeap.fiveLines 15 ∧ s.erase = e ∧ s.Fine RawHeap.fiveLines 15 (Slot.Short 247) := by
  let ops : List (Table.Op Nat × Fresh) := [(.insert key value, noMemory)]
  have keys : ∀ op ∈ ops, ∀ key ∈ op.1.inserted, Key.Short 247 (.ofStr key) := by
    intro op mem other inserted
    obtain rfl := List.mem_singleton.mp mem
    obtain rfl := Option.some.inj inserted
    show (key.drop 8).length ≤ 247
    rw [List.length_drop]
    omega
  have ran : Steps.run Table.step .start (ops.map Prod.fst) = some e := ran
  obtain ⟨s₀, s, started, ran', room, same, -, fine⟩ :=
    run_of_short RawHeap.fiveLines (m := 247) (by decide) (fun _ => 0) ran keys
  exact ⟨s, ⟨_, s₀, ops, started, ran', room⟩, same, fine⟩

/-- Two keys with two slices in common. -/
theorem make_new_layer_separates_two : ∃ (s : RawTable Nat) (p : RawPlace Nat) (q : Nat), s.Reachable RawHeap.fiveLines 15 ∧
    s.locate RawHeap.fiveLines [1, 1, 1, 1, 1, 1, 1, 1, 2, 2, 2, 2, 2, 2, 2, 2, 3] = some p ∧
      ∃ j m old v₀, s.erase.Separates [1, 1, 1, 1, 1, 1, 1, 1, 2, 2, 2, 2, 2, 2, 2, 2, 3] p.erase q j m old v₀ ∧
        ∃ s', s.insert RawHeap.fiveLines [1, 1, 1, 1, 1, 1, 1, 1, 2, 2, 2, 2, 2, 2, 2, 2, 3] (some 8) noMemory = some s' ∧
          s'.Faithful RawHeap.fiveLines ∧ s'.get RawHeap.fiveLines old = some v₀ := by
  obtain ⟨e, P, q, ran, found, search, other⟩ := Table.collides_of_match [1, 1, 1, 1, 1, 1, 1, 1, 2, 2, 2, 2, 2, 2, 2, 2, 3]
    [.insert [1, 1, 1, 1, 1, 1, 1, 1, 2, 2, 2, 2, 2, 2, 2, 2, 4] 7] (by decide)
  obtain ⟨s, reachable, rfl, fine⟩ := reachable_of_one (by decide) ran
  obtain ⟨p, located, rfl, place, -⟩ := locate_erase (RawHeap.short_kind 247) (fun _ short => short.1) fine found
  obtain ⟨j, m, old, v₀, separates, all⟩ := make_new_layer_separates (n := 15) (by decide) reachable located
    (by rwa [place.seen]) (by rwa [place.seen])
  obtain ⟨s', inserted, -, faithful, held, -⟩ := all (some 8) noMemory (room_of_short fine (by
    rintro key ⟨⟩
    exact show List.length _ ≤ 247 by decide) (by decide) (by decide))
  exact ⟨s, p, q, reachable, located, j, m, old, v₀, separates, s', inserted, faithful, held⟩

/-- The slice of a key of nine bytes, and as many other bytes as no bag holds. -/
def longKey : Bytes := [1, 1, 1, 1, 1, 1, 1, 1] ++ List.replicate 70000 7

theorem longKey_collides : ∃ (e : Table Nat) (P : Place Nat) (q : Nat) (c : Tcursor Nat),
    Steps.run Table.step .start [.insert [1, 1, 1, 1, 1, 1, 1, 1, 9] 7] = some e ∧ e.Collides longKey P q ∧
      Tcursor.findInsert P.n P.prev P.next P.ka = some c ∧ c.state = 2 ∧ 2 ^ 16 < c.ka.suffix.length ∧
        c.ka.suffix.length < 2 ^ 31 := by
  have slots : ((Steps.run Table.step .start [.insert [1, 1, 1, 1, 1, 1, 1, 1, 9] 7]).bind fun t =>
      (t.layers.slots [] (Key.ofStr [1, 1, 1, 1, 1, 1, 1, 1, 9]).rank).map fun s => (s.keylenx, s.ksuf)) = some (ksufKeylenx, [9]) := by
    decide
  obtain ⟨e, ran, slot⟩ := Option.bind_eq_some_iff.mp slots
  obtain ⟨s, slot, kept⟩ := Option.map_eq_some_iff.mp slot
  obtain ⟨class_, ksuf⟩ := Prod.mk.inj kept
  obtain ⟨good, contents⟩ := Table.run_spec Table.start_good ran
  obtain ⟨j, P, root, lo, hi, bound, found, place⟩ := Table.locate_spec good.toOk longKey
  have length : longKey.length = 70008 := by
    rw [longKey, List.length_append, List.length_replicate]
    rfl
  have rank : (Key.after longKey 0).rank = (Key.ofStr [1, 1, 1, 1, 1, 1, 1, 1, 9]).rank := by
    refine Key.rank_eq_iff.mpr ⟨rfl, ?_⟩
    rw [Key.length_after, length]
    decide
  rw [← rank] at slot
  obtain rfl : j = 0 := by
    by_contra other
    obtain ⟨s', at_, layer⟩ := place.passes 0 (Nat.pos_of_ne_zero other)
    obtain rfl := Option.some.inj (at_.symm.trans slot)
    exact absurd (class_.symm.trans (Slot.ksufMatches_layer_iff.mp layer)) (by decide)
  have here := place.slot good.toOk
  obtain ⟨q, search, rfl⟩ := Option.map_eq_some_iff.mp (here.symm.trans slot)
  have suffix : (Key.after longKey 0).suffix.length = 70000 := by
    show (longKey.drop 8).length = 70000
    rw [List.length_drop, length]
  have other : (P.n.slot q).ksufMatches (Key.after longKey 0) = .no := by
    unfold Slot.ksufMatches
    rw [class_, if_neg (by decide), if_neg (by decide), if_neg]
    intro same
    rw [ksuf] at same
    have lengths := congrArg List.length same
    rw [suffix] at lengths
    exact absurd lengths (by decide)
  rw [← place.ka] at search other
  obtain ⟨j, n, old, v₀, separates⟩ := Table.new_layer_separates good.toOk ⟨found, search, other⟩
  obtain rfl : old = [1, 1, 1, 1, 1, 1, 1, 1, 9] := by
    by_contra ne
    have held := separates.held.1
    rw [contents, Table.start_get] at held
    have held : Function.update (fun _ => none) [1, 1, 1, 1, 1, 1, 1, 1, 9] (some 7) old = some v₀ := held
    rw [Function.update_of_ne ne] at held
    cases held
  obtain rfl : j = 0 := by
    have inside : 8 * (j + 1) < 9 := separates.length.1
    omega
  obtain rfl : n = 0 := Nat.le_zero.mp (separates.slices.trans_le (slicesShared_le _ _))
  obtain ⟨c, last, made, -, -, -, -, -, -, two, key⟩ := separates.made
  have rest : c.ka.suffix.length = 69992 := by
    rw [key]
    show ((longKey.drop 8).drop 8).length = 69992
    rw [List.length_drop, List.length_drop, length]
  exact ⟨e, P, q, c, ran, ⟨found, search, other⟩, made, two, by omega, by omega⟩

/-- The old key may end with a slice that both have: there is no layer for that slice. And the new leaf cannot have a suffix that is
larger than any bag. -/
theorem make_new_layer_fails :
    (∃ (old key : Bytes) (t : Table Nat) (p : Place Nat) (q : Nat) (c : Tcursor Nat),
    Steps.run Table.step .start [.insert old 7] = some t ∧
      t.Collides key p q ∧ Tcursor.findInsert p.n p.prev p.next p.ka = some c ∧ common (old.drop 8) (key.drop 8) / 8 = 1 ∧
        c.nodes.length = 2) ∧
      ∃ (s : RawTable Nat) (p : RawPlace Nat) (q : Nat), s.Reachable RawHeap.fiveLines 15 ∧ s.locate RawHeap.fiveLines longKey = some p ∧
        (p.n.lower p.ka).2 = some q ∧ (p.n.slot q).ksufMatches p.ka = .no ∧
          ∀ value fresh, s.insert RawHeap.fiveLines longKey value fresh = none := by
  refine ⟨Table.new_layer_ends, ?_⟩
  obtain ⟨e, P, q, c, ran, ⟨found, search, other⟩, made, two, long, short⟩ := longKey_collides
  obtain ⟨s, reachable, rfl, fine⟩ := reachable_of_one (by decide) ran
  have classed : ∀ s : Slot Nat, Slot.Short 247 s → s.Classed := fun _ short => short.1
  obtain ⟨p, located, rfl, place, -⟩ := locate_erase (RawHeap.short_kind 247) classed fine found
  refine ⟨s, p, q, reachable, located, ?_, ?_, fun value fresh => ?_⟩
  · rw [place.seen]
    exact search
  · rw [place.seen]
    exact other
  · exact insert_long (RawHeap.short_kind 247) classed fine found made two long short value fresh

end RawTable

end Masstree.Tree
