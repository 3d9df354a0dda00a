import Masstree.Tree.Halves
import Masstree.Tree.RawRuns

/-!
# Splits of leaves with bags

A split divides the entries, and both leaves have the suffixes of theirs where these have room.
-/

namespace Masstree.Tree
open Msgpack (Bytes)

variable {V : Type}

namespace RawLeaf

variable {y : LeafLayout} {n : Nat} {r : RawLeaf V} {c c' : Tcursor V} {ksufs : List Ksufs}

/-- Once the new key is counted, it is read as well. -/
theorem read_finishInsert (filled : y.Filled n c ksufs) (two : c.state = 2) {i : Nat} {m : Leaf V} {k : Ksufs}
    (at_ : c.finishInsert.nodes[i]? = some m) (at' : ksufs[i]? = some k) {p : Nat} (live : p ∈ m.perm.live) :
    y.ksuf m k p = (m.slot p).suffix := by
  change (c.nodes.set c.n { c.node with perm := c.node.perm.insertFromBack c.kxi })[i]? = some m at at_
  by_cases here : c.n = i
  · subst here
    have inside : c.n < c.nodes.length := by
      have inside := (List.getElem?_eq_some_iff.mp at_).1
      rwa [List.length_set] at inside
    rw [List.getElem?_set_self inside] at at_
    obtain rfl := Option.some.inj at_
    have node : c.nodes[c.n]? = some c.node := by
      rw [Tcursor.node, List.getD_eq_getElem _ _ inside]
      exact List.getElem?_eq_getElem inside
    obtain ⟨-, reads⟩ := filled.each c.n c.node k node at'
    rw [Tcursor.positions, if_pos ⟨rfl, two⟩] at reads
    have mem : p ∈ c.node.perm.back :: c.node.perm.live := by
      rcases List.eq_or_mem_of_mem_insertIdx (show p ∈ c.node.perm.live.insertIdx c.kxi c.node.perm.back from live) with rfl | old
      · exact List.mem_cons_self
      · exact List.mem_cons_of_mem _ old
    exact reads.suffix mem
  · rw [List.getElem?_set_ne here] at at_
    obtain ⟨-, reads⟩ := filled.each i m k at_ at'
    rw [Tcursor.positions, if_neg fun both => here both.1.symm] at reads
    exact reads.suffix live

/-- A split of a leaf between operations, which is locked, for a key that it does not have. Where the suffixes have room in the bags of
both leaves, each is read in the leaf that its entry is in. -/
theorem make_split_divides (le : n ≤ 16) (crowded : r.l.Crowded) (mode : r.l.modstate = .insert) (sound : y.Sound n r.ksufs (2 ^ n))
    (reads : y.Reads r.l r.ksufs r.l.perm.live) (nodes : c.nodes = [r.l]) (first : c.n = 0) (two : c.state = 2)
    (search : r.l.lower c.ka = (c.kxi, none)) (prev next : Bool) : ∃ c' mid, c.makeSplit prev next = some c' ∧
      c'.Divides (r.l.entries.insertIdx c.kxi (.ofKey c.ka)) c.ka mid ∧
        (y.Fits n c' → y.Marks n r.ksufs c.ka c' → ∀ fresh, ∃ ksufs,
          y.splitKsufs r.l r.ksufs c.ka c.kxi prev next fresh = some ksufs ∧ ksufs.length = 2 ∧
            ∀ (i : Nat) m k, c'.finishInsert.nodes[i]? = some m → ksufs[i]? = some k →
              ∀ p ∈ m.perm.live, y.ksuf m k p = (m.slot p).suffix) := by
  obtain ⟨c', mid, made, divides⟩ := Tcursor.makeSplit_divides crowded nodes first search prev next
  refine ⟨c', mid, made, divides, fun fits marks fresh => ?_⟩
  have place : c.kxi ≤ r.l.size := by
    have bounds := (r.l.lower_bounds c.ka).1
    rwa [search] at bounds
  have back : r.l.size < width → r.l.perm.back = 0 := by
    intro room
    rcases crowded.full with full | ⟨size, free⟩
    · rw [full] at room
      exact absurd room (by decide)
    · unfold Permuter.back
      have length : r.l.perm.live.length = 14 := size
      rw [Permuter.get_free (by rw [length]; decide) (by rw [length, free]; decide)]
      simp [length, free]
  obtain ⟨ksufs, stored, filled⟩ := LeafLayout.filled_split sound le crowded.perm crowded.slots reads mode nodes first
    two place back made
    fits (sound.marks le marks) fresh
  have state : c'.state = 2 := (Tcursor.makeSplit_state made).trans two
  obtain ⟨left, right, pair, -⟩ := divides.two
  refine ⟨ksufs, stored, filled.length.trans (by rw [pair]; rfl), fun i m k at_ at' p live => ?_⟩
  exact read_finishInsert filled state at_ at' live

/-! ### Two leaves -/

/-- Fifteen keys of ten bytes, and a sixteenth. -/
def tenBytes (i : Nat) : Bytes := i.toUInt8 :: List.replicate 9 7

def fifteenOps : List (Table.Op Nat × Fresh) := (List.range 15).map fun i => (.insert (tenBytes i) i, RawTable.noMemory)

theorem fifteenOps_run : ((Steps.run Table.step .start (fifteenOps.map Prod.fst)).bind fun t => (t.layers []).bind fun root =>
    root.reachLeaf 0 0 []).map (fun found => (found.1.size, found.1.modstate, found.1.lower (.ofStr (tenBytes 15)))) =
      some (15, .insert, (15, none)) := by decide

theorem fifteenOps_short : ∀ op ∈ fifteenOps, ∀ key ∈ op.1.inserted, Key.Short 247 (.ofStr key) := by
  rintro op mem key inserted
  obtain ⟨i, -, rfl⟩ := List.mem_map.mp mem
  obtain rfl := Option.some.inj inserted
  exact show 2 ≤ 247 by decide

/-- A leaf that a run has filled. -/
theorem fifteen_leaf : ∃ r : RawLeaf Nat, r.Fine RawHeap.fiveLines 15 (Slot.Short 247) ∧ r.l.Holds 0 top ∧ r.l.size = 15 ∧
    r.l.modstate = .insert ∧ r.l.lower (.ofStr (tenBytes 15)) = (15, none) := by
  obtain ⟨⟨l, path⟩, reached, facts⟩ := Option.map_eq_some_iff.mp fifteenOps_run
  obtain ⟨e, ran, layer⟩ := Option.bind_eq_some_iff.mp reached
  obtain ⟨root, layer, reached⟩ := Option.bind_eq_some_iff.mp layer
  obtain ⟨s₀, s, -, -, -, rfl, -, fine⟩ := RawTable.run_of_short RawHeap.fiveLines (m := 247) (by decide)
    (fun _ => 0) ran fifteenOps_short
  have sound := (Table.run_spec Table.start_good ran).1.sound [] root layer
  obtain ⟨raw, top_, rfl⟩ := Option.map_eq_some_iff.mp layer
  cases raw with
  | internode p =>
    rw [map_internode] at reached
    cases reached
  | leaf r =>
    rw [map_leaf] at reached sound
    obtain rfl := (Prod.mk.inj (Option.some.inj reached)).1
    obtain ⟨size, rest⟩ := Prod.mk.inj facts
    obtain ⟨mode, search⟩ := Prod.mk.inj rest
    exact ⟨r, all_leaf.mp (fine [] _ top_), (wf_leaf.mp sound).2, size, mode, search⟩

theorem make_split_divides_sixteenth : ∃ (r : RawLeaf Nat) (c c' : Tcursor Nat) (mid : Nat), r.l.size = 15 ∧
    c.ka = .ofStr (tenBytes 15) ∧ c.makeSplit false false = some c' ∧ c'.Divides (r.l.entries.insertIdx 15 (.ofKey c.ka)) c.ka mid ∧
      ∃ ksufs, RawHeap.fiveLines.splitKsufs r.l r.ksufs c.ka 15 false false RawTable.noMemory = some ksufs ∧
        ∀ (i : Nat) m k, c'.finishInsert.nodes[i]? = some m → ksufs[i]? = some k →
          ∀ p ∈ m.perm.live, RawHeap.fiveLines.ksuf m k p = (m.slot p).suffix := by
  obtain ⟨r, ⟨ok, short⟩, holds, size, mode, search⟩ := fifteen_leaf
  have start := Tcursor.started r.l
  have locked : r.l.lock.startInsert.modstate = .insert := by
    unfold Leaf.startInsert
    split
    · rfl
    · exact mode
  have size' : r.l.lock.startInsert.size = 15 := by rw [Leaf.size, start.perm, ← Leaf.size, size]
  have search' : r.l.lock.startInsert.lower (.ofStr (tenBytes 15)) = (15, none) := by
    unfold Leaf.lower Leaf.size Leaf.slot at search ⊢
    rw [start.perm, start.slots, search]
  have crowded : r.l.lock.startInsert.Crowded := by
    refine ⟨start.perm ▸ ok.wf.perm, start.slots ▸ ok.wf.slots, ?_, .inl size'⟩
    rw [Leaf.entries_startInsert]
    exact holds.sorted
  let c : Tcursor Nat := { Tcursor.absent r.l (.ofStr (tenBytes 15)) with nodes := [r.l.lock.startInsert] }
  have place : c.kxi = 15 := congrArg Prod.fst search
  obtain ⟨c', mid, made, divides, all⟩ := make_split_divides (y := RawHeap.fiveLines) (n := 15)
    (r := ⟨r.l.lock.startInsert, r.ksufs⟩) (c := c)
    (by decide) crowded locked ok.sound (ok.reads.subset (fun p mem => start.perm ▸ mem) start.slots) rfl rfl rfl
    (by rw [place]; exact search') false false
  have found : Tcursor.findInsert r.l false false (.ofStr (tenBytes 15)) = some c' := by
    rw [Tcursor.findInsert_none holds.alive.found.1 holds.alive.found.2 (congrArg Prod.snd search), if_neg, made]
    rw [size']
    exact fun room => absurd room.1 (by decide)
  have fits := RawHeap.fits_of_short ok short (show Key.Short 247 (.ofStr (tenBytes 15)) from show 2 ≤ 247 by decide)
    (by decide) found
    (Tcursor.makeSplit_state made)
  obtain ⟨ksufs, stored, -, read⟩ := all fits (fun same => absurd same (by decide)) RawTable.noMemory
  rw [place] at divides stored
  exact ⟨⟨r.l.lock.startInsert, r.ksufs⟩, c, c', mid, size', rfl, made, divides, ksufs, stored, read⟩

def crowdedLeaf : Leaf Unit where
  perm := .makeSorted 15
  slots := (List.range 15).map fun i => { (Slot.ofKey (.ofStr [i.toUInt8]) : Slot Unit) with lv := some () }

theorem crowdedLeaf_sorted : Increasing crowdedLeaf.entries := by
  unfold Increasing
  decide

theorem crowdedLeaf_lower {ka : Key} (above : ∀ s ∈ crowdedLeaf.entries, s.rank < ka.rank) :
    ∃ i, i ≤ crowdedLeaf.size ∧ crowdedLeaf.lower ka = (i, none) := by
  rcases Leaf.lower_cases crowdedLeaf_sorted ka with ⟨i, lt, -, same⟩ | ⟨i, le, search, -⟩
  · exact absurd same (Nat.ne_of_lt (above _ (List.mem_of_getElem? (Leaf.getElem?_entries lt))))
  · exact ⟨i, le, search⟩

/-- The key that comes in has a suffix that is larger than any bag. -/
theorem make_split_fails : ∃ (k : Ksufs) (c : Tcursor Unit), RawHeap.fiveLines.make 0 (fun _ => 0) = some k ∧ crowdedLeaf.Crowded ∧
    c.nodes = [crowdedLeaf] ∧ c.ka = .ofStr (List.replicate 70008 200) ∧ crowdedLeaf.lower c.ka = (c.kxi, none) ∧
      ∀ prev next fresh, RawHeap.fiveLines.splitKsufs crowdedLeaf k c.ka c.kxi prev next fresh = none := by
  obtain ⟨k, made, -⟩ := LeafLayout.make_spec RawHeap.fiveLines 0 15 fun _ => 0
  have crowded : crowdedLeaf.Crowded := ⟨Permuter.wf_makeSorted (by decide), rfl, crowdedLeaf_sorted, .inl rfl⟩
  have above : ∀ s ∈ crowdedLeaf.entries, s.rank < (Key.ofStr (List.replicate 9 200)).rank := by decide
  have rank : (Key.ofStr (List.replicate 70008 200)).rank = (Key.ofStr (List.replicate 9 200)).rank := by
    refine Key.rank_eq_iff.mpr ⟨?_, ?_⟩
    · rw [Key.ofStr, Key.ofStr, List.take_replicate, List.take_replicate]
      rfl
    · rw [Key.length, Key.length, Key.ofStr, Key.ofStr, List.length_replicate, List.length_replicate]
      rfl
  have suffix : (Key.ofStr (List.replicate 70008 200)).suffix.length = 70000 := by
    show ((List.replicate 70008 200).drop 8).length = 70000
    rw [List.length_drop, List.length_replicate]
  have long : 2 ^ 16 < (Key.ofStr (List.replicate 70008 200)).suffix.length := suffix ▸ show 2 ^ 16 < 70000 by decide
  have short : (Key.ofStr (List.replicate 70008 200)).suffix.length < 2 ^ 31 := suffix ▸ show 70000 < 2 ^ 31 by decide
  obtain ⟨i, le, search⟩ := crowdedLeaf_lower fun s mem => (above s mem).trans_eq rank.symm
  refine ⟨k, ⟨[crowdedLeaf], 0, .ofStr (List.replicate 70008 200), i, none, 2, 0, 0, []⟩, made, crowded, rfl, rfl, search, ?_⟩
  exact fun prev next fresh => LeafLayout.splitKsufs_long long short le k prev next fresh

end RawLeaf

end Masstree.Tree
