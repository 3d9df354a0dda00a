import Masstree.Tree.ScanSteps

/-!
# Runs of a scan

What the second loop of `scan` gives out from a place in a layer: the keys of the entries still to come, with those of the layers below,
and then what it gives out once it has left the layer.
-/

namespace Masstree.Tree
open Msgpack (Bytes toNetOrder)
open Positions

variable {V : Type} {h : Host} {t : Table V} {root : Node (Leaf V)} {l : Leaf V} {helper : Helper} {e : Slot V}
  {n lo hi depth : Nat} {c : Scan V} {σ : List (Bytes × Nat)} {A B : List (Slot V)} {rest : List (Bytes × Option V)}

namespace Scan

/-! ### An entry is behind -/

section Complete
variable (complete : c.helper.complete = c.helper) (at_ : LeafAt root c.n l lo hi) (sound : root.Sound)
  (layer : t.layers c.root = some root) (place : c.ka.prefixString = c.root) (rank : c.ka.rank = e.rank)
include complete at_ sound layer place rank

theorem placed_after (inside : c.helper.Inside l.entries.length c.ki)
    (parts : c.helper.order l.entries = A ++ e :: c.helper.todo l.entries c.ki) : c.Placed t root l lo hi ∧
      c.rest root l = c.helper.todo l.entries c.ki ++ c.helper.slots (c.helper.later root.leaves c.n) := by
  have tail := at_.tail_ahead sound parts
  rw [complete, ← rank, List.forall_mem_append] at tail
  exact ⟨⟨at_, layer, place, inside, tail.2⟩, congrArg (· ++ _) (List.filter_eq_self.mpr tail.1)⟩

/-- The scan comes back to the leaf with the key of a layer that it has been through. -/
theorem placed_back (ikey : c.ka.ikey0.toNat = e.ikey0) (parts : c.helper.order l.entries = A ++ e :: B) :
    ∃ c', c.changed t = some c' ∧ c' = { c with ki := c.helper.lower c.ka l, state := .findNext } ∧ c'.Placed t root l lo hi ∧
      c'.rest root l = B ++ c.helper.slots (c.helper.later root.leaves c.n) := by
  have mem : e ∈ l.entries := by
    rw [← c.helper.mem_order, parts]
    exact List.mem_append_right _ List.mem_cons_self
  have tail := at_.tail_ahead sound parts
  have sorted := c.helper.order_ahead at_.holds.sorted
  rw [parts] at sorted
  have ahead := c.helper.filter_ahead sorted
  rw [complete, ← rank] at ahead tail
  have below : c.ka.ikey0.toNat < hi := ikey ▸ (at_.holds.range e mem).2
  obtain ⟨c', changed, same, placed, rest⟩ := changed_spec at_ layer place (at_.stable below c.helper) (List.forall_mem_append.mp tail).2
  rw [parts, ahead] at rest
  exact ⟨c', changed, same, placed, rest⟩

end Complete

/-! ### Layers -/

/-- Nothing is behind a key that `shift_clear` has made. -/
theorem shiftClear_spec (helper : Helper) (k : RawKey) : ∃ helper' k', helper.shiftClear k = (helper', k') ∧
    helper'.complete = helper.complete ∧ k'.prefixString = k.prefixString ++ bytesAt k.mem k.s 8 ∧ k'.ikey0.toNat < top ∧
    (∀ e : Slot V, e.keylenx ≠ 0 → helper'.ahead k'.rank e.rank = true) ∧
    ∀ {root : Node (Leaf V)} {n l lo hi}, LeafAt root n l lo hi → lo ≤ k'.ikey0.toNat → k'.ikey0.toNat < hi →
      helper'.slots (helper'.earlier root.leaves n) = [] := by
  cases helper with
  | forward =>
    refine ⟨_, _, rfl, rfl, k.prefix_shiftClear, show (0#(8 * 8)).toNat < top by decide, fun e some_ => decide_eq_true ?_,
      fun {root n l lo hi} at_ low _ => ?_⟩
    · show 0 < rank e.ikey0 e.keylenx
      unfold rank
      omega
    · refine List.eq_nil_iff_forall_not_mem.mpr fun e mem => ?_
      have less := at_.mem_before e (Helper.mem_slots.mp mem)
      exact Nat.not_lt_zero _ (Nat.lt_of_lt_of_le less low)
  | reverse upperBound =>
    refine ⟨_, _, rfl, rfl, k.prefix_shiftClear, show (BitVec.allOnes (8 * 8)).toNat < top by decide, fun e _ => rfl,
      fun {root n l lo hi} at_ _ high => ?_⟩
    refine List.eq_nil_iff_forall_not_mem.mpr fun e mem => ?_
    obtain ⟨more, small⟩ := at_.mem_after e (Helper.mem_slots_reverse.mp mem)
    have last : 2 ^ 64 - 1 < hi := high
    have bound : e.ikey0 < 2 ^ 64 := small
    omega

/-- A layer that is entered from above has all its entries still to come. -/
theorem enter (h : Host) (complete : c.helper.complete = c.helper) (layer : t.layers c.root = some root) (sound : root.Sound)
    (inner : ∀ e ∈ root.entries, e.keylenx ≠ 0) (place : c.ka.prefixString ++ bytesAt c.ka.mem c.ka.s 8 = c.root)
    (down : c.state = .down) :
    ∃ c' l lo hi, c.step h t = some c' ∧ c'.state = .findNext ∧ c'.root = c.root ∧ c'.nodeStack = c.nodeStack ∧
      c'.helper.complete = c.helper ∧ c'.Placed t root l lo hi ∧ c'.rest root l = c.helper.order root.entries := by
  obtain ⟨helper, ka, cleared, same, prefix_, small, ahead, first⟩ := shiftClear_spec (V := V) c.helper c.ka
  obtain ⟨n, l, lo, hi, reached, at_, low, high⟩ := reachLeaf_at layer sound small
  obtain ⟨inside, passed⟩ := lower_spec at_.holds.sorted ka helper
  have later := at_.later_ahead low high ka.len helper
  have whole : helper.order root.entries = helper.order l.entries ++ helper.slots (helper.later root.leaves n) := by
    rw [helper.order_entries at_.leaf, first at_ low high, List.nil_append]
  refine ⟨{ c with helper, ka, n, ki := helper.lower ka l, state := .findNext }, l, lo, hi, ?_, rfl, rfl, rfl, same.trans complete,
    ⟨at_, layer, prefix_.trans place, inside, later⟩, ?_⟩
  · rw [step, down]
    dsimp only
    rw [cleared]
    dsimp only
    rw [findRetry, reached, Option.bind_some, leaf_eq (c := { c with n }) layer at_.leaf, Option.bind_some]
    dsimp only
    rw [at_.holds.alive.found.1]
    rfl
  · show (helper.todo l.entries (helper.lower ka l)).filter (fun s => helper.ahead ka.rank s.rank) ++ _ = c.helper.order root.entries
    rw [passed, ← c.helper.order_complete, ← same, helper.order_complete, whole]
    refine congrArg (· ++ _) (List.filter_eq_self.mpr fun e mem => ?_)
    exact ahead e (inner e (at_.mem_entries (helper.mem_order.mp mem)))

/-- From the end of a layer the scan goes back to the leaf that it came from. -/
theorem pop_spec (h : Host) {before slice : Bytes} {n : Nat} (stack : c.nodeStack = (before, n) :: σ)
    (place : c.ka.prefixString = before ++ slice) (length : slice.length = 8) :
    ∃ ka, c.pop h c.nodeStack = some { c with ka, root := before, n, nodeStack := σ } ∧ ka.prefixString = before ∧
      ka.ikey0.toNat = makeComparable slice ∧ ka.len = 9 := by
  obtain ⟨prefix_, ikey, len⟩ := c.ka.unshift_spec h place length
  refine ⟨c.ka.unshift h, ?_, prefix_, ikey, len⟩
  have more : (c.ka.unshift h).empty = false := by
    rw [RawKey.empty, len]
    exact decide_eq_false fun both => absurd both.2 (by decide)
  rw [stack, pop, more]
  rfl

theorem meet_layer (h : Host) (c : Scan V) (ki : Int) (ka : RawKey) (isLayer : e.isLayer = true) : (c.meet h e ki ka).state = .down ∧
    (c.meet h e ki ka).root = c.root ++ toNetOrder 8 e.ikey0 ∧ (c.meet h e ki ka).nodeStack = (c.root, c.n) :: c.nodeStack ∧
      (c.meet h e ki ka).helper = c.helper.complete ∧ (c.meet h e ki ka).ka = ka.assignStoreIkey h (BitVec.ofNat _ e.ikey0) := by
  unfold meet
  dsimp only
  rw [if_pos isLayer]
  exact ⟨rfl, rfl, rfl, rfl, rfl⟩

/-! ### What a layer yields -/

theorem unfinished (h : Host) (t : Table V) (state : c.state ≠ .done) : (producer h t).finished c = false := decide_eq_false state

theorem silent (h : Host) (t : Table V) (state : c.state ≠ .emit) : (producer h t).out c = none := if_neg state

theorem step_findNext (h : Host) (t : Table V) (state : c.state = .findNext) : (producer h t).finished c = false ∧
    (producer h t).out c = none ∧ (producer h t).step c = c.findNext h t := by
  refine ⟨unfinished h t (by rw [state]; decide), silent h t (by rw [state]; decide), ?_⟩
  show c.step h t = _
  rw [step, state]

/-- The visitor is called with a key, and the scan goes on behind it. -/
theorem yields_emit (emit : c.state = .emit)
    (yields : (producer h t).Yields { c with ki := c.helper.next c.ki, state := .findNext } rest) :
    (producer h t).Yields c ((c.ka.fullString, c.entry) :: rest) := by
  obtain ⟨more, quiet, next⟩ := step_findNext (c := { c with ki := c.helper.next c.ki, state := .findNext }) h t rfl
  obtain ⟨c', stepped, rest'⟩ := yields.next more quiet
  refine .emit (unfinished h t (by rw [emit]; decide)) (if_pos emit) ?_ rest'
  show c.step h t = _
  rw [step, emit]
  exact next.symm.trans stepped

/-- What the scan gives out once it is at the end of a layer. -/
def Returns (h : Host) (t : Table V) (helper : Helper) (before : Bytes) (σ : List (Bytes × Nat))
    (rest : List (Bytes × Option V)) : Prop :=
  ∀ c : Scan V, c.state = .up → c.nodeStack = σ → c.ka.prefixString = before → c.helper = helper → (producer h t).Yields c rest

/-- At the end of the first layer the scan is done. -/
theorem returns_nil (h : Host) (t : Table V) (helper : Helper) (before : Bytes) : Returns h t helper before [] [] := by
  intro c up stack _ _
  have step : (producer h t).step c = some { c with state := .done } := by
    show c.step h t = _
    rw [Scan.step, up, stack]
    rfl
  exact .silent (unfinished h t (by rw [up]; decide)) (silent h t (by rw [up]; decide)) step (.finished rfl)

/-- What is to be given out for the entries of a layer, with those below. -/
def keysOf (t : Table V) (helper : Helper) (depth : Nat) (before : Bytes) (E : List (Slot V)) : List (Bytes × Option V) :=
  E.flatMap fun e => helper.order (e.keys (t.listing depth) before)

@[simp] theorem keysOf_complete (helper : Helper) (before : Bytes) (E : List (Slot V)) :
    keysOf t helper.complete depth before E = keysOf t helper depth before E := by
  unfold keysOf
  simp only [Helper.order_complete]

theorem order_listing (helper : Helper) {before : Bytes} (layer : t.layers before = some root) (depth : Nat) :
    helper.order (t.listing (depth + 1) before) = keysOf t helper depth before (helper.order root.entries) := by
  rw [Table.listing_succ layer, helper.order_flatMap]
  rfl

def LayerYields (h : Host) (t : Table V) (depth : Nat) : Prop :=
  ∀ (c : Scan V) root l lo hi rest, c.state = .findNext → c.Placed t root l lo hi → t.Deep c.root (depth + 1) →
    Returns h t c.helper.complete c.root c.nodeStack rest → (producer h t).Yields c
    (keysOf t c.helper depth c.root (c.rest root l) ++ rest)

/-- A scan that comes back from below an entry goes on with those after it. -/
theorem returns_cons (sound : root.Sound) (at_ : LeafAt root n l lo hi) {before : Bytes} (layer : t.layers before = some root)
    (helper : Helper) (parts : helper.order l.entries = A ++ e :: B) (isLayer : e.isLayer = true)
    (yields : ∀ c : Scan V, c.state = .findNext → c.root = before → c.n = n → c.nodeStack = σ → c.helper = helper.complete →
      c.Placed t root l lo hi → c.rest root l = B ++ helper.slots (helper.later root.leaves n) → (producer h t).Yields c rest) :
    Returns h t helper.complete (before ++ toNetOrder 8 e.ikey0) ((before, n) :: σ) rest := by
  intro c up stack place same
  have mem : e ∈ l.entries := by
    rw [← helper.mem_order, parts]
    exact List.mem_append_right _ List.mem_cons_self
  have valid := at_.holds.valid e mem
  have whole : makeComparable (toNetOrder 8 e.ikey0) = e.ikey0 := by
    have slice := makeComparable_toNetOrder valid.ikey_lt []
    rwa [List.append_nil] at slice
  obtain ⟨ka, popped, prefix_, ikey, len⟩ := pop_spec h stack place (Msgpack.toNetOrder_length 8 _)
  have rank : ka.rank = e.rank := by
    rw [RawKey.rank, ikey, len, whole, Slot.rank, (Tcursor.isLayer_iff valid).mp isLayer]
    rfl
  have complete : c.helper.complete = c.helper := by rw [same, Helper.complete_complete]
  have order : c.helper.order l.entries = A ++ e :: B := by rw [same, Helper.order_complete, parts]
  obtain ⟨c', changed, new, placed, rest'⟩ := placed_back (c := { c with ka, root := before, n, nodeStack := σ })
    complete at_ sound layer
    prefix_ rank (ikey.trans whole) order
  dsimp only at rest'
  rw [same, Helper.slots_complete, Helper.later_complete] at rest'
  refine .silent (unfinished h t (by rw [up]; decide)) (silent h t (by rw [up]; decide)) ?_
    (yields c' (by rw [new]) (by rw [new]) (by rw [new]) (by rw [new]) (by rw [new]; exact same) placed rest')
  show c.step h t = _
  rw [step, up]
  dsimp only
  rw [popped]
  exact changed

/-- The entry of a layer is met, and then what is in the layer. -/
theorem yields_down (layers : LayerYields h t depth) (ok : t.Ok) (layer : t.layers c.root = some root)
    (complete : c.helper.complete = c.helper) (nonempty : c.root ≠ []) (deep : t.Deep c.root (depth + 1)) (down : c.state = .down)
    (place : c.ka.prefixString ++ bytesAt c.ka.mem c.ka.s 8 = c.root) (returns : Returns h t c.helper c.root c.nodeStack rest) :
    (producer h t).Yields c (c.helper.order (t.listing (depth + 1) c.root) ++ rest) := by
  have sound := ok.sound _ _ layer
  have inner : ∀ e ∈ root.entries, e.keylenx ≠ 0 := by
    intro e mem
    refine ok.inner _ nonempty e.rank e ?_
    rw [Layers.slots_eq layer, find_eq_some sound.sorted]
    exact ⟨mem, rfl⟩
  obtain ⟨c', l, lo, hi, entered, state, root', stack, same, placed, rest'⟩ := enter h complete layer sound inner place down
  rw [← root'] at deep
  have yields := layers c' root l lo hi rest state placed deep (by rwa [same, root', stack])
  rw [rest', root', ← keysOf_complete, same, ← order_listing c.helper layer] at yields
  exact .silent (unfinished h t (by rw [down]; decide)) (silent h t (by rw [down]; decide)) entered yields

theorem layerYields_of_below (ok : t.Ok) (h : Host) (below : ∀ d, depth = d + 1 → LayerYields h t d) : LayerYields h t depth := by
  intro c root l lo hi rest state on deep returns
  have sound := ok.sound _ _ on.layer
  induction size : (c.rest root l).length + (c.helper.later root.leaves c.n).length using Nat.strongRecOn generalizing c l lo hi with
  | ind size ih =>
    subst size
    obtain ⟨more, quiet, step⟩ := step_findNext h t state
    rcases on.findNext sound h with ⟨e, ka, ki, met, mem, place, inside, ⟨A, parts⟩, rest'⟩ |
      ⟨c', l', lo', hi', moved, state', root', stack, same, on', rest', fewer⟩ | ⟨none_, c', ended, up, stack, place, same⟩
    · refine .silent more quiet (step.trans met) ?_
      have valid := on.holds.valid e mem
      -- the entries that are left once this one is behind
      have left : ∀ c' : Scan V, c'.state = .findNext → c'.root = c.root → c'.n = c.n → c'.nodeStack = c.nodeStack →
          c'.helper = c.helper.complete → c'.Placed t root l lo hi →
          c'.rest root l = c.helper.todo l.entries (c.helper.next ki) ++ c.helper.slots (c.helper.later root.leaves c.n) →
          (producer h t).Yields c' (keysOf t c.helper depth c.root
            (c.helper.todo l.entries (c.helper.next ki) ++ c.helper.slots (c.helper.later root.leaves c.n)) ++ rest) := by
        intro c' state' root' n' stack same on' left
        have fewer : (c'.rest root l).length + (c'.helper.later root.leaves c'.n).length <
            (c.rest root l).length + (c.helper.later root.leaves c.n).length := by
          rw [left, same, n', rest', Helper.later_complete, List.length_cons]
          omega
        have yields := ih _ fewer c' l lo hi state' on' (root' ▸ deep) (by rwa [same, root', stack, Helper.complete_complete]) rfl
        rwa [left, same, root', keysOf_complete] at yields
      rw [rest']
      unfold keysOf
      rw [List.flatMap_cons, List.append_assoc]
      by_cases isLayer : e.isLayer = true
      · obtain ⟨root', layer'⟩ := Option.isSome_iff_exists.mp (ok.layer_of_slot on.layer (on.mem_entries mem) isLayer)
        have deep' := deep.of_slot e
        obtain ⟨d, rfl⟩ := deep'.pos layer'
        obtain ⟨down, below', frame, complete, stored⟩ := meet_layer h c ki ka isLayer
        have slice := ka.slice_assignStoreIkey h valid.ikey_lt
        have returns' := returns_cons sound on.toLeafAt on.layer c.helper parts isLayer left
        rw [← below'] at layer' deep' returns'
        rw [← frame, ← complete] at returns'
        have yields := yields_down (below d rfl) ok layer' (by rw [complete, Helper.complete_complete]) ?_ deep' down ?_ returns'
        · rw [Slot.keys, if_pos isLayer, ← below', ← c.helper.order_complete, ← complete]
          exact yields
        · rw [below']
          refine List.append_ne_nil_of_right_ne_nil _ (List.length_pos_iff.mp ?_)
          rw [Msgpack.toNetOrder_length]
          decide
        · rw [below', stored, ka.prefix_assignStoreIkey, place]
          exact congrArg _ slice
      · have isKey := Bool.eq_false_iff.mpr isLayer
        obtain ⟨rank, prefix_, whole⟩ := rebuild_spec valid h ka isKey
        have behind := placed_after (t := t) (A := A) (e := e)
          (c := { c with
            ki := c.helper.complete.next ki, entry := e.lv, helper := c.helper.complete, ka := ka.rebuild h e.bytes
            state := .findNext })
          c.helper.complete_complete on.toLeafAt sound on.layer (prefix_.trans place) rank
        simp only [Helper.inside_complete, Helper.next_complete, Helper.order_complete, Helper.todo_complete, Helper.slots_complete,
          Helper.later_complete] at behind
        obtain ⟨on', rest''⟩ := behind inside parts
        have yields := yields_emit
          (c := { c with ki, entry := e.lv, helper := c.helper.complete, ka := ka.rebuild h e.bytes, state := .emit })
          rfl (left _ rfl rfl rfl rfl rfl (by rw [Helper.next_complete]; exact on') (by rw [Helper.next_complete]; exact rest''))
        rw [place] at whole
        rw [whole] at yields
        rw [Scan.meet, if_neg isLayer, Slot.keys, if_neg isLayer, c.helper.order_singleton]
        exact yields
    · have fewer' : (c'.rest root l').length + (c'.helper.later root.leaves c'.n).length <
          (c.rest root l).length + (c.helper.later root.leaves c.n).length := by
        rw [rest', same]
        omega
      have yields := ih _ fewer' c' l' lo' hi' state' on' (root' ▸ deep) (by rwa [same, root', stack]) rfl
      rw [rest', same, root'] at yields
      exact .silent more quiet (step.trans moved) yields
    · have yields := returns c' up stack place same
      rw [none_]
      exact .silent more quiet (step.trans ended) yields

theorem layerYields (ok : t.Ok) (h : Host) (depth : Nat) : LayerYields h t depth := by
  induction depth with
  | zero => exact layerYields_of_below ok h fun d same => absurd same (Nat.succ_ne_zero d).symm
  | succ depth ih => exact layerYields_of_below ok h fun d same => Nat.succ.inj same ▸ ih

end Scan

end Masstree.Tree
