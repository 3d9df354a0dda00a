import Masstree.Lib.Steps
import Masstree.Tree.Collected

/-!
# Runs of a table

From an empty table on, a search finds what the operations have stored, whichever callbacks run in between. No leaf of these runs
has a suffix bag (see `suffixes_kept_of_short`).
-/

namespace Masstree.Tree
open Msgpack (Bytes)

variable {V : Type}

/-! ### The map -/

namespace Table.Op

/-- What the operation does to the map of keys and values. -/
def apply (m : Bytes → Option V) : Op V → Bytes → Option V
  | .insert key value => Function.update m key (some value)
  | .cancel _ => m
  | .remove key => Function.update m key none
  | .collect _ => m

def key : Op V → Option Bytes
  | .insert key _ => some key
  | .cancel key => some key
  | .remove key => some key
  | .collect _ => none

theorem apply_other {m : Bytes → Option V} {op : Op V} {other : Bytes} (ne : op.key ≠ some other) :
    op.apply m other = m other := by
  have apart : ∀ {key : Bytes}, some key ≠ some other → other ≠ key := fun ne same => ne (congrArg some same.symm)
  cases op with
  | insert key value => exact Function.update_of_ne (apart ne) _ _
  | cancel key => rfl
  | remove key => exact Function.update_of_ne (apart ne) _ _
  | collect i => rfl

/-- What is in the map has been there or was inserted. -/
theorem inserted_of_apply {ops : List (Op V)} {m : Bytes → Option V} {key : Bytes} {v : V}
    (found : ops.foldl apply m key = some v) : m key = some v ∨ ∃ op ∈ ops, op.inserted = some key := by
  induction ops generalizing m with
  | nil => exact .inl found
  | cons op ops ih =>
    rcases ih found with there | ⟨op', mem, inserted⟩
    · cases op with
      | insert key' value =>
        by_cases same : key = key'
        · exact .inr ⟨_, List.mem_cons_self, congrArg some same.symm⟩
        · exact .inl (by rwa [apply, Function.update_of_ne same] at there)
      | cancel key' => exact .inl there
      | remove key' =>
        by_cases same : key = key'
        · rw [apply, same, Function.update_self] at there
          cases there
        · exact .inl (by rwa [apply, Function.update_of_ne same] at there)
      | collect i => exact .inl there
    · exact .inr ⟨op', List.mem_cons_of_mem _ mem, inserted⟩

/-- A callback that runs has been registered. -/
def Enabled (t : Table V) : Op V → Prop
  | .collect i => i < t.callbacks.length
  | _ => True

end Table.Op

namespace Table

variable {t t' : Table V} {key at_ : Bytes} {p : Place V} {j lo hi bound : Nat} {root : Node (Leaf V)} {l : Leaf V}

/-! ### Callbacks -/

/-- Every registered callback is for a layer below the top. -/
def Registers (t : Table V) : Prop := ∀ at_ ∈ t.callbacks, at_ ≠ [] ∧ 8 ∣ at_.length

theorem put_callbacks (t : Table V) (p : Place V) (splitType : Nat) (nodes : List (Leaf V)) :
    (t.put p splitType nodes).callbacks = t.callbacks := by
  rcases nodes with _ | ⟨l, _ | ⟨right, twig⟩⟩
  · rfl
  · rfl
  · rw [put]
    split <;> rfl

theorem insert_callbacks {value : Option V} (inserted : t.insert key value = some t') : t'.callbacks = t.callbacks := by
  obtain ⟨p, -, inserted⟩ := Option.bind_eq_some_iff.mp inserted
  obtain ⟨c, -, rfl⟩ := Option.map_eq_some_iff.mp inserted
  exact put_callbacks _ _ _ _

theorem settle_callbacks (settled : t.settle p l = some t') :
    t'.callbacks = t.callbacks ∨ p.ka.prefixString ≠ [] ∧ t'.callbacks = t.callbacks ++ [p.ka.prefixString] := by
  rw [settle] at settled
  split at settled
  · obtain rfl := Option.some.inj settled
    exact .inl rfl
  · split at settled
    · obtain ⟨root, -, rfl⟩ := Option.map_eq_some_iff.mp settled
      exact .inl rfl
    · obtain rfl := Option.some.inj settled
      by_cases register : ¬p.next ∧ p.ka.prefixString ≠ []
      · exact .inr ⟨register.2, if_pos register⟩
      · exact .inl (if_neg register)

theorem Registers.settle (registers : t.Registers) (aligned : 8 ∣ p.ka.prefixString.length) (settled : t.settle p l = some t') :
    t'.Registers := by
  rcases settle_callbacks settled with same | ⟨below, more⟩
  · intro at_ mem
    exact registers at_ (same ▸ mem)
  · intro at_ mem
    rw [more, List.mem_append, List.mem_singleton] at mem
    rcases mem with old | rfl
    · exact registers at_ old
    · exact ⟨below, aligned⟩

theorem locate_aligned (ok : t.Ok) (found : t.locate key = some p) : 8 ∣ p.ka.prefixString.length := by
  obtain ⟨root, layer, -⟩ := Layers.locate_at found
  exact ok.aligned _ (Option.isSome_iff_exists.mpr ⟨root, layer⟩)

theorem remove_registers (ok : t.Ok) (registers : t.Registers) (removed : t.remove key = some t') : t'.Registers := by
  obtain ⟨p, found, removed⟩ := Option.bind_eq_some_iff.mp removed
  obtain ⟨c, -, removed⟩ := Option.bind_eq_some_iff.mp removed
  split at removed
  · exact Registers.settle (t := t.arrive p) registers (locate_aligned ok found) removed
  · obtain rfl := Option.some.inj removed
    exact registers

theorem gcLayer_registers (ok : t.Ok) (registers : t.Registers) (collected : t.gcLayer at_ = some t') : t'.Registers := by
  obtain ⟨p, found, collected⟩ := Option.bind_eq_some_iff.mp collected
  dsimp only at collected
  split at collected
  · obtain rfl := Option.some.inj collected
    exact registers
  · obtain ⟨root, -, collected⟩ := Option.bind_eq_some_iff.mp collected
    obtain ⟨root', -, collected⟩ := Option.bind_eq_some_iff.mp collected
    split at collected
    · split at collected
      · refine Registers.settle ?_ (locate_aligned ok found) collected
        exact registers
      · obtain rfl := Option.some.inj collected
        exact registers
    · obtain rfl := Option.some.inj collected
      exact registers

/-! ### Steps -/

structure Good (t : Table V) : Prop extends t.Ok where
  registers : t.Registers

theorem start_good : (start : Table V).Good := by
  have top : ∀ {at_ : Bytes} {root : Node (Leaf V)}, (start : Table V).layers at_ = some root → at_ = [] ∧ root = .leaf .makeRoot := by
    intro at_ root layer
    change (if at_ = [] then some (Node.leaf Leaf.makeRoot) else none) = some root at layer
    split at layer
    · rename_i same
      exact ⟨same, (Option.some.inj layer).symm⟩
    · cases layer
  refine ⟨⟨?_, rfl, ?_, ?_, ?_, ?_⟩, ?_⟩
  · intro at_ root layer
    rw [(top layer).2]
    exact sound_leaf (Leaf.holds_makeRoot _)
  · intro key j more
    refine iff_of_false ?_ ?_
    · intro some_
      obtain ⟨root, layer⟩ := Option.isSome_iff_exists.mp some_
      have length := congrArg List.length (top layer).1
      rw [List.length_take, List.length_nil] at length
      omega
    · rintro ⟨s, found, -⟩
      obtain ⟨root, layer, found⟩ := Option.bind_eq_some_iff.mp found
      rw [(top layer).2, entries_leaf] at found
      cases found
  · intro at_ some_
    obtain ⟨root, layer⟩ := Option.isSome_iff_exists.mp some_
    rw [(top layer).1]
    exact Nat.dvd_zero 8
  · intro at_ below r s found
    obtain ⟨root, layer, -⟩ := Option.bind_eq_some_iff.mp found
    exact absurd (top layer).1 below
  · refine (Set.finite_singleton ([] : Bytes)).subset ?_
    intro at_ some_
    obtain ⟨root, layer⟩ := Option.isSome_iff_exists.mp some_
    exact (top layer).1
  · intro at_ mem
    cases mem

theorem start_get : (start : Table V).get = fun _ => none := by
  rw [get_eq start_good.toOk]
  funext key
  exact Contents.look_none rfl _

/-- An operation ends, and does to the contents what it does to the map. -/
theorem step_spec (good : t.Good) {op : Op V} (enabled : op.Enabled t) :
    ∃ t', t.step op = some t' ∧ t'.Good ∧ t'.get = op.apply t.get := by
  cases op with
  | insert key value =>
    obtain ⟨t', inserted, ok, contents, -⟩ := insert_spec good.toOk key (some value)
    refine ⟨t', inserted, ⟨ok, ?_⟩, by rw [get_eq ok, get_eq good.toOk, contents]; rfl⟩
    rw [Registers, insert_callbacks inserted]
    exact good.registers
  | cancel key =>
    obtain ⟨t', inserted, ok, contents, -⟩ := insert_spec good.toOk key none
    refine ⟨t', inserted, ⟨ok, ?_⟩, by rw [get_eq ok, get_eq good.toOk, contents]; rfl⟩
    rw [Registers, insert_callbacks inserted]
    exact good.registers
  | remove key =>
    obtain ⟨t', removed, ok, contents⟩ := remove_spec good.toOk key
    exact ⟨t', removed, ⟨ok, remove_registers good.toOk good.registers removed⟩, by
      rw [get_eq ok, get_eq good.toOk, contents]; rfl⟩
  | collect i =>
    have at_ := List.getElem?_eq_getElem (show i < t.callbacks.length from enabled)
    obtain ⟨below, aligned⟩ := good.registers _ (List.mem_of_getElem? at_)
    have ok : Ok { t with callbacks := t.callbacks.eraseIdx i } :=
      ⟨good.sound, good.top, good.linked, good.aligned, good.inner, good.finite⟩
    obtain ⟨t', collected, ok', collects⟩ := gcLayer_spec ok aligned below
    refine ⟨t', ?_, ⟨ok', ?_⟩, ?_⟩
    · rw [step, at_]
      exact collected
    · refine gcLayer_registers ok ?_ collected
      intro at' mem
      exact good.registers at' (List.mem_of_mem_eraseIdx mem)
    · rw [get_eq ok', collects.get ok, get_eq good.toOk]
      rfl

theorem enabled_of_step {op : Op V} (stepped : t.step op = some t') : op.Enabled t := by
  cases op with
  | collect i =>
    obtain ⟨at_, there, -⟩ := Option.bind_eq_some_iff.mp stepped
    exact (List.getElem?_eq_some_iff.mp there).1
  | _ => trivial

theorem run_spec (good : t.Good) {ops : List (Op V)} (ran : Steps.run step t ops = some t') :
    t'.Good ∧ t'.get = ops.foldl Op.apply t.get := by
  induction ops generalizing t with
  | nil =>
    obtain rfl := Option.some.inj ran
    exact ⟨good, rfl⟩
  | cons op ops ih =>
    obtain ⟨next, stepped, ran⟩ := Option.bind_eq_some_iff.mp ran
    obtain ⟨next', stepped', good', contents⟩ := step_spec good (enabled_of_step stepped)
    obtain rfl := Option.some.inj (stepped.symm.trans stepped')
    rw [List.foldl_cons, ← contents]
    exact ih good' ran

theorem Reachable.good (reachable : t.Reachable) : t.Good := by
  obtain ⟨ops, ran⟩ := reachable
  exact (run_spec start_good ran).1

/-! ### Collections -/

/-- Below a layer without slots there is no layer. -/
theorem Ok.none_below (ok : t.Ok) (layer : t.layers at_ = some root) (empty : root.entries = []) {below : Bytes}
    (before : at_ <+: below) (ne : below ≠ at_) : t.layers below = none := by
  by_contra there
  obtain ⟨a, aligned⟩ := ok.aligned at_ (Option.isSome_iff_exists.mpr ⟨root, layer⟩)
  obtain ⟨b, aligned'⟩ := ok.aligned below (Option.isSome_iff_ne_none.mpr there)
  have le := before.length_le
  have lt : at_.length ≠ below.length := fun same => ne (before.eq_of_length same).symm
  obtain ⟨n, rfl⟩ : ∃ n, b = a + n + 1 := ⟨b - a - 1, by omega⟩
  have here : (below ++ [0]).take (8 * a) = at_ := by
    rw [← aligned, List.take_append_of_le_length le]
    exact (List.prefix_iff_eq_take.mp before).symm
  have inside : 8 * (a + n + 1) < (below ++ [0]).length := by
    rw [List.length_append, List.length_singleton, aligned']
    exact Nat.lt_succ_self _
  have missing : t.layers ((below ++ [0]).take (8 * (a + n + 1))) = none := missing_below ok inside (by
    intro s found
    rw [here, Layers.slots_eq layer, empty] at found
    cases found)
  rw [← aligned', List.take_left] at missing
  exact there missing

/-- A layer without slots has no key. -/
theorem Ok.get_none (ok : t.Ok) (layer : t.layers at_ = some root) (empty : root.entries = []) (before : at_ <+: key)
    (ne : key ≠ at_) : t.get key = none := by
  obtain ⟨a, aligned⟩ := ok.aligned at_ (Option.isSome_iff_exists.mpr ⟨root, layer⟩)
  have here : key.take (8 * a) = at_ := by
    rw [← aligned]
    exact (List.prefix_iff_eq_take.mp before).symm
  have lt : 8 * a < key.length := by
    rw [← aligned]
    exact Nat.lt_of_le_of_ne before.length_le fun same => ne (before.eq_of_length same).symm
  have none_ : t.layers.slots (key.take (8 * a)) (Key.after key a).rank = none := by
    rw [here, Layers.slots_eq layer, empty, List.find?_nil]
  obtain ⟨j, p, root', lo, hi, bound, found, place⟩ := locate_spec ok key
  rw [get_eq ok]
  rcases Nat.lt_trichotomy j a with less | rfl | more
  · -- the search goes on where it ends
    obtain ⟨n, rfl⟩ : ∃ n, a = j + n + 1 := ⟨a - j - 1, by omega⟩
    by_contra
    have missing := missing_below (n := n) ok lt (fun s at' layer' => by
      have slot := place.slot ok
      have ends := place.ends
      cases search : (p.n.lower (.after key j)).2 with
      | none =>
        rw [search, at'] at slot
        cases slot
      | some q =>
        rw [search, at', Option.map_some, Option.some.injEq] at slot
        rw [Leaf.leadsOn, search, Option.any_some, ← slot, Slot.ksufMatches_layer_iff.mpr layer', decide_eq_false_iff_not] at ends
        exact ends rfl)
    rw [here, layer] at missing
    cases missing
  · rw [Contents.get_of_passes place.passes place.le]
    exact Contents.look_none none_ _
  · obtain ⟨s, some_, -⟩ := place.passes a more
    rw [none_] at some_
    cases some_

/-- A leaf where a search ends is in the tree of its layer and is not deleted. -/
def Live (t : Table V) (p : Place V) : Prop :=
  ∃ root, t.layers p.ka.prefixString = some root ∧ plug (.leaf p.n) p.path = root ∧ p.n.deleted = false ∧ p.n.deletedLayer = false

theorem locate_live (ok : t.Ok) (key : Bytes) : ∃ p, t.locate key = some p ∧ t.Live p := by
  obtain ⟨j, p, root, lo, hi, bound, found, place⟩ := locate_spec ok key
  obtain ⟨alive, live⟩ := place.holds.alive.found
  exact ⟨p, found, root, by rw [prefixString_at place, place.layer], place.plugged, alive, live⟩

/-- What a collection of the layer does to a table, and what later searches find. -/
structure Invisible (t t' : Table V) (at_ : Bytes) : Prop where
  map : t'.get = t.get
  gone : ∀ at', (t.layers at').isSome → t'.layers at' = none → at' = at_ ∧
    (∀ key, at_ <+: key → key ≠ at_ → t.get key = none) ∧ ∀ below, at_ <+: below → below ≠ at_ → t.layers below = none
  made : ∀ at', (t'.layers at').isSome → (t.layers at').isSome
  slot : ∀ key j, 8 * (j + 1) < key.length → (t.layers (key.take (8 * (j + 1)))).isSome →
    (t'.layers.slots (key.take (8 * j)) (Key.after key j).rank = none ↔ t'.layers (key.take (8 * (j + 1))) = none)
  others : ∀ at' r, t'.layers.slots at' r ≠ t.layers.slots at' r →
    ∃ key j, 8 * (j + 1) < key.length ∧ key.take (8 * (j + 1)) = at_ ∧ at' = key.take (8 * j) ∧ r = (Key.after key j).rank
  live : ∀ ops t'', Steps.run step t' ops = some t'' → ∀ key, ∃ p, t''.locate key = some p ∧ t''.Live p

theorem Collects.invisible {t' : Table V} (ok : t.Ok) (good : t'.Good) (collects : t.Collects t' at_) : t.Invisible t' at_ where
  map := by rw [get_eq good.toOk, get_eq ok, collects.get ok]
  gone := by
    intro at' there gone
    cases collects with
    | kept _ layers _ _ _ =>
      rw [← layers, gone] at there
      cases there
    | gone more same layer empty here elsewhere slot slots _ _ =>
      by_cases this : at' = at_
      · exact ⟨this, fun key before ne => ok.get_none layer empty before ne, fun below before ne => ok.none_below layer empty before ne⟩
      · rw [← elsewhere at' this, gone] at there
        cases there
  made := by
    intro at' there
    cases collects with
    | kept _ layers _ _ _ => exact (layers at').mp there
    | gone more same layer empty here elsewhere slot slots _ _ =>
      by_cases this : at' = at_
      · rw [this, here] at there
        cases there
      · exact (elsewhere at' this).mp there
  slot := by
    intro key j more there
    constructor
    · intro none_
      by_contra there'
      obtain ⟨s, some_, -⟩ := (good.linked key j more).mp (Option.isSome_iff_ne_none.mpr there')
      rw [none_] at some_
      cases some_
    · intro gone
      cases collects with
      | kept _ layers _ _ _ =>
        rw [← layers, gone] at there
        cases there
      | @gone _ _ key' j' _ _ _ _ _ _ _ more' same layer empty here elsewhere slot slots _ _ =>
        by_cases this : key.take (8 * (j + 1)) = at_
        · have lengths := congrArg List.length (this.trans same)
          rw [List.length_take, List.length_take] at lengths
          obtain rfl : j = j' := by omega
          obtain ⟨before, rank⟩ := Key.rank_after more' more (this.trans same)
          rw [slots, before, rank, Contents.set_same]
        · rw [← elsewhere _ this, gone] at there
          cases there
  others := by
    intro at' r ne
    cases collects with
    | kept slots _ _ _ _ => exact absurd (by rw [slots]) ne
    | @gone _ _ key j _ _ _ _ _ _ _ more same layer empty here elsewhere slot slots _ _ =>
      rw [slots] at ne
      by_cases this : at' = key.take (8 * j) ∧ r = (Key.after key j).rank
      · exact ⟨key, j, more, same.symm, this.1, this.2⟩
      · exact absurd (Contents.set_other _ _ this) ne
  live := fun ops t'' ran key => locate_live (run_spec good ran).1.toOk key

/-- A registered callback, whenever it runs, collects its layer only if there is nothing in it. -/
theorem collect_invisible (reachable : t.Reachable) {i : Nat} (pending : t.callbacks[i]? = some at_) :
    ∃ t', t.step (.collect i) = some t' ∧ t.Invisible t' at_ := by
  have good := reachable.good
  have enabled : i < t.callbacks.length := (List.getElem?_eq_some_iff.mp pending).1
  obtain ⟨below, aligned⟩ := good.registers _ (List.mem_of_getElem? pending)
  have ok : Ok { t with callbacks := t.callbacks.eraseIdx i } :=
    ⟨good.sound, good.top, good.linked, good.aligned, good.inner, good.finite⟩
  obtain ⟨t', collected, ok', collects⟩ := gcLayer_spec ok aligned below
  have stepped : t.step (.collect i) = some t' := by
    rw [step, pending]
    exact collected
  obtain ⟨next, stepped', good', -⟩ := step_spec good (show (Op.collect i).Enabled t from enabled)
  obtain rfl := Option.some.inj (stepped.symm.trans stepped')
  obtain ⟨map, gone, made, slot, others, live⟩ := collects.invisible ok good'
  exact ⟨t', stepped, map, gone, made, slot, others, live⟩

/-- Two keys come and go, and the layer that they had after their first slice waits for its collection. -/
theorem collect_invisible_two : ∃ (t t' : Table Nat) (at_ : Bytes), t.callbacks[0]? = some at_ ∧ at_ = [1, 2, 3, 4, 5, 6, 7, 8] ∧
    t.step (.collect 0) = some t' ∧ t.Invisible t' at_ := by
  let ops : List (Op Nat) := [.insert [1, 2, 3, 4, 5, 6, 7, 8, 9] 1, .insert [1, 2, 3, 4, 5, 6, 7, 8, 0] 2,
    .remove [1, 2, 3, 4, 5, 6, 7, 8, 9], .remove [1, 2, 3, 4, 5, 6, 7, 8, 0]]
  have runs : ((Steps.run step start ops).bind fun t => t.callbacks[0]?) = some [1, 2, 3, 4, 5, 6, 7, 8] := by decide
  obtain ⟨t, ran, pending⟩ := Option.bind_eq_some_iff.mp runs
  obtain ⟨t', stepped, invisible⟩ := collect_invisible ⟨ops, ran⟩ pending
  exact ⟨t, t', _, pending, rfl, stepped, invisible⟩

end Table

end Masstree.Tree
