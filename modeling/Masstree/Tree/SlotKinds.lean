import Masstree.Tree.Heap
import Masstree.Tree.Insertion

/-!
# What all slots have

A property that every slot gets from the key that is put in it, and that splits, new layers and values leave.
-/

namespace Masstree.Tree
open Msgpack (Bytes)

variable {V : Type} {P : Slot V → Prop} {K : Key → Prop}

/-- Keys of kind `K` only make slots of kind `P`, and what is left of them is of the kind again. -/
structure Slot.Kind (P : Slot V → Prop) (K : Key → Prop) : Prop where
  empty : P default
  ofKey : ∀ ka, K ka → P (.ofKey ka)
  ofLayer : ∀ ka, P (.ofLayer ka)
  value : ∀ s v, P s → P { s with lv := v }
  setLayer : ∀ s, P s → P { s with keylenx := layerKeylenx, lv := none }
  shift : ∀ ka, K ka → K ka.shift
  ksuf : ∀ s ka, P s → s.ksufMatches ka = .no → K ⟨[], s.ksuf⟩

/-- All slots, live or free. -/
def Leaf.All (P : Slot V → Prop) (l : Leaf V) : Prop := ∀ s ∈ l.slots, P s

def Heap.All (P : Slot V → Prop) (h : Heap V) : Prop := ∀ l ∈ h.leaves, l.All P

def Heap.Op.Of (K : Key → Prop) : Heap.Op V → Prop
  | .insert _ _ _ ka _ _ => K ka
  | _ => True

namespace Leaf

variable {l l' : Leaf V} {ka oka : Key} {p : Nat}

theorem All.slot (kind : Slot.Kind P K) (all : l.All P) (p : Nat) : P (l.slot p) := by
  unfold Leaf.slot
  rcases Nat.lt_or_ge p l.slots.length with lt | ge
  · rw [List.getD_eq_getElem _ _ lt]
    exact all _ (List.getElem_mem lt)
  · rw [List.getD_eq_default _ _ ge]
    exact kind.empty

theorem All.congr (all : l.All P) (same : l'.slots = l.slots) : l'.All P := by
  unfold All
  rwa [same]

theorem All.modify (all : l.All P) {f : Slot V → Slot V} (keeps : ∀ s, P s → P (f s)) (p : Nat) :
    ({ l with slots := l.slots.modify p f } : Leaf V).All P := by
  intro s mem
  obtain ⟨q, at_⟩ := List.mem_iff_getElem?.mp mem
  rw [List.getElem?_modify] at at_
  obtain ⟨s', at', rfl⟩ := Option.map_eq_some_iff.mp at_
  have old := all s' (List.mem_of_getElem? at')
  split
  · exact keeps s' old
  · exact old

theorem All.assign (kind : Slot.Kind P K) (all : l.All P) (key : K ka) (p : Nat) : (l.assign p ka).All P := by
  intro s mem
  rcases List.mem_or_eq_of_mem_set mem with old | rfl
  · exact all s old
  · exact kind.ofKey ka key

theorem all_pad (kind : Slot.Kind P K) (n : Nat) : ∀ s ∈ List.replicate n (default : Slot V), P s := by
  intro s mem
  rw [(List.mem_replicate.mp mem).2]
  exact kind.empty

theorem all_makeRoot (kind : Slot.Kind P K) : (makeRoot : Leaf V).All P := all_pad kind width

theorem all_ofLayer (kind : Slot.Kind P K) (oka : Key) : (ofLayer oka : Leaf V).All P := by
  intro s mem
  rcases List.mem_cons.mp mem with rfl | mem
  · exact kind.ofLayer oka
  · exact all_pad kind _ s mem

theorem all_ofTwo (kind : Slot.Kind P K) (key : K oka) (key' : K ka) (old : Option V) : (ofTwo oka ka old).All P := by
  have oldSlot : P { (Slot.ofKey oka : Slot V) with lv := old } := kind.value _ old (kind.ofKey oka key)
  have newSlot : P (.ofKey ka) := kind.ofKey ka key'
  unfold ofTwo
  split
  · rintro s (_ | ⟨_, _ | ⟨_, mem⟩⟩)
    · exact oldSlot
    · exact newSlot
    · exact all_pad kind _ s mem
  · rintro s (_ | ⟨_, _ | ⟨_, mem⟩⟩)
    · exact newSlot
    · exact oldSlot
    · exact all_pad kind _ s mem

theorem All.splitInto (kind : Slot.Kind P K) (all : l.All P) (key : K ka) {prev next : Bool} {kxi : Nat} {s : LeafSplit V}
    (split_ : l.splitInto prev next ka kxi = some s) : s.right.All P := by
  obtain ⟨mid, -, rfl⟩ := Option.map_eq_some_iff.mp split_
  intro e mem
  rcases List.mem_append.mp mem with moved | padding
  · obtain ⟨x, -, rfl⟩ := List.mem_map.mp moved
    split
    · exact kind.ofKey ka key
    · exact all.slot kind _
  · exact all_pad kind _ e padding

end Leaf

namespace Tcursor

variable {l : Leaf V} {c c' : Tcursor V} {ka oka : Key} {prev next : Bool} {p : Nat}

theorem makeTwig_all (kind : Slot.Kind P K) {fuel : Nat} {twig : List (Leaf V)} {oka' ka' : Key} (key : K oka) (key' : K ka)
    (made : makeTwig fuel oka ka = some (twig, oka', ka')) : (∀ m ∈ twig, m.All P) ∧ K oka' ∧ K ka' := by
  induction fuel generalizing oka ka twig with
  | zero => cases made
  | succ fuel ih =>
    unfold makeTwig at made
    split at made
    · obtain ⟨⟨below, rest⟩, deeper, same⟩ := Option.map_eq_some_iff.mp made
      obtain ⟨rfl, rfl⟩ := Prod.mk.inj same
      obtain ⟨all, keys⟩ := ih (kind.shift _ key) (kind.shift _ key') deeper
      refine ⟨fun m mem => ?_, keys⟩
      rcases List.mem_cons.mp mem with rfl | mem
      · exact Leaf.all_ofLayer kind oka
      · exact all m mem
    · obtain ⟨rfl, rest⟩ := Prod.mk.inj (Option.some.inj made)
      obtain ⟨rfl, rfl⟩ := Prod.mk.inj rest
      exact ⟨fun m none_ => absurd none_ List.not_mem_nil, key, key'⟩

theorem makeNewLayer_all (kind : Slot.Kind P K) (all : c.node.All P) (key : K c.ka) (old : K ⟨[], (c.node.slot p).ksuf⟩)
    (made : c.makeNewLayer p = some c') : (∀ m ∈ c'.nodes, m.All P) ∧ K c'.ka := by
  obtain ⟨⟨twig, oka, ka⟩, twigged, rfl⟩ := Option.map_eq_some_iff.mp made
  obtain ⟨layers, key₁, key₂⟩ := makeTwig_all kind old (kind.shift _ key) twigged
  refine ⟨fun m mem => ?_, key₂⟩
  rcases List.mem_cons.mp mem with rfl | mem
  · exact all.modify (fun s => kind.setLayer s) p
  · rcases List.mem_append.mp mem with mem | mem
    · exact layers m mem
    · rw [List.mem_singleton.mp mem]
      exact Leaf.all_ofTwo kind key₁ key₂ _

theorem makeSplit_all (kind : Slot.Kind P K) (all : c.node.All P) (key : K c.ka) (made : c.makeSplit prev next = some c') :
    (∀ m ∈ c'.nodes, m.All P) ∧ K c'.ka := by
  unfold makeSplit at made
  dsimp only at made
  split at made
  · obtain rfl := Option.some.inj made
    refine ⟨fun m mem => ?_, key⟩
    rw [List.mem_singleton.mp mem]
    exact Leaf.All.assign (l := { c.node with perm := _ }) kind all key _
  · obtain ⟨s, split_, rfl⟩ := Option.map_eq_some_iff.mp made
    have right := all.splitInto kind key split_
    split
    · refine ⟨fun m mem => ?_, key⟩
      rcases List.mem_cons.mp mem with rfl | mem
      · exact Leaf.All.assign (l := c.node.strip s.right) kind all key _
      · rw [List.mem_singleton.mp mem]
        exact right
    · refine ⟨fun m mem => ?_, key⟩
      rcases List.mem_cons.mp mem with rfl | mem
      · exact all
      · rw [List.mem_singleton.mp mem]
        exact right

/-- The leaves of an insert only have slots of the kind. -/
theorem findInsert_all (kind : Slot.Kind P K) (all : l.All P) (key : K ka) (found : findInsert l prev next ka = some c) :
    (∀ m ∈ c.nodes, m.All P) ∧ K c.ka := by
  obtain ⟨c₀, locked, -⟩ := Option.bind_eq_some_iff.mp found
  obtain ⟨alive, live⟩ := findLocked_alive locked
  cases search : (l.lower ka).2 with
  | none =>
    have started : l.lock.startInsert.All P := all.congr (Leaf.slots_startInsert l.lock)
    rw [findInsert_none alive live search] at found
    split at found
    · obtain rfl := Option.some.inj found
      refine ⟨fun m mem => ?_, key⟩
      rw [List.mem_singleton.mp mem]
      exact started.assign kind key _
    · exact makeSplit_all (c := { absent l ka with nodes := [l.lock.startInsert] }) kind started key found
  | some p =>
    cases matches_ : (l.slot p).ksufMatches ka with
    | yes =>
      rw [findInsert_yes alive live search matches_] at found
      obtain rfl := Option.some.inj found
      refine ⟨fun m mem => ?_, key⟩
      rw [List.mem_singleton.mp mem]
      exact all
    | no =>
      rw [findInsert_no alive live search matches_] at found
      exact makeNewLayer_all (c := absent l ka) kind all key (kind.ksuf _ ka (all.slot kind p) matches_) found
    | layer =>
      rw [findLocked_some alive live search, if_pos matches_] at locked
      cases locked

theorem nodes_gcLayer {ka : Key} (found : gcLayer l ka = some c) : c.nodes = [l.lock] ∧ c.n = 0 := by
  obtain ⟨c₀, locked, found⟩ := Option.bind_eq_some_iff.mp found
  obtain ⟨-, state, rfl, -⟩ := findLocked_cases locked
  dsimp only at found
  generalize (if (l.lower ka).2.isSome = true then (l.lower ka).1 + 1 else (l.lower ka).1) = kxi at found
  split at found
  · cases found
  · obtain rfl := Option.some.inj found
    exact ⟨rfl, rfl⟩

theorem slots_finished (c : Tcursor V) {state : Int} : (c.finished prev state).slots = c.node.slots := by
  unfold finished
  split
  · dsimp only
    split <;> exact slots_finishRemove c.node c.kxi
  · split <;> rfl

theorem finish_all (kind : Slot.Kind P K) (open_ : c.Opened l) (all : ∀ m ∈ c.nodes, m.All P) (value : Option V) (prev : Bool)
    (state : Int) : ∀ m ∈ ((c.store value).finish prev state).nodes, m.All P := by
  have node : c.node ∈ c.nodes := by
    rw [Tcursor.node, List.getD_eq_getElem _ _ open_.inside]
    exact List.getElem_mem _
  have stored : (∀ m ∈ (c.store value).nodes, m.All P) ∧ (c.store value).node.All P := by
    cases value with
    | none => exact ⟨all, all _ node⟩
    | some v =>
      have set_ := (all _ node).modify (f := ({ · with lv := some v })) (fun s => kind.value s (some v)) (c.kxp.getD 0)
      refine ⟨fun m mem => ?_, ?_⟩
      · rcases List.mem_or_eq_of_mem_set mem with old | rfl
        · exact all m old
        · exact set_
      · rw [show (c.store (some v)).node = _ from node_setNode open_.inside _]
        exact set_
  intro m mem
  rw [(nodes_finish (open_.store value).inside prev state).1] at mem
  rcases List.mem_or_eq_of_mem_set mem with old | rfl
  · exact stored.1 m old
  · exact stored.2.congr (slots_finished _)

end Tcursor

namespace Heap

variable {h h' : Heap V} {op : Op V} {ops : List (Op V)}

theorem all_start (kind : Slot.Kind P K) : (start : Heap V).All P := by
  intro l mem
  rw [List.mem_singleton.mp mem]
  exact Leaf.all_makeRoot kind

theorem put_all (all : h.All P) {c : Tcursor V} (some_ : 0 < c.nodes.length) (made : ∀ m ∈ c.nodes, m.All P) (i : Nat) :
    (h.put i c).All P := by
  intro m mem
  rcases List.mem_append.mp mem with mem | mem
  · rcases List.mem_or_eq_of_mem_set mem with old | rfl
    · exact all m old
    · refine made _ ?_
      rw [Tcursor.leaf, List.getD_eq_getElem _ _ some_]
      exact List.getElem_mem some_
  · exact made m (List.mem_of_mem_tail mem)

theorem set_all (all : h.All P) {l : Leaf V} (all' : l.All P) (i : Nat) : (⟨h.leaves.set i l⟩ : Heap V).All P := by
  intro m mem
  rcases List.mem_or_eq_of_mem_set mem with old | rfl
  · exact all m old
  · exact all'

theorem finish_all (kind : Slot.Kind P K) (all : h.All P) {l : Leaf V} {c : Tcursor V} (open_ : c.Opened l)
    (made : ∀ m ∈ c.nodes, m.All P) (i : Nat) (value : Option V) (prev : Bool) (state : Int) :
    (h.put i ((c.store value).finish prev state)).All P := by
  refine put_all all ?_ (Tcursor.finish_all kind open_ made value prev state) i
  rw [(Tcursor.nodes_finish (open_.store value).inside prev state).1, List.length_set]
  exact Nat.zero_lt_of_lt (open_.store value).inside

theorem step_all (kind : Slot.Kind P K) (wf : h.Wf) (all : h.All P) (of : op.Of K) (stepped : h.step op = some h') : h'.All P := by
  cases op with
  | insert i prev next ka value state =>
    obtain ⟨l, at_, ended⟩ := Option.bind_eq_some_iff.mp stepped
    obtain ⟨c, found, rfl⟩ := Option.map_eq_some_iff.mp ended
    have present := List.mem_of_getElem? at_
    have made := (Tcursor.findInsert_all kind (all l present) of found).1
    exact finish_all kind all (Tcursor.findInsert_opened (wf l present) found) made i value prev state
  | locked i prev ka value state =>
    obtain ⟨l, at_, ended⟩ := Option.bind_eq_some_iff.mp stepped
    obtain ⟨c, found, rfl⟩ := Option.map_eq_some_iff.mp ended
    have present := List.mem_of_getElem? at_
    have made : ∀ m ∈ c.nodes, m.All P := by
      obtain ⟨-, state, rfl, -⟩ := Tcursor.findLocked_cases found
      intro m mem
      rw [List.mem_singleton.mp mem]
      exact all l present
    exact finish_all kind all (Tcursor.findLocked_opened (wf l present) found) made i value prev state
  | collect i j prev ka =>
    obtain ⟨l, at_, layered⟩ := Option.bind_eq_some_iff.mp stepped
    obtain ⟨layer, at_layer, located⟩ := Option.bind_eq_some_iff.mp layered
    obtain ⟨c, found, ended⟩ := Option.bind_eq_some_iff.mp located
    split at ended
    · obtain rfl := Option.some.inj ended
      obtain ⟨nodes, first⟩ := Tcursor.nodes_gcLayer found
      have slots : (c.removeLayer prev).slots = l.slots := by
        rw [Tcursor.removeLayer_eq]
        refine (Tcursor.slots_finished _).trans ?_
        rw [Tcursor.node, nodes, first]
        rfl
      exact set_all (set_all all ((all l (List.mem_of_getElem? at_)).congr slots) i)
        (show layer.markDeletedLayer.All P from (all layer (List.mem_of_getElem? at_layer)).congr rfl) j
    · cases ended
  | layerRoot i =>
    obtain ⟨l, at_, rfl⟩ := Option.map_eq_some_iff.mp stepped
    exact set_all all (show l.makeLayerRoot.All P from (all l (List.mem_of_getElem? at_)).congr rfl) i

end Heap

end Masstree.Tree
