import Masstree.Json.Copies
import Masstree.Lib.InsertionMap
import Masstree.Lib.Steps

/-!
# `Json` objects are maps

Runs of operations on variables that hold objects, next to the maps they stand for.
-/

namespace Masstree

namespace Objects

/-- An operation on variable `i`. Iterators are those of a loop over the object, `j` steps from its begin. -/
inductive Op (K V : Type)
  | insert (i : Nat) (k : K) (v : V)
  | getInsert (i : Nat) (k : K)
  | set (i : Nat) (k : K) (v : V)
  | get (i : Nat) (k : K)
  | erase (i : Nat) (k : K)
  | eraseAt (i j : Nat)
  | clear (i : Nat)
  | copy (i : Nat)
  | assign (i j : Nat)
  deriving DecidableEq, Repr

/-- What an operation returns: nothing, a value if there is one, the item of `insert` and whether it is new, the number of items
erased, the item after the one erased. -/
inductive Result (K V : Type)
  | done
  | value (v : Option V)
  | inserted (entry : K × V) (new : Bool)
  | erased (count : Nat)
  | after (entry : Option (K × V))
  deriving DecidableEq, Repr

variable {K V : Type} [DecidableEq K] (hashcode : K → UInt32) (null : V)

/-- `get(key, x)` on an object. -/
def getValue (o : ObjectJson K V) (k : K) : Option (Option V) :=
  (o.find hashcode k).bind fun p => if 0 ≤ p then (o.deref p).map fun entry => some entry.2 else some none

/-- `insert(x)` on an object of the variable. -/
def insertValue (k : K) (v : V) (o : ObjectJson K V) : Option (ObjectJson K V × Result K V) :=
  (o.findInsert hashcode k v).bind fun (o', p) => (o'.deref p).map fun entry => (o', .inserted entry (p = o.n))

/-- `get_insert(key)` on an object of the variable, with the value it refers to. -/
def getInsertValue (k : K) (o : ObjectJson K V) : Option (ObjectJson K V × Result K V) :=
  (o.getInsert hashcode null k).bind fun (o, p) => (o.deref p).map fun entry => (o, .value (some entry.2))

/-- `get_insert(key) = v` -/
def setValue (k : K) (v : V) (o : ObjectJson K V) : Option (ObjectJson K V × Result K V) :=
  (o.getInsert hashcode null k).bind fun (o, p) => (o.assign p v).map fun o => (o, .done)

/-- `erase(it)`, which returns `++it`. -/
def eraseIterator (p : Int) (o : ObjectJson K V) : Option (ObjectJson K V × Result K V) :=
  (o.eraseAt hashcode p).bind fun o =>
    (o.step p).bind fun p => (if 0 ≤ p then (o.deref p).map some else some none).map fun entry => (o, .after entry)

def step (s : Objects K V) : Op K V → Option (Objects K V × Result K V)
  | .insert i k v => s.modify i (insertValue hashcode k v)
  | .getInsert i k => s.modify i (getInsertValue hashcode null k)
  | .set i k v => s.modify i (setValue hashcode null k v)
  | .get i k =>
    match s.ojson i with
    | none => some (s, .value none)
    | some o => (getValue hashcode o k).map fun v => (s, .value v)
  | .erase i k => s.modify i fun o => (o.erase hashcode k).map fun (o, count) => (o, .erased count)
  | .eraseAt i j => (s.iterator i j).bind fun p => s.modify i (eraseIterator hashcode p)
  | .clear i => (s.clear i).map (·, .done)
  | .copy i => (s.copy i).map (·, .done)
  | .assign i j => (s.assign i j).map (·, .done)

def next (s : Objects K V) (op : Op K V) : Option (Objects K V) := (s.step hashcode null op).map Prod.fst

/-! ### The maps -/

abbrev Maps (K V : Type) := List (InsertionMap K V)

namespace Maps

variable (m : Maps K V)

/-- The map of a variable, which is empty where there is none. -/
def of (i : Nat) : InsertionMap K V := m.getD i .empty

def apply : Op K V → Maps K V
  | .insert i k v => m.set i ((m.of i).insert k v)
  | .getInsert i k => m.set i ((m.of i).insert k null)
  | .set i k v => m.set i ((m.of i).set k v)
  | .get _ _ => m
  | .erase i k => m.set i ((m.of i).erase k)
  | .eraseAt i j => m.set i ((m.of i).eraseAt j)
  | .clear i => m.set i .empty
  | .copy i => m ++ [m.of i]
  | .assign i j => m.set i (m.of j)

def result : Op K V → Result K V
  | .insert i k v => .inserted (k, ((m.of i).value k).getD v) ((m.of i).value k).isNone
  | .getInsert i k => .value (some (((m.of i).value k).getD null))
  | .set _ _ _ => .done
  | .get i k => .value ((m.of i).value k)
  | .erase i k => .erased (if ((m.of i).value k).isSome then 1 else 0)
  | .eraseAt i j => .after ((m.of i).entry (j + 1))
  | .clear _ => .done
  | .copy _ => .done
  | .assign _ _ => .done

/-- The variables exist, and an iterator that is erased is not at the end. -/
def Admits : Op K V → Prop
  | .insert i _ _ | .getInsert i _ | .set i _ _ | .get i _ | .erase i _ | .clear i | .copy i => i < m.length
  | .eraseAt i j => i < m.length ∧ j < (m.of i).order.length
  | .assign i j => i < m.length ∧ j < m.length

def Runs : Maps K V → List (Op K V) → Prop
  | _, [] => True
  | m, op :: ops => m.Admits op ∧ Runs (m.apply null op) ops

instance (m : Maps K V) (op : Op K V) : Decidable (m.Admits op) :=
  match op with
  | .insert i _ _ | .getInsert i _ | .set i _ _ | .get i _ | .erase i _ | .clear i | .copy i =>
    inferInstanceAs (Decidable (i < m.length))
  | .eraseAt i j => inferInstanceAs (Decidable (i < m.length ∧ j < (m.of i).order.length))
  | .assign i j => inferInstanceAs (Decidable (i < m.length ∧ j < m.length))

instance decidableRuns : (m : Maps K V) → (ops : List (Op K V)) → Decidable (Runs null m ops)
  | _, [] => isTrue trivial
  | m, op :: ops => @instDecidableAnd _ _ _ (decidableRuns (m.apply null op) ops)

end Maps

/-- `find` and iteration, `size` and the chains of every variable are those of its map. -/
structure Agrees (s : Objects K V) (m : Maps K V) : Prop where
  iterate : ∀ i < m.length, ∃ es, s.iterate i = some es ∧ (m.of i).Represents es
  size : ∀ i < m.length, s.size i = (m.of i).order.length
  chains : ∀ i < m.length, ∀ o, s.ojson i = some o → ∀ b < o.hash.length, ∃ ps : List Nat, ps.Nodup ∧
    Linked o.link (ObjectJson.places b ps) none ∧
      ∀ p, p ∈ ps ↔ ∃ k, ObjectJson.keyAt o.vs p = some k ∧ ObjectJson.slot hashcode o.hash.length k = b

/-- Every operation of the run has a result, that of the maps, and leaves an object that agrees with its map. -/
def Follows : Objects K V → Maps K V → List (Op K V) → Prop
  | s, m, [] => Agrees hashcode s m
  | s, m, op :: ops => Agrees hashcode s m ∧ ∃ s', s.step hashcode null op = some (s', m.result null op) ∧
      Follows s' (m.apply null op) ops

/-- The table is allocated where a key is erased, and every bucket computed is an index, every new capacity an `int`. -/
def Safe (s : Objects K V) : Op K V → Prop
  | .insert i k _ | .getInsert i k | .set i k _ => ObjectJson.Insertable hashcode (s.own i) k
  | .get i k => (s.own i).hash.length ≠ 0 → ObjectJson.Fits hashcode (s.own i).hash.length k
  | .erase i k => ObjectJson.Indexed hashcode (s.own i) k
  | .eraseAt i j => ∀ k v, (s.own i).entries[j]? = some (k, v) → ObjectJson.Fits hashcode (s.own i).hash.length k
  | .clear _ | .copy _ | .assign _ _ => True

instance (o : ObjectJson K V) (k : K) : Decidable (ObjectJson.Insertable hashcode o k) :=
  decidable_of_iff (ObjectJson.Fits hashcode o.tableSize k ∧ (k ∉ ObjectJson.liveKeys o.vs → o.n = o.capacity → o.capacity < 2 ^ 30) ∧
      (k ∉ ObjectJson.liveKeys o.vs → 4 < (ObjectJson.positions hashcode o.vs o.tableSize
      (ObjectJson.slot hashcode o.tableSize k)).length →
        ∀ k' ∈ k :: ObjectJson.liveKeys o.vs, ObjectJson.Fits hashcode (o.tableSize * 2) k'))
    ⟨fun ⟨fits, room, rehash⟩ => ⟨fits, room, rehash⟩, fun ok => ⟨ok.fits, ok.room, ok.rehash⟩⟩

instance (s : Objects K V) (op : Op K V) : Decidable (Safe hashcode s op) :=
  match op with
  | .insert i k _ | .getInsert i k | .set i k _ => inferInstanceAs (Decidable (ObjectJson.Insertable hashcode (s.own i) k))
  | .get i k => inferInstanceAs (Decidable ((s.own i).hash.length ≠ 0 → ObjectJson.Fits hashcode (s.own i).hash.length k))
  | .erase i k => inferInstanceAs (Decidable (_ ∧ ObjectJson.Fits hashcode (s.own i).hash.length k))
  | .eraseAt i j => decidable_of_iff (∀ e ∈ (s.own i).entries[j]?, ObjectJson.Fits hashcode (s.own i).hash.length e.1)
      ⟨fun all k v at_ => all (k, v) at_, fun all e at_ => all e.1 e.2 at_⟩
  | .clear _ | .copy _ | .assign _ _ => isTrue trivial

/-! ### Operations on one object -/

open ObjectJson InsertionMap

variable {hashcode} {null} {o : ObjectJson K V} {m : InsertionMap K V} {k : K} {v : V}

theorem findInsert_entry (inv : Inv hashcode o) (rep : m.Represents o.entries) (ok : Insertable hashcode o k) (v : V) :
    ∃ o', ∃ p : Nat, o.findInsert hashcode k v = some (o', (p : Int)) ∧ Inv hashcode o' ∧ (m.insert k v).Represents o'.entries ∧
      o'.vs[p]? = some (some (k, (m.value k).getD v)) ∧ (p = o.n ↔ m.value k = none) := by
  obtain ⟨o', p, found, inv', key, vs', -, -⟩ := findInsert_ok inv ok v
  obtain ⟨w, at_⟩ := exists_entry key
  refine ⟨o', p, found, inv', ?_⟩
  by_cases present : k ∈ liveKeys o.vs
  · rw [if_pos present] at vs'
    have same : m.insert k v = m := if_pos (rep.mem_iff.mpr present)
    have value : m.value k = some w := rep.values (k, w) (List.mem_filterMap.mpr ⟨_, List.mem_of_getElem? (vs' ▸ at_), rfl⟩)
    have lt := keyAt_lt key
    rw [same, value, Option.getD_some, entries, vs']
    rw [vs'] at lt at_
    refine ⟨rep, at_, iff_of_false ?_ (Option.some_ne_none w)⟩
    rw [n_eq]
    omega
  · rw [if_neg present] at vs'
    have fresh : m.insert k v = m.set k v := if_neg fun mem => present (rep.mem_iff.mp mem)
    have entries' : o'.entries = o.entries ++ [(k, v)] := by
      rw [entries, vs', List.filterMap_append]
      rfl
    have last : o'.vs[o.n]? = some (some (k, v)) := by
      rw [vs', n_eq]
      exact List.getElem?_concat_length ..
    obtain rfl : p = o.n := keyAt_inj inv'.keys key (keyAt_of_entry last)
    rw [fresh, rep.value_eq_none present, Option.getD_none, entries']
    exact ⟨rep.append present v, last, iff_of_true rfl rfl⟩

theorem insertValue_ok (inv : Inv hashcode o) (rep : m.Represents o.entries) (ok : Insertable hashcode o k) (v : V) :
    ∃ o', insertValue hashcode k v o = some (o', .inserted (k, (m.value k).getD v) (m.value k).isNone) ∧ Inv hashcode o' ∧
      (m.insert k v).Represents o'.entries := by
  obtain ⟨o', p, found, inv', rep', at_, new⟩ := findInsert_entry inv rep ok v
  refine ⟨o', ?_, inv', rep'⟩
  have fresh : decide ((p : Int) = o.n) = (m.value k).isNone := by
    rw [Bool.eq_iff_iff, decide_eq_true_eq, Option.isNone_iff_eq_none, ← new]
    omega
  rw [insertValue, found, Option.bind_some]
  dsimp only
  rw [deref_eq at_, Option.map_some, fresh]

theorem getInsertValue_ok (inv : Inv hashcode o) (rep : m.Represents o.entries) (ok : Insertable hashcode o k) :
    ∃ o', getInsertValue hashcode null k o = some (o', .value (some ((m.value k).getD null))) ∧ Inv hashcode o' ∧
      (m.insert k null).Represents o'.entries := by
  obtain ⟨o', p, found, inv', rep', at_, _⟩ := findInsert_entry inv rep ok null
  refine ⟨o', ?_, inv', rep'⟩
  rw [getInsertValue, getInsert, found, Option.bind_some]
  dsimp only
  rw [deref_eq at_, Option.map_some]

theorem setValue_ok (inv : Inv hashcode o) (rep : m.Represents o.entries) (ok : Insertable hashcode o k) (v : V) :
    ∃ o', setValue hashcode null k v o = some (o', .done) ∧ Inv hashcode o' ∧ (m.set k v).Represents o'.entries := by
  obtain ⟨o₁, p, found, inv₁, rep₁, at_, _⟩ := findInsert_entry inv rep ok null
  have key := keyAt_of_entry at_
  obtain ⟨o', assigned, inv', vs'⟩ := assign_ok hashcode inv₁ key v
  obtain ⟨w, before, _, after⟩ := entries_split key
  refine ⟨o', ?_, inv', ?_⟩
  · rw [setValue, getInsert, found, Option.bind_some]
    dsimp only
    rw [assigned, Option.map_some]
  · have entries₁ : o₁.entries = _ := before
    rw [entries₁] at rep₁
    rw [entries, vs', after, ← set_insert m k null v]
    exact rep₁.replace v

theorem insertValue_fails (inv : Inv hashcode o) (bad : ¬Insertable hashcode o k) (v : V) : insertValue hashcode k v o = none := by
  rw [insertValue, findInsert_fails inv bad, Option.bind_none]

theorem getInsertValue_fails (inv : Inv hashcode o) (bad : ¬Insertable hashcode o k) (null : V) :
    getInsertValue hashcode null k o = none := by
  rw [getInsertValue, getInsert, findInsert_fails inv bad, Option.bind_none]

theorem setValue_fails (inv : Inv hashcode o) (bad : ¬Insertable hashcode o k) (null v : V) : setValue hashcode null k v o = none := by
  rw [setValue, getInsert, findInsert_fails inv bad, Option.bind_none]

theorem getValue_ok (inv : Inv hashcode o) (rep : m.Represents o.entries)
    (ok : o.hash.length ≠ 0 → Fits hashcode o.hash.length k) : getValue hashcode o k = some (m.value k) := by
  obtain ⟨x, found, at_⟩ := find_ok inv ok
  rw [getValue, found, Option.bind_some]
  by_cases present : k ∈ liveKeys o.vs
  · rw [if_pos present] at at_
    obtain ⟨p, rfl, key⟩ := at_
    obtain ⟨v, here⟩ := exists_entry key
    have value : m.value k = some v := rep.values (k, v) (List.mem_filterMap.mpr ⟨_, List.mem_of_getElem? here, rfl⟩)
    rw [if_pos (Int.natCast_nonneg p), deref_eq here, Option.map_some, value]
  · rw [if_neg present] at at_
    rw [at_, rep.value_eq_none present]
    rfl

theorem eraseValue_ok (inv : Inv hashcode o) (rep : m.Represents o.entries) (ok : Indexed hashcode o k) :
    ∃ o', o.erase hashcode k = some (o', if (m.value k).isSome then 1 else 0) ∧ Inv hashcode o' ∧ (m.erase k).Represents o'.entries := by
  obtain ⟨o', r, erased, inv', effect⟩ := erase_ok inv ok
  by_cases present : k ∈ liveKeys o.vs
  · rw [if_pos present] at effect
    obtain ⟨rfl, p, key, vs'⟩ := effect
    obtain ⟨w, before, after, _⟩ := entries_split key
    have value := (m.mem_order k).mp (rep.mem_iff.mpr present)
    refine ⟨o', by rw [erased, value, if_pos rfl], inv', ?_⟩
    have entries₀ : o.entries = _ := before
    rw [entries₀] at rep
    rw [entries, vs', after]
    exact rep.erase
  · rw [if_neg present] at effect
    obtain ⟨rfl, vs'⟩ := effect
    refine ⟨o', by rw [erased, rep.value_eq_none present]; rfl, inv', ?_⟩
    rw [entries, vs']
    exact rep.erase_absent present

theorem eraseIterator_ok {j : Nat} (inv : Inv hashcode o) (rep : m.Represents o.entries) (lt : j < m.order.length)
    (ok : ∀ k v, o.entries[j]? = some (k, v) → Fits hashcode o.hash.length k) :
    ∃ p o', o.iterator j = some p ∧ eraseIterator hashcode p o = some (o', .after (m.entry (j + 1))) ∧ Inv hashcode o' ∧
      (m.eraseAt j).Represents o'.entries := by
  rw [← rep.keys, List.length_map] at lt
  obtain ⟨p, ⟨k, v⟩, iter, at_, before⟩ := iterator_eq inv.marked lt
  have key := keyAt_of_entry at_
  obtain ⟨w, split, gone, _⟩ := entries_split key
  have entries₀ : o.entries = _ := split
  have here : o.entries[j]? = some (k, w) := by
    rw [entries₀, List.getElem?_append_right (Nat.le_of_eq before), before, Nat.sub_self]
    rfl
  have some_ : o.hash.length ≠ 0 := by
    rcases inv.table with ⟨_, os⟩ | ⟨t, table⟩
    · rw [vs, os] at at_
      cases at_
    · have positive := Nat.two_pow_pos t
      omega
  obtain ⟨o', erased, inv', vs'⟩ := eraseAt_ok inv key ⟨some_, ok k w here⟩
  refine ⟨p, o', iter, ?_, inv', ?_⟩
  · have next : m.entry (j + 1) = ((o.vs.drop (p + 1)).filterMap id).head? := by
      rw [rep.entry, entries₀, List.getElem?_append_right (by omega), before, Nat.add_sub_cancel_left, List.getElem?_cons_succ,
        List.head?_eq_getElem?]
    have down : o'.vs.drop (p + 1) = o.vs.drop (p + 1) := by rw [vs', List.drop_set_of_lt (Nat.lt_succ_self p)]
    have stepped := fixed_step inv'.marked (show p < o'.vs.length by rw [vs', List.length_set]; exact keyAt_lt key)
    rw [eraseIterator, erased, Option.bind_some, next, ← down]
    generalize o'.step p = result at stepped
    cases stepped with
    | stop from_ =>
      rw [from_]
      rfl
    | live q entry above at' from_ upTo =>
      rw [from_, Option.bind_some, if_pos (Int.natCast_nonneg q), deref_eq at']
      rfl
  · rw [entries₀] at rep
    have erase := rep.eraseAt
    rw [before] at erase
    rwa [entries, vs', gone]

omit [DecidableEq K] in
theorem eraseIterator_fails {j : Nat} {w : V} (inv : Inv hashcode o) (at_ : o.entries[j]? = some (k, w))
    (out : ¬Fits hashcode o.hash.length k) : ∃ p, o.iterator j = some p ∧ eraseIterator hashcode p o = none := by
  obtain ⟨p, ⟨k', v⟩, iter, here, before⟩ := iterator_eq inv.marked (List.getElem?_eq_some_iff.mp at_).1
  have key := keyAt_of_entry here
  obtain ⟨w', split, _, _⟩ := entries_split key
  have entries₀ : o.entries = _ := split
  rw [entries₀, List.getElem?_append_right (Nat.le_of_eq before), before, Nat.sub_self] at at_
  obtain ⟨rfl, rfl⟩ := Prod.mk.inj (Option.some.inj at_)
  refine ⟨p, iter, ?_⟩
  rw [eraseIterator, eraseAt_fails inv key fun indexed => out indexed.2, Option.bind_none]

/-! ### Steps -/

variable (hashcode) in
/-- Each variable's object is a sound table with the entries of its map. -/
structure Repr (s : Objects K V) (m : Maps K V) : Prop where
  counted : Shared.Counted s.cells s.vars
  length : s.vars.length = m.length
  inv : ∀ i, Inv hashcode (s.own i)
  maps : ∀ i < m.length, (m.of i).Represents (s.own i).entries

variable {s s' : Objects K V} {ms : Maps K V} {i j : Nat}

omit [DecidableEq K] in
theorem of_set (lt : i < ms.length) (m : InsertionMap K V) (j : Nat) : Maps.of (ms.set i m) j = if j = i then m else ms.of j := by
  unfold Maps.of
  rw [List.getD_eq_getElem?_getD, List.getD_eq_getElem?_getD]
  split
  · rename_i same
    rw [same, List.getElem?_set_self lt, Option.getD_some]
  · rename_i other
    rw [List.getElem?_set_ne (Ne.symm other)]

omit [DecidableEq K] in
theorem Repr.change {x : Option (ObjectJson K V)} (repr : Repr hashcode s ms) (lt : i < ms.length) (changed : Changed s s' i x)
    (inv : Inv hashcode (x.getD .empty)) (rep : m.Represents (x.getD .empty).entries) : Repr hashcode s' (ms.set i m) := by
  have own : ∀ j, s'.own j = if j = i then x.getD .empty else s.own j := by
    intro j
    rw [Objects.own]
    split
    · rename_i same
      rw [same, changed.here]
    · rename_i other
      rw [changed.others j other, Objects.own]
  refine ⟨changed.counted, ?_, fun j => ?_, fun j ltj => ?_⟩
  · rw [changed.length, List.length_set, repr.length]
  · rw [own]
    split
    · exact inv
    · exact repr.inv j
  · rw [List.length_set] at ltj
    rw [own, of_set lt]
    split
    · exact rep
    · exact repr.maps j ltj

omit [DecidableEq K] in
theorem Repr.modified {R : Type} {f : ObjectJson K V → Option (ObjectJson K V × R)} {r : R} (repr : Repr hashcode s ms)
    (lt : i < ms.length) (ran : ∃ o', f (s.own i) = some (o', r) ∧ Inv hashcode o' ∧ m.Represents o'.entries) :
    ∃ s', s.modify i f = some (s', r) ∧ Repr hashcode s' (ms.set i m) := by
  obtain ⟨o', ran, inv, rep⟩ := ran
  have lt' : i < s.vars.length := by rwa [repr.length]
  obtain ⟨s', modified, changed⟩ := modify_ok repr.counted lt' (copy_eq hashcode (repr.inv i)) ran
  exact ⟨s', modified, repr.change lt changed inv rep⟩

omit [DecidableEq K] in
theorem Repr.modify_fails {R : Type} {f : ObjectJson K V → Option (ObjectJson K V × R)} (repr : Repr hashcode s ms) (lt : i < ms.length)
    (failed : f (s.own i) = none) : s.modify i f = none :=
  Objects.modify_fails repr.counted (by rwa [repr.length]) (copy_eq hashcode (repr.inv i)) failed

omit [DecidableEq K] in
theorem iterator_own (some_ : s.ojson i ≠ none) (j : Nat) : s.iterator i j = (s.own i).iterator j := by
  obtain ⟨o, eq⟩ := Option.ne_none_iff_exists'.mp some_
  rw [Objects.iterator, own, eq, Option.getD_some]

omit [DecidableEq K] in
/-- A variable whose map has a key has an object. -/
theorem Repr.ojson_ne_none (repr : Repr hashcode s ms) (lt : i < ms.length) (ltj : j < (ms.of i).order.length) : s.ojson i ≠ none := by
  intro none_
  have rep := repr.maps i lt
  rw [own, none_, Option.getD_none] at rep
  rw [← rep.keys] at ltj
  exact absurd ltj (Nat.not_lt_zero j)

variable (null) in
theorem Repr.step_ok (repr : Repr hashcode s ms) {op : Op K V} (admits : ms.Admits op) (safe : s.Safe hashcode op) :
    ∃ s', s.step hashcode null op = some (s', ms.result null op) ∧ Repr hashcode s' (ms.apply null op) := by
  cases op with
  | insert i k v => exact repr.modified admits (insertValue_ok (repr.inv i) (repr.maps i admits) safe v)
  | getInsert i k => exact repr.modified admits (getInsertValue_ok (repr.inv i) (repr.maps i admits) safe)
  | set i k v => exact repr.modified admits (setValue_ok (repr.inv i) (repr.maps i admits) safe v)
  | get i k =>
    have value := getValue_ok (repr.inv i) (repr.maps i admits) safe
    refine ⟨s, ?_, repr⟩
    rw [step]
    cases at_ : s.ojson i with
    | none =>
      have rep := repr.maps i admits
      rw [own, at_, Option.getD_none] at rep
      show some (s, Result.value none) = _
      rw [Maps.result, rep.value_eq_none List.not_mem_nil]
    | some o =>
      rw [own, at_, Option.getD_some] at value
      show (getValue hashcode o k).map _ = _
      rw [value, Option.map_some, Maps.result]
  | erase i k =>
    obtain ⟨o', erased, inv, rep⟩ := eraseValue_ok (repr.inv i) (repr.maps i admits) safe
    exact repr.modified admits ⟨o', by rw [erased, Option.map_some, Maps.result], inv, rep⟩
  | eraseAt i j =>
    obtain ⟨lt, ltj⟩ := admits
    obtain ⟨p, o', iter, erased, inv, rep⟩ := eraseIterator_ok (repr.inv i) (repr.maps i lt) ltj safe
    obtain ⟨s', modified, repr'⟩ := repr.modified lt ⟨o', erased, inv, rep⟩
    exact ⟨s', by rw [step, iterator_own (repr.ojson_ne_none lt ltj), iter, Option.bind_some, modified, Maps.result], repr'⟩
  | clear i =>
    obtain ⟨s', x, cleared, changed, result⟩ := clear_spec repr.counted (show i < s.vars.length by rw [repr.length]; exact admits)
    refine ⟨s', by rw [step, cleared, Option.map_some, Maps.result], repr.change admits changed ?_ ?_⟩
    · rcases result with rfl | rfl
      · exact inv_empty hashcode
      · exact inv_clear hashcode (repr.inv i)
    · rcases result with rfl | rfl
      · exact represents_empty
      · exact represents_empty
  | copy i =>
    obtain ⟨s', copied, counted, length, last, others⟩ := copy_spec repr.counted
      (show i < s.vars.length by rw [repr.length]; exact admits)
    have lt : i < ms.length := admits
    have last' : s'.own ms.length = s.own i := by rw [own, ← repr.length, last, own]
    have others' : ∀ j < ms.length, s'.own j = s.own j := fun j ltj => by rw [own, others j (by rwa [repr.length]), own]
    have mapLast : Maps.of (ms ++ [ms.of i]) ms.length = ms.of i := by
      rw [Maps.of, List.getD_eq_getElem?_getD, List.getElem?_concat_length, Option.getD_some]
    have mapOthers : ∀ j < ms.length, Maps.of (ms ++ [ms.of i]) j = ms.of j := fun j ltj => by
      rw [Maps.of, List.getD_append _ _ _ _ ltj, Maps.of]
    have length' : (ms ++ [ms.of i]).length = ms.length + 1 := by rw [List.length_append, List.length_singleton]
    refine ⟨s', by rw [step, copied, Option.map_some, Maps.result], counted, ?_, fun j => ?_, fun j ltj => ?_⟩
    · rw [length, repr.length]
      exact length'.symm
    · rcases Nat.lt_trichotomy j ms.length with below | rfl | above
      · rw [others' j below]
        exact repr.inv j
      · rw [last']
        exact repr.inv i
      · have outside : s'.vars[j]? = none := List.getElem?_eq_none (by rw [length, repr.length]; exact above)
        have empty : s'.own j = .empty := by rw [own, ojson, outside]; rfl
        rw [empty]
        exact inv_empty hashcode
    · have ltj : j < ms.length + 1 := by rw [← length']; exact ltj
      show (Maps.of (ms ++ [ms.of i]) j).Represents _
      rcases Nat.lt_succ_iff_lt_or_eq.mp ltj with below | rfl
      · rw [others' j below, mapOthers j below]
        exact repr.maps j below
      · rw [last', mapLast]
        exact repr.maps i lt
  | assign i j =>
    obtain ⟨lti, ltj⟩ := admits
    have lti' : i < s.vars.length := by rwa [repr.length]
    have ltj' : j < s.vars.length := by rwa [repr.length]
    obtain ⟨s', assigned, changed⟩ := assign_spec repr.counted lti' ltj'
    refine ⟨s', by rw [step, assigned, Option.map_some, Maps.result], repr.change lti changed ?_ ?_⟩
    · exact repr.inv j
    · exact repr.maps j ltj

variable (null) in
theorem Repr.step_fails (repr : Repr hashcode s ms) {op : Op K V} (admits : ms.Admits op) (bad : ¬s.Safe hashcode op) :
    s.step hashcode null op = none := by
  cases op with
  | insert i k v => exact repr.modify_fails admits (insertValue_fails (repr.inv i) bad v)
  | getInsert i k => exact repr.modify_fails admits (getInsertValue_fails (repr.inv i) bad null)
  | set i k v => exact repr.modify_fails admits (setValue_fails (repr.inv i) bad null v)
  | get i k =>
    obtain ⟨some_, out⟩ := Classical.not_imp.mp bad
    cases at_ : s.ojson i with
    | none =>
      rw [own, at_, Option.getD_none] at some_
      exact absurd rfl some_
    | some o =>
      have eq : s.own i = o := by rw [own, at_, Option.getD_some]
      have failed := find_fails (repr.inv i) some_ out
      rw [eq] at failed
      rw [step, at_]
      show (getValue hashcode o k).map _ = none
      rw [getValue, failed, Option.bind_none, Option.map_none]
  | erase i k =>
    refine repr.modify_fails admits ?_
    rw [ObjectJson.erase_fails (repr.inv i) bad, Option.map_none]
  | eraseAt i j =>
    obtain ⟨lt, ltj⟩ := admits
    obtain ⟨k, bad⟩ := not_forall.mp bad
    obtain ⟨v, bad⟩ := not_forall.mp bad
    obtain ⟨at_, out⟩ := Classical.not_imp.mp bad
    obtain ⟨p, iter, failed⟩ := eraseIterator_fails (repr.inv i) at_ out
    rw [step, iterator_own (repr.ojson_ne_none lt ltj), iter, Option.bind_some, repr.modify_fails lt failed]
  | clear i => exact absurd trivial bad
  | copy i => exact absurd trivial bad
  | assign i j => exact absurd trivial bad

/-! ### Runs -/

omit [DecidableEq K] in
theorem Repr.agrees (repr : Repr hashcode s ms) : Agrees hashcode s ms := by
  constructor
  · intro i lt
    have rep := repr.maps i lt
    rw [own] at rep
    cases at_ : s.ojson i with
    | none =>
      rw [at_] at rep
      exact ⟨[], by rw [Objects.iterate, at_], rep⟩
    | some o =>
      rw [at_, Option.getD_some] at rep
      have inv := repr.inv i
      rw [own, at_, Option.getD_some] at inv
      refine ⟨o.entries, ?_, rep⟩
      rw [Objects.iterate, at_]
      exact iterate_eq inv.marked
  · intro i lt
    have rep := repr.maps i lt
    have size := (repr.inv i).size
    rw [← rep.keys, List.length_map, ← size, own, Objects.size]
    cases s.ojson i with
    | none => rfl
    | some o => rfl
  · intro i lt o at_ b ltb
    have inv := repr.inv i
    rw [own, at_, Option.getD_some] at inv
    exact ⟨positions hashcode o.vs o.hash.length b, nodup_positions .., inv.chained b ltb, fun p => mem_positions⟩

variable (hashcode) in
omit [DecidableEq K] in
theorem repr_start : Repr hashcode (start : Objects K V) [.empty] := by
  refine ⟨Shared.counted_null.mpr Shared.counted_nil, rfl, fun i => ?_, fun i lt => ?_⟩
  · have empty : (start : Objects K V).own i = .empty := by cases i <;> rfl
    rw [empty]
    exact inv_empty hashcode
  · obtain rfl : i = 0 := Nat.lt_one_iff.mp lt
    exact represents_empty

theorem Repr.follows (repr : Repr hashcode s ms) {ops : List (Op K V)} (runs : ms.Runs null ops) :
    Follows hashcode null s ms ops ↔
      Steps.Each (next hashcode null) (Safe hashcode) s ops := by
  induction ops generalizing s ms with
  | nil => exact iff_of_true repr.agrees trivial
  | cons op ops ih =>
    obtain ⟨admits, rest⟩ := runs
    by_cases safe : s.Safe hashcode op
    · obtain ⟨s', stepped, repr'⟩ := repr.step_ok null admits safe
      have then_ : s.next hashcode null op = some s' := by rw [next, stepped, Option.map_some]
      rw [Steps.each_cons then_, ← ih repr' rest]
      constructor
      · rintro ⟨_, other, stepped', follows⟩
        obtain ⟨rfl, _⟩ := Prod.mk.inj (Option.some.inj (stepped.symm.trans stepped'))
        exact ⟨safe, follows⟩
      · rintro ⟨_, follows⟩
        exact ⟨repr.agrees, s', stepped, follows⟩
    · refine iff_of_false ?_ fun each => safe each.1
      rintro ⟨_, s', stepped, _⟩
      rw [repr.step_fails null admits safe] at stepped
      cases stepped

/-- An object and its copies are maps where no operation indexes outside a table. -/
theorem objects_are_maps (hashcode : K → UInt32) (null : V) (ops : List (Op K V)) (runs : Maps.Runs null [.empty] ops) :
    Follows hashcode null start [.empty] ops ↔
      Steps.Each (next hashcode null) (Safe hashcode) start ops :=
  (repr_start hashcode).follows runs

theorem objects_are_maps_copied :
    Maps.Runs 0 [.empty] [.set 0 5 50, .insert 0 13 70, .copy 0, .erase 1 5, .eraseAt 0 0, .get 0 5] ∧
      Follows (fun k : Nat => UInt32.ofNat k) 0 start [.empty]
        [.set 0 5 50, .insert 0 13 70, .copy 0, .erase 1 5, .eraseAt 0 0, .get 0 5] := by
  have runs : Maps.Runs 0 [.empty] [.set 0 5 50, .insert 0 13 70, .copy 0, .erase 1 5, .eraseAt 0 0, .get 0 5] := by decide
  exact ⟨runs, (objects_are_maps (fun k : Nat => UInt32.ofNat k) 0 _ runs).mpr (by decide)⟩

/-- No insertion has allocated the hash table. -/
theorem erase_unallocated :
    Maps.Runs (0 : Nat) [.empty] [.erase 0 [(97 : UInt8)]] ∧
      ¬Follows (fun k : List UInt8 => UInt32.ofNat k.length) (0 : Nat) start [.empty] [.erase 0 [97]] := by
  refine ⟨by decide, ?_⟩
  rintro ⟨_, s', stepped, _⟩
  have fails : (start : Objects (List UInt8) Nat).step (fun k => UInt32.ofNat k.length) 0 (.erase 0 [97]) = none := by decide
  rw [fails] at stepped
  cases stepped

end Objects

end Masstree
