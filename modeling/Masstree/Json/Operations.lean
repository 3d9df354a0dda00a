import Masstree.Json.Chains
import Masstree.Lib.Positions

/-!
# The operations of a hash table

Each operation keeps the chains, and is defined exactly if the buckets it computes are indices and its capacity an `int`.
-/

namespace Masstree.ObjectJson

variable {K V : Type} {hashcode : K → UInt32} {o o' : ObjectJson K V} {k : K} {v : V} {len b p q : Nat} {vs : List (Option (K × V))}

def liveKeys (vs : List (Option (K × V))) : List K := (vs.filterMap id).map Prod.fst

/-! ### Keys -/

theorem mem_liveKeys : k ∈ liveKeys vs ↔ ∃ p, keyAt vs p = some k := by
  rw [liveKeys, List.mem_map]
  constructor
  · rintro ⟨⟨k, v⟩, mem, rfl⟩
    obtain ⟨entry, mem, eq⟩ := List.mem_filterMap.mp mem
    obtain ⟨p, at_⟩ := List.mem_iff_getElem?.mp mem
    exact ⟨p, by rw [keyAt, at_, Option.join_some, show entry = some (k, v) from eq, Option.map_some]⟩
  · rintro ⟨p, at_⟩
    rw [keyAt, Option.map_eq_some_iff] at at_
    obtain ⟨entry, at_, rfl⟩ := at_
    rw [Option.join_eq_some_iff] at at_
    exact ⟨entry, List.mem_filterMap.mpr ⟨_, List.mem_of_getElem? at_, rfl⟩, rfl⟩

theorem keyAt_of_entry (at_ : vs[p]? = some (some (k, v))) : keyAt vs p = some k := by
  rw [keyAt, at_, Option.join_some, Option.map_some]

theorem exists_entry (at_ : keyAt vs p = some k) : ∃ v, vs[p]? = some (some (k, v)) := by
  obtain ⟨⟨_, v⟩, here, rfl⟩ := Option.map_eq_some_iff.mp at_
  exact ⟨v, Option.join_eq_some_iff.mp here⟩

theorem keyAt_zero (at_ : keyAt (x :: vs) 0 = some k) : ∃ v : V, x = some (k, v) := by
  rw [keyAt, List.getElem?_cons_zero, Option.join_some, Option.map_eq_some_iff] at at_
  obtain ⟨⟨_, v⟩, eq, rfl⟩ := at_
  exact ⟨v, eq⟩

theorem keyAt_inj (nodup : (liveKeys vs).Nodup) (at_ : keyAt vs p = some k) (at' : keyAt vs q = some k) : p = q := by
  induction vs generalizing p q with
  | nil => exact absurd (keyAt_lt at_) (Nat.not_lt_zero p)
  | cons x vs ih =>
    have rest : (liveKeys vs).Nodup := by
      cases x with
      | none => exact nodup
      | some entry => exact (List.nodup_cons.mp nodup).2
    have first : ∀ {q}, keyAt (x :: vs) 0 = some k → ¬keyAt vs q = some k := by
      intro q here there
      obtain ⟨v, rfl⟩ := keyAt_zero here
      exact (List.nodup_cons.mp nodup).1 (mem_liveKeys.mpr ⟨q, there⟩)
    cases p with
    | zero =>
      cases q with
      | zero => rfl
      | succ q => exact absurd at' (first at_)
    | succ p =>
      cases q with
      | zero => exact absurd at_ (first at')
      | succ q => exact congrArg Nat.succ (ih rest at_ at')

theorem keyAt_set (x : Option (K × V)) (lt : p < vs.length) (q : Nat) :
    keyAt (vs.set p x) q = if q = p then x.map Prod.fst else keyAt vs q := by
  unfold keyAt
  split
  · rename_i same
    rw [same, List.getElem?_set_self lt, Option.join_some]
  · rename_i other
    rw [List.getElem?_set_ne (Ne.symm other)]

theorem keyAt_append (x : Option (K × V)) (p : Nat) :
    keyAt (vs ++ [x]) p = if p = vs.length then x.map Prod.fst else keyAt vs p := by
  unfold keyAt
  split
  · rename_i same
    rw [same, List.getElem?_concat_length, Option.join_some]
  · rename_i other
    rcases Nat.lt_or_ge p vs.length with lt | ge
    · rw [List.getElem?_append_left lt]
    · rw [List.getElem?_eq_none (by rw [List.length_append, List.length_singleton]; omega), List.getElem?_eq_none ge]

theorem positions_congr {vs' : List (Option (K × V))} (length : vs'.length = vs.length) (same : ∀ p, keyAt vs' p = keyAt vs p) :
    positions hashcode vs' len b = positions hashcode vs len b := by
  unfold positions
  rw [length]
  exact List.filter_congr fun p _ => by rw [same]

theorem positions_erase (lt : p < vs.length) :
    positions hashcode (vs.set p none) len b = (positions hashcode vs len b).filter (· ≠ p) := by
  unfold positions
  rw [List.length_set, List.filter_filter]
  refine List.filter_congr fun q _ => ?_
  rw [keyAt_set none lt]
  by_cases same : q = p
  · simp [same]
  · simp [same]

theorem positions_append (vs : List (Option (K × V))) (k : K) (v : V) : positions hashcode (vs ++ [some (k, v)]) len b =
    positions hashcode vs len b ++ if slot hashcode len k = b then [vs.length] else [] := by
  unfold positions
  rw [List.length_append, List.length_singleton, List.range_succ, List.filter_append]
  congr 1
  · refine List.filter_congr fun q mem => ?_
    rw [keyAt_append, if_neg (Nat.ne_of_lt (List.mem_range.mp mem))]
  · have last : keyAt (vs ++ [some (k, v)]) vs.length = some k := by rw [keyAt_append, if_pos rfl, Option.map_some]
    rw [List.filter_cons, last, Option.map_some, List.filter_nil]
    simp only [Option.some.injEq, decide_eq_true_eq]

/-! ### Searching -/

variable (hashcode) in
theorem length_positions_le (vs : List (Option (K × V))) (len b : Nat) : (positions hashcode vs len b).length ≤ vs.length := by
  calc (positions hashcode vs len b).length ≤ (List.range vs.length).length := List.length_filter_le ..
    _ = vs.length := List.length_range

theorem enough_fuel {A : List Nat} (le : A.length ≤ (positions hashcode o.vs len b).length) : A.length < o.fuel := by
  have short := length_positions_le hashcode o.vs len b
  rw [fuel, n_eq]
  omega

theorem readable {A B : List Nat} (lt : b < o.hash.length) (split : positions hashcode o.vs len b = A ++ B) :
    ∀ pl ∈ places b A, ∃ x, o.read pl = some x := by
  intro pl mem
  have inside : pl ∈ places b (positions hashcode o.vs len b) := by
    rw [split]
    rcases mem_places.mp mem with rfl | ⟨p, inside, rfl⟩
    · exact List.mem_cons_self
    · exact next_mem_places.mpr (List.mem_append_left B inside)
  exact exists_read lt inside

/-! ### Unlinking -/

theorem exists_item (at_ : keyAt o.vs p = some k) : ∃ v next, o.os[p]? = some ⟨some (k, v), next⟩ := by
  have lt : p < o.os.length := by
    have lt := keyAt_lt at_
    rwa [ObjectJson.vs, List.length_map] at lt
  have here := List.getElem?_eq_getElem lt
  have key := (keyAt_of_item here).symm.trans at_
  rw [Option.map_eq_some_iff] at key
  obtain ⟨⟨_, v⟩, eq, rfl⟩ := key
  exact ⟨v, o.os[p].next, by rw [here, ← eq]⟩

/-- The entries before and after a live item. -/
theorem entries_split (at_ : keyAt vs p = some k) : ∃ v, vs.filterMap id =
      (vs.take p).filterMap id ++ (k, v) :: (vs.drop (p + 1)).filterMap id ∧
    (vs.set p none).filterMap id = (vs.take p).filterMap id ++ (vs.drop (p + 1)).filterMap id ∧
    ∀ v', (vs.set p (some (k, v'))).filterMap id = (vs.take p).filterMap id ++ (k, v') :: (vs.drop (p + 1)).filterMap id := by
  obtain ⟨entry, here, rfl⟩ := Option.map_eq_some_iff.mp at_
  obtain ⟨X, Y, rfl, rfl⟩ := Positions.exists_middle (Option.join_eq_some_iff.mp here)
  have after : (X ++ some entry :: Y).drop (X.length + 1) = Y := by
    rw [List.drop_append, List.drop_of_length_le (Nat.le_succ _), List.nil_append, Nat.add_sub_cancel_left]
    rfl
  refine ⟨entry.2, ?_, ?_, fun v' => ?_⟩
  · rw [List.take_left, after, List.filterMap_append]
    rfl
  · rw [Positions.set_middle, List.take_left, after, List.filterMap_append]
    rfl
  · rw [Positions.set_middle, List.take_left, after, List.filterMap_append]
    rfl

theorem filter_ne_split {ps A B : List Nat} (nodup : ps.Nodup) (split : ps = A ++ p :: B) : ps.filter (· ≠ p) = A ++ B := by
  subst split
  obtain ⟨_, tail, apart⟩ := List.nodup_append.mp nodup
  have left : A.filter (· ≠ p) = A := List.filter_eq_self.mpr fun a mem => decide_eq_true (apart a mem p List.mem_cons_self)
  have right : B.filter (· ≠ p) = B := List.filter_eq_self.mpr fun a mem => decide_eq_true (by
    rintro rfl
    exact (List.nodup_cons.mp tail).1 mem)
  rw [List.filter_append, left, List.filter_cons_of_neg (by simp), right]

theorem Inv.unlink {A B : List Nat} {front : List Place} {last : Place} (inv : Inv hashcode o) (lt : b < o.hash.length)
    (split : positions hashcode o.vs o.hash.length b = A ++ p :: B) (ends : places b A = front ++ [last]) :
    ∃ o', o.unlink last p = some o' ∧ Inv hashcode o' ∧ o'.vs = o.vs.set p none ∧ o'.hash.length = o.hash.length := by
  have inside : p ∈ positions hashcode o.vs o.hash.length b := by
    rw [split]
    exact List.mem_append_right A List.mem_cons_self
  obtain ⟨k, at_, same⟩ := mem_positions.mp inside
  obtain ⟨v, next, itemAt⟩ := exists_item at_
  have lastIn : last ∈ places b A := by
    rw [ends]
    exact List.mem_append_right _ (List.mem_singleton_self _)
  obtain ⟨y, readLast⟩ := readable lt split last lastIn
  obtain ⟨o₁, write₁, wrote⟩ := exists_write readLast next
  have live : -1 ≤ next := inv.marked.live itemAt at_
  have livePlace : ∀ q : Nat, last = .next q → ∃ k, keyAt o.vs q = some k := by
    rintro q rfl
    have mem : q ∈ positions hashcode o.vs o.hash.length b := by
      rw [split]
      exact List.mem_append_left _ (next_mem_places.mp lastIn)
    obtain ⟨k, at_, _⟩ := mem_positions.mp mem
    exact ⟨k, at_⟩
  have marked₁ := wrote.marked live livePlace inv.marked
  obtain ⟨v₁, next₁, itemAt₁⟩ : ∃ v next, o₁.os[p]? = some ⟨some (k, v), next⟩ := exists_item (by rwa [wrote.vs])
  have inside' : p < o.vs.length := keyAt_lt at_
  have vs' : (o₁.setItem p ⟨none, -2⟩).vs = o.vs.set p none := by rw [vs_setItem, wrote.vs]
  have link' : (o₁.setItem p ⟨none, -2⟩).link = Function.update o₁.link (.next p) (target (-2)) :=
    link_of_reads (read_next_of itemAt₁ ⟨none, -2⟩)
  obtain ⟨w, before, after, _⟩ := entries_split at_
  refine ⟨{ o₁.setItem p ⟨none, -2⟩ with size := o₁.size - 1 }, ?_,
    ⟨⟨fun item mem => ?_, marked₁.heads⟩, fun c ltc => ?_, ?_, ?_, ?_, ?_⟩,
    vs', wrote.table⟩
  · rw [ObjectJson.unlink, item_nat, itemAt, Option.bind_some, write₁, Option.map_some]
  · rcases List.mem_or_eq_of_mem_set mem with old | rfl
    · exact marked₁.items item old
    · exact .inl ⟨rfl, rfl⟩
  · show Linked (o₁.setItem p ⟨none, -2⟩).link (places c (positions hashcode (o₁.setItem p ⟨none, -2⟩).vs o₁.hash.length c)) none
    have ltc : c < o.hash.length := by rw [← wrote.table]; exact ltc
    rw [vs', link', wrote.table, wrote.link, positions_erase inside']
    by_cases here : c = b
    · subst here
      have nodup := nodup_positions hashcode o.vs o.hash.length c
      have linked := inv.chained c ltc
      have nodup' := nodup_places (b := c) nodup
      have cells : places c (A ++ p :: B) = front ++ [last] ++ .next p :: B.map fun p : Nat => Place.next p := by
        rw [← ends, places, places, List.map_append, List.map_cons, List.cons_append]
      have cells' : places c (A ++ B) = front ++ [last] ++ B.map fun p : Nat => Place.next p := by
        rw [← ends, places, places, List.map_append, List.cons_append]
      rw [filter_ne_split nodup split, cells']
      rw [split, cells] at linked nodup'
      have jump : target next = o.link (.next p) := (link_of_read (by rw [read_next, itemAt, Option.map_some])).symm
      rw [jump]
      refine (linked.remove_cell nodup').update_of_not_mem ?_ _
      intro mem
      rw [← cells', next_mem_places] at mem
      have gone := filter_ne_split nodup split
      rw [← gone, List.mem_filter] at mem
      simp at mem
    · have whole : (positions hashcode o.vs o.hash.length c).filter (· ≠ p) = positions hashcode o.vs o.hash.length c := by
        refine List.filter_eq_self.mpr fun q mem => decide_eq_true ?_
        rintro rfl
        exact places_apart (Ne.symm here) (next_mem_places.mpr inside) (next_mem_places.mpr mem)
      rw [whole]
      have absent : last ∉ places c (positions hashcode o.vs o.hash.length c) := by
        refine places_apart (Ne.symm here) ?_
        rw [split]
        rcases mem_places.mp lastIn with rfl | ⟨q, mem, rfl⟩
        · exact List.mem_cons_self
        · exact next_mem_places.mpr (List.mem_append_left _ mem)
      exact ((inv.chained c ltc).update_of_not_mem absent _).update_of_not_mem
        (places_apart (Ne.symm here) (next_mem_places.mpr inside)) _
  · rcases inv.table with ⟨none_, _⟩ | ⟨j, table⟩
    · rw [none_] at lt
      exact absurd lt (Nat.not_lt_zero b)
    · exact .inr ⟨j, wrote.table.trans table⟩
  · show (o₁.setItem p ⟨none, -2⟩).n ≤ o₁.capacity
    rw [n_eq, vs', List.length_set, wrote.capacity, ← n_eq]
    exact inv.room
  · show (liveKeys (o₁.setItem p ⟨none, -2⟩).vs).Nodup
    have nodup : (liveKeys o.vs).Nodup := inv.keys
    rw [liveKeys, before, List.map_append, List.map_cons] at nodup
    rw [vs', liveKeys, after, List.map_append]
    exact nodup.sublist ((List.Sublist.refl _).append (List.sublist_cons_self _ _))
  · show o₁.size - 1 = ((o₁.setItem p ⟨none, -2⟩).vs.filterMap id).length
    have size : o.size = (o.vs.filterMap id).length := inv.size
    rw [vs', after, wrote.size, size, before, List.length_append, List.length_append, List.length_cons]
    omega

/-! ### Appending -/

theorem link_push {item : ObjectItem K V} (free : item.next < 0) (c : Nat) (size : Int) :
    ({ o with os := o.os ++ [item], capacity := c, size := size } : ObjectJson K V).link = o.link := by
  funext q
  cases q with
  | bucket b => rfl
  | next x =>
    unfold link read ObjectJson.item
    by_cases positive : 0 ≤ x
    · simp only [if_pos positive]
      rcases Nat.lt_trichotomy x.toNat o.os.length with lt | eq | gt
      · rw [List.getElem?_append_left lt]
      · rw [eq, List.getElem?_concat_length, List.getElem?_eq_none (Nat.le_refl _), Option.map_some, Option.bind_some, target_neg free]
        rfl
      · rw [List.getElem?_eq_none (by rw [List.length_append, List.length_singleton]; omega), List.getElem?_eq_none (by omega)]
    · simp only [if_neg positive]

theorem liveKeys_append (vs : List (Option (K × V))) (k : K) (v : V) : liveKeys (vs ++ [some (k, v)]) = liveKeys vs ++ [k] := by
  rw [liveKeys, List.filterMap_append, List.map_append]
  rfl

theorem Inv.append {j : Nat} {front : List Place} {last : Place} (inv : Inv hashcode o) (table : o.hash.length = 8 * 2 ^ j)
    (absent : k ∉ liveKeys o.vs) (ends : places (slot hashcode o.hash.length k)
      (positions hashcode o.vs o.hash.length (slot hashcode o.hash.length k)) = front ++ [last]) (v : V) :
    ∃ o₁, o.write last o.n = some o₁ ∧ o₁.n = o.n ∧ o₁.capacity = o.capacity ∧ ∀ c, o.n < c →
      ∃ o₂, ({ o₁ with capacity := c } : ObjectJson K V).push k v = some o₂ ∧ Inv hashcode o₂ ∧ o₂.vs = o.vs ++ [some (k, v)] ∧
        o₂.hash.length = o.hash.length := by
  have lt : slot hashcode o.hash.length k < o.hash.length := slot_lt table
  have lastIn : last ∈ places (slot hashcode o.hash.length k)
      (positions hashcode o.vs o.hash.length (slot hashcode o.hash.length k)) := by
    rw [ends]
    exact List.mem_append_right _ (List.mem_singleton_self _)
  obtain ⟨y, readLast⟩ := exists_read lt lastIn
  obtain ⟨o₁, write₁, wrote⟩ := exists_write readLast o.n
  have livePlace : ∀ q : Nat, last = .next q → ∃ k, keyAt o.vs q = some k := by
    rintro q rfl
    obtain ⟨k, at_, _⟩ := mem_positions.mp (next_mem_places.mp lastIn)
    exact ⟨k, at_⟩
  have marked₁ := wrote.marked (by omega) livePlace inv.marked
  have n₁ : o₁.n = o.n := by rw [n_eq, n_eq, wrote.vs]
  refine ⟨o₁, write₁, n₁, wrote.capacity, fun c room => ?_⟩
  have vs' : ((o₁.os ++ [ObjectItem.last k v]).map fun item : ObjectItem K V => item.v) = o.vs ++ [some (k, v)] := by
    rw [List.map_append, ← wrote.vs]
    rfl
  refine ⟨{ o₁ with os := o₁.os ++ [ObjectItem.last k v], capacity := c, size := o₁.size + 1 }, ?_,
    ⟨⟨fun item mem => ?_, marked₁.heads⟩, fun b' ltb => ?_, .inr ⟨j, wrote.table.trans table⟩, ?_, ?_, ?_⟩, vs', wrote.table⟩
  · exact if_pos (by rw [← n₁] at room; exact room)
  · rcases List.mem_append.mp mem with old | new
    · exact marked₁.items item old
    · obtain rfl := List.mem_singleton.mp new
      exact .inr ⟨Option.some_ne_none _, Int.le_refl _⟩
  · have ltb : b' < o.hash.length := by rw [← wrote.table]; exact ltb
    rw [link_push (show (-1 : Int) < 0 by decide)]
    show Linked o₁.link (places b' (positions hashcode ((o₁.os ++ [ObjectItem.last k v]).map fun item : ObjectItem K V => item.v)
      o₁.hash.length b')) none
    rw [vs', wrote.table, wrote.link, positions_append, target_nat]
    have linked := inv.chained b' ltb
    split
    · rename_i same
      subst same
      have cells : ∀ ps n, places (slot hashcode o.hash.length k)
        (ps ++ [n]) = places (slot hashcode o.hash.length k) ps ++ [.next (n : Nat)] := by
        intro ps n
        rw [places, places, List.map_append, List.cons_append]
        rfl
      have nodup := nodup_places (b := slot hashcode o.hash.length k)
        (nodup_positions hashcode o.vs o.hash.length (slot hashcode o.hash.length k))
      have fresh : Place.next o.vs.length ∉ places (slot hashcode o.hash.length k)
          (positions hashcode o.vs o.hash.length (slot hashcode o.hash.length k)) := by
        rw [next_mem_places]
        intro mem
        obtain ⟨_, at_, _⟩ := mem_positions.mp mem
        exact absurd (keyAt_lt at_) (Nat.lt_irrefl _)
      have free : o.link (.next o.vs.length) = none := by
        have past : o.os.length ≤ o.vs.length := Nat.le_of_eq (List.length_map ..).symm
        rw [link, read_next, List.getElem?_eq_none past]
        rfl
      rw [cells, n_eq]
      rw [ends] at linked nodup fresh ⊢
      exact linked.append_cell nodup fresh free
    · rename_i other
      rw [List.append_nil]
      exact linked.update_of_not_mem (places_apart other lastIn) _
  · show (o₁.os ++ [ObjectItem.last k v]).length ≤ c
    rw [List.length_append, List.length_singleton]
    show o₁.n + 1 ≤ c
    omega
  · show (liveKeys ((o₁.os ++ [ObjectItem.last k v]).map fun item : ObjectItem K V => item.v)).Nodup
    have keys : (liveKeys o.vs).Nodup := inv.keys
    rw [vs', liveKeys_append]
    exact keys.append (List.nodup_singleton k) (List.disjoint_singleton.mpr absent)
  · show o₁.size + 1 = (((o₁.os ++ [ObjectItem.last k v]).map fun item : ObjectItem K V => item.v).filterMap id).length
    have size : o.size = (o.vs.filterMap id).length := inv.size
    rw [vs', List.filterMap_append, List.length_append, wrote.size, size]
    rfl

variable [DecidableEq K]

theorem keyIs_eq {k' : K} (at_ : keyAt o.vs p = some k') : o.keyIs k p = some (decide (k' = k)) := by
  rw [keyIs, keyAt_vs, at_, Option.map_some]

/-- What a loop finds that looks for a key in its bucket. -/
inductive Searched (o : ObjectJson K V) (k : K) (b : Nat) (ps : List Nat) : Option (Place × Int × Nat) → Prop
  | hit (p : Nat) (A B : List Nat) (front : List Place) (last : Place) (at_ : keyAt o.vs p = some k) (split : ps = A ++ p :: B)
      (ends : places b A = front ++ [last]) : Searched o k b ps (some (last, (p : Int), A.length))
  | miss (front : List Place) (last : Place) (x : Int) (absent : k ∉ liveKeys o.vs) (neg : x < 0)
    (ends : places b ps = front ++ [last]) :
      Searched o k b ps (some (last, x, ps.length))

theorem Inv.searched {j : Nat} (inv : Inv hashcode o) (table : o.hash.length = 8 * 2 ^ j) (fits : Fits hashcode o.hash.length k) :
    Searched o k (slot hashcode o.hash.length k) (positions hashcode o.vs o.hash.length (slot hashcode o.hash.length k))
      (o.search (o.keyIs k) o.fuel (.bucket (o.bucket hashcode k)) 0) := by
  have lt : slot hashcode o.hash.length k < o.hash.length := slot_lt table
  have linked := inv.chained _ lt
  rw [bucket_of_fits table fits]
  have misses : ∀ {A B : List Nat}, positions hashcode o.vs o.hash.length (slot hashcode o.hash.length k) = A ++ B →
      (∀ a ∈ A, keyAt o.vs a ≠ some k) → ∀ a ∈ A, o.keyIs k a = some false := by
    intro A B split other a mem
    obtain ⟨k', at_, _⟩ := mem_positions.mp (by rw [split]; exact List.mem_append_left B mem :
      a ∈ positions hashcode o.vs o.hash.length (slot hashcode o.hash.length k))
    have different : k' ≠ k := by
      rintro rfl
      exact other a mem at_
    rw [keyIs_eq at_, decide_eq_false different]
  by_cases present : k ∈ liveKeys o.vs
  · obtain ⟨p, at_⟩ := mem_liveKeys.mp present
    obtain ⟨A, B, split⟩ := List.append_of_mem (mem_positions.mpr ⟨k, at_, rfl⟩ :
      p ∈ positions hashcode o.vs o.hash.length (slot hashcode o.hash.length k))
    have nodup := nodup_positions hashcode o.vs o.hash.length (slot hashcode o.hash.length k)
    rw [split] at nodup
    have other : ∀ a ∈ A, keyAt o.vs a ≠ some k := by
      intro a mem at'
      obtain rfl := keyAt_inj inv.keys at_ at'
      exact (List.nodup_append.mp nodup).2.2 p mem p List.mem_cons_self rfl
    have shorter : A.length ≤ (positions hashcode o.vs o.hash.length (slot hashcode o.hash.length k)).length := by
      rw [split, List.length_append]
      omega
    rw [split] at linked
    obtain ⟨front, last, ends, searched⟩ := search_hit 0 linked (readable lt split) (misses split other)
      (by rw [keyIs_eq at_, decide_eq_true rfl]) (enough_fuel shorter)
    rw [searched, Nat.zero_add]
    exact .hit p A B front last at_ split ends
  · have other : ∀ a ∈ positions hashcode o.vs o.hash.length (slot hashcode o.hash.length k), keyAt o.vs a ≠ some k :=
      fun a _ at_ => present (mem_liveKeys.mpr ⟨a, at_⟩)
    obtain ⟨front, last, x, ends, neg, searched⟩ := search_miss 0 linked (readable lt (List.append_nil _).symm)
      (misses (List.append_nil _).symm other) (enough_fuel (Nat.le_refl _))
    rw [searched, Nat.zero_add]
    exact .miss front last x present neg ends

/-! ### The operations -/

def tableSize (o : ObjectJson K V) : Nat := if o.hash.length = 0 then 8 else o.hash.length

omit [DecidableEq K] in
theorem Inv.allocated (inv : Inv hashcode o) :
    Inv hashcode o.allocated ∧ o.allocated.vs = o.vs ∧ o.allocated.n = o.n ∧ o.allocated.capacity = o.capacity ∧
      o.allocated.hash.length = o.tableSize ∧ ∃ j, o.tableSize = 8 * 2 ^ j := by
  unfold ObjectJson.allocated tableSize
  rcases inv.table with ⟨hash, os⟩ | ⟨j, table⟩
  · rw [hash, if_pos List.isEmpty_nil, if_pos List.length_nil]
    have none_ : o.vs = [] := by rw [ObjectJson.vs, os, List.map_nil]
    refine ⟨⟨⟨inv.marked.items, fun x mem => ?_⟩, fun b lt => ?_, .inr ⟨0, List.length_replicate⟩, inv.room, inv.keys, inv.size⟩,
      rfl, rfl, rfl, List.length_replicate, 0, rfl⟩
    · exact Int.le_of_eq (List.eq_of_mem_replicate mem).symm
    · have read : ({ o with hash := List.replicate 8 (-1) } : ObjectJson K V).read (.bucket b) = some (-1) := by
        rw [read_bucket]
        exact List.getElem?_replicate_of_lt (by rwa [List.length_replicate] at lt)
      show Linked _ (places b (positions hashcode o.vs _ b)) none
      rw [none_]
      exact ⟨link_of_read read, trivial⟩
  · have some_ : o.hash.length ≠ 0 := by
      have positive := Nat.two_pow_pos j
      omega
    have filled : o.hash.isEmpty = false := by
      rw [List.isEmpty_eq_false_iff]
      exact List.ne_nil_of_length_pos (Nat.pos_of_ne_zero some_)
    rw [filled, if_neg Bool.false_ne_true, if_neg some_]
    exact ⟨inv, rfl, rfl, rfl, rfl, j, table⟩

variable (hashcode) in
/-- The key is new, and its bucket has more than 4 keys. -/
def Crowded (o : ObjectJson K V) (k : K) : Prop :=
  k ∉ liveKeys o.vs ∧ 4 < (positions hashcode o.vs o.tableSize (slot hashcode o.tableSize k)).length

variable (hashcode) in
/-- The buckets that an insertion computes are indices, and so is the capacity it needs. -/
structure Insertable (o : ObjectJson K V) (k : K) : Prop where
  fits : Fits hashcode o.tableSize k
  room : k ∉ liveKeys o.vs → o.n = o.capacity → o.capacity < 2 ^ 30
  rehash : k ∉ liveKeys o.vs → 4 < (positions hashcode o.vs o.tableSize (slot hashcode o.tableSize k)).length →
    ∀ k' ∈ k :: liveKeys o.vs, Fits hashcode (o.tableSize * 2) k'

omit [DecidableEq K] in
theorem Inv.rehash {j : Nat} (inv : Inv hashcode o) (table : o.hash.length = 8 * 2 ^ j)
    (fits : ∀ k ∈ liveKeys o.vs, Fits hashcode (o.hash.length * 2) k) :
    ∃ o', o.rehash hashcode = some o' ∧ Inv hashcode o' ∧ o'.vs = o.vs ∧ o'.hash.length = o.hash.length * 2 := by
  obtain ⟨o', ran, marked, chained, table', vs', capacity, size⟩ :=
    rehash_chained table inv.marked fun p k at_ => fits k (mem_liveKeys.mpr ⟨p, at_⟩)
  refine ⟨o', ran, ⟨marked, chained, .inr ⟨j + 1, by rw [table', table, Nat.pow_succ, Nat.mul_assoc]⟩, ?_, ?_, ?_⟩, vs', table'⟩
  · rw [n_eq, vs', capacity, ← n_eq]
    exact inv.room
  · rw [entries, vs']
    exact inv.keys
  · rw [entries, vs', size]
    exact inv.size

omit [DecidableEq K] in
/-- The array grows when it is full, as long as its new capacity is an `int`. -/
theorem grown (o : ObjectJson K V) (le : o.n ≤ o.capacity) :
    if o.n = o.capacity → o.capacity < 2 ^ 30 then
      ∃ c, o.n < c ∧ (if o.n = o.capacity then o.grow else some o) = some { o with capacity := c }
    else (if o.n = o.capacity then o.grow else some o) = none := by
  by_cases full : o.n = o.capacity
  · by_cases small : o.capacity < 2 ^ 30
    · rw [if_pos fun _ => small, if_pos full, grow]
      by_cases zero : o.capacity = 0
      · rw [if_neg (not_not.mpr zero)]
        exact ⟨8, by omega, if_pos (by decide)⟩
      · rw [if_pos zero]
        exact ⟨o.capacity * 2, by omega, if_pos (by omega)⟩
    · have some_ : o.capacity ≠ 0 := by omega
      rw [if_neg fun le => small (le full), if_pos full, grow, if_pos some_]
      exact if_neg (by omega)
  · rw [if_pos fun eq => absurd eq full, if_neg full]
    exact ⟨o.capacity, by omega, rfl⟩

theorem findInsert_ok (inv : Inv hashcode o) (ok : Insertable hashcode o k) (v : V) :
    ∃ o', ∃ p : Nat, o.findInsert hashcode k v = some (o', (p : Int)) ∧ Inv hashcode o' ∧ keyAt o'.vs p = some k ∧
      o'.vs = (if k ∈ liveKeys o.vs then o.vs else o.vs ++ [some (k, v)]) ∧ (Crowded hashcode o k → o'.hash.length = o.tableSize * 2) ∧
      (¬Crowded hashcode o k → o'.hash.length = o.tableSize) := by
  obtain ⟨inv₁, vs₁, n₁, capacity₁, size₁, j, table⟩ := inv.allocated
  have table₁ : o.allocated.hash.length = 8 * 2 ^ j := size₁.trans table
  have fits : Fits hashcode o.allocated.hash.length k := by
    rw [size₁]
    exact ok.fits
  have searched := inv₁.searched table₁ fits
  unfold findInsert
  dsimp only
  generalize o.allocated.search (o.allocated.keyIs k) o.allocated.fuel (.bucket (o.allocated.bucket hashcode k)) 0 = result at searched
  cases searched with
  | hit p A B front last at_ split ends =>
    have present : k ∈ liveKeys o.vs := mem_liveKeys.mpr ⟨p, by rwa [← vs₁]⟩
    rw [if_pos present]
    refine ⟨o.allocated, p, ?_, inv₁, at_, vs₁, fun crowded => absurd present crowded.1, fun _ => size₁⟩
    rw [Option.bind_some]
    exact if_pos (Int.natCast_nonneg p)
  | miss front last x absent neg ends =>
    have absent' : k ∉ liveKeys o.vs := by rwa [← vs₁]
    rw [if_neg absent', Option.bind_some]
    dsimp only
    rw [if_neg (by omega)]
    obtain ⟨o₂, wrote, n₂, capacity₂, append⟩ := inv₁.append table₁ absent ends v
    have room := grown o₂ (by rw [n₂, capacity₂]; exact inv₁.room)
    rw [if_pos (by rw [n₂, capacity₂, n₁, capacity₁]; exact ok.room absent')] at room
    obtain ⟨c, lt, grew⟩ := room
    obtain ⟨o₃, pushed, inv₃, vs₃, table₃⟩ := append c (by rwa [n₂] at lt)
    rw [wrote, Option.bind_some, grew, Option.bind_some, pushed, Option.bind_some]
    have last_ : keyAt (o.vs ++ [some (k, v)]) o.n = some k := by rw [n_eq, keyAt_append, if_pos rfl, Option.map_some]
    have length : ∀ o' : ObjectJson K V, o'.vs = o.vs ++ [some (k, v)] → (o'.n : Int) - 1 = o.n := by
      intro o' eq
      rw [n_eq, eq, List.length_append, List.length_singleton, n_eq]
      omega
    rw [vs₁] at vs₃
    split
    · rename_i long
      have crowded : Crowded hashcode o k := ⟨absent', by rwa [← vs₁, ← size₁]⟩
      obtain ⟨o₄, rehashed, inv₄, vs₄, table₄⟩ := inv₃.rehash (table₃.trans table₁) fun k' mem => by
        rw [vs₃, liveKeys_append, List.mem_append, List.mem_singleton] at mem
        rw [table₃, size₁]
        exact ok.rehash absent' crowded.2 k' (List.mem_cons.mpr mem.symm)
      rw [vs₃] at vs₄
      rw [table₃, size₁] at table₄
      exact ⟨o₄, o.n, by rw [rehashed, Option.map_some, length o₄ vs₄], inv₄, by rw [vs₄, last_], vs₄, fun _ => table₄,
        fun not => absurd crowded not⟩
    · rename_i short
      have roomy : ¬Crowded hashcode o k := fun crowded => short (by rw [vs₁, size₁]; exact crowded.2)
      exact ⟨o₃, o.n, by rw [Option.map_some, length o₃ vs₃], inv₃, by rw [vs₃, last_], vs₃, fun crowded => absurd crowded roomy,
        fun _ => table₃.trans size₁⟩

omit [DecidableEq K] in
theorem search_fails {found : Int → Option Bool} {pl : Place} (fuel chain : Nat) (out : o.read pl = none) :
    o.search found fuel pl chain = none := by
  cases fuel with
  | zero => rfl
  | succ fuel => rw [search, out, Option.bind_none]

theorem findInsert_fails (inv : Inv hashcode o) (bad : ¬Insertable hashcode o k) (v : V) : o.findInsert hashcode k v = none := by
  obtain ⟨inv₁, vs₁, n₁, capacity₁, size₁, j, table⟩ := inv.allocated
  have table₁ : o.allocated.hash.length = 8 * 2 ^ j := size₁.trans table
  by_cases fits : Fits hashcode o.allocated.hash.length k
  · have searched := inv₁.searched table₁ fits
    unfold findInsert
    dsimp only
    generalize o.allocated.search (o.allocated.keyIs k) o.allocated.fuel (.bucket (o.allocated.bucket hashcode k)) 0 = result at searched
    rw [size₁] at fits
    cases searched with
    | hit p A B front last at_ split ends =>
      have present : k ∈ liveKeys o.vs := mem_liveKeys.mpr ⟨p, by rwa [← vs₁]⟩
      exact absurd ⟨fits, fun absent => absurd present absent, fun absent => absurd present absent⟩ bad
    | miss front last x absent neg ends =>
      have absent' : k ∉ liveKeys o.vs := by rwa [← vs₁]
      rw [Option.bind_some]
      dsimp only
      rw [if_neg (by omega)]
      obtain ⟨o₂, wrote, n₂, capacity₂, append⟩ := inv₁.append table₁ absent ends v
      have room := grown o₂ (by rw [n₂, capacity₂]; exact inv₁.room)
      rw [n₂, capacity₂, n₁, capacity₁] at room
      rw [wrote, Option.bind_some, n₂, capacity₂, n₁, capacity₁]
      by_cases small : o.n = o.capacity → o.capacity < 2 ^ 30
      · rw [if_pos small] at room
        obtain ⟨c, lt, grew⟩ := room
        obtain ⟨o₃, pushed, inv₃, vs₃, table₃⟩ := append c (by rwa [n₁])
        rw [grew, Option.bind_some, pushed, Option.bind_some]
        have long : 4 < (positions hashcode o.allocated.vs o.allocated.hash.length (slot hashcode o.allocated.hash.length k)).length ∧
            ∃ k' ∈ k :: liveKeys o.vs, ¬Fits hashcode (o.tableSize * 2) k' := by
          by_contra none_
          refine bad ⟨fits, fun _ => small, fun _ long k' mem => ?_⟩
          by_contra out
          exact none_ ⟨by rwa [vs₁, size₁], k', mem, out⟩
        obtain ⟨k', mem, out⟩ := long.2
        have mem₃ : k' ∈ liveKeys o₃.vs := by
          rw [vs₃, liveKeys_append, List.mem_append, List.mem_singleton, vs₁]
          exact (List.mem_cons.mp mem).symm
        obtain ⟨p, at_⟩ := mem_liveKeys.mp mem₃
        rw [if_pos long.1, rehash_fails (table₃.trans table₁) inv₃.marked at_ (by rwa [table₃, size₁]), Option.map_none]
      · rw [if_neg small] at room
        rw [room, Option.bind_none]
  · unfold findInsert
    dsimp only
    rw [search_fails _ _ (read_bucket_neg (bucket_neg table₁ fits)), Option.bind_none]

/-! ### Finding and erasing -/

variable (hashcode) in
def Indexed (o : ObjectJson K V) (k : K) : Prop := o.hash.length ≠ 0 ∧ Fits hashcode o.hash.length k

omit [DecidableEq K] in
theorem Inv.table_of (inv : Inv hashcode o) (some_ : o.hash.length ≠ 0) : ∃ j, o.hash.length = 8 * 2 ^ j := by
  rcases inv.table with ⟨none_, _⟩ | table
  · rw [none_] at some_
    exact absurd rfl some_
  · exact table

omit [DecidableEq K] in
theorem Inv.not_indexed (inv : Inv hashcode o) (out : ¬Indexed hashcode o k) : o.read (.bucket (o.bucket hashcode k)) = none := by
  by_cases none_ : o.hash.length = 0
  · unfold read
    dsimp only
    rw [List.eq_nil_of_length_eq_zero none_, List.getElem?_nil, ite_self]
  · obtain ⟨j, table⟩ := inv.table_of none_
    exact read_bucket_neg (bucket_neg table fun fits => out ⟨none_, fits⟩)

theorem erase_ok (inv : Inv hashcode o) (ok : Indexed hashcode o k) : ∃ o' r, o.erase hashcode k = some (o', r) ∧ Inv hashcode o' ∧
    if k ∈ liveKeys o.vs then r = 1 ∧ ∃ p, keyAt o.vs p = some k ∧ o'.vs = o.vs.set p none else r = 0 ∧ o'.vs = o.vs := by
  obtain ⟨j, table⟩ := inv.table_of ok.1
  have searched := inv.searched table ok.2
  unfold erase
  generalize o.search (o.keyIs k) o.fuel (.bucket (o.bucket hashcode k)) 0 = result at searched
  cases searched with
  | hit p A B front last at_ split ends =>
    have present : k ∈ liveKeys o.vs := mem_liveKeys.mpr ⟨p, at_⟩
    obtain ⟨o', unlinked, inv', vs', _⟩ := inv.unlink (slot_lt table) split ends
    refine ⟨o', 1, ?_, inv', ?_⟩
    · rw [Option.bind_some]
      dsimp only
      rw [if_pos (Int.natCast_nonneg p), unlinked, Option.map_some]
    · rw [if_pos present]
      exact ⟨rfl, p, at_, vs'⟩
  | miss front last x absent neg ends =>
    refine ⟨o, 0, ?_, inv, ?_⟩
    · rw [Option.bind_some]
      exact if_neg (by omega)
    · rw [if_neg absent]
      exact ⟨rfl, rfl⟩

theorem erase_fails (inv : Inv hashcode o) (out : ¬Indexed hashcode o k) : o.erase hashcode k = none := by
  rw [erase, search_fails _ _ (inv.not_indexed out), Option.bind_none]

omit [DecidableEq K] in
theorem eraseAt_ok (inv : Inv hashcode o) (at_ : keyAt o.vs p = some k) (ok : Indexed hashcode o k) :
    ∃ o', o.eraseAt hashcode p = some o' ∧ Inv hashcode o' ∧ o'.vs = o.vs.set p none := by
  obtain ⟨j, table⟩ := inv.table_of ok.1
  have lt : slot hashcode o.hash.length k < o.hash.length := slot_lt table
  obtain ⟨A, B, split⟩ := List.append_of_mem (mem_positions.mpr ⟨k, at_, rfl⟩ :
    p ∈ positions hashcode o.vs o.hash.length (slot hashcode o.hash.length k))
  have nodup := nodup_positions hashcode o.vs o.hash.length (slot hashcode o.hash.length k)
  have linked := inv.chained _ lt
  rw [split] at nodup linked
  obtain ⟨found, same⟩ : ∃ found : Int → Option Bool, found = fun x : Int => some (decide (x = p)) := ⟨_, rfl⟩
  have misses : ∀ a ∈ A, found a = some false := by
    intro a mem
    have other : a ≠ p := (List.nodup_append.mp nodup).2.2 a mem p List.mem_cons_self
    rw [same]
    exact congrArg some (decide_eq_false (by omega))
  have shorter : A.length ≤ (positions hashcode o.vs o.hash.length (slot hashcode o.hash.length k)).length := by
    rw [split, List.length_append]
    omega
  have hit : found p = some true := by
    rw [same]
    exact congrArg some (decide_eq_true rfl)
  obtain ⟨front, last, ends, searched⟩ := search_hit 0 linked (readable lt split) misses hit (enough_fuel shorter)
  obtain ⟨o', unlinked, inv', vs', _⟩ := inv.unlink lt split ends
  refine ⟨o', ?_, inv', vs'⟩
  rw [eraseAt, keyAt_vs, at_, Option.bind_some, bucket_of_fits table ok.2, ← same, searched, Option.bind_some]
  dsimp only
  rw [if_pos rfl, unlinked]

omit [DecidableEq K] in
theorem eraseAt_fails (inv : Inv hashcode o) (at_ : keyAt o.vs p = some k) (out : ¬Indexed hashcode o k) :
    o.eraseAt hashcode p = none := by
  rw [eraseAt, keyAt_vs, at_, Option.bind_some, search_fails _ _ (inv.not_indexed out), Option.bind_none]

/-- The loop of `find` ends where that of `erase` does. -/
theorem findFrom_eq {pl : Place} {x : Int} (read : o.read pl = some x) (fuel chain : Nat) :
    o.findFrom k fuel x = (o.search (o.keyIs k) fuel pl chain).map fun found => if 0 ≤ found.2.1 then found.2.1 else -1 := by
  induction fuel generalizing pl x chain with
  | zero => rfl
  | succ fuel ih =>
    rw [findFrom, search, read, Option.bind_some]
    by_cases neg : x < 0
    · rw [if_neg (by omega), if_pos neg, Option.map_some]
      exact congrArg some (if_neg (show ¬0 ≤ x by omega)).symm
    · rw [if_pos (by omega), if_neg neg]
      cases item : o.item x with
      | none =>
        have none_ : o.keyIs k x = none := by rw [keyIs, key, item, Option.bind_none, Option.map_none]
        rw [none_, Option.bind_none, Option.bind_none, Option.map_none]
      | some oi =>
        cases o.keyIs k x with
        | none => rw [Option.bind_none, Option.bind_none, Option.map_none]
        | some hit =>
          cases hit with
          | true =>
            simp only [Option.bind_some, ↓reduceIte, Option.map_some]
            exact congrArg some (if_pos (show 0 ≤ x by omega)).symm
          | false =>
            simp only [Option.bind_some, Bool.false_eq_true, ↓reduceIte]
            have next : o.read (.next x) = some oi.next := by
              rw [ObjectJson.read, item, Option.map_some]
            exact ih next (chain + 1)

theorem find_ok (inv : Inv hashcode o) (ok : o.hash.length ≠ 0 → Fits hashcode o.hash.length k) : ∃ x, o.find hashcode k = some x ∧
    if k ∈ liveKeys o.vs then ∃ p : Nat, x = p ∧ keyAt o.vs p = some k else x = -1 := by
  unfold find
  by_cases some_ : o.hash.length ≠ 0
  · obtain ⟨j, table⟩ := inv.table_of some_
    have searched := inv.searched table (ok some_)
    obtain ⟨y, read⟩ : ∃ y, o.read (.bucket (o.bucket hashcode k)) = some y := by
      rw [bucket_of_fits table (ok some_)]
      exact exists_read_bucket (slot_lt table)
    rw [if_pos some_, read, Option.bind_some, findFrom_eq read o.fuel 0]
    generalize o.search (o.keyIs k) o.fuel (.bucket (o.bucket hashcode k)) 0 = result at searched
    cases searched with
    | hit p A B front last at_ split ends =>
      refine ⟨p, by rw [Option.map_some, if_pos (Int.natCast_nonneg p)], ?_⟩
      rw [if_pos (mem_liveKeys.mpr ⟨p, at_⟩)]
      exact ⟨p, rfl, at_⟩
    | miss front last x absent neg ends =>
      refine ⟨-1, ?_, by rw [if_neg absent]⟩
      rw [Option.map_some]
      exact congrArg some (if_neg (show ¬0 ≤ x by omega))
  · rw [if_neg some_]
    refine ⟨-1, rfl, ?_⟩
    rcases inv.table with ⟨_, os⟩ | ⟨j, table⟩
    · rw [ObjectJson.vs, os, List.map_nil]
      have absent : k ∉ liveKeys ([] : List (Option (K × V))) := List.not_mem_nil
      rw [if_neg absent]
    · have positive := Nat.two_pow_pos j
      omega

theorem find_fails (inv : Inv hashcode o) (some_ : o.hash.length ≠ 0) (out : ¬Fits hashcode o.hash.length k) :
    o.find hashcode k = none := by
  rw [find, if_pos some_, inv.not_indexed fun indexed => out indexed.2, Option.bind_none]

/-! ### Values -/

variable (hashcode)

omit [DecidableEq K]

theorem assign_ok (inv : Inv hashcode o) (at_ : keyAt o.vs p = some k) (v : V) :
    ∃ o', o.assign p v = some o' ∧ Inv hashcode o' ∧ o'.vs = o.vs.set p (some (k, v)) := by
  obtain ⟨w, next, itemAt⟩ := exists_item at_
  have live : -1 ≤ next := inv.marked.live itemAt at_
  have lt := keyAt_lt at_
  have vs' : (o.setItem p ⟨some (k, v), next⟩).vs = o.vs.set p (some (k, v)) := vs_setItem o p _
  have same : ∀ q, keyAt (o.vs.set p (some (k, v))) q = keyAt o.vs q := by
    intro q
    rw [keyAt_set _ lt]
    split
    · rename_i eq
      rw [eq, at_, Option.map_some]
    · rfl
  have link' : (o.setItem p ⟨some (k, v), next⟩).link = o.link := by
    rw [link_of_reads (read_next_of itemAt ⟨some (k, v), next⟩)]
    refine Function.update_eq_self_iff.mpr ?_
    exact (link_of_read (by rw [read_next, itemAt, Option.map_some])).symm
  obtain ⟨w, before, _, after⟩ := entries_split at_
  refine ⟨o.setItem p ⟨some (k, v), next⟩, ?_, ⟨⟨fun item mem => ?_, inv.marked.heads⟩, fun b ltb => ?_, ?_, ?_, ?_, ?_⟩, vs'⟩
  · rw [assign, item_nat, itemAt, Option.bind_some, Option.map_some]
  · rcases List.mem_or_eq_of_mem_set mem with old | rfl
    · exact inv.marked.items item old
    · exact .inr ⟨Option.some_ne_none _, live⟩
  · rw [link', vs', positions_congr List.length_set same]
    exact inv.chained b ltb
  · rcases inv.table with ⟨none_, os⟩ | table
    · rw [os] at itemAt
      cases itemAt
    · exact .inr table
  · rw [n_eq, vs', List.length_set, ← n_eq]
    exact inv.room
  · have nodup : ((o.vs.filterMap id).map Prod.fst).Nodup := inv.keys
    rw [before, List.map_append, List.map_cons] at nodup
    rw [entries, vs', after, List.map_append, List.map_cons]
    exact nodup
  · have size : o.size = (o.vs.filterMap id).length := inv.size
    rw [entries, vs', after, List.length_append, List.length_cons]
    rw [before, List.length_append, List.length_cons] at size
    exact size

theorem inv_empty : Inv hashcode (empty : ObjectJson K V) :=
  ⟨⟨fun _ mem => absurd mem List.not_mem_nil, fun _ mem => absurd mem List.not_mem_nil⟩, fun b lt => absurd lt (Nat.not_lt_zero b),
    .inl ⟨rfl, rfl⟩, Nat.le_refl _, List.nodup_nil, rfl⟩

theorem inv_clear (inv : Inv hashcode o) : Inv hashcode o.clear := by
  refine ⟨⟨fun _ mem => absurd mem List.not_mem_nil, fun x mem => ?_⟩, fun b lt => ?_, ?_, Nat.zero_le _, List.nodup_nil, rfl⟩
  · exact Int.le_of_eq (List.eq_of_mem_replicate mem).symm
  · have read : o.clear.read (.bucket b) = some (-1) := by
      rw [read_bucket]
      exact List.getElem?_replicate_of_lt (by rwa [clear, List.length_replicate] at lt)
    exact ⟨link_of_read read, trivial⟩
  · rcases inv.table with ⟨none_, _⟩ | ⟨j, table⟩
    · rw [clear, none_]
      exact .inl ⟨rfl, rfl⟩
    · exact .inr ⟨j, List.length_replicate.trans table⟩

/-- The copy is the same table. -/
theorem copy_eq (inv : Inv hashcode o) : o.copy = o := by
  have same : (o.os.map fun item => if item.next = -2 then ⟨none, -2⟩ else ⟨item.v, item.next⟩) = o.os := by
    refine (List.map_congr_left fun item mem => ?_).trans (List.map_id o.os)
    rcases inv.marked.items item mem with ⟨gone, free⟩ | ⟨_, live⟩
    · rw [if_pos free, ← gone, ← free]
      rfl
    · rw [if_neg (by omega)]
      rfl
  rw [copy, same]

/-! ### Iterating -/

/-- Where `fix` stops from `i` on. -/
inductive Fixed (vs : List (Option (K × V))) (i : Nat) : Option Int → Prop
  | live (p : Nat) (entry : K × V) (le : i ≤ p) (at_ : vs[p]? = some (some entry))
      (from_ : (vs.drop i).filterMap id = entry :: (vs.drop (p + 1)).filterMap id)
      (upTo : (vs.take p).filterMap id = (vs.take i).filterMap id) : Fixed vs i (some (p : Int))
  | stop (from_ : (vs.drop i).filterMap id = []) : Fixed vs i (some (-1))

theorem fixed (marked : o.Marked) (fuel : Nat) {i : Nat} (le : i ≤ o.n) (enough : o.n < i + fuel) : Fixed o.vs i (o.fix fuel i) := by
  induction fuel generalizing i with
  | zero => omega
  | succ fuel ih =>
    rw [fix]
    rcases Nat.lt_or_eq_of_le le with lt | rfl
    · have lt' : i < o.os.length := lt
      have itemAt := List.getElem?_eq_getElem lt'
      have here : o.vs[i]? = some (o.os[i]).v := by rw [ObjectJson.vs, List.getElem?_map, itemAt, Option.map_some]
      obtain ⟨ltv, eq⟩ := List.getElem?_eq_some_iff.mp here
      have down : o.vs.drop i = (o.os[i]).v :: o.vs.drop (i + 1) := by rw [List.drop_eq_getElem_cons ltv, eq]
      rw [if_neg (by omega), item_nat, itemAt, Option.bind_some]
      rcases marked.items _ (List.mem_of_getElem? itemAt) with ⟨gone, free⟩ | ⟨some_, live⟩
      · rw [if_pos free]
        have up : o.vs.take (i + 1) = o.vs.take i ++ [none] := by rw [List.take_add_one, here, gone, Option.toList_some]
        have from_ : (o.vs.drop i).filterMap id = (o.vs.drop (i + 1)).filterMap id := by rw [down, gone]; rfl
        have upTo : (o.vs.take (i + 1)).filterMap id = (o.vs.take i).filterMap id := by
          rw [up, List.filterMap_append]
          exact List.append_nil _
        have rest : Fixed o.vs (i + 1) (o.fix fuel (i + 1)) := ih lt (by omega)
        generalize o.fix fuel (i + 1) = result at rest
        cases rest with
        | live p entry above at_ from' upTo' => exact .live p entry (Nat.le_of_succ_le above) at_ (from_.trans from') (upTo'.trans upTo)
        | stop from' => exact .stop (from_.trans from')
      · rw [if_neg (by omega)]
        obtain ⟨entry, is⟩ := Option.ne_none_iff_exists'.mp some_
        exact .live i entry (Nat.le_refl i) (by rw [here, is]) (by rw [down, is]; rfl) rfl
    · rw [if_pos (Int.le_refl _)]
      exact .stop (by rw [List.drop_of_length_le (Nat.le_of_eq (n_eq o).symm)]; rfl)

theorem fixed_begin (marked : o.Marked) : Fixed o.vs 0 o.begin := fixed marked o.fuel (Nat.zero_le o.n) (by rw [fuel]; omega)

theorem fixed_step (marked : o.Marked) (lt : p < o.vs.length) : Fixed o.vs (p + 1) (o.step p) :=
  fixed marked o.fuel (by rw [n_eq]; exact lt) (by rw [fuel]; omega)

theorem deref_eq {entry : K × V} (at_ : o.vs[p]? = some (some entry)) : o.deref p = some entry := by
  rw [ObjectJson.vs, List.getElem?_map, Option.map_eq_some_iff] at at_
  obtain ⟨item, itemAt, is⟩ := at_
  rw [ObjectJson.deref, item_nat, itemAt, Option.bind_some, is]

theorem iterateFrom_eq (marked : o.Marked) {fuel i : Nat} (le : i ≤ o.vs.length) (enough : o.vs.length < i + fuel) {x : Option Int}
    (fixed : Fixed o.vs i x) : (x.bind fun p => o.iterateFrom fuel p) = some ((o.vs.drop i).filterMap id) := by
  induction fuel generalizing i x with
  | zero => omega
  | succ fuel ih =>
    cases fixed with
    | stop from_ =>
      rw [from_, Option.bind_some, iterateFrom]
      exact if_neg (by decide)
    | live p entry above at_ from_ upTo =>
      have lt := (List.getElem?_eq_some_iff.mp at_).1
      rw [Option.bind_some, iterateFrom, if_pos (Int.natCast_nonneg p), deref_eq at_, Option.bind_some, from_]
      have rest := ih lt (by omega) (fixed_step marked lt)
      cases stepped : o.step p with
      | none =>
        rw [stepped] at rest
        cases rest
      | some q =>
        rw [stepped, Option.bind_some] at rest
        rw [Option.bind_some, rest, Option.map_some]

theorem iterate_eq (marked : o.Marked) : o.iterate = some o.entries := by
  have all := iterateFrom_eq marked (Nat.zero_le _) (show o.vs.length < 0 + o.fuel by rw [fuel, n_eq]; omega) (fixed_begin marked)
  rwa [List.drop_zero] at all

/-- The iterator after `j` steps is at entry `j`. -/
theorem iterator_eq (marked : o.Marked) {j : Nat} (lt : j < o.entries.length) :
    ∃ p : Nat, ∃ entry, o.iterator j = some (p : Int) ∧ o.vs[p]? = some (some entry) ∧ ((o.vs.take p).filterMap id).length = j := by
  induction j with
  | zero =>
    have start := fixed_begin marked
    rw [iterator]
    generalize o.begin = result at start
    cases start with
    | stop from_ =>
      rw [List.drop_zero] at from_
      rw [entries, from_] at lt
      exact absurd lt (Nat.lt_irrefl 0)
    | live p entry above at_ from_ upTo =>
      refine ⟨p, entry, rfl, at_, ?_⟩
      rw [upTo, List.take_zero]
      rfl
  | succ j ih =>
    obtain ⟨p, entry, at_, here, before⟩ := ih (Nat.lt_of_succ_lt lt)
    have ltp := (List.getElem?_eq_some_iff.mp here).1
    have stepped := fixed_step marked ltp
    have upToHere : ((o.vs.take (p + 1)).filterMap id).length = j + 1 := by
      rw [List.take_add_one, here, List.filterMap_append, List.length_append, before]
      rfl
    rw [iterator, at_, Option.bind_some]
    generalize o.step p = result at stepped
    cases stepped with
    | stop from_ =>
      have whole : o.entries = (o.vs.take (p + 1)).filterMap id ++ (o.vs.drop (p + 1)).filterMap id := by
        rw [← List.filterMap_append, List.take_append_drop]
        rfl
      rw [whole, from_, List.append_nil, upToHere] at lt
      exact absurd lt (Nat.lt_irrefl _)
    | live q entry above at_ from_ upTo => exact ⟨q, entry, rfl, at_, by rw [upTo, upToHere]⟩

end Masstree.ObjectJson
