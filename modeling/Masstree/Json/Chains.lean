import Masstree.Json.Object
import Mathlib.Data.List.GetD
import Mathlib.Data.Nat.Bits

/-!
# The chains of the hash table

The list of a bucket goes through the positions of its live items in order.
-/

namespace Masstree.ObjectJson

variable {K V : Type} (hashcode : K → UInt32)

def vs (o : ObjectJson K V) : List (Option (K × V)) := o.os.map (·.v)

def entries (o : ObjectJson K V) : List (K × V) := o.vs.filterMap id

def keyAt (vs : List (Option (K × V))) (p : Nat) : Option K := vs[p]?.join.map Prod.fst

/-- The bucket of a key among `len`. -/
def slot (len : Nat) (k : K) : Nat := (hashcode k).toNat % len

/-- The bucket is an index that an `int` holds. -/
def Fits (len : Nat) (k : K) : Prop := slot hashcode len k < 2 ^ 31

instance (len : Nat) (k : K) : Decidable (Fits hashcode len k) := inferInstanceAs (Decidable (_ < _))

def positions (vs : List (Option (K × V))) (len b : Nat) : List Nat :=
  (List.range vs.length).filter fun p => decide ((keyAt vs p).map (slot hashcode len) = some b)

/-- The head of a bucket and the `next_` of the items. -/
def places (b : Nat) (ps : List Nat) : List Place := .bucket b :: ps.map fun p : Nat => .next p

/-- What is free is -2, what ends a list -1. -/
structure Marked (o : ObjectJson K V) : Prop where
  items : ∀ item ∈ o.os, (item.v = none ∧ item.next = -2) ∨ (item.v ≠ none ∧ -1 ≤ item.next)
  heads : ∀ x ∈ o.hash, -1 ≤ x

def Chained (o : ObjectJson K V) : Prop :=
  ∀ b < o.hash.length, Linked o.link (places b (positions hashcode o.vs o.hash.length b)) none

structure Inv (o : ObjectJson K V) : Prop where
  marked : o.Marked
  chained : o.Chained hashcode
  table : (o.hash = [] ∧ o.os = []) ∨ ∃ j, o.hash.length = 8 * 2 ^ j
  room : o.n ≤ o.capacity
  keys : (o.entries.map Prod.fst).Nodup
  size : o.size = o.entries.length

/-! ### Buckets -/

variable {hashcode} {o o' : ObjectJson K V} {k : K} {len b p : Nat} {vs : List (Option (K × V))}

theorem bucket_and {j : Nat} (table : o.hash.length = 8 * 2 ^ j) :
    (hashcode k).toNat &&& (o.hash.length + (2 ^ 64 - 1)) % 2 ^ 64 = slot hashcode o.hash.length k := by
  have bound := (hashcode k).toNat_lt
  have power : o.hash.length = 2 ^ (j + 3) := by rw [table, Nat.pow_add, Nat.mul_comm]
  rw [slot, power]
  rcases Nat.lt_or_ge (j + 3) 64 with small | large
  · have lt : 2 ^ (j + 3) < 2 ^ 64 := Nat.pow_lt_pow_right (by decide) small
    have positive := Nat.two_pow_pos (j + 3)
    have mask : (2 ^ (j + 3) + (2 ^ 64 - 1)) % 2 ^ 64 = 2 ^ (j + 3) - 1 := by omega
    rw [mask]
    exact Nat.and_two_pow_sub_one_eq_mod _ _
  · obtain ⟨more, eq⟩ := Nat.exists_eq_add_of_le large
    have mask : (2 ^ (j + 3) + (2 ^ 64 - 1)) % 2 ^ 64 = 2 ^ 64 - 1 := by
      rw [eq, Nat.pow_add]
      have positive := Nat.two_pow_pos more
      omega
    have lt : (hashcode k).toNat < 2 ^ (j + 3) := Nat.lt_of_lt_of_le (by omega) (Nat.pow_le_pow_right (by decide) large)
    rw [mask, Nat.mod_eq_of_lt lt, Nat.and_two_pow_sub_one_eq_mod]
    exact Nat.mod_eq_of_lt (by omega)

theorem bucket_of_fits {j : Nat} (table : o.hash.length = 8 * 2 ^ j) (fits : Fits hashcode o.hash.length k) :
    o.bucket hashcode k = slot hashcode o.hash.length k := by
  unfold Fits at fits
  rw [bucket, bucket_and table, BitVec.toInt_eq_toNat_cond, BitVec.toNat_ofNat, Nat.mod_eq_of_lt (by omega), if_pos (by omega)]

theorem bucket_neg {j : Nat} (table : o.hash.length = 8 * 2 ^ j) (out : ¬Fits hashcode o.hash.length k) :
    o.bucket hashcode k < 0 := by
  have bound : slot hashcode o.hash.length k < 2 ^ 32 := Nat.lt_of_le_of_lt (Nat.mod_le _ _) (hashcode k).toNat_lt
  unfold Fits at out
  rw [bucket, bucket_and table, BitVec.toInt_eq_toNat_cond, BitVec.toNat_ofNat, Nat.mod_eq_of_lt bound, if_neg (by omega)]
  omega

theorem slot_lt {j : Nat} (table : len = 8 * 2 ^ j) : slot hashcode len k < len :=
  Nat.mod_lt _ (by have positive := Nat.two_pow_pos j; omega)

theorem read_bucket_neg {x : Int} (neg : x < 0) : o.read (.bucket x) = none := if_neg (by omega)

/-! ### Positions -/

theorem keyAt_vs (o : ObjectJson K V) (p : Nat) : o.key p = keyAt o.vs p := by
  rw [key, item_nat, keyAt, ObjectJson.vs, List.getElem?_map]
  cases o.os[p]? with
  | none => rfl
  | some item => rfl

theorem keyAt_lt (at_ : keyAt vs p = some k) : p < vs.length := by
  by_contra out
  rw [keyAt, List.getElem?_eq_none (by omega)] at at_
  cases at_

theorem mem_positions : p ∈ positions hashcode vs len b ↔ ∃ k, keyAt vs p = some k ∧ slot hashcode len k = b := by
  rw [positions, List.mem_filter, List.mem_range, decide_eq_true_eq, Option.map_eq_some_iff]
  exact ⟨And.right, fun ⟨k, at_, eq⟩ => ⟨keyAt_lt at_, k, at_, eq⟩⟩

variable (hashcode) in
theorem nodup_positions (vs : List (Option (K × V))) (len b : Nat) : (positions hashcode vs len b).Nodup := List.nodup_range.filter _

theorem next_injective : Function.Injective fun p : Nat => Place.next p := by
  intro p q eq
  rw [Place.next.injEq] at eq
  omega

theorem nodup_places {ps : List Nat} (nodup : ps.Nodup) : (places b ps).Nodup := by
  refine List.nodup_cons.mpr ⟨?_, nodup.map next_injective⟩
  rw [List.mem_map]
  rintro ⟨_, _, eq⟩
  cases eq

theorem next_mem_places {ps : List Nat} : Place.next p ∈ places b ps ↔ p ∈ ps := by
  rw [places, List.mem_cons, List.mem_map]
  constructor
  · rintro (eq | ⟨q, mem, eq⟩)
    · cases eq
    · rwa [← next_injective eq]
  · exact fun mem => .inr ⟨p, mem, rfl⟩

theorem mem_places {ps : List Nat} {pl : Place} : pl ∈ places b ps ↔ pl = .bucket b ∨ ∃ p ∈ ps, pl = .next (p : Nat) := by
  rw [places, List.mem_cons, List.mem_map]
  refine or_congr_right ⟨?_, ?_⟩ <;> rintro ⟨p, mem, rfl⟩ <;> exact ⟨p, mem, rfl⟩

/-- Two buckets share no place. -/
theorem places_apart {b' : Nat} (ne : b ≠ b') {pl : Place} (mem : pl ∈ places b (positions hashcode vs len b)) :
    pl ∉ places b' (positions hashcode vs len b') := by
  intro mem'
  rcases mem_places.mp mem with rfl | ⟨p, inside, rfl⟩
  · rcases mem_places.mp mem' with eq | ⟨_, _, eq⟩
    · rw [Place.bucket.injEq] at eq
      omega
    · cases eq
  · obtain ⟨k, at_, rfl⟩ := mem_positions.mp inside
    obtain ⟨k', at', rfl⟩ := mem_positions.mp (next_mem_places.mp mem')
    rw [at_, Option.some.injEq] at at'
    exact ne (by rw [at'])

theorem exists_read_bucket (lt : b < o.hash.length) : ∃ x, o.read (.bucket b) = some x := by
  rw [read_bucket, List.getElem?_eq_getElem lt]
  exact ⟨_, rfl⟩

theorem exists_read_next (lt : p < o.vs.length) : ∃ x, o.read (.next p) = some x := by
  rw [ObjectJson.vs, List.length_map] at lt
  rw [read_next, List.getElem?_eq_getElem lt]
  exact ⟨_, rfl⟩

/-- The places of a bucket are within the arrays. -/
theorem exists_read (lt : b < o.hash.length) {pl : Place} (mem : pl ∈ places b (positions hashcode o.vs len b)) :
    ∃ x, o.read pl = some x := by
  rcases mem_places.mp mem with rfl | ⟨p, inside, rfl⟩
  · exact exists_read_bucket lt
  · obtain ⟨k, at_, _⟩ := mem_positions.mp inside
    exact exists_read_next (keyAt_lt at_)

/-! ### Writes -/

/-- What `*b = x` leaves. -/
structure Wrote (o o' : ObjectJson K V) (pl : Place) (x : Int) : Prop where
  vs : o'.vs = o.vs
  table : o'.hash.length = o.hash.length
  capacity : o'.capacity = o.capacity
  size : o'.size = o.size
  link : o'.link = Function.update o.link pl (target x)
  marked : -1 ≤ x → (∀ p : Nat, pl = .next p → ∃ k, keyAt o.vs p = some k) → o.Marked → o'.Marked

theorem read_bucket_of (lt : b < o.hash.length) (x : Int) (pl : Place) :
    ({ o with hash := o.hash.set b x }).read pl = if pl = .bucket b then some x else o.read pl := by
  cases pl with
  | bucket c =>
    by_cases same : c = b
    · rw [if_pos (congrArg Place.bucket same), same, read_bucket]
      exact List.getElem?_set_self lt
    · rw [if_neg fun eq => same (Place.bucket.inj eq)]
      unfold read
      by_cases positive : 0 ≤ c
      · simp only [if_pos positive]
        exact List.getElem?_set_ne (by omega)
      · simp only [if_neg positive]
  | next c => exact (if_neg (by simp)).symm

theorem read_next_of {item : ObjectItem K V} (at_ : o.os[p]? = some item) (item' : ObjectItem K V) (pl : Place) :
    (o.setItem p item').read pl = if pl = .next p then some item'.next else o.read pl := by
  have lt : p < o.os.length := (List.getElem?_eq_some_iff.mp at_).1
  cases pl with
  | bucket c => exact (if_neg (by simp)).symm
  | next c =>
    by_cases same : c = p
    · rw [if_pos (congrArg Place.next same), same, read_next, setItem, Int.toNat_natCast, List.getElem?_set_self lt, Option.map_some]
    · rw [if_neg fun eq => same (Place.next.inj eq)]
      unfold read ObjectJson.item setItem
      by_cases positive : 0 ≤ c
      · simp only [if_pos positive, Int.toNat_natCast, List.getElem?_set_ne (show p ≠ c.toNat by omega)]
      · simp only [if_neg positive]

theorem link_of_reads {pl : Place} {x : Int} (reads : ∀ q, o'.read q = if q = pl then some x else o.read q) :
    o'.link = Function.update o.link pl (target x) := by
  funext q
  rw [link, reads, Function.update_apply]
  split
  · rw [Option.bind_some]
  · rfl

theorem vs_setItem (o : ObjectJson K V) (p : Nat) (item' : ObjectItem K V) :
    (o.setItem p item').vs = o.vs.set p item'.v := by
  rw [ObjectJson.vs, setItem, Int.toNat_natCast, List.map_set, ← ObjectJson.vs]

theorem exists_write {pl : Place} {y : Int} (reads : o.read pl = some y) (x : Int) : ∃ o', o.write pl x = some o' ∧ Wrote o o' pl x := by
  cases pl with
  | bucket c =>
    unfold read at reads
    dsimp only at reads
    split at reads
    · rename_i positive
      obtain ⟨b, rfl⟩ := Int.eq_ofNat_of_zero_le positive
      rw [Int.toNat_natCast] at reads
      have lt := (List.getElem?_eq_some_iff.mp reads).1
      refine ⟨_, if_pos ⟨positive, by omega⟩, rfl, List.length_set .., rfl, rfl, link_of_reads fun q => ?_, fun small _ marked => ?_⟩
      · exact read_bucket_of lt x q
      · refine ⟨marked.items, fun y mem => ?_⟩
        rcases List.mem_or_eq_of_mem_set mem with old | rfl
        · exact marked.heads y old
        · exact small
    · cases reads
  | next c =>
    have at_ := reads
    unfold read ObjectJson.item at at_
    dsimp only at at_
    split at at_
    · rename_i positive
      obtain ⟨p, rfl⟩ := Int.eq_ofNat_of_zero_le positive
      rw [Int.toNat_natCast, Option.map_eq_some_iff] at at_
      obtain ⟨item, at_, rfl⟩ := at_
      have here : o.vs[p]? = some item.v := by rw [ObjectJson.vs, List.getElem?_map, at_, Option.map_some]
      have same : o.vs.set p item.v = o.vs := by
        obtain ⟨lt, eq⟩ := List.getElem?_eq_some_iff.mp here
        rw [← eq, List.set_getElem_self]
      refine ⟨o.setItem p { item with next := x }, ?_, ?_, rfl, rfl, rfl, link_of_reads fun q => ?_, fun small live marked => ?_⟩
      · rw [write, item_nat, at_, Option.map_some]
      · rw [vs_setItem, same]
      · exact read_next_of at_ _ q
      · refine ⟨fun other mem => ?_, marked.heads⟩
        rw [setItem, Int.toNat_natCast] at mem
        rcases List.mem_or_eq_of_mem_set mem with old | rfl
        · exact marked.items other old
        · obtain ⟨k, at'⟩ := live p rfl
          refine .inr ⟨fun gone => ?_, small⟩
          rw [keyAt, here, Option.join_some, show item.v = none from gone] at at'
          cases at'
    · cases at_

theorem keyAt_of_item {item : ObjectItem K V} (at_ : o.os[p]? = some item) : keyAt o.vs p = item.v.map Prod.fst := by
  have here : o.vs[p]? = some item.v := by rw [ObjectJson.vs, List.getElem?_map, at_, Option.map_some]
  rw [keyAt, here, Option.join_some]

theorem Marked.live {item : ObjectItem K V} (marked : o.Marked) (at_ : o.os[p]? = some item) (key : keyAt o.vs p = some k) :
    -1 ≤ item.next := by
  rcases marked.items item (List.mem_of_getElem? at_) with ⟨gone, _⟩ | ⟨_, live⟩
  · rw [keyAt_of_item at_, gone] at key
    cases key
  · exact live

theorem Marked.free {item : ObjectItem K V} (marked : o.Marked) (at_ : o.os[p]? = some item) (key : keyAt o.vs p = none) :
    item.next = -2 := by
  rcases marked.items item (List.mem_of_getElem? at_) with ⟨_, free⟩ | ⟨some_, _⟩
  · exact free
  · rw [keyAt_of_item at_, Option.map_eq_none_iff] at key
    exact absurd key some_

/-! ### Rehashing -/

variable (hashcode) in
def positionsFrom (vs : List (Option (K × V))) (len b i : Nat) : List Nat :=
  (List.range' i (vs.length - i)).filter fun p => decide ((keyAt vs p).map (slot hashcode len) = some b)

theorem positionsFrom_zero : positionsFrom hashcode vs len b 0 = positions hashcode vs len b := by
  rw [positionsFrom, positions, List.range_eq_range', Nat.sub_zero]

theorem mem_positionsFrom {i : Nat} : p ∈ positionsFrom hashcode vs len b i ↔ i ≤ p ∧ p ∈ positions hashcode vs len b := by
  rw [positionsFrom, positions, List.mem_filter, List.mem_filter, List.mem_range, List.mem_range'_1, ← and_assoc]
  refine and_congr_left fun _ => ?_
  omega

theorem positionsFrom_step {i : Nat} (lt : i < vs.length) :
    positionsFrom hashcode vs len b i = if (keyAt vs i).map (slot hashcode len) = some b then i :: positionsFrom hashcode
    vs len b (i + 1)
      else positionsFrom hashcode vs len b (i + 1) := by
  have more : vs.length - i = vs.length - (i + 1) + 1 := by omega
  rw [positionsFrom, more, List.range'_succ, List.filter_cons]
  simp only [decide_eq_true_eq]
  rfl

variable (hashcode) in
/-- The loop of `rehash` on the table of `o` with the items below `i` to come. -/
structure Stage (o : ObjectJson K V) (len i : Nat) (o' : ObjectJson K V) : Prop where
  vs : o'.vs = o.vs
  table : o'.hash.length = len
  capacity : o'.capacity = o.capacity
  size : o'.size = o.size
  marked : o'.Marked
  chained : ∀ b < len, Linked o'.link (places b (positionsFrom hashcode o.vs len b i)) none

theorem Stage.relink {i j : Nat} (table : len = 8 * 2 ^ j) (stage : Stage hashcode o len (i + 1) o') (at_ : keyAt o.vs i = some k)
    (fits : Fits hashcode len k) : ∃ o₂, rehashFrom hashcode (i + 1) o' = rehashFrom hashcode i o₂ ∧ Stage hashcode o len i o₂ := by
  have lt := keyAt_lt at_
  have table' : o'.hash.length = 8 * 2 ^ j := stage.table.trans table
  have bucket : o'.bucket hashcode k = slot hashcode len k := by
    have eq := bucket_of_fits (k := k) table' (by rwa [stage.table])
    rwa [stage.table] at eq
  have inside : slot hashcode len k < len := slot_lt table
  obtain ⟨head, read⟩ := exists_read_bucket (o := o') (b := slot hashcode len k) (by rwa [stage.table])
  obtain ⟨old, readItem⟩ := exists_read_next (o := o') (p := i) (by rwa [stage.vs])
  obtain ⟨o₁, write₁, wrote₁⟩ := exists_write readItem head
  obtain ⟨y, read₁⟩ := exists_read_bucket (o := o₁) (b := slot hashcode len k) (by rwa [wrote₁.table, stage.table])
  obtain ⟨o₂, write₂, wrote₂⟩ := exists_write read₁ i
  have key : o'.key i = some k := by rw [keyAt_vs, stage.vs, at_]
  obtain ⟨item, itemAt, next⟩ := Option.map_eq_some_iff.mp ((read_next o' i).symm.trans readItem)
  have live := stage.marked.live itemAt (by rwa [stage.vs])
  have low : -1 ≤ head := by
    rw [read_bucket] at read
    exact stage.marked.heads head (List.mem_of_getElem? read)
  refine ⟨o₂, ?_, wrote₂.vs.trans (wrote₁.vs.trans stage.vs), wrote₂.table.trans (wrote₁.table.trans stage.table),
    wrote₂.capacity.trans (wrote₁.capacity.trans stage.capacity), wrote₂.size.trans (wrote₁.size.trans stage.size), ?_, ?_⟩
  · have bucket₁ : o₁.bucket hashcode k = slot hashcode len k := by
      rw [ObjectJson.bucket, wrote₁.table, ← ObjectJson.bucket, bucket]
    rw [rehashFrom, item_nat, itemAt, Option.bind_some, if_pos (by omega), key, Option.bind_some, bucket, read, Option.bind_some,
      write₁, Option.bind_some, bucket₁, write₂, Option.bind_some]
  · refine wrote₂.marked (by omega) (fun p eq => absurd eq (by simp)) (wrote₁.marked low (fun p eq => ?_) stage.marked)
    rw [Place.next.injEq] at eq
    have same : p = i := by omega
    exact ⟨k, by rw [same, stage.vs, at_]⟩
  · intro b inside'
    have linked := stage.chained b inside'
    have fresh : Place.next i ∉ places b (positionsFrom hashcode o.vs len b (i + 1)) := by
      intro mem
      have above := (mem_positionsFrom.mp (next_mem_places.mp mem)).1
      omega
    rw [wrote₂.link, wrote₁.link, target_nat, positionsFrom_step lt, at_, Option.map_some]
    split
    · rename_i same
      obtain rfl := Option.some.inj same
      have link : target head = o'.link (.bucket (slot hashcode len k)) := (link_of_read read).symm
      have nodup : (places (slot hashcode len k) (positionsFrom hashcode o.vs len (slot hashcode len k) (i + 1))).Nodup :=
        nodup_places ((List.nodup_range' ..).filter _)
      rw [link]
      exact linked.insert_second nodup fresh
    · rename_i other
      have absent : Place.bucket (slot hashcode len k) ∉ places b (positionsFrom hashcode o.vs len b (i + 1)) := by
        intro mem
        rcases mem_places.mp mem with eq | ⟨_, _, eq⟩
        · rw [Place.bucket.injEq] at eq
          exact other (congrArg some (by omega))
        · cases eq
      exact (linked.update_of_not_mem fresh _).update_of_not_mem absent _

theorem Stage.skip {i : Nat} (stage : Stage hashcode o len (i + 1) o') (lt : i < o.vs.length) (at_ : keyAt o.vs i = none) :
    rehashFrom hashcode (i + 1) o' = rehashFrom hashcode i o' ∧ Stage hashcode o len i o' := by
  obtain ⟨x, readItem⟩ := exists_read_next (o := o') (p := i) (by rwa [stage.vs])
  obtain ⟨item, itemAt, next⟩ := Option.map_eq_some_iff.mp ((read_next o' i).symm.trans readItem)
  have free := stage.marked.free itemAt (by rwa [stage.vs])
  constructor
  · rw [rehashFrom, item_nat, itemAt, Option.bind_some, if_neg (by omega)]
  · refine ⟨stage.vs, stage.table, stage.capacity, stage.size, stage.marked, fun b inside => ?_⟩
    rw [positionsFrom_step lt, at_]
    exact stage.chained b inside

theorem Stage.stuck {i j : Nat} (table : len = 8 * 2 ^ j) (stage : Stage hashcode o len (i + 1) o') (at_ : keyAt o.vs i = some k)
    (out : ¬Fits hashcode len k) : rehashFrom hashcode (i + 1) o' = none := by
  have lt := keyAt_lt at_
  have bucket : o'.bucket hashcode k < 0 := bucket_neg (stage.table.trans table) (by rwa [stage.table])
  obtain ⟨x, readItem⟩ := exists_read_next (o := o') (p := i) (by rwa [stage.vs])
  obtain ⟨item, itemAt, next⟩ := Option.map_eq_some_iff.mp ((read_next o' i).symm.trans readItem)
  have live := stage.marked.live itemAt (by rwa [stage.vs])
  have key : o'.key i = some k := by rw [keyAt_vs, stage.vs, at_]
  rw [rehashFrom, item_nat, itemAt, Option.bind_some, if_pos (by omega), key, Option.bind_some, read_bucket_neg bucket, Option.bind_none]

theorem Stage.run {i j : Nat} (table : len = 8 * 2 ^ j) (le : i ≤ o.vs.length) (stage : Stage hashcode o len i o')
    (fits : ∀ p < i, ∀ k, keyAt o.vs p = some k → Fits hashcode len k) :
    ∃ o₂, rehashFrom hashcode i o' = some o₂ ∧ Stage hashcode o len 0 o₂ := by
  induction i generalizing o' with
  | zero => exact ⟨o', rfl, stage⟩
  | succ i ih =>
    have rest : ∀ p < i, ∀ k, keyAt o.vs p = some k → Fits hashcode len k := fun p lt => fits p (Nat.lt_succ_of_lt lt)
    cases at_ : keyAt o.vs i with
    | none =>
      obtain ⟨same, stage⟩ := stage.skip le at_
      rw [same]
      exact ih (Nat.le_of_succ_le le) stage rest
    | some k =>
      obtain ⟨o₁, same, stage⟩ := stage.relink table at_ (fits i (Nat.lt_succ_self i) k at_)
      rw [same]
      exact ih (Nat.le_of_succ_le le) stage rest

theorem Stage.fails {i j : Nat} (table : len = 8 * 2 ^ j) (le : i ≤ o.vs.length) (stage : Stage hashcode o len i o') (lt : p < i)
    (at_ : keyAt o.vs p = some k) (out : ¬Fits hashcode len k) : rehashFrom hashcode i o' = none := by
  induction i generalizing o' with
  | zero => exact absurd lt (Nat.not_lt_zero p)
  | succ i ih =>
    cases here : keyAt o.vs i with
    | none =>
      obtain ⟨same, stage⟩ := stage.skip le here
      rw [same]
      refine ih (Nat.le_of_succ_le le) stage (Nat.lt_of_le_of_ne (Nat.le_of_lt_succ lt) ?_)
      rintro rfl
      rw [here] at at_
      cases at_
    | some k' =>
      by_cases fits : Fits hashcode len k'
      · obtain ⟨o₁, same, stage⟩ := stage.relink table here fits
        rw [same]
        refine ih (Nat.le_of_succ_le le) stage (Nat.lt_of_le_of_ne (Nat.le_of_lt_succ lt) ?_)
        rintro rfl
        rw [here, Option.some.injEq] at at_
        exact out (at_ ▸ fits)
      · exact stage.stuck table here fits

variable (hashcode) in
/-- `rehash` starts with an empty table. -/
theorem stage_start (o : ObjectJson K V) (marked : o.Marked) :
    Stage hashcode o (o.hash.length * 2) o.vs.length { o with hash := List.replicate (o.hash.length * 2) (-1) } := by
  refine ⟨rfl, List.length_replicate, rfl, rfl, ⟨marked.items, fun x mem => ?_⟩, fun b lt => ?_⟩
  · exact Int.le_of_eq (List.eq_of_mem_replicate mem).symm
  · have none_ : positionsFrom hashcode o.vs (o.hash.length * 2) b o.vs.length = [] := by
      rw [positionsFrom, Nat.sub_self, List.range'_zero, List.filter_nil]
    have read : ({ o with hash := List.replicate (o.hash.length * 2) (-1) } : ObjectJson K V).read (.bucket b) = some (-1) := by
      rw [read_bucket]
      exact List.getElem?_replicate_of_lt lt
    rw [none_]
    exact ⟨link_of_read read, trivial⟩

theorem n_eq (o : ObjectJson K V) : o.n = o.vs.length := (List.length_map ..).symm

/-- The table is twice as long and holds the same items. -/
theorem rehash_chained {j : Nat} (table : o.hash.length = 8 * 2 ^ j) (marked : o.Marked)
    (fits : ∀ p k, keyAt o.vs p = some k → Fits hashcode (o.hash.length * 2) k) :
    ∃ o', o.rehash hashcode = some o' ∧ o'.Marked ∧ o'.Chained hashcode ∧ o'.hash.length = o.hash.length * 2 ∧ o'.vs = o.vs ∧
      o'.capacity = o.capacity ∧ o'.size = o.size := by
  have table' : o.hash.length * 2 = 8 * 2 ^ (j + 1) := by rw [table, Nat.pow_succ, Nat.mul_assoc]
  obtain ⟨o', ran, stage⟩ := (stage_start hashcode o marked).run table' (Nat.le_refl _) fun p _ => fits p
  refine ⟨o', by rwa [rehash, n_eq], stage.marked, fun b lt => ?_, stage.table, stage.vs, stage.capacity, stage.size⟩
  rw [stage.table] at lt ⊢
  have linked := stage.chained b lt
  rwa [positionsFrom_zero, ← stage.vs] at linked

theorem rehash_fails {j : Nat} (table : o.hash.length = 8 * 2 ^ j) (marked : o.Marked) (at_ : keyAt o.vs p = some k)
    (out : ¬Fits hashcode (o.hash.length * 2) k) : o.rehash hashcode = none := by
  have table' : o.hash.length * 2 = 8 * 2 ^ (j + 1) := by rw [table, Nat.pow_succ, Nat.mul_assoc]
  rw [rehash, n_eq]
  exact (stage_start hashcode o marked).fails table' (Nat.le_refl _) (keyAt_lt at_) at_ out

end Masstree.ObjectJson
