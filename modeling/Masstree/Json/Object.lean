import Masstree.Lib.Linked
import Masstree.Lib.OrderedMap
import Mathlib.Algebra.Group.Nat.Defs
import Mathlib.Data.List.Basic

/-!
# The hash table of a `Json` object

`Json::ObjectJson`: the items stand in one array in the order they were inserted, an erased one with `next_` at -2, and each bucket of
`hash_` begins a list of positions that goes on through `next_`. A read or write outside an array, of a key that is destroyed, or an
`int` that overflows is `none`.
-/

namespace Masstree

/-- `ObjectItem`, with no `v_` once it is destroyed. -/
structure ObjectItem (K V : Type) where
  v : Option (K × V)
  next : Int
  deriving DecidableEq, Repr

/-- `ObjectItem(k, v, -1)` -/
def ObjectItem.last {K V : Type} (k : K) (v : V) : ObjectItem K V := ⟨some (k, v), -1⟩

/-- `ObjectJson`, with the first `n_` items of `os_`. -/
structure ObjectJson (K V : Type) where
  os : List (ObjectItem K V)
  capacity : Nat
  hash : List Int
  size : Int
  deriving DecidableEq, Repr

namespace ObjectJson

variable {K V : Type}

/-- `ObjectJson()` -/
def empty : ObjectJson K V := ⟨[], 0, [], 0⟩

variable (o : ObjectJson K V)

def n : Nat := o.os.length

def item (p : Int) : Option (ObjectItem K V) := if 0 ≤ p then o.os[p.toNat]? else none

def setItem (p : Int) (item : ObjectItem K V) : ObjectJson K V := { o with os := o.os.set p.toNat item }

/-- What an `int* b` of the loops points to. -/
inductive Place
  | bucket (b : Int)
  | next (p : Int)
  deriving DecidableEq, Repr

def read : Place → Option Int
  | .bucket b => if 0 ≤ b then o.hash[b.toNat]? else none
  | .next p => (o.item p).map (·.next)

/-- `*b = x` -/
def write (place : Place) (x : Int) : Option (ObjectJson K V) :=
  match place with
  | .bucket b => if 0 ≤ b ∧ b < o.hash.length then some { o with hash := o.hash.set b.toNat x } else none
  | .next p => (o.item p).map fun item => o.setItem p { item with next := x }

/-- `os_[p].v_.first` -/
def key (p : Int) : Option K := (o.item p).bind fun item => item.v.map Prod.fst

/-- `while (*b >= 0 && !found(*b)) { b = &os_[*b].next_; ++chain; }`, with the last `b` and `*b`. -/
def search (found : Int → Option Bool) : Nat → Place → Nat → Option (Place × Int × Nat)
  | 0, _, _ => none
  | fuel + 1, b, chain =>
    (o.read b).bind fun x =>
      if x < 0 then some (b, x, chain)
      else (found x).bind fun hit => if hit then some (b, x, chain) else search found fuel (.next x) (chain + 1)

/-- More steps than this go round. -/
def fuel : Nat := o.n + 1

variable [DecidableEq K]

/-- `os_[p].v_.first == k` -/
def keyIs (k : K) (p : Int) : Option Bool := (o.key p).map fun k' => decide (k' = k)

def grow : Option (ObjectJson K V) :=
  let newCapacity := if o.capacity ≠ 0 then o.capacity * 2 else 8
  if newCapacity < 2 ^ 31 then some { o with capacity := newCapacity } else none

/-- `ObjectJson(const ObjectJson& x)`: the items that are not erased are built anew. -/
def copy : ObjectJson K V :=
  { o with os := o.os.map fun item => if item.next = -2 then ⟨none, -2⟩ else ⟨item.v, item.next⟩ }

variable (hashcode : K → UInt32)

/-- The index is an `int`. -/
def bucket (k : K) : Int :=
  (BitVec.ofNat 32 ((hashcode k).toNat &&& (o.hash.length + (2 ^ 64 - 1)) % 2 ^ 64)).toInt

/-- The loop of `rehash` from item `i - 1` down. -/
def rehashFrom : Nat → ObjectJson K V → Option (ObjectJson K V)
  | 0, o => some o
  | i + 1, o =>
    (o.item i).bind fun oi =>
      if oi.next > -2 then
        (o.key i).bind fun k =>
          (o.read (.bucket (o.bucket hashcode k))).bind fun head =>
            (o.write (.next i) head).bind fun o => (o.write (.bucket (o.bucket hashcode k)) i).bind fun o => rehashFrom i o
      else rehashFrom i o

def rehash : Option (ObjectJson K V) := rehashFrom hashcode o.n { o with hash := List.replicate (o.hash.length * 2) (-1) }

/-- The first lines of `find_insert`. -/
def allocated : ObjectJson K V := if o.hash.isEmpty then { o with hash := List.replicate 8 (-1) } else o

def push (k : K) (v : V) : Option (ObjectJson K V) :=
  if o.n < o.capacity then some { o with os := o.os ++ [.last k v], size := o.size + 1 } else none

def findInsert (k : K) (v : V) : Option (ObjectJson K V × Int) :=
  let o := o.allocated
  (o.search (o.keyIs k) o.fuel (.bucket (o.bucket hashcode k)) 0).bind fun (b, x, chain) =>
    if 0 ≤ x then some (o, x)
    else
      (o.write b o.n).bind fun o =>
        (if o.n = o.capacity then o.grow else some o).bind fun o =>
          (o.push k v).bind fun o =>
            (if 4 < chain then o.rehash hashcode else some o).map fun o => (o, o.n - 1)

/-- With the position of the value that is returned. -/
def getInsert (null : V) (k : K) : Option (ObjectJson K V × Int) := o.findInsert hashcode k null

/-- `item(p).v_.second = v` -/
def assign (p : Int) (v : V) : Option (ObjectJson K V) :=
  (o.item p).bind fun item => item.v.map fun (k, _) => o.setItem p { item with v := some (k, v) }

def findFrom (k : K) : Nat → Int → Option Int
  | 0, _ => none
  | fuel + 1, p =>
    if 0 ≤ p then
      (o.keyIs k p).bind fun hit => if hit then some p else (o.item p).bind fun item => findFrom k fuel item.next
    else some (-1)

def find (k : K) : Option Int :=
  if o.hash.length ≠ 0 then (o.read (.bucket (o.bucket hashcode k))).bind fun p => o.findFrom k o.fuel p else some (-1)

/-- `*b = os_[p].next_; os_[p].~ObjectItem(); os_[p].next_ = -2; --size;` -/
def unlink (b : Place) (p : Int) : Option (ObjectJson K V) :=
  (o.item p).bind fun item => (o.write b item.next).map fun o => { o.setItem p ⟨none, -2⟩ with size := o.size - 1 }

def eraseAt (p : Int) : Option (ObjectJson K V) :=
  (o.key p).bind fun k =>
    (o.search (fun x => some (x = p)) o.fuel (.bucket (o.bucket hashcode k)) 0).bind fun (b, x, _) =>
      if x = p then o.unlink b p else none

def erase (k : K) : Option (ObjectJson K V × Nat) :=
  (o.search (o.keyIs k) o.fuel (.bucket (o.bucket hashcode k)) 0).bind fun (b, x, _) =>
    if 0 ≤ x then (o.unlink b x).map fun o => (o, 1) else some (o, 0)

/-- The part of `Json::clear` for an object that is not shared. -/
def clear : ObjectJson K V := { o with os := [], size := 0, hash := List.replicate o.hash.length (-1) }

/-! ### Iterators -/

section
variable {K V : Type} (o : ObjectJson K V)

/-- `const_object_iterator::fix` at `i_`, which is -1 at the end. -/
def fix : Nat → Int → Option Int
  | 0, _ => none
  | fuel + 1, i =>
    if o.n ≤ i then some (-1) else (o.item i).bind fun oi => if oi.next = -2 then fix fuel (i + 1) else some i

/-- `obegin()` -/
def begin : Option Int := o.fix o.fuel 0

/-- `++it` -/
def step (i : Int) : Option Int := o.fix o.fuel (i + 1)

/-- `*it` -/
def deref (i : Int) : Option (K × V) := (o.item i).bind (·.v)

def iterateFrom : Nat → Int → Option (List (K × V))
  | 0, _ => none
  | fuel + 1, i =>
    if 0 ≤ i then (o.deref i).bind fun entry => (o.step i).bind fun i => (iterateFrom fuel i).map (entry :: ·) else some []

def iterate : Option (List (K × V)) := o.begin.bind fun i => o.iterateFrom o.fuel i

/-- `obegin()` after `j` steps. -/
def iterator : Nat → Option Int
  | 0 => o.begin
  | j + 1 => (iterator j).bind o.step

end

/-! ### Places -/

section
variable {K V : Type} {o o' : ObjectJson K V} {pl : Place} {x : Int}

/-- The place that an index read at a place leads to. -/
def target (x : Int) : Option Place := if x < 0 then none else some (.next x)

def link (o : ObjectJson K V) (pl : Place) : Option Place := (o.read pl).bind target

theorem target_nat (p : Nat) : target p = some (.next p) := if_neg (by omega)

theorem target_neg (neg : x < 0) : target x = none := if_pos neg

theorem eq_of_target {p : Nat} (eq : target x = some (.next p)) : x = p := by
  unfold target at eq
  split at eq
  · cases eq
  · rw [Option.some.injEq, Place.next.injEq] at eq
    exact eq

theorem neg_of_target (eq : target x = none) : x < 0 := by
  unfold target at eq
  split at eq
  · assumption
  · cases eq

theorem link_of_read (read : o.read pl = some x) : o.link pl = target x := by rw [link, read, Option.bind_some]

theorem item_nat (o : ObjectJson K V) (p : Nat) : o.item p = o.os[p]? := by
  rw [item, if_pos (Int.natCast_nonneg p), Int.toNat_natCast]

theorem read_next (o : ObjectJson K V) (p : Nat) : o.read (.next p) = o.os[p]?.map (·.next) := by rw [read, item_nat]

theorem read_bucket (o : ObjectJson K V) (b : Nat) : o.read (.bucket b) = o.hash[b]? := by
  rw [read, if_pos (Int.natCast_nonneg b), Int.toNat_natCast]

/-- The loop passes the places of a list to its first hit. -/
theorem search_hit {found : Int → Option Bool} {A B : List Nat} {p fuel : Nat} (chain : Nat)
    (linked : Linked o.link (pl :: (A ++ p :: B).map fun p : Nat => .next p) none)
    (readable : ∀ q ∈ pl :: A.map fun p : Nat => Place.next p, ∃ x, o.read q = some x)
    (misses : ∀ a ∈ A, found a = some false) (hit : found p = some true) (enough : A.length < fuel) :
    ∃ front last, (pl :: A.map fun p : Nat => Place.next p) = front ++ [last] ∧
      o.search found fuel pl chain = some (last, (p : Int), chain + A.length) := by
  induction A generalizing pl fuel chain with
  | nil =>
    obtain ⟨fuel, rfl⟩ := Nat.exists_eq_succ_of_ne_zero (Nat.ne_of_gt enough)
    obtain ⟨x, read⟩ := readable pl List.mem_cons_self
    have next := linked.1
    rw [link_of_read read] at next
    obtain rfl := eq_of_target next
    refine ⟨[], pl, rfl, ?_⟩
    rw [search, read, Option.bind_some, if_neg (by omega), hit, Option.bind_some, if_pos rfl, List.length_nil, Nat.add_zero]
  | cons a A ih =>
    obtain ⟨fuel, rfl⟩ := Nat.exists_eq_succ_of_ne_zero (Nat.ne_of_gt (Nat.zero_lt_of_lt enough))
    obtain ⟨x, read⟩ := readable pl List.mem_cons_self
    have next := linked.1
    rw [link_of_read read] at next
    obtain rfl := eq_of_target next
    obtain ⟨front, last, places, searched⟩ := ih (chain + 1) linked.2 (fun q mem => readable q (List.mem_cons_of_mem _ mem))
      (fun c mem => misses c (List.mem_cons_of_mem _ mem)) (Nat.lt_of_succ_lt_succ enough)
    refine ⟨pl :: front, last, congrArg (pl :: ·) places, ?_⟩
    rw [search, read, Option.bind_some, if_neg (by omega), misses a List.mem_cons_self, Option.bind_some, if_neg Bool.false_ne_true,
      searched, List.length_cons, Nat.add_right_comm, Nat.add_assoc]

/-- The loop passes the places of a list with no hit. -/
theorem search_miss {found : Int → Option Bool} {A : List Nat} {fuel : Nat} (chain : Nat)
    (linked : Linked o.link (pl :: A.map fun p : Nat => .next p) none)
    (readable : ∀ q ∈ pl :: A.map fun p : Nat => Place.next p, ∃ x, o.read q = some x)
    (misses : ∀ a ∈ A, found a = some false) (enough : A.length < fuel) :
    ∃ front last x, (pl :: A.map fun p : Nat => Place.next p) = front ++ [last] ∧ x < 0 ∧
      o.search found fuel pl chain = some (last, x, chain + A.length) := by
  induction A generalizing pl fuel chain with
  | nil =>
    obtain ⟨fuel, rfl⟩ := Nat.exists_eq_succ_of_ne_zero (Nat.ne_of_gt enough)
    obtain ⟨x, read⟩ := readable pl List.mem_cons_self
    have next := linked.1
    rw [link_of_read read] at next
    have neg := neg_of_target next
    refine ⟨[], pl, x, rfl, neg, ?_⟩
    rw [search, read, Option.bind_some, if_pos neg, List.length_nil, Nat.add_zero]
  | cons a A ih =>
    obtain ⟨fuel, rfl⟩ := Nat.exists_eq_succ_of_ne_zero (Nat.ne_of_gt (Nat.zero_lt_of_lt enough))
    obtain ⟨x, read⟩ := readable pl List.mem_cons_self
    have next := linked.1
    rw [link_of_read read] at next
    obtain rfl := eq_of_target next
    obtain ⟨front, last, x, places, neg, searched⟩ := ih (chain + 1) linked.2 (fun q mem => readable q (List.mem_cons_of_mem _ mem))
      (fun c mem => misses c (List.mem_cons_of_mem _ mem)) (Nat.lt_of_succ_lt_succ enough)
    refine ⟨pl :: front, last, x, congrArg (pl :: ·) places, neg, ?_⟩
    rw [search, read, Option.bind_some, if_neg (by omega), misses a List.mem_cons_self, Option.bind_some, if_neg Bool.false_ne_true,
      searched, List.length_cons, Nat.add_right_comm, Nat.add_assoc]

end

end ObjectJson

end Masstree
