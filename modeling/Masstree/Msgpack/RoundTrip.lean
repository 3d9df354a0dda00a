import Masstree.Msgpack.Chunks
import Masstree.Msgpack.Unparse
import Mathlib.Data.List.Forall2
import Mathlib.Data.List.TakeDrop
import Mathlib.Data.List.TakeWhile

/-!
# Unparsed values

What the streaming parser makes of the bytes of a value, byte after byte and string after string.
-/

namespace Masstree.Msgpack

namespace Node

def items : Node → List Node
  | array _ vs => vs
  | _ => []

def table : Node → Nat
  | object table _ => table
  | _ => 0

mutual

/-- The memory of an earlier value is good for the value: its arrays can be resized, and the keys of an object can be entered in its
table. -/
def Reuses : Node → Value → Prop
  | old, .array vs => old.Resizes vs.length ∧ ReusesItems old.items vs
  | old, .object entries => (ObjectJson.enterAll hashcode old.table [] (entries.map Prod.fst)).isSome ∧ ReusesEntries entries
  | _, _ => True

def ReusesItems : List Node → List Value → Prop
  | old, v :: vs => Reuses (old.headD .null) v ∧ ReusesItems old.tail vs
  | _, [] => True

def ReusesEntries : List (Bytes × Value) → Prop
  | [] => True
  | (_, v) :: entries => Reuses .null v ∧ ReusesEntries entries

end

end Node

namespace Stream

open Results Value Node

variable {p q r : Stream} {stack : List Frame} {saved rest s t w : Bytes} {b : UInt8} {n x table capacity : Nat} {ns ms : List Nat}
  {jokey v : Node} {item : Item}

/-! ### Strings in a range -/

def begun (q : Stream) : List Nat :=
  match q.status with
  | .body [] n _ => [n]
  | _ => []

def begins : Stream → Bytes → List Nat
  | _, [] => []
  | p, b :: rest =>
    match step p b with
    | .ok (some q) => begun q ++ begins q rest
    | _ => []

/-- A range leads from one parser to another and begins these strings, whatever comes behind it. -/
structure Goes (p : Stream) (s : Bytes) (q : Stream) (ns : List Nat) : Prop where
  run : ∀ rest, run p (s ++ rest) = run q rest
  begins : ∀ rest, begins p (s ++ rest) = ns ++ begins q rest

theorem Goes.refl (p : Stream) : Goes p [] p [] := ⟨fun _ => rfl, fun _ => rfl⟩

theorem Goes.trans (first : Goes p s q ns) (later : Goes q t r ms) : Goes p (s ++ t) r (ns ++ ms) where
  run rest := by rw [List.append_assoc, first.run, later.run]
  begins rest := by rw [List.append_assoc, first.begins, later.begins, List.append_assoc]

theorem goes_step (taken : step p b = .ok (some q)) : Goes p [b] q (begun q) where
  run rest := by
    rw [List.singleton_append, Stream.run, taken]
    rfl
  begins rest := by
    rw [List.singleton_append, Stream.begins]
    simp only [taken]

theorem begun_of_kind (kind : q.status.isNormal ∨ q.status.isDone) : begun q = [] := by
  obtain ⟨status, stack, json, jokey⟩ := q
  cases status with
  | header | body => exact kind.elim Bool.noConfusion Bool.noConfusion
  | final | error | normal => rfl

theorem begun_more {n : Nat} (some_ : saved ≠ []) {json : Node} : begun ⟨.body saved n capacity, stack, json, jokey⟩ = [] := by
  cases saved with
  | nil => exact absurd rfl some_
  | cons b t => rfl

theorem goes_header (p : Stream) (ne : t ≠ []) (started : saved ≠ []) (full : saved.length + t.length = headerLength saved)
    (acted : act p (decode (saved ++ t)) = .ok q) : Goes { p with status := .header saved } t q (begun q) := by
  induction t generalizing saved with
  | nil => exact absurd rfl ne
  | cons b t ih =>
    have more := headerLength_append started [b]
    have taken : step { p with status := .header saved } b =
        (inHeader { p with status := .header saved } (saved ++ [b]) (headerLength saved)).map some := by rw [step_header, more]
    rw [inHeader] at taken
    cases t with
    | nil =>
      rw [if_pos (by simpa using full), act_status, acted] at taken
      exact goes_step taken
    | cons c t =>
      rw [if_neg (by simp only [List.length_append, List.length_cons, List.length_nil] at full ⊢; omega)] at taken
      have later := @ih (saved ++ [b]) (List.cons_ne_nil _ _) (by simp) (by
        rw [more, ← full]
        simp only [List.length_append, List.length_cons, List.length_nil]
        omega) (by rwa [List.append_assoc])
      exact (goes_step taken).trans later

theorem goes_body (p : Stream) (ne : t ≠ []) (full : saved.length + t.length = n) (short : n + 27 < 2 ^ 31)
    (made : next p (.str (saved ++ t)) 0 = .ok q) : Goes { p with status := .body saved n capacity } t q [] := by
  induction t generalizing saved capacity with
  | nil => exact absurd rfl ne
  | cons b t ih =>
    rw [List.length_cons] at full
    have taken : step { p with status := .body saved n capacity } b =
        (inBody { p with status := .body saved n capacity } (saved ++ [b]) n).map some := rfl
    rw [inBody, List.length_append, List.length_singleton, if_neg (by omega)] at taken
    cases t with
    | nil =>
      rw [if_pos (by simpa using full)] at taken
      change step _ b = (next p (.str (saved ++ [b])) 0).map some at taken
      rw [made] at taken
      have goes := goes_step taken
      rwa [begun_of_kind (next_ok made)] at goes
    | cons c t =>
      rw [if_neg (by rw [List.length_cons] at full; omega)] at taken
      have later := @ih (saved ++ [b]) 0 (List.cons_ne_nil _ _) (by
        rw [List.length_append, List.length_singleton]
        omega) (by rwa [List.append_assoc])
      have goes := goes_step taken
      rw [begun_more (List.append_ne_nil_of_right_ne_nil _ (List.cons_ne_nil _ _))] at goes
      exact goes.trans later

/-! ### Headers -/

/-- The bytes are a whole header. -/
def Heads (h : Bytes) (item : Item) : Prop :=
  ∀ p q, p.status.isNormal → act p item = .ok q → Goes p h q (begun q)

theorem heads_now (kind : lead b = .now item) : Heads [b] item := by
  intro p q normal acted
  refine goes_step ?_
  rw [step_now normal kind, acted]
  rfl

theorem heads_far (kind : lead b = .wide n) (size : w.length + 1 = n) : Heads (b :: w) (decode (b :: w)) := by
  intro p q normal acted
  obtain ⟨header, two⟩ := lead_wide kind
  have taken := step_wide normal kind
  rw [inHeader, if_neg (by rw [List.length_singleton]; omega)] at taken
  refine (goes_step taken).trans (goes_header p (List.length_pos_iff.mp (by omega)) (List.cons_ne_nil _ _) ?_ acted)
  rw [List.length_singleton, Nat.add_comm, size]
  exact header

/-- A type byte and a word. -/
theorem heads_word (b : UInt8) (n : Nat) (item : Nat → Item) (low : 0xC4 ≤ b.toNat) (high : b.toNat < 0xE0)
    (size : nbytes.getD (b.toNat - 0xC0) 0 = n + 1) (form : ∀ w, decode (b :: w) = item (netOrder w))
    (range : x < 2 ^ (8 * n)) : Heads (b :: toNetOrder n x) (item x) := by
  have kind := lead_far low high size (Nat.succ_ne_zero n)
  have heads := heads_far kind (show (toNetOrder n x).length + 1 = n + 1 by rw [toNetOrder_length])
  rwa [form, netOrder_toNetOrder n range] at heads

theorem lead_fixint (fix : b.toNat < 0x80 ∨ 0xE0 ≤ b.toNat) : lead b = .now (.value (.int (signed 1 b.toNat))) := by
  rw [lead, if_pos (isFixint_iff.mpr fix)]

theorem lead_fixmap (small : n < 0x10) : lead (UInt8.ofNat (0x80 + n)) = .now (.map n) := by
  have byte := ofNat_toNat (x := 0x80 + n) (by omega)
  rw [lead, byte, if_neg (by rw [isFixint_iff, byte]; omega), if_neg (by omega), if_neg (by omega),
    if_pos (by rw [isFixmap_iff, byte]; omega), Nat.add_sub_cancel_left]

theorem lead_fixarray (small : n < 0x10) : lead (UInt8.ofNat (0x90 + n)) = .now (.array n) := by
  have byte := ofNat_toNat (x := 0x90 + n) (by omega)
  rw [lead, byte, if_neg (by rw [isFixint_iff, byte]; omega), if_neg (by omega), if_neg (by omega),
    if_neg (by rw [isFixmap_iff, byte]; omega), if_pos (by rw [isFixarray_iff, byte]; omega), Nat.add_sub_cancel_left]

theorem lead_fixstr (small : n < 0x20) : lead (UInt8.ofNat (0xA0 + n)) = .now (.raw n) := by
  have byte := ofNat_toNat (x := 0xA0 + n) (by omega)
  rw [lead, byte, if_neg (by rw [isFixint_iff, byte]; omega), if_neg (by omega), if_neg (by omega),
    if_neg (by rw [isFixmap_iff, byte]; omega), if_neg (by rw [isFixarray_iff, byte]; omega),
    if_pos (by rw [isFixstr_iff, byte]; omega), Nat.add_sub_cancel_left]

/-! ### Integers -/

theorem word_lt (n : Nat) (x : Int) : word n x < 2 ^ (8 * n) := by
  have positive : (0 : Int) < 2 ^ (8 * n) := Int.pow_pos (by decide)
  have low := Int.emod_nonneg x (Int.ne_of_gt positive)
  have high := Int.emod_lt_of_pos x positive
  have cast : ((2 ^ (8 * n) : Nat) : Int) = 2 ^ (8 * n) := Int.natCast_pow 2 (8 * n)
  unfold word
  omega

theorem signed_word {x : Int} (positive : n ≠ 0) (range : -2 ^ (8 * n - 1) ≤ x ∧ x < 2 ^ (8 * n - 1)) :
    signed n (word n x) = x := by
  have double : (2 : Int) ^ (8 * n) = 2 * 2 ^ (8 * n - 1) := by
    have next : 8 * n = 8 * n - 1 + 1 := by omega
    conv_lhs => rw [next]
    rw [Int.pow_succ, Int.mul_comm]
  have cast : ((2 ^ (8 * n - 1) : Nat) : Int) = 2 ^ (8 * n - 1) := Int.natCast_pow 2 (8 * n - 1)
  unfold signed word
  by_cases negative : x < 0
  · have wrapped : x % 2 ^ (8 * n) = x + 2 ^ (8 * n) := by
      rw [← Int.add_emod_right, Int.emod_eq_of_lt (by omega) (by omega)]
    rw [wrapped, if_neg (by omega)]
    omega
  · rw [Int.emod_eq_of_lt (by omega) (by omega), if_pos (by omega)]
    omega

/-- What a form of an unsigned integer is read as. -/
def narrow (x : Nat) : Node := if x < 2 ^ 16 then .int x else .unsigned x

theorem value_narrow (x : Nat) : (narrow x).value = reread (.unsigned x) := by
  rw [narrow, reread]
  split <;> rfl

theorem heads_unsigned (range : x < 2 ^ 64) : Heads (writeUnsigned x) (.value (narrow x)) := by
  rw [writeUnsigned, narrow]
  split
  · have byte := ofNat_toNat (x := x) (by omega)
    have same : signed 1 x = x := if_pos ‹_›
    have heads := heads_now (lead_fixint (b := UInt8.ofNat x) (.inl (by omega)))
    rw [byte, same] at heads
    rwa [if_pos (show x < 2 ^ 16 by omega)]
  split
  · rw [if_pos (by omega)]
    exact heads_word 0xCC 1 (fun x => .value (.int x)) (by decide) (by decide) (by decide) (fun _ => rfl) ‹_›
  split
  · exact heads_word 0xCD 2 (fun x => .value (.int x)) (by decide) (by decide) (by decide) (fun _ => rfl) ‹_›
  split
  · exact heads_word 0xCE 4 (fun x => .value (.unsigned x)) (by decide) (by decide) (by decide) (fun _ => rfl) ‹_›
  · exact heads_word 0xCF 8 (fun x => .value (.unsigned x)) (by decide) (by decide) (by decide) (fun _ => rfl) range

theorem heads_signed {x : Int} (range : -2 ^ 63 ≤ x ∧ x < 2 ^ 63) : Heads (writeSigned x) (.value (.int x)) := by
  have form (b : UInt8) (n : Nat) (positive : n ≠ 0) (low : 0xC4 ≤ b.toNat) (high : b.toNat < 0xE0)
      (size : nbytes.getD (b.toNat - 0xC0) 0 = n + 1)
      (form : ∀ w, decode (b :: w) = .value (.int (signed n (netOrder w))))
      (range : -2 ^ (8 * n - 1) ≤ x ∧ x < 2 ^ (8 * n - 1)) : Heads (b :: toNetOrder n (word n x)) (.value (.int x)) := by
    have heads := heads_word b n (fun w => .value (.int (signed n w))) low high size form (word_lt n x)
    rwa [signed_word positive range] at heads
  rw [writeSigned]
  split
  · have byte := ofNat_toNat (word_lt 1 x)
    have back : signed 1 (word 1 x) = x := signed_word (by decide) (by omega)
    have fix : word 1 x < 0x80 ∨ 0xE0 ≤ word 1 x := by
      unfold word
      omega
    have digits : toNetOrder 1 (word 1 x) = [UInt8.ofNat (word 1 x)] := by
      rw [toNetOrder, toNetOrder, Nat.mod_eq_of_lt (show word 1 x < 256 from word_lt 1 x)]
      rfl
    have heads := heads_now (lead_fixint (b := UInt8.ofNat (word 1 x)) (by rw [byte]; exact fix))
    rw [byte, back] at heads
    rwa [digits]
  split
  · exact form 0xD0 1 (by decide) (by decide) (by decide) (by decide) (fun _ => rfl) ‹_›
  split
  · exact form 0xD1 2 (by decide) (by decide) (by decide) (by decide) (fun _ => rfl) ‹_›
  split
  · exact form 0xD2 4 (by decide) (by decide) (by decide) (by decide) (fun _ => rfl) ‹_›
  · exact form 0xD3 8 (by decide) (by decide) (by decide) (by decide) (fun _ => rfl) range

/-! ### Strings and containers -/

def awaited (s : Bytes) : List Nat := if s = [] then [] else [s.length]

theorem goes_raw (p : Stream) {h : Bytes} (normal : p.status.isNormal) (heads : Heads h (.raw s.length)) (small : s.length + 27 < 2 ^ 31)
    (made : next p (.str s) 0 = .ok q) : Goes p (h ++ s) q (awaited s) := by
  by_cases none_ : s = []
  · subst none_
    rw [List.append_nil, awaited, if_pos rfl, ← begun_of_kind (next_ok made)]
    exact heads p q normal made
  · have acted := act_raw p (fun zero => none_ (List.length_eq_zero_iff.mp zero)) (show s.length < 2 ^ 31 by omega)
    rw [awaited, if_neg none_]
    exact (heads p _ normal acted).trans (goes_body p none_ (by rw [List.length_nil, Nat.zero_add]) small made)

theorem goes_string (normal : p.status.isNormal) (small : s.length + 27 < 2 ^ 31) (made : next p (.str s) 0 = .ok q) :
    Goes p (writeString s) q (awaited s) := by
  have form (b : UInt8) (n : Nat) (low : 0xC4 ≤ b.toNat) (high : b.toNat < 0xE0)
      (size : nbytes.getD (b.toNat - 0xC0) 0 = n + 1) (form : ∀ w, decode (b :: w) = .raw (netOrder w))
      (range : s.length < 2 ^ (8 * n)) : Goes p (b :: (toNetOrder n s.length ++ s)) q (awaited s) :=
    goes_raw p normal (heads_word b n .raw low high size form range) small made
  rw [writeString]
  split
  · exact goes_raw p normal (heads_now (lead_fixstr ‹_›)) small made
  split
  · exact form 0xD9 1 (by decide) (by decide) (by decide) (fun _ => rfl) ‹_›
  split
  · exact form 0xDA 2 (by decide) (by decide) (by decide) (fun _ => rfl) ‹_›
  · exact form 0xDB 4 (by decide) (by decide) (by decide) (fun _ => rfl) (by omega)

theorem heads_array (small : n < 2 ^ 31) : Heads (writeArrayHeader n) (.array n) := by
  rw [writeArrayHeader]
  split
  · exact heads_now (lead_fixarray ‹_›)
  split
  · exact heads_word 0xDC 2 .array (by decide) (by decide) (by decide) (fun _ => rfl) ‹_›
  · exact heads_word 0xDD 4 .array (by decide) (by decide) (by decide) (fun _ => rfl) (Nat.lt_trans small (by decide))

theorem heads_map (small : n < 2 ^ 31) : Heads (writeMapHeader n) (.map n) := by
  rw [writeMapHeader]
  split
  · exact heads_now (lead_fixmap ‹_›)
  split
  · exact heads_word 0xDE 2 .map (by decide) (by decide) (by decide) (fun _ => rfl) ‹_›
  · exact heads_word 0xDF 4 .map (by decide) (by decide) (by decide) (fun _ => rfl) (Nat.lt_trans small (by decide))

/-! ### The memory of an earlier value -/

theorem forall₂_reuses {old : List Node} {vs : List Value} (reuses : ReusesItems old vs) :
    List.Forall₂ Reuses (old.take vs.length ++ List.replicate (vs.length - old.length) .null) vs := by
  induction vs generalizing old with
  | nil =>
    rw [List.length_nil, List.take_zero, Nat.zero_sub]
    exact .nil
  | cons v vs ih =>
    rw [ReusesItems] at reuses
    have later := ih reuses.2
    cases old with
    | nil =>
      rw [List.tail_nil, List.take_nil, List.length_nil, Nat.sub_zero, List.nil_append] at later
      rw [List.take_nil, List.length_nil, Nat.sub_zero, List.nil_append, List.length_cons, List.replicate_succ]
      exact .cons reuses.1 later
    | cons x old =>
      rw [List.length_cons, List.length_cons, List.take_succ_cons, List.cons_append, Nat.add_sub_add_right]
      exact .cons reuses.1 later

theorem resize_reuses {old : Node} {vs : List Value} (reuses : Reuses old (.array vs)) :
    ∃ capacity xs, old.resize vs.length = .ok (.array capacity xs) ∧ List.Forall₂ Reuses xs vs := by
  rw [Reuses] at reuses
  have each := forall₂_reuses reuses.2
  cases old with
  | array capacity xs =>
    obtain ⟨c, made⟩ := uniqueifyArray_isOk.mpr reuses.1
    exact ⟨c, _, map_eq_ok.mpr ⟨c, made, rfl⟩, each⟩
  | _ =>
    change List.Forall₂ Reuses (List.take vs.length [] ++ List.replicate vs.length .null) vs at each
    rw [List.take_nil, List.nil_append] at each
    exact ⟨_, _, rfl, each⟩

theorem reusesItems_null {vs : List Value} (each : ∀ v ∈ vs, Reuses .null v) : ReusesItems [] vs := by
  induction vs with
  | nil =>
    rw [ReusesItems]
    trivial
  | cons v vs ih =>
    rw [List.forall_mem_cons] at each
    rw [ReusesItems]
    exact ⟨each.1, ih each.2⟩

theorem reusesEntries_iff {entries : List (Bytes × Value)} : ReusesEntries entries ↔ ∀ e ∈ entries, Reuses .null e.2 := by
  induction entries with
  | nil => simp [ReusesEntries]
  | cons e entries ih => rw [ReusesEntries, ih, List.forall_mem_cons]

/-- A new value has no memory that could be bad for what is written. -/
theorem reuses_null {w : Text} (written : w.Written) : Reuses .null w.value := by
  induction written with
  | array small _ ih =>
    rw [Reuses]
    exact ⟨trivial, reusesItems_null (List.forall_mem_map.mpr ih)⟩
  | @object es small distinct keyed _ _ ih =>
    rw [Reuses, List.map_map]
    exact ⟨keyed, reusesEntries_iff.mpr (List.forall_mem_map.mpr ih)⟩
  | null | bool | int | unsigned | wideInt | wideUnsigned | float | double | str => simp [Reuses]

/-! ### Values -/

/-- The next value is not a key. -/
def Ready : List Frame → Prop
  | .key _ _ _ :: _ => False
  | _ => True

theorem next_ready (ready : Ready p.stack) (v : Node) : next p v 0 = .ok (advance p.jokey p.stack v) := by
  unfold next
  split
  · rename_i same
    rw [same] at ready
    cases ready
  · split
    · rename_i zero
      cases zero
    · rename_i zero
      cases zero
    · rfl

theorem next_items (ready : Ready p.stack) (capacity : Nat) (x : Node) (after : List Node) (n : Nat) :
    next p (.array capacity (x :: after)) (n + 1) = .ok ⟨.normal, .item capacity [] after :: p.stack, x, p.jokey⟩ := by
  unfold next
  split
  · rename_i same
    rw [same] at ready
    cases ready
  · rfl

theorem next_entries (ready : Ready p.stack) (table : Nat) (entries : List (Bytes × Node)) (n : Nat) :
    next p (.object table entries) (n + 1) = .ok ⟨.normal, .key table entries n :: p.stack, p.jokey, p.jokey⟩ := by
  unfold next
  split
  · rename_i same
    rw [same] at ready
    cases ready
  · rfl

theorem enter_new {entries : List (Bytes × Node)} {k : Bytes} (fresh : k ∉ entries.map Prod.fst)
    (entered : ObjectJson.enter hashcode table (entries.map Prod.fst) k = some x) (n : Nat) (stack : List Frame) (jokey : Node) :
    enter table entries k n stack jokey = .ok ⟨.normal, .entry x entries k [] n :: stack, .null, jokey⟩ := by
  have other : ∀ e ∈ entries, decide (e.1 ≠ k) = true := by
    intro e mem
    apply decide_eq_true
    rintro rfl
    exact fresh (List.mem_map_of_mem mem)
  have split_ : entries.span (fun e => e.1 ≠ k) = (entries, []) := by
    rw [List.span_eq_takeWhile_dropWhile, List.takeWhile_eq_self_iff.mpr other, List.dropWhile_eq_nil_iff.mpr other]
  simp only [enter, entered, split_]

/-- The bytes complete the value, at any place where a value is due, and the strings in it are waited for. -/
def Completes (w : Text) : Prop :=
  ∀ p : Stream, p.status.isNormal → Ready p.stack → Reuses p.json w.value →
    ∃ v jokey, v.value = w.result ∧ Goes p w.bytes (advance jokey p.stack v) (w.value.strings.flatMap awaited)

theorem completes_leaf {h : Bytes} {a : Value} {v : Node} (heads : Heads h (.value v)) (leaf : a.strings = []) :
    Completes ⟨a, h, v.value⟩ := by
  intro p normal ready reuses
  have goes := heads p _ normal (next_ready ready v)
  rw [begun_of_kind (advance_ok _ _ _)] at goes
  exact ⟨v, p.jokey, rfl, by rwa [leaf]⟩

theorem goes_items (stack : List Frame) {ws : List Text} (each : ∀ w ∈ ws, Completes w) (some_ : ws ≠ []) (capacity : Nat)
    (before after : List Node) (x : Node) (reuses : List.Forall₂ Reuses (x :: after) (ws.map Text.value)) (jokey : Node) :
    ∃ vs jokey', vs.map value = ws.map Text.result ∧
      Goes ⟨.normal, .item capacity before after :: stack, x, jokey⟩ (ws.flatMap Text.bytes)
        (advance jokey' stack (.array capacity (before ++ vs))) (ws.flatMap fun w => w.value.strings.flatMap awaited) := by
  induction ws generalizing before after x jokey with
  | nil => exact absurd rfl some_
  | cons w ws ih =>
    rw [List.map_cons, List.forall₂_cons] at reuses
    obtain ⟨v, jokey₁, same, goes⟩ :=
      each w List.mem_cons_self ⟨.normal, .item capacity before after :: stack, x, jokey⟩ rfl trivial reuses.1
    rw [List.flatMap_cons, List.flatMap_cons]
    cases ws with
    | nil =>
      obtain rfl := List.forall₂_nil_right_iff.mp reuses.2
      rw [advance] at goes
      exact ⟨[v], jokey₁, by rw [List.map_cons, same]; rfl, goes.trans (Goes.refl _)⟩
    | cons w' ws =>
      obtain ⟨y, after, -, -, rfl⟩ := List.forall₂_cons_right_iff.mp reuses.2
      obtain ⟨vs, jokey', later, rest⟩ := ih (fun u mem => each u (List.mem_cons_of_mem w mem)) (List.cons_ne_nil _ _)
        (before ++ [v]) after
        y reuses.2 jokey₁
      rw [List.append_assoc] at rest
      rw [advance] at goes
      exact ⟨v :: vs, jokey', by rw [List.map_cons, same, later]; rfl, goes.trans rest⟩

theorem goes_entries (stack : List Frame) {es : List (Bytes × Text)} (keys : ∀ e ∈ es, e.1.length + 27 < 2 ^ 31)
    (each : ∀ e ∈ es, Completes e.2)
    (reuses : ∀ e ∈ es, Reuses .null e.2.value) (some_ : es ≠ []) (table : Nat) (before : List (Bytes × Node))
    (distinct : (before.map Prod.fst ++ es.map Prod.fst).Nodup)
    (entered : (ObjectJson.enterAll hashcode table (before.map Prod.fst) (es.map Prod.fst)).isSome) (n : Nat) (size : n + 1 = es.length)
    (json jokey : Node) :
    ∃ table' entries jokey', (entries.map fun e => (e.1, e.2.value)) = (es.map fun e => (e.1, e.2.result)) ∧
      Goes ⟨.normal, .key table before n :: stack, json, jokey⟩ (es.flatMap fun e => writeString e.1 ++ e.2.bytes)
        (advance jokey' stack (.object table' (before ++ entries)))
        (es.flatMap fun e => awaited e.1 ++ e.2.value.strings.flatMap awaited) := by
  induction es generalizing table before n json jokey with
  | nil => exact absurd rfl some_
  | cons e es ih =>
    obtain ⟨k, w⟩ := e
    have fresh : k ∉ before.map Prod.fst := by
      intro mem
      exact (List.nodup_append.mp distinct).2.2 k mem k List.mem_cons_self rfl
    rw [List.map_cons, ObjectJson.enterAll] at entered
    obtain ⟨last, entered⟩ := Option.isSome_iff_exists.mp entered
    obtain ⟨table₁, first, entered⟩ := Option.bind_eq_some_iff.mp entered
    rw [if_neg fresh] at entered
    have key := goes_string (p := ⟨.normal, .key table before n :: stack, json, jokey⟩) (s := k) rfl (keys _ List.mem_cons_self)
      (enter_new fresh first n stack (.str k))
    obtain ⟨v, jokey₁, same, value_⟩ := each _ List.mem_cons_self
      ⟨.normal, .entry table₁ before k [] n :: stack, .null, .str k⟩ rfl trivial
      (reuses _ List.mem_cons_self)
    have goes := key.trans value_
    rw [List.flatMap_cons, List.flatMap_cons]
    cases es with
    | nil =>
      obtain rfl : n = 0 := Nat.succ.inj size
      rw [advance] at goes
      exact ⟨table₁, [(k, v)], jokey₁, by rw [List.map_cons, same]; rfl, goes.trans (Goes.refl _)⟩
    | cons f es =>
      obtain ⟨m, rfl⟩ : ∃ m, n = m + 1 := ⟨es.length, Nat.succ.inj size⟩
      have keys_ : (before ++ [(k, v)]).map Prod.fst = before.map Prod.fst ++ [k] := List.map_append
      obtain ⟨table', entries, jokey', later, rest⟩ := ih (fun e mem => keys e (List.mem_cons_of_mem _ mem))
        (fun e mem => each e (List.mem_cons_of_mem _ mem)) (fun e mem => reuses e (List.mem_cons_of_mem _ mem))
        (List.cons_ne_nil _ _) table₁ (before ++ [(k, v)])
        (by
          rw [keys_, List.append_assoc]
          exact distinct)
        (by rw [keys_, entered]; rfl) m (Nat.succ.inj size) jokey₁ jokey₁
      rw [List.append_assoc] at rest
      rw [advance] at goes
      exact ⟨table', (k, v) :: entries, jokey', by rw [List.map_cons, same, later]; rfl, goes.trans rest⟩

theorem completes_array {ws : List Text} (small : ws.length < 2 ^ 31) (each : ∀ w ∈ ws, Completes w) :
    Completes ⟨.array (ws.map Text.value), writeArrayHeader ws.length ++ ws.flatMap Text.bytes, .array (ws.map Text.result)⟩ := by
  intro p normal ready reuses
  obtain ⟨capacity, xs, made, fits⟩ := resize_reuses reuses
  rw [List.length_map] at made
  have strings_ : (Value.array (ws.map Text.value)).strings.flatMap awaited = ws.flatMap fun w => w.value.strings.flatMap awaited := by
    rw [strings, itemStrings_eq, List.flatMap_map, List.flatMap_assoc]
  have acted : ∀ q, next p (.array capacity xs) ws.length = .ok q → act p (.array ws.length) = .ok q := by
    intro q stored
    rw [act, checkSize_eq small]
    change (p.json.resize ws.length).bind _ = _
    rw [made]
    exact stored
  dsimp only
  rw [strings_]
  cases ws with
  | nil =>
    obtain rfl := List.forall₂_nil_right_iff.mp fits
    have goes := heads_array small p _ normal (acted _ (next_ready ready _))
    rw [begun_of_kind (advance_ok _ _ _)] at goes
    exact ⟨.array capacity [], p.jokey, rfl, goes.trans (Goes.refl _)⟩
  | cons w ws =>
    obtain ⟨x, after, -, -, rfl⟩ := List.forall₂_cons_right_iff.mp fits
    have goes := heads_array small p _ normal (acted _ (next_items ready capacity x after ws.length))
    obtain ⟨vs, jokey, same, rest⟩ := goes_items p.stack each (List.cons_ne_nil _ _) capacity [] after x fits p.jokey
    refine ⟨.array capacity vs, jokey, ?_, goes.trans rest⟩
    rw [value, values_eq, same]

theorem completes_object {es : List (Bytes × Text)} (small : es.length < 2 ^ 31) (distinct : (es.map Prod.fst).Nodup)
    (keys : ∀ e ∈ es, e.1.length + 27 < 2 ^ 31) (each : ∀ e ∈ es, Completes e.2) :
    Completes ⟨.object (es.map fun e => (e.1, e.2.value)),
      writeMapHeader es.length ++ es.flatMap fun e => writeString e.1 ++ e.2.bytes,
      .object (es.map fun e => (e.1, e.2.result))⟩ := by
  intro p normal ready reuses
  rw [Reuses, reusesEntries_iff, List.map_map] at reuses
  obtain ⟨entered, reuses⟩ := reuses
  have strings_ : (Value.object (es.map fun e => (e.1, e.2.value))).strings.flatMap awaited =
      es.flatMap fun e => awaited e.1 ++ e.2.value.strings.flatMap awaited := by
    rw [strings, entryStrings_eq, List.flatMap_map, List.flatMap_assoc]
    rfl
  obtain ⟨table, cleared, old⟩ : ∃ table, p.json.clear = .object table [] ∧ p.json.table = table := by
    cases p.json <;> exact ⟨_, rfl, rfl⟩
  rw [old] at entered
  have acted : ∀ q, next p (.object table []) es.length = .ok q → act p (.map es.length) = .ok q := by
    intro q stored
    rw [act, checkSize_eq small, cleared]
    exact stored
  dsimp only
  rw [strings_]
  cases es with
  | nil =>
    have goes := heads_map small p _ normal (acted _ (next_ready ready _))
    rw [begun_of_kind (advance_ok _ _ _)] at goes
    exact ⟨.object table [], p.jokey, rfl, goes.trans (Goes.refl _)⟩
  | cons e es =>
    have goes := heads_map small p _ normal (acted _ (next_entries ready table [] es.length))
    obtain ⟨table', entries, jokey, same, rest⟩ := goes_entries p.stack keys each
      (fun e mem => reuses _ (List.mem_map_of_mem mem)) (List.cons_ne_nil _ _) table [] distinct entered es.length rfl p.jokey p.jokey
    refine ⟨.object table' entries, jokey, ?_, goes.trans rest⟩
    rw [value, entryValues_eq, same]

/-- Whatever the unparser has written completes its value. -/
theorem written_completes {w : Text} (written : w.Written) : Completes w := by
  induction written with
  | null =>
    have kind : lead 0xC0 = .now (.value .null) := rfl
    exact completes_leaf (heads_now kind) (by rw [strings]; all_goals simp)
  | bool b =>
    have kind : lead (if b then 0xC3 else 0xC2) = .now (.value (.bool b)) := by cases b <;> rfl
    exact completes_leaf (heads_now kind) rfl
  | int range => exact completes_leaf (heads_signed range) rfl
  | @unsigned x range =>
    have leaf := completes_leaf (a := .unsigned x) (heads_unsigned range) rfl
    rwa [value_narrow] at leaf
  | @wideInt x range =>
    have heads := heads_word 0xD3 8 (fun w => .value (.int (signed 8 w))) (by decide) (by decide) (by decide)
      (fun _ => rfl) (word_lt 8 x)
    rw [signed_word (by decide) range] at heads
    exact completes_leaf heads rfl
  | wideUnsigned range =>
    exact completes_leaf (heads_word 0xCF 8 (fun x => .value (.unsigned x)) (by decide) (by decide) (by decide) (fun _ => rfl) range) rfl
  | float range =>
    exact completes_leaf (heads_word 0xCA 4 (fun x => .value (.double (floatToDouble x))) (by decide) (by decide) (by decide)
      (fun _ => rfl) range) rfl
  | double range =>
    exact completes_leaf (heads_word 0xCB 8 (fun x => .value (.double x)) (by decide) (by decide) (by decide) (fun _ => rfl) range) rfl
  | @str s small =>
    intro p normal ready reuses
    refine ⟨.str s, p.jokey, rfl, ?_⟩
    have goes := goes_string normal small (next_ready ready (.str s))
    change Goes p (writeString s) _ (awaited s ++ [])
    rwa [List.append_nil]
  | array small _ each => exact completes_array small each
  | object small distinct _ keys _ each => exact completes_object small distinct keys each

theorem eq_of_forget (same : q.forget = r) (final : r.status.isDone) : q = r := by
  obtain ⟨status, stack, json, jokey⟩ := q
  subst same
  cases status with
  | body => cases final
  | final | error | normal | header => rfl

theorem consume_written {w : Text} (written : w.Written) (old jokey : Node) (reuses : Reuses old w.value) (rest : Bytes) :
    ∃ v jokey', v.value = w.result ∧ consume (start old jokey) (w.bytes ++ rest) = .ok (⟨.final, [], v, jokey'⟩, w.bytes.length) := by
  obtain ⟨v, jokey', same, goes⟩ := written_completes written (start old jokey) rfl trivial reuses
  have ended : advance jokey' (start old jokey).stack v = ⟨.final, [], v, jokey'⟩ := rfl
  have whole : (consume (start old jokey) (w.bytes ++ rest)).map outcome = reach (w.bytes ++ rest) 0 (start old jokey) :=
    resume_eq (Nat.zero_le _) (.inl rfl)
  rw [reach, List.drop_zero, goes.run, ended, run_done rfl] at whole
  obtain ⟨⟨q, k⟩, called, reached⟩ := map_eq_ok.mp whole
  obtain ⟨final, moved⟩ := Prod.mk.inj reached
  obtain rfl := eq_of_forget (q := q) final rfl
  refine ⟨v, jokey', same, ?_⟩
  rw [called]
  have size : k = w.bytes.length := moved.trans (by rw [List.length_append]; exact Nat.add_sub_cancel ..)
  rw [size]

/-- A value is written whole and read back from its bytes, all of them, with every integer as the same number, as long as the text stays
2^20 bytes below an `int` and the memory of the earlier value is good for it. -/
theorem consume_unparse (old jokey : Node) {v : Value} (holds : v.Holds) (reuses : Reuses old v)
    (short : v.text.length + 2 ^ 20 ≤ 2 ^ 31) :
    ∃ text, v.unparse = some text ∧ ∃ read jokey', consume (start old jokey) text = .ok (⟨.final, [], read, jokey'⟩, text.length) ∧
      read.value.plain = v.plain := by
  obtain ⟨read, jokey', same, called⟩ := consume_written (holds.written short) old jokey reuses []
  rw [List.append_nil] at called
  refine ⟨v.text, unparse_eq short, read, jokey', called, ?_⟩
  rw [same]
  exact plain_reread v

/-- An object in an array, read where an array with an object was read before. -/
theorem consume_unparse_nested : ∃ text, (array [.object [([0x61], .unsigned 300), ([], .array [.int (-1)])], .str [0x62]]).unparse =
    some text ∧
    ∃ read jokey', consume (start (.array 8 [.object 8 [], .null]) .null) text = .ok (⟨.final, [], read, jokey'⟩, text.length) ∧
      read.value.plain = (array [.object [([0x61], .unsigned 300), ([], .array [.int (-1)])], .str [0x62]]).plain := by
  refine consume_unparse (.array 8 [.object 8 [], .null]) .null (.array (by decide) ?_) ?_ (by decide)
  · intro v mem
    rcases List.mem_pair.mp mem with rfl | rfl
    · refine .object (by decide) (by decide) (by decide) (by decide) fun e mem => ?_
      rcases List.mem_pair.mp mem with rfl | rfl
      · exact .unsigned (by decide)
      · refine .array (by decide) fun v mem => ?_
        obtain rfl := List.mem_singleton.mp mem
        exact .int (by decide)
    · exact .str (by decide)
  · simp only [Reuses, ReusesItems, ReusesEntries, and_true]
    exact ⟨show Resizable 8 2 2 by decide, by decide, trivial, trivial⟩

/-- With a string of 2^31 - 5 bytes the space to reserve is no `int`. -/
theorem long_string_unparse :
    (Value.str (List.replicate (2 ^ 31 - 5) 0)).Holds ∧ Reuses .null (Value.str (List.replicate (2 ^ 31 - 5) 0)) ∧
      (Value.str (List.replicate (2 ^ 31 - 5) 0)).unparse = none := by
  have length : (List.replicate (2 ^ 31 - 5) (0 : UInt8)).length = 2 ^ 31 - 5 := List.length_replicate
  generalize List.replicate (2 ^ 31 - 5) (0 : UInt8) = s at length
  refine ⟨.str (by omega), by simp [Reuses], unparse_fails (by omega)⟩

end Stream

end Masstree.Msgpack
