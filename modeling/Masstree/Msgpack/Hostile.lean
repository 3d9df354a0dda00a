import Masstree.Msgpack.Receive

/-!
# Hostile input

A length is read as unsigned and kept in an `int`, and so are the capacities that are computed of it. The parser is safe on a range
unless the range completes something that none can be made for.
-/

namespace Masstree.Msgpack.Stream
open Results

variable {p q : Stream} {data s t : Bytes} {b : UInt8} {k n fuel : Nat}

inductive Reachable : Stream → Prop
  | reset (json jokey : Node) : Reachable (start json jokey)
  | consume {p q : Stream} {data : Bytes} {k : Nat} : Reachable p → consume p data = .ok (q, k) → Reachable q

/-- A call returns `q` and the position `k`: it terminates, reads inside the range and acts on the lengths encoded
(otherwise it is a fault), and it returns a position of the range, further on or with the parser done. -/
structure Call (p : Stream) (data : Bytes) (q : Stream) (k : Nat) : Prop where
  returns : consume p data = .ok (q, k)
  inside : k ≤ data.length
  moves : 0 < k ∨ q.status.isDone

/-- The call for a range is so, and so are the calls for what is left of it. -/
inductive Safe : Stream → Bytes → Prop
  | call {p q : Stream} {data : Bytes} {k : Nat} :
      Call p data q k → (k < data.length → ¬ q.status.isDone → Safe q (data.drop k)) → Safe p data

/-- A value that is a key can be entered in its object. -/
def KeyFits (p : Stream) (v : Node) : Prop :=
  match p.stack with
  | .key table entries _ :: _ => ∀ k ∈ keyOf v, ObjectJson.Enterable hashcode table (entries.map Prod.fst) k
  | _ => True

/-- A length is an `int`, and so is the capacity of an array that there is already. -/
def Fits (p : Stream) : Item → Prop
  | .value v => KeyFits p v
  | .array n => n < 2 ^ 31 ∧ p.json.Resizes n
  | .map n => n < 2 ^ 31
  | .raw n => n < 2 ^ 31 ∧ (n = 0 → KeyFits p (.str []))

def completed (p : Stream) (b : UInt8) : Option Item :=
  match p.status with
  | .normal =>
    match lead b with
    | .now item => some item
    | _ => none
  | .header saved =>
    if (saved ++ [b]).length = headerLength (saved ++ [b]) then some (decode (saved ++ [b])) else none
  | _ => none

/-- A memo can be made for the string so far, and the string that the byte completes can be entered. -/
def Continues (p : Stream) (b : UInt8) : Prop :=
  match p.status with
  | .body saved n _ => saved.length + 28 < 2 ^ 31 ∧ (saved.length + 1 = n → KeyFits p (.str (saved ++ [b])))
  | _ => True

/-- No byte of the range completes something that does not fit. -/
def Small (p : Stream) (data : Bytes) : Prop :=
  ∀ s b t q, data = s ++ b :: t → run p.forget s = .ok (q, []) → (∀ item ∈ completed q b, Fits q item) ∧ Continues q b

/-! ### One byte -/

theorem enter_isOk {table size : Nat} {entries : List (Bytes × Node)} {key : Bytes} {stack : List Frame} {jokey : Node} :
    (∃ q, enter table entries key size stack jokey = .ok q) ↔ ObjectJson.Enterable hashcode table (entries.map Prod.fst) key := by
  rw [← ObjectJson.enter_isSome_iff, enter]
  cases ObjectJson.enter hashcode table (entries.map Prod.fst) key with
  | none =>
    refine iff_of_false ?_ Bool.false_ne_true
    rintro ⟨q, made⟩
    cases made
  | some x =>
    refine iff_of_true ?_ rfl
    dsimp only
    split <;> exact ⟨_, rfl⟩

theorem next_isOk {v : Node} : (∃ q, next p v n = .ok q) ↔ KeyFits p v := by
  obtain ⟨status, stack, json, jokey⟩ := p
  have value : ∀ {stack}, (∀ table entries size tail, stack ≠ .key table entries size :: tail) →
      ∃ q, next ⟨status, stack, json, jokey⟩ v n = .ok q := by
    intro stack other
    unfold next
    split
    · exact absurd ‹_› (other _ _ _ _)
    · split <;> exact ⟨_, rfl⟩
  cases stack with
  | nil => exact iff_of_true (value fun _ _ _ _ same => by cases same) trivial
  | cons frame tail =>
    cases frame with
    | item | entry => exact iff_of_true (value fun _ _ _ _ same => by cases same) trivial
    | key table entries size =>
      unfold next KeyFits
      dsimp only
      cases keyOf v with
      | none => exact iff_of_true ⟨_, rfl⟩ fun k mem => by cases mem
      | some k =>
        refine enter_isOk.trans ⟨fun ok k' mem => ?_, fun all => all k rfl⟩
        obtain rfl := Option.some.inj mem
        exact ok

theorem keyFits_of_none {v : Node} (none_ : keyOf v = none) : KeyFits p v := by
  unfold KeyFits
  split
  · intro k mem
    rw [none_] at mem
    cases mem
  · trivial

theorem act_isOk {item : Item} : (∃ q, act p item = .ok q) ↔ Fits p item := by
  have checked : ∀ {m : Nat} {f : Nat → Except Fault Stream},
      (∃ q, (checkSize m).bind f = .ok q) ↔ m < 2 ^ 31 ∧ ∃ q, f m = .ok q := by
    intro m f
    constructor
    · rintro ⟨q, h⟩
      obtain ⟨k, h, made⟩ := bind_eq_ok.mp h
      obtain ⟨rfl, small⟩ := checkSize_ok h
      exact ⟨small, q, made⟩
    · rintro ⟨small, q, made⟩
      exact ⟨q, by rw [checkSize_eq small]; exact made⟩
  cases item with
  | value v => exact next_isOk
  | array m =>
    refine checked.trans (and_congr_right fun _ => ?_)
    rw [← Node.resize_isOk]
    constructor
    · rintro ⟨q, h⟩
      obtain ⟨w, made, -⟩ := bind_eq_ok.mp h
      exact ⟨w, made⟩
    · rintro ⟨w, made⟩
      have array : keyOf w = none := by
        cases h : p.json <;> rw [h] at made
        case array =>
          obtain ⟨c, -, rfl⟩ := map_eq_ok.mp made
          rfl
        all_goals
          obtain rfl := Except.ok.inj made
          rfl
      obtain ⟨q, stored⟩ := next_isOk.mpr (keyFits_of_none array)
      exact ⟨q, bind_eq_ok.mpr ⟨w, made, stored⟩⟩
  | map m =>
    refine checked.trans (and_iff_left (next_isOk.mpr (keyFits_of_none ?_)))
    cases p.json <;> rfl
  | raw m =>
    refine checked.trans (and_congr_right fun _ => ?_)
    split
    · rename_i zero
      rw [next_isOk]
      exact ⟨fun fits _ => fits, fun fits => fits zero⟩
    · rename_i some_
      exact iff_of_true ⟨_, rfl⟩ fun zero => absurd zero some_

theorem map_isOk {α β : Type} {x : Except Fault α} {f : α → β} : (∃ r, x.map f = .ok r) ↔ ∃ a, x = .ok a := by
  constructor
  · rintro ⟨r, h⟩
    obtain ⟨a, made, -⟩ := map_eq_ok.mp h
    exact ⟨a, made⟩
  · rintro ⟨a, made⟩
    exact ⟨f a, map_eq_ok.mpr ⟨a, made, rfl⟩⟩

theorem step_isOk : (∃ r, step p b = .ok r) ↔ (∀ item ∈ completed p b, Fits p item) ∧ Continues p b := by
  have item : ∀ {item : Item}, (∃ q, act p item = .ok q) ↔ ∀ i ∈ some item, Fits p i := by
    intro item
    rw [act_isOk]
    refine ⟨fun fits i mem => ?_, fun all => all item rfl⟩
    obtain rfl := Option.some.inj mem
    exact fits
  have nothing : ∀ i ∈ (none : Option Item), Fits p i := fun i mem => by cases mem
  obtain ⟨status, stack, json, jokey⟩ := p
  cases status with
  | final | error => exact iff_of_true ⟨_, rfl⟩ ⟨nothing, trivial⟩
  | normal =>
    refine Iff.trans ?_ (and_iff_left trivial).symm
    unfold completed
    dsimp only
    cases kind : lead b with
    | bad => exact iff_of_true ⟨none, step_bad rfl kind⟩ nothing
    | now i =>
      rw [step_now rfl kind, map_isOk]
      exact item
    | wide n =>
      have two := (lead_wide kind).2
      rw [step_wide rfl kind, inHeader, if_neg (by rw [List.length_singleton]; omega)]
      exact iff_of_true ⟨_, rfl⟩ nothing
  | header saved =>
    refine Iff.trans ?_ (and_iff_left trivial).symm
    rw [step_header ⟨.normal, stack, json, jokey⟩, map_isOk, inHeader]
    unfold completed
    dsimp only
    split
    · exact item
    · exact iff_of_true ⟨_, rfl⟩ nothing
  | body saved n capacity =>
    refine Iff.trans ?_ (and_iff_right nothing).symm
    change (∃ r, (inBody ⟨.body saved n capacity, stack, json, jokey⟩ (saved ++ [b]) n).map some = .ok r) ↔
      saved.length + 28 < 2 ^ 31 ∧ (saved.length + 1 = n → KeyFits _ (.str (saved ++ [b])))
    rw [map_isOk, inBody, List.length_append, List.length_singleton]
    by_cases long : 2 ^ 31 ≤ saved.length + 1 + 27
    · rw [if_pos long]
      refine iff_of_false ?_ fun small => absurd small.1 (by omega)
      rintro ⟨q, h⟩
      cases h
    · rw [if_neg long, and_iff_right (by omega)]
      by_cases full : saved.length + 1 = n
      · rw [if_pos full, next_isOk]
        exact ⟨fun fits _ => fits, fun fits => fits full⟩
      · rw [if_neg full]
        exact iff_of_true ⟨_, rfl⟩ fun yes => absurd yes full

/-! ### A range -/

theorem run_isOk (p : Stream) (data : Bytes) : (∃ r, run p data = .ok r) ↔
    ∀ s b t q, data = s ++ b :: t → run p s = .ok (q, []) → (∀ item ∈ completed q b, Fits q item) ∧ Continues q b := by
  induction data generalizing p with
  | nil =>
    refine iff_of_true ⟨_, rfl⟩ fun s b t q cut => ?_
    exact absurd cut (by simp)
  | cons b rest ih =>
    constructor
    · rintro ⟨r, h⟩ s c t q cut reached
      obtain ⟨next, taken, h⟩ := bind_eq_ok.mp h
      cases s with
      | nil =>
        obtain ⟨rfl, -⟩ := List.cons.inj cut
        obtain ⟨rfl, -⟩ := Prod.mk.inj (Except.ok.inj reached)
        exact step_isOk.mp ⟨next, taken⟩
      | cons d s =>
        obtain ⟨rfl, later⟩ := List.cons.inj cut
        rw [run, taken] at reached
        cases next with
        | none => cases reached
        | some p' => exact (ih p').mp ⟨r, h⟩ s c t q later reached
    · intro small
      obtain ⟨next, taken⟩ := step_isOk.mpr (small [] b rest p rfl rfl)
      rw [run, taken]
      cases next with
      | none => exact ⟨_, rfl⟩
      | some p' =>
        refine (ih p').mpr fun s c t q cut reached => small (b :: s) c t q (by rw [cut]; rfl) ?_
        rw [run, taken]
        exact reached

/-! ### Calls -/

theorem reachable_ok (reachable : Reachable p) : Ok p := by
  induction reachable with
  | reset json jokey => trivial
  | consume _ called ih => exact (consume_called ih called).ok

/-- A call without a byte changes nothing. -/
theorem consume_nil (ok : Ok p) (h : consume p [] = .ok (q, k)) (done : q.status.isDone) : p.status.isDone := by
  have ran := consume_run ok (room_nil ok).takes
  rw [h] at ran
  change Except.ok (p.forget, []) = run q.forget _ at ran
  rw [List.drop_nil] at ran
  obtain ⟨same, -⟩ := Prod.mk.inj (Except.ok.inj ran)
  rwa [← forget_isDone, same, forget_isDone]

theorem safe_feed (safe : Safe p data) (ok : Ok p) (enough : data.length < fuel) : ∃ r, feed fuel p data = .ok r := by
  induction safe generalizing fuel with
  | @call p q data k call _ ih =>
    obtain ⟨fuel, rfl⟩ : ∃ m, fuel = m + 1 := ⟨fuel - 1, by omega⟩
    rw [feed]
    split
    · exact ⟨_, rfl⟩
    · rename_i going
      have positive := List.length_pos_iff.mpr (not_or.mp going).2
      obtain ⟨fuel, rfl⟩ : ∃ m, fuel = m + 1 := ⟨fuel - 1, by omega⟩
      rw [call.returns]
      refine map_isOk.mpr ?_
      by_cases onward : k < data.length ∧ ¬q.status.isDone
      · have more := call.moves.resolve_right onward.2
        exact ih onward.1 onward.2 (consume_called ok call.returns).ok (by rw [List.length_drop]; omega)
      · refine ⟨_, if_pos ?_⟩
        by_cases done : q.status.isDone
        · exact .inl done
        · exact .inr (List.drop_eq_nil_of_le (Nat.le_of_not_lt fun lt => onward ⟨lt, done⟩))

theorem safe_room (safe : Safe p data) (ok : Ok p) : Room p data := by
  by_contra full
  obtain ⟨r, fed⟩ := safe_feed safe ok (Nat.lt_succ_self _)
  cases fed.symm.trans (feed_endless ok full (Nat.lt_succ_self _))

theorem safe_run (safe : Safe p data) (ok : Ok p) : ∃ r, run p.forget data = .ok r := by
  obtain ⟨r, fed⟩ := safe_feed safe ok (Nat.lt_succ_self _)
  have ran := feed_run ok (safe_room safe ok) (Nat.lt_succ_self data.length)
  rw [fed] at ran
  obtain ⟨s, ran, -⟩ := map_eq_ok.mp ran.symm
  exact ⟨s, ran⟩

theorem run_safe {r : Stream × Bytes} (ok : Ok p) (room : Room p data) (given : data ≠ [] ∨ p.status.isDone)
    (h : run p.forget data = .ok r) : Safe p data := by
  induction size : data.length using Nat.strong_induction_on generalizing p data with
  | _ size_ ih =>
    subst size
    rw [consume_run ok room.takes] at h
    obtain ⟨⟨q, k⟩, returns, h⟩ := bind_eq_ok.mp h
    have called := consume_called ok returns
    refine .call ⟨returns, called.inside, called.moves given⟩ fun more going => ?_
    have further := (called.moves given).resolve_right going
    refine ih (data.drop k).length ?_ called.ok (called.room room) (.inl ?_) h rfl
    · rw [List.length_drop]
      omega
    · rw [ne_eq, List.drop_eq_nil_iff]
      omega

theorem isOk_iff {α : Type} {x : Except Fault α} : x.isOk ↔ ∃ a, x = .ok a := by
  cases x with
  | error fault => exact iff_of_false Bool.false_ne_true fun h => by cases h.choose_spec
  | ok a => exact iff_of_true rfl ⟨a, rfl⟩

/-- The parser is safe on a range exactly when there is something to do, whatever a byte completes fits, and there is room for what the
range brings of a string that was begun before. -/
theorem safe_iff_small (reachable : Reachable p) (data : Bytes) :
    Safe p data ↔ Small p data ∧ Room p data ∧ (data ≠ [] ∨ p.status.isDone) := by
  have ok := reachable_ok reachable
  constructor
  · intro safe
    refine ⟨(run_isOk p.forget data).mp (safe_run safe ok), safe_room safe ok, ?_⟩
    obtain ⟨call, _⟩ := safe
    by_cases none_ : data = []
    · subst none_
      have stays := call.moves.resolve_left (Nat.not_lt.mpr call.inside)
      exact .inr (consume_nil ok call.returns stays)
    · exact .inl none_
  · rintro ⟨small, room, given⟩
    obtain ⟨r, h⟩ := (run_isOk p.forget data).mpr small
    exact run_safe ok room given h

set_option maxRecDepth 4000 in
/-- In the header of a key, in an object that is the first of two items. -/
theorem safe_nested :
    consume (start .null .null) [0x92, 0x81, 0xD9] =
        .ok (⟨.header [0xD9], [.key 0 [] 0, .item 8 [] [.null]], .null, .null⟩, 3) ∧
      Safe ⟨.header [0xD9], [.key 0 [] 0, .item 8 [] [.null]], .null, .null⟩ [0x01, 0x61, 0xC3, 0x05, 0xC0] := by
  have called : consume (start .null .null) [0x92, 0x81, 0xD9] =
      .ok (⟨.header [0xD9], [.key 0 [] 0, .item 8 [] [.null]], .null, .null⟩, 3) := rfl
  refine ⟨called, (safe_iff_small (.consume (.reset .null .null) called) _).mpr ⟨?_, ?_, .inl (by decide)⟩⟩
  · exact (run_isOk _ _).mp (isOk_iff.mp (by decide))
  · intro r mem
    obtain rfl := Option.some.inj mem
    decide

/-- The header of a string of 2^32 - 5 bytes. -/
theorem long_string_unsafe : Reachable (start .null .null) ∧ ¬ Safe (start .null .null) [0xDB, 0xFF, 0xFF, 0xFF, 0xFB] := by
  refine ⟨.reset .null .null, fun safe => ?_⟩
  have ran := isOk_iff.mpr (safe_run safe trivial)
  exact absurd ran (by decide)

end Masstree.Msgpack.Stream
