import Masstree.Tree.Halves
import Masstree.Tree.Table

/-!
# What is in the layers

A table's contents are a slot, or none, for each layer and each rank; a lookup follows the slices of the key through them.
-/

namespace Masstree.Tree
open Msgpack (Bytes)

variable {V : Type}

/-! ### The slices of a key -/

/-- The key once a search has consumed `i` slices. -/
def Key.after (key : Bytes) (i : Nat) : Key := ⟨key.take (8 * i), key.drop (8 * i)⟩

namespace Key

variable {key other : Bytes} {i j : Nat}

theorem shift_after (key : Bytes) (i : Nat) : (after key i).shift = after key (i + 1) := by
  unfold shift after
  rw [Nat.mul_succ, List.take_add, List.drop_drop]

theorem prefixString_after (key : Bytes) (i : Nat) : (after key i).prefixString = key.take (8 * i) := rfl

theorem fullString_after (key : Bytes) (i : Nat) : (after key i).fullString = key := List.take_append_drop _ _

theorem length_after (key : Bytes) (i : Nat) : (after key i).length = key.length - 8 * i := List.length_drop

/-- A rank says which bytes come next, and whether there are more than eight. -/
theorem rank_eq_iff {a b : Key} : a.rank = b.rank ↔ a.s.take 8 = b.s.take 8 ∧ min a.length 9 = min b.length 9 := by
  constructor
  · intro same
    exact ⟨take_eq_of_rank same, (rank_inj.mp same).2⟩
  · rintro ⟨slices, lengths⟩
    refine rank_inj.mpr ⟨?_, lengths⟩
    rw [ikey, ikey, ← makeComparable_take a.s, slices, makeComparable_take]

/-- Keys that agree so far and in the next slice, both going on after it. -/
theorem rank_after (long : 8 * (j + 1) < key.length) (long' : 8 * (j + 1) < other.length)
    (same : other.take (8 * (j + 1)) = key.take (8 * (j + 1))) :
    other.take (8 * j) = key.take (8 * j) ∧ (after other j).rank = (after key j).rank := by
  have parts : ∀ k : Bytes, k.take (8 * (j + 1)) = k.take (8 * j) ++ (after k j).s.take 8 := fun k => List.take_add ..
  rw [parts, parts] at same
  have lengths : (other.take (8 * j)).length = (key.take (8 * j)).length := by
    rw [List.length_take, List.length_take]
    omega
  obtain ⟨before, slice⟩ := List.append_inj same lengths
  refine ⟨before, rank_eq_iff.mpr ⟨slice, ?_⟩⟩
  rw [length_after, length_after]
  omega

/-- Keys of a rank of at most eight bytes are the same. -/
theorem eq_of_rank_after (before : other.take (8 * j) = key.take (8 * j)) (same : (after other j).rank = (after key j).rank)
    (short : (after key j).length ≤ 8) : other = key := by
  have rest : (after other j).s = (after key j).s := (eq_of_rank same.symm short).symm
  rw [← fullString_after other j, ← fullString_after key j]
  exact congrArg₂ (· ++ ·) before rest

/-- Keys of a rank that have the same suffix are the same. -/
theorem eq_of_suffix_after (before : other.take (8 * j) = key.take (8 * j)) (same : (after other j).rank = (after key j).rank)
    (suffix_ : (after other j).suffix = (after key j).suffix) : other = key := by
  have rest : (after other j).s = (after key j).s := by
    rw [← List.take_append_drop 8 (after other j).s, ← List.take_append_drop 8 (after key j).s]
    exact congrArg₂ (· ++ ·) (rank_eq_iff.mp same).1 suffix_
  rw [← fullString_after other j, ← fullString_after key j]
  exact congrArg₂ (· ++ ·) before rest

end Key

/-! ### Slots -/

/-- The slot of a key that has its value. -/
def Slot.holding (ka : Key) (v : Option V) : Slot V := { (Slot.ofKey ka : Slot V) with lv := v }

/-- What a live slot can be. -/
inductive Slot.Valid : Slot V → Prop
  | key (ka : Key) (v : V) : Valid (.holding ka (some v))
  | layer (ka : Key) (ksuf : Bytes) : ka.hasSuffix = true → Valid ⟨ka.ikey, layerKeylenx, ksuf, none⟩

namespace Slot

variable {s : Slot V} {ka ka' : Key}

theorem holding_long (long : ka.hasSuffix = true) (v : Option V) :
    (holding ka v : Slot V) = ⟨ka.ikey, ksufKeylenx, ka.suffix, v⟩ := by rw [holding, ofKey, if_pos long]

theorem holding_short (short : ¬ka.hasSuffix = true) (v : Option V) :
    (holding ka v : Slot V) = ⟨ka.ikey, ka.length, [], v⟩ := by rw [holding, ofKey, if_neg short]

theorem length_lt (short : ¬ka.hasSuffix = true) : ka.length < ksufKeylenx := by
  rw [Key.hasSuffix_iff] at short
  unfold ksufKeylenx Key.length
  omega

theorem rank_holding (ka : Key) (v : Option V) : (holding ka v : Slot V).rank = ka.rank := rank_ofKey (V := V) ka

theorem rank_layer (long : ka.hasSuffix = true) (ksuf : Bytes) (lv : Option V) :
    (⟨ka.ikey, layerKeylenx, ksuf, lv⟩ : Slot V).rank = ka.rank := by
  have more := ka.hasSuffix_iff.mp long
  refine rank_inj.mpr ⟨rfl, ?_⟩
  show min layerKeylenx 9 = min ka.s.length 9
  unfold layerKeylenx
  omega

theorem ksufMatches_suffix (ikey : Nat) (ksuf : Bytes) (v : Option V) (ka : Key) :
    (⟨ikey, ksufKeylenx, ksuf, v⟩ : Slot V).ksufMatches ka = if ksuf = ka.suffix then .yes else .no := by
  rw [ksufMatches, if_neg (by decide : ¬ksufKeylenx < ksufKeylenx), if_neg (by decide : ¬ksufKeylenx = layerKeylenx)]

theorem ksufMatches_holding (ka : Key) (v : Option V) : (holding ka v : Slot V).ksufMatches ka = .yes := by
  by_cases long : ka.hasSuffix = true
  · rw [holding_long long, ksufMatches_suffix, if_pos rfl]
  · rw [holding_short long, ksufMatches, if_pos (length_lt long)]

/-- Another key of the slot's rank does not match its suffix. -/
theorem ksufMatches_other (long : ka.hasSuffix = true) (v : Option V) (other : ka'.suffix ≠ ka.suffix) :
    (holding ka v : Slot V).ksufMatches ka' = .no := by
  rw [holding_long long, ksufMatches_suffix, if_neg (Ne.symm other)]

theorem ksufMatches_layer (ikey : Nat) (ksuf : Bytes) (lv : Option V) (ka : Key) :
    (⟨ikey, layerKeylenx, ksuf, lv⟩ : Slot V).ksufMatches ka = .layer := by
  rw [ksufMatches, if_neg (by decide : ¬layerKeylenx < ksufKeylenx), if_pos rfl]

theorem ksufMatches_layer_iff : s.ksufMatches ka = .layer ↔ s.keylenx = layerKeylenx := by
  constructor
  · intro layer
    by_contra other
    rw [ksufMatches, if_neg other] at layer
    split at layer
    · cases layer
    · split at layer <;> cases layer
  · intro layer
    rw [ksufMatches, layer, if_neg (by decide), if_pos rfl]

/-- The slot that a key is found in. -/
theorem Valid.of_yes (valid : s.Valid) (same : s.rank = ka.rank) (matches_ : s.ksufMatches ka = .yes) :
    ∃ v, s = holding ka (some v) := by
  cases valid with
  | key ka' v =>
    refine ⟨v, ?_⟩
    rw [rank_holding] at same
    obtain ⟨ikeys, lengths⟩ := rank_inj.mp same
    by_cases long : ka'.hasSuffix = true
    · have more := ka'.hasSuffix_iff.mp long
      have long' : ka.hasSuffix = true := by
        rw [Key.hasSuffix_iff]
        unfold Key.length at lengths
        omega
      rw [holding_long long, ksufMatches_suffix] at matches_
      split at matches_
      · rename_i suffix_
        rw [holding_long long, holding_long long', suffix_]
        exact congrArg (fun i => (⟨i, _, _, _⟩ : Slot V)) ikeys
      · cases matches_
    · have short : ¬ka.hasSuffix = true := by
        rw [Key.hasSuffix_iff] at long ⊢
        unfold Key.length at lengths
        omega
      have lengths' : ka'.length = ka.length := by
        rw [Key.hasSuffix_iff] at long short
        unfold Key.length at lengths ⊢
        omega
      rw [holding_short long, holding_short short, lengths']
      exact congrArg (fun i => (⟨i, _, _, _⟩ : Slot V)) ikeys
  | layer ka' ksuf long =>
    rw [ksufMatches_layer] at matches_
    cases matches_

/-- The slot that has another key's suffix. -/
theorem Valid.of_no (valid : s.Valid) (same : s.rank = ka.rank) (matches_ : s.ksufMatches ka = .no) :
    ∃ ka' v, s = holding ka' (some v) ∧ ka'.rank = ka.rank ∧ ka'.hasSuffix = true ∧ ka.hasSuffix = true ∧
      ka'.suffix ≠ ka.suffix := by
  cases valid with
  | key ka' v =>
    rw [rank_holding] at same
    by_cases long : ka'.hasSuffix = true
    · have long' : ka.hasSuffix = true := by
        have lengths := (rank_inj.mp same).2
        have more := ka'.hasSuffix_iff.mp long
        rw [Key.hasSuffix_iff]
        unfold Key.length at lengths
        omega
      rw [holding_long long, ksufMatches_suffix] at matches_
      split at matches_
      · cases matches_
      · rename_i other
        exact ⟨ka', v, rfl, same, long, long', other⟩
    · rw [holding_short long, ksufMatches, if_pos (length_lt long)] at matches_
      cases matches_
  | layer ka' ksuf long =>
    rw [ksufMatches_layer] at matches_
    cases matches_

/-- What matches a key as a layer is one, and the key goes on. -/
theorem Valid.of_layer (valid : s.Valid) (same : s.rank = ka.rank) (matches_ : s.ksufMatches ka = .layer) :
    s.isLayer = true ∧ ka.hasSuffix = true := by
  cases valid with
  | key ka' v =>
    exfalso
    by_cases long : ka'.hasSuffix = true
    · rw [holding_long long, ksufMatches_suffix] at matches_
      split at matches_ <;> cases matches_
    · rw [holding_short long, ksufMatches, if_pos (length_lt long)] at matches_
      cases matches_
  | layer ka' ksuf long =>
    refine ⟨rfl, ?_⟩
    rw [rank_layer long] at same
    have lengths := (rank_inj.mp same).2
    rw [Key.hasSuffix_iff] at long ⊢
    unfold Key.length at lengths
    omega

end Slot

/-! ### Contents -/

/-- The slot for a layer and a rank. -/
abbrev Contents (V : Type) := Bytes → Nat → Option (Slot V)

namespace Contents

/-- The value that a search for the key finds from its slice `i` on. -/
def look (C : Contents V) (key : Bytes) : Nat → Nat → Option V
  | 0, _ => none
  | fuel + 1, i => (C (key.take (8 * i)) (Key.after key i).rank).bind fun s =>
    match s.ksufMatches (Key.after key i) with
    | .yes => s.lv
    | .layer => look C key fuel (i + 1)
    | .no => none

def get (C : Contents V) (key : Bytes) : Option V := C.look key (key.length + 1) 0

def Lawful (C : Contents V) : Prop := ∀ at_ r s, C at_ r = some s → s.rank = r ∧ s.Valid

def set (C : Contents V) (at_ : Bytes) (r : Nat) (s : Option (Slot V)) : Contents V :=
  fun at' r' => if at' = at_ ∧ r' = r then s else C at' r'

variable {C C' : Contents V} {key other : Bytes} {s : Slot V} {i j fuel : Nat}

theorem look_none (at_ : C (key.take (8 * i)) (Key.after key i).rank = none) (fuel : Nat) : C.look key fuel i = none := by
  cases fuel with
  | zero => rfl
  | succ fuel => rw [look, at_, Option.bind_none]

theorem look_some (at_ : C (key.take (8 * i)) (Key.after key i).rank = some s) (fuel : Nat) : C.look key (fuel + 1) i =
    match s.ksufMatches (Key.after key i) with
    | .yes => s.lv
    | .layer => C.look key fuel (i + 1)
    | .no => none := by rw [look, at_, Option.bind_some]

theorem look_mono {v : V} (found : C.look key fuel i = some v) (more : Nat) : C.look key (fuel + more) i = some v := by
  induction fuel generalizing i with
  | zero => cases found
  | succ fuel ih =>
    rw [look] at found
    obtain ⟨s, at_, found⟩ := Option.bind_eq_some_iff.mp found
    rw [Nat.add_right_comm, look, at_, Option.bind_some]
    split at found
    · exact found
    · exact ih found
    · cases found

/-- A search does not see what is different behind a place where it finds the same. -/
theorem look_congr (lawful : C.Lawful) (at_ : i = 0 ∨ 8 * i < key.length)
    (agree : ∀ k, i ≤ k → k = 0 ∨ 8 * k < key.length →
      C' (key.take (8 * k)) (Key.after key k).rank = C (key.take (8 * k)) (Key.after key k).rank ∨
        ∃ j, i ≤ j ∧ j ≤ k ∧ ∀ fuel, C'.look key fuel j = C.look key fuel j) (fuel : Nat) :
    C'.look key fuel i = C.look key fuel i := by
  induction fuel generalizing i with
  | zero => rfl
  | succ fuel ih =>
    by_cases here : ∀ fuel, C'.look key fuel i = C.look key fuel i
    · exact here _
    · rcases agree i (Nat.le_refl _) at_ with same | ⟨j, low, high, found⟩
      · rw [look, look, same]
        cases slot : C (key.take (8 * i)) (Key.after key i).rank with
        | none => rfl
        | some s =>
          rw [Option.bind_some, Option.bind_some]
          split
          · rfl
          · rename_i layer
            obtain ⟨rank, valid⟩ := lawful _ _ _ slot
            obtain ⟨-, long⟩ := valid.of_layer rank layer
            rw [Key.hasSuffix_iff] at long
            have more : 8 * (i + 1) < key.length := by
              change 8 < (List.drop _ _).length at long
              rw [List.length_drop] at long
              omega
            refine ih (.inr more) ?_
            intro k le inside
            rcases agree k (Nat.le_of_succ_le le) inside with same | ⟨j, low, high, found⟩
            · exact .inl same
            · rcases Nat.eq_or_lt_of_le low with rfl | low
              · exact absurd found here
              · exact .inr ⟨j, low, high, found⟩
          · rfl
      · obtain rfl := Nat.le_antisymm low high
        exact absurd found here

/-- Contents that differ at the place of one key's slice, and in the layer below it, where other keys find the same. -/
theorem get_congr (lawful : C.Lawful) (inside : 8 * j ≤ key.length)
    (same : ∀ at_ r, ¬(at_ = key.take (8 * j) ∧ r = (Key.after key j).rank) →
      ¬(8 * (j + 1) < key.length ∧ key.take (8 * (j + 1)) <+: at_) → C' at_ r = C at_ r)
    (here : other.take (8 * j) = key.take (8 * j) → (Key.after other j).rank = (Key.after key j).rank →
      ∀ fuel, C'.look other fuel j = C.look other fuel j) : C'.get other = C.get other := by
  apply look_congr lawful (.inl rfl)
  intro k _ at_
  by_cases point : other.take (8 * j) = key.take (8 * j) ∧ (Key.after other j).rank = (Key.after key j).rank ∧ j ≤ k
  · exact .inr ⟨j, Nat.zero_le _, point.2.2, here point.1 point.2.1⟩
  · left
    apply same
    · rintro ⟨prefix_, rank⟩
      have lengths := congrArg List.length prefix_
      rw [List.length_take, List.length_take] at lengths
      have index : k = j := by omega
      subst index
      exact point ⟨prefix_, rank, Nat.le_refl _⟩
    · rintro ⟨long, below⟩
      have lengths := below.length_le
      rw [List.length_take, List.length_take] at lengths
      have le : j + 1 ≤ k := by omega
      have shared : other.take (8 * (j + 1)) = key.take (8 * (j + 1)) := by
        have first := List.prefix_iff_eq_take.mp below
        rw [List.length_take, Nat.min_eq_left (Nat.le_of_lt long), List.take_take,
          Nat.min_eq_left (Nat.mul_le_mul_left 8 le)] at first
        exact first.symm
      obtain ⟨before, rank⟩ := Key.rank_after long (by omega) shared
      exact point ⟨before, rank, Nat.le_of_succ_le le⟩

/-! ### One slot -/

theorem set_same (C : Contents V) (at_ : Bytes) (r : Nat) (s : Option (Slot V)) : C.set at_ r s at_ r = s := if_pos ⟨rfl, rfl⟩

theorem set_other (C : Contents V) {at_ at' : Bytes} {r r' : Nat} (s : Option (Slot V)) (ne : ¬(at' = at_ ∧ r' = r)) :
    C.set at_ r s at' r' = C at' r' := if_neg ne

/-- The slot, if there is one, is that of the key. -/
def Mine (C : Contents V) (key : Bytes) (i : Nat) : Prop :=
  C (key.take (8 * i)) (Key.after key i).rank = none ∨
    ∃ v, C (key.take (8 * i)) (Key.after key i).rank = some (.holding (Key.after key i) v)

/-- Other keys do not find what is in the key's own slot. -/
theorem Mine.look_other (mine : C.Mine key j) (ne : other ≠ key) (before : other.take (8 * j) = key.take (8 * j))
    (rank : (Key.after other j).rank = (Key.after key j).rank) (fuel : Nat) : C.look other fuel j = none := by
  rcases mine with none_ | ⟨v, some_⟩
  · exact look_none (by rw [before, rank, none_]) fuel
  · cases fuel with
    | zero => rfl
    | succ fuel =>
      rw [look_some (by rw [before, rank, some_])]
      by_cases long : (Key.after key j).hasSuffix = true
      · rw [Slot.ksufMatches_other long v]
        intro suffix_
        exact ne (Key.eq_of_suffix_after before rank suffix_)
      · rw [Key.hasSuffix_iff] at long
        exact absurd (Key.eq_of_rank_after before rank (Nat.le_of_not_lt long)) ne

/-- The search for the key goes on in a layer after each of the first `j` slices. -/
def Passes (C : Contents V) (key : Bytes) (j : Nat) : Prop :=
  ∀ i < j, ∃ s, C (key.take (8 * i)) (Key.after key i).rank = some s ∧ s.ksufMatches (Key.after key i) = .layer

theorem look_of_passes (passes : C.Passes key j) (le : i ≤ j) (fuel : Nat) :
    C.look key (fuel + (j - i)) i = C.look key fuel j := by
  induction steps : j - i generalizing i with
  | zero =>
    obtain rfl : i = j := by omega
    rfl
  | succ n ih =>
    obtain ⟨s, slot, layer⟩ := passes i (by omega)
    rw [← Nat.add_assoc, look_some slot, layer]
    exact ih (by omega) (by omega)

theorem get_of_passes (passes : C.Passes key j) (inside : 8 * j ≤ key.length) :
    C.get key = C.look key (key.length - j + 1) j := by
  have found := look_of_passes passes (Nat.zero_le j) (key.length - j + 1)
  rw [← found, get]
  congr 1
  omega

theorem Passes.congr (passes : C.Passes key j) (same : ∀ i < j, C' (key.take (8 * i)) (Key.after key i).rank =
    C (key.take (8 * i)) (Key.after key i).rank) : C'.Passes key j := by
  intro i lt
  rw [same i lt]
  exact passes i lt

/-- The place of a later slice is another one. -/
theorem place_ne (lt : i < j) (inside : 8 * j ≤ key.length) (r r' : Nat) : ¬(key.take (8 * i) = key.take (8 * j) ∧ r = r') := by
  rintro ⟨same, -⟩
  have lengths := congrArg List.length same
  rw [List.length_take, List.length_take] at lengths
  omega

theorem Passes.set (passes : C.Passes key j) (inside : 8 * j ≤ key.length) (r : Nat) (s : Option (Slot V)) :
    (C.set (key.take (8 * j)) r s).Passes key j := passes.congr fun _ lt => set_other C s (place_ne lt inside _ r)

section Place
variable (lawful : C.Lawful) (inside : 8 * j ≤ key.length) (mine : C.Mine key j)
include lawful inside mine

/-- What comes in the key's slot is found for the key, and nothing changes for other keys. -/
theorem get_set (passes : C.Passes key j) (v : V) : (C.set (key.take (8 * j)) (Key.after key j).rank
    (some (.holding (Key.after key j) (some v)))).get = Function.update C.get key (some v) := by
  funext other
  by_cases same : other = key
  · subst same
    rw [Function.update_self, get_of_passes (passes.set inside _ _) inside, look_some (set_same ..), Slot.ksufMatches_holding]
    rfl
  · rw [Function.update_of_ne same]
    refine get_congr lawful inside (fun at_ r ne _ => set_other C _ ne) ?_
    intro before rank fuel
    have mine' : (C.set (key.take (8 * j)) (Key.after key j).rank (some (.holding (Key.after key j) (some v)))).Mine key j :=
      .inr ⟨some v, set_same ..⟩
    rw [mine'.look_other same before rank, mine.look_other same before rank]

theorem get_drop (passes : C.Passes key j) :
    (C.set (key.take (8 * j)) (Key.after key j).rank none).get = Function.update C.get key none := by
  funext other
  have mine' : (C.set (key.take (8 * j)) (Key.after key j).rank none).Mine key j := .inl (set_same ..)
  by_cases same : other = key
  · subst same
    rw [Function.update_self, get_of_passes (passes.set inside _ _) inside, look_none (set_same ..)]
  · rw [Function.update_of_ne same]
    refine get_congr lawful inside (fun at_ r ne _ => set_other C _ ne) ?_
    intro before rank fuel
    rw [mine'.look_other same before rank, mine.look_other same before rank]

end Place

/-! ### A layer -/

/-- From slice `i` on the two keys, which agree so far, have layers of their own, to where they differ. -/
inductive Forks (C : Contents V) (key old : Bytes) (v₀ : V) (v : Option V) : Nat → Prop
  | last {i : Nat} : (Key.after old i).rank ≠ (Key.after key i).rank →
      (∀ r, C (key.take (8 * i)) r = if r = (Key.after old i).rank then some (.holding (Key.after old i) (some v₀))
        else if r = (Key.after key i).rank then v.map fun v => .holding (Key.after key i) (some v) else none) →
      Forks C key old v₀ v i
  | more {i : Nat} : (Key.after old i).rank = (Key.after key i).rank → (Key.after key i).hasSuffix = true →
      (∀ r, C (key.take (8 * i)) r = if r = (Key.after key i).rank then some (Slot.ofLayer (Key.after key i)) else none) →
      Forks C key old v₀ v (i + 1) → Forks C key old v₀ v i

def forked (key old : Bytes) (v₀ : V) (v : Option V) (other : Bytes) : Option V :=
  if other = key then v else if other = old then some v₀ else none

theorem forked_other {v₀ : V} {v : Option V} {old : Bytes} (ne : other ≠ key) (ne' : other ≠ old) :
    forked key old v₀ v other = none := by rw [forked, if_neg ne, if_neg ne']

theorem take_succ (before : other.take (8 * i) = key.take (8 * i)) (rank : (Key.after other i).rank = (Key.after key i).rank) :
    other.take (8 * (i + 1)) = key.take (8 * (i + 1)) := by
  have parts : ∀ k : Bytes, k.take (8 * (i + 1)) = k.take (8 * i) ++ (Key.after k i).s.take 8 := fun k => List.take_add ..
  rw [parts, parts, before, (Key.rank_eq_iff.mp rank).1]

theorem long_of_rank (rank : (Key.after other i).rank = (Key.after key i).rank) (long : (Key.after key i).hasSuffix = true) :
    8 * (i + 1) < other.length := by
  have lengths := (Key.rank_eq_iff.mp rank).2
  rw [Key.hasSuffix_iff] at long
  rw [Key.length_after, Key.length_after] at lengths
  change 8 < (List.drop _ _).length at long
  rw [List.length_drop] at long
  omega

theorem Forks.look {v₀ : V} {v : Option V} {old : Bytes} (forks : C.Forks key old v₀ v i) (ne : old ≠ key)
    (shared : old.take (8 * i) = key.take (8 * i)) (before : other.take (8 * i) = key.take (8 * i)) (inside : 8 * i ≤ other.length)
    (enough : other.length < 8 * (i + fuel)) : C.look other fuel i = forked key old v₀ v other := by
  induction forks generalizing fuel with
  | @last i apart slots =>
    obtain ⟨fuel, rfl⟩ : ∃ f, fuel = f + 1 := Nat.exists_eq_add_one.mpr (by omega)
    by_cases mine : (Key.after other i).rank = (Key.after old i).rank
    · have notKey : other ≠ key := by
        rintro rfl
        exact apart mine.symm
      rw [forked, if_neg notKey, look_some (by rw [before, mine, slots, if_pos rfl])]
      by_cases same : other = old
      · subst same
        rw [if_pos rfl, Slot.ksufMatches_holding]
        rfl
      · rw [if_neg same]
        have found : C.Mine old i := .inr ⟨_, by rw [shared, slots, if_pos rfl]⟩
        have none_ := found.look_other same (before.trans shared.symm) mine (fuel + 1)
        rwa [look_some (by rw [before, mine, slots, if_pos rfl])] at none_
    · have notOld : other ≠ old := by
        rintro rfl
        exact mine rfl
      by_cases same : other = key
      · subst same
        rw [forked, if_pos rfl]
        cases v with
        | none => exact look_none (by rw [slots, if_neg mine, if_pos rfl]; rfl) _
        | some v =>
          rw [look_some (by rw [slots, if_neg mine, if_pos rfl]; rfl), Slot.ksufMatches_holding]
          rfl
      · rw [forked_other same notOld]
        by_cases theirs : (Key.after other i).rank = (Key.after key i).rank
        · have found : C.Mine key i := by
            cases v with
            | none => exact .inl (by rw [slots, if_neg (Ne.symm apart), if_pos rfl]; rfl)
            | some v => exact .inr ⟨some v, by rw [slots, if_neg (Ne.symm apart), if_pos rfl]; rfl⟩
          exact found.look_other same before theirs _
        · exact look_none (by rw [before, slots, if_neg mine, if_neg theirs]) _
  | @more i agree long slots below ih =>
    by_cases theirs : (Key.after other i).rank = (Key.after key i).rank
    · have more := long_of_rank theirs long
      obtain ⟨fuel, rfl⟩ : ∃ f, fuel = f + 1 := Nat.exists_eq_add_one.mpr (by omega)
      rw [look_some (by rw [before, theirs, slots, if_pos rfl]), Slot.ofLayer, Slot.ksufMatches_layer]
      exact ih (take_succ shared agree) (take_succ before theirs) (Nat.le_of_lt more) (by omega)
    · rw [look_none (by rw [before, slots, if_neg theirs]), forked_other]
      · rintro rfl
        exact theirs rfl
      · rintro rfl
        exact theirs agree

/-- A layer comes in the place of the old key, for it and the new one. -/
theorem get_fork {old : Bytes} {v₀ : V} {v : Option V} {ksuf : Bytes} (lawful : C.Lawful) (passes : C.Passes key j)
    (ne : old ≠ key) (shared : old.take (8 * j) = key.take (8 * j)) (agree : (Key.after old j).rank = (Key.after key j).rank)
    (long : (Key.after key j).hasSuffix = true)
    (slot : C (key.take (8 * j)) (Key.after key j).rank = some (.holding (Key.after old j) (some v₀)))
    (slot' : C' (key.take (8 * j)) (Key.after key j).rank = some ⟨(Key.after key j).ikey, layerKeylenx, ksuf, none⟩)
    (same : ∀ at_ r, ¬(at_ = key.take (8 * j) ∧ r = (Key.after key j).rank) →
      ¬(8 * (j + 1) < key.length ∧ key.take (8 * (j + 1)) <+: at_) → C' at_ r = C at_ r)
    (forks : C'.Forks key old v₀ v (j + 1)) : C'.get = Function.update C.get key v := by
  have more := long_of_rank (rfl : (Key.after key j).rank = _) long
  have moreOld := long_of_rank agree long
  have inside : 8 * j ≤ key.length := by omega
  have above : ∀ i < j, ∀ r, C' (key.take (8 * i)) r = C (key.take (8 * i)) r := by
    intro i lt r
    refine same _ _ (place_ne lt inside _ _) ?_
    rintro ⟨-, below⟩
    have lengths := below.length_le
    rw [List.length_take, List.length_take] at lengths
    omega
  have passes' : C'.Passes key j := passes.congr fun i lt => above i lt _
  have takes : ∀ i ≤ j, old.take (8 * i) = key.take (8 * i) := by
    intro i le
    have first := congrArg (List.take (8 * i)) shared
    rwa [List.take_take, List.take_take, Nat.min_eq_left (Nat.mul_le_mul_left 8 le)] at first
  have ranks : ∀ i < j, (Key.after old i).rank = (Key.after key i).rank := by
    intro i lt
    exact (Key.rank_after (by omega) (by omega) (takes (i + 1) lt)).2
  have passesOld : ∀ C : Contents V, C.Passes key j → C.Passes old j := by
    intro C passes i lt
    obtain ⟨s, at_, layer⟩ := passes i lt
    refine ⟨s, by rw [takes i (Nat.le_of_lt lt), ranks i lt, at_], ?_⟩
    exact Slot.ksufMatches_layer_iff.mpr (Slot.ksufMatches_layer_iff.mp layer)
  have after_ : ∀ other : Bytes, other.take (8 * j) = key.take (8 * j) → (Key.after other j).rank = (Key.after key j).rank →
      ∀ fuel, C'.look other (fuel + 1) j = C'.look other fuel (j + 1) := by
    intro other before rank fuel
    rw [look_some (by rw [before, rank, slot']), Slot.ksufMatches_layer]
  have shared' := take_succ shared agree
  funext other
  by_cases isKey : other = key
  · subst isKey
    rw [Function.update_self, get_of_passes passes' inside, after_ other rfl rfl,
      forks.look ne shared' rfl (Nat.le_of_lt more) (by omega), forked, if_pos rfl]
  · rw [Function.update_of_ne isKey]
    by_cases isOld : other = old
    · subst isOld
      rw [get_of_passes (passesOld C' passes') (by omega), get_of_passes (passesOld C passes) (by omega),
        after_ other shared agree, forks.look ne shared' shared' (Nat.le_of_lt moreOld) (by omega),
        look_some (by rw [shared, agree, slot]), Slot.ksufMatches_holding, forked, if_neg isKey, if_pos rfl]
      rfl
    · refine get_congr lawful inside same ?_
      intro before rank fuel
      have mine : C.Mine old j := .inr ⟨_, by rw [shared, agree, slot]⟩
      rw [mine.look_other isOld (before.trans shared.symm) (rank.trans agree.symm)]
      cases fuel with
      | zero => rfl
      | succ fuel =>
        rw [after_ other before rank]
        have more' := long_of_rank rank long
        have none_ : C'.look other (fuel + other.length) (j + 1) = _ :=
          forks.look ne shared' (take_succ before rank) (Nat.le_of_lt more') (by omega)
        rw [forked_other isKey isOld] at none_
        cases found : C'.look other fuel (j + 1) with
        | none => rfl
        | some v =>
          rw [look_mono found] at none_
          cases none_

/-- A layer without slots goes. -/
theorem get_collect (lawful : C.Lawful) (more : 8 * (j + 1) < key.length) {s : Slot V}
    (slot : C (key.take (8 * j)) (Key.after key j).rank = some s) (layer : s.keylenx = layerKeylenx)
    (empty : ∀ r, C (key.take (8 * (j + 1))) r = none) : (C.set (key.take (8 * j)) (Key.after key j).rank none).get = C.get := by
  funext other
  refine get_congr lawful (by omega) (fun at_ r ne _ => set_other C _ ne) ?_
  intro before rank fuel
  rw [look_none (by rw [before, rank, set_same])]
  cases fuel with
  | zero => rfl
  | succ fuel =>
    rw [look_some (by rw [before, rank, slot]), Slot.ksufMatches_layer_iff.mpr layer]
    exact (look_none (by rw [take_succ before rank, empty]) fuel).symm

end Contents

end Masstree.Tree
