import Masstree.Json.Operations
import Mathlib.Data.List.Induction

/-!
# The keys of an object

What an insertion makes of `hash_` depends only on the keys that the object was given since it was empty.
-/

namespace Masstree.ObjectJson

variable {K V : Type} [DecidableEq K] (hashcode : K → UInt32)

def buckets (table : Nat) : Nat := if table = 0 then 8 else table

def bucketKeys (len : Nat) (keys : List K) (k : K) : List K := keys.filter fun k' => slot hashcode len k' = slot hashcode len k

/-- `hash_.size()` after `get_insert` of a key, with `table` before. A bucket that is no index and a capacity that is no `int` are
`none`. -/
def enter (table : Nat) (keys : List K) (k : K) : Option Nat :=
  if ¬Fits hashcode (buckets table) k then none
  else if k ∈ keys then some (buckets table)
  else if 2 ^ 30 ≤ keys.length then none
  else if (bucketKeys hashcode (buckets table) keys k).length ≤ 4 then some (buckets table)
  else if ∀ k' ∈ k :: keys, Fits hashcode (buckets table * 2) k' then some (buckets table * 2)
  else none

/-- `hash_.size()` after `get_insert` of one key after the other. -/
def enterAll (table : Nat) (keys : List K) : List K → Option Nat
  | [] => some table
  | k :: later => (enter hashcode table keys k).bind fun table => enterAll table (if k ∈ keys then keys else keys ++ [k]) later

/-- The buckets that entering a key computes are indices, and so is the capacity it needs. -/
structure Enterable (table : Nat) (keys : List K) (k : K) : Prop where
  fits : Fits hashcode (buckets table) k
  room : k ∉ keys → keys.length < 2 ^ 30
  rehash : k ∉ keys → 4 < (bucketKeys hashcode (buckets table) keys k).length →
    ∀ k' ∈ k :: keys, Fits hashcode (buckets table * 2) k'

variable {hashcode} {o : ObjectJson K V} {k : K} {keys later : List K} {table len : Nat} {vs : List (Option (K × V))}

theorem enter_known (fits : Fits hashcode (buckets table) k) (known : k ∈ keys) :
    enter hashcode table keys k = some (buckets table) := by
  rw [enter, if_neg (not_not.mpr fits), if_pos known]

theorem enter_new (ok : Enterable hashcode table keys k) (absent : k ∉ keys) : enter hashcode table keys k =
    some (if (bucketKeys hashcode (buckets table) keys k).length ≤ 4 then buckets table else buckets table * 2) := by
  rw [enter, if_neg (not_not.mpr ok.fits), if_neg absent, if_neg (Nat.not_le.mpr (ok.room absent))]
  by_cases few : (bucketKeys hashcode (buckets table) keys k).length ≤ 4
  · rw [if_pos few, if_pos few]
  · rw [if_neg few, if_neg few, if_pos (ok.rehash absent (Nat.not_le.mp few))]

theorem enter_fails (bad : ¬Enterable hashcode table keys k) : enter hashcode table keys k = none := by
  unfold enter
  split_ifs with fits known full few all
  · exact absurd ⟨fits, fun absent => absurd known absent, fun absent => absurd known absent⟩ bad
  · rfl
  · exact absurd ⟨fits, fun _ => Nat.not_le.mp full, fun _ many => absurd few (Nat.not_le.mpr many)⟩ bad
  · exact absurd ⟨fits, fun _ => Nat.not_le.mp full, fun _ _ => all⟩ bad
  · rfl
  · rfl

theorem enter_isSome_iff : (enter hashcode table keys k).isSome ↔ Enterable hashcode table keys k := by
  by_cases ok : Enterable hashcode table keys k
  · refine iff_of_true ?_ ok
    by_cases known : k ∈ keys
    · rw [enter_known ok.fits known, Option.isSome_some]
    · rw [enter_new ok known, Option.isSome_some]
  · rw [enter_fails ok]
    exact iff_of_false Bool.false_ne_true ok

theorem enterAll_of_append {before : List K} (all : (enterAll hashcode table keys (before ++ later)).isSome) :
    (enterAll hashcode table keys before).isSome := by
  induction before generalizing table keys with
  | nil => rfl
  | cons k before ih =>
    rw [List.cons_append, enterAll] at all
    rw [enterAll]
    cases entered : enter hashcode table keys k with
    | none =>
      rw [entered] at all
      cases all
    | some table =>
      rw [entered] at all
      exact ih all

/-! ### The table of an object -/

omit [DecidableEq K] in
theorem length_positions (vs : List (Option (K × V))) (len b : Nat) :
    (positions hashcode vs len b).length = ((liveKeys vs).filter fun k => slot hashcode len k = b).length := by
  induction vs using List.reverseRecOn with
  | nil => rfl
  | append_singleton vs x ih =>
    cases x with
    | none =>
      have live : liveKeys (vs ++ [none]) = liveKeys vs := by simp [liveKeys]
      have same : positions hashcode (vs ++ [none]) len b = positions hashcode vs len b := by
        have last : keyAt (vs ++ [none]) vs.length = none := by rw [keyAt_append, if_pos rfl, Option.map_none]
        unfold positions
        rw [List.length_append, List.length_singleton, List.range_succ, List.filter_append]
        simp only [List.filter_cons, last, Option.map_none, reduceCtorEq, decide_false, Bool.false_eq_true, if_false, List.filter_nil,
          List.append_nil]
        refine List.filter_congr fun q mem => ?_
        rw [keyAt_append, if_neg (Nat.ne_of_lt (List.mem_range.mp mem))]
      rw [same, live, ih]
    | some entry =>
      obtain ⟨k, v⟩ := entry
      rw [positions_append, liveKeys_append, List.length_append, List.filter_append, List.length_append, ih]
      by_cases here : slot hashcode len k = b <;> simp [here]

omit [DecidableEq K] in
theorem crowded_iff : Crowded hashcode o k ↔
    k ∉ liveKeys o.vs ∧ 4 < (bucketKeys hashcode (buckets o.hash.length) (liveKeys o.vs) k).length := by
  rw [Crowded, length_positions]
  rfl

omit [DecidableEq K] in
theorem insertable_iff (inv : Inv hashcode o) (dense : o.n = (liveKeys o.vs).length) (small : o.capacity ≤ 2 ^ 30) :
    Insertable hashcode o k ↔ Enterable hashcode o.hash.length (liveKeys o.vs) k := by
  have le := inv.room
  constructor
  · intro ok
    refine ⟨ok.fits, fun absent => ?_, fun absent many => ok.rehash absent (crowded_iff.mpr ⟨absent, many⟩).2⟩
    have room := ok.room absent
    omega
  · intro ok
    refine ⟨ok.fits, fun absent full => ?_, fun absent many => ok.rehash absent (crowded_iff.mp ⟨absent, many⟩).2⟩
    have room := ok.room absent
    omega

/-- An insertion succeeds, and leaves the table, as the keys tell, in an object of which nothing was erased. -/
theorem findInsert_enters (inv : Inv hashcode o) (dense : o.n = (liveKeys o.vs).length) (small : o.capacity ≤ 2 ^ 30) (v : V) :
    (o.findInsert hashcode k v).map (fun r => r.1.hash.length) = enter hashcode o.hash.length (liveKeys o.vs) k := by
  by_cases ok : Insertable hashcode o k
  · obtain ⟨o', p, inserted, -, -, -, doubled, kept⟩ := findInsert_ok inv ok v
    have enterable := (insertable_iff inv dense small).mp ok
    rw [inserted, Option.map_some]
    by_cases known : k ∈ liveKeys o.vs
    · rw [enter_known enterable.fits known]
      exact congrArg some (kept fun crowded => crowded.1 known)
    · rw [enter_new enterable known]
      split
      · exact congrArg some (kept fun crowded => absurd ‹_› (Nat.not_le.mpr (crowded_iff.mp crowded).2))
      · exact congrArg some (doubled (crowded_iff.mpr ⟨known, Nat.not_le.mp ‹_›⟩))
  · rw [findInsert_fails inv ok v, Option.map_none, enter_fails ((insertable_iff inv dense small).not.mp ok)]

end Masstree.ObjectJson
