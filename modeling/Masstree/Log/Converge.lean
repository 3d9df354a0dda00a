import Mathlib.Data.List.GetD
import Masstree.Lib.ChainedReplay
import Masstree.Log.Replay

/-!
# Replay converges

One key's history of puts, replaces and modifies, replayed in any order over any prefix of itself.
`ChainedReplay.step` says what `apply` does to the base row and the delta markers over it.
-/

namespace Masstree
open Msgpack (Bytes)
open ChainedReplay (State Sorted Meets older newer absorb)

/-- One key's log records in timestamp order. -/
structure History where
  recs : List LogRecord
  commands : ∀ lr ∈ recs, lr.command = .put ∨ lr.command = .replace ∨ lr.command = .modify
  even : ∀ lr ∈ recs, lr.ts % 2 = 0
  increasing : recs.Pairwise (·.ts < ·.ts)
  /-- A modify names the record immediately before it, so the first record is none. -/
  chained : ∀ i, (recs.getD i {}).command = .modify →
    ∃ j, i = j + 1 ∧ (recs.getD i {}).prevTs = (recs.getD j {}).ts

namespace History

variable (h : History)

def length : Nat := h.recs.length

def record (i : Nat) : LogRecord := h.recs.getD i {}

/-- The value pointer after the first `k` records in timestamp order. -/
def inOrder (k : Nat) : Option RowChain := (h.recs.take k).foldlM (fun c lr => apply lr c) .null

def replay (order : List Nat) (start : RowChain) : Option RowChain :=
  order.foldlM (fun c i => apply (h.record i) c) start

/-- A record replaces everything before it. -/
def full (i : Nat) : Bool := (h.record i).command ≠ .modify

/-- The row that stands for the first `k` records. -/
def base (k : Nat) : RowChain := (h.inOrder k).getD .null

def marker (i : Nat) : Marker :=
  ⟨ValueBag.create1 (markerHeader ++ (h.record i).val) ((h.record i).ts ||| 1), (h.record i).prevTs⟩

/-- The chain for a base and the modifies that wait, oldest at the row. -/
def chain (s : State) : RowChain := plug (s.pending.reverse.map h.marker) (h.base s.base)

theorem record_mem {i : Nat} (inside : i < h.length) : h.record i ∈ h.recs := by
  rw [record, List.getD_eq_getElem _ _ inside]
  exact List.getElem_mem inside

theorem ts_lt {i j : Nat} (order : i < j) (inside : j < h.length) : (h.record i).ts < (h.record j).ts := by
  have lt : i < h.recs.length := Nat.lt_trans order inside
  rw [record, record, List.getD_eq_getElem _ _ lt, List.getD_eq_getElem _ _ inside]
  exact List.pairwise_iff_getElem.mp h.increasing i j lt inside order

theorem ts_even {i : Nat} (inside : i < h.length) : (h.record i).ts % 2 = 0 := h.even _ (h.record_mem inside)

theorem modify_pred {i : Nat} (modify : (h.record i).command = .modify) :
    0 < i ∧ (h.record i).prevTs = (h.record (i - 1)).ts := by
  obtain ⟨j, rfl, prev⟩ := h.chained i modify
  exact ⟨by omega, prev⟩

/-- Two records have one timestamp only if they are the same record. -/
theorem ts_inj {i j : Nat} (hi : i < h.length) (hj : j < h.length) (same : (h.record i).ts = (h.record j).ts) :
    i = j := by
  rcases Nat.lt_trichotomy i j with lt | eq | gt
  · have := h.ts_lt lt hj
    omega
  · exact eq
  · have := h.ts_lt gt hi
    omega

theorem or_one {n : Nat} (even : n % 2 = 0) : n ||| 1 = n + 1 := by
  have : (n ||| 1) % 2 = 1 := Nat.or_mod_two_eq_one.mpr (Or.inr rfl)
  have : (n ||| 1) / 2 = n / 2 := by simp [Nat.or_div_two]
  omega

theorem marker_timestamp {i : Nat} (inside : i < h.length) :
    (h.marker i).bag.timestamp = (h.record i).ts + 1 := by
  simp [marker, or_one (h.ts_even inside)]

/-! ### The history in timestamp order -/

theorem inOrder_succ {k : Nat} (inside : k < h.length) :
    h.inOrder (k + 1) = (h.inOrder k).bind (apply (h.record k)) := by
  have lt : k < h.recs.length := inside
  have here : h.recs[k] = h.record k := by rw [record, List.getD_eq_getElem _ _ lt]
  rw [inOrder, inOrder, List.take_succ_eq_append_getElem lt, List.foldlM_append, here]
  simp

/-- A chain with no delta marker: null before the first record, then the row of record `k - 1`. -/
def Settled (k : Nat) (c : RowChain) : Prop :=
  (k = 0 ∧ c = .null) ∨ ∃ bag, 0 < k ∧ c = .row bag ∧ bag.timestamp = (h.record (k - 1)).ts

theorem change_full {lr : LogRecord} (full : lr.command ≠ .modify) (c d : RowChain) :
    change lr c = change lr d := by
  simp [change, full]

/-- The next record in order is never out of date and meets no marker: `apply` is `change`. -/
theorem apply_settled {k : Nat} {c d : RowChain} (inside : k < h.length) (settled : h.Settled k c)
    (applied : apply (h.record k) c = some d) : change (h.record k) c = some d ∧ h.Settled (k + 1) d := by
  have plain : c.markers = 0 := by
    rcases settled with ⟨-, rfl⟩ | ⟨bag, -, rfl, -⟩ <;> rfl
  have current : outOfDate (h.record k).ts c = false := by
    rcases settled with ⟨-, rfl⟩ | ⟨bag, pos, rfl, ts⟩
    · rfl
    · have := h.ts_lt (i := k - 1) (j := k) (by omega) inside
      simp only [outOfDate, ts, decide_eq_false_iff_not]
      omega
  have direct : (h.record k).command = .modify → ∃ bag, c = .row bag ∧ bag.timestamp = (h.record k).prevTs := by
    intro modify
    obtain ⟨pos, prev⟩ := h.modify_pred modify
    rcases settled with ⟨rfl, -⟩ | ⟨bag, -, rfl, ts⟩
    · omega
    · exact ⟨bag, rfl, ts.trans prev.symm⟩
  have settles : ∀ e, change (h.record k) c = some e → ∃ bag, e = .row bag ∧ bag.timestamp = (h.record k).ts :=
    fun e changed => change_row changed direct
  rw [apply_of_current plain current fun e changed => by
    obtain ⟨bag, rfl, -⟩ := settles e changed
    rfl] at applied
  obtain ⟨bag, rfl, ts⟩ := settles d applied
  exact ⟨applied, Or.inr ⟨bag, by omega, rfl, ts⟩⟩

/-- If the whole history applies in order then every prefix does, and leaves no marker. -/
theorem inOrder_settled {final : RowChain} (live : h.inOrder h.length = some final) {k : Nat}
    (bound : k ≤ h.length) : h.inOrder k = some (h.base k) ∧ h.Settled k (h.base k) := by
  have defined : ∀ d, d ≤ h.length → ∃ c, h.inOrder (h.length - d) = some c := by
    intro d
    induction d with
    | zero => exact fun _ => ⟨final, live⟩
    | succ d ih =>
      intro bound
      obtain ⟨c, next⟩ := ih (by omega)
      rw [show h.length - d = h.length - (d + 1) + 1 by omega, h.inOrder_succ (by omega)] at next
      obtain ⟨c', here, -⟩ := Option.bind_eq_some_iff.mp next
      exact ⟨c', here⟩
  have here : h.inOrder k = some (h.base k) := by
    obtain ⟨c, here⟩ := defined (h.length - k) (by omega)
    rw [show h.length - (h.length - k) = k by omega] at here
    simp [base, here]
  refine ⟨here, ?_⟩
  clear here
  induction k with
  | zero => exact Or.inl ⟨rfl, rfl⟩
  | succ k ih =>
    obtain ⟨c, next⟩ := defined (h.length - (k + 1)) (by omega)
    rw [show h.length - (h.length - (k + 1)) = k + 1 by omega] at next
    obtain ⟨c', before⟩ := defined (h.length - k) (by omega)
    rw [show h.length - (h.length - k) = k by omega] at before
    have settled := ih (by omega)
    have applied : apply (h.record k) (h.base k) = some c := by
      rw [h.inOrder_succ (by omega), before] at next
      simpa [base, before] using next
    have := (h.apply_settled (by omega) settled applied).2
    simpa [base, next] using this

/-- Record `k` changes the row of the first `k` records into the row of the first `k + 1`. -/
theorem change_base {final : RowChain} (live : h.inOrder h.length = some final) {k : Nat}
    (inside : k < h.length) : change (h.record k) (h.base k) = some (h.base (k + 1)) := by
  have before := h.inOrder_settled live (Nat.le_of_lt inside)
  have after := h.inOrder_settled live (k := k + 1) inside
  have applied : apply (h.record k) (h.base k) = some (h.base (k + 1)) := by
    have := after.1
    rwa [h.inOrder_succ inside, before.1, Option.bind_some] at this
  exact (h.apply_settled inside before.2 applied).1

/-! ### A record out of order -/

variable {h}

/-- The markers of pending modifies, newest first as the chain has them. -/
def markers (h : History) (pending : List Nat) : List Marker := pending.reverse.map h.marker

theorem chain_eq (s : State) : h.chain s = plug (h.markers s.pending) (h.base s.base) := rfl

theorem plug_markers_append (a b : List Nat) (c : RowChain) :
    plug (h.markers (a ++ b)) c = plug (h.markers b) (plug (h.markers a) c) := by
  simp [markers, plug_append]

theorem plug_markers_cons (i : Nat) (l : List Nat) (c : RowChain) :
    plug (h.markers (i :: l)) c = plug (h.markers l) (.delta (h.marker i) c) := by
  rw [← List.singleton_append, plug_markers_append]
  rfl

/-- Record `i` goes at the base row, or at the newest marker of a modify older than `i`. -/
theorem insertion_point {final : RowChain} (live : h.inOrder h.length = some final) {s : State}
    (sorted : Sorted h.full h.length s) (i : Nat) :
    (plug (h.markers (older i s.pending)) (h.base s.base) = h.base s.base ∧
      h.Settled s.base (h.base s.base)) ∨
    ∃ j l, j < i ∧ j < h.length ∧ s.base < j ∧ plug (h.markers (older i s.pending)) (h.base s.base) =
      .delta (h.marker j) (plug (h.markers l) (h.base s.base)) := by
  rcases List.eq_nil_or_concat (older i s.pending) with none | ⟨l, j, last⟩
  · rw [none]
    exact Or.inl ⟨rfl, (h.inOrder_settled live sorted.base_le).2⟩
  · have member : j ∈ older i s.pending := by simp [last]
    obtain ⟨past, inside, -⟩ := sorted.pending j ((ChainedReplay.older_sublist _ _).subset member)
    refine Or.inr ⟨j, l, ChainedReplay.older_lt member, inside, past, ?_⟩
    rw [last, List.concat_eq_append, plug_markers_append]
    rfl

/-- `walk` passes the markers of the modifies newer than the record and stops there. -/
theorem walk_chain {final : RowChain} (live : h.inOrder h.length = some final) {s : State}
    (sorted : Sorted h.full h.length s) {i : Nat} (inside : i < h.length) (fresh : i ∉ s.pending) :
    walk (h.record i).ts (h.chain s) =
      (h.markers (newer i s.pending), plug (h.markers (older i s.pending)) (h.base s.base)) := by
  rw [chain_eq, ← ChainedReplay.older_append_newer i s.pending, plug_markers_append,
    ChainedReplay.older_append_newer]
  apply walk_plug
  · intro m member
    obtain ⟨j, after, rfl⟩ := List.mem_map.mp member
    have after := List.mem_reverse.mp after
    have bound := (sorted.pending j ((ChainedReplay.newer_sublist _ _).subset after)).2.1
    have := h.ts_lt (ChainedReplay.lt_newer sorted.increasing fresh after) bound
    rw [h.marker_timestamp bound]
    omega
  · rcases insertion_point live sorted i with ⟨same, settled⟩ | ⟨j, l, before, bound, -, shape⟩
    · rw [same]
      rcases settled with ⟨-, same⟩ | ⟨bag, -, same, -⟩
      all_goals rw [same]; rfl
    · have := h.ts_lt before inside
      rw [shape, walk, h.marker_timestamp bound, if_neg (by omega)]

theorem outOfDate_chain {final : RowChain} (live : h.inOrder h.length = some final) {s : State}
    (sorted : Sorted h.full h.length s) {i : Nat} (inside : i < h.length) :
    outOfDate (h.record i).ts (plug (h.markers (older i s.pending)) (h.base s.base)) =
      decide (i < s.base) := by
  rcases insertion_point live sorted i with ⟨same, settled⟩ | ⟨j, l, before, bound, past, shape⟩
  · rw [same]
    rcases settled with ⟨zero, same⟩ | ⟨bag, pos, same, ts⟩
    · rw [same, zero]
      rfl
    · have base_le := sorted.base_le
      simp only [same, outOfDate, ts, decide_eq_decide]
      constructor
      · intro le
        by_contra late
        have := h.ts_lt (i := s.base - 1) (j := i) (by omega) inside
        omega
      · intro below
        rcases Nat.lt_or_ge i (s.base - 1) with lt | ge
        · exact Nat.le_of_lt (h.ts_lt lt (by omega))
        · rw [show i = s.base - 1 by omega]
  · have lt := h.ts_lt before inside
    have := h.ts_even inside
    have := h.ts_even bound
    have late : ¬ i < s.base := by omega
    simp only [shape, outOfDate, h.marker_timestamp bound, late, decide_false, decide_eq_false_iff_not]
    omega

/-- A modify whose predecessor is not the row it meets is stored as a marker. -/
theorem change_early {final : RowChain} (live : h.inOrder h.length = some final) {s : State}
    (sorted : Sorted h.full h.length s) {i : Nat} (inside : i < h.length) (above : s.base < i)
    (increment : h.full i = false) :
    change (h.record i) (plug (h.markers (older i s.pending)) (h.base s.base)) =
      some (.delta (h.marker i) (plug (h.markers (older i s.pending)) (h.base s.base))) := by
  have modify : (h.record i).command = .modify := by simpa [full] using increment
  obtain ⟨pos, prev⟩ := h.modify_pred modify
  have stored : ∀ c : RowChain, (∀ bag, c.bag? = some bag → bag.timestamp ≠ (h.record i).prevTs) →
      change (h.record i) c = some (.delta (h.marker i) c) := by
    intro c other
    simp only [change, modify, reduceCtorEq, if_false, if_true]
    cases found : c.bag? with
    | none => rfl
    | some bag => simp [other bag found, storeDelta, marker]
  apply stored
  intro bag found
  rw [prev]
  rcases insertion_point live sorted i with ⟨same, settled⟩ | ⟨j, l, before, bound, -, shape⟩
  · rw [same] at found
    rcases settled with ⟨-, same⟩ | ⟨bag', pos', same, ts⟩
    · simp [same, RowChain.bag?] at found
    · rw [same] at found
      cases found
      have := h.ts_lt (i := s.base - 1) (j := i - 1) (by omega) (by omega)
      omega
  · rw [shape] at found
    cases found
    have := h.ts_even bound
    have := h.ts_even (i := i - 1) (by omega)
    rw [h.marker_timestamp bound]
    omega

/-- The row of the delta marker for record `i` can hold marker and request. -/
def Fits (h : History) (i : Nat) : Prop := (h.record i).val.length + sizeofDeltaMarker < 2 ^ 16

/-- The clean-up applies the markers that continue the base, and no other. -/
theorem cleanUp_chain {final : RowChain} (live : h.inOrder h.length = some final) {fuel base : Nat}
    {l : List Nat} (enough : l.length ≤ fuel) (bound : base ≤ h.length)
    (pending : ∀ j ∈ l, j < h.length ∧ h.full j = false ∧ h.Fits j) :
    cleanUp fuel (plug (h.markers l) (h.base base)) = some (h.chain (absorb base l)) := by
  induction l generalizing fuel base with
  | nil =>
    have settled := (h.inOrder_settled live bound).2
    cases fuel with
    | zero => rfl
    | succ fuel =>
      have still : collapse (h.base base) = some none := by
        rcases settled with ⟨-, same⟩ | ⟨bag, -, same, -⟩ <;> simp [same, collapse]
      simp [cleanUp, markers, plug, still, absorb, chain]
  | cons j l ih =>
    obtain ⟨inside, increment, room⟩ := pending j List.mem_cons_self
    have modify : (h.record j).command = .modify := by simpa [full] using increment
    obtain ⟨pos, prev⟩ := h.modify_pred modify
    obtain ⟨fuel, rfl⟩ : ∃ f, fuel = f + 1 := ⟨fuel - 1, by simp at enough; omega⟩
    have request : (h.marker j).request = some (h.record j).val := request_create1 room _ _
    have unchanged : base ≠ j → collapse (.delta (h.marker j) (h.base base)) = some none := by
      intro gap
      rcases (h.inOrder_settled live bound).2 with ⟨-, same⟩ | ⟨bag, pos', same, ts⟩
      · simp [same, collapse]
      · have other : (h.marker j).prevTs ≠ bag.timestamp := by
          rw [ts]
          intro eq
          have := h.ts_inj (i := j - 1) (j := base - 1) (by omega) (by omega) (prev.symm.trans eq)
          omega
        simp [same, collapse, other]
    have merged : base = j →
        collapse (.delta (h.marker j) (h.base base)) = some (some (h.base (base + 1))) := by
      rintro rfl
      have next := h.change_base live inside
      rcases (h.inOrder_settled live bound).2 with ⟨zero, -⟩ | ⟨bag, pos', same, ts⟩
      · omega
      · have continues : bag.timestamp = (h.record base).prevTs := ts.trans prev.symm
        simp only [change, modify, same, RowChain.bag?, continues, reduceCtorEq, if_false, if_true,
          Option.bind_eq_bind, Option.bind_eq_some_iff] at next
        obtain ⟨changes, parsed, updated, written, next⟩ := next
        have stamp : (h.marker base).bag.timestamp - 1 = (h.record base).ts := by
          rw [h.marker_timestamp inside]
          rfl
        rw [Option.pure_def, Option.some.injEq] at next
        have prevTs : (h.marker base).prevTs = bag.timestamp := continues.symm
        simp [same, collapse, request, parsed, stamp, written, prevTs, next]
    rw [plug_markers_cons, cleanUp, collapse_plug, absorb]
    by_cases continues : j = base
    · rw [merged continues.symm, if_pos continues]
      exact ih (by simpa using enough) (by omega) (fun k member => pending k (List.mem_cons_of_mem _ member))
    · rw [unchanged (Ne.symm continues), if_neg continues]
      simp [chain_eq, plug_markers_cons]

/-- `apply` takes the step of the abstract replayer. -/
theorem apply_chain {final : RowChain} (live : h.inOrder h.length = some final) {s : State} {i : Nat}
    (sorted : Sorted h.full h.length s) (inside : i < h.length) (fresh : i ∉ s.pending)
    (waiting : ∀ j ∈ s.pending, h.Fits j) (waits : s.base < i → h.full i = false → h.Fits i) :
    apply (h.record i) (h.chain s) = some (h.chain (ChainedReplay.step h.full i s)) := by
  have walked := walk_chain live sorted inside fresh
  have dated := outOfDate_chain live sorted (i := i) inside
  have kept : ∀ j ∈ s.pending, j < h.length ∧ h.full j = false ∧ h.Fits j := fun j member =>
    ⟨(sorted.pending j member).2.1, (sorted.pending j member).2.2, waiting j member⟩
  have later : ∀ j ∈ newer i s.pending, j < h.length ∧ h.full j = false ∧ h.Fits j := fun j member =>
    kept j ((ChainedReplay.newer_sublist _ _).subset member)
  have markers_length : ∀ l : List Nat, (h.markers l).length = l.length := by simp [markers]
  simp only [apply, walked, dated, decide_eq_true_eq]
  rcases ChainedReplay.step_cases h.full (i := i) sorted with
    ⟨below, same⟩ | ⟨bound, replaces, same⟩ | ⟨above, increment, same⟩
  · rw [if_pos below, same]
  · -- The record becomes the base: everything older than it is gone.
    have changed : change (h.record i) (plug (h.markers (older i s.pending)) (h.base s.base)) =
        some (h.base (i + 1)) := by
      rcases replaces with whole | rfl
      · rw [change_full (by simpa [full] using whole) _ (h.base i)]
        exact h.change_base live inside
      · have none : older s.base s.pending = [] := List.eq_nil_iff_forall_not_mem.mpr fun j member => by
          have := ChainedReplay.older_lt member
          have := (sorted.pending j ((ChainedReplay.older_sublist _ _).subset member)).1
          omega
        rw [none]
        exact h.change_base live inside
    rw [if_neg (by omega), changed, same, Option.bind_eq_bind, Option.bind_some]
    exact cleanUp_chain live (by simp [markers_length]) inside later
  · -- The record waits among the pending ones.
    have threaded : plug (h.markers (newer i s.pending))
        (.delta (h.marker i) (plug (h.markers (older i s.pending)) (h.base s.base))) =
        plug (h.markers (older i s.pending ++ i :: newer i s.pending)) (h.base s.base) := by
      rw [plug_markers_append, plug_markers_cons]
    have every : ∀ j ∈ older i s.pending ++ i :: newer i s.pending,
        j < h.length ∧ h.full j = false ∧ h.Fits j := by
      intro j member
      rcases List.mem_append.mp member with before | after
      · exact kept j ((ChainedReplay.older_sublist _ _).subset before)
      · rcases List.mem_cons.mp after with rfl | after
        · exact ⟨inside, increment, waits above increment⟩
        · exact later j after
    rw [if_neg (by omega), change_early live sorted inside above increment, same, Option.bind_eq_bind,
      Option.bind_some, threaded]
    exact cleanUp_chain live (by simp [markers_length]) sorted.base_le every

/-! ### Every order -/

theorem chain_settled (k : Nat) : h.chain ⟨k, []⟩ = h.base k := rfl

/-- From the row of a prefix, any order that applies each later record once, and records of the prefix
any number of times, ends with the row of the whole history and without a delta marker, as long as each
modify that has to wait for an earlier record fits its marker. -/
theorem replay_converges {final : RowChain} (live : h.inOrder h.length = some final) {m : Nat}
    (bound : m ≤ h.length) {order : List Nat} (meets : Meets m h.length order)
    (fits : ∀ done i rest, order = done ++ i :: rest → ChainedReplay.Waits h.full m done i → h.Fits i) :
    h.replay order (h.base m) = some final ∧ final.markers = 0 := by
  have whole : h.base h.length = final := by simp [base, live]
  rw [← whole]
  constructor
  · rw [← chain_settled, ← chain_settled]
    exact ChainedReplay.simulates h.full (fun i c => apply (h.record i) c) h.chain h.Fits bound meets fits
      fun i s sorted inside fresh waiting waits => apply_chain live sorted inside fresh waiting waits
  · rcases (h.inOrder_settled live (Nat.le_refl _)).2 with ⟨-, same⟩ | ⟨bag, -, same, -⟩
    all_goals simp [same, RowChain.markers]

def putModify (put modify : Bytes) : History where
  recs := [{ command := .put, val := put, ts := 2 }, { command := .modify, val := modify, ts := 4, prevTs := 2 }]
  commands := by simp
  even := by simp
  increasing := by simp
  chained := by
    rintro (_ | _ | i) modify
    · simp at modify
    · exact ⟨0, rfl, rfl⟩
    · simp [List.getD] at modify

theorem replay_converges_modify_first :
    ∃ final, (putModify [0, 0xA1, 7] [1, 0xA1, 8]).replay [1, 0] .null = some final ∧ final.markers = 0 := by
  have live : (putModify [0, 0xA1, 7] [1, 0xA1, 8]).inOrder 2 =
      some (.row { ts := 4, ncol := 2, pos := [8, 9, 10], body := [7, 8] }) := by decide
  have meets : Meets 0 2 [1, 0] := ⟨by decide, by decide⟩
  have fits : ∀ done i rest, [1, 0] = done ++ i :: rest →
      ChainedReplay.Waits (putModify [0, 0xA1, 7] [1, 0xA1, 8]).full 0 done i →
      (putModify [0, 0xA1, 7] [1, 0xA1, 8]).Fits i := by
    intro done i rest split _
    have member : i ∈ [1, 0] := by simp [split]
    have : i = 1 ∨ i = 0 := by simpa using member
    rcases this with rfl | rfl
    all_goals show _ < _; decide
  exact ⟨_, replay_converges live (Nat.zero_le 2) meets fits⟩

def wideRequest (v : Bytes) : Bytes := 0 :: 0xDA :: (Msgpack.toNetOrder 2 v.length ++ v)

theorem parseChangeset_wideRequest {v : Bytes} (bound : v.length < 2 ^ 16) :
    parseChangeset (wideRequest v) = some [(0, v)] := by
  have index : Msgpack.readUnsigned (wideRequest v) = some (0, 0xDA :: (Msgpack.toNetOrder 2 v.length ++ v)) :=
    Msgpack.readUnsigned_encodes (Msgpack.EncodesNat.fix (x := 0) (by decide)) _
  have value : Msgpack.readStr (0xDA :: (Msgpack.toNetOrder 2 v.length ++ v)) = some (v, []) := by
    simpa using Msgpack.readStr_encodes (Msgpack.EncodesStr.str16 (Or.inl rfl) bound) []
  have shape : wideRequest v = 0 :: (wideRequest v).tail := rfl
  rw [parseChangeset, shape, List.length_cons, parseChangesetLoop, ← shape, index]
  · simp [value, parseChangesetLoop_nil]
  · simp

/-- A request of 2 ^ 16 - 24 bytes makes its marker's column 2 ^ 16 bytes long, which is stored as 0. -/
theorem wide_request_lost {v : Bytes} (long : v.length = 65508) (ts prevTs : Nat) :
    Marker.request ⟨ValueBag.create1 (markerHeader ++ wideRequest v) ts, prevTs⟩ = none := by
  have column : ((ValueBag.create1 (markerHeader ++ wideRequest v) ts).col 0).length = 0 := by
    rw [ValueBag.create1_col_length]
    simp [markerHeader, sizeofDeltaMarker, wideRequest, long]
  simp [Marker.request, column, sizeofDeltaMarker]

theorem update_only_column {v : Bytes} {ts ts' : Nat} {b : UInt8} (long : 16 < v.length)
    (fits : v.length + 6 < 2 ^ 16) : ValueBag.update { ts, ncol := 1, pos := [6, 7], body := [b] } [(0, v)] ts' =
      some { ts := ts', ncol := 1, pos := [6, 6 + v.length], body := v } := by
  have planned : ValueBag.plan { ts, ncol := 1, pos := [6, 7], body := [b] } [(0, v)] =
      ((14 + v.length : Int), 1) := by
    simp [ValueBag.plan, ValueBag.measure, ValueBag.size, ValueBag.posAt, ValueBag.columnLength, ValueBag.offset,
      ValueBag.sizeofTimestamp]
    omega
  have last : ValueBag.offset (6 + v.length) = 6 + v.length := Nat.mod_eq_of_lt (by omega)
  have first : ValueBag.offset 6 = 6 := rfl
  simp only [ValueBag.update, planned]
  rw [if_neg (by omega)]
  simp [ValueBag.rebuild, ValueBag.fill, ValueBag.fillTo, ValueBag.sizeofBagdata, ValueBag.sizeofTimestamp, last,
    first]
  exact ⟨by omega, rfl⟩

def shortPut : LogRecord := { command := .put, val := [0, 0xA1, 7], ts := 2 }

def shortRow : RowChain := .row { ts := 2, ncol := 1, pos := [6, 7], body := [7] }

def wideModify (v : Bytes) : LogRecord := { command := .modify, val := wideRequest v, ts := 4, prevTs := 2 }

/-- In order, the modify of a value of 65508 bytes is applied. -/
theorem wideModify_inOrder {v : Bytes} (long : v.length = 65508) :
    ∃ final, (putModify shortPut.val (wideModify v).val).inOrder 2 = some final := by
  have first : apply shortPut .null = some shortRow := by decide
  have changed : change (wideModify v) shortRow =
      some (.row { ts := 4, ncol := 1, pos := [6, 6 + v.length], body := v }) := by
    have parsed : parseChangeset (wideModify v).val = some [(0, v)] := parseChangeset_wideRequest (by omega)
    have updated : ValueBag.update { ts := 2, ncol := 1, pos := [6, 7], body := [7] } [(0, v)] 4 = _ :=
      update_only_column (by omega) (by omega)
    simp only [change, parsed, shortRow, RowChain.bag?]
    simp [wideModify, ValueBag.timestamp, updated]
  have second : apply (wideModify v) shortRow =
      some (.row { ts := 4, ncol := 1, pos := [6, 6 + v.length], body := v }) := by
    have newest : walk (wideModify v).ts shortRow = ([], shortRow) := rfl
    have current : outOfDate (wideModify v).ts shortRow = false := rfl
    simp [apply, newest, current, changed, plug, RowChain.markers, cleanUp]
  let h := putModify shortPut.val (wideModify v).val
  have one : h.inOrder 1 = some shortRow := by
    rw [h.inOrder_succ (k := 0) Nat.zero_lt_two]
    exact first
  rw [h.inOrder_succ (k := 1) Nat.one_lt_two, one]
  exact ⟨_, second⟩

/-- Before its put, the same modify is stored as a marker that is cut short, and the put then fails. -/
theorem wideModify_first {v : Bytes} (long : v.length = 65508) :
    (putModify shortPut.val (wideModify v).val).replay [1, 0] .null = none := by
  have stored : apply (wideModify v) .null = some (storeDelta (wideModify v) .null) := by
    simp [apply, walk, outOfDate, change, RowChain.bag?, plug, storeDelta, RowChain.markers, cleanUp, collapse,
      wideModify]
  have put : change shortPut .null = some shortRow := by decide
  have lost : apply shortPut (storeDelta (wideModify v) .null) = none := by
    have request := wide_request_lost long 5 2
    simp [apply, storeDelta, walk, outOfDate, shortPut, wideModify] at put ⊢
    simp [put, plug, RowChain.markers, cleanUp, shortRow, collapse, request, ValueBag.timestamp]
  have early : (putModify shortPut.val (wideModify v).val).record 1 = wideModify v := rfl
  have late : (putModify shortPut.val (wideModify v).val).record 0 = shortPut := rfl
  rw [replay, List.foldlM_cons, early, stored, Option.bind_eq_bind, Option.bind_some, List.foldlM_cons, late, lost]
  rfl

theorem modify_diverges : ¬ ∀ (h : History) (final : RowChain) (m : Nat) (order : List Nat),
    h.inOrder h.length = some final → m ≤ h.length → Meets m h.length order →
    h.replay order (h.base m) = some final ∧ final.markers = 0 := by
  intro claim
  have long : (List.replicate 65508 (0 : UInt8)).length = 65508 := List.length_replicate
  obtain ⟨final, live⟩ := wideModify_inOrder long
  have same := (claim _ final 0 [1, 0] live (Nat.zero_le _) ⟨by decide, by decide⟩).1
  rw [show History.base _ 0 = .null from rfl, wideModify_first long] at same
  cases same

end History

end Masstree
