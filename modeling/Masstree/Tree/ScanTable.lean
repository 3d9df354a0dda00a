import Masstree.Tree.ScanRuns
import Mathlib.Data.Set.List

/-!
# Scans of a table

The first loop of `scan` goes down to where the first key belongs; from there the keys still to come are those that are wanted.
-/

namespace Masstree.Tree
open Msgpack (Bytes toNetOrder)
open Positions

variable {V S : Type} {h : Host} {t : Table V} {root : Node (Leaf V)} {l : Leaf V} {helper : Helper} {e : Slot V} {k : RawKey}
  {first key before : Bytes} {i n lo hi depth : Nat} {emit : Bool} {c : Scan V} {rest : List (Bytes × Option V)}

/-- Whether a scan that starts at the key is to come to another one. -/
def Helper.wanted (first : Bytes) (emitFirstkey : Bool) (key : Bytes) : Helper → Bool
  | forward => first < key ∨ key = first ∧ emitFirstkey
  | reverse _ => key < first ∨ key = first ∧ emitFirstkey

/-! ### Wanted keys -/

theorem lexCompare_eq_iff {a b : Bytes} : lexCompare a b = .eq ↔ a = b := by
  refine ⟨fun same => ?_, fun same => same ▸ lexCompare_self a⟩
  unfold lexCompare compareOfLessAndEq at same
  split at same
  · cases same
  · split at same
    · assumption
    · cases same

theorem lexCompare_gt_iff {a b : Bytes} : lexCompare a b = .gt ↔ b < a := by
  refine ⟨fun more => ?_, lexCompare_gt⟩
  have notLess : ¬a < b := fun less => by cases more.symm.trans (lexCompare_lt less)
  have other : b ≠ a := fun same => by cases more.symm.trans (lexCompare_eq_iff.mpr same.symm)
  exact Std.lt_of_le_of_ne (Std.not_lt.mp notLess) other

theorem wanted_eq (helper : Helper) (first : Bytes) (emit : Bool) (key : Bytes) :
    helper.wanted first emit key = helper.initialKsufMatch (lexCompare key first) emit := by
  cases helper with
  | forward => exact decide_eq_decide.mpr (or_congr lexCompare_gt_iff.symm (and_congr_left' lexCompare_eq_iff.symm))
  | reverse upperBound => exact decide_eq_decide.mpr (or_congr lexCompare_lt_iff.symm (and_congr_left' lexCompare_eq_iff.symm))

/-- Ranks decide about the keys of a layer, apart from those of the first key's own rank. -/
theorem wanted_of_rank (complete : helper.complete = helper) (shared : key.take (8 * i) = first.take (8 * i))
    (ne : (Key.after key i).rank ≠ (Key.after first i).rank) (emit : Bool) :
    helper.wanted first emit key = helper.ahead (Key.after first i).rank (Key.after key i).rank := by
  rw [wanted_eq]
  rcases Nat.lt_or_gt_of_ne ne with less | more
  · rw [lexCompare_lt (lt_of_rank shared less)]
    cases helper with
    | forward => exact (decide_eq_false (Nat.lt_asymm less)).symm
    | reverse upperBound =>
      obtain rfl : false = upperBound := Helper.reverse.inj complete
      exact (decide_eq_true less).symm
  · rw [lexCompare_gt (lt_of_rank shared.symm more)]
    cases helper with
    | forward => exact (decide_eq_true more).symm
    | reverse upperBound =>
      obtain rfl : false = upperBound := Helper.reverse.inj complete
      exact (decide_eq_false (Nat.lt_asymm more)).symm

namespace Scan

theorem filter_keysOf (emit : Bool) (depth : Nat) (ok : t.Ok) (layer : t.layers before = some root) (aligned : before.length = 8 * i)
    (shared : first.take (8 * i) = before) (complete : helper.complete = helper) {E : List (Slot V)}
    (each : ∀ e ∈ E, e ∈ root.entries ∧ e.rank ≠ (Key.after first i).rank) :
    (keysOf t helper depth before E).filter (fun p => helper.wanted first emit p.1) =
      keysOf t helper depth before (E.filter fun e => helper.ahead (Key.after first i).rank e.rank) := by
  induction E with
  | nil => rfl
  | cons e E ih =>
    rw [List.forall_mem_cons] at each
    obtain ⟨⟨mem, ne⟩, others⟩ := each
    have decides : ∀ p ∈ helper.order (e.keys (t.listing depth) before),
        helper.wanted first emit p.1 = helper.ahead (Key.after first i).rank e.rank := by
      rintro ⟨key, o⟩ there
      obtain ⟨prefix_, rank, -⟩ := ok.place layer aligned mem (helper.mem_order.mp there)
      rw [← rank] at ne ⊢
      exact wanted_of_rank complete (prefix_.trans shared.symm) ne emit
    unfold keysOf at ih ⊢
    rw [List.flatMap_cons, List.filter_append, ih others, List.filter_cons]
    cases ahead : helper.ahead (Key.after first i).rank e.rank with
    | true =>
      rw [if_pos rfl, List.flatMap_cons, List.filter_eq_self.mpr fun p there => (decides p there).trans ahead]
    | false =>
      rw [if_neg Bool.false_ne_true, List.filter_eq_nil_iff.mpr fun p there => by rw [decides p there, ahead]; exact Bool.false_ne_true]
      rfl

/-- What is wanted where an entry has the first key's rank. -/
theorem filter_found (ok : t.Ok) (layer : t.layers before = some root) (aligned : before.length = 8 * i)
    (shared : first.take (8 * i) = before) (complete : helper.complete = helper) {P Q : List (Slot V)}
    (parts : helper.order root.entries = P ++ e :: Q) (rank : e.rank = (Key.after first i).rank) :
    (keysOf t helper depth before (helper.order root.entries)).filter (fun p => helper.wanted first emit p.1) =
      (helper.order (e.keys (t.listing depth) before)).filter (fun p => helper.wanted first emit p.1) ++
      keysOf t helper depth before Q := by
  have sorted := helper.order_ahead (ok.sound _ _ layer).sorted
  have member : ∀ s ∈ helper.order root.entries, s ∈ root.entries := fun s => helper.mem_order.mp
  have irreflexive := helper.complete_irrefl (Key.after first i).rank
  rw [parts] at sorted member
  obtain ⟨-, right, cross⟩ := List.pairwise_append.mp sorted
  rw [complete] at irreflexive
  have behind : ∀ s ∈ P, s ∈ root.entries ∧ s.rank ≠ (Key.after first i).rank ∧
    helper.ahead (Key.after first i).rank s.rank = false := by
    intro s mem
    have before_ := cross s mem e List.mem_cons_self
    have after_ := helper.complete_asymm before_
    rw [complete, rank] at before_ after_
    refine ⟨member s (List.mem_append_left _ mem), fun same => ?_, after_⟩
    rw [same, irreflexive] at before_
    cases before_
  have beyond : ∀ s ∈ Q, s ∈ root.entries ∧ s.rank ≠ (Key.after first i).rank ∧ helper.ahead (Key.after first i).rank s.rank = true := by
    intro s mem
    have after_ := (List.pairwise_cons.mp right).1 s mem
    rw [complete, rank] at after_
    refine ⟨member s (List.mem_append_right _ (List.mem_cons_of_mem _ mem)), fun same => ?_, after_⟩
    rw [same, irreflexive] at after_
    cases after_
  have none_ : P.filter (fun s => helper.ahead (Key.after first i).rank s.rank) = [] :=
    List.filter_eq_nil_iff.mpr fun s mem => Bool.eq_false_iff.mp (behind s mem).2.2
  have all : Q.filter (fun s => helper.ahead (Key.after first i).rank s.rank) = Q :=
    List.filter_eq_self.mpr fun s mem => (beyond s mem).2.2
  have front := filter_keysOf emit depth ok layer aligned shared complete fun s mem => ⟨(behind s mem).1, (behind s mem).2.1⟩
  have back := filter_keysOf emit depth ok layer aligned shared complete fun s mem => ⟨(beyond s mem).1, (beyond s mem).2.1⟩
  rw [none_] at front
  rw [all] at back
  rw [parts]
  unfold keysOf at front back ⊢
  rw [List.flatMap_append, List.flatMap_cons, List.filter_append, List.filter_append, front, back]
  rfl

/-- What is wanted where no entry has it. -/
theorem filter_missing (ok : t.Ok) (layer : t.layers before = some root) (aligned : before.length = 8 * i)
    (shared : first.take (8 * i) = before) (complete : helper.complete = helper) {P E Q : List (Slot V)}
    (parts : helper.order root.entries = P ++ (E ++ Q)) (missing : ∀ s ∈ P ++ (E ++ Q), s.rank ≠ (Key.after first i).rank)
    (behind : ∀ s ∈ P, helper.ahead (Key.after first i).rank s.rank = false)
    (beyond : ∀ s ∈ Q, helper.ahead (Key.after first i).rank s.rank = true) :
    (keysOf t helper depth before (helper.order root.entries)).filter (fun p => helper.wanted first emit p.1) =
      keysOf t helper depth before (E.filter (fun s => helper.ahead (Key.after first i).rank s.rank) ++ Q) := by
  have none_ : P.filter (fun s => helper.ahead (Key.after first i).rank s.rank) = [] :=
    List.filter_eq_nil_iff.mpr fun s mem => Bool.eq_false_iff.mp (behind s mem)
  rw [filter_keysOf emit depth ok layer aligned shared complete fun s mem => ⟨helper.mem_order.mp mem, missing s (parts ▸ mem)⟩, parts,
    List.filter_append, List.filter_append, none_, List.filter_eq_self.mpr beyond, List.nil_append]

/-! ### `find_initial` -/

/-- A scan on its way down, in a layer that the first key goes on in. -/
structure Heads (t : Table V) (first : Bytes) (c : Scan V) (root : Node (Leaf V)) (i : Nat) : Prop where
  layer : t.layers c.root = some root
  complete : c.helper.complete = c.helper
  rep : c.ka.Represents (Key.after first i)
  place : c.root = first.take (8 * i)
  inside : 8 * i ≤ first.length

namespace Heads

theorem prefix_ (on : c.Heads t first root i) : c.ka.prefixString = c.root := on.rep.first.trans on.place.symm

theorem aligned (on : c.Heads t first root i) : c.root.length = 8 * i := by rw [on.place, List.length_take, Nat.min_eq_left on.inside]

section Initial
variable (on : c.Heads t first root i) (reached : t.reachLeaf c.root c.ka.ikey0.toNat = some n) (at_ : LeafAt root n l lo hi)
include on reached at_

theorem findInitial_none {ki : Int} (search : c.helper.lowerWithPosition c.ka l = (ki, none)) :
    c.findInitial t emit = some { c with n, ki, state := .findNext } := by
  rw [findInitial, reached, Option.bind_some, leaf_eq (c := { c with n }) on.layer at_.leaf, Option.bind_some]
  dsimp only
  rw [at_.holds.alive.found.1, search]
  rfl

theorem findInitial_some {ki : Int} {p : Nat} (search : c.helper.lowerWithPosition c.ka l = (ki, some p)) (slot : l.slot p = e) :
    c.findInitial t emit = some (
      let c := { c with n, ki, entry := e.lv }
      let skipped := { c with ki := c.helper.next ki, state := .findNext }
      if e.isLayer then c.push e.ikey0
      else if e.keylenx = ksufKeylenx then
        if c.helper.initialKsufMatch (strCompare e.ksuf c.ka.suffix) emit then
          { c with ka := (c.ka.assignStoreSuffix e.ksuf).2.assignStoreLength (c.ka.assignStoreSuffix e.ksuf).1, state := .emit }
        else skipped
      else if emit then { c with state := .emit }
      else skipped) := by
  rw [findInitial, reached, Option.bind_some, leaf_eq (c := { c with n }) on.layer at_.leaf, Option.bind_some]
  dsimp only
  rw [at_.holds.alive.found.1, search]
  dsimp only
  rw [slot, if_neg Bool.false_ne_true]
  split_ifs <;> rfl

/-- A key of the first key's rank is met where it is wanted, and else passed. -/
theorem findInitial_key (emit : Bool) {ki : Int} {p : Nat} (search : c.helper.lowerWithPosition c.ka l = (ki, some p))
    (slot : l.slot p = e) (valid : e.Valid) (isKey : e.isLayer = false) (rank : e.rank = c.ka.rank) :
    ∃ ka, ka.rank = e.rank ∧ ka.prefixString = c.root ∧ ka.fullString = c.root ++ e.bytes ∧ c.findInitial t emit =
      some (if c.helper.wanted first emit (c.root ++ e.bytes) then { c with n, ki, entry := e.lv, ka, state := .emit }
        else { c with n, ki := c.helper.next ki, entry := e.lv, state := .findNext }) := by
  have rep := on.rep
  rw [on.findInitial_some reached at_ search slot]
  dsimp only
  obtain ⟨key, v, rfl⟩ := valid.of_key isKey
  rw [rep.rank, Slot.rank_holding] at rank
  have parts : c.root ++ first.drop (8 * i) = first := by rw [on.place, List.take_append_drop]
  obtain ⟨ikeys, lengths⟩ := rank_inj.mp rank
  rw [isKey, if_neg Bool.false_ne_true, Slot.bytes_holding, wanted_eq]
  by_cases long : key.hasSuffix = true
  · have more := key.hasSuffix_iff.mp long
    have slices : key.s.take 8 = (first.drop (8 * i)).take 8 := take_eq_of_rank rank
    have long' : 8 ≤ c.ka.len := by
      rw [rep.length]
      change min key.s.length 9 = _ at lengths
      omega
    obtain ⟨suffix_, slice⟩ := rep.suffix long'
    have order : strCompare key.suffix c.ka.suffix = lexCompare (c.root ++ key.s) first := by
      rw [strCompare_eq, suffix_, ← parts, lexCompare_append, ← lexCompare_drop slices, parts]
      rfl
    rw [Slot.holding_long long, if_pos rfl, order]
    refine ⟨(c.ka.assignStoreSuffix key.suffix).2.assignStoreLength (c.ka.assignStoreSuffix key.suffix).1, ?_,
      (c.ka.prefix_assignStoreSuffix key.suffix).trans on.prefix_, ?_, ?_⟩
    · refine rank_inj.mpr ⟨rep.ikey.trans ikeys.symm, ?_⟩
      have some_ : 0 < key.suffix.length := by
        unfold Key.suffix
        rw [List.length_drop]
        omega
      show min (8 + key.suffix.length) 9 = min 64 9
      omega
    · have whole : (Key.after first i).s.take 8 ++ key.suffix = key.s := by
        rw [show (Key.after first i).s = first.drop (8 * i) from rfl, ← slices]
        exact List.take_append_drop _ _
      rw [c.ka.fullString_assignStoreSuffix, on.prefix_, slice, whole]
    · split_ifs <;> rfl
  · have short : key.s.length ≤ 8 := Nat.le_of_not_lt fun more => long (key.hasSuffix_iff.mpr more)
    have same : key.s = first.drop (8 * i) := eq_of_rank rank short
    have equal : c.helper.initialKsufMatch .eq emit = emit := by
      cases c.helper <;> cases emit <;> rfl
    rw [Slot.holding_short long, if_neg (Nat.ne_of_lt (Slot.length_lt long)), same, parts, lexCompare_self, equal]
    refine ⟨c.ka, ?_, on.prefix_, ?_, ?_⟩
    · rw [rep.rank, ← rank, Slot.rank, Key.rank]
    · rw [rep.fullString, Key.fullString_after]
    · split_ifs <;> rfl

/-- The layer below an entry of the first key's rank is the next on the way down. -/
theorem findInitial_layer (emit : Bool) {ki : Int} {p : Nat} (search : c.helper.lowerWithPosition c.ka l = (ki, some p))
    (slot : l.slot p = e) (valid : e.Valid) (isLayer : e.isLayer = true) (rank : e.rank = c.ka.rank) {root' : Node (Leaf V)}
    (layer' : t.layers (c.root ++ toNetOrder 8 e.ikey0) = some root') (h : Host) :
    ∃ c', c.findInitial t emit = some c' ∧ c'.state = .down ∧ c'.helper = c.helper ∧ c'.root = c.root ++ toNetOrder 8 e.ikey0 ∧
      c'.nodeStack = (c.root, n) :: c.nodeStack ∧ ({ c' with ka := c'.ka.shift h } : Scan V).Heads t first root' (i + 1) := by
  obtain ⟨ikey, length⟩ := rank_inj.mp (rank.trans on.rep.rank)
  rw [(Tcursor.isLayer_iff valid).mp isLayer, Key.length_after] at length
  have more : 8 * (i + 1) < first.length := by
    change min 128 9 = _ at length
    omega
  have slice : c.root ++ toNetOrder 8 e.ikey0 = first.take (8 * (i + 1)) := by
    have long : 8 ≤ (first.drop (8 * i)).length := by
      rw [List.length_drop]
      omega
    rw [ikey, Key.ikey, show (Key.after first i).s = first.drop (8 * i) from rfl, toNetOrder_makeComparable long,
      Nat.mul_succ, List.take_add,
      on.place]
  have rep := on.rep.shift (h := h) (by rw [Key.length_after]; omega)
  rw [Key.shift_after] at rep
  refine ⟨_, (on.findInitial_some reached at_ search slot).trans (congrArg some (if_pos isLayer)), rfl, rfl, rfl, rfl, ?_⟩
  exact ⟨layer', on.complete, rep, slice, Nat.le_of_lt more⟩

end Initial

end Heads

/-! ### The first loop -/

theorem descend_stop {c' : Scan V} (h : Host) (fuel : Nat) (found : c.findInitial t emit = some c')
    (stop : c'.state = .emit ∨ c'.state = .findNext) : c.descend h t emit (fuel + 1) = some c' := by
  rw [descend, found]
  refine if_pos ?_
  rcases stop with state | state <;> rw [state] <;> decide

theorem descend_down {c' : Scan V} (h : Host) (fuel : Nat) (found : c.findInitial t emit = some c') (down : c'.state = .down) :
    c.descend h t emit (fuel + 1) = { c' with ka := c'.ka.shift h }.descend h t emit fuel := by
  rw [descend, found]
  exact if_neg (not_not.mpr down)

/-- The first loop comes to where the wanted keys of the layer begin. -/
def Begins (h : Host) (t : Table V) (first : Bytes) (emit : Bool) (fuel depth : Nat) (rest : List (Bytes × Option V))
    (c : Scan V) : Prop :=
  ∃ c', c.descend h t emit fuel = some c' ∧ (producer h t).Yields c'
    ((c.helper.order (t.listing depth c.root)).filter (fun p => c.helper.wanted first emit p.1) ++ rest)

theorem descend_begins (ok : t.Ok) (h : Host) (emit : Bool) (fuel : Nat) (on : c.Heads t first root i)
    (enough : first.length < 8 * (i + fuel))
    (deep : t.Deep c.root (depth + 1)) (returns : Returns h t c.helper c.root c.nodeStack rest) :
    c.Begins h t first emit fuel (depth + 1) rest := by
  induction fuel generalizing i c root depth rest with
  | zero =>
    have inside := on.inside
    omega
  | succ fuel ih =>
    have layer := on.layer
    have sound := ok.sound _ _ layer
    obtain ⟨n, l, lo, hi, reached, at_, low, high⟩ := reachLeaf_at layer sound c.ka.ikey0.isLt
    have whole := c.helper.order_entries at_.leaf
    -- what is given out from a place in the leaf
    have from_ : ∀ c' : Scan V, c'.state = .findNext → c'.root = c.root → c'.nodeStack = c.nodeStack → c'.helper = c.helper →
        c'.Placed t root l lo hi → (producer h t).Yields c' (keysOf t c.helper depth c.root (c'.rest root l) ++ rest) := by
      intro c' state same stack helper placed
      have yields := layerYields ok h depth c' root l lo hi rest state placed (same ▸ deep) (by rwa [helper, on.complete, same, stack])
      rwa [same, helper] at yields
    unfold Begins
    rw [order_listing c.helper layer]
    rcases lowerWithPosition_cases at_.holds.sorted c.ka on.complete with ⟨p, e, there, slot, rank, search⟩ | ⟨missing, search⟩
    · have lt := (List.getElem?_eq_some_iff.mp there).1
      have here : c.helper.Inside l.entries.length (p : Int) := by
        cases c.helper with
        | forward => exact Int.natCast_nonneg p
        | reverse upperBound => exact Int.ofNat_lt.mpr lt
      obtain ⟨e', there', todo, inside'⟩ := c.helper.todo_next here (Int.natCast_nonneg p) (Int.ofNat_lt.mpr lt)
      obtain rfl : e' = e := Option.some.inj (there'.symm.trans there)
      obtain ⟨A, parts⟩ := c.helper.todo_suffix here
      rw [todo] at parts
      rw [← parts, List.append_assoc, ← List.append_assoc, List.cons_append] at whole
      rw [filter_found ok layer on.aligned on.place.symm on.complete whole (rank.trans on.rep.rank), List.append_assoc]
      have mem := List.mem_of_getElem? there
      have valid := at_.holds.valid e' mem
      by_cases isLayer : e'.isLayer = true
      · obtain ⟨root', layer'⟩ := Option.isSome_iff_exists.mp (ok.layer_of_slot layer (at_.mem_entries mem) isLayer)
        have deep' := deep.of_slot e'
        obtain ⟨d, rfl⟩ := deep'.pos layer'
        have returns' := returns_cons sound at_ layer c.helper parts.symm isLayer fun c' state same _ stack helper placed rest' => by
          have yields := from_ c' state same stack (helper.trans on.complete) placed
          rwa [rest'] at yields
        rw [on.complete] at returns'
        obtain ⟨c', found, down, helper, below, stack, on'⟩ :=
          on.findInitial_layer reached at_ emit search slot valid isLayer rank layer' h
        rw [← helper, ← below, ← stack] at returns'
        obtain ⟨c'', descended, yields⟩ := ih on' (by omega) (below ▸ deep') returns'
        refine ⟨c'', (descend_down h fuel found down).trans descended, ?_⟩
        dsimp only at yields
        rw [Slot.keys, if_pos isLayer, ← below, ← helper]
        exact yields
      · obtain ⟨ka, same, prefix_, full, found⟩ :=
          on.findInitial_key reached at_ emit search slot valid (Bool.eq_false_iff.mpr isLayer) rank
        have next : ∀ ka' : RawKey, ka'.prefixString = c.root → ka'.rank = e'.rank → (producer h t).Yields
            { c with n, ki := c.helper.next p, entry := e'.lv, ka := ka', state := .findNext }
            (keysOf t c.helper depth c.root (c.helper.todo l.entries (c.helper.next p) ++
            c.helper.slots (c.helper.later root.leaves n)) ++ rest) := by
          intro ka' before rank'
          obtain ⟨placed, rest'⟩ := placed_after
            (c := { c with n, ki := c.helper.next p, entry := e'.lv, ka := ka', state := .findNext })
            on.complete at_ sound layer before rank' inside' parts.symm
          have yields := from_ { c with n, ki := c.helper.next p, entry := e'.lv, ka := ka', state := .findNext } rfl rfl rfl rfl placed
          rwa [rest'] at yields
        rw [Slot.keys, if_neg isLayer, Helper.order_singleton, List.filter_singleton]
        by_cases wanted : c.helper.wanted first emit (c.root ++ e'.bytes) = true
        · rw [if_pos wanted] at found
          refine ⟨_, descend_stop h fuel found (.inl rfl), ?_⟩
          have yields := yields_emit (c := { c with n, ki := p, entry := e'.lv, ka, state := .emit }) rfl (next ka prefix_ same)
          rw [full] at yields
          rw [wanted]
          exact yields
        · rw [if_neg wanted] at found
          refine ⟨_, descend_stop h fuel found (.inr rfl), ?_⟩
          rw [Bool.eq_false_iff.mpr wanted]
          exact next c.ka on.prefix_ rank.symm
    · obtain ⟨within, passed⟩ := lower_spec at_.holds.sorted c.ka c.helper
      have later := at_.later_ahead low high c.ka.len c.helper
      have earlier := at_.earlier_behind low high c.ka.len c.helper
      refine ⟨_, descend_stop h fuel (on.findInitial_none reached at_ search) (.inr rfl), ?_⟩
      have yields := from_ { c with n, ki := c.helper.lower c.ka l, state := .findNext } rfl rfl rfl rfl
        ⟨at_, layer, on.prefix_, within, later⟩
      rw [filter_missing ok layer on.aligned on.place.symm on.complete whole ?_ ?_ ?_, ← on.rep.rank, ← passed]
      · exact yields
      · intro s mem same
        rw [← on.rep.rank] at same
        rcases List.mem_append.mp mem with mem | mem
        · exact (earlier s mem).2 (rank_inj.mp same).1
        · rcases List.mem_append.mp mem with mem | mem
          · exact missing s (c.helper.mem_order.mp mem) same
          · have irreflexive := c.helper.complete_irrefl s.rank
            rw [on.complete] at irreflexive
            have ahead := later s mem
            change c.helper.ahead c.ka.rank s.rank = true at ahead
            rw [← same, irreflexive] at ahead
            cases ahead
      · rw [← on.rep.rank]
        intro s mem
        rw [← on.complete]
        exact (earlier s mem).1
      · rw [← on.rep.rank]
        exact later

end Scan

/-! ### Tables -/

namespace Table

theorem copyBytes_read (keybuf : Memory) (key : Bytes) : bytesAt (copyBytes keybuf 0 key) 0 key.length = key :=
  bytesAt_eq fun _ lt => RawKey.copyBytes_inside key lt

/-- A scan gives the visitor what the table lists, from where the wanted keys begin. -/
theorem scanWith_listing (ok : t.Ok) (deep : t.Deep [] depth) (h : Host) (keybuf : Memory) (helper : Helper)
    (complete : helper.complete = helper) {first : Bytes} (fits : first.length ≤ keybufSize) (emit : Bool)
    (visit : S → Bytes × Option V → Bool × S) (scanner : S) :
    ∃ enough, ∀ fuel ≥ enough, t.scanWith h keybuf helper first emit visit scanner fuel =
      some (Producer.visitAll visit ((helper.order (t.listing depth [])).filter fun p => helper.wanted first emit p.1) 0 scanner) := by
  obtain ⟨root, layer⟩ := Option.isSome_iff_exists.mp ok.top
  obtain ⟨depth, rfl⟩ := deep.pos layer
  have rep := RawKey.represents_ofString h (copyBytes keybuf 0 first) first.length
  rw [copyBytes_read] at rep
  obtain ⟨c, descended, yields⟩ := Scan.descend_begins (i := 0)
    (c := { helper, ka := RawKey.ofString h (copyBytes keybuf 0 first) first.length }) ok h emit (first.length + 1)
    ⟨layer, complete, rep, rfl, Nat.zero_le _⟩ (by omega) deep (Scan.returns_nil h t helper [])
  rw [List.append_nil] at yields
  obtain ⟨enough, fed⟩ := yields.feed visit 0 scanner
  refine ⟨enough, fun fuel le => ?_⟩
  rw [scanWith, if_pos fits]
  dsimp only
  rw [descended]
  exact fed fuel le

/-- The rows that a table lists. -/
theorem Ok.rows (ok : t.Ok) (deep : t.Deep [] depth) : ∃ rows : OrderedMap Bytes V, rows.find = t.get ∧
    t.listing depth [] = rows.entries.map fun p => (p.1, some p.2) := by
  obtain ⟨root, layer⟩ := Option.isSome_iff_exists.mp ok.top
  have all : t.listing depth [] ∈ Set.range (List.map fun p : Bytes × V => (p.1, some p.2)) := by
    rw [Set.range_list_map]
    rintro ⟨key, o⟩ mem
    obtain ⟨v, rfl, -⟩ := ok.look_of_mem (i := 0) layer rfl mem
    exact ⟨(key, v), rfl⟩
  obtain ⟨entries, same⟩ := all
  have sorted := ok.listing_sorted depth layer
  rw [← same, List.pairwise_map] at sorted
  have injective : Function.Injective fun p : Bytes × V => (p.1, some p.2) := by
    rintro ⟨a, v⟩ ⟨b, w⟩ same
    obtain ⟨keys, values⟩ := Prod.mk.inj same
    exact congrArg₂ _ keys (Option.some.inj values)
  refine ⟨⟨entries, sorted⟩, funext fun key => Option.ext fun v => ?_, same.symm⟩
  rw [OrderedMap.find_eq_some, ← ok.mem_listing deep, ← same]
  exact (List.mem_map_of_injective injective).symm

/-- Both scans give the visitor the rows from the first key on. -/
theorem Ok.scan_rows (ok : t.Ok) {rows : OrderedMap Bytes V} (found : rows.find = t.get) (h : Host) (keybuf : Memory) {first : Bytes}
    (fits : first.length ≤ keybufSize) (emit : Bool) (visit : S → Bytes × Option V → Bool × S) (scanner : S) : ∃ enough, ∀ fuel ≥ enough,
      t.scan h keybuf first emit visit scanner fuel = some (Producer.visitAll visit
        ((rows.entries.filter fun p => first < p.1 ∨ p.1 = first ∧ emit).map fun p => (p.1, some p.2)) 0 scanner) ∧
      t.rscan h keybuf first emit visit scanner fuel = some (Producer.visitAll visit
        ((rows.entries.filter fun p => p.1 < first ∨ p.1 = first ∧ emit).reverse.map fun p => (p.1, some p.2)) 0 scanner) := by
  obtain ⟨depth, deep⟩ := ok.deep
  obtain ⟨rows', found', listed⟩ := ok.rows deep
  obtain rfl : rows' = rows := OrderedMap.ext_find (found'.trans found.symm)
  obtain ⟨up, upward⟩ := scanWith_listing ok deep h keybuf .forward rfl fits emit visit scanner
  obtain ⟨down, downward⟩ := scanWith_listing ok deep h keybuf (.reverse false) rfl fits emit visit scanner
  refine ⟨max up down, fun fuel le => ⟨?_, ?_⟩⟩
  · rw [scan, upward fuel (Nat.le_trans (Nat.le_max_left _ _) le), Helper.order, listed, List.filter_map]
    rfl
  · rw [rscan, downward fuel (Nat.le_trans (Nat.le_max_right _ _) le), Helper.order, listed, ← List.map_reverse, List.filter_map,
      List.filter_reverse]
    rfl

/-- After any run with keys that the buffer has room for, a scan gives the visitor the keys of the map of the operations that come after
its first key, with that key where it is asked for, in order and with their values, until the visitor wants no more. -/
theorem scan_visits {ops : List (Op V)} (ran : Steps.run step start ops = some t)
    (fits : ∀ op ∈ ops, ∀ key, op.inserted = some key → key.length ≤ keybufSize) :
    ∃ rows : OrderedMap Bytes V, rows.find = ops.foldl Op.apply (fun _ => none) ∧ (∀ p ∈ rows.entries, p.1.length ≤ keybufSize) ∧
      ∀ (h : Host) (keybuf : Memory) (first : Bytes), first.length ≤ keybufSize →
        ∀ (emit : Bool) (visit : S → Bytes × Option V → Bool × S) (scanner : S), ∃ enough, ∀ fuel ≥ enough,
          t.scan h keybuf first emit visit scanner fuel = some (Producer.visitAll visit
            ((rows.entries.filter fun p => first < p.1 ∨ p.1 = first ∧ emit).map fun p => (p.1, some p.2)) 0 scanner) ∧
          t.rscan h keybuf first emit visit scanner fuel = some (Producer.visitAll visit
            ((rows.entries.filter fun p => p.1 < first ∨ p.1 = first ∧ emit).reverse.map fun p => (p.1, some p.2)) 0 scanner) := by
  obtain ⟨good, contents⟩ := run_spec start_good ran
  obtain ⟨depth, deep⟩ := good.toOk.deep
  obtain ⟨rows, found, -⟩ := good.toOk.rows deep
  have map : rows.find = ops.foldl Op.apply (fun _ => none) := by rw [found, contents, start_get]
  refine ⟨rows, map, ?_, fun h keybuf first short emit visit scanner => good.toOk.scan_rows found h keybuf short emit visit scanner⟩
  rintro ⟨key, v⟩ mem
  have there := OrderedMap.find_eq_some.mpr mem
  rw [map] at there
  rcases Op.inserted_of_apply there with none_ | ⟨op, mem, inserted⟩
  · cases none_
  · exact fits op mem key inserted

/-- Two keys with a slice in common, and a visitor that notes the keys. -/
theorem scan_visits_two : ∃ (t : Table Nat) (rows : OrderedMap Bytes Nat),
    Steps.run step start [.insert [1, 2, 3, 4, 5, 6, 7, 8, 9] 1, .insert [1, 2, 3, 4, 5, 6, 7, 8, 0] 2] = some t ∧
      rows.find = Function.update (Function.update (fun _ => none) [1, 2, 3, 4, 5, 6, 7, 8, 9] (some 1))
      [1, 2, 3, 4, 5, 6, 7, 8, 0] (some 2) ∧
      ∃ enough, ∀ fuel ≥ enough, t.scan ⟨false, true⟩ (fun _ => 0) [1, 2] true (fun seen p => (true, p.1 :: seen))
      ([] : List Bytes) fuel =
        some (Producer.visitAll (fun seen p => (true, p.1 :: seen))
          ((rows.entries.filter fun p => [1, 2] < p.1 ∨ p.1 = [1, 2] ∧ true).map fun p => (p.1, some p.2)) 0 []) := by
  have runs : (Steps.run step (start : Table Nat)
      [.insert [1, 2, 3, 4, 5, 6, 7, 8, 9] 1, .insert [1, 2, 3, 4, 5, 6, 7, 8, 0] 2]).isSome := by decide
  obtain ⟨t, ran⟩ := Option.isSome_iff_exists.mp runs
  obtain ⟨rows, found, -, visits⟩ := scan_visits (S := List Bytes) ran (by simp [Op.inserted, keybufSize])
  obtain ⟨enough, both⟩ := visits ⟨false, true⟩ (fun _ => 0) [1, 2] (by decide) true (fun seen p => (true, p.1 :: seen)) []
  exact ⟨t, rows, ran, found, enough, fun fuel le => (both fuel le).1⟩

end Table

end Masstree.Tree
