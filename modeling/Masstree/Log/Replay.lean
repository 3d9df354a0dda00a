import Masstree.Row.ValueBag

/-!
# Replaying one log record

`logrecord::run` and `logrecord::apply`. A key's value during replay is a row, or a chain of delta
markers: each holds the request of a modify that arrived before its predecessor, and points at the
older marker, row or null it was stored over. A failed assertion is `none`.
-/

namespace Masstree
open Msgpack (Bytes)

def maxKeyLen : Nat := 255

inductive LogCommand where
  | none | put | replace | modify | remove | epoch | quiesce | wake
  deriving DecidableEq, Repr

structure LogRecord where
  command : LogCommand := .none
  key : Bytes := []
  val : Bytes := []
  ts : Nat := 0
  prevTs : Nat := 0
  epoch : Nat := 0
  deriving DecidableEq, Repr

/-- The loop of `parse_changeset`. It ends only when the position is exactly the end. -/
def parseChangesetLoop : Nat → Bytes → Option Changes
  | _, [] => some []
  | 0, _ :: _ => none
  | fuel + 1, s => do
    let (index, s) ← Msgpack.readUnsigned s
    let (value, s) ← Msgpack.readStr s
    let rest ← parseChangesetLoop fuel s
    return (index, value) :: rest

def parseChangeset (changeset : Bytes) : Option Changes := parseChangesetLoop changeset.length changeset

/-- A `row_delta_marker`: the row that holds it and the fields laid over the row's first column. -/
structure Marker where
  bag : ValueBag
  prevTs : Nat
  deriving DecidableEq, Repr

/-- What a value pointer leads to during replay. -/
inductive RowChain where
  | null
  | row (bag : ValueBag)
  | delta (m : Marker) (prev : RowChain)
  deriving DecidableEq, Repr

def rowIsMarker (bag : ValueBag) : Bool := bag.timestamp % 2 = 1

def sizeofDeltaMarker : Nat := 24

/-- The bytes of the marker in front of the request. `Marker` holds the fields stored there. -/
def markerHeader : Bytes := List.replicate sizeofDeltaMarker 0

/-- The request a marker holds. With a column shorter than the marker its length would be negative. -/
def Marker.request (m : Marker) : Option Bytes :=
  let req := m.bag.col 0
  if sizeofDeltaMarker ≤ req.length then some (req.drop sizeofDeltaMarker) else none

/-- The bytes of `row_marker{mt_remove}`, the value of a replayed remove. -/
def removeMarker : Bytes := [1, 0, 0, 0]

/-- The delta markers newer than `ts`, newest first, and the point to insert the change. -/
def walk (ts : Nat) : RowChain → List Marker × RowChain
  | .delta m prev =>
    if ts < m.bag.timestamp then
      let (newer, cur) := walk ts prev
      (m :: newer, cur)
    else ([], .delta m prev)
  | c => ([], c)

def plug (newer : List Marker) (cur : RowChain) : RowChain := newer.foldr .delta cur

def outOfDate (ts : Nat) : RowChain → Bool
  | .null => false
  | .row bag => ts ≤ bag.timestamp
  | .delta m _ => ts ≤ m.bag.timestamp

/-- The row at the insertion point, whatever kind it is. -/
def RowChain.bag? : RowChain → Option ValueBag
  | .null => none
  | .row bag => some bag
  | .delta m _ => some m.bag

/-- A marker for the request of `lr`, over `cur`. -/
def storeDelta (lr : LogRecord) (cur : RowChain) : RowChain :=
  .delta ⟨ValueBag.create1 (markerHeader ++ lr.val) (lr.ts ||| 1), lr.prevTs⟩ cur

/-- Applies the change at its insertion point. A record that is no modify replaces everything older. -/
def change (lr : LogRecord) (cur : RowChain) : Option RowChain :=
  if lr.command = .replace then some (.row (ValueBag.create1 lr.val lr.ts))
  else if lr.command = .modify then
    match cur.bag? with
    | some old =>
      if old.timestamp = lr.prevTs then do
        let changes ← parseChangeset lr.val
        return .row (← old.update changes lr.ts)
      else some (storeDelta lr cur)
    | none => some (storeDelta lr cur)
  else do
    let changes ← parseChangeset lr.val
    return .row (← ValueBag.create changes lr.ts)

/-- Applies the oldest delta marker to the row under it if it modifies that row. The inner `none`
leaves the chain as it is. -/
def collapse : RowChain → Option (Option RowChain)
  | .delta m (.row base) =>
    if m.prevTs = base.timestamp then do
      let changes ← parseChangeset (← m.request)
      return some (.row (← base.update changes (m.bag.timestamp - 1)))
    else some none
  | .delta m prev => do return (← collapse prev).map (.delta m)
  | _ => some none

/-- The clean-up loop: collapses until nothing can be. Each round removes a marker. -/
def cleanUp : Nat → RowChain → Option RowChain
  | 0, c => some c
  | fuel + 1, c => do
    match ← collapse c with
    | some next => cleanUp fuel next
    | none => some c

def RowChain.markers : RowChain → Nat
  | .delta _ prev => prev.markers + 1
  | _ => 0

def apply (lr : LogRecord) (value : RowChain) : Option RowChain :=
  let (newer, cur) := walk lr.ts value
  if outOfDate lr.ts cur then some value
  else do
    let cur ← change lr cur
    cleanUp (plug newer cur).markers (plug newer cur)

abbrev ReplayTable := Bytes → Option RowChain

def LogRecord.run (lr : LogRecord) (table : ReplayTable) : Option ReplayTable := do
  let lr := if lr.command = .remove then { lr with ts := lr.ts ||| 1, val := removeMarker } else lr
  let value ← apply lr ((table lr.key).getD .null)
  return Function.update table lr.key (some value)

/-! ### The pieces of `apply` -/

theorem parseChangesetLoop_nil (fuel : Nat) : parseChangesetLoop fuel [] = some [] := by
  cases fuel <;> rfl

/-- The column/value bytes of a put request. -/
inductive EncodesChanges : Changes → Bytes → Prop where
  | nil : EncodesChanges [] []
  | cons {index : Nat} {value : Bytes} {changes : Changes} {i v rest : Bytes} :
    Msgpack.EncodesNat index i → Msgpack.EncodesStr value v → EncodesChanges changes rest →
    EncodesChanges ((index, value) :: changes) (i ++ (v ++ rest))

/-- Replay decodes the changes that the live put was given. -/
theorem parseChangeset_encodes {changes : Changes} {s : Bytes} (h : EncodesChanges changes s) :
    parseChangeset s = some changes := by
  have loop : ∀ fuel, s.length ≤ fuel → parseChangesetLoop fuel s = some changes := by
    induction h with
    | nil => exact fun fuel _ => parseChangesetLoop_nil fuel
    | @cons index value changes i v rest nat str encoded ih =>
      intro fuel enough
      have nonempty : 0 < i.length := by cases nat <;> simp
      obtain ⟨fuel, rfl⟩ : ∃ f, fuel = f + 1 := ⟨fuel - 1, by simp at enough; omega⟩
      rw [parseChangesetLoop, Msgpack.readUnsigned_encodes nat]
      · simp [Msgpack.readStr_encodes str, ih fuel (by simp at enough; omega)]
      · intro empty
        simp_all
  exact loop _ (Nat.le_refl _)

theorem walk_plug (newer : List Marker) (cur : RowChain) {ts : Nat}
    (above : ∀ m ∈ newer, ts < m.bag.timestamp) (stop : (walk ts cur).1 = []) :
    walk ts (plug newer cur) = (newer, cur) := by
  induction newer with
  | nil =>
    cases cur with
    | delta m prev =>
      by_cases older : ts < m.bag.timestamp
      · simp [walk, older] at stop
      · simp [plug, walk, older]
    | _ => rfl
  | cons m newer ih =>
    have rest := ih fun m' member => above m' (List.mem_cons_of_mem _ member)
    have first : ts < m.bag.timestamp := above m List.mem_cons_self
    simp only [plug, List.foldr_cons, walk, first, if_true] at rest ⊢
    rw [rest]

theorem plug_append (a b : List Marker) (c : RowChain) : plug (a ++ b) c = plug a (plug b c) := by
  simp [plug]

@[simp] theorem markers_plug (newer : List Marker) (c : RowChain) :
    (plug newer c).markers = newer.length + c.markers := by
  induction newer with
  | nil => simp [plug]
  | cons m newer ih =>
    simp only [plug, List.foldr_cons, RowChain.markers, List.length_cons] at ih ⊢
    omega

/-- Collapsing looks only at the oldest marker and the row under it. -/
theorem collapse_plug (newer : List Marker) (m : Marker) (c : RowChain) :
    collapse (plug newer (.delta m c)) = (collapse (.delta m c)).map (·.map (plug newer)) := by
  induction newer with
  | nil =>
    have same : Option.map (plug []) = id := by
      funext o
      cases o <;> rfl
    simp [same, plug]
  | cons m' newer ih =>
    have inner : ∃ m'' c', plug newer (.delta m c) = .delta m'' c' := by
      cases newer <;> exact ⟨_, _, rfl⟩
    obtain ⟨m'', c', shape⟩ := inner
    have unfolded : collapse (plug (m' :: newer) (.delta m c)) =
        (collapse (plug newer (.delta m c))).map (·.map (.delta m')) := by
      simp only [plug, List.foldr_cons] at shape ⊢
      rw [shape, collapse]
      · cases collapse (.delta m'' c') <;> rfl
      · simp
    rw [unfolded, ih]
    cases collapse (.delta m c) with
    | none => rfl
    | some o => cases o <;> rfl

theorem request_create1 {lr : LogRecord} (room : lr.val.length + sizeofDeltaMarker < 2 ^ 16) (ts prevTs : Nat) :
    Marker.request ⟨ValueBag.create1 (markerHeader ++ lr.val) ts, prevTs⟩ = some lr.val := by
  have header : markerHeader.length = sizeofDeltaMarker := by simp [markerHeader]
  have whole : (ValueBag.create1 (markerHeader ++ lr.val) ts).col 0 = markerHeader ++ lr.val :=
    ValueBag.create1_col _ _ (by simp [header]; omega)
  simp [Marker.request, whole, header]

/-- A change of the row it modifies, or one that is no modify, gives a row of the record's timestamp. -/
theorem change_row {lr : LogRecord} {c d : RowChain} (h : change lr c = some d)
    (direct : lr.command = .modify → ∃ bag, c = .row bag ∧ bag.timestamp = lr.prevTs) :
    ∃ bag, d = .row bag ∧ bag.timestamp = lr.ts := by
  simp only [change] at h
  split at h
  · cases h
    exact ⟨_, rfl, rfl⟩
  split at h
  · rename_i modify
    obtain ⟨bag, rfl, same⟩ := direct modify
    simp only [RowChain.bag?, same, if_true, Option.bind_eq_bind, Option.bind_eq_some_iff] at h
    obtain ⟨changes, -, updated, written, h⟩ := h
    cases h
    exact ⟨_, rfl, ValueBag.update_timestamp written⟩
  · simp only [Option.bind_eq_bind, Option.bind_eq_some_iff] at h
    obtain ⟨changes, -, created, written, h⟩ := h
    cases h
    exact ⟨_, rfl, ValueBag.update_timestamp written⟩

/-- Where no marker waits and the record is not out of date, `apply` is `change`. -/
theorem apply_of_current {lr : LogRecord} {c : RowChain} (plain : c.markers = 0)
    (current : outOfDate lr.ts c = false) (settles : ∀ d, change lr c = some d → d.markers = 0) :
    apply lr c = change lr c := by
  have here : walk lr.ts c = ([], c) := by
    cases c with
    | delta m prev => simp [RowChain.markers] at plain
    | _ => rfl
  simp only [apply, here, current, Bool.false_eq_true, if_false, plug, List.foldr_nil]
  cases changed : change lr c with
  | none => rfl
  | some d => simp [settles d changed, cleanUp]

end Masstree
