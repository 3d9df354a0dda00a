import Masstree.Msgpack.Receive
import Masstree.Msgpack.RoundTrip

/-!
# Rounds

`parser::operator>>(Json&)` gives a new streaming parser ranges of 4096 bytes. A string of more bytes is read on in the next ranges,
which ends well for the strings that `str_` can hold.
-/

namespace Masstree.Msgpack

/-- The loop of `parser::operator>>(Json&)`. A range ends where the bytes end. `fuel` bounds the rounds. -/
def readRounds : Nat → Stream → Bytes → Except Fault (Stream × Bytes)
  | 0, _, _ => .error .endless
  | fuel + 1, p, s =>
    if p.status.isDone then .ok (p, s)
    else (Stream.consume p (s.take 4096)).bind fun r => readRounds fuel r.1 (s.drop r.2)

/-- `parser::operator>>(Json&)` -/
def readJson (j : Node) (s : Bytes) : Except Fault (Node × Bytes) :=
  (readRounds (s.length + 1) (Stream.start .null .null) s).map fun r =>
    (match r.1.status with
      | .final => r.1.json
      | _ => j, r.2)

namespace Stream
open Results

variable {p q : Stream} {data s t rest : Bytes} {b : UInt8} {n k fuel : Nat}

/-- The string that the parser waits for. -/
def pending (p : Stream) : List Nat :=
  match p.status with
  | .body _ n _ => [n]
  | _ => []

/-- How much of it there is. -/
def saved (p : Stream) : Nat :=
  match p.status with
  | .body saved _ _ => saved.length
  | _ => 0

/-- The strings that a range is concerned with can all be read on. -/
def Short (p : Stream) (s : Bytes) : Prop := ∀ n ∈ pending p ++ begins p.forget s, n + memoSpace ≤ 2 ^ 30

theorem pending_forget (p : Stream) : pending p.forget = pending p := by
  obtain ⟨status, stack, json, jokey⟩ := p
  cases status <;> rfl

theorem saved_forget (p : Stream) : saved p.forget = saved p := by
  obtain ⟨status, stack, json, jokey⟩ := p
  cases status <;> rfl

theorem pending_of_kind (kind : q.status.isNormal ∨ q.status.isDone) : pending q = [] := by
  obtain ⟨status, stack, json, jokey⟩ := q
  cases status with
  | header | body => exact kind.elim Bool.noConfusion Bool.noConfusion
  | final | error | normal => rfl

theorem begins_done (done : p.status.isDone) (s : Bytes) : begins p s = [] := by
  obtain ⟨status, stack, json, jokey⟩ := p
  cases s with
  | nil => rfl
  | cons b rest =>
    cases status with
    | final | error => rfl
    | normal | header | body => cases done

/-! ### One byte -/

theorem act_waits {item : Item} (h : act p item = .ok q) : pending q = begun q ∧ saved q = 0 := by
  rcases act_cases h with kind | ⟨n, -, -, -, rfl⟩
  · obtain ⟨status, stack, json, jokey⟩ := q
    cases status with
    | header | body => exact kind.elim Bool.noConfusion Bool.noConfusion
    | final | error | normal => exact ⟨rfl, rfl⟩
  · exact ⟨rfl, rfl⟩

/-- A byte begins a string, or it is one more of the string that the parser waits for, or it ends it. -/
theorem step_waits (ok : Ok p) (h : step p b = .ok (some q)) : pending p = [] ∧ pending q = begun q ∧ saved q = 0 ∨
    ∃ n, pending p = [n] ∧ begun q = [] ∧ (pending q = [n] ∧ saved q = saved p + 1 ∨ pending q = [] ∧ saved q = 0 ∧
    n = saved p + 1) := by
  obtain ⟨status, stack, json, jokey⟩ := p
  cases status with
  | final | error => cases h
  | normal =>
    left
    cases kind : lead b with
    | bad =>
      rw [step_bad rfl kind] at h
      cases h
    | now item =>
      rw [step_now rfl kind] at h
      exact ⟨rfl, act_waits (map_some h)⟩
    | wide n =>
      have two := (lead_wide kind).2
      rw [step_wide rfl kind, inHeader, if_neg (by rw [List.length_singleton]; omega)] at h
      obtain rfl := Option.some.inj (Except.ok.inj h)
      exact ⟨rfl, rfl, rfl⟩
  | header saved =>
    left
    rw [step_header ⟨.normal, stack, json, jokey⟩, inHeader, act_status] at h
    split at h
    · exact ⟨rfl, act_waits (map_some h)⟩
    · obtain rfl := Option.some.inj (Except.ok.inj h)
      exact ⟨rfl, rfl, rfl⟩
  | body sofar n capacity =>
    right
    refine ⟨n, rfl, ?_⟩
    change (inBody ⟨.body sofar n capacity, stack, json, jokey⟩ (sofar ++ [b]) n).map some = _ at h
    have made := map_some h
    unfold inBody at made
    split at made
    · cases made
    split at made
    · rename_i full
      have kind := next_ok made
      rw [List.length_append, List.length_singleton] at full
      refine ⟨begun_of_kind kind, .inr ⟨pending_of_kind kind, ?_, full.symm⟩⟩
      obtain ⟨status, stack, json, jokey⟩ := q
      cases status with
      | header | body => exact kind.elim Bool.noConfusion Bool.noConfusion
      | final | error | normal => rfl
    · obtain rfl := Except.ok.inj made
      refine ⟨begun_more (List.append_ne_nil_of_right_ne_nil _ (List.cons_ne_nil _ _)), .inl ⟨rfl, ?_⟩⟩
      change (sofar ++ [b]).length = sofar.length + 1
      rw [List.length_append, List.length_singleton]

/-! ### A range -/

theorem begins_cons (taken : step p b = .ok (some q)) (rest : Bytes) : begins p (b :: rest) = begun q ++ begins q rest := by
  rw [begins]
  simp only [taken]

theorem begins_append (h : run p s = .ok (q, [])) (t : Bytes) : begins p (s ++ t) = begins p s ++ begins q t := by
  induction s generalizing p with
  | nil =>
    obtain ⟨rfl, -⟩ := Prod.mk.inj (Except.ok.inj h)
    rfl
  | cons b s ih =>
    obtain ⟨next, taken, h⟩ := bind_eq_ok.mp h
    cases next with
    | none => cases h
    | some p' => rw [List.cons_append, begins_cons taken, begins_cons taken, ih h, List.append_assoc]

/-- A parser that is done begins nothing. -/
theorem begins_append_done (h : run p s = .ok (q, rest)) (done : q.status.isDone) (t : Bytes) : begins p (s ++ t) = begins p s := by
  induction s generalizing p with
  | nil =>
    obtain ⟨rfl, -⟩ := Prod.mk.inj (Except.ok.inj h)
    exact begins_done done t
  | cons b s ih =>
    obtain ⟨next, taken, h⟩ := bind_eq_ok.mp h
    cases next with
    | none =>
      rw [List.cons_append, begins, begins]
      simp only [taken]
    | some p' => rw [List.cons_append, begins_cons taken, begins_cons taken, ih h]

theorem step_refused (h : step p b = .ok none) : pending p = [] := by
  obtain ⟨status, stack, json, jokey⟩ := p
  cases status with
  | final | error | normal | header => rfl
  | body sofar n capacity =>
    obtain ⟨q, -, none_⟩ := map_eq_ok.mp (show (inBody ⟨.body sofar n capacity, stack, json, jokey⟩ (sofar ++ [b]) n).map
      some = _ from h)
    cases none_

/-- A string that a range is concerned with is still waited for, or the range has all that was missing. -/
theorem run_waits (ok : Ok p) (h : run p s = .ok (q, rest)) :
    (∀ n ∈ pending p, n ∈ pending q ∨ n ≤ saved p + s.length) ∧ ∀ n ∈ begins p s, n ∈ pending q ∨ n ≤ s.length := by
  induction s generalizing p with
  | nil =>
    obtain ⟨rfl, -⟩ := Prod.mk.inj (Except.ok.inj h)
    exact ⟨fun n mem => .inl mem, fun n mem => absurd mem List.not_mem_nil⟩
  | cons b s ih =>
    obtain ⟨next, taken, h⟩ := bind_eq_ok.mp h
    cases next with
    | none =>
      have nothing : begins p (b :: s) = [] := by
        rw [begins]
        simp only [taken]
      rw [nothing, step_refused taken]
      exact ⟨fun n mem => absurd mem List.not_mem_nil, fun n mem => absurd mem List.not_mem_nil⟩
    | some p' =>
      obtain ⟨first, later⟩ := ih (step_ok ok taken) h
      rw [begins_cons taken, List.length_cons]
      rcases step_waits ok taken with ⟨none_, same, zero⟩ | ⟨m, waits, same, more⟩
      · rw [none_, ← same]
        refine ⟨fun n mem => absurd mem List.not_mem_nil, fun n mem => ?_⟩
        rcases List.mem_append.mp mem with begun | mem
        · exact (first n begun).imp_right (by omega)
        · exact (later n mem).imp_right (by omega)
      · rw [waits, same, List.nil_append]
        refine ⟨fun n mem => ?_, fun n mem => (later n mem).imp_right (by omega)⟩
        obtain rfl := List.mem_singleton.mp mem
        rcases more with ⟨waits', one⟩ | ⟨-, -, full⟩
        · exact (first n (waits' ▸ List.mem_singleton_self n)).imp_right (by omega)
        · exact .inr (by omega)

/-! ### Rounds -/

theorem mem_short {m : Nat} (short : Short p s) (mem : m ∈ pending p ∨ m ∈ begins p.forget s) : m + memoSpace ≤ 2 ^ 30 :=
  short m (List.mem_append.mpr mem)

theorem roomy_of_short {m capacity length len : Nat} (le : length + len ≤ m) (fits : m + memoSpace ≤ 2 ^ 30) :
    Roomy capacity length len := .inr (.inr (by omega))

/-- A range of short strings comes to a parser with room. -/
theorem Short.room (ok : Ok p) (short : Short p (data ++ rest)) : Room p data := by
  obtain ⟨status, stack, json, jokey⟩ := p
  cases status with
  | final | error | normal => exact fun r mem => by cases mem
  | body sofar n capacity =>
    have fits : n + memoSpace ≤ 2 ^ 30 := mem_short short (.inl (List.mem_singleton_self n))
    intro r mem
    obtain rfl := Option.some.inj mem
    have less : sofar.length < n := ok.1
    exact roomy_of_short (show sofar.length + min data.length (n - sofar.length) ≤ n by omega) fits
  | header sofar =>
    obtain ⟨b, t, n, rfl, kind, less⟩ := ok
    have size : headerLength (b :: t) = n := (lead_wide kind).1.symm
    intro r mem
    by_cases enough : n ≤ (b :: t).length + data.length
    · cases item : decode (b :: t ++ data.take (n - (b :: t).length)) with
      | raw m =>
        by_cases small : m < 2 ^ 31
        · rw [resumed_header kind enough item small] at mem
          obtain rfl := Option.some.inj mem
          by_cases none_ : m = 0
          · rw [none_, Nat.min_zero]
            exact roomy_zero
          · have acted := act_raw ⟨.normal, stack, json, jokey⟩ none_ small
            rw [← item] at acted
            have goes := goes_header ⟨.normal, stack, json, jokey⟩ (take_ne less enough) (List.cons_ne_nil b t)
              (by rw [size, List.length_take]; omega) acted
            have begins_ := goes.begins (data.drop (n - (b :: t).length) ++ rest)
            rw [← List.append_assoc, List.take_append_drop] at begins_
            have fits : m + memoSpace ≤ 2 ^ 30 :=
              mem_short short (.inr (by
                change m ∈ begins ⟨.header (b :: t), stack, json, jokey⟩ _
                rw [begins_]
                exact List.mem_cons_self))
            exact roomy_of_short (show 0 + min (data.length - (n - (b :: t).length)) m ≤ m by omega) fits
        · rw [resumed] at mem
          dsimp only at mem
          rw [size, if_neg (by omega), item] at mem
          dsimp only at mem
          rw [if_neg small] at mem
          cases mem
      | value | array | map =>
        rw [resumed] at mem
        dsimp only at mem
        rw [size, if_neg (by omega), item] at mem
        cases mem
    · rw [resumed] at mem
      dsimp only at mem
      rw [size, if_pos (by omega)] at mem
      cases mem

theorem run_pending (ok : Ok p) (h : run p s = .ok (q, [])) (mem : n ∈ pending q) : n ∈ pending p ∨ n ∈ begins p s := by
  induction s generalizing p with
  | nil =>
    obtain ⟨rfl, -⟩ := Prod.mk.inj (Except.ok.inj h)
    exact .inl mem
  | cons b s ih =>
    obtain ⟨next, taken, h⟩ := bind_eq_ok.mp h
    cases next with
    | none => cases h
    | some p' =>
      rw [begins_cons taken, List.mem_append]
      rcases ih (step_ok ok taken) h with mem | mem
      · rcases step_waits ok taken with ⟨-, same, -⟩ | ⟨m, waits, -, ⟨waits', -⟩ | ⟨none_, -⟩⟩
        · exact .inr (.inl (same ▸ mem))
        · exact .inl (by rwa [waits, ← waits'])
        · rw [none_] at mem
          exact absurd mem List.not_mem_nil
      · exact .inr (.inr mem)

theorem ok_forget (ok : Ok p) : Ok p.forget := (ok_iff.mp ok).1

/-- What a call leaves of a range is concerned with no other strings. -/
theorem Called.short (called : Called p data q k) (ok : Ok p) (short : Short p (data ++ rest)) (going : ¬q.status.isDone) :
    Short q (data.drop k ++ rest) := by
  have took := called.took.resolve_left going
  have all := begins_append took (data.drop k ++ rest)
  rw [← List.append_assoc, List.take_append_drop] at all
  intro n mem
  rcases List.mem_append.mp mem with waits | mem
  · rw [← pending_forget q] at waits
    rcases run_pending (ok_forget ok) took waits with mem | mem
    · exact mem_short short (.inl (pending_forget p ▸ mem))
    · exact mem_short short (.inr (by rw [all]; exact List.mem_append_left _ mem))
  · exact mem_short short (.inr (by rw [all]; exact List.mem_append_right _ mem))

/-- The rounds do one after the other what a run over all the bytes does. -/
theorem readRounds_run (ok : Ok p) (short : Short p s) (result : run p.forget s = .ok (q, rest)) (done : q.status.isDone)
    (enough : s.length < fuel) : readRounds fuel p s = .ok (q, rest) := by
  induction fuel generalizing p s with
  | zero => omega
  | succ fuel ih =>
    rw [readRounds]
    split
    · rename_i before
      rw [run_done ((forget_isDone p).trans before)] at result
      obtain ⟨rfl, rfl⟩ := Prod.mk.inj (Except.ok.inj result)
      rw [forget_eq (.inr before)]
    · rename_i going
      have some_ : s ≠ [] := by
        rintro rfl
        obtain ⟨rfl, -⟩ := Prod.mk.inj (Except.ok.inj result)
        exact going ((forget_isDone p).symm.trans done)
      have range : s.take 4096 ≠ [] := by
        rw [ne_eq, List.take_eq_nil_iff]
        exact fun none => none.elim (by decide) some_
      have cut := List.take_append_drop 4096 s
      have whole := run_append p.forget (s.take 4096) (s.drop 4096)
      rw [cut, result, consume_run ok (Short.room ok (cut.symm ▸ short)).takes] at whole
      cases called : consume p (s.take 4096) with
      | error fault =>
        rw [called] at whole
        cases whole
      | ok r =>
        obtain ⟨p', k⟩ := r
        have left := consume_called ok called
        have inside := left.inside
        rw [called] at whole
        change _ = (run p'.forget ((s.take 4096).drop k)).bind _ at whole
        have onward : (s.take 4096).drop k ++ s.drop 4096 = s.drop k := by
          rw [← List.drop_append_of_le_length inside, cut]
        rw [← run_append, onward] at whole
        rw [List.length_take] at inside
        change readRounds fuel p' (s.drop k) = _
        by_cases ended : p'.status.isDone
        · obtain ⟨m, rfl⟩ : ∃ m, fuel = m + 1 := ⟨fuel - 1, by have := List.length_pos_iff.mpr some_; omega⟩
          rw [run_done ((forget_isDone p').trans ended), forget_eq (.inr ended)] at whole
          rw [readRounds, if_pos ended]
          exact whole.symm
        · have more := (left.moves (.inl range)).resolve_right ended
          have later := left.short ok (cut.symm ▸ short) ended
          rw [onward] at later
          exact ih left.ok later whole.symm (by rw [List.length_drop]; omega)

theorem copies_range (len : data.length ≤ 4096) : Copies (2 ^ 30 + 16) data := by
  intro n c le made
  unfold stringCapacity memoSpace at made
  split_ifs at made
  all_goals
    obtain rfl := Except.ok.inj made
    omega

/-- The string that the parser waited for, if it is there after a call. -/
theorem short_of_takes (ok : Ok p) (low : Bounded (2 ^ 30 + 16) p) (takes : Takes p data) (mem : n ∈ pending p)
    (full : n ≤ saved p + data.length) : n + memoSpace ≤ 2 ^ 30 := by
  obtain ⟨status, stack, json, jokey⟩ := p
  cases status with
  | final | error | normal | header => exact absurd mem List.not_mem_nil
  | body sofar m capacity =>
    obtain rfl := List.mem_singleton.mp mem
    have less : sofar.length < n := ok.1
    have full : n ≤ sofar.length + data.length := full
    have low : capacity + 27 < 2 ^ 30 + 16 := low
    have takes : Roomy capacity sofar.length (min data.length (n - sofar.length)) := takes
    unfold Roomy at takes
    unfold memoSpace at *
    omega

/-- Rounds that come to an end have read only such strings. -/
theorem readRounds_short (ok : Ok p) (low : Bounded (2 ^ 30 + 16) p) {r : Stream × Bytes} (h : readRounds fuel p s = .ok r) :
    Short p s := by
  induction fuel generalizing p s with
  | zero => cases h
  | succ fuel ih =>
    rw [readRounds] at h
    split at h
    · rename_i done
      intro n mem
      rw [pending_of_kind (.inr done), begins_done ((forget_isDone p).trans done)] at mem
      exact absurd mem List.not_mem_nil
    · obtain ⟨⟨p', k⟩, called, h⟩ := bind_eq_ok.mp h
      have left := consume_called ok called
      have inside := left.inside
      have takes := consume_takes ok called
      have size : (s.take 4096).length ≤ 4096 := List.length_take_le _ _
      have cut := List.take_append_drop 4096 s
      have onward : (s.take 4096).drop k ++ s.drop 4096 = s.drop k := by
        rw [← List.drop_append_of_le_length inside, cut]
      have rounds := ih left.ok (left.bounded _ (Nat.le_refl _) (copies_range size) low) h
      have ended : ∀ {t rest}, run p.forget t = .ok (p'.forget, rest) → t.length ≤ (s.take 4096).length →
          (∀ n ∈ pending p ++ begins p.forget t, n + memoSpace ≤ 2 ^ 30) := by
        intro t rest ran le n mem
        obtain ⟨first, later⟩ := run_waits (ok_forget ok) ran
        rw [pending_forget, pending_forget, saved_forget] at first
        rw [pending_forget] at later
        rcases List.mem_append.mp mem with mem | mem
        · rcases first n mem with waits | full
          · exact mem_short rounds (.inl waits)
          · exact short_of_takes ok low takes mem (by omega)
        · rcases later n mem with waits | full
          · exact mem_short rounds (.inl waits)
          · unfold memoSpace
            omega
      intro n mem
      rcases left.took with done | took
      · have ran := consume_run ok takes
        rw [called] at ran
        change _ = run p'.forget _ at ran
        rw [run_done ((forget_isDone p').trans done)] at ran
        have all := begins_append_done ran ((forget_isDone p').trans done) (s.drop 4096)
        rw [cut] at all
        rw [all] at mem
        exact ended ran (Nat.le_refl _) n mem
      · have all := begins_append took ((s.take 4096).drop k ++ s.drop 4096)
        rw [← List.append_assoc, List.take_append_drop, cut, onward] at all
        rw [all, ← List.append_assoc] at mem
        rcases List.mem_append.mp mem with mem | mem
        · exact ended took (by rw [List.length_take]; omega) n mem
        · exact mem_short rounds (.inr mem)

end Stream

end Masstree.Msgpack
