import Masstree.Msgpack.Stream
import Mathlib.Data.List.GetD

/-!
# The streaming parser byte by byte

`consume` reads a range in big steps, and goes on from what it has saved of the range before. Both are the same as
taking one byte after another: where a range is cut does not matter, except that a string in pieces is appended to `str_`, whose
capacity must stay an `int`.
-/

namespace Masstree.Msgpack.Stream
open Results

variable {p q : Stream} {data s t rest saved : Bytes} {b : UInt8} {n k first fuel capacity : Nat} {v : Node}

/-- Without the capacity of `str_`. -/
def forget (p : Stream) : Stream :=
  match p.status with
  | .body saved n _ => { p with status := .body saved n 0 }
  | _ => p

def outcome (r : Stream × Nat) : Stream × Nat := (r.1.forget, r.2)

def act (p : Stream) : Item → Except Fault Stream
  | .value v => next p v 0
  | .array size => (checkSize size).bind fun n => (p.json.resize n).bind fun v => next p v n
  | .map size => (checkSize size).bind fun n => next p p.json.clear n
  | .raw size =>
    (checkSize size).bind fun n => if n = 0 then next p (.str []) 0 else .ok { p with status := .body [] n 0 }

/-- The parser that has `saved` of a header of `n` bytes. -/
def inHeader (p : Stream) (saved : Bytes) (n : Nat) : Except Fault Stream :=
  if saved.length = n then act p (decode saved) else .ok { p with status := .header saved }

/-- The parser that has `saved` of a string of `n` bytes, for which a memo can be made. -/
def inBody (p : Stream) (saved : Bytes) (n : Nat) : Except Fault Stream :=
  if 2 ^ 31 ≤ saved.length + 27 then .error .capacity
  else if saved.length = n then next p (.str saved) 0
  else .ok { p with status := .body saved n 0 }

def headerLength : Bytes → Nat
  | [] => 0
  | b :: _ => nbytes.getD (b.toNat - 0xC0) 0

/-- One byte, if the parser takes it. -/
def step (p : Stream) (b : UInt8) : Except Fault (Option Stream) :=
  match p.status with
  | .final | .error => .ok none
  | .normal =>
    match lead b with
    | .bad => .ok none
    | .now item => (act p item).map some
    | .wide n => (inHeader p [b] n).map some
  | .header saved => (inHeader p (saved ++ [b]) (headerLength (saved ++ [b]))).map some
  | .body saved n _ => (inBody p (saved ++ [b]) n).map some

/-- Where a byte is not taken, the parser is done. -/
def refuse (p : Stream) : Stream := if p.status.isDone then p else { p with status := .error }

/-- The parser after a range, and the bytes it does not take. -/
def run : Stream → Bytes → Except Fault (Stream × Bytes)
  | p, [] => .ok (p, [])
  | p, b :: rest =>
    (step p b).bind fun
      | none => .ok (refuse p, b :: rest)
      | some p => run p rest

def Ok (p : Stream) : Prop :=
  match p.status with
  | .header saved => ∃ b t n, saved = b :: t ∧ lead b = .wide n ∧ saved.length < n
  | .body saved n capacity => saved.length < n ∧ capacity + 27 < 2 ^ 31
  | _ => True

/-! ### The table -/

theorem getD_size (l : List Nat) (all : ∀ m ∈ l, m = 0 ∨ 2 ≤ m) (i : Nat) : l.getD i 0 = 0 ∨ 2 ≤ l.getD i 0 := by
  by_cases inside : i < l.length
  · rw [List.getD_eq_getElem _ _ inside]
    exact all _ (List.getElem_mem inside)
  · exact .inl (List.getD_eq_default _ _ (Nat.le_of_not_lt inside))

theorem nbytes_size (i : Nat) : nbytes.getD i 0 = 0 ∨ 2 ≤ nbytes.getD i 0 := getD_size _ (by decide) i

theorem lead_wide (h : lead b = .wide n) : n = nbytes.getD (b.toNat - 0xC0) 0 ∧ 2 ≤ n := by
  have size := nbytes_size (b.toNat - 0xC0)
  unfold lead at h
  generalize nbytes.getD (b.toNat - 0xC0) 0 = m at h size
  repeat' split at h
  all_goals cases h
  exact ⟨rfl, size.resolve_left ‹_›⟩

theorem lead_far (low : 0xC4 ≤ b.toNat) (high : b.toNat < 0xE0) (size : nbytes.getD (b.toNat - 0xC0) 0 = n)
    (positive : n ≠ 0) : lead b = .wide n := by
  unfold lead
  rw [size, if_neg (by rw [isFixint_iff]; omega), if_neg (by omega), if_neg (by omega),
    if_neg (by rw [isFixmap_iff]; omega), if_neg (by rw [isFixarray_iff]; omega),
    if_neg (by rw [isFixstr_iff]; omega), if_neg positive]

/-- The sizes that a type byte tells by itself are small. -/
theorem lead_now (size : Nat) (h : lead b = .now (.array size) ∨ lead b = .now (.map size) ∨ lead b = .now (.raw size)) :
    size < 32 := by
  unfold lead at h
  generalize nbytes.getD (b.toNat - 0xC0) 0 = m at h
  simp only [isFixint_iff, isFixmap_iff, isFixarray_iff, isFixstr_iff] at h
  repeat' split at h
  all_goals
    simp only [Lead.now.injEq, Item.array.injEq, Item.map.injEq, Item.raw.injEq, reduceCtorEq, or_self, or_false,
      false_or] at h
  all_goals omega

/-! ### The completed values -/

theorem advance_ok (jokey : Node) (stack : List Frame) (v : Node) :
    (advance jokey stack v).status.isNormal ∨ (advance jokey stack v).status.isDone := by
  fun_induction advance jokey stack v with
  | case1 | case6 => exact .inr rfl
  | case2 _ _ _ _ ih => exact ih
  | case4 _ _ _ _ _ _ ih => exact ih
  | case3 | case5 => exact .inl rfl

theorem enter_ok {table size : Nat} {entries : List (Bytes × Node)} {key : Bytes} {stack : List Frame} {jokey : Node}
    (entered : enter table entries key size stack jokey = .ok q) : q.status.isNormal := by
  unfold enter at entered
  split at entered
  · cases entered
  · split at entered <;>
    · obtain rfl := Except.ok.inj entered
      rfl

theorem next_ok (h : next p v n = .ok q) : q.status.isNormal ∨ q.status.isDone := by
  unfold next at h
  split at h
  · split at h
    · exact .inl (enter_ok h)
    · obtain rfl := Except.ok.inj h
      exact .inr rfl
  · split at h
    all_goals obtain rfl := Except.ok.inj h
    · exact .inl rfl
    · exact .inl rfl
    · exact advance_ok _ _ _

/-- A string has no items. -/
theorem next_str (p : Stream) (s : Bytes) (n : Nat) : next p (.str s) n = next p (.str s) 0 := by
  unfold next
  split <;> rfl

theorem forget_eq (kind : q.status.isNormal ∨ q.status.isDone) : q.forget = q := by
  obtain ⟨status, stack, json, jokey⟩ := q
  cases status with
  | body => exact kind.elim Bool.noConfusion Bool.noConfusion
  | final | error | normal | header => rfl

theorem forget_forget (q : Stream) : q.forget.forget = q.forget := by
  obtain ⟨status, stack, json, jokey⟩ := q
  cases status <;> rfl

theorem forget_isDone (q : Stream) : q.forget.status.isDone = q.status.isDone := by
  obtain ⟨status, stack, json, jokey⟩ := q
  cases status <;> rfl

/-! ### Ranges -/

theorem signed_eq : signed 4 n = n ↔ n < 2 ^ 31 := by
  unfold signed
  split <;> omega

theorem checkSize_eq (small : n < 2 ^ 31) : checkSize n = .ok n := if_pos (signed_eq.mpr small)

/-- A string that is not empty is waited for. -/
theorem act_raw (p : Stream) (some_ : n ≠ 0) (small : n < 2 ^ 31) : act p (.raw n) = .ok { p with status := .body [] n 0 } := by
  rw [act, checkSize_eq small]
  exact if_neg some_

theorem checkSize_ok (h : checkSize n = .ok k) : k = n ∧ n < 2 ^ 31 := by
  unfold checkSize at h
  split at h
  · exact ⟨(Except.ok.inj h).symm, signed_eq.mp ‹_›⟩
  · cases h

theorem slice_eq (le : first + k ≤ data.length) : slice data first (first + k) = .ok ((data.drop first).take k) := by
  rw [slice, if_pos ⟨Nat.le_add_right _ _, le⟩, Nat.add_sub_cancel_left]

theorem slice_length {i j : Nat} (h : slice data i j = .ok s) : s.length ≤ data.length := by
  unfold slice at h
  split at h
  · obtain rfl := Except.ok.inj h
    rw [List.length_take, List.length_drop]
    omega
  · cases h

theorem slice_rest (le : first ≤ data.length) : slice data first data.length = .ok (data.drop first) := by
  rw [slice, if_pos ⟨le, Nat.le_refl _⟩, ← List.length_drop, List.take_length]

theorem run_done (done : p.status.isDone) : run p s = .ok (p, s) := by
  cases s with
  | nil => rfl
  | cons b rest =>
    have none : step p b = .ok none := by
      unfold step
      cases h : p.status with
      | final | error => rfl
      | normal | header saved | body saved n capacity =>
        rw [h] at done
        cases done
    rw [run, none]
    change Except.ok (refuse p, b :: rest) = _
    rw [refuse, if_pos done]

theorem refuse_done (p : Stream) : (refuse p).status.isDone := by
  unfold refuse
  split
  · assumption
  · rfl

/-- A range may be cut anywhere. -/
theorem run_append (p : Stream) (s t : Bytes) : run p (s ++ t) = (run p s).bind fun r => run r.1 (r.2 ++ t) := by
  induction s generalizing p with
  | nil => rfl
  | cons b rest ih =>
    rw [List.cons_append, run, run]
    rcases step p b with fault | _ | q
    · rfl
    · exact (run_done (refuse_done p)).symm
    · exact ih q

/-- The status does not matter to a complete header. -/
theorem act_status (p : Stream) (status : Status) (item : Item) : act { p with status := status } item = act p item := by
  cases item <;> rfl

theorem headerLength_append (started : saved ≠ []) (t : Bytes) : headerLength (saved ++ t) = headerLength saved := by
  cases saved with
  | nil => exact absurd rfl started
  | cons b saved => rfl

/-- The rest of a header. -/
theorem run_header (p : Stream) (ne : t ≠ []) (started : saved ≠ [])
    (full : saved.length + t.length = headerLength saved) :
    run { p with status := .header saved } (t ++ rest) = (act p (decode (saved ++ t))).bind fun q => run q rest := by
  induction t generalizing saved with
  | nil => exact absurd rfl ne
  | cons b t ih =>
    have more := headerLength_append started [b]
    rw [List.cons_append, run]
    change (((inHeader _ (saved ++ [b]) (headerLength (saved ++ [b]))).map some).bind _) = _
    rw [more, inHeader]
    cases t with
    | nil =>
      rw [if_pos (by simpa using full), act_status]
      cases act p (decode (saved ++ [b])) <;> rfl
    | cons c t =>
      rw [if_neg (by simp only [List.length_append, List.length_cons, List.length_nil] at full ⊢; omega)]
      have started' : saved ++ [b] ≠ [] := by simp
      have later := ih (by simp) started' (by
        rw [more, ← full]
        simp only [List.length_append, List.length_cons, List.length_nil]
        omega)
      rw [List.append_assoc] at later
      exact later

theorem run_header_short (p : Stream) (started : saved ≠ []) (short : saved.length + t.length < headerLength saved) :
    run { p with status := .header saved } t = .ok ({ p with status := .header (saved ++ t) }, []) := by
  induction t generalizing saved with
  | nil =>
    rw [List.append_nil]
    rfl
  | cons b t ih =>
    have more := headerLength_append started [b]
    rw [run]
    change (((inHeader _ (saved ++ [b]) (headerLength (saved ++ [b]))).map some).bind _) = _
    rw [more, inHeader, if_neg (by simp only [List.length_append, List.length_cons, List.length_nil] at short ⊢; omega)]
    have started' : saved ++ [b] ≠ [] := by simp
    have later := ih started' (by
      rw [more]
      simp only [List.length_append, List.length_cons, List.length_nil] at short ⊢
      omega)
    rw [List.append_assoc] at later
    exact later

theorem run_body (p : Stream) (ne : t ≠ []) (full : saved.length + t.length = n) (short : n + 27 < 2 ^ 31) :
    run { p with status := .body saved n capacity } (t ++ rest) =
      (next p (.str (saved ++ t)) 0).bind fun q => run q rest := by
  induction t generalizing saved capacity with
  | nil => exact absurd rfl ne
  | cons b t ih =>
    rw [List.length_cons] at full
    rw [List.cons_append, run]
    change (((inBody _ (saved ++ [b]) n).map some).bind _) = _
    rw [inBody, List.length_append, List.length_singleton, if_neg (by omega)]
    cases t with
    | nil =>
      rw [if_pos (by simpa using full)]
      change ((next p (.str (saved ++ [b])) 0).map some).bind _ = _
      cases next p (.str (saved ++ [b])) 0 <;> rfl
    | cons c t =>
      have more : saved.length + 1 ≠ n := by
        rw [List.length_cons] at full
        omega
      rw [if_neg more]
      have later := @ih (saved ++ [b]) 0 (List.cons_ne_nil _ _) (by
        rw [List.length_append, List.length_singleton]
        omega)
      rw [List.append_assoc] at later
      exact later

theorem run_body_short (p : Stream) (short : saved.length + t.length < n)
    (small : t.length = 0 ∨ saved.length + t.length + 27 < 2 ^ 31) :
    run { p with status := .body saved n 0 } t = .ok ({ p with status := .body (saved ++ t) n 0 }, []) := by
  induction t generalizing saved with
  | nil =>
    rw [List.append_nil]
    rfl
  | cons b t ih =>
    have small := small.resolve_left (Nat.succ_ne_zero _)
    rw [List.length_cons] at short small
    rw [run]
    change (((inBody _ (saved ++ [b]) n).map some).bind _) = _
    rw [inBody, List.length_append, List.length_singleton, if_neg (by omega), if_neg (by omega)]
    have later := @ih (saved ++ [b]) (by rw [List.length_append, List.length_singleton]; omega)
      (.inr (by rw [List.length_append, List.length_singleton]; omega))
    rw [List.append_assoc] at later
    exact later

/-- A string that is too long for a memo. -/
theorem run_body_long (p : Stream) (small : saved.length + 27 < 2 ^ 31) (le : saved.length + t.length ≤ n)
    (long : 2 ^ 31 ≤ saved.length + t.length + 27) :
    run { p with status := .body saved n capacity } (t ++ rest) = .error .capacity := by
  induction t generalizing saved capacity with
  | nil =>
    rw [List.length_nil] at long
    omega
  | cons b t ih =>
    rw [List.length_cons] at le long
    rw [List.cons_append, run]
    change (((inBody _ (saved ++ [b]) n).map some).bind _) = _
    rw [inBody, List.length_append, List.length_singleton]
    by_cases now : 2 ^ 31 ≤ saved.length + 1 + 27
    · rw [if_pos now]
      rfl
    · rw [if_neg now, if_neg (by omega)]
      exact @ih (saved ++ [b]) 0 (by rw [List.length_append, List.length_singleton]; omega)
        (by rw [List.length_append, List.length_singleton]; omega) (by rw [List.length_append, List.length_singleton]; omega)

/-! ### The loop -/

/-- The parser after the bytes from `first` on, and how far in the range that is. -/
def reach (data : Bytes) (first : Nat) (p : Stream) : Except Fault (Stream × Nat) :=
  (run p (data.drop first)).map fun r => (r.1, data.length - r.2.length)

theorem reach_done (le : first ≤ data.length) (done : p.status.isDone) : reach data first p = .ok (p, first) := by
  rw [reach, run_done done]
  change Except.ok (p, data.length - (data.drop first).length) = _
  rw [List.length_drop, Nat.sub_sub_self le]

/-- A string, which is in the range or goes on behind it. -/
theorem store_raw {go : Stream → Nat → Except Fault (Stream × Nat)} (le : first ≤ data.length)
    (onward : ∀ v k, first ≤ k → k ≤ data.length →
      ((next p v 0).bind fun q => go q k).map outcome = (next p v 0).bind (reach data k)) (size : Nat) :
    (store data go p first (.raw size)).map outcome = (act p (.raw size)).bind (reach data first) := by
  rw [store, act]
  cases checkSize size with
  | error fault => rfl
  | ok n =>
    change (if (data.length : Int) - first < n then _ else _ : Except Fault (Stream × Nat)).map outcome =
      (if n = 0 then next p (.str []) 0 else .ok { p with status := .body [] n 0 }).bind (reach data first)
    by_cases short : (data.length : Int) - first < n
    · rw [if_pos short, slice_rest le, if_neg (by omega)]
      change ((stringCapacity (data.drop first).length).map _).map outcome = reach data first { p with status := .body [] n 0 }
      rw [reach]
      by_cases small : (data.drop first).length + 27 < 2 ^ 31
      · obtain ⟨c, made, -⟩ := stringCapacity_eq small
        rw [made, run_body_short p (by rw [List.length_drop, List.length_nil]; omega) (.inr (by rwa [List.length_nil, Nat.zero_add]))]
        rfl
      · have long : run { p with status := .body [] n 0 } (data.drop first ++ []) = .error .capacity :=
          run_body_long p (by decide) (by rw [List.length_drop, List.length_nil]; omega) (by rw [List.length_nil]; omega)
        rw [List.append_nil] at long
        rw [stringCapacity_fails (Nat.not_lt.mp small), long]
        rfl
    · have inside : first + n ≤ data.length := by omega
      have taken : ((data.drop first).take n).length = n := List.length_take_of_le (by rw [List.length_drop]; omega)
      have cut : data.drop first = (data.drop first).take n ++ data.drop (first + n) := by
        rw [← List.drop_drop, List.take_append_drop]
      rw [if_neg short, slice_eq inside]
      change ((stringCapacity ((data.drop first).take n).length).bind _).map outcome = _
      rw [taken]
      by_cases small : n + 27 < 2 ^ 31
      · obtain ⟨c, made, -⟩ := stringCapacity_eq small
        rw [made]
        change ((next p (.str ((data.drop first).take n)) n).bind fun q => go q (first + n)).map outcome = _
        rw [next_str, onward _ _ (Nat.le_add_right _ _) inside]
        split
        · subst n
          rw [List.take_zero, Nat.add_zero]
        · rename_i some_
          change _ = reach data first { p with status := .body [] n 0 }
          have ran : run { p with status := .body [] n 0 } ((data.drop first).take n ++ data.drop (first + n)) = _ :=
            run_body p (List.length_pos_iff.mp (by omega)) (by rw [taken, List.length_nil, Nat.zero_add]) small
          rw [← cut] at ran
          rw [reach, ran, List.nil_append]
          cases next p (.str ((data.drop first).take n)) 0 <;> rfl
      · have long : run { p with status := .body [] n 0 } ((data.drop first).take n ++ data.drop (first + n)) = .error .capacity :=
          run_body_long p (by decide) (by rw [taken, List.length_nil, Nat.zero_add]) (by rw [taken, List.length_nil]; omega)
        rw [← cut] at long
        rw [stringCapacity_fails (Nat.not_lt.mp small), if_neg (by omega)]
        change _ = reach data first { p with status := .body [] n 0 }
        rw [reach, long]
        rfl

/-- What a complete header does, when the rest of the loop is right. -/
theorem store_eq {go : Stream → Nat → Except Fault (Stream × Nat)} (le : first ≤ data.length)
    (rest : ∀ q k, first ≤ k → k ≤ data.length → q.status.isNormal ∨ q.status.isDone → (go q k).map outcome = reach data k q)
    (item : Item) : (store data go p first item).map outcome = (act p item).bind (reach data first) := by
  have onward : ∀ v n k, first ≤ k → k ≤ data.length →
      ((next p v n).bind fun q => go q k).map outcome = (next p v n).bind (reach data k) := by
    intro v n k more inside
    cases h : next p v n with
    | error fault => rfl
    | ok q => exact rest q k more inside (next_ok h)
  cases item with
  | value v => exact onward v 0 first (Nat.le_refl _) le
  | array size =>
    rw [store, act]
    cases checkSize size with
    | error fault => rfl
    | ok n =>
      change ((p.json.resize n).bind _).map outcome = ((p.json.resize n).bind _).bind _
      cases p.json.resize n with
      | error fault => rfl
      | ok v => exact onward v n first (Nat.le_refl _) le
  | map size =>
    rw [store, act]
    cases checkSize size with
    | error fault => rfl
    | ok n => exact onward p.json.clear n first (Nat.le_refl _) le
  | raw size => exact store_raw le (fun v k => onward v 0 k) size

theorem normal_eq (normal : p.status.isNormal) : p = ⟨.normal, p.stack, p.json, p.jokey⟩ := by
  obtain ⟨status, stack, json, jokey⟩ := p
  cases status <;> first | rfl | cases normal

theorem step_bad (normal : p.status.isNormal) (kind : lead b = .bad) : step p b = .ok none := by
  rw [normal_eq normal]
  simp only [step, kind]

theorem step_now {item : Item} (normal : p.status.isNormal) (kind : lead b = .now item) :
    step p b = (act p item).map some := by
  rw [normal_eq normal]
  simp only [step, kind]

theorem step_wide (normal : p.status.isNormal) (kind : lead b = .wide n) :
    step p b = (inHeader p [b] n).map some := by
  rw [normal_eq normal]
  simp only [step, kind]

/-- The first byte of a header. -/
theorem run_wide (normal : p.status.isNormal) (kind : lead b = .wide n) :
    run p (b :: rest) = run { p with status := .header [b] } rest := by
  have two := (lead_wide kind).2
  rw [run, step_wide normal kind, inHeader, if_neg (by rw [List.length_singleton]; omega)]
  rfl

theorem loop_eq (normal : p.status.isNormal) (le : first ≤ data.length) (enough : data.length - first < fuel) :
    (loop data fuel p first).map outcome = reach data first p := by
  induction fuel generalizing p first with
  | zero => omega
  | succ fuel ih =>
    rw [loop]
    by_cases ended : first = data.length
    · subst ended
      have shape := normal_eq normal
      rw [if_pos rfl, reach, List.drop_length]
      change Except.ok ({ p with status := .normal }, data.length) = Except.ok (p, data.length - 0)
      rw [← shape, Nat.sub_zero]
    · have inside : first < data.length := by omega
      have here : data.drop first = data[first] :: data.drop (first + 1) := List.drop_eq_getElem_cons inside
      have read : readAt data first = .ok data[first] := by
        rw [readAt, List.getElem?_eq_getElem inside]
        rfl
      have go : ∀ q k, first + 1 ≤ k → k ≤ data.length → q.status.isNormal ∨ q.status.isDone →
          (if q.status.isNormal then loop data fuel q k else .ok (q, k)).map outcome = reach data k q := by
        intro q k more within kind
        split
        · exact ih ‹_› within (by omega)
        · rw [reach_done within (kind.resolve_left ‹_›)]
          change Except.ok (q.forget, k) = _
          rw [forget_eq kind]
      rw [if_neg ended, read]
      cases kind : lead data[first] with
      | bad =>
        have status : refuse p = { p with status := .error } := by
          rw [normal_eq normal]
          rfl
        rw [reach, here, run, step_bad normal kind]
        simp only [Except.bind, kind]
        rw [status, ← here]
        change _ = Except.ok (_, data.length - (data.drop first).length)
        rw [List.length_drop, Nat.sub_sub_self le]
        rfl
      | now item =>
        simp only [Except.bind, kind]
        rw [store_eq inside go item, reach, here, run, step_now normal kind]
        cases act p item <;> rfl
      | wide n =>
        obtain ⟨size, two⟩ := lead_wide kind
        have header : headerLength [data[first]] = n := size.symm
        simp only [Except.bind, kind]
        rw [reach, here, run_wide normal kind]
        split
        · rename_i short
          rw [slice_rest le, run_header_short p (by simp) (by
            rw [header, List.length_singleton, List.length_drop]
            omega), List.singleton_append, ← here]
          rfl
        · rename_i long
          have within : first + n ≤ data.length := by omega
          have cut : data.drop (first + 1) = (data.drop (first + 1)).take (n - 1) ++ data.drop (first + n) := by
            have next : first + 1 + (n - 1) = first + n := by omega
            have cut := (List.take_append_drop (n - 1) (data.drop (first + 1))).symm
            rwa [List.drop_drop, next] at cut
          have whole : (data.drop first).take n = [data[first]] ++ (data.drop (first + 1)).take (n - 1) := by
            obtain ⟨m, rfl⟩ : ∃ m, n = m + 1 := ⟨n - 1, by omega⟩
            rw [here]
            rfl
          rw [slice_eq within, cut, run_header p (by rw [ne_eq, List.take_eq_nil_iff, List.drop_eq_nil_iff]; omega)
            (by simp) (by rw [header, List.length_singleton, List.length_take, List.length_drop]; omega), ← whole]
          change (store data _ p (first + n) _).map outcome = _
          rw [store_eq within (fun q k more => go q k (by omega))]
          cases act p (decode ((data.drop first).take n)) <;> rfl

theorem resume_eq (le : first ≤ data.length) (kind : p.status.isNormal ∨ p.status.isDone) :
    (resume data p first).map outcome = reach data first p := by
  unfold resume
  split
  · exact loop_eq ‹_› le (by omega)
  · rw [reach_done le (kind.resolve_left ‹_›)]
    change Except.ok (p.forget, first) = _
    rw [forget_eq kind]

/-! ### Whole headers and strings -/

theorem run_now {item : Item} (normal : p.status.isNormal) (kind : lead b = .now item) :
    run p (b :: rest) = (act p item).bind fun q => run q rest := by
  rw [run, step_now normal kind]
  cases act p item <;> rfl

theorem run_far {w : Bytes} (normal : p.status.isNormal) (kind : lead b = .wide n) (size : w.length + 1 = n) :
    run p (b :: w ++ rest) = (act p (decode (b :: w))).bind fun q => run q rest := by
  obtain ⟨header, two⟩ := lead_wide kind
  have some_ : w ≠ [] := List.length_pos_iff.mp (by omega)
  rw [List.cons_append, run_wide normal kind]
  apply run_header p some_ (List.cons_ne_nil _ _)
  rw [List.length_singleton, Nat.add_comm, size]
  exact header

theorem run_raw (p : Stream) (small : s.length + 27 < 2 ^ 31) (rest : Bytes) :
    ((act p (.raw s.length)).bind fun q => run q (s ++ rest)) = (next p (.str s) 0).bind fun q => run q rest := by
  by_cases none_ : s = []
  · subst none_
    rfl
  · rw [act_raw p (fun zero => none_ (List.length_eq_zero_iff.mp zero)) (by omega)]
    exact run_body p none_ (by rw [List.length_nil, Nat.zero_add]) small

/-! ### Headers that end a range -/

theorem store_end {go : Stream → Nat → Except Fault (Stream × Nat)}
    (stops : ∀ q, q.status.isNormal ∨ q.status.isDone → go q data.length = .ok (q, data.length)) (item : Item) :
    store data go p data.length item = (act p item).map fun q => (q, data.length) := by
  have onward : ∀ v n, ((next p v n).bind fun q => go q data.length) = (next p v n).map fun q => (q, data.length) := by
    intro v n
    cases h : next p v n with
    | error fault => rfl
    | ok q => exact stops q (next_ok h)
  cases item with
  | value v => exact onward v 0
  | array size =>
    rw [store, act]
    cases checkSize size with
    | error fault => rfl
    | ok n =>
      change (p.json.resize n).bind _ = ((p.json.resize n).bind _).map _
      cases p.json.resize n with
      | error fault => rfl
      | ok v => exact onward v n
  | map size =>
    rw [store, act]
    cases checkSize size with
    | error fault => rfl
    | ok n => exact onward p.json.clear n
  | raw size =>
    rw [store, act]
    cases checkSize size with
    | error fault => rfl
    | ok n =>
      change (if (data.length : Int) - data.length < n then _ else _ : Except Fault (Stream × Nat)) =
        (if n = 0 then next p (.str []) 0 else .ok { p with status := .body [] n 0 }).map _
      by_cases none_ : n = 0
      · subst none_
        rw [if_neg (by omega), if_pos rfl, slice_eq (Nat.le_refl _), List.take_zero]
        exact onward (.str []) 0
      · rw [if_pos (by omega), if_neg none_, slice_rest (Nat.le_refl _), List.drop_length]
        rfl

theorem resume_header (kind : lead (data.headD 0) = .wide data.length) :
    resume data ⟨.normal, p.stack, p.json, p.jokey⟩ 0 = (act p (decode data)).map fun q => (q, data.length) := by
  obtain ⟨size, two⟩ := lead_wide kind
  cases data with
  | nil => exact absurd two (by decide)
  | cons b t =>
    have whole : slice (b :: t) 0 (b :: t).length = .ok (b :: t) := slice_rest (Nat.zero_le _)
    change lead b = .wide (b :: t).length at kind
    change loop (b :: t) ((b :: t).length + 1) _ 0 = _
    rw [loop, if_neg (Nat.ne_of_lt (Nat.zero_lt_of_lt two))]
    change (match lead b with | .bad => _ | .now item => _ | .wide n => _ : Except Fault (Stream × Nat)) = _
    simp only [kind]
    rw [if_neg (by omega), Nat.zero_add, whole]
    rw [Except.bind]
    refine (store_end ?_ _).trans ?_
    · intro q kind
      split
      · rename_i normal
        have shape := normal_eq normal
        rw [List.length_cons, loop, List.length_cons, if_pos rfl, shape]
      · rfl
    · rfl

/-! ### Calls -/

theorem ok_of_kind (kind : q.status.isNormal ∨ q.status.isDone) : Ok q := by
  obtain ⟨status, stack, json, jokey⟩ := q
  cases status with
  | header | body => exact kind.elim Bool.noConfusion Bool.noConfusion
  | final | error | normal => trivial

theorem ok_body {stack : List Frame} {json jokey : Node} (less : saved.length < n) :
    Ok ⟨.body saved n 0, stack, json, jokey⟩ := ⟨less, by omega⟩

theorem act_ok {item : Item} (h : act p item = .ok q) : Ok q := by
  cases item with
  | value v => exact ok_of_kind (next_ok h)
  | array size =>
    obtain ⟨n, -, h⟩ := bind_eq_ok.mp h
    obtain ⟨v, -, h⟩ := bind_eq_ok.mp h
    exact ok_of_kind (next_ok h)
  | map size =>
    obtain ⟨n, -, h⟩ := bind_eq_ok.mp h
    exact ok_of_kind (next_ok h)
  | raw size =>
    obtain ⟨n, -, h⟩ := bind_eq_ok.mp h
    split at h
    · exact ok_of_kind (next_ok h)
    · obtain rfl := Except.ok.inj h
      exact ok_body (Nat.pos_of_ne_zero ‹_›)

section calls
variable {stack : List Frame} {json jokey : Node}

theorem headerSize_eq (started : saved ≠ []) : headerSize saved = .ok (headerLength saved) := by
  cases saved with
  | nil => exact absurd rfl started
  | cons b t => rfl

theorem slice_start (le : k ≤ data.length) : slice data 0 k = .ok (data.take k) := by
  rw [slice, if_pos ⟨Nat.zero_le _, le⟩]
  rfl

theorem fill_short (short : saved.length + data.length < n) : fill data saved n = .ok (saved ++ data, data.length) := by
  have next : (if (data.length : Int) < n - saved.length then data.length else n - saved.length) = data.length :=
    if_pos (by omega)
  rw [fill, next, slice_start (Nat.le_refl _), List.take_length]
  rfl

theorem fill_full (enough : n ≤ saved.length + data.length) :
    fill data saved n = .ok (saved ++ data.take (n - saved.length), n - saved.length) := by
  have next : (if (data.length : Int) < n - saved.length then data.length else n - saved.length) = n - saved.length :=
    if_neg (by omega)
  rw [fill, next, slice_start (by omega)]
  rfl

theorem consume_header_short (started : saved ≠ []) (short : saved.length + data.length < headerLength saved) :
    consume ⟨.header saved, stack, json, jokey⟩ data =
      .ok (⟨.header (saved ++ data), stack, json, jokey⟩, data.length) := by
  simp only [consume, headerSize_eq started, Except.bind, fill_short short]
  rw [if_pos (by rw [List.length_append]; omega)]

theorem consume_header (started : saved ≠ []) (kind : lead (saved.headD 0) = .wide n) (less : saved.length < n)
    (enough : n ≤ saved.length + data.length) :
    consume ⟨.header saved, stack, json, jokey⟩ data =
      (act ⟨.normal, stack, json, jokey⟩ (decode (saved ++ data.take (n - saved.length)))).bind fun q =>
        resume data q (n - saved.length) := by
  cases saved with
  | nil => exact absurd rfl started
  | cons b t =>
    change lead b = .wide n at kind
    have size : headerLength (b :: t) = n := (lead_wide kind).1.symm
    simp only [consume, headerSize_eq started, size, Except.bind, fill_full enough]
    generalize taken : data.take (n - (b :: t).length) = s
    have length : (b :: t ++ s).length = n := by
      rw [← taken, List.length_append, List.length_take]
      omega
    have first : (b :: t ++ s).headD 0 = b := rfl
    have nested := @resume_header ⟨.normal, stack, json, jokey⟩ (b :: t ++ s) (by rw [first, length, kind])
    rw [if_neg (by rw [length, not_not]), nested]
    cases act ⟨.normal, stack, json, jokey⟩ (decode (b :: t ++ s)) <;> rfl

theorem consume_body_short (short : saved.length + data.length < n) :
    consume ⟨.body saved n capacity, stack, json, jokey⟩ data =
      (appendUninitialized capacity saved.length data.length).map fun c =>
        (⟨.body (saved ++ data) n c, stack, json, jokey⟩, data.length) := by
  simp only [consume, Except.bind, fill_short short]
  cases appendUninitialized capacity saved.length data.length with
  | error fault => rfl
  | ok c => exact if_pos (by rw [List.length_append]; omega)

theorem consume_body (less : saved.length < n) (enough : n ≤ saved.length + data.length) :
    consume ⟨.body saved n capacity, stack, json, jokey⟩ data =
      (appendUninitialized capacity saved.length (n - saved.length)).bind fun _ =>
        (next ⟨.normal, stack, json, jokey⟩ (.str (saved ++ data.take (n - saved.length))) 0).bind fun q =>
          resume data q (n - saved.length) := by
  simp only [consume, Except.bind, fill_full enough]
  cases appendUninitialized capacity saved.length (n - saved.length) with
  | error fault => rfl
  | ok c => exact if_neg (by rw [List.length_append, List.length_take]; omega)

end calls

theorem step_header (p : Stream) : step { p with status := .header saved } b =
    (inHeader { p with status := .header saved } (saved ++ [b]) (headerLength (saved ++ [b]))).map some := rfl

theorem map_some {x : Except Fault Stream} (h : x.map some = .ok (some q)) : x = .ok q := by
  obtain ⟨r, made, same⟩ := map_eq_ok.mp h
  rw [made, Option.some.inj same]

theorem step_ok (ok : Ok p) (h : step p b = .ok (some q)) : Ok q := by
  obtain ⟨status, stack, json, jokey⟩ := p
  cases status with
  | final | error => cases h
  | normal =>
    cases kind : lead b with
    | bad =>
      rw [step_bad rfl kind] at h
      cases h
    | now item =>
      rw [step_now rfl kind] at h
      exact act_ok (map_some h)
    | wide n =>
      have two := (lead_wide kind).2
      rw [step_wide rfl kind, inHeader, if_neg (by rw [List.length_singleton]; omega)] at h
      obtain rfl := Option.some.inj (Except.ok.inj h)
      exact ⟨b, [], n, rfl, kind, two⟩
  | header saved =>
    obtain ⟨c, t, n, rfl, kind, less⟩ := ok
    have size : headerLength (c :: t ++ [b]) = n := (lead_wide kind).1.symm
    rw [step_header ⟨.normal, stack, json, jokey⟩, size, inHeader, act_status] at h
    split at h
    · exact act_ok (map_some h)
    · rename_i short
      obtain rfl := Option.some.inj (Except.ok.inj h)
      refine ⟨c, t ++ [b], n, rfl, kind, ?_⟩
      simp only [List.length_append, List.length_cons, List.length_nil] at short less ⊢
      omega
  | body saved n capacity =>
    have less : saved.length < n := ok.1
    change (inBody ⟨.body saved n capacity, stack, json, jokey⟩ (saved ++ [b]) n).map some = _ at h
    have made := map_some h
    unfold inBody at made
    split at made
    · cases made
    split at made
    · exact ok_of_kind (next_ok made)
    · rename_i short
      obtain rfl := Except.ok.inj made
      refine ok_body ?_
      rw [List.length_append, List.length_singleton] at short ⊢
      omega

theorem run_ok (ok : Ok p) (h : run p s = .ok (q, rest)) : Ok q := by
  induction s generalizing p with
  | nil =>
    obtain ⟨rfl, -⟩ := Prod.mk.inj (Except.ok.inj h)
    exact ok
  | cons b t ih =>
    rw [run] at h
    cases taken : step p b with
    | error fault =>
      rw [taken] at h
      cases h
    | ok next =>
      rw [taken] at h
      cases next with
      | none =>
        obtain ⟨rfl, -⟩ := Prod.mk.inj (Except.ok.inj h)
        exact ok_of_kind (.inr (refuse_done p))
      | some p' => exact ih (step_ok ok taken) h

structure Left (s : Bytes) (q : Stream) (rest : Bytes) : Prop where
  le : rest.length ≤ s.length
  suffix : rest = s.drop (s.length - rest.length)
  done : rest ≠ [] → q.status.isDone
  moves : s ≠ [] → rest.length < s.length ∨ q.status.isDone

theorem run_left (h : run p s = .ok (q, rest)) : Left s q rest := by
  induction s generalizing p with
  | nil =>
    obtain ⟨-, rfl⟩ := Prod.mk.inj (Except.ok.inj h)
    exact ⟨Nat.le_refl _, rfl, fun ne => absurd rfl ne, fun ne => absurd rfl ne⟩
  | cons b t ih =>
    rw [run] at h
    cases taken : step p b with
    | error fault =>
      rw [taken] at h
      cases h
    | ok next =>
      rw [taken] at h
      cases next with
      | none =>
        obtain ⟨rfl, rfl⟩ := Prod.mk.inj (Except.ok.inj h)
        refine ⟨Nat.le_refl _, ?_, fun _ => refuse_done p, fun _ => .inr (refuse_done p)⟩
        rw [Nat.sub_self, List.drop_zero]
      | some p' =>
        have left := ih h
        have shorter := left.le
        refine ⟨Nat.le_succ_of_le shorter, ?_, left.done, fun _ => .inl (Nat.lt_succ_of_le shorter)⟩
        rw [List.length_cons, Nat.succ_sub shorter]
        exact left.suffix

/-- The rest of a range after a call that went as far as a run goes. -/
theorem reach_run (p : Stream) (le : first ≤ data.length) :
    run p (data.drop first) = (reach data first p).bind fun r => run r.1 (data.drop r.2) := by
  unfold reach
  cases result : run p (data.drop first) with
  | error fault => rfl
  | ok r =>
    have left := run_left result
    have shorter := left.le
    have suffix := left.suffix
    rw [List.length_drop] at shorter suffix
    rw [List.drop_drop] at suffix
    have place : first + (data.length - first - r.2.length) = data.length - r.2.length := by omega
    rw [place] at suffix
    change _ = run r.1 (data.drop (data.length - r.2.length))
    rw [← suffix]
    by_cases none : r.2 = []
    · rw [none]
      exact congrArg Except.ok (Prod.ext rfl none)
    · rw [run_done (left.done none)]

/-! ### The memo of a string -/

/-- There is room for what a call appends to `str_`. -/
def Takes (p : Stream) (data : Bytes) : Prop :=
  match p.status with
  | .body saved n capacity => Roomy capacity saved.length (min data.length (n - saved.length))
  | _ => True

/-- The capacity of the memo is below a bound. -/
def Bounded (m : Nat) (p : Stream) : Prop :=
  match p.status with
  | .body _ _ capacity => capacity + 27 < m
  | _ => True

/-- So is the capacity for whatever is copied of the range. -/
def Copies (m : Nat) (data : Bytes) : Prop := ∀ len c, len ≤ data.length → stringCapacity len = .ok c → c + 27 < m

theorem copies_int (data : Bytes) : Copies (2 ^ 31) data := by
  intro len c _ made
  by_cases small : len + 27 < 2 ^ 31
  · obtain ⟨c', made', bound⟩ := stringCapacity_eq small
    obtain rfl := Except.ok.inj (made.symm.trans made')
    exact bound
  · cases made.symm.trans (stringCapacity_fails (Nat.not_lt.mp small))

theorem ok_iff : Ok p ↔ Ok p.forget ∧ Bounded (2 ^ 31) p := by
  obtain ⟨status, stack, json, jokey⟩ := p
  cases status with
  | body saved n capacity => exact ⟨fun ok => ⟨⟨ok.1, by decide⟩, ok.2⟩, fun ok => ⟨ok.1.1, ok.2⟩⟩
  | final | error | normal | header => exact ⟨fun ok => ⟨ok, trivial⟩, And.left⟩

theorem bounded_of_kind (m : Nat) (kind : q.status.isNormal ∨ q.status.isDone) : Bounded m q := by
  obtain ⟨status, stack, json, jokey⟩ := q
  cases status with
  | header | body => exact kind.elim Bool.noConfusion Bool.noConfusion
  | final | error | normal => trivial

theorem store_bounded {m : Nat} {go : Stream → Nat → Except Fault (Stream × Nat)} {r : Stream × Nat} {item : Item}
    (copies : Copies m data) (rest : ∀ q k, q.status.isNormal ∨ q.status.isDone → go q k = .ok r → Bounded m r.1)
    (h : store data go p first item = .ok r) : Bounded m r.1 := by
  have onward : ∀ {v n k}, ((next p v n).bind fun q => go q k) = .ok r → Bounded m r.1 := by
    intro v n k h
    obtain ⟨q, made, h⟩ := bind_eq_ok.mp h
    exact rest q k (next_ok made) h
  cases item with
  | value v => exact onward h
  | array size =>
    obtain ⟨n, -, h⟩ := bind_eq_ok.mp h
    obtain ⟨v, -, h⟩ := bind_eq_ok.mp h
    exact onward h
  | map size =>
    obtain ⟨n, -, h⟩ := bind_eq_ok.mp h
    exact onward h
  | raw size =>
    obtain ⟨n, -, h⟩ := bind_eq_ok.mp h
    split at h
    · obtain ⟨s, sliced, h⟩ := bind_eq_ok.mp h
      obtain ⟨c, made, rfl⟩ := map_eq_ok.mp h
      exact copies _ c (slice_length sliced) made
    · obtain ⟨s, -, h⟩ := bind_eq_ok.mp h
      obtain ⟨c, -, h⟩ := bind_eq_ok.mp h
      exact onward h

theorem loop_bounded {m : Nat} {r : Stream × Nat} (copies : Copies m data) (h : loop data fuel p first = .ok r) : Bounded m r.1 := by
  induction fuel generalizing p first with
  | zero => cases h
  | succ fuel ih =>
    have rest : ∀ q k, q.status.isNormal ∨ q.status.isDone →
        (if q.status.isNormal then loop data fuel q k else .ok (q, k)) = .ok r → Bounded m r.1 := by
      intro q k kind h
      split at h
      · exact ih h
      · obtain rfl := Except.ok.inj h
        exact bounded_of_kind m kind
    rw [loop] at h
    split at h
    · obtain rfl := Except.ok.inj h
      trivial
    · obtain ⟨b, -, h⟩ := bind_eq_ok.mp h
      cases kind : lead b with
      | bad =>
        simp only [kind] at h
        obtain rfl := Except.ok.inj h
        trivial
      | now item =>
        simp only [kind] at h
        exact store_bounded copies rest h
      | wide n =>
        simp only [kind] at h
        split at h
        · obtain ⟨s, -, rfl⟩ := map_eq_ok.mp h
          trivial
        · obtain ⟨s, -, h⟩ := bind_eq_ok.mp h
          exact store_bounded copies rest h

theorem resume_bounded {m : Nat} (copies : Copies m data) (bounded : Bounded m p) {r : Stream × Nat}
    (h : resume data p first = .ok r) : Bounded m r.1 := by
  unfold resume at h
  split at h
  · exact loop_bounded copies h
  · obtain rfl := Except.ok.inj h
    exact bounded

end Masstree.Msgpack.Stream
