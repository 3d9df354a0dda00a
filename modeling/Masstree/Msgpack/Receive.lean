import Masstree.Msgpack.Chunks

/-!
# Chunks

`consume` is called with one range after another, and what a call leaves of a range is for the next call. Only a string that is read on
can tell where a range was cut.
-/

namespace Masstree.Msgpack.Stream
open Results

variable {p q : Stream} {data s t rest saved : Bytes} {b : UInt8} {n k first fuel capacity : Nat} {fault : Fault}

/-- What comes to a string that was begun before the range, or whose header was: the capacity of `str_`, its length, and the bytes. -/
def resumed (p : Stream) (data : Bytes) : Option (Nat × Nat × Nat) :=
  match p.status with
  | .body saved n capacity => some (capacity, saved.length, min data.length (n - saved.length))
  | .header saved =>
    if data.length < headerLength saved - saved.length then none
    else match decode (saved ++ data.take (headerLength saved - saved.length)) with
      | .raw n => if n < 2 ^ 31 then some (0, 0, min (data.length - (headerLength saved - saved.length)) n) else none
      | _ => none
  | _ => none

def Room (p : Stream) (data : Bytes) : Prop := ∀ r ∈ resumed p data, Roomy r.1 r.2.1 r.2.2

/-- `receive` on a chunk: what a call leaves of it is for the next call. `fuel` bounds the calls. -/
def feed : Nat → Stream → Bytes → Except Fault (Stream × Nat)
  | 0, _, _ => .error .endless
  | fuel + 1, p, data =>
    if p.status.isDone ∨ data = [] then .ok (p, 0)
    else
      (consume p data).bind fun r => (feed fuel r.1 (data.drop r.2)).map fun s => (s.1, r.2 + s.2)

/-- `receive` on the chunks as they come, until the parser is done. -/
def feedChunks : Stream → List Bytes → Except Fault (Stream × Nat)
  | p, [] => .ok (p, 0)
  | p, data :: chunks =>
    if p.status.isDone then .ok (p, 0)
    else
      (feed (data.length + 1) p data).bind fun r => (feedChunks r.1 chunks).map fun s => (s.1, r.2 + s.2)

/-! ### A call -/

theorem act_cases {item : Item} (h : act p item = .ok q) : (q.status.isNormal ∨ q.status.isDone) ∨
    ∃ n, item = .raw n ∧ n ≠ 0 ∧ n < 2 ^ 31 ∧ q = { p with status := .body [] n 0 } := by
  cases item with
  | value v => exact .inl (next_ok h)
  | array size =>
    obtain ⟨n, -, h⟩ := bind_eq_ok.mp h
    obtain ⟨v, -, h⟩ := bind_eq_ok.mp h
    exact .inl (next_ok h)
  | map size =>
    obtain ⟨n, -, h⟩ := bind_eq_ok.mp h
    exact .inl (next_ok h)
  | raw size =>
    obtain ⟨n, checked, made⟩ := bind_eq_ok.mp h
    obtain ⟨rfl, small⟩ := checkSize_ok checked
    split at made
    · exact .inl (next_ok made)
    · exact .inr ⟨n, rfl, ‹_›, small, (Except.ok.inj made).symm⟩

theorem act_forget {item : Item} (h : act p item = .ok q) : q.forget = q := by
  rcases act_cases h with kind | ⟨n, -, -, -, rfl⟩
  · exact forget_eq kind
  · rfl

/-- A parser that waits for a string takes nothing, and the next call goes on there. -/
theorem resume_run (q : Stream) (le : first ≤ data.length) :
    run q.forget (data.drop first) = (resume data q first).bind fun r => run r.1.forget (data.drop r.2) := by
  by_cases normal : q.status.isNormal
  · rw [forget_eq (.inl normal), reach_run q le, ← resume_eq le (.inl normal), bind_map]
    rfl
  · rw [resume, if_neg normal]
    rfl

theorem take_ne (less : saved.length < n) (enough : n ≤ saved.length + data.length) : data.take (n - saved.length) ≠ [] := by
  intro none
  have zero := congrArg List.length none
  rw [List.length_take, List.length_nil] at zero
  omega

/-- A call does a part of the range, and leaves the rest of it to the next call. -/
theorem consume_run (ok : Ok p) (takes : Takes p data) :
    run p.forget data = (consume p data).bind fun r => run r.1.forget (data.drop r.2) := by
  obtain ⟨status, stack, json, jokey⟩ := p
  cases status with
  | final | error => rfl
  | normal => exact resume_run ⟨.normal, stack, json, jokey⟩ (Nat.zero_le _)
  | header saved =>
    obtain ⟨b, t, n, rfl, kind, less⟩ := ok
    have size : headerLength (b :: t) = n := (lead_wide kind).1.symm
    by_cases short : (b :: t).length + data.length < n
    · rw [← size] at short
      rw [consume_header_short (List.cons_ne_nil _ _) short]
      change _ = run ⟨.header (b :: t ++ data), stack, json, jokey⟩ (data.drop data.length)
      rw [List.drop_length]
      exact run_header_short ⟨.normal, stack, json, jokey⟩ (List.cons_ne_nil _ _) short
    · rw [consume_header (List.cons_ne_nil _ _) kind less (by omega)]
      have cut : data = data.take (n - (b :: t).length) ++ data.drop (n - (b :: t).length) :=
        (List.take_append_drop _ _).symm
      change run ⟨.header (b :: t), stack, json, jokey⟩ data = _
      conv_lhs => rw [cut]
      rw [run_header ⟨.normal, stack, json, jokey⟩ (take_ne less (by omega)) (List.cons_ne_nil _ _)
        (by rw [size, List.length_take]; omega)]
      cases acted : act ⟨.normal, stack, json, jokey⟩ (decode (b :: t ++ data.take (n - (b :: t).length))) with
      | error fault => rfl
      | ok q =>
        change run q _ = (resume data q _).bind _
        rw [← resume_run q (by omega), act_forget acted]
  | body saved n capacity =>
    obtain ⟨less, bound⟩ : saved.length < n ∧ capacity + 27 < 2 ^ 31 := ok
    change Roomy capacity saved.length (min data.length (n - saved.length)) at takes
    change run ⟨.body saved n 0, stack, json, jokey⟩ data = _
    by_cases short : saved.length + data.length < n
    · rw [Nat.min_eq_left (by omega)] at takes
      obtain ⟨c, appended, -⟩ := appendUninitialized_eq takes
      rw [consume_body_short short, appended]
      change _ = run ⟨.body (saved ++ data) n 0, stack, json, jokey⟩ (data.drop data.length)
      rw [List.drop_length]
      exact run_body_short ⟨.normal, stack, json, jokey⟩ short (takes.small bound)
    · rw [Nat.min_eq_right (by omega)] at takes
      obtain ⟨c, appended, -⟩ := appendUninitialized_eq takes
      have small : n + 27 < 2 ^ 31 := by
        have fits := (takes.small bound).resolve_left (by omega)
        omega
      rw [consume_body less (by omega), appended]
      have cut : data = data.take (n - saved.length) ++ data.drop (n - saved.length) := (List.take_append_drop _ _).symm
      conv_lhs => rw [cut]
      rw [run_body ⟨.normal, stack, json, jokey⟩ (take_ne less (by omega)) (by rw [List.length_take]; omega) small]
      change _ = ((next ⟨.normal, stack, json, jokey⟩ (.str (saved ++ data.take (n - saved.length))) 0).bind _).bind _
      cases made : next ⟨.normal, stack, json, jokey⟩ (.str (saved ++ data.take (n - saved.length))) 0 with
      | error fault => rfl
      | ok q =>
        change run q _ = (resume data q _).bind _
        rw [← resume_run q (by omega), forget_eq (next_ok made)]

structure Ended (data : Bytes) (first : Nat) (p q : Stream) (k : Nat) : Prop where
  ok : Ok q
  inside : k ≤ data.length
  more : first ≤ k
  moves : p.status.isNormal → first < data.length → first < k ∨ q.status.isDone
  done : p.status.isNormal ∨ p.status.isDone → k < data.length → q.status.isDone
  took : q.status.isDone ∨ run p.forget ((data.drop first).take (k - first)) = .ok (q.forget, [])

theorem resume_ended (ok : Ok p) (le : first ≤ data.length) (h : resume data p first = .ok (q, k)) : Ended data first p q k := by
  by_cases normal : p.status.isNormal
  · have reached := resume_eq le (.inl normal)
    rw [h] at reached
    change Except.ok (q.forget, k) = _ at reached
    obtain ⟨r, ran, same⟩ := map_eq_ok.mp reached.symm
    obtain ⟨forgot, rfl⟩ := Prod.mk.inj same
    have left := run_left ran
    have shorter := left.le
    rw [List.length_drop] at shorter
    have ok' : Ok q := ok_iff.mpr ⟨forgot ▸ run_ok ok ran, resume_bounded (copies_int data) (ok_iff.mp ok).2 h⟩
    have done : r.2 ≠ [] → q.status.isDone := fun some_ => by
      have done := left.done some_
      rwa [forgot, forget_isDone] at done
    refine ⟨ok', by omega, by omega, fun _ inside => ?_, fun _ before => done (List.length_pos_iff.mp (by omega)), ?_⟩
    · have moves := left.moves (by rw [ne_eq, List.drop_eq_nil_iff]; omega)
      rw [List.length_drop, forgot, forget_isDone] at moves
      exact moves.imp_left (by omega)
    · by_cases rest : r.2 = []
      · right
        rw [List.take_of_length_le (by rw [List.length_drop, rest, List.length_nil]; omega), forget_eq (.inl normal), ran,
          ← rest, ← forgot]
      · exact .inl (done rest)
  · rw [resume, if_neg normal] at h
    obtain ⟨rfl, rfl⟩ := Prod.mk.inj (Except.ok.inj h)
    refine ⟨ok, le, Nat.le_refl _, fun yes => absurd yes normal, fun kind _ => kind.resolve_left normal, .inr ?_⟩
    rw [Nat.sub_self, List.take_zero]
    rfl

/-- A call stays in the range, moves or is done, and leaves the parser with room for the rest if it had room. -/
structure Called (p : Stream) (data : Bytes) (q : Stream) (k : Nat) : Prop where
  ok : Ok q
  inside : k ≤ data.length
  moves : data ≠ [] ∨ p.status.isDone → 0 < k ∨ q.status.isDone
  room : Room p data → Room q (data.drop k)
  took : q.status.isDone ∨ run p.forget (data.take k) = .ok (q.forget, [])
  bounded : ∀ m, 2 ^ 30 + 16 ≤ m → Copies m data → Bounded m p → Bounded m q

theorem room_of_done (done : q.status.isDone) (data : Bytes) : Room q data := by
  obtain ⟨status, stack, json, jokey⟩ := q
  cases status with
  | final | error =>
    intro r mem
    cases mem
  | normal | header | body => cases done

theorem roomy_zero : Roomy capacity k 0 := .inl rfl

theorem room_nil (ok : Ok p) : Room p [] := by
  obtain ⟨status, stack, json, jokey⟩ := p
  cases status with
  | final | error | normal =>
    intro r mem
    cases mem
  | body saved n capacity =>
    intro r mem
    obtain rfl := Option.some.inj mem
    rw [List.length_nil, Nat.zero_min]
    exact roomy_zero
  | header saved =>
    obtain ⟨b, t, n, rfl, kind, less⟩ := ok
    have size : headerLength (b :: t) = n := (lead_wide kind).1.symm
    intro r mem
    have none_ : resumed ⟨.header (b :: t), stack, json, jokey⟩ [] = none := by
      rw [resumed]
      exact if_pos (by rw [size, List.length_nil]; omega)
    rw [none_] at mem
    cases mem

/-- What a loop leaves of a range has room. -/
theorem Ended.room (ended : Ended data first p q k) (kind : p.status.isNormal ∨ p.status.isDone) : Room q (data.drop k) := by
  by_cases before : k < data.length
  · exact room_of_done (ended.done kind before) _
  · rw [List.drop_eq_nil_of_le (Nat.le_of_not_lt before)]
    exact room_nil ended.ok

section calls
variable {stack : List Frame} {json jokey : Node}

theorem called_normal (h : consume ⟨.normal, stack, json, jokey⟩ data = .ok (q, k)) : Called ⟨.normal, stack, json, jokey⟩ data q k := by
  have ok : Ok ⟨.normal, stack, json, jokey⟩ := trivial
  have ended := resume_ended ok (Nat.zero_le _) h
  exact {
    ok := ended.ok
    inside := ended.inside
    moves := fun some_ => ended.moves rfl (List.length_pos_iff.mpr (some_.resolve_right Bool.noConfusion))
    room := fun _ => ended.room (.inl rfl)
    took := ended.took
    bounded := fun m _ copies _ => resume_bounded copies (bounded_of_kind m (.inl rfl)) h }

theorem called_header_short {t : Bytes} (kind : lead b = .wide n) (short : (b :: t).length + data.length < n)
    (h : consume ⟨.header (b :: t), stack, json, jokey⟩ data = .ok (q, k)) : Called ⟨.header (b :: t), stack, json, jokey⟩ data q k := by
  have size : headerLength (b :: t) = n := (lead_wide kind).1.symm
  have within := short
  rw [← size] at within
  rw [consume_header_short (List.cons_ne_nil _ _) within] at h
  obtain ⟨rfl, rfl⟩ := Prod.mk.inj (Except.ok.inj h)
  have ok' : Ok ⟨.header (b :: t ++ data), stack, json, jokey⟩ :=
    ⟨b, t ++ data, n, rfl, kind, by rw [List.length_append]; exact short⟩
  refine ⟨ok', Nat.le_refl _, fun some_ => ?_, fun _ => ?_, .inr ?_, fun _ _ _ _ => trivial⟩
  · exact .inl (List.length_pos_iff.mpr (some_.resolve_right Bool.noConfusion))
  · rw [List.drop_length]
    exact room_nil ok'
  · rw [List.take_length]
    exact run_header_short ⟨.normal, stack, json, jokey⟩ (List.cons_ne_nil _ _) within

/-- The string behind a header is for the next call. -/
theorem resumed_header {t : Bytes} {m : Nat} (kind : lead b = .wide n) (enough : n ≤ (b :: t).length + data.length)
    (item : decode (b :: t ++ data.take (n - (b :: t).length)) = .raw m) (small : m < 2 ^ 31) :
    resumed ⟨.header (b :: t), stack, json, jokey⟩ data = some (0, 0, min (data.length - (n - (b :: t).length)) m) := by
  have size : headerLength (b :: t) = n := (lead_wide kind).1.symm
  rw [resumed]
  dsimp only
  rw [size, if_neg (by omega), item]
  exact if_pos small

theorem called_header {t : Bytes} (kind : lead b = .wide n) (less : (b :: t).length < n) (enough : n ≤ (b :: t).length + data.length)
    (h : consume ⟨.header (b :: t), stack, json, jokey⟩ data = .ok (q, k)) : Called ⟨.header (b :: t), stack, json, jokey⟩ data q k := by
  have size : headerLength (b :: t) = n := (lead_wide kind).1.symm
  rw [consume_header (List.cons_ne_nil _ _) kind less enough] at h
  obtain ⟨r, acted, h⟩ := bind_eq_ok.mp h
  have ended := resume_ended (act_ok acted) (by omega) h
  have more := ended.more
  refine ⟨ended.ok, ended.inside, fun _ => .inl (by omega), fun room => ?_, ended.took.imp_right fun took => ?_,
    fun m wide copies _ => ?_⟩
  · rcases act_cases acted with kind' | ⟨m, item, some_, small, rfl⟩
    · exact ended.room kind'
    · rw [resume, if_neg Bool.noConfusion] at h
      obtain ⟨rfl, rfl⟩ := Prod.mk.inj (Except.ok.inj h)
      intro r mem
      obtain rfl := Option.some.inj mem
      rw [List.length_drop]
      exact room _ (resumed_header kind enough item small)
  · have cut : k = n - (b :: t).length + (k - (n - (b :: t).length)) := by omega
    rw [cut, List.take_add]
    change run ⟨.header (b :: t), stack, json, jokey⟩ _ = _
    rw [run_header ⟨.normal, stack, json, jokey⟩ (take_ne less enough) (List.cons_ne_nil _ _)
      (by rw [size, List.length_take]; omega), acted]
    rw [act_forget acted] at took
    exact took
  · refine resume_bounded copies ?_ h
    rcases act_cases acted with kind' | ⟨_, -, -, -, rfl⟩
    · exact bounded_of_kind m kind'
    · exact Nat.lt_of_lt_of_le (by decide) wide

theorem called_body_short (bound : capacity + 27 < 2 ^ 31) (short : saved.length + data.length < n)
    (h : consume ⟨.body saved n capacity, stack, json, jokey⟩ data = .ok (q, k)) :
    Called ⟨.body saved n capacity, stack, json, jokey⟩ data q k := by
  rw [consume_body_short short] at h
  obtain ⟨c, appended, same⟩ := map_eq_ok.mp h
  obtain ⟨rfl, rfl⟩ := Prod.mk.inj same
  have roomy : Roomy capacity saved.length data.length := by
    by_contra full
    cases appended.symm.trans (appendUninitialized_fails full)
  obtain ⟨c', appended', memo⟩ := appendUninitialized_eq roomy
  obtain rfl := Except.ok.inj (appended.symm.trans appended')
  unfold memoSpace at memo
  have ok' : Ok ⟨.body (saved ++ data) n c, stack, json, jokey⟩ := ⟨by rwa [List.length_append], by omega⟩
  refine ⟨ok', Nat.le_refl _, fun some_ => ?_, fun _ => ?_, .inr ?_, fun m wide _ low => ?_⟩
  · exact .inl (List.length_pos_iff.mpr (some_.resolve_right Bool.noConfusion))
  · rw [List.drop_length]
    exact room_nil ok'
  · rw [List.take_length]
    exact run_body_short ⟨.normal, stack, json, jokey⟩ short (roomy.small bound)
  · have low : capacity + 27 < m := low
    exact show c + 27 < m by omega

theorem called_body (less : saved.length < n) (bound : capacity + 27 < 2 ^ 31) (enough : n ≤ saved.length + data.length)
    (h : consume ⟨.body saved n capacity, stack, json, jokey⟩ data = .ok (q, k)) :
    Called ⟨.body saved n capacity, stack, json, jokey⟩ data q k := by
  rw [consume_body less enough] at h
  obtain ⟨c, appended, h⟩ := bind_eq_ok.mp h
  obtain ⟨r, made, h⟩ := bind_eq_ok.mp h
  have kind := next_ok made
  have ended := resume_ended (ok_of_kind kind) (by omega) h
  have more := ended.more
  have roomy : Roomy capacity saved.length (n - saved.length) := by
    by_contra full
    cases appended.symm.trans (appendUninitialized_fails full)
  have small := (roomy.small bound).resolve_left (by omega)
  refine ⟨ended.ok, ended.inside, fun _ => .inl (by omega), fun _ => ended.room kind, ended.took.imp_right fun took => ?_,
    fun m _ copies _ => resume_bounded copies (bounded_of_kind m kind) h⟩
  have cut : k = n - saved.length + (k - (n - saved.length)) := by omega
  rw [cut, List.take_add]
  change run ⟨.body saved n 0, stack, json, jokey⟩ _ = _
  rw [run_body ⟨.normal, stack, json, jokey⟩ (take_ne less enough) (by rw [List.length_take]; omega) (by omega), made]
  rw [forget_eq kind] at took
  exact took

end calls

theorem consume_called (ok : Ok p) (h : consume p data = .ok (q, k)) : Called p data q k := by
  obtain ⟨status, stack, json, jokey⟩ := p
  cases status with
  | final | error =>
    obtain ⟨rfl, rfl⟩ := Prod.mk.inj (Except.ok.inj h)
    exact ⟨ok, Nat.zero_le _, fun _ => .inr rfl, id, .inl rfl, fun _ _ _ low => low⟩
  | normal => exact called_normal h
  | header saved =>
    obtain ⟨b, t, n, rfl, kind, less⟩ := ok
    by_cases short : (b :: t).length + data.length < n
    · exact called_header_short kind short h
    · exact called_header kind less (Nat.le_of_not_lt short) h
  | body saved n capacity =>
    by_cases short : saved.length + data.length < n
    · exact called_body_short ok.2 short h
    · exact called_body ok.1 ok.2 (Nat.le_of_not_lt short) h

theorem Room.takes (room : Room p data) : Takes p data := by
  obtain ⟨status, stack, json, jokey⟩ := p
  cases status with
  | body saved n capacity => exact room _ rfl
  | final | error | normal | header => trivial

/-! ### A run of calls -/

theorem feed_run (ok : Ok p) (room : Room p data) (enough : data.length < fuel) :
    (feed fuel p data).map outcome = (run p.forget data).map fun r => (r.1, data.length - r.2.length) := by
  induction fuel generalizing p data with
  | zero => omega
  | succ fuel ih =>
    rw [feed]
    split
    · rename_i stop
      rcases stop with done | rfl
      · rw [run_done ((forget_isDone p).trans done)]
        change Except.ok (p.forget, 0) = Except.ok (p.forget, data.length - data.length)
        rw [Nat.sub_self]
      · rfl
    · rename_i going
      have some_ : data ≠ [] := fun none => going (.inr none)
      have positive := List.length_pos_iff.mpr some_
      rw [consume_run ok room.takes]
      cases called : consume p data with
      | error fault => rfl
      | ok r =>
        obtain ⟨q, k⟩ := r
        obtain ⟨ok', inside, moves, room'⟩ := consume_called ok called
        have rest : (feed fuel q (data.drop k)).map outcome =
            (run q.forget (data.drop k)).map fun r => (r.1, (data.drop k).length - r.2.length) := by
          rcases moves (.inl some_) with more | done
          · exact ih ok' (room' room) (by rw [List.length_drop]; omega)
          · obtain ⟨m, rfl⟩ : ∃ m, fuel = m + 1 := ⟨fuel - 1, by omega⟩
            rw [feed, if_pos (.inl done), run_done ((forget_isDone q).trans done)]
            change Except.ok (q.forget, 0) = Except.ok (q.forget, _ - _)
            rw [Nat.sub_self]
        change ((feed fuel q (data.drop k)).map fun s => (s.1, k + s.2)).map outcome = (run q.forget (data.drop k)).map _
        rw [map_map]
        have split_ : (outcome ∘ fun s : Stream × Nat => (s.1, k + s.2)) = (fun s : Stream × Nat => (s.1, k + s.2)) ∘ outcome := rfl
        rw [split_, ← map_map, rest, map_map]
        refine map_congr fun s ran => ?_
        have shorter := (run_left ran).le
        rw [List.length_drop] at shorter
        change (s.1, k + ((data.drop k).length - s.2.length)) = (s.1, data.length - s.2.length)
        rw [List.length_drop]
        exact congrArg _ (by omega)

theorem consume_endless (stack : List Frame) (json jokey : Node) (less : saved.length < n)
    (full : ¬Roomy capacity saved.length (min data.length (n - saved.length))) :
    data ≠ [] ∧ consume ⟨.body saved n capacity, stack, json, jokey⟩ data = .error .endless := by
  refine ⟨?_, ?_⟩
  · rintro rfl
    exact full (by rw [List.length_nil, Nat.zero_min]; exact roomy_zero)
  · by_cases short : saved.length + data.length < n
    · rw [Nat.min_eq_left (by omega)] at full
      rw [consume_body_short short, appendUninitialized_fails full]
      rfl
    · rw [Nat.min_eq_right (by omega)] at full
      rw [consume_body less (by omega), appendUninitialized_fails full]
      rfl

/-- A call that appends to the string that the parser waits for has room for it. -/
theorem consume_takes (ok : Ok p) {r : Stream × Nat} (h : consume p data = .ok r) : Takes p data := by
  obtain ⟨status, stack, json, jokey⟩ := p
  cases status with
  | final | error | normal | header => trivial
  | body saved n capacity =>
    by_contra full
    cases h.symm.trans (consume_endless stack json jokey ok.1 full).2

theorem feed_endless (ok : Ok p) (full : ¬Room p data) (enough : data.length < fuel) : feed fuel p data = .error .endless := by
  obtain ⟨status, stack, json, jokey⟩ := p
  obtain ⟨fuel, rfl⟩ : ∃ m, fuel = m + 1 := ⟨fuel - 1, by omega⟩
  cases status with
  | final | error | normal => exact absurd (fun r mem => by cases mem) full
  | body saved n capacity =>
    obtain ⟨some_, called⟩ := consume_endless stack json jokey ok.1 fun roomy => full fun r mem => by
      obtain rfl := Option.some.inj mem
      exact roomy
    rw [feed, if_neg (not_or.mpr ⟨Bool.noConfusion, some_⟩), called]
    rfl
  | header saved =>
    obtain ⟨b, t, n, rfl, kind, less⟩ := ok
    have size : headerLength (b :: t) = n := (lead_wide kind).1.symm
    unfold Room resumed at full
    dsimp only at full
    rw [size] at full
    generalize cut : n - (b :: t).length = k at full
    split at full
    · exact absurd (fun r mem => by cases mem) full
    split at full
    · rename_i long m item
      split at full
      · rename_i small
        have full : ¬Roomy 0 0 (min (data.length - k) m) := fun roomy => full fun r mem => by
          obtain rfl := Option.some.inj mem
          exact roomy
        have some_ : m ≠ 0 := fun none => full (by rw [none, Nat.min_zero]; exact roomy_zero)
        have acted := act_raw ⟨.normal, stack, json, jokey⟩ some_ small
        have header : consume ⟨.header (b :: t), stack, json, jokey⟩ data = .ok (⟨.body [] m 0, stack, json, jokey⟩, k) := by
          rw [consume_header (List.cons_ne_nil _ _) kind less (by omega), cut, item, acted]
          rfl
        have full : ¬Roomy 0 0 (min (data.drop k).length (m - 0)) := by rwa [List.length_drop]
        obtain ⟨more, called⟩ := @consume_endless (data.drop k) [] m 0 stack json jokey (Nat.pos_of_ne_zero some_) full
        have given : data ≠ [] := by
          rintro rfl
          exact more List.drop_nil
        have positive := List.length_pos_iff.mpr given
        obtain ⟨fuel, rfl⟩ : ∃ m, fuel = m + 1 := ⟨fuel - 1, by omega⟩
        rw [feed, if_neg (not_or.mpr ⟨Bool.noConfusion, given⟩), header]
        change (feed (fuel + 1) _ (data.drop k)).map _ = _
        rw [feed, if_neg (not_or.mpr ⟨Bool.noConfusion, more⟩), called]
        rfl
      · exact absurd (fun r mem => by cases mem) full
    · exact absurd (fun r mem => by cases mem) full

/-! ### A run never is endless -/

theorem checkSize_fault (h : checkSize n = .error fault) : fault = .length := by
  unfold checkSize at h
  split at h
  · cases h
  · exact (Except.error.inj h).symm

theorem hardUniqueifyArray_fault {size n : Nat} (h : hardUniqueifyArray size n = .error fault) : fault = .capacity := by
  unfold hardUniqueifyArray at h
  dsimp only at h
  split_ifs at h <;> exact (Except.error.inj h).symm

theorem resize_fault {v : Node} (h : v.resize n = .error fault) : fault = .capacity := by
  cases v with
  | array capacity vs =>
    have h := map_eq_error.mp h
    unfold uniqueifyArray at h
    split at h
    · exact hardUniqueifyArray_fault h
    · cases h
  | _ => cases h

theorem next_fault {v : Node} (h : next p v n = .error fault) : fault = .index := by
  unfold next at h
  split at h
  · split at h
    · unfold enter at h
      split at h
      · exact (Except.error.inj h).symm
      · split at h <;> cases h
    · cases h
  · split at h <;> cases h

theorem act_fault {item : Item} (h : act p item = .error fault) : fault ≠ .endless := by
  cases item with
  | value v =>
    obtain rfl := next_fault h
    decide
  | array size =>
    rcases bind_eq_error.mp h with h | ⟨n, -, h⟩
    · obtain rfl := checkSize_fault h
      decide
    rcases bind_eq_error.mp h with h | ⟨v, -, h⟩
    · obtain rfl := resize_fault h
      decide
    · obtain rfl := next_fault h
      decide
  | map size =>
    rcases bind_eq_error.mp h with h | ⟨n, -, h⟩
    · obtain rfl := checkSize_fault h
      decide
    · obtain rfl := next_fault h
      decide
  | raw size =>
    rcases bind_eq_error.mp h with h | ⟨n, -, h⟩
    · obtain rfl := checkSize_fault h
      decide
    split at h
    · obtain rfl := next_fault h
      decide
    · cases h

theorem step_fault (h : step p b = .error fault) : fault ≠ .endless := by
  have header : ∀ {p saved n}, (inHeader p saved n).map some = .error fault → fault ≠ .endless := by
    intro p saved n h
    have h := map_eq_error.mp h
    unfold inHeader at h
    split at h
    · exact act_fault h
    · cases h
  unfold step at h
  split at h
  · cases h
  · cases h
  · split at h
    · cases h
    · exact act_fault (map_eq_error.mp h)
    · exact header h
  · exact header h
  · have h := map_eq_error.mp h
    unfold inBody at h
    split at h
    · obtain rfl := Except.error.inj h
      decide
    split at h
    · obtain rfl := next_fault h
      decide
    · cases h

theorem run_fault (h : run p s = .error fault) : fault ≠ .endless := by
  induction s generalizing p with
  | nil => cases h
  | cons b rest ih =>
    rcases bind_eq_error.mp h with h | ⟨next, -, h⟩
    · exact step_fault h
    · cases next with
      | none => cases h
      | some p' => exact ih h

/-! ### Chunks -/

/-- Each chunk comes to a parser with room for what it brings of a string. -/
def RoomFor (p : Stream) (chunks : List Bytes) : Prop :=
  ∀ before data after, chunks = before ++ data :: after → ∀ q k, feedChunks p before = .ok (q, k) → Room q data

theorem feed_ok {r : Stream × Nat} (ok : Ok p) (h : feed fuel p data = .ok r) : Ok r.1 := by
  induction fuel generalizing p data r with
  | zero => cases h
  | succ fuel ih =>
    rw [feed] at h
    split at h
    · obtain rfl := Except.ok.inj h
      exact ok
    · obtain ⟨⟨q, k⟩, called, h⟩ := bind_eq_ok.mp h
      obtain ⟨s, fed, rfl⟩ := map_eq_ok.mp h
      exact ih (r := s) (consume_called ok called).ok fed

theorem feedChunks_of_done (done : p.status.isDone) (chunks : List Bytes) : feedChunks p chunks = .ok (p, 0) := by
  cases chunks with
  | nil => rfl
  | cons data chunks => exact if_pos done

theorem feedChunks_append (p : Stream) (before chunks : List Bytes) : feedChunks p (before ++ chunks) =
    (feedChunks p before).bind fun r => (feedChunks r.1 chunks).map fun s => (s.1, r.2 + s.2) := by
  induction before generalizing p with
  | nil =>
    rw [List.nil_append]
    change _ = (feedChunks p chunks).map fun s => (s.1, 0 + s.2)
    cases feedChunks p chunks with
    | error fault => rfl
    | ok s => exact congrArg (fun k => Except.ok (s.1, k)) (Nat.zero_add _).symm
  | cons data before ih =>
    by_cases done : p.status.isDone
    · rw [feedChunks_of_done done, feedChunks_of_done done]
      change _ = (feedChunks p chunks).map _
      rw [feedChunks_of_done done]
      rfl
    · rw [List.cons_append, feedChunks, if_neg done, feedChunks, if_neg done, bind_bind]
      refine congrArg _ (funext fun r => ?_)
      rw [ih, map_bind, bind_map]
      refine congrArg _ (funext fun s => ?_)
      rw [map_map]
      exact congrArg (fun f => (feedChunks s.1 chunks).map f) (funext fun u => congrArg (Prod.mk u.1) (Nat.add_assoc ..).symm)

theorem RoomFor.later {chunks : List Bytes} (room : RoomFor p (data :: chunks)) (going : ¬p.status.isDone)
    (fed : feed (data.length + 1) p data = .ok (q, k)) : RoomFor q chunks := by
  rintro before data' after rfl q' k' reached
  refine room (data :: before) data' after rfl q' (k + k') ?_
  rw [feedChunks, if_neg going, fed]
  change (feedChunks q before).map _ = _
  rw [reached]
  rfl

theorem feedChunks_run (ok : Ok p) (chunks : List Bytes) (room : RoomFor p chunks) :
    (feedChunks p chunks).map outcome = (run p.forget chunks.flatten).map fun r => (r.1, chunks.flatten.length - r.2.length) := by
  induction chunks generalizing p with
  | nil => rfl
  | cons data chunks ih =>
    by_cases done : p.status.isDone
    · rw [feedChunks_of_done done, run_done ((forget_isDone p).trans done)]
      change Except.ok (p.forget, 0) = Except.ok (p.forget, _ - _)
      rw [Nat.sub_self]
    rw [feedChunks, if_neg done, List.flatten_cons, run_append]
    have fed := feed_run ok (room [] data chunks rfl p 0 rfl) (Nat.lt_succ_self data.length)
    cases first : feed (data.length + 1) p data with
    | error fault =>
      rw [first] at fed
      cases ran : run p.forget data with
      | error fault' =>
        rw [ran] at fed
        exact congrArg Except.error (Except.error.inj fed)
      | ok r =>
        rw [ran] at fed
        cases fed
    | ok r =>
      obtain ⟨q, k⟩ := r
      rw [first] at fed
      obtain ⟨⟨q', rest⟩, ran, same⟩ := map_eq_ok.mp fed.symm
      change (q', data.length - rest.length) = (q.forget, k) at same
      obtain ⟨rfl, rfl⟩ := Prod.mk.inj same
      have left := run_left ran
      have shorter := left.le
      have later := ih (feed_ok ok first) (room.later done first)
      rw [ran]
      change ((feedChunks q chunks).map fun s => (s.1, data.length - rest.length + s.2)).map outcome =
        (run q.forget (rest ++ chunks.flatten)).map _
      rw [map_map]
      have split_ : (outcome ∘ fun s : Stream × Nat => (s.1, data.length - rest.length + s.2)) =
        (fun s : Stream × Nat => (s.1, data.length - rest.length + s.2)) ∘ outcome := rfl
      rw [split_, ← map_map, later, map_map]
      by_cases none : rest = []
      · subst none
        rw [List.nil_append]
        refine map_congr fun s ran => ?_
        have shorter := (run_left ran).le
        change (s.1, data.length - 0 + (chunks.flatten.length - s.2.length)) = (s.1, _)
        rw [List.length_append]
        exact congrArg _ (by omega)
      · have done := left.done none
        rw [run_done done, run_done done]
        change Except.ok (q.forget, data.length - rest.length + (chunks.flatten.length - chunks.flatten.length)) =
          Except.ok (q.forget, _)
        rw [List.length_append, List.length_append]
        exact congrArg (fun k => Except.ok (q.forget, k)) (by omega)

theorem feedChunks_endless {before after : List Bytes} (reached : feedChunks p before = .ok (q, k)) (ok' : Ok q)
    (full : ¬Room q data) : feedChunks p (before ++ data :: after) = .error .endless := by
  have going : ¬q.status.isDone := fun done => full (room_of_done done data)
  rw [feedChunks_append, reached]
  change (feedChunks q (data :: after)).map _ = _
  rw [feedChunks, if_neg going, feed_endless ok' full (Nat.lt_succ_self _)]
  rfl

theorem feedChunks_ok {r : Stream × Nat} {chunks : List Bytes} (ok : Ok p) (h : feedChunks p chunks = .ok r) : Ok r.1 := by
  induction chunks generalizing p r with
  | nil =>
    obtain rfl := Except.ok.inj h
    exact ok
  | cons data chunks ih =>
    rw [feedChunks] at h
    split at h
    · obtain rfl := Except.ok.inj h
      exact ok
    · obtain ⟨s, fed, h⟩ := bind_eq_ok.mp h
      obtain ⟨u, fed', rfl⟩ := map_eq_ok.mp h
      exact ih (r := u) (feed_ok ok fed) fed'

/-- However a sequence of bytes is cut into chunks, the parser ends as after one call on the whole sequence, with the same status, value
and stack and with as many bytes consumed, exactly if each chunk comes to a parser that has room for what the chunk brings of a
string. -/
theorem chunks_consume_iff (json jokey : Node) (chunks : List Bytes) :
    (feedChunks (start json jokey) chunks).map outcome = (consume (start json jokey) chunks.flatten).map outcome ↔
      ∀ before data after, chunks = before ++ data :: after →
        ∀ q k, feedChunks (start json jokey) before = .ok (q, k) → Room q data := by
  have ok : Ok (start json jokey) := trivial
  have whole : (consume (start json jokey) chunks.flatten).map outcome = reach chunks.flatten 0 (start json jokey) :=
    resume_eq (Nat.zero_le _) (.inl rfl)
  constructor
  · rintro same before data after rfl q k reached
    by_contra full
    rw [feedChunks_endless reached (feedChunks_ok ok reached) full, whole] at same
    cases ran : run (start json jokey) (before ++ data :: after).flatten with
    | error fault =>
      rw [reach, List.drop_zero, ran] at same
      exact run_fault ran (Except.error.inj same).symm
    | ok r =>
      rw [reach, List.drop_zero, ran] at same
      cases same
  · intro room
    rw [feedChunks_run ok chunks room, whole]
    rfl

/-- A string of 2^30 bytes behind its header: `str_` never gets a capacity. -/
theorem cut_string_endless :
    feedChunks (start .null .null) [[0xDB, 0x40, 0, 0, 0], List.replicate (2 ^ 30) 0] = .error .endless ∧
    ∃ r, consume (start .null .null) ([0xDB, 0x40, 0, 0, 0] ++ List.replicate (2 ^ 30) 0) = .ok r := by
  have header : feedChunks (start .null .null) [[0xDB, 0x40, 0, 0, 0]] = .ok (⟨.body [] (2 ^ 30) 0, [], .null, .null⟩, 5) :=
    rfl
  have length : (List.replicate (2 ^ 30) (0 : UInt8)).length = 2 ^ 30 := List.length_replicate
  generalize List.replicate (2 ^ 30) (0 : UInt8) = s at length
  constructor
  · refine @feedChunks_endless _ _ _ _ [_] [] header ⟨by decide, by decide⟩ fun room => ?_
    have roomy := room _ rfl
    rw [length] at roomy
    exact absurd roomy (by decide)
  · have kind : lead 0xDB = .wide 5 := lead_far (by decide) (by decide) (by decide) (by decide)
    have size : netOrder [0x40, 0, 0, 0] = s.length := by
      rw [length]
      decide
    have item : decode [0xDB, 0x40, 0, 0, 0] = .raw s.length := congrArg Item.raw size
    have body := run_raw (start .null .null) (s := s) (by rw [length]; decide) []
    have header : run (start .null .null) ([0xDB, 0x40, 0, 0, 0] ++ (s ++ [])) = _ := run_far rfl kind rfl
    rw [item, body, List.append_nil] at header
    have whole := @resume_eq (start .null .null) ([0xDB, 0x40, 0, 0, 0] ++ s) 0 (Nat.zero_le _) (.inl rfl)
    rw [reach, List.drop_zero, header] at whole
    obtain ⟨r, called, -⟩ := map_eq_ok.mp whole
    exact ⟨r, called⟩

end Masstree.Msgpack.Stream
