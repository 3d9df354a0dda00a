import Masstree.Text.JsonNumbers

/-!
# Rounds of the JSON parser

Each round takes a byte at least, or ends in an error. So the loop is a recursion over what remains.
-/

namespace Masstree.JsonText

open Msgpack (Bytes Value Fault)

variable {lib : Libc} {complete : Bool} {sa s t r rest : Bytes} {c : UInt8} {fuel fuel' : Nat} {fault : Fault}

/-! ### What remains -/

/-- A round of `consume_string` goes on with what remains, or it is the last. -/
theorem stringLoop_cases {x : Except Fault StringEnd} (ran : stringLoop (fuel + 1) sa (c :: s) = x) :
    (∃ sa' rest, rest <:+ s ∧ stringLoop fuel sa' rest = x) ∨ (∃ e, x = .ok e ∧ ∀ t r, e = .closed t r → r = s) ∨
      s = [] ∧ looksAhead c ∧ x = .error .outside := by
  have refused : ∀ {r}, Except.ok (StringEnd.bad r) = x → ∃ e, x = .ok e ∧ ∀ t r, e = .closed t r → r = s := by
    rintro r rfl
    exact ⟨_, rfl, by rintro _ _ ⟨⟩⟩
  have broken : ∀ {n t}, Except.ok (StringEnd.partly n t) = x → ∃ e, x = .ok e ∧ ∀ t r, e = .closed t r → r = s := by
    rintro n t rfl
    exact ⟨_, rfl, by rintro _ _ ⟨⟩⟩
  rw [stringLoop] at ran
  split_ifs at ran with _ _ _ _ alone
  · exact .inl ⟨_, s, List.suffix_rfl, ran⟩
  · cases escape : consumeBackslash sa (c :: s) with
    | done sa rest =>
      rw [escape] at ran
      exact .inl ⟨sa, rest, consumeBackslash_done escape, ran⟩
    | incomplete partlen sa =>
      rw [escape] at ran
      exact .inr (.inl (broken ran))
    | bad rest =>
      rw [escape] at ran
      exact .inr (.inl (refused ran))
  · exact .inr (.inl ⟨_, ran.symm, fun t r closed => (StringEnd.closed.inj closed).2.symm⟩)
  · exact .inr (.inr ⟨alone.1, alone.2, ran.symm⟩)
  · exact .inr (.inl (refused ran))
  · exact .inr (.inl (refused ran))
  · exact .inr (.inl (refused ran))
  · exact .inr (.inl (broken ran))
  · exact .inl ⟨_, _, List.drop_suffix .., ran⟩
  · exact .inr (.inl (refused ran))

theorem stringLoop_suffix (closed : stringLoop fuel sa s = .ok (.closed t r)) : r <:+ s := by
  induction fuel generalizing sa s with
  | zero => cases closed
  | succ fuel ih =>
    cases s with
    | nil => cases closed
    | cons c s =>
      rcases stringLoop_cases closed with ⟨sa, rest, suffix, later⟩ | ⟨e, same, ends⟩ | ⟨-, -, failed⟩
      · exact ((ih later).trans suffix).trans (List.suffix_cons _ _)
      · rw [ends t r (Except.ok.inj same).symm]
        exact List.suffix_cons _ _
      · cases failed

/-- The fault is that the second byte of a character is read where the range ends in the first. -/
def Overreads (s : Bytes) (fault : Fault) : Prop := fault = .outside ∧ ∃ c ∈ s.getLast?, looksAhead c

theorem Overreads.of_suffix (overreads : Overreads t fault) (suffix : t <:+ s) : Overreads s fault := by
  obtain ⟨outside, c, last, looks⟩ := overreads
  obtain ⟨w, rfl⟩ := suffix
  have some_ : t ≠ [] := by
    rintro rfl
    cases last
  rw [← List.getLast?_append_of_ne_nil w some_] at last
  exact ⟨outside, c, last, looks⟩

theorem stringLoop_fault (enough : s.length < fuel) (failed : stringLoop fuel sa s = .error fault) : Overreads s fault := by
  induction fuel generalizing sa s with
  | zero => exact absurd enough (Nat.not_lt_zero _)
  | succ fuel ih =>
    cases s with
    | nil => cases failed
    | cons c s =>
      rcases stringLoop_cases failed with ⟨sa, rest, suffix, later⟩ | ⟨e, same, -⟩ | ⟨rfl, looks, same⟩
      · have inside : rest.length < fuel := Nat.lt_of_le_of_lt suffix.length_le (Nat.lt_of_succ_lt_succ enough)
        exact (ih inside later).of_suffix (suffix.trans (List.suffix_cons _ _))
      · cases same
      · exact ⟨Except.error.inj same, c, rfl, looks⟩

theorem consumePrimitive_suffix {n : Nat} {v : Value} (read : consumePrimitive n s = .value v r) : r <:+ s := by
  induction s generalizing n with
  | nil =>
    rw [consumePrimitive] at read
    split_ifs at read
    exact (TokenEnd.value.inj read).2 ▸ List.suffix_rfl
  | cons c s ih =>
    rw [consumePrimitive] at read
    split_ifs at read
    · exact (TokenEnd.value.inj read).2 ▸ List.suffix_rfl
    · exact (ih read).trans (List.suffix_cons _ _)

section

variable {position : Nat}

theorem scanExponentDigits_suffix : (scanExponentDigits position s).2 <:+ s := by
  unfold scanExponentDigits
  split
  · split_ifs
    · exact (List.dropWhile_suffix _).trans (List.suffix_cons _ _)
    · exact List.suffix_rfl
  · exact List.suffix_rfl

theorem scanExponent_suffix : (scanExponent s).2 <:+ s := by
  cases s with
  | nil => exact List.suffix_rfl
  | cons c s =>
    rw [scanExponent]
    split_ifs
    · exact scanExponentDigits_suffix.trans (List.suffix_cons _ _)
    · exact scanExponentDigits_suffix

theorem maybeExponent_suffix : (maybeExponent position s).2 <:+ s := by
  cases s with
  | nil => exact List.suffix_rfl
  | cons c s =>
    rw [maybeExponent]
    split_ifs
    · exact scanExponent_suffix.trans (List.suffix_cons _ _)
    · exact List.suffix_rfl

theorem scanDecimals_suffix : (scanDecimals s).2 <:+ s := maybeExponent_suffix.trans (List.dropWhile_suffix _)

theorem scanDecimal_suffix : (scanDecimal s).2 <:+ s := by
  cases s with
  | nil => exact List.suffix_rfl
  | cons c s =>
    rw [scanDecimal]
    split_ifs
    · exact scanDecimals_suffix.trans (List.suffix_cons _ _)
    · exact List.suffix_rfl

theorem scanPoint_suffix : (scanPoint position s).2 <:+ s := by
  cases s with
  | nil => exact List.suffix_rfl
  | cons c s =>
    rw [scanPoint]
    split_ifs
    · exact scanDecimal_suffix.trans (List.suffix_cons _ _)
    · exact maybeExponent_suffix

theorem scanInteger_digit (digit : isDigit c) : (scanInteger (c :: s)).2 <:+ s := by
  rw [scanInteger]
  split_ifs with zero nonzero
  · exact scanPoint_suffix
  · exact scanPoint_suffix.trans (List.dropWhile_suffix _)
  · rw [isDigit, inRange_iff] at digit
    rw [inRange_iff] at nonzero
    exact absurd (UInt8.toNat_inj.mp (show c.toNat = 0x30 by omega)) zero

theorem scanInteger_suffix : (scanInteger s).2 <:+ s := by
  cases s with
  | nil => exact List.suffix_rfl
  | cons c s =>
    rw [scanInteger]
    split_ifs
    · exact scanPoint_suffix.trans (List.suffix_cons _ _)
    · exact (scanPoint_suffix.trans (List.dropWhile_suffix _)).trans (List.suffix_cons _ _)
    · exact scanPoint_suffix

theorem consumeNumber_suffix {str : Bytes} {v : Value} (first : c = 0x2D ∨ isDigit c)
    (read : consumeNumber lib complete 0 str (c :: s) = .value v r) : r <:+ s := by
  have scanned : (scanNumber 0 (c :: s)).2 <:+ s := by
    show (scanInteger (if c = 0x2D then s else c :: s)).2 <:+ s
    split_ifs with minus
    · exact scanInteger_suffix
    · exact scanInteger_digit (first.resolve_left minus)
  unfold consumeNumber at read
  simp only at read
  split_ifs at read
  exact (TokenEnd.value.inj read).2 ▸ scanned

end

namespace JsonParser

variable {p q : JsonParser}

/-- What a round comes to in front of `s`: an error, an end of `s`, or the fault of reading behind it or of a key that cannot be
entered. -/
def Shrinks (s : Bytes) : Except Fault (JsonParser × Bytes) → Prop
  | .ok y => y.1.status = .error ∨ y.2 <:+ s
  | .error fault => Overreads s fault ∨ fault = .index

theorem shrinks_error : Shrinks s (.ok (p.errorAt r)) := .inl rfl

theorem shrinks_ok (suffix : r <:+ s) : Shrinks s (.ok (p, r)) := .inr suffix

theorem stringDone_cases (e : StringEnd) : (∃ q rest, p.stringDone e = .ok (q, rest) ∧
    (q.status = .error ∨ rest = [] ∨ ∃ t, e = .closed t rest)) ∨ p.stringDone e = .error .index := by
  cases e with
  | closed t r =>
    rw [stringDone]
    split_ifs
    · unfold enter
      dsimp only
      split_ifs
      · split <;> exact .inl ⟨_, r, rfl, .inr (.inr ⟨t, rfl⟩)⟩
      · exact .inr rfl
    · exact .inl ⟨_, r, rfl, .inr (.inr ⟨t, rfl⟩)⟩
  | partly => exact .inl ⟨_, [], rfl, .inr (.inl rfl)⟩
  | bad r => exact .inl ⟨_, r, rfl, .inl rfl⟩

theorem stringRun_shrinks : Shrinks s ((stringRun [] s).bind p.stringDone) := by
  cases ran : stringRun [] s with
  | error fault => exact .inl (stringLoop_fault (Nat.lt_succ_self _) ran)
  | ok e =>
    change Shrinks s (p.stringDone e)
    rcases stringDone_cases (p := p) e with ⟨q, rest, done, failed | rfl | ⟨t, rfl⟩⟩ | index
    · rw [done]
      exact .inl failed
    · rw [done]
      exact .inr List.nil_suffix
    · rw [done]
      exact .inr (stringLoop_suffix ran)
    · rw [index]
      exact .inr rfl

theorem tokenDone_shrinks {e : TokenEnd} (suffix : ∀ v r, e = .value v r → r <:+ s) : Shrinks s (.ok (p.tokenDone e)) := by
  cases e with
  | value v r => exact .inr (suffix v r rfl)
  | partly => exact .inr List.nil_suffix
  | bad => exact .inl rfl

theorem shrinks_ite {x y : Except Fault (JsonParser × Bytes)} {P : Prop} [Decidable P] (yes : P → Shrinks s x) (no : ¬P → Shrinks s y) :
    Shrinks s (if P then x else y) :=
  iteInduction (motive := Shrinks s) yes no

theorem round_shrinks : Shrinks s (p.round lib complete (c :: s)) := by
  have taken : ∀ {q : JsonParser}, Shrinks s (.ok (q, s)) := shrinks_ok List.suffix_rfl
  have due : ∀ {P : Prop} [Decidable P] {x : Except Fault (JsonParser × Bytes)}, Shrinks s x →
      Shrinks s (if P then x else .ok (p.errorAt (c :: s))) := fun yes => shrinks_ite (fun _ => yes) fun _ => shrinks_error
  rw [round]
  refine shrinks_ite (fun _ => shrinks_ok (List.dropWhile_suffix _)) fun _ => ?_
  refine shrinks_ite (fun _ => shrinks_ite (fun _ => taken) fun _ => due taken) fun _ => ?_
  refine shrinks_ite (fun _ => due taken) fun _ => ?_
  refine shrinks_ite (fun _ => due taken) fun _ => ?_
  refine shrinks_ite (fun _ => due taken) fun _ => ?_
  refine shrinks_ite (fun _ => due taken) fun _ => ?_
  refine shrinks_ite (fun _ => shrinks_ite (fun _ => stringRun_shrinks) fun _ => due stringRun_shrinks) fun _ => ?_
  refine shrinks_ite (fun _ => due (tokenDone_shrinks fun v r => consumePrimitive_suffix)) fun _ => ?_
  exact shrinks_ite (fun first => due (tokenDone_shrinks fun v r => consumeNumber_suffix first)) fun _ => shrinks_error

/-! ### The loop -/

def run (lib : Libc) (complete : Bool) (p : JsonParser) (rest : Bytes) : Except Fault (JsonParser × Bytes) :=
  loop lib complete (rest.length + 1) p rest

theorem loop_stops (stops : p.status.isDone ∨ rest = []) (fuel : Nat) :
    loop lib complete (fuel + 1) p rest = .ok (p, rest) := if_pos stops

theorem loop_failed (failed : p.status = .error) (fuel : Nat) : loop lib complete (fuel + 1) p rest = .ok (p, rest) :=
  loop_stops (.inl (by rw [failed]; rfl)) fuel

theorem loop_enough (enough : rest.length < fuel) (enough' : rest.length < fuel') :
    loop lib complete fuel p rest = loop lib complete fuel' p rest := by
  induction fuel generalizing fuel' p rest with
  | zero => exact absurd enough (Nat.not_lt_zero _)
  | succ fuel ih =>
    obtain ⟨fuel', rfl⟩ := Nat.exists_eq_add_one.mpr (Nat.zero_lt_of_lt enough')
    by_cases stops : p.status.isDone ∨ rest = []
    · rw [loop_stops stops, loop_stops stops]
    obtain ⟨c, s, rfl⟩ := List.exists_cons_of_ne_nil (not_or.mp stops).2
    have inside := Nat.lt_of_succ_lt_succ enough
    have inside' := Nat.lt_of_succ_lt_succ enough'
    have shrinks : Shrinks s (p.round lib complete (c :: s)) := round_shrinks
    rw [loop, loop, if_neg stops, if_neg stops]
    cases made : p.round lib complete (c :: s) with
    | error fault => rfl
    | ok y =>
      rw [made] at shrinks
      rcases shrinks with failed | suffix
      · obtain ⟨fuel, rfl⟩ := Nat.exists_eq_add_one.mpr (Nat.zero_lt_of_lt inside)
        obtain ⟨fuel', rfl⟩ := Nat.exists_eq_add_one.mpr (Nat.zero_lt_of_lt inside')
        exact (loop_failed failed fuel).trans (loop_failed failed fuel').symm
      · exact ih (Nat.lt_of_le_of_lt suffix.length_le inside) (Nat.lt_of_le_of_lt suffix.length_le inside')

theorem run_stops (stops : p.status.isDone ∨ rest = []) : run lib complete p rest = .ok (p, rest) := loop_stops stops _

theorem run_cons (alive : ¬p.status.isDone) :
    run lib complete p (c :: s) = (p.round lib complete (c :: s)).bind fun r => run lib complete r.1 r.2 := by
  have shrinks : Shrinks s (p.round lib complete (c :: s)) := round_shrinks
  rw [run, loop, if_neg (not_or.mpr ⟨alive, List.cons_ne_nil _ _⟩)]
  cases made : p.round lib complete (c :: s) with
  | error fault => rfl
  | ok y =>
    rw [made] at shrinks
    rcases shrinks with failed | suffix
    · exact (loop_failed failed _).trans (loop_failed failed _).symm
    · exact loop_enough (Nat.lt_succ_of_le suffix.length_le) (Nat.lt_succ_self _)

theorem run_ok (alive : ¬p.status.isDone) (made : p.round lib complete (c :: s) = .ok (q, r)) :
    run lib complete p (c :: s) = run lib complete q r := by
  rw [run_cons alive, made]
  rfl

end JsonParser

end Masstree.JsonText
