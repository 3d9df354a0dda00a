import Masstree.Text.JsonRun

/-!
# Any text as JSON

The parser ends on every text. It reads behind a text only where the text breaks off in a string, after the first byte of a character,
and it leaves an object's table only with keys of the text that the table cannot take.
-/

namespace Masstree.JsonText

open Msgpack (Bytes Value Fault Keyed)
open String (utf8EncodeChar)
open Utf8

variable {lib : Libc} {complete : Bool} {sa s t r rest bs : Bytes} {c : UInt8} {fuel : Nat} {fault : Fault} {k : Bytes}

/-! ### How long a string is -/

theorem written_length {ch : Int32} (writes : StringAccum.written ch = some bs) : bs.length ≤ 4 := by
  unfold StringAccum.written at writes
  split_ifs at writes <;> simp [← Option.some.inj writes]

theorem written_escaped (writes : StringAccum.written (Int32.ofNat (escaped c)) = some bs) : bs.length ≤ 2 := by
  have short : ∀ n ∈ [0x22, 0x5C, 0x2F, 0x08, 0x0C, 0x0A, 0x0D, 0x09, 0], ∀ bs, StringAccum.written (Int32.ofNat n) = some bs →
    bs.length ≤ 2 := by
    simp [StringAccum.written]
  refine short _ ?_ bs writes
  unfold escaped
  split_ifs with same
  · rcases same with rfl | rfl | rfl <;> decide
  all_goals decide

theorem finishEscape_length {x skip : Nat} (inside : skip < rest.length)
    (short : ∀ bs, StringAccum.written (Int32.ofNat x) = some bs → bs.length ≤ skip + 1)
    (done : finishEscape sa rest x skip = .done t r) :
    t.length + r.length ≤ sa.length + rest.length := by
  unfold finishEscape at done
  cases writes : StringAccum.written (Int32.ofNat x) with
  | none =>
    rw [writes] at done
    cases done
  | some bs =>
    rw [writes] at done
    obtain ⟨rfl, rfl⟩ := Escape.done.inj done
    have few := short bs writes
    rw [List.length_append, List.length_drop]
    omega

theorem readHex_length {digit : UInt8 → Option Nat} {n x y : Nat} (read : readHex digit n x s = .ok y r) : r.length + n = s.length := by
  induction n generalizing x s with
  | zero =>
    obtain ⟨-, rfl⟩ := Hex.ok.inj read
    rfl
  | succ n ih =>
    cases s with
    | nil => cases read
    | cons c s =>
      rw [readHex] at read
      split at read
      · rw [List.length_cons, ← ih read, Nat.add_assoc]
      · cases read

theorem consumeSurrogate_length {x : Nat} {w : Bytes} (few : rest.length = w.length + 6)
    (done : consumeSurrogate sa rest x w = .done t r) : t.length + r.length ≤ sa.length + rest.length := by
  revert done
  fun_cases consumeSurrogate sa rest x w with
  | case7 =>
    rename_i read _
    have digits := readHex_length read
    simp only [List.length_cons] at few
    exact finishEscape_length (by omega) fun bs writes => (written_length writes).trans (by decide)
  | _ => rintro ⟨⟩

theorem consumeBackslash_length (done : consumeBackslash sa (c :: s) = .done t r) :
    t.length + r.length ≤ sa.length + (c :: s).length := by
  unfold consumeBackslash at done
  split at done
  · cases done
  · rename_i d u same
    obtain rfl : s = d :: u := same
    split at done
    · exact finishEscape_length (by simp) (fun bs writes => written_escaped writes) done
    · split at done
      · cases done
      · cases done
      · rename_i read
        have digits := readHex_length read
        split at done
        · split at done
          · cases done
          · exact consumeSurrogate_length (by simp only [List.length_cons]; omega) done
        · exact finishEscape_length (by simp only [List.length_cons]; omega)
            (fun bs writes => (written_length writes).trans (by decide)) done

theorem consumeBackslash_incomplete {n : Nat} (broken : consumeBackslash sa rest = .incomplete n t) : t = sa ++ rest := by
  have finished : ∀ {x skip}, finishEscape sa rest x skip ≠ .incomplete n t := by
    intro x skip
    unfold finishEscape
    split <;> rintro ⟨⟩
  have surrogate : ∀ {x w}, consumeSurrogate sa rest x w = .incomplete n t → t = sa ++ rest := by
    intro x w
    fun_cases consumeSurrogate sa rest x w with
    | case7 => exact fun broken => absurd broken finished
    | case1 | case3 | case5 => 
      intro broken
      exact (Escape.incomplete.inj broken).2.symm
    | _ => rintro ⟨⟩
  unfold consumeBackslash at broken
  split at broken
  · exact (Escape.incomplete.inj broken).2.symm
  · split at broken
    · exact absurd broken finished
    · split at broken
      · exact (Escape.incomplete.inj broken).2.symm
      · cases broken
      · split at broken
        · split at broken
          · cases broken
          · exact surrogate broken
        · exact absurd broken finished

def StringEnd.str : StringEnd → Bytes
  | .closed s _ => s
  | .partly _ s => s
  | .bad _ => []

/-- A string is no longer than its text. -/
theorem stringLoop_length {e : StringEnd} (ran : stringLoop fuel sa s = .ok e) : e.str.length ≤ sa.length + s.length := by
  induction fuel generalizing sa s with
  | zero => cases ran
  | succ fuel ih =>
    cases s with
    | nil =>
      obtain rfl := Except.ok.inj ran
      exact Nat.le_refl _
    | cons c s =>
      have refused : ∀ {r}, (.ok (.bad r) : Except Fault StringEnd) = .ok e → e.str.length ≤ sa.length + (c :: s).length := by
        rintro r ⟨⟩
        exact Nat.zero_le _
      rw [stringLoop] at ran
      split_ifs at ran
      · have later := ih ran
        rw [List.length_append, List.length_singleton] at later
        rw [List.length_cons]
        omega
      · cases escape : consumeBackslash sa (c :: s) with
        | done t r =>
          rw [escape] at ran
          exact (ih ran).trans (consumeBackslash_length escape)
        | incomplete n t =>
          rw [escape] at ran
          obtain rfl := Except.ok.inj ran
          rw [StringEnd.str, consumeBackslash_incomplete escape, List.length_append]
        | bad r =>
          rw [escape] at ran
          exact refused ran
      · obtain rfl := Except.ok.inj ran
        exact Nat.le_add_right _ _
      · exact refused ran
      · exact refused ran
      · exact refused ran
      · obtain rfl := Except.ok.inj ran
        rw [StringEnd.str, List.length_append]
      · have later := ih ran
        rw [List.length_append, List.length_cons, List.length_take, List.length_drop] at later
        rw [List.length_cons]
        omega
      · exact refused ran

/-! ### Keys of the text -/

def ReadFrom (s k : Bytes) : Prop := ∃ t rest, t <:+ s ∧ stringRun [] t = .ok (.closed k rest)

theorem ReadFrom.of_suffix (read : ReadFrom t k) (suffix : t <:+ s) : ReadFrom s k := by
  obtain ⟨w, rest, inside, closed⟩ := read
  exact ⟨w, rest, inside.trans suffix, closed⟩

def Frame.keys : Frame → List Bytes
  | .item _ => []
  | .entry before key after => before.map Prod.fst ++ key :: after.map Prod.fst
  | .within before key _ after => before.map Prod.fst ++ key :: after.map Prod.fst

namespace JsonParser

variable {p q : JsonParser}

/-- Keys of the text, all that the parser may have in front of one more. -/
structure FromText (s : Bytes) (p : JsonParser) : Prop where
  object : p.status = .objectInitial ∨ p.status = .objectDelim ∨ p.status = .objectKey →
    ∀ k ∈ (entriesOf p.json).map Prod.fst, ReadFrom s k
  stack : ∀ f ∈ p.stack, ∀ k ∈ f.keys, ReadFrom s k

def Keeps (s : Bytes) : Except Fault (JsonParser × Bytes) → Prop
  | .ok y => FromText s y.1
  | .error fault => fault = .index → ∃ keys, ¬Keyed keys ∧ ∀ k ∈ keys, ReadFrom s k

theorem keys_fill (f : Frame) (v : Value) : ∀ k ∈ (entriesOf (f.fill v)).map Prod.fst, k ∈ f.keys := by
  intro k mem
  cases f with
  | item before => exact absurd mem List.not_mem_nil
  | entry before key after => simpa [Frame.fill, Frame.keys, entriesOf] using mem
  | within before key items after => simpa [Frame.fill, Frame.keys, entriesOf] using mem

theorem FromText.of_stack {status : Status} {stack : List Frame} {json : Value} {part : Part} {str : Bytes}
    (other : entriesOf json = [] ∨ ¬(status = .objectInitial ∨ status = .objectDelim ∨ status = .objectKey))
    (frames : ∀ f ∈ stack, ∀ k ∈ f.keys, ReadFrom s k) : FromText s ⟨status, part, str, stack, json⟩ := by
  refine ⟨fun object k mem => ?_, frames⟩
  rcases other with none_ | no
  · rw [none_] at mem
    exact absurd mem List.not_mem_nil
  · exact absurd object no

theorem fromText_pop {status : Status} {stack : List Frame} {json : Value} {part : Part} {str : Bytes} (plain : entriesOf json = [])
    (frames : ∀ f ∈ stack, ∀ k ∈ f.keys, ReadFrom s k) (next : Status) :
    FromText s { (⟨status, part, str, stack, json⟩ : JsonParser).pop with status := next } := by
  cases stack with
  | nil => exact .of_stack (.inl plain) frames
  | cons f stack =>
    obtain ⟨first, others⟩ := List.forall_mem_cons.mp frames
    exact ⟨fun _ k mem => first k (keys_fill f json k mem), others⟩

theorem fromText_value (from_ : FromText s p) {j : Value} (plain : entriesOf j = []) : FromText s (p.value j) := by
  obtain ⟨status, part, str, stack, json⟩ := p
  have frames := from_.stack
  have slot : ∀ {stack : List Frame}, (∀ f ∈ stack, ∀ k ∈ f.keys, ReadFrom s k) → ∀ part str status next,
      FromText s ((opened j).elim { (⟨status, part, str, stack, j⟩ : JsonParser).pop with status := next }
        fun status => ⟨status, part, str, stack, j⟩) := by
    intro stack frames part str status next
    cases opened j with
    | none => exact fromText_pop plain frames next
    | some status => exact .of_stack (.inl plain) frames
  have item : ∀ items, ∀ f ∈ Frame.item items :: stack, ∀ k ∈ f.keys, ReadFrom s k :=
    fun items => List.forall_mem_cons.mpr ⟨fun k mem => absurd mem List.not_mem_nil, frames⟩
  unfold value
  dsimp only
  split
  · exact .of_stack (.inl plain) frames
  · obtain ⟨first, others⟩ := List.forall_mem_cons.mp frames
    refine slot (List.forall_mem_cons.mpr ⟨?_, others⟩) _ _ _ _
    exact first
  · exact slot frames _ _ _ _
  · exact slot (item _) _ _ _ _

theorem fromText_close (from_ : FromText s p) : FromText s p.closeValue := by
  obtain ⟨status, part, str, stack, json⟩ := p
  cases stack with
  | nil => exact .of_stack (.inr (by simp)) from_.stack
  | cons f stack =>
    obtain ⟨first, others⟩ := List.forall_mem_cons.mp from_.stack
    exact ⟨fun _ k mem => first k (keys_fill f json k mem), others⟩

theorem keys_span {entries before after : List (Bytes × Value)} {f : Bytes × Value → Bool} (split_ : entries.span f = (before, after)) :
    entries = before ++ after := by
  rw [List.span_eq_takeWhile_dropWhile] at split_
  obtain ⟨rfl, rfl⟩ := Prod.mk.inj split_
  exact List.takeWhile_append_dropWhile.symm

theorem enter_keeps (frames : ∀ f ∈ p.stack, ∀ k ∈ f.keys, ReadFrom s k)
    (keys : ∀ k ∈ (entriesOf p.json).map Prod.fst, ReadFrom s k) (colon : p.status = .objectColon) (read : ReadFrom s k) :
    Keeps s ((p.enter k).map fun p => (p, rest)) := by
  have other : ¬(p.status = .objectInitial ∨ p.status = .objectDelim ∨ p.status = .objectKey) := by simp [colon]
  unfold enter
  dsimp only
  by_cases keyed : Keyed ((entriesOf p.json).map Prod.fst ++ [k])
  · rw [if_neg (not_not.mpr keyed)]
    split
    all_goals
      rename_i split_
      rw [keys_span split_] at keys
      refine FromText.of_stack (.inr other) (List.forall_mem_cons.mpr ⟨fun k' mem => ?_, frames⟩)
    · rw [Frame.keys, List.mem_append, List.mem_cons] at mem
      rcases mem with mem | rfl | mem
      · exact keys k' (by rw [List.map_append]; exact List.mem_append_left _ mem)
      · exact read
      · exact keys k' (by rw [List.map_append]; exact List.mem_append_right _ (List.mem_cons_of_mem _ mem))
    · rw [Frame.keys, List.mem_append, List.map_nil, List.mem_singleton] at mem
      rcases mem with mem | rfl
      · exact keys k' (by rw [List.map_append]; exact List.mem_append_left _ mem)
      · exact read
  · rw [if_pos keyed]
    intro _
    refine ⟨_, keyed, List.forall_mem_append.mpr ⟨keys, fun k' mem => ?_⟩⟩
    obtain rfl := List.mem_singleton.mp mem
    exact read

theorem stringRun_keeps (suffix : t <:+ s) (from_ : FromText s p)
    (keys : p.status = .objectColon → ∀ k ∈ (entriesOf p.json).map Prod.fst, ReadFrom s k) :
    Keeps s ((stringRun [] t).bind p.stringDone) := by
  cases ran : stringRun [] t with
  | error fault =>
    rintro rfl
    cases (stringLoop_fault (Nat.lt_succ_self _) ran).1
  | ok e =>
    cases e with
    | closed k r =>
      change Keeps s (if p.status = .objectColon then (p.enter k).map fun p => (p, r) else .ok (p.value (.str k), r))
      split_ifs with colon
      · exact enter_keeps from_.stack (keys colon) colon ⟨t, r, suffix, ran⟩
      · exact fromText_value from_ rfl
    | partly partlen str => exact ⟨from_.object, from_.stack⟩
    | bad r => exact .of_stack (.inr (by simp)) from_.stack

theorem literal_plain (n : Nat) : entriesOf (literalValue n) = [] := by
  unfold literalValue
  split_ifs <;> rfl

theorem consumePrimitive_plain {n : Nat} {v : Value} (read : consumePrimitive n s = .value v rest) : entriesOf v = [] := by
  induction s generalizing n with
  | nil =>
    rw [consumePrimitive] at read
    split_ifs at read
    exact (TokenEnd.value.inj read).1 ▸ literal_plain n
  | cons c s ih =>
    rw [consumePrimitive] at read
    split_ifs at read
    · exact (TokenEnd.value.inj read).1 ▸ literal_plain n
    · exact ih read

theorem consumeNumber_plain {position : Nat} {str : Bytes} {v : Value}
    (read : consumeNumber lib complete position str s = .value v rest) : entriesOf v = [] := by
  have number : ∀ position text, entriesOf (numberValue lib position text) = [] := by
    intro position text
    unfold numberValue
    split_ifs <;> rfl
  unfold consumeNumber at read
  dsimp only at read
  split_ifs at read
  exact (TokenEnd.value.inj read).1 ▸ number _ _

theorem tokenDone_keeps (from_ : FromText s p) {e : TokenEnd} (plain : ∀ v r, e = .value v r → entriesOf v = []) :
    Keeps s (.ok (p.tokenDone e)) := by
  cases e with
  | value v r => exact fromText_value from_ (plain v r rfl)
  | partly part str => exact ⟨from_.object, from_.stack⟩
  | bad r => exact FromText.of_stack (.inr (by simp)) from_.stack

theorem keeps_ite {x y : Except Fault (JsonParser × Bytes)} {P : Prop} [Decidable P] (yes : P → Keeps s x) (no : ¬P → Keeps s y) :
    Keeps s (if P then x else y) :=
  iteInduction (motive := Keeps s) yes no

theorem round_keeps (from_ : FromText s p) (suffix : c :: t <:+ s) : Keeps s (p.round lib complete (c :: t)) := by
  have later : t <:+ s := (List.suffix_cons c t).trans suffix
  have refused : Keeps s (.ok (p.errorAt (c :: t))) := FromText.of_stack (.inr (by simp)) from_.stack
  have due : ∀ {P : Prop} [Decidable P] {x : Except Fault (JsonParser × Bytes)}, (P → Keeps s x) →
      Keeps s (if P then x else .ok (p.errorAt (c :: t))) := fun yes => keeps_ite yes fun _ => refused
  have moved : ∀ {status}, ¬(status = .objectInitial ∨ status = .objectDelim ∨ status = .objectKey) →
      Keeps s (.ok ({ p with status }, t)) := fun other => FromText.of_stack (.inr other) from_.stack
  have opens : entriesOf (if c = 0x7B then .object [] else .array []) = [] := by split_ifs <;> rfl
  rw [round]
  refine keeps_ite (fun _ => from_) fun _ => ?_
  refine keeps_ite (fun _ => keeps_ite (fun _ => moved (by simp)) fun _ => due fun delim => ?_) fun _ => ?_
  · exact ⟨fun _ => from_.object (.inr (.inl delim)), from_.stack⟩
  refine keeps_ite (fun _ => due fun _ => moved (by simp)) fun _ => ?_
  refine keeps_ite (fun _ => due fun _ => fromText_value from_ opens) fun _ => ?_
  refine keeps_ite (fun _ => due fun _ => fromText_close from_) fun _ => ?_
  refine keeps_ite (fun _ => due fun _ => fromText_close from_) fun _ => ?_
  refine keeps_ite (fun _ => keeps_ite (fun expects => ?_) fun _ => due fun object => ?_) fun _ => ?_
  · refine stringRun_keeps later from_ fun colon => ?_
    rw [colon] at expects
    cases expects
  · refine stringRun_keeps later (.of_stack (.inr (by simp)) from_.stack) fun _ => from_.object ?_
    exact object.imp_right .inr
  refine keeps_ite (fun _ => due fun _ => tokenDone_keeps from_ fun v r => consumePrimitive_plain) fun _ => ?_
  exact keeps_ite (fun _ => due fun _ => tokenDone_keeps from_ fun v r => consumeNumber_plain) fun _ => refused

/-- How a text can fail: it is read behind its end, or a key of it cannot be entered with other keys of it. -/
def Fails (s : Bytes) (fault : Fault) : Prop :=
  Overreads s fault ∨ fault = .index ∧ ∃ keys, ¬Keyed keys ∧ ∀ k ∈ keys, ReadFrom s k

theorem loop_fault (from_ : FromText s p) (suffix : t <:+ s) (enough : t.length < fuel)
    (failed : loop lib complete fuel p t = .error fault) : Fails s fault := by
  induction fuel generalizing p t with
  | zero => exact absurd enough (Nat.not_lt_zero _)
  | succ fuel ih =>
    by_cases stops : p.status.isDone ∨ t = []
    · rw [loop_stops stops] at failed
      cases failed
    obtain ⟨c, t, rfl⟩ := List.exists_cons_of_ne_nil (not_or.mp stops).2
    have inside := Nat.lt_of_succ_lt_succ enough
    have shrinks : Shrinks t (p.round lib complete (c :: t)) := round_shrinks
    have keeps : Keeps s (p.round lib complete (c :: t)) := round_keeps from_ suffix
    have later : t <:+ s := (List.suffix_cons c t).trans suffix
    rw [loop, if_neg stops] at failed
    cases made : p.round lib complete (c :: t) with
    | error found =>
      rw [made] at shrinks keeps failed
      obtain rfl := Except.error.inj failed
      exact shrinks.imp (·.of_suffix later) fun index => ⟨index, keeps index⟩
    | ok y =>
      rw [made] at shrinks keeps failed
      rcases shrinks with error | shorter
      · obtain ⟨fuel, rfl⟩ := Nat.exists_eq_add_one.mpr (Nat.zero_lt_of_lt inside)
        cases (loop_failed error fuel).symm.trans failed
      · exact ih keeps (shorter.trans later) (Nat.lt_of_le_of_lt shorter.length_le inside) failed

end JsonParser

theorem parse_fault (failed : parse lib s = .error fault) : JsonParser.Fails s fault := by
  have consumed : JsonParser.consume {} lib true s = JsonParser.loop lib true (s.length + 1) {} s := rfl
  have empty : JsonParser.FromText s {} := .of_stack (.inl rfl) (List.forall_mem_nil _)
  rw [parse, consumed] at failed
  cases ran : JsonParser.loop lib true (s.length + 1) {} s with
  | ok y =>
    rw [ran] at failed
    cases failed
  | error found =>
    rw [ran] at failed
    exact Except.error.inj failed ▸ JsonParser.loop_fault empty List.suffix_rfl (Nat.lt_succ_self _) ran

/-- The parser ends on every text that a string accumulator has space for, which has space for what it reads of strings. What it reads is
in the text, or the byte behind a text that ends in the first byte of a character, and it stays in the tables of its objects unless keys
of the text cannot be entered one after the other. -/
theorem parse_any (lib : Libc) {s : Bytes} (short : s.length + 2 ^ 20 ≤ 2 ^ 31) :
    (∀ t e, t <:+ s → stringRun [] t = .ok e → StringAccum.Accumulates Msgpack.memory e.str) ∧
      ((∃ r, parse lib s = .ok r) ∨ (parse lib s = .error .outside ∧ ∃ c ∈ s.getLast?, looksAhead c) ∨
        parse lib s = .error .index ∧ ∃ keys, ¬Keyed keys ∧ ∀ k ∈ keys, ReadFrom s k) := by
  constructor
  · intro t e inside ran
    have le := inside.length_le
    have length := stringLoop_length ran
    rw [List.length_nil, Nat.zero_add] at length
    exact StringAccum.accumulates_of_new (fun _ => rfl) (by decide) (by omega)
  · cases parsed : parse lib s with
    | ok r => exact .inl ⟨r, rfl⟩
    | error fault =>
      rcases parse_fault parsed with ⟨rfl, last⟩ | ⟨rfl, keys⟩
      · exact .inr (.inl ⟨rfl, last⟩)
      · exact .inr (.inr ⟨rfl, keys⟩)

/-- An array in an object, with an escape in a key, that breaks off in a string. -/
def brokenText : Bytes := ascii "\x7b\"a\\n\":[1,\x7b\"b\":null\x7d],\"c"

def noLibc : Libc := ⟨fun _ => [], fun _ => 0⟩

theorem parse_any_broken :
    (∀ t e, t <:+ brokenText → stringRun [] t = .ok e → StringAccum.Accumulates Msgpack.memory e.str) ∧
      ((∃ r, parse noLibc brokenText = .ok r) ∨ (parse noLibc brokenText = .error .outside ∧ ∃ c ∈ brokenText.getLast?, looksAhead c) ∨
        parse noLibc brokenText = .error .index ∧ ∃ keys, ¬Keyed keys ∧ ∀ k ∈ keys, ReadFrom brokenText k) :=
  parse_any noLibc (by decide)

example (lib : Libc) : parse lib [0x5B, 0x22, 0xE0] = .error .outside := rfl

theorem looksAhead_high (looks : looksAhead c) : 0xE0 ≤ c.toNat := by
  simp only [looksAhead, Bool.or_eq_true, decide_eq_true_eq] at looks
  rcases looks with ((rfl | rfl) | rfl) | rfl <;> decide

/-- A text of whole characters is read to its end, or its keys cannot be entered. -/
theorem parse_chars (lib : Libc) (cs : List Char) :
    (∃ r, parse lib (cs.flatMap utf8EncodeChar) = .ok r) ∨ parse lib (cs.flatMap utf8EncodeChar) = .error .index := by
  cases parsed : parse lib (cs.flatMap utf8EncodeChar) with
  | ok r => exact .inl ⟨r, rfl⟩
  | error fault =>
    rcases parse_fault parsed with ⟨-, c, last, looks⟩ | ⟨rfl, -⟩
    · have low : c.toNat < 0xC0 := by
        rcases List.eq_nil_or_concat cs with rfl | ⟨init, ch, rfl⟩
        · cases last
        · have wf := encode_wellFormed ch
          rw [List.concat_eq_append, List.flatMap_append, List.flatMap_singleton, List.getLast?_append_of_ne_nil _ wf.sized.ne_nil]
            at last
          exact wf.last_lt last
      have high := looksAhead_high looks
      omega
    · exact .inr rfl

end Masstree.JsonText
