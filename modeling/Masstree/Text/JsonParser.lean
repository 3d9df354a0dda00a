import Masstree.Text.JsonUnparse

/-!
# The streaming parser of JSON text

`Json::streaming_parser` by what remains of its range. As in the parser of requests, its pointers into the value that it builds are a
zipper. Memory does not run out, but an object's table has indices only up to a size.
-/

namespace Masstree.JsonText
open Msgpack (Bytes Value Fault Keyed signed)

/-- `state_` without the bits of `st_partmask` -/
inductive Status where
  | final
  | error
  | initial
  | arrayInitial
  | arrayValue
  | objectValue
  | arrayDelim
  | objectDelim
  | objectInitial
  | objectKey
  | objectColon
  deriving DecidableEq

/-- The bits of `st_partmask`: what the last range ended in, and how far that was. -/
inductive Part where
  | none
  | string (partlen : Nat)
  | primitive (n : Nat)
  | number (position : Nat)
  deriving DecidableEq

/-- What an element of `stack_` points into: the back of an array, the slot of a key, or the back of an array that such a slot held
before. -/
inductive Frame where
  | item (before : List Value)
  | entry (before : List (Bytes × Value)) (key : Bytes) (after : List (Bytes × Value))
  | within (before : List (Bytes × Value)) (key : Bytes) (items : List Value) (after : List (Bytes × Value))

/-- The container with the value in its place. -/
def Frame.fill : Frame → Value → Value
  | .item before, v => .array (before ++ [v])
  | .entry before key after, v => .object (before ++ (key, v) :: after)
  | .within before key items after, v => .object (before ++ (key, .array (items ++ [v])) :: after)

def maxDepth : Nat := 2048

structure JsonParser where
  status : Status := .initial
  part : Part := .none
  str : Bytes := []
  stack : List Frame := []
  /-- `*current()` -/
  json : Value := .null

namespace Status

/-- `state_ < 0` -/
def isDone : Status → Bool
  | final | error => true
  | _ => false

/-- `state_ <= st_object_value` -/
def expectsValue : Status → Bool
  | initial | arrayInitial | arrayValue | objectValue => true
  | _ => false

end Status

def inRange (c : UInt8) (low high : Nat) : Bool := low ≤ c.toNat && c.toNat < high
def isSpace (c : UInt8) : Bool := c = 0x20 || c = 0x0A || c = 0x0D || c = 0x09
def isDigit (c : UInt8) : Bool := inRange c 0x30 0x3A
def isXdigit (c : UInt8) : Bool := isDigit c || inRange c 0x41 0x47 || inRange c 0x61 0x67

/-! ### Strings -/

inductive Hex where
  | ok (ch : Nat) (rest : Bytes)
  | incomplete
  | bad (rest : Bytes)

def hexDigit (c : UInt8) : Option Nat :=
  if isDigit c then some (c.toNat - 0x30)
  else if inRange c 0x41 0x47 then some (c.toNat - 0x41 + 10)
  else if inRange c 0x61 0x67 then some (c.toNat - 0x61 + 10)
  else none

/-- The digits of a second surrogate: `'A'` to `'F'` are tested for twice. -/
def hexDigit2 (c : UInt8) : Option Nat :=
  if isDigit c then some (c.toNat - 0x30)
  else if inRange c 0x41 0x47 then some (c.toNat - 0x41 + 10)
  else none

def readHex (digit : UInt8 → Option Nat) : Nat → Nat → Bytes → Hex
  | 0, ch, rest => .ok ch rest
  | _ + 1, _, [] => .incomplete
  | n + 1, ch, c :: rest =>
    match digit c with
    | some d => readHex digit n (16 * ch + d) rest
    | none => .bad (c :: rest)

inductive Escape where
  | done (sa rest : Bytes)
  /-- with what is in `st_partlenmask` -/
  | incomplete (partlen : Nat) (sa : Bytes)
  | bad (rest : Bytes)

/-- The end of `consume_backslash`, with `first[1]` after `skip` bytes. -/
def finishEscape (sa rest : Bytes) (ch skip : Nat) : Escape :=
  match StringAccum.written (Int32.ofNat ch) with
  | some bs => .done (sa ++ bs) (rest.drop (skip + 1))
  | none => .bad (rest.drop skip)

/-- The character of an escape with one letter. -/
def escaped (c : UInt8) : Nat :=
  if c = 0x22 ∨ c = 0x5C ∨ c = 0x2F then c.toNat
  else if c = 0x62 then 0x08
  else if c = 0x66 then 0x0C
  else if c = 0x6E then 0x0A
  else if c = 0x72 then 0x0D
  else if c = 0x74 then 0x09
  else 0

/-- The second half of a surrogate pair, from behind the first. -/
def consumeSurrogate (sa rest : Bytes) (ch : Nat) : Bytes → Escape
  | [] => .incomplete rest.length (sa ++ rest)
  | b :: r =>
    if b ≠ 0x5C then .bad (b :: r)
    else match r with
      | [] => .incomplete rest.length (sa ++ rest)
      | u :: r =>
        if u ≠ 0x75 then .bad (u :: r)
        else match readHex hexDigit2 4 0 r with
          | .incomplete => .incomplete rest.length (sa ++ rest)
          | .bad r => .bad r
          | .ok ch2 _ =>
            if 0xDC00 ≤ ch2 ∧ ch2 < 0xE000 then finishEscape sa rest (0x10000 + (ch - 0xD800) * 0x400 + (ch2 - 0xDC00)) 11
            else .bad (rest.drop 11)

/-- `consume_backslash`, where `rest` begins with the backslash. -/
def consumeBackslash (sa rest : Bytes) : Escape :=
  match rest.tail with
  | [] => .incomplete rest.length (sa ++ rest)
  | c :: r =>
    if c ≠ 0x75 then finishEscape sa rest (escaped c) 1
    else match readHex hexDigit 4 0 r with
      | .incomplete => .incomplete rest.length (sa ++ rest)
      | .bad r => .bad r
      | .ok ch r =>
        if 0xD800 ≤ ch ∧ ch < 0xE000 then
          if 0xDC00 ≤ ch then .bad (rest.drop 5) else consumeSurrogate sa rest ch r
        else finishEscape sa rest ch 5

inductive StringEnd where
  /-- behind the quote -/
  | closed (str rest : Bytes)
  | partly (partlen : Nat) (str : Bytes)
  | bad (rest : Bytes)

/-- How many bytes a character with this first byte has. -/
def want (c : UInt8) : Nat := 2 + (if 0xE0 ≤ c then 1 else 0) + (if 0xF0 ≤ c then 1 else 0)

/-- Second bytes that the code refuses by the first: overlong forms, surrogates and what is no character. -/
def isExcluded (c d : UInt8) : Bool :=
  c = 0xE0 && d < 0xA0 || c = 0xED && 0xA0 ≤ d || c = 0xF0 && d < 0x90 || c = 0xF4 && 0x90 ≤ d

/-- First bytes for which the code reads the second, even behind the range. -/
def looksAhead (c : UInt8) : Bool := c = 0xE0 || c = 0xED || c = 0xF0 || c = 0xF4

/-- The loop of `consume_string`. `fuel` bounds the rounds. -/
def stringLoop : Nat → Bytes → Bytes → Except Fault StringEnd
  | 0, _, _ => .error .endless
  | _ + 1, sa, [] => .ok (.partly 0 sa)
  | fuel + 1, sa, c :: s =>
    if inRange c 0x20 0x80 ∧ c ≠ 0x5C ∧ c ≠ 0x22 then stringLoop fuel (sa ++ [c]) s
    else if c = 0x5C then
      match consumeBackslash sa (c :: s) with
      | .done sa rest => stringLoop fuel sa rest
      | .incomplete partlen sa => .ok (.partly partlen sa)
      | .bad rest => .ok (.bad rest)
    else if c = 0x22 then .ok (.closed sa s)
    else if ¬inRange c 0xC2 0xF5 then .ok (.bad (c :: s))
    else if s = [] ∧ looksAhead c then .error .outside
    else if s ≠ [] ∧ (¬inRange (s.getD 0 0) 0x80 0xC0 ∨ isExcluded c (s.getD 0 0)) then .ok (.bad s)
    else if 2 ≤ s.length ∧ 3 ≤ want c ∧ ¬inRange (s.getD 1 0) 0x80 0xC0 then .ok (.bad (s.drop 1))
    else if 3 ≤ s.length ∧ 4 ≤ want c ∧ ¬inRange (s.getD 2 0) 0x80 0xC0 then .ok (.bad (s.drop 2))
    else if s.length + 1 < want c then .ok (.partly (s.length + 1) (sa ++ c :: s))
    else stringLoop fuel (sa ++ c :: s.take (want c - 1)) (s.drop (want c - 1))

def stringRun (sa rest : Bytes) : Except Fault StringEnd := stringLoop (rest.length + 1) sa rest

/-- What must not come at `part` in what `tag` began. -/
def refusesPart (tag : UInt8) (part : Nat) (c : UInt8) : Bool :=
  tag ≠ 0x5C && !inRange c 0x80 0xC0 || tag = 0x5C && part = 6 && c ≠ 0x5C || tag = 0x5C && part = 7 && c ≠ 0x75 ||
    tag = 0x5C && part ≠ 1 && part ≠ 6 && part ≠ 7 && !isXdigit c

/-- The byte at `part` makes a whole that `consume_string` can read. -/
def completesPart (tag : UInt8) (part : Nat) : Bool :=
  tag ≠ 0x5C && part + 1 = want tag || tag = 0x5C && (part = 1 || part = 5 || part = 11)

def consumeStringpart : Nat → Bytes → Bytes → Except Fault StringEnd
  | 0, sa, rest => stringRun sa rest
  | part, sa, [] => .ok (.partly part sa)
  | part, sa, c :: rest =>
    let tag := sa.getD (sa.length - part) 0
    if refusesPart tag part c then .ok (.bad (c :: rest))
    else if completesPart tag part then
      (stringRun (sa.take (sa.length - part)) (sa.drop (sa.length - part) ++ [c])).bind fun
        | .bad _ => .ok (.bad (c :: rest))
        | .partly part sa => consumeStringpart part sa rest
        | .closed str _ => consumeStringpart 0 str rest
    else consumeStringpart (part + 1) (sa ++ [c]) rest

/-! ### Literals and numbers -/

inductive TokenEnd where
  | value (v : Value) (rest : Bytes)
  | partly (part : Part) (str : Bytes)
  | bad (rest : Bytes)

def literals : Bytes := ascii "null\x00false\x00true\x00"

def literalValue (n : Nat) : Value := if n = 4 then .null else if n = 10 then .bool false else .bool true

/-- `consume_primitive`, where the byte at `n` is the next. -/
def consumePrimitive : Nat → Bytes → TokenEnd
  | n, [] => if literals.getD n 0 = 0 then .value (literalValue n) [] else .partly (.primitive n) []
  | n, c :: rest =>
    if literals.getD n 0 = 0 then .value (literalValue n) (c :: rest)
    else if literals.getD n 0 ≠ c then .bad (c :: rest)
    else consumePrimitive (n + 1) rest

/-- From the label `case 9` or `case 8` on. -/
def scanExponentDigits (position : Nat) (s : Bytes) : Nat × Bytes :=
  match s with
  | c :: r => if isDigit c then (9, r.dropWhile isDigit) else (position, s)
  | [] => (position, s)

/-- From the label `exponent` on. -/
def scanExponent : Bytes → Nat × Bytes
  | [] => (6, [])
  | c :: r => scanExponentDigits 8 (if c = 0x2B ∨ c = 0x2D then r else c :: r)

/-- From the label `maybe_exponent` on. -/
def maybeExponent (position : Nat) : Bytes → Nat × Bytes
  | c :: r => if c = 0x65 ∨ c = 0x45 then scanExponent r else (position, c :: r)
  | [] => (position, [])

/-- From the label `case 5` on. -/
def scanDecimals (s : Bytes) : Nat × Bytes :=
  maybeExponent 5 (s.dropWhile isDigit)

/-- From the label `decimal` on. -/
def scanDecimal : Bytes → Nat × Bytes
  | c :: r => if isDigit c then scanDecimals r else (4, c :: r)
  | [] => (4, [])

/-- From the label `case 3` on. -/
def scanPoint (position : Nat) : Bytes → Nat × Bytes
  | c :: r => if c = 0x2E then scanDecimal r else maybeExponent position (c :: r)
  | [] => (position, [])

/-- From the label `case 2` on. -/
def scanInteger : Bytes → Nat × Bytes
  | c :: r =>
    if c = 0x30 then scanPoint 3 r
    else if inRange c 0x31 0x3A then scanPoint 1 (r.dropWhile isDigit)
    else scanPoint 2 (c :: r)
  | [] => (2, [])

/-- The `switch` of `consume_number`: the position, and what remains. -/
def scanNumber (position : Nat) (s : Bytes) : Nat × Bytes :=
  match position with
  | 0 => scanInteger (match s with | c :: r => if c = 0x2D then r else c :: r | [] => [])
  | 1 => scanPoint 1 (s.dropWhile isDigit)
  | 2 => scanInteger s
  | 3 => scanPoint 3 s
  | 4 => scanDecimal s
  | 5 => scanDecimals s
  | 6 => scanExponent s
  | 8 => scanExponentDigits 8 s
  | _ => (position, s.dropWhile isDigit)

def digitsValue (s : Bytes) : Nat := s.foldl (fun x c => (x * 10 + (c.toNat - 0x30)) % 2 ^ 64) 0

def numberValue (lib : Libc) (position : Nat) (text : Bytes) : Value :=
  if text.length = 1 then .int ((text.getD 0 0).toNat - 0x30)
  else if position < 4 then
    if text.head? = some 0x2D then .int (signed 8 ((2 ^ 64 - digitsValue text.tail) % 2 ^ 64)) else .unsigned (digitsValue text)
  else .double (lib.strtod text)

/-- `consume_number`, where `str` is what the ranges before had of the number. -/
def consumeNumber (lib : Libc) (complete : Bool) (position : Nat) (str s : Bytes) : TokenEnd :=
  let r := scanNumber position s
  let text := str ++ s.take (s.length - r.2.length)
  if r.2 ≠ [] ∨ complete then
    if r.1 % 2 = 0 then .bad r.2 else .value (numberValue lib r.1 text) r.2
  else .partly (.number r.1) text

/-! ### Values -/

namespace JsonParser

variable (p : JsonParser)

def errorAt (rest : Bytes) : JsonParser × Bytes := ({ p with status := .error, part := .none }, rest)

def itemsOf : Value → List Value
  | .array items => items
  | _ => []

def entriesOf : Value → List (Bytes × Value)
  | .object entries => entries
  | _ => []

/-- What `state_` becomes with a container. -/
def opened : Value → Option Status
  | .array _ => some .arrayInitial
  | .object _ => some .objectInitial
  | _ => none

/-- `stack_.pop_back()` -/
def pop : JsonParser :=
  match p.stack with
  | [] => p
  | f :: stack => { p with stack, json := f.fill p.json }

/-- From the label `value` on. -/
def value (j : Value) : JsonParser :=
  let p := { p with part := .none, str := [] }
  match p.status, p.stack, p.json with
  | .initial, _, _ => { p with json := j, status := (opened j).getD .final }
  | .objectValue, .entry before key after :: stack, .array items =>
    -- the key was there before, with an array
    let p := { p with stack := .within before key items after :: stack, json := j }
    (opened j).elim { p.pop with status := .objectDelim } fun status => { p with status }
  | .objectValue, _, _ =>
    let p := { p with json := j }
    (opened j).elim { p.pop with status := .objectDelim } fun status => { p with status }
  | _, stack, array =>
    let p := { p with stack := .item (itemsOf array) :: stack, json := j }
    (opened j).elim { p.pop with status := .arrayDelim } fun status => { p with status }

/-- From the label `close_value` on. -/
def closeValue : JsonParser :=
  match p.stack with
  | [] => { p with status := .final }
  | _ :: _ =>
    let p := p.pop
    { p with status := match p.json with | .array _ => .arrayDelim | _ => .objectDelim }

/-- `get_insert` of a key that has been read. -/
def enter (k : Bytes) : Except Fault JsonParser :=
  let p := { p with part := .none, str := [] }
  if ¬Keyed ((entriesOf p.json).map Prod.fst ++ [k]) then .error .index
  else
    match (entriesOf p.json).span fun e => e.1 ≠ k with
    | (before, e :: after) => .ok { p with stack := .entry before k after :: p.stack, json := e.2 }
    | (before, []) => .ok { p with stack := .entry before k [] :: p.stack, json := .null }

/-- What comes after `consume_string`. -/
def stringDone : StringEnd → Except Fault (JsonParser × Bytes)
  | .closed s rest => if p.status = .objectColon then (p.enter s).map fun p => (p, rest) else .ok (p.value (.str s), rest)
  | .partly partlen s => .ok ({ p with part := .string partlen, str := s }, [])
  | .bad rest => .ok (p.errorAt rest)

def tokenDone : TokenEnd → JsonParser × Bytes
  | .value v rest => (p.value v, rest)
  | .partly part str => ({ p with part, str }, [])
  | .bad rest => p.errorAt rest

/-- One round of the loop of `consume`. -/
def round (lib : Libc) (complete : Bool) : Bytes → Except Fault (JsonParser × Bytes)
  | [] => .ok (p, [])
  | c :: s =>
    if isSpace c then .ok (p, s.dropWhile isSpace)
    else if c = 0x2C then
      if p.status = .arrayDelim then .ok ({ p with status := .arrayValue }, s)
      else if p.status = .objectDelim then .ok ({ p with status := .objectKey }, s)
      else .ok (p.errorAt (c :: s))
    else if c = 0x3A then
      if p.status = .objectColon then .ok ({ p with status := .objectValue }, s) else .ok (p.errorAt (c :: s))
    else if c = 0x7B ∨ c = 0x5B then
      if p.status.expectsValue ∧ p.stack.length ≠ maxDepth then .ok (p.value (if c = 0x7B then .object [] else .array []), s)
      else .ok (p.errorAt (c :: s))
    else if c = 0x7D then
      if p.status = .objectInitial ∨ p.status = .objectDelim then .ok (p.closeValue, s) else .ok (p.errorAt (c :: s))
    else if c = 0x5D then
      if p.status = .arrayInitial ∨ p.status = .arrayDelim then .ok (p.closeValue, s) else .ok (p.errorAt (c :: s))
    else if c = 0x22 then
      if p.status.expectsValue then (stringRun [] s).bind p.stringDone
      else if p.status = .objectInitial ∨ p.status = .objectKey then (stringRun [] s).bind { p with status := .objectColon }.stringDone
      else .ok (p.errorAt (c :: s))
    else if c = 0x6E ∨ c = 0x66 ∨ c = 0x74 then
      if p.status.expectsValue then .ok (p.tokenDone (consumePrimitive (if c = 0x6E then 1 else if c = 0x66 then 6 else 12) s))
      else .ok (p.errorAt (c :: s))
    else if c = 0x2D ∨ isDigit c then
      if p.status.expectsValue then .ok (p.tokenDone (consumeNumber lib complete 0 [] (c :: s))) else .ok (p.errorAt (c :: s))
    else .ok (p.errorAt (c :: s))

/-- The loop of `consume`. `fuel` bounds the rounds. -/
def loop (lib : Libc) (complete : Bool) : Nat → JsonParser → Bytes → Except Fault (JsonParser × Bytes)
  | 0, _, _ => .error .endless
  | fuel + 1, p, rest =>
    if p.status.isDone ∨ rest = [] then .ok (p, rest) else (p.round lib complete rest).bind fun r => loop lib complete fuel r.1 r.2

/-- `streaming_parser::consume`: the parser, and what it leaves of the range. -/
def consume (lib : Libc) (complete : Bool) (s : Bytes) : Except Fault (JsonParser × Bytes) :=
  let resumed : Except Fault (JsonParser × Bytes) :=
    match p.part with
    | .none => .ok (p, s)
    | .string partlen => (consumeStringpart partlen p.str s).bind p.stringDone
    | .primitive n => .ok (p.tokenDone (consumePrimitive n s))
    | .number position => .ok (p.tokenDone (consumeNumber lib complete position p.str s))
  resumed.bind fun r => loop lib complete (r.2.length + 1) r.1 r.2

end JsonParser

/-- `Json::parse`: `assign_parse` passes over one space behind the value. -/
def parse (lib : Libc) (s : Bytes) : Except Fault (Option Value) :=
  (JsonParser.consume {} lib true s).map fun r =>
    let rest := match r.2 with | c :: rest => if isSpace c then rest else c :: rest | [] => []
    if rest = [] ∧ r.1.status = .final then some r.1.json else none

end Masstree.JsonText
