import Masstree.Msgpack.Node

/-!
# The streaming parser

`streaming_parser::consume` on a range of bytes, with a position in it. The parser's pointers into the value it builds
are a zipper: the value that the top of `stack_` points to, and for each element of the stack the rest of its container.
-/

namespace Masstree.Msgpack

/-- An element of `stack_`. `size` is the number of items or entries after the one it points to. -/
inductive Frame where
  | item (capacity : Nat) (before after : List Node)
  /-- `jp == &jokey_` -/
  | key (table : Nat) (entries : List (Bytes × Node)) (size : Nat)
  | entry (table : Nat) (before : List (Bytes × Node)) (key : Bytes) (after : List (Bytes × Node)) (size : Nat)

/-- `state_`. The last two are `st_partial` and `st_string`, with `str_` and the size on the stack. The memo of `str_` has room for what
is saved of a header, which is at most 8 bytes. -/
inductive Status where
  | final
  | error
  | normal
  | header (saved : Bytes)
  | body (saved : Bytes) (size capacity : Nat)

structure Stream where
  status : Status
  stack : List Frame
  /-- `stack_.empty() ? json_ : *stack_.back().jp` -/
  json : Node
  /-- `jokey_`, where that is not `json` -/
  jokey : Node

/-- What a value begins with. -/
inductive Item where
  | value (v : Node)
  | array (size : Nat)
  | map (size : Nat)
  | raw (size : Nat)

/-- What a type byte tells. -/
inductive Lead where
  | now (item : Item)
  /-- `nbytes` -/
  | wide (n : Nat)
  | bad

namespace Status

def isNormal : Status → Bool
  | normal => true
  | _ => false

/-- `state_ < 0` -/
def isDone : Status → Bool
  | final | error => true
  | _ => false

end Status

def nbytes : List Nat :=
  [0, 0, 0, 0, 2, 3, 5, 0, 0, 0, 5, 9, 2, 3, 5, 9, 2, 3, 5, 9, 0, 0, 0, 0, 0, 2, 3, 5, 3, 5, 3, 5]

def lead (b : UInt8) : Lead :=
  if Format.isFixint b then .now (.value (.int (signed 1 b.toNat)))
  else if b.toNat = 0xC0 then .now (.value .null)
  else if b.toNat = 0xC2 ∨ b.toNat = 0xC3 then .now (.value (.bool (b.toNat = 0xC3)))
  else if Format.isFixmap b then .now (.map (b.toNat - 0x80))
  else if Format.isFixarray b then .now (.array (b.toNat - 0x90))
  else if Format.isFixstr b then .now (.raw (b.toNat - 0xA0))
  else if nbytes.getD (b.toNat - 0xC0) 0 = 0 then .bad
  else .wide (nbytes.getD (b.toNat - 0xC0) 0)

/-- The `switch` over the type, for all the bytes of a header. -/
def decode : Bytes → Item
  | [] => .value .null
  | b :: w =>
    let x := netOrder w
    match b.toNat with
    | 0xCA => .value (.double (floatToDouble x))
    | 0xCB => .value (.double x)
    | 0xCC => .value (.int x)
    | 0xCD => .value (.int x)
    | 0xCE => .value (.unsigned x)
    | 0xCF => .value (.unsigned x)
    | 0xD0 => .value (.int (signed 1 x))
    | 0xD1 => .value (.int (signed 2 x))
    | 0xD2 => .value (.int (signed 4 x))
    | 0xD3 => .value (.int (signed 8 x))
    | 0xDC => .array x
    | 0xDD => .array x
    | 0xDE => .map x
    | 0xDF => .map x
    | _ => .raw x

/-- `Json::to_s` of an integer -/
def decimal (x : Int) : Bytes :=
  let digits := (Nat.toDigits 10 x.natAbs).map fun c => UInt8.ofNat c.toNat
  if x < 0 then 0x2D :: digits else digits

namespace Stream

/-- After `reset`, which keeps the values. -/
def start (json jokey : Node) : Stream := ⟨.normal, [], json, jokey⟩

/-- The end of the loop's body: finished containers are left, and the next value is due. -/
def advance (jokey : Node) : List Frame → Node → Stream
  | [], v => ⟨.final, [], v, jokey⟩
  | .item capacity before [] :: stack, v => advance jokey stack (.array capacity (before ++ [v]))
  | .item capacity before (x :: after) :: stack, v => ⟨.normal, .item capacity (before ++ [v]) after :: stack, x, jokey⟩
  | .entry table before k after 0 :: stack, v => advance jokey stack (.object table (before ++ (k, v) :: after))
  | .entry table before k after (n + 1) :: stack, v =>
    ⟨.normal, .key table (before ++ (k, v) :: after) n :: stack, jokey, jokey⟩
  | .key table entries n :: stack, v => ⟨.error, .key table entries n :: stack, v, jokey⟩

/-- `get_insert` for a key just read. -/
def enter (table : Nat) (entries : List (Bytes × Node)) (k : Bytes) (size : Nat) (stack : List Frame) (jokey : Node) :
    Except Fault Stream :=
  match ObjectJson.enter hashcode table (entries.map Prod.fst) k with
  | none => .error .index
  | some table =>
    match entries.span fun e => e.1 ≠ k with
    | (before, e :: after) => .ok ⟨.normal, .entry table before k after size :: stack, e.2, jokey⟩
    | (before, []) => .ok ⟨.normal, .entry table before k [] size :: stack, .null, jokey⟩

def keyOf : Node → Option Bytes
  | .str k => some k
  | .int x => some (decimal x)
  | .unsigned x => some (decimal x)
  | _ => none

/-- From the label `next` on, with the value stored and the variable `n`. -/
def next (p : Stream) (v : Node) (n : Nat) : Except Fault Stream :=
  match p.stack with
  | .key table entries size :: stack =>
    match keyOf v with
    | some k => enter table entries k size stack v
    | none => .ok ⟨.error, .key table entries size :: stack, v, p.jokey⟩
  | stack =>
    match v, n with
    | .array capacity (x :: after), _ + 1 => .ok ⟨.normal, .item capacity [] after :: stack, x, p.jokey⟩
    | .object table entries, n + 1 => .ok ⟨.normal, .key table entries n :: stack, p.jokey, p.jokey⟩
    | v, _ => .ok (advance p.jokey stack v)

/-- The size the code acts on: an `int`. -/
def checkSize (size : Nat) : Except Fault Nat := if signed 4 size = size then .ok size else .error .length

def readAt (data : Bytes) (i : Nat) : Except Fault UInt8 := (data[i]?).elim (.error .outside) .ok

def slice (data : Bytes) (i j : Nat) : Except Fault Bytes :=
  if i ≤ j ∧ j ≤ data.length then .ok ((data.drop i).take (j - i)) else .error .outside

/-- From a complete header on, where `go` is the rest of the loop. -/
def store (data : Bytes) (go : Stream → Nat → Except Fault (Stream × Nat)) (p : Stream) (first : Nat) :
    Item → Except Fault (Stream × Nat)
  | .value v => (next p v 0).bind fun q => go q first
  | .array size => (checkSize size).bind fun n => (p.json.resize n).bind fun v => (next p v n).bind fun q => go q first
  | .map size => (checkSize size).bind fun n => (next p p.json.clear n).bind fun q => go q first
  | .raw size =>
    (checkSize size).bind fun n =>
      if (data.length : Int) - first < n then
        (slice data first data.length).bind fun s =>
          (stringCapacity s.length).map fun capacity => ({ p with status := .body s n capacity }, data.length)
      else
        (slice data first (first + n)).bind fun s =>
          (stringCapacity s.length).bind fun _ => (next p (.str s) n).bind fun q => go q (first + n)

/-- The loop of `consume`, from the position `first` of the range. `fuel` bounds the rounds. -/
def loop (data : Bytes) : Nat → Stream → Nat → Except Fault (Stream × Nat)
  | 0, _, _ => .error .endless
  | fuel + 1, p, first =>
    let go (p : Stream) (first : Nat) := if p.status.isNormal then loop data fuel p first else .ok (p, first)
    if first = data.length then .ok ({ p with status := .normal }, first)
    else
      (readAt data first).bind fun b =>
        match lead b with
        | .bad => .ok ({ p with status := .error }, first)
        | .now item => store data go p (first + 1) item
        | .wide n =>
          if (data.length : Int) - first < n then
            (slice data first data.length).map fun s => ({ p with status := .header s }, data.length)
          else (slice data first (first + n)).bind fun h => store data go p (first + n) (decode h)

/-- The loop from a position on, unless the parser is done. -/
def resume (data : Bytes) (p : Stream) (first : Nat) : Except Fault (Stream × Nat) :=
  if p.status.isNormal then loop data (data.length + 1) p first else .ok (p, first)

/-- `nbytes[str_.udata()[0] - 0xC0]` -/
def headerSize (saved : Bytes) : Except Fault Nat := (readAt saved 0).map fun b => nbytes.getD (b.toNat - 0xC0) 0

/-- `str_` with what it needs of the range, and the position after that. -/
def fill (data saved : Bytes) (nneed : Nat) : Except Fault (Bytes × Nat) :=
  let next := if (data.length : Int) < nneed - saved.length then data.length else nneed - saved.length
  (slice data 0 next).map fun s => (saved ++ s, next)

/-- `streaming_parser::consume`: the parser, and how far in the range it returns. -/
def consume (p : Stream) (data : Bytes) : Except Fault (Stream × Nat) :=
  match p.status with
  | .final | .error => .ok (p, 0)
  | .normal => resume data p 0
  | .header saved =>
    (headerSize saved).bind fun nneed => (fill data saved nneed).bind fun (str, next) =>
      if str.length ≠ nneed then .ok ({ p with status := .header str }, next)
      else (resume str { p with status := .normal } 0).bind fun r => resume data r.1 next
  | .body saved nneed capacity =>
    (fill data saved nneed).bind fun (str, next) =>
      (appendUninitialized capacity saved.length next).bind fun capacity =>
        if str.length ≠ nneed then .ok ({ p with status := .body str nneed capacity }, next)
        else (Stream.next p (.str str) 0).bind fun q => resume data q next

end Stream

end Masstree.Msgpack
