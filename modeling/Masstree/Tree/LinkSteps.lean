import Masstree.Tree.LinkCalls

/-!
# The list while calls are in progress

A new leaf takes its place with the store to `prev_` of the leaf after it, before the leaf before it names it, and a leaf goes with the
last store of `unlink`.
-/

namespace Masstree.Tree.Leaflink

open Neighbours Pool

variable {N T K : Type} {m m' : Memory N} {M : List N} {D : Set N} {w y : Option N}
variable [LinearOrder K] {bound : N → K} {leftmost : N} {c c' : Call N} {x n nr p : N}

variable (bound leftmost) in
/-- `M` has the leaves in their places, `D` those taken out. -/
structure Shape (m : Memory N) (calls : T → Option (Call N)) (linked made M : List N) (D : Set N) : Prop where
  ordered : Ordered bound M
  first : leftmost ∈ M ∧ ∀ x ∈ M, bound leftmost ≤ bound x
  members : ∀ x, x ∈ linked ↔ x ∈ M ∧ Every calls fun c => c.nr ≠ some x
  out : ∀ d ∈ D, d ∈ made ∧ d ∉ M ∧ Every calls (fun c => c.nr ≠ some d) ∧ ∃ next, m.next d = mark next
  holds : Every calls fun c => c.Holds bound leftmost m M D
  owners : Apart calls Call.Owns
  free : ∀ x ∈ M, Every calls (fun c => ¬c.Owns x) → ∃ next, After bound M x next ∧ m.next x = plain next
  back : ∀ x y, After bound M x (some y) → Every calls (fun c => ¬c.Moves x) → m.prev y = some x
  head : m.prev leftmost = none

variable {calls : T → Option (Call N)} {t : T} {locked linked made : List N}

/-! ### What is where -/

theorem Shape.exists_prev (shape : Shape bound leftmost m calls linked made M D) (mem : n ∈ M) (other : n ≠ leftmost) :
    ∃ p ∈ M, m.prev n = some p := by
  have lt : bound leftmost < bound n :=
    lt_of_le_of_ne (shape.first.2 n mem) fun same => other (shape.ordered.eq mem shape.first.1 same.symm)
  obtain ⟨x, before⟩ := exists_before shape.ordered mem shape.first.1 lt
  by_cases still : Every calls fun c => ¬c.Moves x
  · exact ⟨x, before.mem, shape.back x n before still⟩
  · obtain ⟨t, c, calling, moves⟩ := exists_of_not_every still
    obtain ⟨x', y, p, rfl⟩ : ∃ x' y p, c = .unlink x' (.publish y p) := by
      unfold Call.Moves at moves
      split at moves
      · exact ⟨_, _, _, rfl⟩
      · cases moves
    obtain rfl : x = x' := moves
    obtain ⟨-, ⟨after, -⟩, ⟨before', -⟩, prev⟩ := shape.holds t _ calling
    exact ⟨p, before'.mem, prev n (after.unique shape.ordered before)⟩

/-- A leaf whose link has no mark is held by no other call. -/
theorem Shape.unowned (shape : Shape bound leftmost m calls linked made M D) (threads : Threads calls locked linked made)
    (calling : calls t = some c) (link : m.next c.n = plain y) : Others calls t fun c' => ¬c'.Owns c.n := by
  intro t' c' other calling' owns
  obtain ⟨next, marked, target | some_⟩ := (shape.holds t' c' calling').marked owns
  · exact threads.targets.others calling rfl t' c' other calling' target.symm
  · rw [(null_of_mark (link.symm.trans marked)).2] at some_
    cases some_

theorem Shape.after_of_plain (shape : Shape bound leftmost m calls linked made M D) (mem : x ∈ M) (link : m.next x = plain y)
    (unowned : Every calls fun c => ¬c.Owns x) : After bound M x y := by
  obtain ⟨next, after, link'⟩ := shape.free x mem unowned
  have same : strip (plain y) = strip (plain next) := by rw [← link, link']
  rw [strip_plain, strip_plain] at same
  rwa [same]

/-- What is in its place and not yet linked. -/
theorem Shape.pending (shape : Shape bound leftmost m calls linked made M D) (mem : x ∈ M) (new : x ∉ linked) :
    ∃ t n, calls t = some (.linkSplit n x .publish) := by
  obtain ⟨t, c, calling, its⟩ : ∃ t c, calls t = some c ∧ c.nr = some x :=
    exists_of_not_every fun old => new ((shape.members x).mpr ⟨mem, old⟩)
  have holds := shape.holds t c calling
  cases c with
  | unlink n rest => cases its
  | linkSplit n nr rest =>
    obtain rfl := Option.some.inj its
    refine ⟨t, n, ?_⟩
    cases rest with
    | publish => exact calling
    | start => exact absurd mem (Gap.not_mem holds shape.ordered)
    | lock => exact absurd mem (holds.1.not_mem shape.ordered)
    | storeNext => exact absurd mem (holds.1.not_mem shape.ordered)
    | storePrev => exact absurd mem (holds.1.not_mem shape.ordered)

/-- Where the linked leaves leave a place, those not yet linked do. -/
theorem Shape.gap (shape : Shape bound leftmost m calls linked made M D) (threads : Threads calls locked linked made)
    (live : n ∈ linked) (unlocked : n ∉ locked) (above : bound n < bound nr)
    (below : ∀ x ∈ linked, bound n < bound x → bound nr < bound x) : Gap bound M n nr := by
  have mem := ((shape.members n).mp live).1
  refine ⟨mem, above, fun z memZ lt => ?_⟩
  by_cases old : z ∈ linked
  · exact below z old lt
  · obtain ⟨t, n', calling⟩ := shape.pending memZ old
    obtain ⟨after, -⟩ := shape.holds t _ calling
    have live' : n' ∈ linked := threads.live t _ calling
    have ne : n' ≠ n := by
      rintro rfl
      exact unlocked (threads.lock t _ calling)
    rcases lt_trichotomy (bound n) (bound n') with right | same | left
    · exact lt_trans (below n' live' right) (after.next z rfl).2
    · exact absurd (shape.ordered.eq after.mem mem same.symm) ne
    · obtain ⟨_, eq, le⟩ := after.least n mem left
      obtain rfl := Option.some.inj eq
      exact absurd lt (not_lt_of_ge le)

/-! ### Stores -/

section
variable [DecidableEq N]

theorem Shape.out_next {link : Link N} (shape : Shape bound leftmost m calls linked made M D) (mem : x ∈ M) :
    ∀ d ∈ D, (m.setNext x link).next d = m.next d := by
  intro d out
  refine Memory.setNext_ne ?_
  rintro rfl
  exact (shape.out d out).2.1 mem

theorem Shape.prev_other {z : N} (shape : Shape bound leftmost m calls linked made M D) (after : After bound M n y) (other : x ≠ n)
    (after' : After bound M x (some z)) : (m.setPrevOf y p).prev z = m.prev z := by
  refine Memory.setPrevOf_ne ?_
  rintro rfl
  exact other (after'.before_unique shape.ordered after)

theorem Shape.prev_leftmost (shape : Shape bound leftmost m calls linked made M D) (after : After bound M n y) :
    (m.setPrevOf y p).prev leftmost = none := by
  rw [Memory.setPrevOf_ne, shape.head]
  rintro rfl
  exact absurd (after.next leftmost rfl).2 (not_lt_of_ge (shape.first.2 n after.mem))

end

/-! ### Steps -/

section
variable [DecidableEq T]

theorem Shape.begin (shape : Shape bound leftmost m calls linked made M D) (threads : Threads calls locked linked made)
    (idle : calls t = none) (owns : ∀ x, ¬c.Owns x) (fresh : ∀ nr, c.nr = some nr → nr ∉ made)
    (holds : c.Holds bound leftmost m M D) :
    Shape bound leftmost m (Function.update calls t (some c)) linked (c.nr.toList ++ made) M D := by
  constructor
  · exact shape.ordered
  · exact shape.first
  · intro x
    rw [every_begin idle, shape.members]
    constructor
    · rintro ⟨mem, old⟩
      have live := (shape.members x).mpr ⟨mem, old⟩
      exact ⟨mem, fun its => fresh x its (threads.known x live), old⟩
    · rintro ⟨mem, -, old⟩
      exact ⟨mem, old⟩
  · intro d out
    obtain ⟨known, gone, old, link⟩ := shape.out d out
    exact ⟨List.mem_append_right _ known, gone, (every_begin idle).mpr ⟨fun its => fresh d its known, old⟩, link⟩
  · exact (every_begin idle).mpr ⟨holds, shape.holds⟩
  · refine shape.owners.update ?_
    rintro c₁ ⟨⟩ x own
    exact absurd own (owns x)
  · exact fun x mem unowned => shape.free x mem ((every_begin idle).mp unowned).2
  · exact fun x y after still => shape.back x y after ((every_begin idle).mp still).2
  · exact shape.head

/-- A step that moves no leaf. -/
theorem Shape.keep (shape : Shape bound leftmost m calls linked made M D) (calling : calls t = some c) (new : c'.nr = c.nr)
    (holds : c'.Holds bound leftmost m' M D) (off : ∀ d ∈ D, m'.next d = m.next d) (frame : Others calls t (Frame bound m M D m' M D))
    (owners : ∀ x, c'.Owns x → Others calls t fun c => ¬c.Owns x)
    (free : ∀ x ∈ M, ¬c'.Owns x → (Others calls t fun c => ¬c.Owns x) → ∃ next, After bound M x next ∧ m'.next x = plain next)
    (back : ∀ x y, After bound M x (some y) → ¬c'.Moves x → (Others calls t fun c => ¬c.Moves x) → m'.prev y = some x)
    (head : m'.prev leftmost = none) : Shape bound leftmost m' (Function.update calls t (some c')) linked made M D := by
  constructor
  · exact shape.ordered
  · exact shape.first
  · intro x
    rw [every_move calling (by rw [new]), shape.members]
  · intro d out
    obtain ⟨known, gone, old, next, link⟩ := shape.out d out
    exact ⟨known, gone, (every_move calling (by rw [new])).mpr old, next, (off d out).trans link⟩
  · refine every_set.mpr ⟨holds, fun t' c'' other calling' => ?_⟩
    exact (shape.holds t' c'' calling').frame shape.ordered (frame t' c'' other calling')
  · refine shape.owners.update ?_
    rintro c₁ ⟨⟩ x own
    exact owners x own
  · intro x mem unowned
    obtain ⟨mine, others⟩ := every_set.mp unowned
    exact free x mem mine others
  · intro x y after still
    obtain ⟨mine, others⟩ := every_set.mp still
    exact back x y after mine others
  · exact head

/-- A step that writes to no leaf in its place. -/
theorem Shape.quiet (shape : Shape bound leftmost m calls linked made M D) (threads : Threads calls locked linked made)
    (calling : calls t = some c) (new : c'.nr = c.nr) (owns : ∀ x, c'.Owns x ↔ c.Owns x) (moves : ∀ x, c'.Moves x ↔ c.Moves x)
    (holds : c'.Holds bound leftmost m' M D) (same : ∀ x, c.nr ≠ some x ∨ x ∈ M → m'.next x = m.next x ∧ m'.prev x = m.prev x) :
    Shape bound leftmost m' (Function.update calls t (some c')) linked made M D := by
  have off : ∀ d ∈ D, m'.next d = m.next d := by
    intro d out
    obtain ⟨-, -, old, -⟩ := shape.out d out
    exact (same d (.inl (old t c calling))).1
  apply shape.keep calling new holds off
  · intro t' c'' other calling'
    refine Frame.of_same (fun x mem _ => (same x (.inr mem)).1) (fun nr its _ => ?_) off fun y after => ?_
    · exact same nr (.inl fun mine => threads.news.others calling mine t' c'' other calling' its)
    · exact (same y (.inr (after.next y rfl).1)).2
  · exact fun x own => shape.owners.others calling ((owns x).mp own)
  · intro x mem mine others
    obtain ⟨next, after, link⟩ := shape.free x mem ((every_iff calling).mpr ⟨mt (owns x).mpr mine, others⟩)
    exact ⟨next, after, (same x (.inr mem)).1.trans link⟩
  · intro x y after mine others
    rw [(same y (.inr (after.next y rfl).1)).2]
    exact shape.back x y after ((every_iff calling).mpr ⟨mt (moves x).mpr mine, others⟩)
  · rw [(same leftmost (.inr shape.first.1)).2]
    exact shape.head

variable [DecidableEq N]

/-- A step that marks the link of a leaf that no call holds. -/
theorem Shape.acquire {a : N} (shape : Shape bound leftmost m calls linked made M D) (calling : calls t = some c)
    (new : c'.nr = c.nr) (owns : ∀ x, c'.Owns x ↔ c.Owns x ∨ x = a) (moves : ∀ x, c'.Moves x ↔ c.Moves x) (mem : a ∈ M)
    (unowned : Others calls t fun c => ¬c.Owns a) (holds : c'.Holds bound leftmost (m.setNext a (mark y)) M D) :
    Shape bound leftmost (m.setNext a (mark y)) (Function.update calls t (some c')) linked made M D := by
  apply shape.keep calling new holds (shape.out_next mem)
  · intro t' c'' other calling'
    refine Frame.of_same (fun x _ own => Memory.setNext_ne ?_) (fun nr _ gone => ⟨Memory.setNext_ne ?_, rfl⟩) (shape.out_next mem)
      fun _ _ => rfl
    · rintro rfl
      exact unowned t' c'' other calling' own
    · rintro rfl
      exact gone mem
  · intro x own
    rcases (owns x).mp own with old | rfl
    · exact shape.owners.others calling old
    · exact unowned
  · intro x mem mine others
    obtain ⟨apart, ne⟩ := not_or.mp (mt (owns x).mpr mine)
    obtain ⟨next, after, link⟩ := shape.free x mem ((every_iff calling).mpr ⟨apart, others⟩)
    exact ⟨next, after, (Memory.setNext_ne ne).trans link⟩
  · exact fun x y after mine others => shape.back x y after ((every_iff calling).mpr ⟨mt (moves x).mpr mine, others⟩)
  · exact shape.head

/-- The new leaf takes its place. -/
theorem Shape.placed (shape : Shape bound leftmost m calls linked made M D) (threads : Threads calls locked linked made)
    (calling : calls t = some (.linkSplit n nr (.storePrev y))) :
    Shape bound leftmost (m.setPrevOf y nr) (Function.update calls t (some (.linkSplit n nr .publish))) linked made
      (place bound nr M) D := by
  have ordered := shape.ordered
  obtain ⟨gap, prev, ⟨after, link⟩, link'⟩ := shape.holds t _ calling
  have fresh : nr ∉ M := gap.not_mem ordered
  have mem_iff : ∀ x, x ∈ place bound nr M ↔ x = nr ∨ x ∈ M := fun x => gap.mem_place ordered
  have move : ∀ {P : Call N → Prop}, (P (.linkSplit n nr .publish) ↔ P (.linkSplit n nr (.storePrev y))) →
      (Every (Function.update calls t (some (.linkSplit n nr .publish))) P ↔ Every calls P) := every_move calling
  constructor
  · exact ordered_place ordered nr
  · refine ⟨(mem_iff _).mpr (.inr shape.first.1), fun x mem => ?_⟩
    rcases (mem_iff x).mp mem with rfl | mem
    · exact le_of_lt (lt_of_le_of_lt (shape.first.2 n gap.mem) gap.above)
    · exact shape.first.2 x mem
  · intro x
    rw [move Iff.rfl, shape.members, mem_iff]
    refine and_congr_left fun others => (or_iff_right ?_).symm
    rintro rfl
    exact others t _ calling rfl
  · intro d out
    obtain ⟨known, gone, old, next, link⟩ := shape.out d out
    refine ⟨known, ?_, (move Iff.rfl).mpr old, next, by rw [Memory.setPrevOf_next, link]⟩
    rw [mem_iff]
    rintro (rfl | mem)
    · exact old t _ calling rfl
    · exact gone mem
  · refine every_set.mpr ⟨?_, fun t' c other calling' => (shape.holds t' c calling').frame ordered ?_⟩
    · exact ⟨gap.after_left ordered, y, y, by rw [Memory.setPrevOf_next, link], gap.after_right ordered after, .here⟩
    have apart : c.n ≠ n := fun same => threads.targets.others calling rfl t' c other calling' same
    constructor
    · intro x z own after'
      have other' : x ≠ n := by
        rintro rfl
        exact shape.owners.others calling rfl t' c other calling' own
      exact ⟨by rw [Memory.setPrevOf_next], gap.after_other ordered other' after'⟩
    · intro nr' _ gone
      refine ⟨by rw [Memory.setPrevOf_next], Memory.setPrevOf_ne ?_⟩
      rintro rfl
      exact gone (after.next nr' rfl).1
    · exact fun nr' _ gap' => gap'.placed gap ordered apart
    · exact fun mem => (mem_iff _).mpr (.inr mem)
    · exact fun x => .imp_left fun mem => (mem_iff _).mpr (.inr mem)
    · intro nr' w z its after' leads
      have other' : nr' ≠ n := by
        rintro rfl
        exact (threads.new t' c calling' nr' its).2 (threads.live t _ calling)
      exact ⟨z, gap.after_other ordered other' after', leads.mono fun d out => ⟨out, by rw [Memory.setPrevOf_next]⟩⟩
    · exact fun z _ after' => shape.prev_other after apart after'
  · exact shape.owners.move calling fun _ => id
  · intro x mem unowned
    have unowned := (move Iff.rfl).mp unowned
    rw [Memory.setPrevOf_next]
    rcases (mem_iff x).mp mem with rfl | old
    · exact ⟨y, gap.after_right ordered after, link'⟩
    · obtain ⟨next, after', link⟩ := shape.free x old unowned
      have other : x ≠ n := fun same => unowned t _ calling same
      exact ⟨next, gap.after_other ordered other after', link⟩
  · intro x z after' still
    rcases gap.cases ordered after after' with ⟨rfl, eq⟩ | ⟨rfl, eq⟩ | ⟨other, -, after'⟩
    · obtain rfl := Option.some.inj eq
      rw [Memory.setPrevOf_ne, prev]
      rintro rfl
      exact fresh (after.next z rfl).1
    · rw [← eq, Memory.setPrevOf_self]
    · rw [shape.prev_other after other after']
      exact shape.back x z after' ((move Iff.rfl).mp still)
  · exact shape.prev_leftmost after

/-- The leaf before names the new one. -/
theorem Shape.published (shape : Shape bound leftmost m calls linked made M D) (threads : Threads calls locked linked made)
    (calling : calls t = some (.linkSplit n nr .publish)) :
    Shape bound leftmost (m.setNext n (some (nr, false))) (Function.update calls t none) (nr :: linked) made M D := by
  obtain ⟨after, w, y, link, after', leads⟩ := shape.holds t _ calling
  have off : ∀ d ∈ D, (m.setNext n (some (nr, false))).next d = m.next d := shape.out_next after.mem
  constructor
  · exact shape.ordered
  · exact shape.first
  · intro x
    rw [List.mem_cons, shape.members, every_finish, every_iff calling]
    by_cases same : x = nr
    · subst same
      exact iff_of_true (.inl rfl) ⟨after'.mem, threads.news.others calling rfl⟩
    · have other : (Call.linkSplit n nr LinkSplit.publish).nr ≠ some x := fun eq => same (Option.some.inj eq).symm
      rw [or_iff_right same, and_iff_right other]
  · intro d out
    obtain ⟨known, gone, old, next, link⟩ := shape.out d out
    exact ⟨known, gone, every_finish.mpr ((every_iff calling).mp old).2, next, (off d out).trans link⟩
  · refine every_finish.mpr fun t' c other calling' => (shape.holds t' c calling').frame shape.ordered ?_
    refine Frame.of_same (fun x _ own => Memory.setNext_ne ?_) (fun nr' _ gone => ⟨Memory.setNext_ne ?_, rfl⟩) off fun _ _ => rfl
    · rintro rfl
      exact shape.owners.others calling rfl t' c other calling' own
    · rintro rfl
      exact gone after.mem
  · exact shape.owners.update nofun
  · intro x mem unowned
    by_cases same : x = n
    · subst same
      exact ⟨some nr, after, Memory.setNext_self⟩
    · obtain ⟨next, after, link⟩ := shape.free x mem ((every_iff calling).mpr ⟨same, every_finish.mp unowned⟩)
      exact ⟨next, after, (Memory.setNext_ne same).trans link⟩
  · intro x z after still
    exact shape.back x z after ((every_iff calling).mpr ⟨id, every_finish.mp still⟩)
  · exact shape.head

/-- The leaf after goes around the one to be unlinked. -/
theorem Shape.bypassed (shape : Shape bound leftmost m calls linked made M D) (threads : Threads calls locked linked made)
    (calling : calls t = some (.unlink n (.storePrev y p))) :
    Shape bound leftmost (m.setPrevOf y p) (Function.update calls t (some (.unlink n (.publish y p)))) linked made M D := by
  obtain ⟨other, ⟨after, link⟩, ⟨before, link'⟩⟩ := shape.holds t _ calling
  have next : (m.setPrevOf y p).next = m.next := Memory.setPrevOf_next
  have holds : Call.Holds bound leftmost (m.setPrevOf y p) M D (.unlink n (.publish y p)) := by
    refine ⟨other, ⟨after, by rw [next, link]⟩, ⟨before, by rw [next, link']⟩, ?_⟩
    rintro z rfl
    exact Memory.setPrevOf_self
  refine shape.keep calling ?_ holds (fun _ _ => by rw [next]) ?_ (fun x own => shape.owners.others calling own) ?_ ?_
    (shape.prev_leftmost after)
  · rfl
  · intro t' c other' calling'
    have apart : c.n ≠ n := fun same => threads.targets.others calling rfl t' c other' calling' same
    refine Frame.of_same (fun _ _ _ => by rw [next]) (fun nr' _ gone => ⟨by rw [next], Memory.setPrevOf_ne ?_⟩)
      (fun _ _ => by rw [next]) fun z after' => shape.prev_other after apart after'
    rintro rfl
    exact gone (after.next nr' rfl).1
  · intro x mem mine others
    rw [next]
    exact shape.free x mem ((every_iff calling).mpr ⟨mine, others⟩)
  · intro x z after' mine others
    rw [shape.prev_other after mine after']
    exact shape.back x z after' ((every_iff calling).mpr ⟨id, others⟩)

/-- The leaf before names the one after. -/
theorem Shape.unlinked (shape : Shape bound leftmost m calls linked made M D) (threads : Threads calls locked linked made)
    (calling : calls t = some (.unlink n (.publish y p))) :
    Shape bound leftmost (m.setNext p (plain y)) (Function.update calls t none) (linked.filter (· ≠ n)) made
      (M.filter (· ≠ n)) (insert n D) := by
  have ordered := shape.ordered
  obtain ⟨other, ⟨after, link⟩, ⟨before, link'⟩, prev⟩ := shape.holds t _ calling
  have live : n ∈ linked := threads.live t _ calling
  have ne : n ≠ p := by
    rintro rfl
    exact lt_irrefl _ (before.next n rfl).2
  have off : ∀ d ∈ D, (m.setNext p (plain y)).next d = m.next d := shape.out_next before.mem
  have apart : ∀ {x z}, x ≠ p → After bound M x z → z ≠ some n := by
    rintro x z other after' rfl
    exact other (after'.before_unique ordered before)
  constructor
  · exact ordered_erase ordered n
  · exact ⟨mem_erase.mpr ⟨shape.first.1, other.symm⟩, fun x mem => shape.first.2 x (mem_erase.mp mem).1⟩
  · intro x
    rw [mem_erase, mem_erase, shape.members, every_finish, every_iff calling]
    constructor
    · rintro ⟨⟨mem, -, others⟩, ne⟩
      exact ⟨⟨mem, ne⟩, others⟩
    · rintro ⟨⟨mem, ne⟩, others⟩
      exact ⟨⟨mem, nofun, others⟩, ne⟩
  · rintro d (rfl | out)
    · refine ⟨threads.known _ live, fun mem => (mem_erase.mp mem).2 rfl, every_finish.mpr fun t' c _ calling' its => ?_, y, ?_⟩
      · exact (threads.new t' c calling' _ its).2 live
      · rw [Memory.setNext_ne ne, link]
    · obtain ⟨known, gone, old, next, link⟩ := shape.out d out
      exact ⟨known, fun mem => gone (mem_erase.mp mem).1, every_finish.mpr ((every_iff calling).mp old).2, next, (off d out).trans link⟩
  · refine every_finish.mpr fun t' c other' calling' => (shape.holds t' c calling').frame ordered ?_
    have apart' : c.n ≠ n := fun same => threads.targets.others calling rfl t' c other' calling' same
    have kept : ∀ d ∈ D, d ∈ insert n D ∧ (m.setNext p (plain y)).next d = m.next d := fun d out => ⟨.inr out, off d out⟩
    constructor
    · intro x z own after'
      have unowned := shape.owners.others calling (a := x)
      have ne₁ : x ≠ n := fun same => unowned (.inl same) t' c other' calling' own
      have ne₂ : x ≠ p := fun same => unowned (.inr same) t' c other' calling' own
      exact ⟨Memory.setNext_ne ne₂, after'.erase_other ne₁ (apart ne₂ after')⟩
    · exact fun nr' _ gone => ⟨Memory.setNext_ne fun same => gone (same ▸ before.mem), rfl⟩
    · exact fun _ _ gap => gap.erased apart'
    · exact fun mem => mem_erase.mpr ⟨mem, apart'⟩
    · rintro x (mem | out)
      · by_cases same : x = n
        · exact .inr (.inl same)
        · exact .inl (mem_erase.mpr ⟨mem, same⟩)
      · exact .inr (.inr out)
    · intro nr' w z its after' leads
      have ne₁ : nr' ≠ n := by
        rintro rfl
        exact (threads.new t' c calling' nr' its).2 live
      by_cases same : nr' = p
      · -- the leaf after a new one goes before the new one is named
        subst same
        obtain rfl := after'.unique ordered before
        refine ⟨y, before.erase_left ordered after, ?_⟩
        have further := (leads.mono kept).further (.inl rfl)
        rwa [Memory.setNext_ne ne, link, strip_mark] at further
      · exact ⟨z, after'.erase_other ne₁ (apart same after'), leads.mono kept⟩
    · exact fun _ _ _ => rfl
  · exact shape.owners.update nofun
  · intro x mem unowned
    obtain ⟨mem, ne₁⟩ := mem_erase.mp mem
    by_cases same : x = p
    · subst same
      exact ⟨y, before.erase_left ordered after, Memory.setNext_self⟩
    · obtain ⟨next, after', link⟩ := shape.free x mem ((every_iff calling).mpr ⟨not_or.mpr ⟨ne₁, same⟩, every_finish.mp unowned⟩)
      exact ⟨next, after'.erase_other ne₁ (apart same after'), (Memory.setNext_ne same).trans link⟩
  · intro x z after' still
    rcases before.erase_cases ordered after after' with ⟨rfl, eq⟩ | ⟨-, ne₁, after'⟩
    · exact prev z eq.symm
    · exact shape.back x z after' ((every_iff calling).mpr ⟨ne₁, every_finish.mp still⟩)
  · exact shape.head

theorem Shape.advance (shape : Shape bound leftmost m calls linked made M D) (threads : Threads calls locked linked made)
    (calling : calls t = some c) (access : Access m c m' (some c')) :
    ∃ M' D', Shape bound leftmost m' (Function.update calls t (some c')) linked made M' D' := by
  have holds := shape.holds t c calling
  cases access with
  | start n nr =>
    refine ⟨M, D, shape.quiet threads calling rfl (fun _ => Iff.rfl) (fun _ => Iff.rfl) ⟨holds, Memory.setPrev_self⟩ ?_⟩
    intro x other
    refine ⟨rfl, Memory.setPrev_ne ?_⟩
    rintro rfl
    exact Gap.not_mem holds shape.ordered (other.resolve_left (not_not_intro rfl))
  | splitWaits n nr rest rest' =>
    exact ⟨M, D, shape.quiet threads calling rfl (fun _ => Iff.rfl) (fun _ => Iff.rfl) holds fun _ _ => ⟨rfl, rfl⟩⟩
  | splitLocks n nr rest y link =>
    obtain ⟨gap, prev⟩ := holds
    have unowned := shape.unowned threads calling link
    have after := shape.after_of_plain gap.mem link ((every_iff calling).mpr ⟨id, unowned⟩)
    exact ⟨M, D, shape.acquire calling rfl (fun _ => (or_iff_right id).symm) (fun _ => Iff.rfl) gap.mem unowned
      ⟨gap, prev, after, Memory.setNext_self⟩⟩
  | storeNext n nr y =>
    obtain ⟨gap, prev, ⟨after, link⟩⟩ := holds
    have fresh := gap.not_mem shape.ordered
    have ne : n ≠ nr := fun same => fresh (same ▸ gap.mem)
    refine ⟨M, D, shape.quiet threads calling rfl (fun _ => Iff.rfl) (fun _ => Iff.rfl)
      ⟨gap, prev, ⟨after, (Memory.setNext_ne ne).trans link⟩, Memory.setNext_self⟩ ?_⟩
    intro x other
    refine ⟨Memory.setNext_ne ?_, rfl⟩
    rintro rfl
    exact fresh (other.resolve_left (not_not_intro rfl))
  | place n nr y => exact ⟨_, _, shape.placed threads calling⟩
  | unlinkWaits n rest rest' =>
    exact ⟨M, D, shape.quiet threads calling rfl (fun _ => Iff.rfl) (fun _ => Iff.rfl) holds fun _ _ => ⟨rfl, rfl⟩⟩
  | unlinkLocks n rest y link =>
    obtain ⟨other, mem⟩ := holds
    have unowned := shape.unowned threads calling link
    have after := shape.after_of_plain mem link ((every_iff calling).mpr ⟨id, unowned⟩)
    exact ⟨M, D, shape.acquire calling rfl (fun _ => (or_iff_right id).symm) (fun _ => Iff.rfl) mem unowned
      ⟨other, after, Memory.setNext_self⟩⟩
  | readPrev n p y read =>
    obtain ⟨other, held⟩ := holds
    obtain ⟨p', mem, read'⟩ := shape.exists_prev held.after.mem other
    obtain rfl := Option.some.inj (read.symm.trans read')
    exact ⟨M, D, shape.quiet threads calling rfl (fun _ => Iff.rfl) (fun _ => Iff.rfl) ⟨other, held, .inl mem⟩
      fun _ _ => ⟨rfl, rfl⟩⟩
  | retry n p y =>
    obtain ⟨other, held, -⟩ := holds
    exact ⟨M, D, shape.quiet threads calling rfl (fun _ => Iff.rfl) (fun _ => Iff.rfl) ⟨other, held⟩ fun _ _ => ⟨rfl, rfl⟩⟩
  | lockPrev n p y link =>
    -- the links of leaves taken out are marked, so the one read from `prev_` is still in its place
    obtain ⟨other, ⟨after, link'⟩, known⟩ := holds
    have mem : p ∈ M := by
      refine known.resolve_right fun out => ?_
      obtain ⟨-, -, -, next, marked⟩ := shape.out p out
      exact nomatch (@null_of_mark _ (some n) _ (link.symm.trans marked)).1
    have unowned : Every calls fun c => ¬c.Owns p := by
      intro t' c' calling' owns
      obtain ⟨next, marked, -⟩ := (shape.holds t' c' calling').marked owns
      exact nomatch (@null_of_mark _ (some n) _ (link.symm.trans marked)).1
    have before : After bound M p (some n) := shape.after_of_plain mem link unowned
    have ne : n ≠ p := fun same => unowned t _ calling same.symm
    exact ⟨M, D, shape.acquire (y := some n) calling rfl (fun x => Iff.rfl) (fun _ => Iff.rfl) mem
      ((every_iff calling).mp unowned).2 ⟨other, ⟨after, (Memory.setNext_ne ne).trans link'⟩, before, Memory.setNext_self⟩⟩
  | bypass n p y => exact ⟨_, _, shape.bypassed threads calling⟩

theorem Shape.finish (shape : Shape bound leftmost m calls linked made M D) (threads : Threads calls locked linked made)
    (calling : calls t = some c) (access : Access m c m' none) :
    ∃ M' D', Shape bound leftmost m' (Function.update calls t none) (c.linked linked) made M' D' := by
  cases access with
  | publish n nr => exact ⟨_, _, shape.published threads calling⟩
  | unlink n p y => exact ⟨_, _, shape.unlinked threads calling⟩

end

/-- No null pointer is dereferenced. -/
theorem Shape.enabled [DecidableEq N] (shape : Shape bound leftmost m calls linked made M D) (calling : calls t = some c) :
    (c.step m).isSome := by
  have holds := shape.holds t c calling
  cases c with
  | linkSplit n nr rest =>
    cases rest with
    | lock rest =>
      rcases lockNext_cases m n rest with ⟨rest', waits⟩ | ⟨y, -, locks⟩
      · simp [Call.step, waits]
      · simp [Call.step, locks]
    | start => rfl
    | storeNext => rfl
    | storePrev => rfl
    | publish => rfl
  | unlink n rest =>
    cases rest with
    | lock rest =>
      rcases lockNext_cases m n rest with ⟨rest', waits⟩ | ⟨y, -, locks⟩
      · simp [Call.step, waits]
      · simp [Call.step, locks]
    | readPrev y =>
      obtain ⟨p, -, read⟩ := shape.exists_prev holds.2.after.mem holds.1
      simp [Call.step, read]
    | cmpxchg y p =>
      rw [Call.step]
      split <;> rfl
    | storePrev => rfl
    | publish => rfl

end Masstree.Tree.Leaflink
