import Masstree.Tree.Ksuf
import Masstree.Tree.SlotKinds

/-!
# Leaves with their suffixes in bags

How an insert fills the bags of the leaf it comes to and of the leaves it makes, and what a search reads of a suffix.
-/

namespace Masstree.Tree
open Msgpack (Bytes)

variable {V : Type}

structure RawLeaf (V : Type) where
  l : Leaf V
  ksufs : Ksufs

/-- The memory an operation is given: for an external bag by the cursor's leaf and the slot that needs it,
    and for the leaves it makes. -/
structure Fresh where
  bag : Nat → Nat → Memory
  leaf : Nat → Memory

def Key.ksuf (ka : Key) : Option Bytes := if ka.hasSuffix then some ka.suffix else none

namespace LeafLayout

variable (y : LeafLayout)

/-- What `ksuf_matches` sees of the leaf: the suffix in the slot that `lower` finds is read from its bag. -/
def seen (r : RawLeaf V) (ka : Key) : Option (Leaf V) :=
  match (r.l.lower ka).2 with
  | none => some r.l
  | some p =>
    if (r.l.slot p).keylenx < ksufKeylenx ∨ (r.l.slot p).keylenx = layerKeylenx then some r.l
    else (y.ksuf r.l r.ksufs p).map fun s => { r.l with slots := r.l.slots.modify p ({ · with ksuf := s }) }

/-- The part of `assign` that stores the suffix. -/
def assignKey (l : Leaf V) (k : Ksufs) (p : Nat) (ka : Key) (mem : Memory) : Option Ksufs :=
  match ka.ksuf with
  | none => some k
  | some s => y.assignKsuf l k p s false mem

/-- The part of `assign_initialize` that stores the suffix, for the slots from `p` on. -/
def assignInitialize (l : Leaf V) (mem : Nat → Memory) : Nat → List (Option Bytes) → Ksufs → Option Ksufs
  | _, [], k => some k
  | p, none :: ksufs, k => assignInitialize l mem (p + 1) ksufs k
  | p, some s :: ksufs, k => (y.assignKsuf l k p s true (mem p)).bind (assignInitialize l mem (p + 1) ksufs)

/-- The suffixes of the items that `split_into` moves. -/
def movedKsufs (l : Leaf V) (k : Ksufs) (ka : Key) (kxi mid : Nat) : Option (List (Option Bytes)) :=
  (List.range' mid (l.size + 1 - mid)).mapM fun x =>
    if x = kxi then some ka.ksuf
    else
      let xp := l.perm.get (if kxi < x then x - 1 else x)
      if (l.slot xp).hasKsuf then (y.ksuf l k xp).map some else some none

/-- `make_split`: the bags of its leaves. -/
def splitKsufs (l : Leaf V) (k : Ksufs) (ka : Key) (kxi : Nat) (prev next : Bool) (fresh : Fresh) : Option (List Ksufs) :=
  let perm := l.perm.exchange l.size (width - 1)
  if l.size < width ∧ perm.back ≠ 0 then
    (y.assignKey { l with perm } k perm.back ka (fresh.bag 0 perm.back)).map ([·])
  else
    (y.make (y.ksufUsedCapacity k) (fresh.leaf 1)).bind fun child =>
      (l.splitInto prev next ka kxi).bind fun s =>
        (y.movedKsufs l k ka kxi s.mid).bind fun moved =>
          (y.assignInitialize s.right (fresh.bag 1) 0 moved child).bind fun child =>
            let left := l.strip s.right
            if s.splitType = 0 then
              (y.assignKey left k left.perm.back ka (fresh.bag 0 left.perm.back)).map ([·, child])
            else some [k, child]

/-- `ksufsize` of `make_new_layer` -/
def twoKsufs (oka ka : Key) : Nat :=
  if ka.hasSuffix ∨ oka.hasSuffix then (ka.suffix.length + oka.suffix.length) * (width / 2) + y.internal.overhead width else 0

/-- `make_new_layer` for the key in slot `p` and the new one: the bags of its leaves. -/
def newLayerKsufs (l : Leaf V) (k : Ksufs) (p : Nat) (ka : Key) (fresh : Fresh) : Option (List Ksufs) :=
  (makeTwig (V := V) (ka.length + 1) ⟨[], (l.slot p).ksuf⟩ ka.shift).bind fun (twig, oka, ka) =>
    ((List.range twig.length).mapM fun i => y.make 0 (fresh.leaf (i + 1))).bind fun twigKsufs =>
      (y.make (y.twoKsufs oka ka) (fresh.leaf (twig.length + 1))).bind fun nl =>
        let two := if oka.compare ka.ikey ka.length = .lt then [oka.ksuf, ka.ksuf] else [ka.ksuf, oka.ksuf]
        (y.assignInitialize (Leaf.ofTwo oka ka (l.slot p).lv) (fresh.bag (twig.length + 1)) 0 two nl).map fun nl =>
          k :: twigKsufs ++ [nl]

/-- `find_insert` at the leaf: the bags of the cursor's leaves. -/
def insertKsufs (l : Leaf V) (k : Ksufs) (prev next : Bool) (ka : Key) (fresh : Fresh) : Option (List Ksufs) :=
  (Tcursor.findLocked l ka).bind fun c =>
    if c.state = 1 then some [k]
    else
      match c.kxp with
      | some p => y.newLayerKsufs c.node k p ka fresh
      | none =>
        let l := c.node.startInsert
        if l.size < width ∧ (l.perm.back ≠ 0 ∨ ¬prev ∨ l.ikeyBound = ka.ikey) then
          (y.assignKey l k l.perm.back ka (fresh.bag 0 l.perm.back)).map ([·])
        else y.splitKsufs l k ka c.kxi prev next fresh

end LeafLayout

/-! ### Suffixes that can be read -/

def Slot.suffix (s : Slot V) : Option Bytes := if s.hasKsuf then some s.ksuf else none

/-- `keylenx_` is a length, `ksuf_keylenx` or `layer_keylenx`. -/
def Slot.Classed (s : Slot V) : Prop := s.keylenx ≤ 8 ∨ s.keylenx = ksufKeylenx ∨ s.keylenx = layerKeylenx

/-- The suffixes last assigned to the positions are in the bag. -/
def LeafLayout.Reads (y : LeafLayout) (l : Leaf V) (k : Ksufs) (ps : List Nat) : Prop :=
  ∀ p ∈ ps, (l.slot p).hasKsuf = true → y.read k p = some (l.slot p).ksuf

section Slots
variable {s : Slot V} {l l' : Leaf V} {ka : Key} {p q : Nat}

theorem hasKsuf_iff : s.hasKsuf = true ↔ s.keylenx = ksufKeylenx := decide_eq_true_iff

theorem suffix_ofKey (ka : Key) : (Slot.ofKey ka : Slot V).suffix = ka.ksuf := by
  unfold Slot.suffix Slot.ofKey Key.ksuf
  by_cases long : ka.hasSuffix = true
  · rw [if_pos long, if_pos long]
    rfl
  · have short : ¬ka.length = ksufKeylenx := by
      rw [Key.hasSuffix_iff] at long
      show ¬ka.s.length = 64
      omega
    have none_ : (⟨ka.ikey, ka.length, [], none⟩ : Slot V).hasKsuf ≠ true := fun has => short (hasKsuf_iff.mp has)
    rw [if_neg long, if_neg long, if_neg none_]

theorem suffix_eq_some {t : Bytes} : s.suffix = some t ↔ s.hasKsuf = true ∧ s.ksuf = t := by
  unfold Slot.suffix
  split
  · rename_i has
    rw [Option.some.injEq, and_iff_right has]
  · rename_i none_
    exact ⟨nofun, fun both => absurd both.1 none_⟩

theorem reads_iff {y : LeafLayout} {k : Ksufs} {ps : List Nat} :
    y.Reads l k ps ↔ ∀ p ∈ ps, ∀ t, (l.slot p).suffix = some t → y.read k p = some t := by
  refine forall_congr' fun p => imp_congr_right fun _ => ⟨?_, ?_⟩
  · intro reads t at_
    obtain ⟨has, rfl⟩ := suffix_eq_some.mp at_
    exact reads has
  · intro reads has
    exact reads _ (suffix_eq_some.mpr ⟨has, rfl⟩)

theorem classed_ofKey (ka : Key) : (Slot.ofKey ka : Slot V).Classed := by
  unfold Slot.ofKey
  split
  · exact .inr (.inl rfl)
  · rename_i short
    rw [Key.hasSuffix_iff] at short
    exact .inl (Nat.le_of_not_lt short)

/-- Whatever keys are inserted. -/
theorem classed_kind : Slot.Kind (Slot.Classed : Slot V → Prop) (fun _ => True) where
  empty := .inl (Nat.zero_le 8)
  ofKey ka _ := classed_ofKey ka
  ofLayer _ := .inr (.inr rfl)
  value _ _ classed := classed
  setLayer _ _ := .inr (.inr rfl)
  shift _ _ := trivial
  ksuf _ _ _ _ := trivial

theorem ksufBytes_append (l : Leaf V) (ps ps' : List Nat) : l.ksufBytes (ps ++ ps') = l.ksufBytes ps + l.ksufBytes ps' := by
  unfold Leaf.ksufBytes
  rw [List.filter_append, List.map_append, List.sum_append]

theorem ksufBytes_singleton (l : Leaf V) (p : Nat) : l.ksufBytes [p] = (l.slot p).suffix.elim 0 List.length := by
  unfold Leaf.ksufBytes Slot.suffix
  by_cases has : (l.slot p).hasKsuf = true
  · simp [has]
  · simp [has]

theorem ksufBytes_cons (l : Leaf V) (p : Nat) (ps : List Nat) :
    l.ksufBytes (p :: ps) = (l.slot p).suffix.elim 0 List.length + l.ksufBytes ps := by
  rw [← List.singleton_append, ksufBytes_append, ksufBytes_singleton]

theorem ksufBytes_range_succ (l : Leaf V) (p : Nat) :
    l.ksufBytes (List.range (p + 1)) = l.ksufBytes (List.range p) + (l.slot p).suffix.elim 0 List.length := by
  rw [List.range_succ, ksufBytes_append, ksufBytes_singleton]

theorem ksufBytes_range_le (l : Leaf V) (p m : Nat) : l.ksufBytes (List.range p) ≤ l.ksufBytes (List.range (p + m)) := by
  rw [List.range_add, ksufBytes_append]
  exact Nat.le_add_right _ _

/-- A search ends at a live slot. -/
theorem lower_mem (search : (l.lower ka).2 = some p) : p ∈ l.perm.live := by
  have bounds := (l.lower_bounds ka).2 p search
  have at_ : p = l.perm.get (l.lower ka).1 := by
    unfold Leaf.lower at search ⊢
    dsimp only at search ⊢
    split at search
    · exact (Option.some.inj search).symm
    · cases search
  rw [at_]
  exact Permuter.get_mem_live bounds

end Slots

namespace LeafLayout

variable {y : LeafLayout} {n total p : Nat} {k k' : Ksufs} {l l' : Leaf V} {ka : Key} {ps ps' : List Nat}

theorem Reads.mono (reads : y.Reads l k ps) (same : ∀ p ∈ ps', ∀ t, (l'.slot p).suffix = some t → p ∈ ps ∧ (l.slot p).suffix = some t) :
    y.Reads l' k ps' := by
  rw [reads_iff] at reads ⊢
  intro p mem t at_
  obtain ⟨mem', at'⟩ := same p mem t at_
  exact reads p mem' t at'

theorem Reads.subset (reads : y.Reads l k ps) (subset : ∀ p ∈ ps', p ∈ ps) (same : l'.slots = l.slots) : y.Reads l' k ps' := by
  refine reads.mono fun p mem t at_ => ⟨subset p mem, ?_⟩
  rwa [Leaf.slot, same] at at_

theorem Reads.ksuf (reads : y.Reads l k ps) (mem : p ∈ ps) (has : (l.slot p).hasKsuf = true) : y.ksuf l k p = some (l.slot p).ksuf := by
  rw [LeafLayout.ksuf, if_pos has, reads p mem has]

theorem Reads.suffix (reads : y.Reads l k ps) (mem : p ∈ ps) : y.ksuf l k p = (l.slot p).suffix := by
  by_cases has : (l.slot p).hasKsuf = true
  · rw [reads.ksuf mem has, Slot.suffix, if_pos has]
  · rw [LeafLayout.ksuf, Slot.suffix, if_neg has, if_neg has]

theorem Sound.most (sound : y.Sound n k total) : y.Sound n k (2 ^ n) := by
  cases at_ : k.ksuf with
  | none => exact (sound_internal at_).mpr ((sound_internal at_).mp sound)
  | some bag =>
    obtain ⟨dead, cap, used, laid, most, -⟩ := (sound_external at_).mp sound
    refine (sound_external at_).mpr ⟨dead, cap, used, laid, most, ?_⟩
    have high := laid.high
    omega

/-- The suffix of a new key in a live leaf. -/
theorem assignKey_spec (sound : y.Sound n k (2 ^ n)) (le : n ≤ 16) (perm : l.perm.Wf) (slots : l.slots.length = width)
    (free : p ∉ l.perm.live) (lt : p < width) (reads : y.Reads l k l.perm.live)
    (fits : y.external.safeSize width (l.ksufBytes l.perm.live + ka.suffix.length) ≤ 2 ^ n) (mode : l.modstate ≠ .remove)
    (mark : ka.hasSuffix = true → ¬y.Wraps k p ka.suffix) (mem : Memory) :
    ∃ k', y.assignKey l k p ka mem = some k' ∧ y.Sound n k' (2 ^ n) ∧ y.Reads (l.assign p ka) k' (p :: l.perm.live) := by
  have others : ∀ q, q ∈ l.perm.live → q ≠ p := by
    rintro q live rfl
    exact free live
  have kept : l.kept p false = l.perm.live.filter fun q => (l.slot q).hasKsuf := by
    refine List.filter_congr fun q live => ?_
    simp [others q live]
  have elsewhere : ∀ q ∈ l.perm.live, (l.assign p ka).slot q = l.slot q := fun q live => l.slot_assign ka (others q live)
  have here : (l.assign p ka).slot p = .ofKey ka := l.slot_assign_self ka (by rwa [slots])
  have few : l.ksufBytes l.perm.live ≤ 2 ^ n := by
    have slice := y.slice_ge
    rw [safeSize_external] at fits
    omega
  unfold assignKey
  cases suffix : ka.ksuf with
  | none =>
    refine ⟨k, rfl, sound, reads.mono fun q mem_ t at_ => ?_⟩
    rcases List.mem_cons.mp mem_ with rfl | live
    · rw [here, suffix_ofKey, suffix] at at_
      cases at_
    · exact ⟨live, by rwa [elsewhere q live] at at_⟩
  | some s =>
    obtain ⟨long, rfl⟩ : ka.hasSuffix = true ∧ ka.suffix = s := by
      rw [Key.ksuf] at suffix
      split at suffix
      · exact ⟨by assumption, Option.some.inj suffix⟩
      · cases suffix
    obtain ⟨k', assigned, sound', got, others'⟩ := assignKsuf_spec false sound le lt
      (fun q mem_ => reads q (List.mem_filter.mp (kept ▸ mem_)).1 (mem_kept.mp mem_).2.2)
      (kept ▸ perm.live_nodup.filter _) (fun q mem_ => perm.mem_iff.mp (.inl (List.mem_filter.mp (kept ▸ mem_)).1))
      (show _ = l.ksufBytes l.perm.live by rw [kept]; rfl) fits few mode (mark long) mem
    refine ⟨k', assigned, sound'.most, reads_iff.mpr fun q mem_ t at_ => ?_⟩
    rcases List.mem_cons.mp mem_ with rfl | live
    · rw [here, suffix_ofKey, suffix] at at_
      rw [got, at_]
    · rw [elsewhere q live] at at_
      obtain ⟨has, rfl⟩ := suffix_eq_some.mp at_
      exact others' q (mem_kept.mpr ⟨live, others q live, has⟩)

/-- The leaf that is being filled has the suffixes of the slots before `p`. -/
theorem assignInitialize_spec (le : n ≤ 16) (mode : l.modstate ≠ .remove) (mem : Nat → Memory) {m : Nat} (inside : p + m ≤ width)
    (fits : y.external.safeSize width (l.ksufBytes (List.range (p + m))) ≤ 2 ^ n) (sound : y.Sound n k (l.ksufBytes (List.range p)))
    (reads : y.Reads l k (List.range p)) :
    ∃ k', y.assignInitialize l mem p ((List.range' p m).map fun q => (l.slot q).suffix) k = some k' ∧ y.Sound n k' (2 ^ n) ∧
      y.Reads l k' (List.range (p + m)) := by
  induction m generalizing p k with
  | zero => exact ⟨k, rfl, sound.most, reads⟩
  | succ m ih =>
    have next : p + (m + 1) = p + 1 + m := by omega
    have bytes := ksufBytes_range_succ l p
    rw [next] at fits inside ⊢
    rw [List.range'_succ, List.map_cons]
    cases suffix : (l.slot p).suffix with
    | none =>
      rw [suffix] at bytes
      refine ih inside fits (bytes ▸ sound) (reads.mono fun q mem_ t at_ => ⟨?_, at_⟩)
      rcases Nat.lt_succ_iff_lt_or_eq.mp (List.mem_range.mp mem_) with lt | rfl
      · exact List.mem_range.mpr lt
      · rw [suffix] at at_
        cases at_
    | some s =>
      rw [suffix] at bytes
      obtain ⟨has, rfl⟩ := suffix_eq_some.mp suffix
      have grows := ksufBytes_range_le l (p + 1) m
      have slice := y.slice_ge
      have powers : 2 ^ n ≤ 2 ^ 16 := Nat.pow_le_pow_right (by decide) le
      have kept : l.kept p true = (List.range p).filter fun q => (l.slot q).hasKsuf := by
        refine List.filter_congr fun q mem_ => ?_
        simp [Nat.ne_of_lt (List.mem_range.mp mem_)]
      dsimp only [Option.elim_some] at bytes
      rw [safeSize_external] at fits
      obtain ⟨k', assigned, sound', got, others⟩ := assignKsuf_spec (s := (l.slot p).ksuf) true sound le (by omega)
        (fun q mem_ => reads q (List.mem_filter.mp (kept ▸ mem_)).1 (mem_kept.mp mem_).2.2)
        (kept ▸ List.nodup_range.filter _) (fun q mem_ => by
          have below := List.mem_range.mp (List.mem_filter.mp (kept ▸ mem_)).1
          omega)
        (show _ = l.ksufBytes (List.range p) by rw [kept]; rfl) (by rw [safeSize_external]; omega) (Nat.le_refl _) mode
        (sound.not_wraps (.inr (by omega))) (mem p)
      rw [← bytes] at sound'
      obtain ⟨last, filled, rest⟩ := ih inside (by rw [safeSize_external]; exact fits) sound' (by
        intro q mem_ has'
        rcases Nat.lt_succ_iff_lt_or_eq.mp (List.mem_range.mp mem_) with lt | rfl
        · exact others q (mem_kept.mpr ⟨List.mem_range.mpr lt, Nat.ne_of_lt lt, has'⟩)
        · exact got)
      refine ⟨last, ?_, rest⟩
      rw [LeafLayout.assignInitialize, assigned, Option.bind_some, filled]

end LeafLayout

/-- What holds of a leaf and its bag between operations. -/
structure RawLeaf.Ok (y : LeafLayout) (n : Nat) (r : RawLeaf V) : Prop where
  wf : r.l.Wf
  sound : y.Sound n r.ksufs (2 ^ n)
  reads : y.Reads r.l r.ksufs r.l.perm.live

/-- The positions that have or are to have an entry. -/
def Tcursor.positions (c : Tcursor V) (i : Nat) (m : Leaf V) : List Nat :=
  if i = c.n ∧ c.state = 2 then m.perm.back :: m.perm.live else m.perm.live

namespace LeafLayout

/-- The suffixes of each leaf that the cursor puts its key in or makes fit in an external bag of `2 ^ n` bytes. -/
def Fits (y : LeafLayout) (n : Nat) (c : Tcursor V) : Prop :=
  ∀ i m, c.nodes[i]? = some m → (i = 0 → c.n = 0) →
    y.external.safeSize width (m.ksufBytes m.perm.live + if i = c.n then c.ka.suffix.length else 0) ≤ 2 ^ n

/-- The bags of the cursor's leaves, before it finishes. -/
structure Filled (y : LeafLayout) (n : Nat) (c : Tcursor V) (ksufs : List Ksufs) : Prop where
  length : ksufs.length = c.nodes.length
  each : ∀ i m k, c.nodes[i]? = some m → ksufs[i]? = some k →
    y.Sound n k (2 ^ n) ∧ y.Reads m k (c.positions i m)

variable {y : LeafLayout} {n total p : Nat} {k k' : Ksufs} {l l' : Leaf V} {ka : Key} {r : RawLeaf V} {prev next : Bool}

theorem modify_same (l : Leaf V) (p : Nat) : l.slots.modify p ({ · with ksuf := (l.slot p).ksuf }) = l.slots := by
  apply List.ext_getElem?
  intro q
  rw [List.getElem?_modify]
  by_cases same : p = q
  · subst same
    unfold Leaf.slot
    cases at_ : l.slots[p]? with
    | none => rfl
    | some s =>
      rw [List.getD_eq_getElem?_getD, at_]
      simp
  · simp [same]

theorem seen_eq (ok : r.Ok y n) (classed : r.l.All Slot.Classed) (ka : Key) : y.seen r ka = some r.l := by
  unfold seen
  cases search : (r.l.lower ka).2 with
  | none => rfl
  | some p =>
    dsimp only
    split
    · rfl
    · rename_i other
      rw [not_or] at other
      have has : (r.l.slot p).hasKsuf = true := by
        refine hasKsuf_iff.mpr ?_
        rcases classed.slot classed_kind p with short | ksuf | layer
        · exact absurd (Nat.lt_of_le_of_lt short (show 8 < ksufKeylenx by decide)) other.1
        · exact ksuf
        · exact absurd layer other.2
      rw [ok.reads.ksuf (lower_mem search) has, Option.map_some, modify_same]

theorem ksufBytes_congr {ps : List Nat} (same : ∀ p ∈ ps, (l'.slot p).suffix = (l.slot p).suffix) :
    l'.ksufBytes ps = l.ksufBytes ps := by
  induction ps with
  | nil => rfl
  | cons p ps ih =>
    rw [ksufBytes_cons, ksufBytes_cons, same p List.mem_cons_self, ih fun q mem => same q (List.mem_cons_of_mem p mem)]

theorem ksufBytes_perm {ps ps' : List Nat} (perm : ps.Perm ps') : l.ksufBytes ps = l.ksufBytes ps' :=
  ((perm.filter _).map _).sum_nat

theorem length_ksuf (ka : Key) : ka.ksuf.elim 0 List.length = ka.suffix.length := by
  unfold Key.ksuf
  split
  · rfl
  · rename_i short
    rw [Key.hasSuffix_iff] at short
    show 0 = (ka.s.drop 8).length
    rw [List.length_drop]
    omega

/-- A cursor that has put its key in its only leaf. -/
theorem filled_one {c : Tcursor V} {m : Leaf V} (nodes : c.nodes = [m]) (first : c.n = 0) (two : c.state = 2)
    (sound : y.Sound n k (2 ^ n)) (reads : y.Reads m k (m.perm.back :: m.perm.live)) : y.Filled n c [k] := by
  refine ⟨by rw [nodes]; rfl, fun i m' k' at_ at' => ?_⟩
  rw [nodes] at at_
  cases i with
  | zero =>
    obtain rfl := Option.some.inj at_
    obtain rfl := Option.some.inj at'
    rw [Tcursor.positions, if_pos ⟨first.symm, two⟩]
    exact ⟨sound, reads⟩
  | succ i => cases at_

/-- The new key goes to the next free slot. -/
theorem assignBack_spec (sound : y.Sound n k (2 ^ n)) (le : n ≤ 16) (perm : l.perm.Wf) (slots : l.slots.length = width)
    (room : l.size < 15) (reads : y.Reads l k l.perm.live) (mode : l.modstate = .insert)
    (fits : y.external.safeSize width ((l.assign l.perm.back ka).ksufBytes l.perm.live + ka.suffix.length) ≤ 2 ^ n)
    (mark : ka.hasSuffix = true → ¬y.Wraps k l.perm.back ka.suffix) (mem : Memory) :
    ∃ k', y.assignKey l k l.perm.back ka mem = some k' ∧ y.Sound n k' (2 ^ n) ∧
      y.Reads (l.assign l.perm.back ka) k' (l.perm.back :: l.perm.live) := by
  have free := perm.not_live (perm.back_free room)
  have bytes : (l.assign l.perm.back ka).ksufBytes l.perm.live = l.ksufBytes l.perm.live := by
    refine ksufBytes_congr fun q live => ?_
    rw [Leaf.slot_assign]
    rintro rfl
    exact free live
  rw [bytes] at fits
  exact assignKey_spec sound le perm slots free (perm.back_lt room) reads fits (by rw [mode]; decide) mark mem

theorem filled_assign (sound : y.Sound n k (2 ^ n)) (le : n ≤ 16) (perm : l.perm.Wf) (slots : l.slots.length = width)
    (room : l.size < 15) (reads : y.Reads l k l.perm.live) (mode : l.modstate = .insert) (c : Tcursor V)
    (nodes : c.nodes = [l.assign l.perm.back ka]) (first : c.n = 0) (two : c.state = 2) (key : c.ka = ka) (fits : y.Fits n c)
    (mark : ka.hasSuffix = true → ¬y.Wraps k l.perm.back ka.suffix) (mem : Memory) :
    ∃ ksufs, (y.assignKey l k l.perm.back ka mem).map ([·]) = some ksufs ∧ y.Filled n c ksufs := by
  have few := fits 0 _ (by rw [nodes]; rfl) fun _ => first
  rw [if_pos first.symm, key] at few
  obtain ⟨k', assigned, sound', reads'⟩ := assignBack_spec sound le perm slots room reads mode few mark mem
  exact ⟨[k'], by rw [assigned]; rfl, filled_one nodes first two sound' reads'⟩

/-! ### Splits -/

/-- What `split_into` makes, by the point of the split. -/
theorem splitInto_eq_some {kxi : Nat} {s : LeafSplit V} (split_ : l.splitInto prev next ka kxi = some s) (many : 14 ≤ l.size) :
    0 < s.mid ∧ s.mid ≤ l.size ∧ s.right.perm = rightPerm l.size s.mid kxi ∧
      (∃ pad, s.right.slots = l.movedSlots ka kxi s.mid ++ List.replicate pad default) ∧ s.right.modstate = .insert ∧
      (s.splitType = 0 ↔ kxi < s.mid) := by
  unfold Leaf.splitInto at split_
  obtain ⟨mid, point, rfl⟩ := Option.map_eq_some_iff.mp split_
  have start : 0 < (if kxi = 0 ∧ ¬prev then 1 else if kxi = l.size ∧ ¬next then l.size else width / 2 + 1) ∧
      (if kxi = 0 ∧ ¬prev then 1 else if kxi = l.size ∧ ¬next then l.size else width / 2 + 1) ≤ l.size := by
    unfold width
    split
    · omega
    · split <;> omega
  obtain ⟨pos, top⟩ := splitPoint_bounds start.1 start.2 point
  refine ⟨pos, top, rfl, ⟨_, rfl⟩, rfl, ?_⟩
  dsimp only
  by_cases before : kxi < mid
  · rw [if_pos before]
    exact ⟨fun _ => before, fun _ => rfl⟩
  · rw [if_neg before]
    refine ⟨fun zero => ?_, fun lt => absurd lt before⟩
    split at zero <;> cases zero

theorem length_movedSlots (l : Leaf V) (ka : Key) (kxi mid : Nat) : (l.movedSlots ka kxi mid).length = l.size + 1 - mid := by
  unfold Leaf.movedSlots
  rw [List.length_map, List.length_range']

/-- The suffixes that are moved can be read. -/
theorem movedKsufs_eq (reads : y.Reads l k l.perm.live) {kxi mid : Nat} (le : kxi ≤ l.size) :
    y.movedKsufs l k ka kxi mid = some ((l.movedSlots ka kxi mid).map Slot.suffix) := by
  unfold movedKsufs Leaf.movedSlots
  rw [List.map_map]
  refine Partial.mapM_eq_some fun x mem => ?_
  have range := List.mem_range'_1.mp mem
  rw [Function.comp_apply]
  split
  · rw [suffix_ofKey]
  · rename_i other
    have live : l.perm.get (if kxi < x then x - 1 else x) ∈ l.perm.live := by
      apply Permuter.get_mem_live
      show _ < l.size
      split <;> omega
    generalize l.perm.get (if kxi < x then x - 1 else x) = xp at live
    rw [Slot.suffix]
    by_cases has : (l.slot xp).hasKsuf = true
    · rw [if_pos has, if_pos has, reads.ksuf live has]
      rfl
    · rw [if_neg has, if_neg has]

/-- The positions before `size_` in the new leaf, with the one that the new key is to have. -/
theorem range_right {kxi : Nat} {s : LeafSplit V} (perm : l.perm.Wf) (le : kxi ≤ l.size)
    (split_ : l.splitInto prev next ka kxi = some s) (many : 14 ≤ l.size) :
    (List.range (l.movedSlots ka kxi s.mid).length).Perm
      (if s.splitType = 0 then s.right.perm.live else s.right.perm.back :: s.right.perm.live) ∧
      (s.splitType ≠ 0 → s.right.perm.back = kxi - s.mid ∧ s.right.slot (kxi - s.mid) = .ofKey ka) := by
  obtain ⟨pos, inside, rightPerm_, ⟨pad, slots⟩, -, type⟩ := splitInto_eq_some split_ many
  have most : l.size ≤ 15 := perm.size_le
  have moves := length_movedSlots l ka kxi s.mid
  by_cases before : kxi < s.mid
  · rw [if_pos (type.mpr before), rightPerm_, rightPerm, if_neg (Nat.not_le_of_lt before), Permuter.live_makeSorted, moves]
    exact ⟨.refl _, fun other => absurd (type.mpr before) other⟩
  · have after := Nat.le_of_not_lt before
    have inside' : kxi - s.mid < (Permuter.makeSorted (l.size + 1 - s.mid)).size := by
      rw [Permuter.size_makeSorted]
      omega
    have at_ : (Permuter.makeSorted (l.size + 1 - s.mid)).get (kxi - s.mid) = kxi - s.mid :=
      (Permuter.get_live inside').trans (List.getElem_range _)
    have back : s.right.perm.back = kxi - s.mid := by
      rw [rightPerm_, rightPerm, if_pos after, (Permuter.wf_makeSorted (by omega)).back_removeToBack inside', at_]
    refine ⟨?_, fun _ => ⟨back, ?_⟩⟩
    · rw [if_neg fun zero => before (type.mp zero), back, rightPerm_, rightPerm, if_pos after, Permuter.live_removeToBack,
        Permuter.live_makeSorted, moves]
      have erased := (Permuter.eraseIdx_perm inside').symm
      rwa [at_] at erased
    · have here : (l.movedSlots ka kxi s.mid)[kxi - s.mid]? = some (.ofKey ka) := by
        rw [Leaf.movedSlots, List.getElem?_map, List.getElem?_range' (by omega), Option.map_some, if_pos (by omega)]
      have lt := (List.getElem?_eq_some_iff.mp here).1
      rw [Leaf.slot, slots, List.getD_eq_getElem?_getD, List.getElem?_append_left lt, here]
      rfl

theorem suffixes_initialized (r : Leaf V) {moved pad : List (Slot V)} (slots : r.slots = moved ++ pad) :
    ((List.range' 0 moved.length).map fun q => (r.slot q).suffix) = moved.map Slot.suffix := by
  conv_rhs => rw [← entries_makeSorted r slots]
  rw [List.map_map, List.range_eq_range']
  rfl

/-- A new leaf that is filled from its first slot on. -/
theorem initialize_spec (r : Leaf V) {moved pad : List (Slot V)} (slots : r.slots = moved ++ pad) (le : n ≤ 16)
    (mode : r.modstate ≠ .remove)
    (few : moved.length ≤ width) (fits : y.external.safeSize width (r.ksufBytes (List.range moved.length)) ≤ 2 ^ n)
    (sound : y.Sound n k 0) (mem : Nat → Memory) :
    ∃ k', y.assignInitialize r mem 0 (moved.map Slot.suffix) k = some k' ∧ y.Sound n k' (2 ^ n) ∧
      y.Reads r k' (List.range moved.length) := by
  rw [← suffixes_initialized r slots]
  have filled := assignInitialize_spec (y := y) (k := k) (p := 0) (m := moved.length) (l := r) le mode mem (by rwa [Nat.zero_add])
    (by rwa [Nat.zero_add]) sound (fun q none_ => absurd none_ List.not_mem_nil)
  rwa [Nat.zero_add] at filled

/-- Two leaves after a split. -/
theorem filled_two {c : Tcursor V} {m m' : Leaf V} (nodes : c.nodes = [m, m']) (two : c.state = 2)
    (first : y.Sound n k (2 ^ n) ∧ y.Reads m k (if c.n = 0 then m.perm.back :: m.perm.live else m.perm.live))
    (second : y.Sound n k' (2 ^ n) ∧ y.Reads m' k' (if c.n = 1 then m'.perm.back :: m'.perm.live else m'.perm.live)) :
    y.Filled n c [k, k'] := by
  refine ⟨by rw [nodes]; rfl, fun i l k'' at_ at' => ?_⟩
  rw [nodes] at at_
  unfold Tcursor.positions
  match i with
  | 0 =>
    obtain rfl := Option.some.inj at_
    obtain rfl := Option.some.inj at'
    simp only [two, and_true, eq_comm (a := 0)]
    exact first
  | 1 =>
    obtain rfl := Option.some.inj at_
    obtain rfl := Option.some.inj at'
    simp only [two, and_true, eq_comm (a := 1)]
    exact second
  | i + 2 => cases at_

/-- `make_split` finds room in the bags of both halves. -/
theorem filled_split (sound : y.Sound n k (2 ^ n)) (le : n ≤ 16) (perm : l.perm.Wf) (slots : l.slots.length = width)
    (reads : y.Reads l k l.perm.live) (mode : l.modstate = .insert) {c c' : Tcursor V} (nodes : c.nodes = [l])
    (first : c.n = 0) (two : c.state = 2) (place : c.kxi ≤ l.size) (full : l.size < width → l.perm.back = 0)
    (made : c.makeSplit prev next = some c') (fits : y.Fits n c')
    (mark : c'.n = 0 → c.ka.hasSuffix = true → ¬y.Wraps k (c'.kxp.getD 0) c.ka.suffix) (fresh : Fresh) :
    ∃ ksufs, y.splitKsufs l k c.ka c.kxi prev next fresh = some ksufs ∧ y.Filled n c' ksufs := by
  have node : c.node = l := by
    rw [Tcursor.node, nodes, first]
    rfl
  have most : l.size ≤ 15 := perm.size_le
  unfold Tcursor.makeSplit at made
  unfold splitKsufs
  rw [node] at made
  dsimp only at made ⊢
  split at made
  · rename_i room
    rw [if_pos room]
    obtain rfl := Option.some.inj made
    have live : (l.perm.exchange l.size (width - 1)).live = l.perm.live :=
      Permuter.live_exchange (Nat.le_refl _) (Nat.le_sub_one_of_lt room.1)
    exact filled_assign (l := { l with perm := l.perm.exchange l.size (width - 1) }) sound le (perm.exchange room.1 (by decide)) slots
      (show (l.perm.exchange _ _).live.length < 15 by rw [live]; exact room.1)
      (reads.subset (fun p mem => by rwa [← live]) rfl) mode
      { c with nodes := [_], kxp := some (l.perm.exchange l.size (width - 1)).back } rfl first two rfl fits (mark first) _
  · rename_i crowded
    rw [if_neg crowded]
    obtain ⟨s, split_, rfl⟩ := Option.map_eq_some_iff.mp made
    have many : 14 ≤ l.size := size_of_full perm full fun room => not_not.mp fun other => crowded ⟨room, other⟩
    have ok := splitInto_ok perm many place split_
    obtain ⟨-, -, -, ⟨pad, rightSlots⟩, rightMode, -⟩ := splitInto_eq_some split_ many
    obtain ⟨range, new⟩ := range_right perm place split_ many
    have few : (l.movedSlots c.ka c.kxi s.mid).length ≤ width := by
      have length := congrArg List.length rightSlots
      rw [ok.slots, List.length_append] at length
      omega
    obtain ⟨child, childMade, childSound⟩ := make_spec y (y.ksufUsedCapacity k) n (fresh.leaf 1)
    rw [childMade, Option.bind_some, split_, Option.bind_some, movedKsufs_eq reads place, Option.bind_some]
    have initialized : y.external.safeSize width (s.right.ksufBytes (List.range (l.movedSlots c.ka c.kxi s.mid).length)) ≤ 2 ^ n →
        ∃ k', y.assignInitialize s.right (fresh.bag 1) 0 ((l.movedSlots c.ka c.kxi s.mid).map Slot.suffix) child = some k' ∧
          y.Sound n k' (2 ^ n) ∧ y.Reads s.right k' (List.range (l.movedSlots c.ka c.kxi s.mid).length) :=
      fun fits => initialize_spec s.right rightSlots le (by rw [rightMode]; decide) few fits childSound (fresh.bag 1)
    have stripped : ∀ p ∈ (l.strip s.right).perm.live, p ∈ l.perm.live := by
      rw [live_strip perm]
      exact fun p mem => List.mem_of_mem_take mem
    have left : y.Reads (l.strip s.right) k (l.strip s.right).perm.live := reads.subset stripped rfl
    by_cases zero : s.splitType = 0
    · rw [if_pos zero] at fits mark range ⊢
      have leftFits := fits 0 _ rfl fun _ => first
      have rightFits := fits 1 _ rfl (fun one => absurd one Nat.one_ne_zero)
      have other : ¬1 = c.n := by omega
      rw [if_pos first.symm] at leftFits
      rw [if_neg other, Nat.add_zero] at rightFits
      obtain ⟨leftPerm, leftSize⟩ := strip_spec perm s.right
      obtain ⟨k', assigned, sound', reads'⟩ := assignBack_spec (l := l.strip s.right) sound le leftPerm slots
        (leftSize ▸ ok.left.resolve_right (not_not.mpr zero)) left mode leftFits (mark first) (fresh.bag 0 _)
      obtain ⟨child', filled, childSound', childReads⟩ := initialized (by rw [ksufBytes_perm range]; exact rightFits)
      rw [filled, Option.bind_some, if_pos zero, assigned]
      refine ⟨_, rfl, filled_two rfl two ⟨sound', ?_⟩ ⟨childSound', ?_⟩⟩
      · rw [if_pos first]
        exact reads'
      · rw [if_neg (Ne.symm other)]
        exact childReads.subset (fun p mem => range.mem_iff.mpr mem) rfl
    · rw [if_neg zero] at fits mark range ⊢
      have rightFits := fits 1 _ rfl (fun one => absurd one Nat.one_ne_zero)
      rw [if_pos rfl] at rightFits
      obtain ⟨back, slot⟩ := new zero
      obtain ⟨child', filled, childSound', childReads⟩ := initialized (by
        rw [ksufBytes_perm range, ksufBytes_cons, back, slot, suffix_ofKey, length_ksuf, Nat.add_comm]
        exact rightFits)
      rw [filled, Option.bind_some, if_neg zero]
      refine ⟨_, rfl, filled_two rfl two ⟨sound, left⟩ ⟨childSound', ?_⟩⟩
      exact childReads.subset (fun p mem => range.mem_iff.mpr mem) rfl

/-! ### New layers -/

/-- A leaf with only a layer in it has no suffix. -/
theorem suffix_ofLayer (oka : Key) (p : Nat) : ((Leaf.ofLayer oka : Leaf V).slot p).suffix = none := by
  cases p with
  | zero => rfl
  | succ p =>
    have padding : (Leaf.ofLayer oka : Leaf V).slot (p + 1) = default := by
      show (List.replicate (width - 1) default).getD p default = _
      rw [List.getD_eq_getElem?_getD, List.getElem?_replicate]
      split <;> rfl
    rw [padding]
    rfl

theorem makeTwig_layers {fuel : Nat} {oka ka : Key} {twig : List (Leaf V)} {rest : Key × Key}
    (made : makeTwig fuel oka ka = some (twig, rest)) : ∀ m ∈ twig, ∃ oka, m = .ofLayer oka := by
  induction fuel generalizing oka ka twig with
  | zero => cases made
  | succ fuel ih =>
    unfold makeTwig at made
    split at made
    · obtain ⟨⟨below, rest⟩, deeper, same⟩ := Option.map_eq_some_iff.mp made
      obtain ⟨rfl, rfl⟩ := Prod.mk.inj same
      intro m mem
      rcases List.mem_cons.mp mem with rfl | mem
      · exact ⟨oka, rfl⟩
      · exact ih deeper m mem
    · obtain ⟨rfl, -⟩ := Prod.mk.inj (Option.some.inj made)
      intro m mem
      cases mem

/-- The last leaf has both keys in its first two slots, one of them before it is live. -/
theorem ofTwo_slots (oka ka : Key) (old : Option V) : (Leaf.ofTwo oka ka old).modstate = .insert ∧
    ∃ moved pad, (Leaf.ofTwo oka ka old).slots = moved ++ pad ∧ moved.length = 2 ∧
      moved.map Slot.suffix = (if oka.compare ka.ikey ka.length = .lt then [oka.ksuf, ka.ksuf] else [ka.ksuf, oka.ksuf]) ∧
      (List.range 2).Perm ((Leaf.ofTwo oka ka old).perm.back :: (Leaf.ofTwo oka ka old).perm.live) ∧
      ((Leaf.ofTwo oka ka old).slot (Leaf.ofTwo oka ka old).perm.back).suffix = ka.ksuf := by
  have oldSuffix : ({ (Slot.ofKey oka : Slot V) with lv := old }).suffix = oka.ksuf := suffix_ofKey (V := V) oka
  have newSuffix := suffix_ofKey (V := V) ka
  unfold Leaf.ofTwo
  split
  · refine ⟨rfl, [{ (Slot.ofKey oka : Slot V) with lv := old }, .ofKey ka], _, rfl, rfl, ?_, ?_, newSuffix⟩
    · rw [List.map_cons, List.map_cons, oldSuffix, newSuffix]
      rfl
    · exact show (List.range 2).Perm ((Permuter.makeSorted 1).back :: (Permuter.makeSorted 1).live) by decide
  · refine ⟨rfl, [.ofKey ka, { (Slot.ofKey oka : Slot V) with lv := old }], _, rfl, rfl, ?_, ?_, newSuffix⟩
    · rw [List.map_cons, List.map_cons, oldSuffix, newSuffix]
      rfl
    · exact show (List.range 2).Perm
        (((Permuter.makeSorted 2).removeToBack 0).back :: ((Permuter.makeSorted 2).removeToBack 0).live) by decide

/-- The slot that becomes a layer loses its suffix. -/
theorem suffix_setLayer (l : Leaf V) (p q : Nat) : ((l.setLayer p).slot q).suffix = none ∨ (l.setLayer p).slot q = l.slot q := by
  unfold Leaf.slot Leaf.setLayer
  rw [List.getD_eq_getElem?_getD, List.getD_eq_getElem?_getD, List.getElem?_modify]
  cases l.slots[q]? with
  | none => exact .inr rfl
  | some s =>
    by_cases same : p = q
    · exact .inl (by simp [same, Slot.suffix, Slot.hasKsuf, layerKeylenx, ksufKeylenx])
    · exact .inr (by simp [same])

/-- `make_new_layer` finds room in the bag of its last leaf. -/
theorem filled_newLayer (sound : y.Sound n k (2 ^ n)) (le : n ≤ 16) (reads : y.Reads l k l.perm.live)
    {c c' : Tcursor V} (node : c.node = l) (two : c.state = 2) (made : c.makeNewLayer p = some c') (fits : y.Fits n c')
    (fresh : Fresh) : ∃ ksufs, y.newLayerKsufs l k p c.ka fresh = some ksufs ∧ y.Filled n c' ksufs := by
  unfold Tcursor.makeNewLayer at made
  obtain ⟨⟨twig, oka, ka⟩, twigged, rfl⟩ := Option.map_eq_some_iff.mp made
  rw [node] at twigged fits ⊢
  unfold newLayerKsufs
  rw [twigged, Option.bind_some]
  dsimp only at fits ⊢
  choose layerKsufs layerMade layerSound using fun i => make_spec y 0 n (fresh.leaf (i + 1))
  obtain ⟨nl, nlMade, nlSound⟩ := make_spec y (y.twoKsufs oka ka) n (fresh.leaf (twig.length + 1))
  rw [Partial.mapM_eq_some fun i _ => layerMade i, Option.bind_some, nlMade, Option.bind_some]
  obtain ⟨lastMode, moved, pad, slots, length, suffixes, range, new⟩ := ofTwo_slots oka ka (l.slot p).lv
  have nodes : ∀ j, ((l.setLayer p).unlock :: twig ++ [(Leaf.ofTwo oka ka (l.slot p).lv).lock])[j + 1]? =
      (twig ++ [(Leaf.ofTwo oka ka (l.slot p).lv).lock])[j]? := fun j => rfl
  have last : ((l.setLayer p).unlock :: twig ++ [(Leaf.ofTwo oka ka (l.slot p).lv).lock])[twig.length + 1]? =
      some (Leaf.ofTwo oka ka (l.slot p).lv).lock := by
    rw [nodes, List.getElem?_append_right (Nat.le_refl _), Nat.sub_self]
    rfl
  have lastFits := fits (twig.length + 1) _ last (fun zero => absurd zero (Nat.succ_ne_zero _))
  rw [if_pos rfl] at lastFits
  have filled := initialize_spec (Leaf.ofTwo oka ka (l.slot p).lv) slots le (by rw [lastMode]; decide) (by rw [length]; decide) (by
    rw [length, ksufBytes_perm range, ksufBytes_cons, new, length_ksuf, Nat.add_comm]
    exact lastFits) nlSound (fresh.bag (twig.length + 1))
  rw [suffixes, length] at filled
  obtain ⟨nl', assigned, nlSound', nlReads⟩ := filled
  rw [assigned]
  refine ⟨_, rfl, ?_, ?_⟩
  · simp
  · intro i m k' at_ at'
    unfold Tcursor.positions
    cases i with
    | zero =>
      obtain rfl := Option.some.inj at_
      obtain rfl := Option.some.inj at'
      refine ⟨sound, ?_⟩
      rw [if_neg fun both => absurd both.1 (Nat.succ_ne_zero _).symm]
      refine reads.mono fun q live t suffix => ⟨live, ?_⟩
      change ((l.setLayer p).slot q).suffix = some t at suffix
      rcases suffix_setLayer l p q with none_ | same
      · rw [none_] at suffix
        cases suffix
      · rwa [same] at suffix
    | succ j =>
      change (twig ++ [_])[j]? = some m at at_
      change ((List.range twig.length).map layerKsufs ++ [nl'])[j]? = some k' at at'
      rcases Nat.lt_or_ge j twig.length with lt | ge
      · rw [List.getElem?_append_left lt] at at_
        rw [List.getElem?_append_left (by rwa [List.length_map, List.length_range]), List.getElem?_map,
          List.getElem?_range lt] at at'
        obtain rfl := Option.some.inj at'
        obtain ⟨oka', rfl⟩ := makeTwig_layers twigged m (List.mem_of_getElem? at_)
        refine ⟨((layerSound j).mono (Nat.zero_le _)), reads_iff.mpr fun q _ t suffix => ?_⟩
        rw [suffix_ofLayer] at suffix
        cases suffix
      · obtain rfl : j = twig.length := by
          have inside := (List.getElem?_eq_some_iff.mp at_).1
          rw [List.length_append, List.length_singleton] at inside
          omega
        rw [List.getElem?_append_right (Nat.le_refl _), Nat.sub_self] at at_
        rw [List.getElem?_append_right (by rw [List.length_map, List.length_range]), List.length_map, List.length_range,
          Nat.sub_self] at at'
        obtain rfl := Option.some.inj at_
        obtain rfl := Option.some.inj at'
        rw [if_pos ⟨rfl, two⟩]
        exact ⟨nlSound', nlReads.subset (fun q mem => range.mem_iff.mpr mem) rfl⟩

/-! ### Inserts -/

/-- No string is put over the header of the bag of the cursor's leaf. Only a bag of `2 ^ 16` bytes comes to that. -/
def Marks (y : LeafLayout) (n : Nat) (k : Ksufs) (ka : Key) (c : Tcursor V) : Prop :=
  n = 16 → c.n = 0 → ka.hasSuffix = true → ¬y.Wraps k (c.kxp.getD 0) ka.suffix

theorem Sound.marks (sound : y.Sound n k total) (le : n ≤ 16) {c : Tcursor V} (marks : y.Marks n k ka c) (first : c.n = 0)
    (long : ka.hasSuffix = true) : ¬y.Wraps k (c.kxp.getD 0) ka.suffix := by
  rcases Nat.lt_or_eq_of_le le with lt | same
  · exact sound.not_wraps (.inl lt)
  · exact marks same first long

/-- A leaf without the key takes it or is split. -/
theorem filled_insert (sound : y.Sound n k (2 ^ n)) (le : n ≤ 16) (perm : l.perm.Wf) (slots : l.slots.length = width)
    (reads : y.Reads l k l.perm.live) (mode : l.modstate = .insert) {c c' : Tcursor V} (nodes : c.nodes = [l])
    (first : c.n = 0) (two : c.state = 2) (place : c.kxi ≤ l.size) {bound : Prop} [Decidable bound]
    (made : (if l.size < width ∧ (l.perm.back ≠ 0 ∨ bound) then
        some { c with nodes := [l.assign l.perm.back c.ka], kxp := some l.perm.back }
      else c.makeSplit prev next) = some c') (room : c'.state = 2 → y.Fits n c' ∧ y.Marks n k c.ka c') (fresh : Fresh) :
    ∃ ksufs, (if l.size < width ∧ (l.perm.back ≠ 0 ∨ bound) then
        (y.assignKey l k l.perm.back c.ka (fresh.bag 0 l.perm.back)).map ([·])
      else y.splitKsufs l k c.ka c.kxi prev next fresh) = some ksufs ∧ y.Filled n c' ksufs := by
  by_cases free : l.size < width ∧ (l.perm.back ≠ 0 ∨ bound)
  · rw [if_pos free] at made ⊢
    obtain rfl := Option.some.inj made
    obtain ⟨fits, marks⟩ := room two
    have mark := sound.marks le marks first
    exact filled_assign sound le perm slots free.1 reads mode
      { c with nodes := [l.assign l.perm.back c.ka], kxp := some l.perm.back } rfl first two rfl fits mark _
  · rw [if_neg free] at made ⊢
    obtain ⟨fits, marks⟩ := room ((Tcursor.makeSplit_state made).trans two)
    refine filled_split sound le perm slots reads mode nodes first two place (fun lt => ?_) made fits (sound.marks le marks) fresh
    by_contra other
    exact free ⟨lt, .inl other⟩

/-- The bags after `find_insert`, where every suffix fits. -/
theorem insertKsufs_spec (ok : r.Ok y n) (le : n ≤ 16) {c : Tcursor V} (found : Tcursor.findInsert r.l prev next ka = some c)
    (room : c.state = 2 → y.Fits n c ∧ y.Marks n r.ksufs ka c) (fresh : Fresh) :
    ∃ ksufs, y.insertKsufs r.l r.ksufs prev next ka fresh = some ksufs ∧ y.Filled n c ksufs := by
  unfold Tcursor.findInsert at found
  unfold insertKsufs
  obtain ⟨c₀, locked, found⟩ := Option.bind_eq_some_iff.mp found
  rw [locked, Option.bind_some]
  obtain ⟨-, state, rfl, which⟩ := Tcursor.findLocked_cases locked
  have bounds := (r.l.lower_bounds ka).1
  dsimp only at found ⊢
  split at found
  · rename_i one
    rw [if_pos one]
    obtain rfl := Option.some.inj found
    refine ⟨_, rfl, rfl, fun i m k at_ at' => ?_⟩
    cases i with
    | zero =>
      obtain rfl := Option.some.inj at_
      obtain rfl := Option.some.inj at'
      unfold Tcursor.positions
      rw [if_neg fun both => absurd (one.symm.trans both.2) (by decide)]
      exact ⟨ok.sound, ok.reads⟩
    | succ i => cases at_
  · rename_i missing
    rw [if_neg missing]
    cases search : (r.l.lower ka).2 with
    | some p =>
      rw [search] at found
      have two := Tcursor.makeNewLayer_state found
      exact filled_newLayer (l := r.l.lock) ok.sound le ok.reads rfl rfl found (room two).1 fresh
    | none =>
      rw [search] at found
      dsimp only at found ⊢
      have start := Tcursor.started r.l
      have slots : r.l.lock.startInsert.slots.length = width := start.slots ▸ ok.wf.slots
      have perm : r.l.lock.startInsert.perm.Wf := start.perm ▸ ok.wf.perm
      have size : r.l.lock.startInsert.size = r.l.size := congrArg Permuter.size start.perm
      have reads : y.Reads r.l.lock.startInsert r.ksufs r.l.lock.startInsert.perm.live :=
        ok.reads.subset (fun p mem => start.perm ▸ mem) start.slots
      have mode : r.l.lock.startInsert.modstate = .insert := by
        unfold Leaf.startInsert
        split
        · rfl
        · rename_i inserts
          exact not_not.mp inserts
      exact filled_insert ok.sound le perm slots reads mode rfl rfl rfl (size ▸ bounds) found room fresh

/-! ### Keys that are too long -/

theorem ksuf_long (long : 2 ^ 16 < ka.suffix.length) : ka.ksuf = some ka.suffix := by
  refine if_pos ((Key.hasSuffix_iff ka).mpr ?_)
  have length : ka.suffix.length = ka.s.length - 8 := List.length_drop
  show 8 < ka.s.length
  omega

theorem assignKey_long (long : 2 ^ 16 < ka.suffix.length) (short : ka.suffix.length < 2 ^ 31) (l : Leaf V) (k : Ksufs) (p : Nat)
    (mem : Memory) : y.assignKey l k p ka mem = none := by
  rw [assignKey, ksuf_long long]
  exact assignKsuf_long long short l k p false mem

theorem assignInitialize_long {s : Bytes} (long : 2 ^ 16 < s.length) (short : s.length < 2 ^ 31) {ksufs : List (Option Bytes)}
    (mem_ : some s ∈ ksufs) (l : Leaf V) (mem : Nat → Memory) (p : Nat) (k : Ksufs) : y.assignInitialize l mem p ksufs k = none := by
  induction ksufs generalizing p k with
  | nil => cases mem_
  | cons first ksufs ih =>
    rcases List.mem_cons.mp mem_ with rfl | later
    · rw [assignInitialize, assignKsuf_long long short, Option.bind_none]
    · cases first with
      | none => exact ih later (p + 1) k
      | some t => exact Option.bind_eq_none_iff.mpr fun k' _ => ih later (p + 1) k'

/-- The new suffix is put in one of the leaves of a split. -/
theorem splitKsufs_long (long : 2 ^ 16 < ka.suffix.length) (short : ka.suffix.length < 2 ^ 31) {kxi : Nat} (place : kxi ≤ l.size)
    (k : Ksufs) (prev next : Bool) (fresh : Fresh) : y.splitKsufs l k ka kxi prev next fresh = none := by
  unfold splitKsufs
  dsimp only
  split
  · rw [assignKey_long long short, Option.map_none]
  · refine Option.bind_eq_none_iff.mpr fun child _ => Option.bind_eq_none_iff.mpr fun s split_ => ?_
    refine Option.bind_eq_none_iff.mpr fun moved moves => ?_
    obtain ⟨mid, -, rfl⟩ := Option.map_eq_some_iff.mp split_
    dsimp only at moves ⊢
    by_cases before : kxi < mid
    · refine Option.bind_eq_none_iff.mpr fun child' _ => ?_
      rw [if_pos before, if_pos rfl, assignKey_long long short, Option.map_none]
    · have inside : kxi ∈ List.range' mid (l.size + 1 - mid) := List.mem_range'_1.mpr (by omega)
      obtain ⟨ksuf, mem_, same⟩ := Partial.exists_of_mapM moves inside
      rw [if_pos rfl, ksuf_long long] at same
      obtain rfl := Option.some.inj same
      rw [assignInitialize_long long short mem_, Option.bind_none]

theorem newLayerKsufs_long {p : Nat} {twig : List (Leaf V)} {oka ka' : Key}
    (twigged : makeTwig (ka.length + 1) ⟨[], (l.slot p).ksuf⟩ ka.shift = some (twig, oka, ka')) (long : 2 ^ 16 < ka'.suffix.length)
    (short : ka'.suffix.length < 2 ^ 31) (k : Ksufs) (fresh : Fresh) : y.newLayerKsufs l k p ka fresh = none := by
  unfold newLayerKsufs
  rw [twigged, Option.bind_some]
  refine Option.bind_eq_none_iff.mpr fun layers _ => Option.bind_eq_none_iff.mpr fun nl _ => ?_
  have mem_ : some ka'.suffix ∈ if oka.compare ka'.ikey ka'.length = .lt then [oka.ksuf, ka'.ksuf] else [ka'.ksuf, oka.ksuf] := by
    rw [ksuf_long long]
    split <;> simp
  exact (congrArg (Option.map _) (assignInitialize_long long short mem_ _ _ 0 nl)).trans rfl

/-- The key of an insert has too long a suffix in the leaf that it is put in. -/
theorem insertKsufs_long {c : Tcursor V} (found : Tcursor.findInsert l prev next ka = some c) (two : c.state = 2)
    (long : 2 ^ 16 < c.ka.suffix.length) (short : c.ka.suffix.length < 2 ^ 31) (k : Ksufs) (fresh : Fresh) :
    y.insertKsufs l k prev next ka fresh = none := by
  unfold Tcursor.findInsert at found
  unfold insertKsufs
  obtain ⟨c₀, locked, found⟩ := Option.bind_eq_some_iff.mp found
  rw [locked, Option.bind_some]
  obtain ⟨-, state, rfl, which⟩ := Tcursor.findLocked_cases locked
  have bounds := (l.lower_bounds ka).1
  dsimp only at found ⊢
  split at found
  · rename_i one
    obtain rfl := Option.some.inj found
    exact absurd (one.symm.trans two) (by decide)
  · rename_i missing
    rw [if_neg missing]
    cases search : (l.lower ka).2 with
    | some p =>
      rw [search] at found
      obtain ⟨⟨twig, oka, ka'⟩, twigged, rfl⟩ := Option.map_eq_some_iff.mp found
      exact newLayerKsufs_long (l := l.lock) twigged long short k fresh
    | none =>
      rw [search] at found
      dsimp only at found ⊢
      have start := Tcursor.started l
      have size : l.lock.startInsert.size = l.size := congrArg Permuter.size start.perm
      have key : c.ka = ka := by
        split at found
        · obtain rfl := Option.some.inj found
          rfl
        · exact Tcursor.makeSplit_ka found
      rw [key] at long short
      split
      · exact (congrArg (Option.map _) (assignKey_long long short _ k _ _)).trans rfl
      · exact splitKsufs_long long short (size ▸ bounds) k prev next fresh

end LeafLayout

end Masstree.Tree
