import Masstree.Checkpoint.Files
import Masstree.Lib.Positions

/-!
# Loading a checkpoint

Threads read the files of a checkpoint into an empty table, each at its own pace.
-/

namespace Masstree
open Msgpack

/-- The table that the threads insert into, and of each thread how many triples it has yet to read, and from where. -/
structure Loading where
  table : Tree.Table ValueBag := .start
  files : List (Nat × Bytes)

namespace Loading

/-- The end of `ckstate::insert`. A build with `invariants` gives up where the key is there already. -/
def insertNew (invariants : Bool) (t : Tree.Table ValueBag) (p : Bytes × SavedRow) : Option (Tree.Table ValueBag) :=
  if invariants ∧ (t.get p.1).isSome then none else t.insert p.1 (some (checkpointRead p.2))

/-- `ckstate::insert` by a thread that has triples to read. -/
def step (invariants : Bool) (s : Loading) (i : Nat) : Option Loading :=
  (s.files[i]?).bind fun (n, par) =>
    if n = 0 then none
    else (readTriple par).bind fun (p, par) =>
      (insertNew invariants s.table p).map fun table => { table, files := s.files.set i (n - 1, par) }

/-- The threads, each as often as it has triples. -/
def turns (files : List (Nat × Bytes)) : List Nat := files.zipIdx.flatMap fun f => List.replicate f.1.1 f.2

variable {t t' : Tree.Table ValueBag} {R : List (List (Bytes × SavedRow))} {L l : List (Bytes × SavedRow)} {p : Bytes × SavedRow}
  {is : List Nat} {i : Nat} {invariants : Bool} {key : Bytes} {m : Bytes → Option ValueBag}

def remaining (R : List (List (Bytes × SavedRow))) : List (Nat × Bytes) := R.map fun saved => (saved.length, unparseAll saved)

/-! ### Threads -/

theorem step_eq (there : R[i]? = some (p :: l)) (fits : Fits p) (t : Tree.Table ValueBag) :
    step invariants ⟨t, remaining R⟩ i = (insertNew invariants t p).map fun table => ⟨table, remaining (R.set i l)⟩ := by
  have file : (remaining R)[i]? = some (l.length + 1, p.2.unparse p.1 ++ unparseAll l) := by
    rw [remaining, List.getElem?_map, there]
    rfl
  rw [step, file, Option.bind_some]
  dsimp only
  rw [if_neg (Nat.succ_ne_zero _), readTriple_unparse fits, Option.bind_some, remaining, remaining, List.map_set]
  rfl

theorem of_mem_turns (turn : i ∈ turns (remaining R)) : ∃ p l, R[i]? = some (p :: l) := by
  obtain ⟨⟨⟨n, par⟩, j⟩, file, turn⟩ := List.mem_flatMap.mp turn
  obtain ⟨some_, rfl⟩ := List.mem_replicate.mp turn
  rw [List.mem_zipIdx_iff_getElem?, remaining, List.getElem?_map] at file
  dsimp only at file some_
  obtain ⟨saved, there, same⟩ := Option.map_eq_some_iff.mp file
  obtain ⟨rfl, -⟩ := Prod.mk.inj same
  cases saved with
  | nil => exact absurd rfl some_
  | cons p l => exact ⟨p, l, there⟩

theorem turns_cons (there : R[i]? = some (p :: l)) : (turns (remaining R)).Perm (i :: turns (remaining (R.set i l))) ∧
    R.flatten.Perm (p :: (R.set i l).flatten) := by
  obtain ⟨A, B, rfl, rfl⟩ := Positions.exists_middle there
  rw [Positions.set_middle]
  constructor
  · unfold turns remaining
    simp only [List.map_append, List.map_cons, List.zipIdx_append, List.zipIdx_cons, List.flatMap_append, List.flatMap_cons,
      List.length_map,
      List.length_cons, Nat.zero_add, List.replicate_succ, List.cons_append]
    exact List.perm_middle
  · simp only [List.flatten_append, List.flatten_cons, List.cons_append]
    exact List.perm_middle

theorem eq_replicate (none_ : turns (remaining R) = []) : R = List.replicate R.length [] := by
  refine List.eq_replicate_iff.mpr ⟨rfl, fun saved mem => ?_⟩
  obtain ⟨i, there⟩ := List.mem_iff_getElem?.mp mem
  cases saved with
  | nil => rfl
  | cons p l =>
    have turn := (turns_cons there).1.mem_iff.mpr List.mem_cons_self
    rw [none_] at turn
    cases turn

/-- In whatever order the threads read, the table gets the triples of all files one after the other. -/
theorem run_eq (invariants : Bool) (fits : ∀ saved ∈ R, ∀ p ∈ saved, Fits p) (turn : is.Perm (turns (remaining R))) :
    ∃ L : List (Bytes × SavedRow), L.Perm R.flatten ∧ ∀ t, Steps.run (step invariants) ⟨t, remaining R⟩ is =
      (L.foldlM (insertNew invariants) t).map fun table => ⟨table, remaining (List.replicate R.length [])⟩ := by
  induction is generalizing R with
  | nil =>
    have all := eq_replicate turn.nil_eq.symm
    refine ⟨[], ?_, fun t => ?_⟩
    · rw [all, List.flatten_replicate_nil]
    · rw [← all]
      rfl
  | cons i is ih =>
    obtain ⟨p, l, there⟩ := of_mem_turns (turn.mem_iff.mp List.mem_cons_self)
    obtain ⟨turns, triples⟩ := turns_cons there
    have here := fits _ (List.mem_of_getElem? there)
    have fits' : ∀ saved ∈ R.set i l, ∀ p ∈ saved, Fits p := by
      intro saved mem
      rcases List.mem_or_eq_of_mem_set mem with mem | rfl
      · exact fits saved mem
      · exact fun p mem => here p (List.mem_cons_of_mem _ mem)
    obtain ⟨L, all, runs⟩ := ih fits' (turn.trans turns).cons_inv
    refine ⟨p :: L, (all.cons p).trans triples.symm, fun t => ?_⟩
    rw [Steps.run, step_eq there (here p List.mem_cons_self), List.foldlM_cons]
    cases insertNew invariants t p with
    | none => rfl
    | some t' =>
      rw [List.length_set] at runs
      exact runs t'

/-! ### The table -/

def loaded (m : Bytes → Option ValueBag) (L : List (Bytes × SavedRow)) : Bytes → Option ValueBag :=
  L.foldl (fun m p => Function.update m p.1 (some (checkpointRead p.2))) m

theorem loaded_absent (absent : ∀ p ∈ L, p.1 ≠ key) : loaded m L key = m key := by
  induction L generalizing m with
  | nil => rfl
  | cons p L ih =>
    rw [loaded, List.foldl_cons, ← loaded, ih fun q mem => absent q (List.mem_cons_of_mem _ mem)]
    exact Function.update_of_ne (absent p List.mem_cons_self).symm ..

def Consistent (L : List (Bytes × SavedRow)) : Prop := ∀ p ∈ L, ∀ q ∈ L, p.1 = q.1 → p = q

theorem loaded_mem (consistent : Consistent L) (mem : p ∈ L) : loaded m L p.1 = some (checkpointRead p.2) := by
  induction L generalizing m with
  | nil => cases mem
  | cons q L ih =>
    rw [loaded, List.foldl_cons, ← loaded]
    by_cases later : p ∈ L
    · exact ih (fun a mem b mem' => consistent a (List.mem_cons_of_mem _ mem) b (List.mem_cons_of_mem _ mem')) later
    · have here := (List.mem_cons.mp mem).resolve_right later
      rw [loaded_absent, here, Function.update_self]
      intro r mem' same
      rw [consistent r (List.mem_cons_of_mem _ mem') p mem same] at mem'
      exact later mem'

theorem insertNew_spec (invariants : Bool) (good : t.Good) (p : Bytes × SavedRow) : if invariants ∧
    (t.get p.1).isSome then insertNew invariants t p = none
    else ∃ t', insertNew invariants t p = some t' ∧ t'.Good ∧ t'.get = Function.update t.get p.1 (some (checkpointRead p.2)) := by
  unfold insertNew
  split
  · rfl
  · exact Tree.Table.step_spec good (show (Tree.Table.Op.insert p.1 (checkpointRead p.2)).Enabled t from trivial)

/-- The triples that can be inserted one after the other. -/
def Insertable (invariants : Bool) (m : Bytes → Option ValueBag) (L : List (Bytes × SavedRow)) : Prop :=
  invariants → (L.map Prod.fst).Nodup ∧ ∀ p ∈ L, m p.1 = none

theorem insertable_cons : Insertable invariants m (p :: L) ↔
    ¬(invariants ∧ (m p.1).isSome) ∧ Insertable invariants (Function.update m p.1 (some (checkpointRead p.2))) L := by
  unfold Insertable
  cases invariants with
  | false => simp
  | true =>
    have absent : ∀ q : Bytes × SavedRow, Function.update m p.1 (some (checkpointRead p.2)) q.1 = none ↔ q.1 ≠ p.1 ∧ m q.1 = none := by
      intro q
      by_cases same : q.1 = p.1
      · simp [same]
      · simp [same]
    simp only [absent, List.map_cons, List.nodup_cons, List.forall_mem_cons, List.mem_map]
    simp
    grind

/-- The triples are all inserted, or one of them cannot be. -/
theorem insertAll_spec (invariants : Bool) (good : t.Good) (L : List (Bytes × SavedRow)) :
    (Insertable invariants t.get L → ∃ t', L.foldlM (insertNew invariants) t = some t' ∧ t'.get = loaded t.get L) ∧
      (¬Insertable invariants t.get L → L.foldlM (insertNew invariants) t = none) := by
  induction L generalizing t with
  | nil => exact ⟨fun _ => ⟨t, rfl, rfl⟩, fun not => absurd (fun _ => ⟨.nil, fun p mem => by cases mem⟩) not⟩
  | cons p L ih =>
    rw [insertable_cons, List.foldlM_cons]
    have spec := insertNew_spec invariants good p
    split at spec
    · rename_i there
      rw [spec]
      exact ⟨fun can => absurd there can.1, fun _ => rfl⟩
    · rename_i new
      obtain ⟨t', inserted, good', contents⟩ := spec
      obtain ⟨all, failed⟩ := ih good'
      rw [contents] at all failed
      rw [inserted]
      refine ⟨fun can => all can.2, fun not => failed fun can => not ⟨new, can⟩⟩

end Loading

end Masstree
