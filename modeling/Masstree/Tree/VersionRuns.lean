import Masstree.Tree.VersionLayout

/-!
# What a node version shows of a run

Two unlocked versions of one node differ where something was inserted, split or deleted between them, as long as the counters
cannot have come round.
-/

namespace Masstree.Tree

namespace VersionOp

def Marks (op : VersionOp) : Prop := op = .markInsert ∨ op = .markSplit ∨ op = .markDeleted

def Splits (op : VersionOp) : Prop := op = .markSplit ∨ op = .markDeleted

def Followed (p : VersionOp → Prop) (ops : List VersionOp) : Prop := ∃ A m B, ops = A ++ m :: B ∧ p m ∧ .unlock ∈ B

end VersionOp

namespace Version

variable {a : Nat} {v : Version} {ops : List VersionOp} {op : VersionOp}

theorem run_append (v : Version) (A B : List VersionOp) : v.run a (A ++ B) = (v.run a A).run a B := List.foldl_append

theorem legal_append {A B : List VersionOp} : v.Legal a (A ++ B) ↔ v.Legal a A ∧ (v.run a A).Legal a B := by
  induction A generalizing v with
  | nil => exact ⟨fun h => ⟨trivial, h⟩, fun h => h.2⟩
  | cons op A ih => exact (and_congr_right fun _ => ih).trans and_assoc.symm

/-! ### What unlocking counts -/

theorem total_mark (mark : op ≠ .unlock) : (v.apply a op).total = v.total := by
  cases op with
  | unlock => exact absurd rfl mark
  | _ => rfl

theorem total_unlock (a : Nat) (v : Version) :
    (v.apply a .unlock).total = if v.splitting then (v.total / 2 ^ a + 1) * 2 ^ a else v.total + v.inserting.toNat := by
  show (v.unlock a).total = _
  unfold unlock
  split <;> rfl

theorem splits_unlock (a : Nat) (v : Version) : v.total / 2 ^ a ≤ (v.apply a .unlock).total / 2 ^ a ∧
    (v.apply a .unlock).total / 2 ^ a ≤ v.total / 2 ^ a + 1 ∧
      (v.splitting = true → (v.apply a .unlock).total / 2 ^ a = v.total / 2 ^ a + 1) := by
  have one : v.inserting.toNat ≤ 1 := Bool.toNat_le _
  have power := Nat.one_le_two_pow (n := a)
  rw [total_unlock]
  split
  · rename_i splitting
    rw [Nat.mul_div_cancel _ (Nat.two_pow_pos a)]
    exact ⟨Nat.le_succ _, Nat.le_refl _, fun _ => rfl⟩
  · rename_i clean
    have more : v.total + v.inserting.toNat ≤ v.total + 2 ^ a := by omega
    have bound := Nat.div_le_div_right (c := 2 ^ a) more
    rw [Nat.add_div_right _ (Nat.two_pow_pos a)] at bound
    exact ⟨Nat.div_le_div_right (Nat.le_add_right _ _), bound, fun splitting => absurd splitting clean⟩

theorem total_unlock_le (a : Nat) (v : Version) : v.total ≤ (v.apply a .unlock).total ∧
    (v.apply a .unlock).total ≤ v.total + 2 ^ a ∧
      (v.inserting = true ∨ v.splitting = true → v.total < (v.apply a .unlock).total) := by
  have one : v.inserting.toNat ≤ 1 := Bool.toNat_le _
  have power := Nat.one_le_two_pow (n := a)
  rw [total_unlock]
  split
  · have parts := Nat.div_add_mod v.total (2 ^ a)
    have rest := Nat.mod_lt v.total (Nat.two_pow_pos a)
    have next : (v.total / 2 ^ a + 1) * 2 ^ a = 2 ^ a * (v.total / 2 ^ a) + 2 ^ a := by
      rw [Nat.succ_mul, Nat.mul_comm]
    omega
  · rename_i clean
    refine ⟨Nat.le_add_right _ _, by omega, fun dirty => ?_⟩
    rw [dirty.resolve_right clean]
    exact Nat.lt_succ_self _

/-- The counter over a run: it never goes back, and each unlock takes it at most to the next multiple. -/
theorem total_run (a : Nat) (v : Version) (ops : List VersionOp) :
    v.total ≤ (v.run a ops).total ∧ (v.run a ops).total ≤ v.total + 2 ^ a * ops.count .unlock ∧
      v.total / 2 ^ a ≤ (v.run a ops).total / 2 ^ a ∧ (v.run a ops).total / 2 ^ a ≤ v.total / 2 ^ a + ops.count .unlock := by
  induction ops generalizing v with
  | nil => exact ⟨Nat.le_refl _, Nat.le_refl _, Nat.le_refl _, Nat.le_refl _⟩
  | cons op ops ih =>
    obtain ⟨h₁, h₂, h₃, h₄⟩ := ih (v.apply a op)
    show _ ≤ ((v.apply a op).run a ops).total ∧ ((v.apply a op).run a ops).total ≤ _ ∧
      _ ≤ ((v.apply a op).run a ops).total / 2 ^ a ∧ ((v.apply a op).run a ops).total / 2 ^ a ≤ _
    rcases eq_or_ne op .unlock with rfl | mark
    · obtain ⟨t₁, t₂, _⟩ := total_unlock_le a v
      obtain ⟨s₁, s₂, _⟩ := splits_unlock a v
      have count : 2 ^ a * (ops.count VersionOp.unlock + 1) = 2 ^ a * ops.count .unlock + 2 ^ a := Nat.mul_succ _ _
      rw [List.count_cons_self, count]
      omega
    · rw [total_mark mark] at h₁ h₂ h₃ h₄
      rw [List.count_cons_of_ne mark]
      exact ⟨h₁, h₂, h₃, h₄⟩

/-- A dirty version that is unlocked at some time has counted. -/
theorem total_lt (dirty : v.inserting = true ∨ v.splitting = true) (unlocks : .unlock ∈ ops) : v.total < (v.run a ops).total := by
  induction ops generalizing v with
  | nil => exact absurd unlocks List.not_mem_nil
  | cons op ops ih =>
    show v.total < ((v.apply a op).run a ops).total
    rcases eq_or_ne op .unlock with rfl | mark
    · have counts := (total_unlock_le a v).2.2 dirty
      have mono := (total_run a (v.apply a .unlock) ops).1
      omega
    · have still : (v.apply a op).inserting = true ∨ (v.apply a op).splitting = true := by
        cases op with
        | unlock => exact absurd rfl mark
        | markInsert => exact .inl rfl
        | markSplit => exact .inr rfl
        | markDeleted => exact .inr rfl
        | _ => exact dirty
      have rest := ih still ((List.mem_cons.mp unlocks).resolve_left (Ne.symm mark))
      rwa [total_mark mark] at rest

theorem splits_lt (splitting : v.splitting = true) (unlocks : .unlock ∈ ops) :
    v.total / 2 ^ a < (v.run a ops).total / 2 ^ a := by
  induction ops generalizing v with
  | nil => exact absurd unlocks List.not_mem_nil
  | cons op ops ih =>
    show v.total / 2 ^ a < ((v.apply a op).run a ops).total / 2 ^ a
    rcases eq_or_ne op .unlock with rfl | mark
    · have counts := (splits_unlock a v).2.2 splitting
      have mono := (total_run a (v.apply a .unlock) ops).2.2.1
      omega
    · have still : (v.apply a op).splitting = true := by
        cases op with
        | unlock => exact absurd rfl mark
        | markSplit => rfl
        | markDeleted => rfl
        | _ => exact splitting
      have rest := ih still ((List.mem_cons.mp unlocks).resolve_left (Ne.symm mark))
      rwa [total_mark mark] at rest

theorem total_followed (followed : VersionOp.Followed VersionOp.Marks ops) : v.total < (v.run a ops).total := by
  obtain ⟨A, m, B, rfl, mark, unlocks⟩ := followed
  have dirty : ((v.run a A).apply a m).inserting = true ∨ ((v.run a A).apply a m).splitting = true := by
    rcases mark with rfl | rfl | rfl
    · exact .inl rfl
    · exact .inr rfl
    · exact .inr rfl
  have same : ((v.run a A).apply a m).total = (v.run a A).total := total_mark (by rcases mark with rfl | rfl | rfl <;> decide)
  have before := (total_run a v A).1
  have after := total_lt (a := a) dirty unlocks
  rw [run_append]
  show v.total < (((v.run a A).apply a m).run a B).total
  omega

theorem splits_followed (followed : VersionOp.Followed VersionOp.Splits ops) : v.total / 2 ^ a < (v.run a ops).total / 2 ^ a := by
  obtain ⟨A, m, B, rfl, mark, unlocks⟩ := followed
  have splitting : ((v.run a A).apply a m).splitting = true := by
    rcases mark with rfl | rfl <;> rfl
  have same : ((v.run a A).apply a m).total = (v.run a A).total := total_mark (by rcases mark with rfl | rfl <;> decide)
  have before := (total_run a v A).2.2.1
  have after := splits_lt (a := a) splitting unlocks
  rw [same] at after
  rw [run_append]
  show v.total / 2 ^ a < (((v.run a A).apply a m).run a B).total / 2 ^ a
  omega

/-! ### What is the same all along -/

theorem leaf_run (a : Nat) (v : Version) (ops : List VersionOp) : (v.run a ops).leaf = v.leaf := by
  induction ops generalizing v with
  | nil => rfl
  | cons op ops ih =>
    have same : (v.apply a op).leaf = v.leaf := by
      cases op with
      | unlock =>
        show (v.unlock a).leaf = _
        unfold unlock
        split <;> rfl
      | _ => rfl
    exact (ih _).trans same

theorem deleted_run (a : Nat) (v : Version) (ops : List VersionOp) :
    (v.run a ops).deleted = (v.deleted || decide (.markDeleted ∈ ops)) := by
  induction ops generalizing v with
  | nil => exact (Bool.or_false _).symm
  | cons op ops ih =>
    have step : (v.apply a op).deleted = (v.deleted || decide (op = .markDeleted)) := by
      cases op with
      | unlock =>
        show (v.unlock a).deleted = _
        unfold unlock
        split <;> exact (Bool.or_false _).symm
      | markDeleted => exact (Bool.or_true _).symm
      | _ => exact (Bool.or_false _).symm
    show ((v.apply a op).run a ops).deleted = _
    rw [ih, step, Bool.or_assoc, ← Bool.decide_or]
    congr 1
    exact decide_eq_decide.mpr (by rw [List.mem_cons, eq_comm])

/-- Clean whenever it is unlocked. -/
theorem stable_run {ops : List VersionOp} (legal : v.Legal a ops) (start : v.locked = false → v.Stable) :
    (v.run a ops).locked = false → (v.run a ops).Stable := by
  induction ops generalizing v with
  | nil => exact start
  | cons op ops ih =>
    obtain ⟨allowed, rest⟩ := legal
    refine ih rest fun unlocked => ?_
    cases op with
    | lock => exact absurd unlocked (by decide : ¬true = false)
    | markRoot => exact start unlocked
    | unlock =>
      show (v.unlock a).Stable
      unfold unlock
      split
      · exact ⟨rfl, rfl, rfl⟩
      · rename_i clean
        exact ⟨rfl, rfl, Bool.eq_false_iff.mpr clean⟩
    | _ =>
      have locked : v.locked = true := allowed
      exact absurd unlocked (ne_of_eq_of_ne locked (by decide))

/-- A split is pending until the next unlock. -/
theorem splitting_run (splitting : v.splitting = true) (still : .unlock ∉ ops) : (v.run a ops).splitting = true := by
  induction ops generalizing v with
  | nil => exact splitting
  | cons op ops ih =>
    obtain ⟨here, rest⟩ := not_or.mp (List.mem_cons.not.mp still)
    refine ih ?_ rest
    cases op with
    | unlock => exact absurd rfl here
    | markSplit => rfl
    | markDeleted => rfl
    | _ => exact splitting

/-- What is locked at first and not at last was unlocked. -/
theorem unlock_mem (locked : v.locked = true) (unlocked : (v.run a ops).locked = false) : .unlock ∈ ops := by
  induction ops generalizing v with
  | nil => exact absurd locked (Bool.eq_false_iff.mp unlocked)
  | cons op ops ih =>
    rcases eq_or_ne op .unlock with rfl | mark
    · exact List.mem_cons_self
    · have still : (v.apply a op).locked = true := by
        cases op with
        | unlock => exact absurd rfl mark
        | lock => rfl
        | _ => exact locked
      exact List.mem_cons_of_mem _ (ih still unlocked)

/-- A run that marks nothing and starts clean counts nothing. -/
theorem total_unmarked (clean : v.inserting = false ∧ v.splitting = false) (unmarked : ∀ op ∈ ops, ¬op.Marks) :
    (v.run a ops).total = v.total := by
  induction ops generalizing v with
  | nil => rfl
  | cons op ops ih =>
    obtain ⟨here, rest⟩ := List.forall_mem_cons.mp unmarked
    obtain ⟨inserting, splitting⟩ := clean
    show ((v.apply a op).run a ops).total = _
    cases op with
    | markInsert => exact absurd (.inl rfl) here
    | markSplit => exact absurd (.inr (.inl rfl)) here
    | markDeleted => exact absurd (.inr (.inr rfl)) here
    | unlock =>
      have next : (v.apply a .unlock).inserting = false ∧ (v.apply a .unlock).splitting = false := by
        show (v.unlock a).inserting = false ∧ (v.unlock a).splitting = false
        unfold unlock
        split
        · exact ⟨rfl, rfl⟩
        · exact ⟨rfl, splitting⟩
      rw [ih next rest, total_unlock, splitting, inserting]
      rfl
    | _ => exact ih (v := v.apply a _) ⟨inserting, splitting⟩ rest

/-- Every mark of a run that ends unlocked is followed by an unlock. -/
theorem followed_of_mem {p : VersionOp → Prop} (marks : ∀ op, p op → op.Marks) (legal : v.Legal a ops)
    (unlocked : (v.run a ops).locked = false) {m : VersionOp} (mem : m ∈ ops) (mark : p m) : VersionOp.Followed p ops := by
  obtain ⟨A, B, rfl⟩ := List.append_of_mem mem
  refine ⟨A, m, B, rfl, mark, ?_⟩
  obtain ⟨allowed, _⟩ := (legal_append.mp legal).2
  have locked : ((v.run a A).apply a m).locked = true := by
    rcases marks m mark with rfl | rfl | rfl
    · exact allowed
    · exact allowed
    · exact allowed
  rw [run_append] at unlocked
  exact unlock_mem locked unlocked

end Version

/-! ### What a version shows of a run -/

/-- What readers rely on, over every run from a new version, with fewer than `limit` unlocks between the two snapshots. -/
structure Exposes {w : Nat} (P : NodeversionParameters w) (limit : Nat) : Prop where
  changed : ∀ leaf before between, P.Legal (P.init leaf) (before ++ between) →
    P.locked (P.run (P.init leaf) before) = false → P.locked (P.run (P.init leaf) (before ++ between)) = false →
    between.count .unlock < limit →
    (P.hasChanged (P.run (P.init leaf) (before ++ between)) (P.run (P.init leaf) before) = true ↔
      VersionOp.Followed VersionOp.Marks between ∨
        P.isRoot (P.run (P.init leaf) (before ++ between)) ≠ P.isRoot (P.run (P.init leaf) before))
  split : ∀ leaf before between, between.count .unlock < limit → VersionOp.Followed VersionOp.Splits between →
    P.hasSplit (P.run (P.init leaf) (before ++ between)) (P.run (P.init leaf) before) = true
  leaf : ∀ leaf ops, P.isleaf (P.run (P.init leaf) ops) = leaf
  deleted : ∀ leaf ops, P.deleted (P.run (P.init leaf) ops) = true ↔ VersionOp.markDeleted ∈ ops
  root : ∀ leaf before op between, op.Splits → VersionOp.unlock ∉ between →
    P.isRoot (P.run (P.init leaf) (before ++ op :: between ++ [.unlock])) = false

/-- Counters that are apart by less than their range differ in the word. -/
theorem mod_ne_of_lt {m t range : Nat} (less : m < t) (near : t < m + range) : m % range ≠ t % range := by
  intro same
  have parts := Nat.div_add_mod m range
  have parts' := Nat.div_add_mod t range
  rw [same] at parts
  rcases Nat.lt_or_ge (m / range) (t / range) with lt | ge
  · have := Nat.mul_le_mul_left range lt
    rw [Nat.mul_succ] at this
    omega
  · have := Nat.mul_le_mul_left range ge
    omega

section Exposed
variable {w : Nat} {P : NodeversionParameters w} {l a c : Nat} {x : BitVec w} {v : Version} (L : Layout P l a c)
include L

theorem Shows.isRoot_eq (shows_ : Shows l c x v) : P.isRoot x = v.root := by
  have width := L.width
  rw [NodeversionParameters.isRoot, L.rootBit, has_bit x (by omega), shows_.root]

theorem Shows.isleaf_eq (shows_ : Shows l c x v) : P.isleaf x = v.leaf := by
  have width := L.width
  rw [NodeversionParameters.isleaf, L.isleafBit, has_bit x (by omega), shows_.leaf]

theorem Shows.deleted_eq (shows_ : Shows l c x v) : P.deleted x = v.deleted := by
  have width := L.width
  rw [NodeversionParameters.deleted, L.deletedBit, has_bit x (by omega), shows_.deleted]

theorem exposes : Exposes P (2 ^ (c - a)) := by
  have start := fun leaf => shows_init L leaf
  have showsRun : ∀ leaf ops, Shows l c (P.run (P.init leaf) ops) ((Version.init leaf).run a ops) :=
    fun leaf ops => (start leaf).run L ops
  have range : 2 ^ c = 2 ^ a * 2 ^ (c - a) := by
    rw [← Nat.pow_add, Nat.add_sub_cancel' (Nat.le_of_lt L.short)]
  constructor
  · intro leaf before between legal unlocked unlocked' few
    have hx := showsRun leaf before
    have hy := showsRun leaf (before ++ between)
    rw [(start leaf).legal L] at legal
    rw [hx.locked_eq L] at unlocked
    rw [hy.locked_eq L] at unlocked'
    have fresh : (Version.init leaf).locked = false → (Version.init leaf).Stable := fun _ => ⟨rfl, rfl, rfl⟩
    have stable := Version.stable_run (Version.legal_append.mp legal).1 fresh unlocked
    have stable' := Version.stable_run legal fresh unlocked'
    rw [hx.hasChanged_iff L hy stable stable', hx.isRoot_eq L, hy.isRoot_eq L, Ne, hx.eq_iff L hy]
    have rest := (Version.legal_append.mp legal).2
    have deleted := Version.deleted_run a ((Version.init leaf).run a before) between
    have leaves := Version.leaf_run a ((Version.init leaf).run a before) between
    rw [Version.run_append] at stable' unlocked' ⊢
    obtain ⟨_, bound, _, _⟩ := Version.total_run a ((Version.init leaf).run a before) between
    generalize (Version.init leaf).run a before = v at *
    constructor
    · intro differ
      by_contra neither
      obtain ⟨unfollowed, roots⟩ := not_or.mp neither
      have unmarked : ∀ op ∈ between, ¬op.Marks := fun op mem mark =>
        unfollowed (Version.followed_of_mem (fun _ => id) rest unlocked' mem mark)
      have total := Version.total_unmarked (a := a) stable.2 unmarked
      have alive : VersionOp.markDeleted ∉ between := fun mem => unmarked _ mem (.inr (.inr rfl))
      refine differ ⟨?_, ?_, ?_, ?_, (not_not.mp roots).symm, leaves.symm, by rw [total]⟩
      · rw [unlocked, unlocked']
      · rw [stable.2.1, stable'.2.1]
      · rw [stable.2.2, stable'.2.2]
      · rw [deleted, decide_eq_false alive, Bool.or_false]
    · rintro (followed | roots)
      · rintro ⟨_, _, _, _, _, _, counters⟩
        have more := Version.total_followed (a := a) (v := v) followed
        have near : 2 ^ a * between.count VersionOp.unlock < 2 ^ c := by
          rw [range]
          exact Nat.mul_lt_mul_of_pos_left few (Nat.two_pow_pos a)
        exact mod_ne_of_lt more (by omega) counters
      · rintro ⟨_, _, _, _, root, _, _⟩
        exact roots root.symm
  · intro leaf before between few followed
    refine (showsRun leaf before).hasSplit_of L (showsRun leaf (before ++ between)) ?_
    rw [Version.run_append]
    have more := Version.splits_followed (a := a) (v := (Version.init leaf).run a before) followed
    obtain ⟨_, _, _, bound⟩ := Version.total_run a ((Version.init leaf).run a before) between
    exact mod_ne_of_lt more (by omega)
  · intro leaf ops
    rw [(showsRun leaf ops).isleaf_eq L, Version.leaf_run]
    rfl
  · intro leaf ops
    rw [(showsRun leaf ops).deleted_eq L, Version.deleted_run]
    exact decide_eq_true_iff
  · intro leaf before op between splits still
    rw [(showsRun leaf _).isRoot_eq L, Version.run_append]
    show (((Version.init leaf).run a (before ++ op :: between)).unlock a).root = false
    have splitting : ((Version.init leaf).run a (before ++ op :: between)).splitting = true := by
      rw [Version.run_append]
      refine Version.splitting_run (v := ((Version.init leaf).run a before).apply a op) ?_ still
      rcases splits with rfl | rfl <;> rfl
    rw [Version.unlock, if_pos splitting]

end Exposed

theorem versions_expose : Exposes nodeversionParameters32 (2 ^ 19) ∧ Exposes nodeversionParameters64 (2 ^ 33) :=
  ⟨exposes layout32, exposes layout64⟩

/-- An insertion and a split of a root, seen in 32 bits. -/
theorem versions_expose_split :
    nodeversionParameters32.hasChanged
      (nodeversionParameters32.run (nodeversionParameters32.init true)
        ([.markRoot] ++ [.lock, .markInsert, .unlock, .lock, .markSplit, .unlock]))
      (nodeversionParameters32.run (nodeversionParameters32.init true) [.markRoot]) = true :=
  (versions_expose.1.changed true [.markRoot] [.lock, .markInsert, .unlock, .lock, .markSplit, .unlock]
    (by decide) (by decide) (by decide) (by decide)).mpr
    (.inl ⟨[.lock], .markInsert, [.unlock, .lock, .markSplit, .unlock], rfl, .inl rfl, by decide⟩)

end Masstree.Tree
