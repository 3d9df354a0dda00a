import Mathlib.Data.List.Nodup
import Mathlib.Logic.Function.Basic

/-!
# Lists that are linked by next pointers
-/

section
variable {ι : Type} {next : ι → Option ι}

/-- Each cell points to the one after it, and the last one to `stop`. -/
def Linked (next : ι → Option ι) : List ι → Option ι → Prop
  | [], _ => True
  | i :: cells, stop => next i = cells.head?.or stop ∧ Linked next cells stop

namespace Linked

theorem congr {next' : ι → Option ι} {cells : List ι} {stop : Option ι} (same : ∀ i ∈ cells, next' i = next i)
    (linked : Linked next cells stop) : Linked next' cells stop := by
  induction cells with
  | nil => trivial
  | cons i cells ih =>
    obtain ⟨here, rest⟩ := linked
    exact ⟨(same i List.mem_cons_self).trans here, ih (fun j mem => same j (List.mem_cons_of_mem i mem)) rest⟩

theorem append_iff {front back : List ι} {stop : Option ι} :
    Linked next (front ++ back) stop ↔ Linked next front (back.head?.or stop) ∧ Linked next back stop := by
  induction front with
  | nil => exact ⟨fun linked => ⟨trivial, linked⟩, And.right⟩
  | cons i front ih =>
    simp only [List.cons_append, Linked, ih, List.head?_append, Option.or_assoc, and_assoc]

variable [DecidableEq ι]

/-- Setting the pointer of a cell that is not in the list. -/
theorem update_of_not_mem {cells : List ι} {stop : Option ι} {i : ι} (absent : i ∉ cells) (stop' : Option ι)
    (linked : Linked next cells stop) : Linked (Function.update next i stop') cells stop := by
  apply linked.congr
  intro j mem
  have different : j ≠ i := by
    rintro rfl
    exact absent mem
  exact Function.update_of_ne different stop' next

/-- Setting the pointer of the last cell. -/
theorem update_last {cells : List ι} {i : ι} {stop : Option ι} (absent : i ∉ cells) (stop' : Option ι)
    (linked : Linked next (cells ++ [i]) stop) : Linked (Function.update next i stop') (cells ++ [i]) stop' := by
  obtain ⟨front, -⟩ := append_iff.mp linked
  refine append_iff.mpr ⟨front.update_of_not_mem absent stop', ?_, trivial⟩
  rw [Function.update_self, List.head?_nil, Option.none_or]

/-- A new last cell. -/
theorem append_cell {cells : List ι} {i new : ι} (nodup : (cells ++ [i]).Nodup) (fresh : new ∉ cells ++ [i]) (free : next new = none)
    (linked : Linked next (cells ++ [i]) none) : Linked (Function.update next i (some new)) (cells ++ [i] ++ [new]) none := by
  have absent : i ∉ cells := fun mem => (List.nodup_append.mp nodup).2.2 i mem i (List.mem_singleton_self i) rfl
  have different : new ≠ i := by
    rintro rfl
    exact fresh (List.mem_append_right _ (List.mem_singleton_self _))
  refine append_iff.mpr ⟨linked.update_last absent (some new), ?_, trivial⟩
  rw [Function.update_of_ne different, free, List.head?_nil, Option.none_or]

/-- The cell before it takes over the pointer of a cell that goes. -/
theorem remove_cell {front back : List ι} {i gone : ι} {stop : Option ι} (nodup : (front ++ [i] ++ gone :: back).Nodup)
    (linked : Linked next (front ++ [i] ++ gone :: back) stop) :
    Linked (Function.update next i (next gone)) (front ++ [i] ++ back) stop := by
  obtain ⟨before, here, rest⟩ := append_iff.mp linked
  obtain ⟨nodup, -, apart⟩ := List.nodup_append.mp nodup
  have absent : i ∉ front := fun mem => (List.nodup_append.mp nodup).2.2 i mem i (List.mem_singleton_self i) rfl
  have last : i ∈ front ++ [i] := List.mem_append_right _ (List.mem_singleton_self i)
  refine append_iff.mpr ⟨?_, rest.update_of_not_mem (fun mem => apart i last i (List.mem_cons_of_mem _ mem) rfl) _⟩
  rw [here]
  exact before.update_last absent _

/-- A new cell after the first one. -/
theorem insert_second {cells : List ι} {i new : ι} {stop : Option ι} (nodup : (i :: cells).Nodup) (fresh : new ∉ i :: cells)
    (linked : Linked next (i :: cells) stop) :
    Linked (Function.update (Function.update next new (next i)) i (some new)) (i :: new :: cells) stop := by
  obtain ⟨here, rest⟩ := linked
  have different : new ≠ i := List.ne_of_not_mem_cons fresh
  refine ⟨?_, ?_, ?_⟩
  · rw [Function.update_self, List.head?_cons, Option.some_or]
  · rw [Function.update_of_ne different, Function.update_self, here]
  · exact (rest.update_of_not_mem (List.not_mem_of_not_mem_cons fresh) _).update_of_not_mem (List.nodup_cons.mp nodup).1 _

end Linked
end
