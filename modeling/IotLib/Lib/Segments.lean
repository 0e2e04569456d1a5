/-
  A list that is cut into segments, one for each name, in the order of a list of names.
-/
import Mathlib

namespace Segments

variable {ι α : Type} [DecidableEq ι] {order : List ι} {seg : ι → List α} {i : ι} {l : List α}

/-- The segments one behind the other. -/
def flat (order : List ι) (seg : ι → List α) : List α := order.flatMap seg

/-- A segment that is not listed does not count. -/
theorem flat_update_of_notMem (hi : i ∉ order) (seg : ι → List α) (l : List α) :
    flat order (Function.update seg i l) = flat order seg := by
  refine List.flatMap_congr fun j hj => ?_
  have hne : j ≠ i := fun heq => hi (heq ▸ hj)
  rw [Function.update_of_ne hne]

/-- What stands before and behind a segment does not depend on it. -/
theorem exists_around (hi : i ∈ order) (hnodup : order.Nodup) (seg : ι → List α) :
    ∃ before behind, ∀ l, flat order (Function.update seg i l) = before ++ (l ++ behind) := by
  obtain ⟨before, behind, rfl⟩ := List.append_of_mem hi
  obtain ⟨-, hbehind, hdisj⟩ := List.nodup_append.1 hnodup
  have hbefore : i ∉ before := fun hmem => hdisj i hmem i List.mem_cons_self rfl
  refine ⟨flat before seg, flat behind seg, fun l => ?_⟩
  have h₁ := flat_update_of_notMem hbefore seg l
  have h₂ := flat_update_of_notMem (List.nodup_cons.1 hbehind).1 seg l
  rw [flat] at h₁ h₂
  rw [flat, List.flatMap_append, List.flatMap_cons, h₁, h₂, Function.update_self]

/-- An empty segment may be taken off the list. -/
theorem flat_erase (h : seg i = []) : flat (order.erase i) seg = flat order seg := by
  induction order with
  | nil => rfl
  | cons j order ih =>
    by_cases hj : j = i
    · rw [hj, List.erase_cons_head, flat, flat, List.flatMap_cons, h, List.nil_append]
    · rw [List.erase_cons_tail (by simpa using hj)]
      simp only [flat, List.flatMap_cons] at ih ⊢
      rw [ih]

/-- A new segment at the end. -/
theorem flat_concat (hi : i ∉ order) :
    flat (order ++ [i]) (Function.update seg i l) = flat order seg ++ l := by
  have h := flat_update_of_notMem hi seg l
  rw [flat] at h
  rw [flat, List.flatMap_append, h, List.flatMap_cons, Function.update_self, List.flatMap_nil,
    List.append_nil, flat]

omit [DecidableEq ι] in
theorem mem_flat {x : α} : x ∈ flat order seg ↔ ∃ i ∈ order, x ∈ seg i := List.mem_flatMap

end Segments
