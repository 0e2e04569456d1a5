/-
  JSON values (`value.c`), as trees. An object is the list of its members in the order in which
  iterating it gives them: that of the first insertion.
-/
import IotLib.Jansson.Utf

namespace Jansson

/-- A value; `R` are the finite doubles. -/
inductive Json (R : Type) where
  | object (members : List (Bytes × Json R))
  | array (elems : List (Json R))
  | string (value : Bytes)
  | integer (value : Int64)
  | real (value : R)
  | true
  | false
  | null

section
variable {α : Type}

/-- `json_object_getn` -/
def objectGet (key : Bytes) : List (Bytes × α) → Option α
  | [] => none
  | (k, v) :: ms => if k = key then some v else objectGet key ms

/-- `json_object_setn_new_nocheck`: a new key goes to the end. -/
def objectSet (key : Bytes) (value : α) : List (Bytes × α) → List (Bytes × α)
  | [] => [(key, value)]
  | (k, v) :: ms => if k = key then (k, value) :: ms else (k, v) :: objectSet key value ms

-- the equations, once for the lemmas below
section
attribute [local simp] objectGet objectSet
end

variable {ms : List (Bytes × α)}

theorem objectGet_eq_none_iff {key : Bytes} :
    objectGet key ms = none ↔ key ∉ ms.map Prod.fst := by
  induction ms with
  | nil => simp [objectGet]
  | cons m ms ih =>
    obtain ⟨k, v⟩ := m
    rw [objectGet]
    split_ifs with h
    · simp [h]
    · simp [ih, Ne.symm h]

theorem objectGet_isSome_iff {key : Bytes} :
    (objectGet key ms).isSome = true ↔ key ∈ ms.map Prod.fst := by
  rw [← not_iff_not, ← objectGet_eq_none_iff, Option.not_isSome_iff_eq_none]

theorem mem_of_objectGet {key : Bytes} {x : α} : ∀ {ms : List (Bytes × α)},
    objectGet key ms = some x → (key, x) ∈ ms
  | (k, y) :: ms, h => by
    rw [objectGet] at h
    split_ifs at h with hk
    · rw [← hk, ← Option.some.inj h]
      exact List.mem_cons_self ..
    · exact List.mem_cons_of_mem _ (mem_of_objectGet h)

theorem objectGet_of_mem (h : (ms.map Prod.fst).Nodup)
    {m : Bytes × α} (hm : m ∈ ms) : objectGet m.1 ms = some m.2 := by
  induction ms with
  | nil => cases hm
  | cons m' ms ih =>
    rw [List.map_cons, List.nodup_cons] at h
    rw [objectGet]
    rcases List.mem_cons.1 hm with rfl | hm
    · rw [if_pos rfl]
    · have hne : m'.1 ≠ m.1 := by
        intro heq
        exact h.1 (heq ▸ List.mem_map_of_mem hm)
      rw [if_neg hne, ih h.2 hm]

theorem objectSet_fresh {key : Bytes} {value : α}
    (h : key ∉ ms.map Prod.fst) : objectSet key value ms = ms ++ [(key, value)] := by
  induction ms with
  | nil => rfl
  | cons m ms ih =>
    obtain ⟨k, v⟩ := m
    simp only [List.map_cons, List.mem_cons, not_or] at h
    rw [objectSet, if_neg (Ne.symm h.1), ih h.2, List.cons_append]

theorem objectGet_objectSet {key k : Bytes} {value : α} :
    objectGet k (objectSet key value ms) = if key = k then some value else objectGet k ms := by
  induction ms with
  | nil => rfl
  | cons m ms ih =>
    obtain ⟨k', v⟩ := m
    rw [objectSet]
    split_ifs with h₁ h₂ h₂
    · rw [objectGet, if_pos (h₁.trans h₂)]
    · rw [objectGet, objectGet, if_neg (by rw [h₁]; exact h₂), if_neg (by rw [h₁]; exact h₂)]
    · rw [objectGet, ih, if_pos h₂, if_neg (by rw [← h₂]; exact h₁)]
    · rw [objectGet, objectGet, ih, if_neg h₂]

end

end Jansson
