/-
  Linked lists in memory: the nodes that are met from an address on.
-/
import Mathlib

variable {N : Type} {next : N → Option ℕ}

/-- The addresses and nodes of a list that starts at an address and ends with none. -/
inductive HeapList (next : N → Option ℕ) (mem : ℕ → Option N) : Option ℕ → List (ℕ × N) → Prop
  | nil : HeapList next mem none []
  | cons {a : ℕ} {n : N} {as : List (ℕ × N)} (ha : mem a = some n) (h : HeapList next mem (next n) as) :
      HeapList next mem (some a) ((a, n) :: as)

namespace HeapList

variable {mem mem' : ℕ → Option N} {p : Option ℕ} {a : ℕ} {n n' : N} {as bs : List (ℕ × N)}

theorem mem_eq (h : HeapList next mem p as) : ∀ x ∈ as, mem x.1 = some x.2 := by
  induction h with
  | nil => exact nofun
  | cons ha _ ih =>
    intro x hx
    rcases List.mem_cons.1 hx with rfl | hx
    · exact ha
    · exact ih x hx

/-- Only the nodes of the list matter. -/
theorem congr (h : HeapList next mem p as) (heq : ∀ x ∈ as, mem' x.1 = mem x.1) :
    HeapList next mem' p as := by
  induction h with
  | nil => exact .nil
  | cons ha _ ih =>
    refine .cons ((heq _ List.mem_cons_self).trans ha) (ih fun x hx => ?_)
    exact heq x (List.mem_cons_of_mem _ hx)

/-- What is changed elsewhere does not matter. -/
theorem update (h : HeapList next mem p as) (ha : a ∉ as.map Prod.fst) (o : Option N) :
    HeapList next (Function.update mem a o) p as := by
  refine h.congr fun x hx => Function.update_of_ne ?_ _ _
  rintro rfl
  exact ha (List.mem_map_of_mem (f := Prod.fst) hx)

/-- A node in the middle is changed, but not its link. -/
theorem set (h : HeapList next mem p (as ++ (a, n) :: bs))
    (hnodup : ((as ++ (a, n) :: bs).map Prod.fst).Nodup) (hnext : next n' = next n) :
    HeapList next (Function.update mem a (some n')) p (as ++ (a, n') :: bs) := by
  induction as generalizing p with
  | nil =>
    cases h with
    | cons ha h =>
      rw [List.nil_append, List.map_cons, List.nodup_cons] at hnodup
      refine .cons (Function.update_self _ _ _) ?_
      rw [hnext]
      exact h.update hnodup.1 _
  | cons x as ih =>
    obtain ⟨b, m⟩ := x
    cases h with
    | cons hb h =>
      rw [List.cons_append, List.map_cons, List.nodup_cons] at hnodup
      have hne : b ≠ a := by
        intro heq
        have hmem : (a, n) ∈ as ++ (a, n) :: bs := List.mem_append_right _ List.mem_cons_self
        have haddr := List.mem_map_of_mem (f := Prod.fst) hmem
        refine hnodup.1 ?_
        rw [heq]
        exact haddr
      exact .cons ((Function.update_of_ne hne _ _).trans hb) (ih h hnodup.2)

end HeapList
