/-
  Chains of nodes that are linked by their `next` fields.
-/
import Mathlib

/-- Each node is followed by the next of the list, and the last by none. -/
def Linked (next : ℕ → Option ℕ) : List ℕ → Prop
  | [] => True
  | a :: as => next a = as.head? ∧ Linked next as

namespace Linked

variable {next : ℕ → Option ℕ} {a b : ℕ} {as : List ℕ}

/-- The link of a node in the middle. -/
theorem next_eq {pre : List ℕ} (h : Linked next (pre ++ a :: as)) : next a = as.head? := by
  induction pre with
  | nil => exact h.1
  | cons p pre ih => exact ih h.2

/-- A new node behind the last one. -/
theorem concat {next' : ℕ → Option ℕ} {pre : List ℕ} (h : Linked next (pre ++ [a]))
    (hpre : ∀ x ∈ pre, next' x = next x) (ha : next' a = some b) (hb : next' b = none) :
    Linked next' (pre ++ [a, b]) := by
  induction pre with
  | nil => exact ⟨ha, hb, trivial⟩
  | cons p pre ih =>
    refine ⟨?_, ih h.2 fun x hx => hpre x (List.mem_cons_of_mem p hx)⟩
    rw [hpre p List.mem_cons_self]
    have hp := h.1
    cases pre with
    | nil => exact hp
    | cons q pre => exact hp

end Linked
