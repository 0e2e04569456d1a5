/-
  Computations that may fail: that one returns, and what is known of its result.
-/
import Mathlib

namespace Returns

variable {α β : Type} {m : Option α} {P Q : α → Prop}

/-- The computation returns a value with `P`. -/
def Returns (m : Option α) (P : α → Prop) : Prop := ∃ a, m = some a ∧ P a

theorem ret {a : α} (h : P a) : Returns (some a) P := ⟨a, rfl, h⟩

theorem Returns.mono (h : Returns m P) (hPQ : ∀ a, P a → Q a) : Returns m Q := by
  obtain ⟨a, ha, hP⟩ := h
  exact ⟨a, ha, hPQ a hP⟩

theorem Returns.bind {k : α → Option β} {R : β → Prop} (h : Returns m P)
    (hk : ∀ a, P a → Returns (k a) R) : Returns (m.bind k) R := by
  obtain ⟨a, rfl, hP⟩ := h
  exact hk a hP

theorem Returns.ite {c : Prop} [Decidable c] {m' : Option α} (h : c → Returns m P)
    (h' : ¬ c → Returns m' P) : Returns (if c then m else m') P := by
  split_ifs with hc
  · exact h hc
  · exact h' hc

end Returns
