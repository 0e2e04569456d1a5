/-
  Walks down a graph that keep the nodes above the one they are at: when they meet one of
  these again.
-/
import Mathlib

namespace Descent

open Relation

variable {α : Type} (E : α → α → Prop)

/-- Below the node there is one of those above, or a cycle. -/
def Blocked (path : List α) (p : α) : Prop :=
  ∃ q, ReflTransGen E p q ∧ (q ∈ path ∨ TransGen E q q)

section
variable {E} {path : List α} {p : α}

theorem blocked_of_mem (h : p ∈ path) : Blocked E path p := ⟨p, .refl, .inl h⟩

theorem blocked_nil : Blocked E [] p ↔ ∃ q, ReflTransGen E p q ∧ TransGen E q q := by
  simp [Blocked]

/-- A node that was not met is blocked when one of the nodes below is, with it above them. -/
theorem blocked_iff (h : p ∉ path) : Blocked E path p ↔ ∃ c, E p c ∧ Blocked E (p :: path) c := by
  constructor
  · rintro ⟨q, hpq, hq⟩
    rcases hpq.cases_head with rfl | ⟨c, hpc, hcq⟩
    · have hcycle := hq.resolve_left h
      obtain ⟨c, hpc, hcp⟩ := TransGen.head'_iff.1 hcycle
      exact ⟨c, hpc, p, hcp, .inl List.mem_cons_self⟩
    · exact ⟨c, hpc, q, hcq, hq.imp_left (List.mem_cons_of_mem p)⟩
  · rintro ⟨c, hpc, q, hcq, hq⟩
    by_cases hqp : q = p
    · subst hqp
      exact ⟨q, .refl, .inr (TransGen.head' hpc hcq)⟩
    · refine ⟨q, .head hpc hcq, hq.imp_left fun hmem => ?_⟩
      exact (List.mem_cons.1 hmem).resolve_left hqp

/-- A leaf is not blocked. -/
theorem not_blocked_of_leaf (h : p ∉ path) (hleaf : ∀ c, ¬E p c) : ¬Blocked E path p := by
  rw [blocked_iff h]
  rintro ⟨c, hpc, -⟩
  exact hleaf c hpc

end

end Descent
