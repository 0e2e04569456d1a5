/-
  Insertion into a list in front of the first entry with some property.
-/
import Mathlib

namespace Insert

variable {α : Type*}

/-- `x` in front of the first entry that is late, or at the end. -/
def insertBefore (late : α → Bool) (x : α) : List α → List α
  | [] => [x]
  | y :: rest => if late y then x :: y :: rest else y :: insertBefore late x rest

theorem insertBefore_perm (late : α → Bool) (x : α) (l : List α) :
    (insertBefore late x l).Perm (x :: l) := by
  induction l with
  | nil => rfl
  | cons y rest ih =>
    rw [insertBefore]
    split
    · rfl
    · exact (ih.cons y).trans (List.Perm.swap x y rest)

@[simp] theorem mem_insertBefore {late : α → Bool} {x y : α} {l : List α} :
    y ∈ insertBefore late x l ↔ y = x ∨ y ∈ l := by
  rw [(insertBefore_perm late x l).mem_iff, List.mem_cons]

/-- A relation between the entries is kept if the new one is related to those in front of it, and
    to what a late one is related to. -/
theorem pairwise_insertBefore {R : α → α → Prop} {late : α → Bool} {x : α} {l : List α}
    (h : l.Pairwise R) (hbefore : ∀ y ∈ l, late y = false → R y x)
    (hafter : ∀ y ∈ l, late y = true → R x y ∧ ∀ z ∈ l, R y z → R x z) :
    (insertBefore late x l).Pairwise R := by
  induction l with
  | nil => exact List.pairwise_singleton R x
  | cons y rest ih =>
    obtain ⟨hy, hrest⟩ := List.pairwise_cons.1 h
    rw [insertBefore]
    cases hlate : late y with
    | true =>
      obtain ⟨hxy, htrans⟩ := hafter y List.mem_cons_self hlate
      refine List.pairwise_cons.2 ⟨?_, h⟩
      intro z hz
      rcases List.mem_cons.1 hz with rfl | hz
      · exact hxy
      · exact htrans z (List.mem_cons_of_mem y hz) (hy z hz)
    | false =>
      refine List.pairwise_cons.2 ⟨?_, ih hrest ?_ ?_⟩
      · intro z hz
        rcases mem_insertBefore.1 hz with rfl | hz
        · exact hbefore y List.mem_cons_self hlate
        · exact hy z hz
      · intro z hz
        exact hbefore z (List.mem_cons_of_mem y hz)
      · intro z hz hl
        obtain ⟨hxz, htrans⟩ := hafter z (List.mem_cons_of_mem y hz) hl
        exact ⟨hxz, fun w hw => htrans w (List.mem_cons_of_mem y hw)⟩

end Insert
