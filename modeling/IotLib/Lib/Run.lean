/-
  Runs of a deterministic step function, and properties of all their states.
-/
import Mathlib

namespace Run

variable {S A : Type}

/-- The state after the steps `as`. -/
def run (step : S → A → S) : S → List A → S
  | s, [] => s
  | s, a :: as => run step (step s a) as

theorem run_append (step : S → A → S) (s : S) (as bs : List A) :
    run step s (as ++ bs) = run step (run step s as) bs := by
  induction as generalizing s with
  | nil => rfl
  | cons a as ih => exact ih (step s a)

/-- Each step of the run meets the condition `ok` on the state before it. -/
def Admits (step : S → A → S) (ok : S → A → Prop) : S → List A → Prop
  | _, [] => True
  | s, a :: as => ok s a ∧ Admits step ok (step s a) as

instance (step : S → A → S) (ok : S → A → Prop) [∀ s a, Decidable (ok s a)] :
    ∀ s as, Decidable (Admits step ok s as)
  | _, [] => inferInstanceAs (Decidable True)
  | s, a :: as =>
    have := instDecidableAdmits step ok (step s a) as
    inferInstanceAs (Decidable (ok s a ∧ Admits step ok (step s a) as))

section
variable {step : S → A → S} {ok : S → A → Prop} {s : S} {as : List A}

theorem Admits.and_forall {P : A → Prop} (h : Admits step ok s as) (hP : ∀ a ∈ as, P a) :
    Admits step (fun s a => P a ∧ ok s a) s as := by
  induction as generalizing s with
  | nil => trivial
  | cons a as ih =>
    exact ⟨⟨hP a (by simp), h.1⟩, ih h.2 fun b hb => hP b (by simp [hb])⟩

theorem Admits.of_forall (h : ∀ s a, ok s a) : Admits step ok s as := by
  induction as generalizing s with
  | nil => trivial
  | cons a as ih => exact ⟨h s a, ih⟩

/-- A property that every admitted step preserves holds at the end of a run. -/
theorem Admits.invariant {I : S → Prop} (hstep : ∀ s a, ok s a → I s → I (step s a))
    (h : Admits step ok s as) (hs : I s) : I (run step s as) := by
  induction as generalizing s with
  | nil => exact hs
  | cons a as ih => exact ih h.2 (hstep s a h.1 hs)

end

end Run
