/-
  Computations that are given fuel: the value they settle on once there is enough of it.
-/
import Mathlib

namespace Fuel

variable {α β : Type} {m : ℕ → Option α} {a : α} {b : β}

/-- With enough fuel, the result is `a`. -/
def Converges (m : ℕ → Option α) (a : α) : Prop := ∃ n, ∀ fuel ≥ n, m fuel = some a

theorem Converges.ret (a : α) : Converges (fun _ => some a) a := ⟨0, fun _ _ => rfl⟩

theorem Converges.congr {m' : ℕ → Option α} (h : Converges m a) (heq : ∀ fuel, m' fuel = m fuel) :
    Converges m' a := by
  obtain ⟨n, hn⟩ := h
  exact ⟨n, fun fuel hf => (heq fuel).trans (hn fuel hf)⟩

theorem Converges.bind {k : α → ℕ → Option β} (h : Converges m a) (hk : Converges (k a) b) :
    Converges (fun fuel => (m fuel).bind fun x => k x fuel) b := by
  obtain ⟨n, hn⟩ := h
  obtain ⟨n', hn'⟩ := hk
  refine ⟨max n n', fun fuel hf => ?_⟩
  dsimp only
  rw [hn fuel (le_of_max_le_left hf), Option.bind_some, hn' fuel (le_of_max_le_right hf)]

/-- There is one result. -/
theorem Converges.unique {a' : α} (h : Converges m a) (h' : Converges m a') : a = a' := by
  obtain ⟨n, hn⟩ := h
  obtain ⟨n', hn'⟩ := h'
  exact Option.some.inj ((hn _ (le_max_left n n')).symm.trans (hn' _ (le_max_right n n')))

/-- A call costs one unit. -/
theorem Converges.call {m' : ℕ → Option α} (h : Converges m a)
    (heq : ∀ fuel, m' (fuel + 1) = m fuel) : Converges m' a := by
  obtain ⟨n, hn⟩ := h
  refine ⟨n + 1, fun fuel hf => ?_⟩
  obtain ⟨fuel', rfl⟩ : ∃ fuel', fuel = fuel' + 1 := ⟨fuel - 1, by omega⟩
  rw [heq, hn fuel' (by omega)]

end Fuel
