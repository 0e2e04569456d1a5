/-
  Executions of computations with a state that may throw: what a computation
  does from a given state, and how this composes.
-/
import Mathlib

namespace Exec

variable {ε σ α β : Type} {x : EStateM ε σ α} {f : α → EStateM ε σ β} {s s' s'' : σ} {a : α} {b : β}

/-- From the state `s` the computation returns `a`, in the state `s'`. -/
def Runs (x : EStateM ε σ α) (s : σ) (a : α) (s' : σ) : Prop := x s = .ok a s'

theorem Runs.ret (a : α) (s : σ) : Runs (pure a : EStateM ε σ α) s a s := rfl

theorem Runs.seq (hx : Runs x s a s') (hf : Runs (f a) s' b s'') : Runs (x >>= f) s b s'' := by
  unfold Runs at *
  rw [← hf]
  simp only [bind, EStateM.bind, hx]

theorem Runs.split (h : Runs (x >>= f) s b s'') : ∃ a s', Runs x s a s' ∧ Runs (f a) s' b s'' := by
  unfold Runs at *
  cases hx : x s with
  | ok a s' =>
    simp only [bind, EStateM.bind, hx] at h
    exact ⟨a, s', rfl, h⟩
  | error e s' =>
    simp only [bind, EStateM.bind, hx] at h
    cases h

theorem Runs.unique {a' : α} (h : Runs x s a s') (h' : Runs x s a' s'') : a = a' ∧ s' = s'' := by
  unfold Runs at *
  rw [h] at h'
  injection h' with h1 h2
  exact ⟨h1, h2⟩

theorem Runs.read {f : σ → EStateM ε σ β} (h : Runs (f s) s b s') : Runs (get >>= f) s b s' := h

theorem Runs.write {f : PUnit → EStateM ε σ β} (h : Runs (f ⟨⟩) s' b s'') :
    Runs (set s' >>= f) s b s'' := h

theorem Runs.update {g : σ → σ} {f : PUnit → EStateM ε σ β} (h : Runs (f ⟨⟩) (g s) b s') :
    Runs (modify g >>= f) s b s' := h

/-- A computation that is only run on a condition. -/
theorem Runs.guarded {P : Prop} [Decidable P] {x : EStateM ε σ PUnit} {f : PUnit → EStateM ε σ β}
    (hx : Runs (if P then x else pure ⟨⟩) s ⟨⟩ s') (hf : Runs (f ⟨⟩) s' b s'') :
    Runs (if P then x >>= f else f ⟨⟩) s b s'' := by
  by_cases hP : P
  · rw [if_pos hP] at hx ⊢
    exact hx.seq hf
  · rw [if_neg hP] at hx ⊢
    obtain rfl : s = s' := by
      unfold Runs at hx
      injection hx
    exact hf

variable {h : ε → EStateM ε σ α}

theorem Runs.protect (hx : Runs x s a s') :
    Runs (tryCatch x h) s a s' := by
  unfold Runs at *
  simp only [tryCatch, tryCatchThe, MonadExceptOf.tryCatch, EStateM.tryCatch, hx]

/-- From the state `s` the computation throws `e`, in the state `s'`. -/
def Throws (x : EStateM ε σ α) (s : σ) (e : ε) (s' : σ) : Prop := x s = .error e s'

section
variable {e : ε}

theorem Throws.raise (e : ε) (s : σ) : Throws (throw e : EStateM ε σ α) s e s := rfl

theorem Throws.first (hx : Throws x s e s') : Throws (x >>= f) s e s' := by
  unfold Throws at *
  simp only [bind, EStateM.bind, hx]

theorem Throws.seq (hx : Runs x s a s') (hf : Throws (f a) s' e s'') : Throws (x >>= f) s e s'' := by
  unfold Runs Throws at *
  rw [← hf]
  simp only [bind, EStateM.bind, hx]

theorem Throws.not_runs (h : Throws x s e s') : ¬ Runs x s a s'' := by
  intro hx
  unfold Runs Throws at *
  rw [h] at hx
  cases hx

theorem Throws.split (h : Throws (x >>= f) s e s'') :
    Throws x s e s'' ∨ ∃ a s', Runs x s a s' ∧ Throws (f a) s' e s'' := by
  unfold Throws at *
  cases hx : x s with
  | ok a s' =>
    simp only [bind, EStateM.bind, hx] at h
    exact .inr ⟨a, s', hx, h⟩
  | error e' s' =>
    simp only [bind, EStateM.bind, hx] at h
    cases h
    exact .inl rfl

theorem Throws.read {f : σ → EStateM ε σ β} (h : Throws (f s) s e s') :
    Throws (get >>= f) s e s' := h

/-- An error is handled in the state in which it was thrown. -/
theorem Runs.rescue (hx : Throws x s e s') (hh : Runs (h e) s' a s'') :
    Runs (tryCatch x h) s a s'' := by
  unfold Runs Throws at *
  rw [← hh]
  simp only [tryCatch, tryCatchThe, MonadExceptOf.tryCatch, EStateM.tryCatch, hx]
  rfl

end

/-- From the state `s` the computation `x` goes on as `y` does from the state `s'`. -/
def Leads (x : EStateM ε σ α) (s : σ) (y : EStateM ε σ α) (s' : σ) : Prop := x s = y s'

section
variable {y : EStateM ε σ α} {z : EStateM ε σ β} {e : ε} {s₁ : σ}

theorem Leads.refl (x : EStateM ε σ α) (s : σ) : Leads x s x s := rfl

theorem Leads.read {f : σ → EStateM ε σ α} (h : Leads (f s) s y s') : Leads (get >>= f) s y s' := h

theorem Leads.write {f : PUnit → EStateM ε σ α} (h : Leads (f ⟨⟩) s' y s'') :
    Leads (set s' >>= f) s y s'' := h

theorem Leads.update {g : σ → σ} {f : PUnit → EStateM ε σ α} (h : Leads (f ⟨⟩) (g s) y s') :
    Leads (modify g >>= f) s y s' := h

theorem Leads.seq (hx : Runs x s a s') (hf : Leads (f a) s' z s'') : Leads (x >>= f) s z s'' := by
  unfold Runs Leads at *
  rw [← hf]
  simp only [bind, EStateM.bind, hx]

theorem Leads.runs (h : Leads x s y s') (hy : Runs y s' a s₁) : Runs x s a s₁ := Eq.trans h hy

theorem Leads.throws (h : Leads x s y s') (hy : Throws y s' e s₁) : Throws x s e s₁ := Eq.trans h hy

end

/-- Whether it returns or throws, the computation ends in a state with the property `I`. -/
def Keeps (I : σ → Prop) (x : EStateM ε σ α) (s : σ) : Prop :=
  match x s with
  | .ok _ s' => I s'
  | .error _ s' => I s'

section
variable {I J : σ → Prop}

theorem Keeps.runs (h : Keeps I x s) (hx : Runs x s a s') : I s' := by
  unfold Keeps at h
  rw [show x s = .ok a s' from hx] at h
  exact h

theorem Keeps.throws {e : ε} (h : Keeps I x s) (hx : Throws x s e s') : I s' := by
  unfold Keeps at h
  rw [show x s = .error e s' from hx] at h
  exact h

theorem Keeps.ret (a : α) (hs : I s) : Keeps I (pure a : EStateM ε σ α) s := hs

theorem Keeps.mono (h : Keeps I x s) (hIJ : ∀ s', I s' → J s') : Keeps J x s := by
  unfold Keeps at *
  cases hx : x s with
  | ok a s' =>
    rw [hx] at h
    exact hIJ s' h
  | error e s' =>
    rw [hx] at h
    exact hIJ s' h

theorem Keeps.seq (hx : Keeps I x s) (hf : ∀ a s', I s' → Keeps I (f a) s') :
    Keeps I (x >>= f) s := by
  unfold Keeps at hx ⊢
  cases h : x s with
  | ok a s' =>
    rw [h] at hx
    simp only [bind, EStateM.bind, h]
    exact hf a s' hx
  | error e s' =>
    rw [h] at hx
    simp only [bind, EStateM.bind, h]
    exact hx

theorem Keeps.read {f : σ → EStateM ε σ β} (h : Keeps I (f s) s) : Keeps I (get >>= f) s := h

theorem Keeps.write {f : PUnit → EStateM ε σ β} (h : Keeps I (f ⟨⟩) s') :
    Keeps I (set s' >>= f) s := h

theorem Keeps.update {g : σ → σ} {f : PUnit → EStateM ε σ β} (h : Keeps I (f ⟨⟩) (g s)) :
    Keeps I (modify g >>= f) s := h

theorem Keeps.guarded {P : Prop} [Decidable P] {x : EStateM ε σ PUnit} {f : PUnit → EStateM ε σ β}
    (hs : I s) (hx : P → Keeps I x s) (hf : ∀ s', I s' → Keeps I (f ⟨⟩) s') :
    Keeps I (if P then x >>= f else f ⟨⟩) s := by
  by_cases hP : P
  · rw [if_pos hP]
    exact (hx hP).seq fun _ s' hs' => hf s' hs'
  · rw [if_neg hP]
    exact hf s hs

theorem Keeps.protect (hx : Keeps I x s)
    (hh : ∀ e s', I s' → Keeps I (h e) s') : Keeps I (tryCatch x h) s := by
  unfold Keeps at hx ⊢
  cases hr : x s with
  | ok a s' =>
    rw [hr] at hx
    simp only [tryCatch, tryCatchThe, MonadExceptOf.tryCatch, EStateM.tryCatch, hr]
    exact hx
  | error e s' =>
    rw [hr] at hx
    simp only [tryCatch, tryCatchThe, MonadExceptOf.tryCatch, EStateM.tryCatch, hr]
    exact hh e s' hx

end

end Exec
