/-
  Resources that are received, used and released, with their owners: a resource
  has one owner from when it is received until it is released.
-/
import Mathlib

namespace Ledger

/-- What happens to a resource. -/
inductive Event where
  | recv (r : Nat)
  | use (r : Nat)
  | release (r : Nat)
deriving DecidableEq, Repr

/-- No resource is used after its release. -/
def Sound (log : List Event) : Prop :=
  ∀ before after r, log = before ++ .use r :: after → .release r ∉ before

/-- The owners account for the log; the resources below `next` were received. -/
structure Balanced {ω : Type} (own : ω → Option Nat) (next : Nat) (log : List Event) : Prop where
  received : ∀ r, .recv r ∈ log ↔ r < next
  unique : ∀ o o' r, own o = some r → own o' = some r → o = o'
  held : ∀ o r, own o = some r → r < next ∧ log.count (.release r) = 0
  released : ∀ r < next, (∃ o, own o = some r) ∨ log.count (.release r) = 1
  later : ∀ r, next ≤ r → .release r ∉ log
  sound : Sound log

theorem Sound.append {log : List Event} (h : Sound log) {e : Event}
    (he : ∀ r, e = .use r → .release r ∉ log) : Sound (log ++ [e]) := by
  intro before after r heq
  rcases List.eq_nil_or_concat after with rfl | ⟨after', x, rfl⟩
  · obtain ⟨rfl, hx⟩ := List.append_inj' heq rfl
    exact he r (List.cons.inj hx).1
  · have hcat : log ++ [e] = (before ++ .use r :: after') ++ [x] := by
      rw [heq, List.concat_eq_append, List.append_assoc, List.cons_append]
    exact h before after' r (List.append_inj' hcat rfl).1

section
variable {ω : Type} {own : ω → Option Nat} {next : Nat} {log : List Event} {o : ω}
  {r : Nat}

theorem Balanced.init : Balanced (fun _ : ω => none) 0 [] := by
  refine ⟨?_, ?_, ?_, ?_, ?_, ?_⟩
  · simp
  · rintro _ _ _ ⟨⟩
  · rintro _ _ ⟨⟩
  · exact fun r hr => absurd hr (Nat.not_lt_zero r)
  · exact fun _ _ => List.not_mem_nil
  · intro before after r h
    exact absurd h.symm (by simp)

theorem Balanced.use (h : Balanced own next log) (ho : own o = some r) :
    Balanced own next (log ++ [.use r]) := by
  have hcount : ∀ r', (log ++ [Event.use r]).count (.release r') = log.count (.release r') := by
    intro r'
    simp [List.count_append]
  refine ⟨?_, h.unique, ?_, ?_, ?_, h.sound.append ?_⟩
  · intro r'
    simpa using h.received r'
  · intro o' r' ho'
    rw [hcount]
    exact h.held o' r' ho'
  · intro r' hr'
    rw [hcount]
    exact h.released r' hr'
  · intro r' hr' hmem
    rcases List.mem_append.1 hmem with hmem | hmem
    · exact h.later r' hr' hmem
    · simp at hmem
  · rintro r' ⟨⟩
    exact List.count_eq_zero.1 (h.held o r ho).2

variable [DecidableEq ω]

theorem Balanced.recv (h : Balanced own next log) (ho : own o = none) :
    Balanced (Function.update own o (some next)) (next + 1) (log ++ [.recv next]) := by
  have hcount : ∀ r, (log ++ [Event.recv next]).count (.release r) = log.count (.release r) := by
    intro r
    simp [List.count_append]
  have hold : ∀ o' r, o' ≠ o → Function.update own o (some next) o' = some r → own o' = some r := by
    intro o' r hne hr
    rwa [Function.update_of_ne hne] at hr
  refine ⟨?_, ?_, ?_, ?_, ?_, h.sound.append (by rintro r ⟨⟩)⟩
  · intro r
    simp only [List.mem_append, h.received, List.mem_singleton, Event.recv.injEq]
    omega
  · intro o₁ o₂ r h₁ h₂
    by_cases e₁ : o₁ = o
    · by_cases e₂ : o₂ = o
      · rw [e₁, e₂]
      · rw [e₁, Function.update_self] at h₁
        exact absurd (h.held _ _ (hold _ _ e₂ h₂)).1 (Option.some.inj h₁ ▸ Nat.lt_irrefl _)
    · by_cases e₂ : o₂ = o
      · rw [e₂, Function.update_self] at h₂
        exact absurd (h.held _ _ (hold _ _ e₁ h₁)).1 (Option.some.inj h₂ ▸ Nat.lt_irrefl _)
      · exact h.unique _ _ _ (hold _ _ e₁ h₁) (hold _ _ e₂ h₂)
  · intro o' r hr
    rw [hcount]
    by_cases e : o' = o
    · rw [e, Function.update_self] at hr
      obtain rfl := Option.some.inj hr
      exact ⟨Nat.lt_succ_self _, List.count_eq_zero.2 (h.later _ le_rfl)⟩
    · obtain ⟨h1, h2⟩ := h.held _ _ (hold _ _ e hr)
      exact ⟨h1.trans (Nat.lt_succ_self _), h2⟩
  · intro r hr
    rw [hcount]
    rcases Nat.lt_succ_iff_lt_or_eq.1 hr with hr | rfl
    · refine (h.released r hr).imp_left ?_
      rintro ⟨o', ho'⟩
      refine ⟨o', ?_⟩
      rw [Function.update_of_ne, ho']
      rintro rfl
      rw [ho] at ho'
      cases ho'
    · exact Or.inl ⟨o, Function.update_self _ _ _⟩
  · intro r hr hmem
    rcases List.mem_append.1 hmem with hmem | hmem
    · exact h.later r (Nat.le_of_succ_le hr) hmem
    · simp at hmem

theorem Balanced.release (h : Balanced own next log) (ho : own o = some r) :
    Balanced (Function.update own o none) next (log ++ [.release r]) := by
  have hne : ∀ o' r', Function.update own o none o' = some r' → own o' = some r' ∧ r' ≠ r := by
    intro o' r' hr'
    by_cases e : o' = o
    · rw [e, Function.update_self] at hr'
      cases hr'
    · rw [Function.update_of_ne e] at hr'
      refine ⟨hr', ?_⟩
      rintro rfl
      exact e (h.unique _ _ _ hr' ho)
  have hcount : ∀ r', r' ≠ r →
      (log ++ [Event.release r]).count (.release r') = log.count (.release r') := by
    intro r' hr'
    simp [List.count_append, hr'.symm]
  refine ⟨?_, ?_, ?_, ?_, ?_, h.sound.append (by rintro r ⟨⟩)⟩
  · intro r'
    simpa using h.received r'
  · intro o₁ o₂ r' h₁ h₂
    exact h.unique _ _ _ (hne _ _ h₁).1 (hne _ _ h₂).1
  · intro o' r' hr'
    obtain ⟨h1, h2⟩ := hne o' r' hr'
    rw [hcount r' h2]
    exact h.held o' r' h1
  · intro r' hr'
    by_cases e : r' = r
    · rw [e, List.count_append, (h.held o r ho).2]
      exact Or.inr (by simp)
    · rw [hcount r' e]
      refine (h.released r' hr').imp_left ?_
      rintro ⟨o', ho'⟩
      refine ⟨o', ?_⟩
      rw [Function.update_of_ne, ho']
      rintro rfl
      exact e (Option.some.inj (ho'.symm.trans ho))
  · intro r' hr' hmem
    rcases List.mem_append.1 hmem with hmem | hmem
    · exact h.later r' hr' hmem
    · simp only [List.mem_singleton, Event.release.injEq] at hmem
      rw [hmem] at hr'
      exact absurd (h.held o r ho).1 (Nat.not_lt.2 hr')

/-- The resource of `o` goes to `o'`. -/
theorem Balanced.move (h : Balanced own next log) {o' : ω} (ho' : own o' = none) (hne : o' ≠ o) :
    Balanced (Function.update (Function.update own o none) o' (own o)) next log := by
  set own' := Function.update (Function.update own o none) o' (own o) with hown
  have hback : ∀ x r, own' x = some r → own (if x = o' then o else x) = some r := by
    intro x r hx
    by_cases e : x = o'
    · rw [if_pos e]
      rwa [hown, e, Function.update_self] at hx
    · rw [if_neg e]
      rw [hown, Function.update_of_ne e] at hx
      by_cases e' : x = o
      · rw [e', Function.update_self] at hx
        cases hx
      · rwa [Function.update_of_ne e'] at hx
  have hforth : ∀ x r, own x = some r → own' (if x = o then o' else x) = some r := by
    intro x r hx
    by_cases e : x = o
    · rw [if_pos e, hown, Function.update_self, ← e]
      exact hx
    · have e' : x ≠ o' := by
        rintro rfl
        rw [ho'] at hx
        cases hx
      rw [if_neg e, hown, Function.update_of_ne e', Function.update_of_ne e]
      exact hx
  have hsrc : ∀ r, own' o ≠ some r := by
    intro r
    rw [hown, Function.update_of_ne hne.symm, Function.update_self]
    exact fun h => by cases h
  refine ⟨h.received, ?_, fun x r hx => h.held _ _ (hback x r hx), ?_, h.later, h.sound⟩
  · intro x y r hx hy
    have hxy := h.unique _ _ _ (hback x r hx) (hback y r hy)
    have hx' : x ≠ o := fun e => hsrc r (e ▸ hx)
    have hy' : y ≠ o := fun e => hsrc r (e ▸ hy)
    split_ifs at hxy with e₁ e₂ e₂
    · rw [e₁, e₂]
    · exact absurd hxy.symm hy'
    · exact absurd hxy hx'
    · exact hxy
  · intro r hr
    refine (h.released r hr).imp_left ?_
    rintro ⟨x, hx⟩
    exact ⟨_, hforth x r hx⟩

end

end Ledger
