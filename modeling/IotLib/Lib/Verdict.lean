/-
  Three-valued conditions that are evaluated in a state: an evaluation may fail, and a chain of
  conditions stops at the first one that decides it.
-/
import Mathlib

namespace Cond

/-- What a condition says. -/
inductive Verdict where
  | error | no | yes
  deriving DecidableEq, Repr

namespace Verdict

/-- The verdict of a C function: negative for an error, and else a truth value. -/
def ofInt (ret : ℤ) : Verdict := if ret < 0 then error else if ret = 0 then no else yes

def toInt : Verdict → ℤ
  | error => -1
  | no => 0
  | yes => 1

def ofBool (b : Bool) : Verdict := if b then yes else no

def not : Verdict → Verdict
  | error => error
  | no => yes
  | yes => no

@[simp] theorem ofInt_toInt (v : Verdict) : ofInt v.toInt = v := by
  cases v <;> rfl

@[simp] theorem toInt_inj {v w : Verdict} : v.toInt = w.toInt ↔ v = w :=
  ⟨fun h => by rw [← ofInt_toInt v, h, ofInt_toInt], fun h => h ▸ rfl⟩

@[simp] theorem toInt_lt_zero {v : Verdict} : v.toInt < 0 ↔ v = error := by
  cases v <;> decide

end Verdict

/-- A condition, with what its evaluation does to the state. -/
abbrev Eval (ρ : Type*) := ρ → Verdict × ρ

namespace Eval

variable {ρ : Type*}

/-- The negation of a condition; an error stays one. -/
def not (e : Eval ρ) : Eval ρ := fun s => ((e s).1.not, (e s).2)

/-- The conditions from left to right, as long as they say `v`. -/
def chain (v : Verdict) : List (Eval ρ) → Eval ρ
  | [], s => (v, s)
  | e :: es, s => if (e s).1 = v then chain v es (e s).2 else e s

/-- All conditions: the first that does not hold decides. -/
def all (es : List (Eval ρ)) : Eval ρ := chain .yes es

/-- Some condition: the first that holds decides. -/
def any (es : List (Eval ρ)) : Eval ρ := chain .no es

variable {v : Verdict} {e : Eval ρ} {es : List (Eval ρ)} {s : ρ}

theorem chain_cons_of_eq (h : (e s).1 = v) : chain v (e :: es) s = chain v es (e s).2 := if_pos h

theorem chain_cons_of_ne (h : (e s).1 ≠ v) : chain v (e :: es) s = e s := if_neg h

end Eval

end Cond
