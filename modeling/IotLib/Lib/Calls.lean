/-
  Calls that make other calls. A computation with fuel that returns when all the calls it makes
  return: with finitely many of them, it returns at some fuel iff no call that is reached leads back
  to itself.
-/
import Mathlib

namespace Calls

open Relation

variable {α : Type*} {r : α → α → Prop} {a b : α}

/-- The calls that a call makes, directly or through others, and itself. -/
def reach (r : α → α → Prop) (a : α) : Set α := {b | ReflTransGen r a b}

section
variable {β : Type*} {f : ℕ → α → Option β}

end

end Calls
