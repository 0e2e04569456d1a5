/-
  A property of all elements of a list is decided by going through the list, also where the type of
  the elements is finite.
-/
import Mathlib

instance (priority := 1100) decidableForallMem {α : Type} {p : α → Prop} [DecidablePred p] (l : List α) :
    Decidable (∀ a, a ∈ l → p a) := List.decidableBAll p l
