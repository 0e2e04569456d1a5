/-
  Blocks of memory: reading and writing at an offset, which fails outside of the block.
-/
import Mathlib

namespace Block

variable {β : Type} {mem mem' xs ys : List β} {a n k : ℕ}

/-- The cells from an offset on. -/
def read (mem : List β) (a n : ℕ) : Option (List β) :=
  if a + n ≤ mem.length then some ((mem.drop a).take n) else none

/-- The block with new cells from an offset on. -/
def write (mem : List β) (a : ℕ) (xs : List β) : Option (List β) :=
  if a + xs.length ≤ mem.length then some (mem.take a ++ (xs ++ mem.drop (a + xs.length))) else none

/-- What is read is a part of the block. -/
theorem read_eq_some_iff :
    read mem a n = some xs ↔ ∃ P R, mem = P ++ (xs ++ R) ∧ a = P.length ∧ n = xs.length := by
  unfold read
  constructor
  · intro h
    split_ifs at h with hle
    obtain rfl := Option.some_inj.1 h
    refine ⟨mem.take a, mem.drop (a + n), ?_, ?_, ?_⟩
    · rw [← List.drop_drop, List.take_append_drop, List.take_append_drop]
    · rw [List.length_take]
      omega
    · rw [List.length_take, List.length_drop]
      omega
  · rintro ⟨P, R, rfl, rfl, rfl⟩
    rw [if_pos (by simp), List.drop_left, List.take_left]

theorem read_length (h : read mem a n = some xs) : xs.length = n := by
  obtain ⟨P, R, -, -, hn⟩ := read_eq_some_iff.1 h
  exact hn.symm

theorem read_zero (h : a ≤ mem.length) : read mem a 0 = some [] := by
  rw [read, if_pos (by omega), List.take_zero]

/-- Writing succeeds inside of the block and keeps its size. -/
theorem exists_write (h : a + xs.length ≤ mem.length) :
    ∃ mem', write mem a xs = some mem' ∧ mem'.length = mem.length := by
  refine ⟨_, if_pos h, ?_⟩
  simp only [List.length_append, List.length_take, List.length_drop]
  omega

theorem write_part {P X R : List β} (hmem : mem = P ++ (X ++ R)) (ha : a = P.length)
    (hX : X.length = xs.length) : write mem a xs = some (P ++ (xs ++ R)) := by
  subst hmem ha
  unfold write
  rw [if_pos (by simp [hX]), List.take_left, ← hX, ← List.drop_drop, List.drop_left, List.drop_left]

/-- Cells that are written behind others are read after them. -/
theorem read_write_append (h : read mem a n = some xs) (hw : write mem (a + n) ys = some mem') :
    read mem' a (n + ys.length) = some (xs ++ ys) := by
  obtain ⟨P, R, rfl, rfl, rfl⟩ := read_eq_some_iff.1 h
  have hle : ys.length ≤ R.length := by
    unfold write at hw
    split_ifs at hw with hle
    simp only [List.length_append] at hle
    omega
  have hmem : P ++ (xs ++ R) = (P ++ xs) ++ (R.take ys.length ++ R.drop ys.length) := by simp
  rw [write_part hmem (by simp) (by simp [hle])] at hw
  obtain rfl := Option.some_inj.1 hw
  exact read_eq_some_iff.2 ⟨P, R.drop ys.length, by simp, rfl, by simp⟩

/-- The first cells of what was read. -/
theorem read_take (h : read mem a n = some xs) (hk : k ≤ n) : read mem a k = some (xs.take k) := by
  obtain ⟨P, R, rfl, rfl, rfl⟩ := read_eq_some_iff.1 h
  refine read_eq_some_iff.2 ⟨P, xs.drop k ++ R, ?_, rfl, ?_⟩
  · rw [← List.append_assoc (xs.take k), List.take_append_drop]
  · rw [List.length_take]
    omega

/-- Cells that were written are read. -/
theorem read_write_self (hw : write mem a xs = some mem') : read mem' a xs.length = some xs := by
  have hle : a ≤ mem.length := by
    unfold write at hw
    split_ifs at hw with hle
    omega
  have h := @read_write_append β mem mem' [] xs a 0 (read_zero hle) hw
  rwa [Nat.zero_add, List.nil_append] at h

/-- Writing behind what was read does not change it. -/
theorem read_write_before (h : read mem a n = some xs) (hk : a + n ≤ k)
    (hw : write mem k ys = some mem') : read mem' a n = some xs := by
  obtain ⟨P, R, rfl, rfl, rfl⟩ := read_eq_some_iff.1 h
  unfold write at hw
  split_ifs at hw with hle
  obtain rfl := Option.some_inj.1 hw
  refine read_eq_some_iff.2 ⟨P, R.take (k - (P.length + xs.length)) ++
    (ys ++ (P ++ (xs ++ R)).drop (k + ys.length)), ?_, rfl, rfl⟩
  have htake : (P ++ (xs ++ R)).take k = P ++ (xs ++ R.take (k - (P.length + xs.length))) := by
    rw [List.take_append, List.take_of_length_le (by omega), List.take_append,
      List.take_of_length_le (by omega), Nat.sub_sub]
  rw [htake]
  simp

end Block
