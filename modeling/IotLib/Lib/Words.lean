/-
  The words of a text: what is left of it when the separators do not count.
-/
import Mathlib

namespace Words

variable {α : Type*} {p : α → Bool} {a b : List α} {c : α}

/-- The words of a text, where `p` tells the separators. -/
def words (p : α → Bool) (l : List α) : List (List α) := (l.splitOnP p).filter fun w => !w.isEmpty

/-- The words are those on the two sides of a separator. -/
theorem words_append_cons (hc : p c = true) : words p (a ++ c :: b) = words p a ++ words p b := by
  unfold words
  rw [List.splitOnP_append_cons a b hc, List.filter_append]

@[simp] theorem words_nil : words p [] = [] := rfl

theorem words_cons (hc : p c = true) : words p (c :: b) = words p b :=
  (words_append_cons (a := []) hc).trans (List.nil_append _)

theorem words_append_left (ha : ∀ x ∈ a, p x = true) : words p (a ++ b) = words p b := by
  induction a with
  | nil => rfl
  | cons x a ih =>
    rw [List.cons_append, words_cons (ha x List.mem_cons_self)]
    exact ih fun y hy => ha y (List.mem_cons_of_mem x hy)

theorem words_append_right (hb : ∀ x ∈ b, p x = true) : words p (a ++ b) = words p a := by
  cases b with
  | nil => rw [List.append_nil]
  | cons x b =>
    have hnil : words p b = [] := by
      have h := words_append_left (b := []) fun y hy => hb y (List.mem_cons_of_mem x hy)
      rwa [List.append_nil] at h
    rw [words_append_cons (hb x List.mem_cons_self), hnil, List.append_nil]

/-- What is behind a separator adds its words. -/
theorem words_append (ha : a = [] ∨ ∃ l c, a = l ++ [c] ∧ p c = true) :
    words p (a ++ b) = words p a ++ words p b := by
  rcases ha with rfl | ⟨l, c, rfl, hc⟩
  · rfl
  · rw [List.append_assoc, List.singleton_append, words_append_cons hc,
      words_append_cons (b := []) hc, words_nil, List.append_nil]

theorem words_eq_nil_iff : words p a = [] ↔ ∀ x ∈ a, p x = true := by
  constructor
  · intro h x hx
    by_contra hp
    -- the word of `x` is not empty
    have hsplit : ∀ l : List α, x ∈ l → ∃ w ∈ l.splitOnP p, x ∈ w := by
      intro l
      induction l with
      | nil => exact nofun
      | cons y l ih =>
        intro hmem
        rw [List.splitOnP_cons_eq_if_modifyHead]
        obtain ⟨r, rs, hr⟩ := List.exists_cons_of_ne_nil (List.splitOnP_ne_nil p l)
        rcases List.mem_cons.1 hmem with rfl | hmem
        · rw [if_neg hp, hr, List.modifyHead_cons]
          exact ⟨x :: r, List.mem_cons_self, List.mem_cons_self⟩
        · obtain ⟨w, hw, hxw⟩ := ih hmem
          split_ifs
          · exact ⟨w, List.mem_cons_of_mem _ hw, hxw⟩
          · rw [hr] at hw ⊢
            rw [List.modifyHead_cons]
            rcases List.mem_cons.1 hw with rfl | hw
            · exact ⟨y :: w, List.mem_cons_self, List.mem_cons_of_mem _ hxw⟩
            · exact ⟨w, List.mem_cons_of_mem _ hw, hxw⟩
    obtain ⟨w, hw, hxw⟩ := hsplit a hx
    have hmem : w ∈ words p a := by
      refine List.mem_filter.2 ⟨hw, ?_⟩
      cases w with
      | nil => cases hxw
      | cons y w => rfl
    rw [h] at hmem
    cases hmem
  · intro h
    have hall := words_append_left (b := []) h
    rwa [List.append_nil] at hall

/-- The words, each with a separator, are no longer than the text with one. -/
theorem words_length_le (l : List α) : ((words p l).map fun w => w.length + 1).sum ≤ l.length + 1 := by
  have hsplit : ((l.splitOnP p).map fun w => w.length + 1).sum = l.length + 1 := by
    induction l with
    | nil => rfl
    | cons x l ih =>
      rw [List.splitOnP_cons_eq_if_modifyHead]
      obtain ⟨r, rs, hr⟩ := List.exists_cons_of_ne_nil (List.splitOnP_ne_nil p l)
      split_ifs
      · rw [List.map_cons, List.sum_cons, ih, List.length_nil, List.length_cons]
        omega
      · rw [hr] at ih ⊢
        rw [List.modifyHead_cons]
        simp only [List.map_cons, List.sum_cons, List.length_cons] at ih ⊢
        omega
  rw [← hsplit]
  exact List.Sublist.sum_le_sum ((List.filter_sublist).map _) fun _ _ => Nat.zero_le _

/-! ## Trailing separators -/

theorem rdropWhile_append_right (hb : ∀ x ∈ b, p x = true) :
    (a ++ b).rdropWhile p = a.rdropWhile p := by
  unfold List.rdropWhile
  rw [List.reverse_append, List.dropWhile_append_of_pos fun x hx => hb x (List.mem_reverse.1 hx)]

theorem rdropWhile_append_left (hb : ¬ ∀ x ∈ b, p x = true) :
    (a ++ b).rdropWhile p = a ++ b.rdropWhile p := by
  have hne : ¬ (b.reverse.dropWhile p).isEmpty = true := by
    rw [List.isEmpty_iff, List.dropWhile_eq_nil_iff]
    exact fun h => hb fun x hx => h x (List.mem_reverse.2 hx)
  unfold List.rdropWhile
  rw [List.reverse_append, List.dropWhile_append, if_neg hne, List.reverse_append, List.reverse_reverse]

theorem rdropWhile_ne_nil (hb : ¬ ∀ x ∈ b, p x = true) : b.rdropWhile p ≠ [] := by
  rwa [ne_eq, List.rdropWhile_eq_nil_iff]

end Words
