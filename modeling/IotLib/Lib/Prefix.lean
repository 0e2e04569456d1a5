/-
  Common prefixes of strings over an ordered alphabet, and the scan of sorted keys that stops as
  soon as the common prefix with the wanted string gets shorter.
-/
import Mathlib

namespace Prefix

variable {α ι : Type}

/-! ## The common prefix -/

/-- The number of leading elements in which two lists agree. -/
def matchLen [DecidableEq α] : List α → List α → Nat
  | a :: s, b :: t => if a = b then matchLen s t + 1 else 0
  | _, _ => 0

section
variable [DecidableEq α]

/-- The common prefix is the whole second list exactly if this is a prefix. -/
theorem matchLen_eq_length_iff : ∀ s t : List α, matchLen s t = t.length ↔ t <+: s
  | s, [] => by cases s <;> simp [matchLen]
  | [], b :: t => by simp [matchLen]
  | a :: s, b :: t => by
    rw [matchLen, List.cons_prefix_cons]
    split_ifs with h
    · rw [List.length_cons, Nat.add_right_cancel_iff, matchLen_eq_length_iff s t]
      simp [h]
    · simp [Ne.symm h]

/-- The elements that a scan for `s` visits when the last common prefix had
    length `m`: it stops at the first key with a shorter one. -/
def scan (key : ι → List α) (s : List α) : Nat → List ι → List ι
  | _, [] => []
  | m, x :: xs =>
    if matchLen s (key x) < m then [] else x :: scan key s (matchLen s (key x)) xs

theorem scan_subset (key : ι → List α) (s : List α) :
    ∀ (m : Nat) (xs : List ι), scan key s m xs ⊆ xs
  | _, [] => by simp [scan]
  | m, x :: xs => by
    rw [scan]
    split_ifs
    · simp
    · exact List.cons_subset_cons x (scan_subset key s _ xs)

end

section
variable [DecidableEq α] [LT α] [LE α] [Std.IsLinearOrder α] [Std.LawfulOrderLT α]

/-- Below `s`, a larger string agrees with `s` at least as far. -/
theorem matchLen_mono : ∀ {s t u : List α}, t ≤ u → u ≤ s → matchLen s t ≤ matchLen s u
  | [], t, u, _, _ => by simp [matchLen]
  | _ :: _, [], u, _, _ => by simp [matchLen]
  | a :: s, b :: t, [], htu, _ => absurd htu (by simp)
  | a :: s, b :: t, c :: u, htu, hus => by
    rw [List.cons_le_cons_iff] at htu hus
    simp only [matchLen]
    split_ifs with hb hc
    · subst hb; subst hc
      have h1 : t ≤ u := (htu.resolve_left Std.lt_irrefl).2
      have h2 : u ≤ s := (hus.resolve_left Std.lt_irrefl).2
      exact Nat.succ_le_succ (matchLen_mono h1 h2)
    · -- `c` lies between `b = a` and `a`
      subst hb
      have h1 : a ≤ c := htu.elim Std.le_of_lt fun h => Std.le_of_eq h.1
      have h2 : c ≤ a := hus.elim Std.le_of_lt fun h => Std.le_of_eq h.1
      exact absurd (Std.le_antisymm h1 h2) hc
    · exact Nat.zero_le _
    · exact Nat.zero_le _

/-! ## Sorted keys -/

/-- **The scan of sorted keys is exact**: every element whose key is at most
    the wanted string is visited. -/
theorem mem_scan {key : ι → List α} {s : List α} {x : ι} :
    ∀ {m : Nat} {xs : List ι}, xs.Pairwise (fun a b => key a ≤ key b) →
      (∀ y ∈ xs, key y ≤ s → m ≤ matchLen s (key y)) → x ∈ xs → key x ≤ s →
      x ∈ scan key s m xs
  | _, [], _, _, hx, _ => absurd hx (by simp)
  | m, y :: ys, hsorted, hm, hx, hle => by
    have hyx : key y ≤ key x := by
      rcases List.mem_cons.1 hx with rfl | hx
      · exact List.le_refl _
      · exact List.rel_of_pairwise_cons hsorted hx
    have hmy : ¬ matchLen s (key y) < m := not_lt.2 (hm y (by simp) (List.le_trans hyx hle))
    rw [scan, if_neg hmy, List.mem_cons]
    rcases List.mem_cons.1 hx with rfl | hx
    · exact Or.inl rfl
    · refine Or.inr (mem_scan hsorted.of_cons (fun z hz hzs => ?_) hx hle)
      exact matchLen_mono (List.rel_of_pairwise_cons hsorted hz) hzs

end

section
variable [DecidableEq α] [LT α] [DecidableLT α]

/-- The insertion of an element behind all elements with the same key. -/
def insertKey (key : ι → List α) (x : ι) : List ι → List ι
  | [] => [x]
  | y :: ys => if key x < key y then x :: y :: ys else y :: insertKey key x ys

theorem mem_insertKey (key : ι → List α) (x z : ι) :
    ∀ xs : List ι, z ∈ insertKey key x xs ↔ z = x ∨ z ∈ xs
  | [] => by simp [insertKey]
  | y :: ys => by
    rw [insertKey]
    split_ifs
    · simp
    · rw [List.mem_cons, mem_insertKey key x z ys, List.mem_cons]
      tauto

theorem insertKey_perm (key : ι → List α) (x : ι) :
    ∀ xs : List ι, (insertKey key x xs).Perm (x :: xs)
  | [] => by simp [insertKey]
  | y :: ys => by
    rw [insertKey]
    split_ifs
    · exact List.Perm.refl _
    · exact ((insertKey_perm key x ys).cons y).trans (List.Perm.swap x y ys)

end

section
variable [DecidableEq α] [LT α] [DecidableLT α] [LE α] [Std.IsLinearOrder α] [Std.LawfulOrderLT α]

theorem insertKey_sorted {key : ι → List α} (x : ι) :
    ∀ {xs : List ι}, xs.Pairwise (fun a b => key a ≤ key b) →
      (insertKey key x xs).Pairwise (fun a b => key a ≤ key b)
  | [], _ => by simp [insertKey]
  | y :: ys, h => by
    rw [insertKey]
    split_ifs with hlt
    · have hle : key x ≤ key y := List.le_of_lt hlt
      refine List.pairwise_cons.2 ⟨fun z hz => ?_, h⟩
      rcases List.mem_cons.1 hz with rfl | hz
      · exact hle
      · exact List.le_trans hle (List.rel_of_pairwise_cons h hz)
    · refine List.pairwise_cons.2 ⟨fun z hz => ?_, insertKey_sorted x h.of_cons⟩
      rcases (mem_insertKey key x z ys).1 hz with rfl | hz
      · exact List.not_lt.1 hlt
      · exact List.rel_of_pairwise_cons h hz

/-- A key that is not there yet keeps the keys distinct. -/
theorem insertKey_strict {key : ι → List α} {x : ι} :
    ∀ {xs : List ι}, xs.Pairwise (fun a b => key a < key b) → (∀ y ∈ xs, key y ≠ key x) →
      (insertKey key x xs).Pairwise (fun a b => key a < key b)
  | [], _, _ => by simp [insertKey]
  | y :: ys, h, hne => by
    rw [insertKey]
    split_ifs with hlt
    · refine List.pairwise_cons.2 ⟨fun z hz => ?_, h⟩
      rcases List.mem_cons.1 hz with rfl | hz
      · exact hlt
      · exact List.lt_trans hlt (List.rel_of_pairwise_cons h hz)
    · refine List.pairwise_cons.2
        ⟨fun z hz => ?_, insertKey_strict h.of_cons fun w hw => hne w (by simp [hw])⟩
      rcases (mem_insertKey key x z ys).1 hz with rfl | hz
      · exact (List.le_iff_lt_or_eq.1 (List.not_lt.1 hlt)).resolve_right (hne y (by simp))
      · exact List.rel_of_pairwise_cons h hz

end

/-! ## Prefixes in sorted lists -/

/-- A property that holds up to some place of a list selects what stands before it. -/
theorem takeWhile_eq_filter {P : ι → Bool} :
    ∀ {xs : List ι}, xs.Pairwise (fun x y => P y = true → P x = true) →
      xs.takeWhile P = xs.filter P
  | [], _ => rfl
  | x :: xs, h => by
    obtain ⟨hx, hxs⟩ := List.pairwise_cons.1 h
    by_cases hP : P x = true
    · rw [List.takeWhile_cons_of_pos hP, List.filter_cons_of_pos hP, takeWhile_eq_filter hxs]
    · rw [List.takeWhile_cons_of_neg hP, List.filter_cons_of_neg hP, eq_comm, List.filter_eq_nil_iff]
      exact fun y hy hPy => hP (hx y hy hPy)

section
variable [LT α] [DecidableLT α] [LE α] [Std.IsLinearOrder α] [Std.LawfulOrderLT α]

omit [DecidableLT α] in
/-- The strings with a prefix stand next to each other, the prefix first. -/
theorem prefix_of_between : ∀ {p s t : List α}, p ≤ s → s ≤ t → p <+: t → p <+: s
  | [], _, _, _, _, _ => List.nil_prefix
  | a :: p, [], _, hps, _, _ => absurd hps (by simp)
  | a :: p, b :: s, [], _, hst, _ => absurd hst (by simp)
  | a :: p, b :: s, c :: t, hps, hst, hpt => by
    obtain ⟨rfl, hp⟩ := List.cons_prefix_cons.1 hpt
    rw [List.cons_le_cons_iff] at hps hst
    have hab : a ≤ b := hps.elim Std.le_of_lt fun h => Std.le_of_eq h.1
    have hba : b ≤ a := hst.elim Std.le_of_lt fun h => Std.le_of_eq h.1
    obtain rfl := Std.le_antisymm hab hba
    have hps := (hps.resolve_left Std.lt_irrefl).2
    have hst := (hst.resolve_left Std.lt_irrefl).2
    exact List.cons_prefix_cons.2 ⟨rfl, prefix_of_between hps hst hp⟩

/-- **The elements with a prefix** are found from the first key that is not less, as long as the
    prefix matches. -/
theorem takeWhile_dropWhile_prefix [DecidableEq α] {key : ι → List α} {xs : List ι}
    (h : xs.Pairwise fun x y => key x < key y) (p : List α) :
    ((xs.dropWhile fun x => decide (key x < p)).takeWhile fun x => decide (p <+: key x)) =
      xs.filter fun x => decide (p <+: key x) := by
  have hsplit := List.takeWhile_append_dropWhile (p := fun x => decide (key x < p)) (l := xs)
  have hge : ∀ x ∈ xs.dropWhile fun x => decide (key x < p), p ≤ key x := by
    intro x hx
    cases hd : xs.dropWhile fun x => decide (key x < p) with
    | nil =>
      rw [hd] at hx
      cases hx
    | cons y ys =>
      have hy : ¬ key y < p := by
        have := List.head?_dropWhile_not (fun x => decide (key x < p)) xs
        rw [hd] at this
        simpa using this
      have hsub := h.sublist (List.dropWhile_sublist fun x => decide (key x < p))
      rw [hd] at hx hsub
      rcases List.mem_cons.1 hx with rfl | hx
      · exact List.not_lt.1 hy
      · exact List.le_trans (List.not_lt.1 hy) (List.le_of_lt (List.rel_of_pairwise_cons hsub hx))
  have hrest : (xs.takeWhile fun x => decide (key x < p)).filter (fun x => decide (p <+: key x)) = [] := by
    rw [List.filter_eq_nil_iff]
    intro x hx hp
    have hlt : key x < p := by simpa using List.mem_takeWhile_imp hx
    exact List.not_lt.2 (of_decide_eq_true hp).le hlt
  nth_rewrite 2 [← hsplit]
  rw [List.filter_append, hrest, List.nil_append]
  refine takeWhile_eq_filter ?_
  have hsub := h.sublist (List.dropWhile_sublist fun x => decide (key x < p))
  refine List.Pairwise.imp_of_mem (fun {x y} hx _ hlt hp => ?_) hsub
  rw [decide_eq_true_eq] at hp ⊢
  exact prefix_of_between (hge x hx) (List.le_of_lt hlt) hp

end

end Prefix
