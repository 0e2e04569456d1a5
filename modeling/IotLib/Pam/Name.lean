/-
  The names in the rules of pam_time (`pam_time.c`): `is_same`, with one wildcard.
-/
import Mathlib

namespace Pam.Time

/-! ## The function -/

/-- The loop of `is_same` over the token `b` and the string `a`, which is the end of `A`. There is
    no result where it reads in front of `A`. -/
def isSameFrom (A : List UInt8) : List UInt8 → List UInt8 → Option Bool
  | [], a => some (a == [])
  | c :: b, a =>
    if c ≠ a.headD 0 then
      if c = 0x2A then
        if b = [] then some true
        else if A.length < b.length then none
        else some (b == A.drop (A.length - b.length))
      else some false
    else isSameFrom A b a.tail

/-- `is_same` -/
def isSame (a b : List UInt8) : Option Bool := isSameFrom a b a

/-! ## What is meant -/

/-- The string `a` matches the token `b`: it is the same, or what is around the star and something
    between. -/
def Matches (a b : List UInt8) : Prop :=
  (0x2A ∉ b ∧ a = b) ∨ ∃ pre suf mid, b = pre ++ 0x2A :: suf ∧ a = pre ++ mid ++ suf

/-- What keeps `is_same` right where the string goes on with `a'` behind the text in front of the star:
    it does not take a star for the wildcard and stop at a longer text, and it does not compare the text
    behind the star with what is in front of the string, or was matched before. -/
def Apart (a a' suf : List UInt8) : Prop :=
  if a'.head? = some 0x2A then suf <:+ a'.tail → suf = a'.tail
  else suf.length ≤ a.length ∧ (suf <:+ a → suf.length ≤ a'.length)

section
variable {A a b pre suf : List UInt8} {c : UInt8}

section
-- the equations of these definitions, which the lemmas below rewrite with
attribute [local simp] isSameFrom
end

theorem isSameFrom_append : isSameFrom A (pre ++ b) (pre ++ a) = isSameFrom A b a := by
  induction pre with
  | nil => rfl
  | cons c pre ih =>
    rw [List.cons_append, List.cons_append, isSameFrom, if_neg (by simp), List.tail_cons, ih]

/-- Without a star the strings have to be the same. -/
theorem isSameFrom_plain (h0 : 0 ∉ b) (hstar : 0x2A ∉ b) : isSameFrom A b a = some (a == b) := by
  induction b generalizing a with
  | nil => rfl
  | cons c b ih =>
    obtain ⟨hc, h0⟩ := not_or.1 (List.mem_cons.not.1 h0)
    obtain ⟨hc', hstar⟩ := not_or.1 (List.mem_cons.not.1 hstar)
    rw [isSameFrom]
    cases a with
    | nil =>
      rw [List.headD_nil, if_pos (Ne.symm hc), if_neg (Ne.symm hc')]
      rfl
    | cons d a =>
      rw [List.headD_cons, List.tail_cons]
      by_cases hd : c = d
      · rw [if_neg (not_not_intro hd), ih h0 hstar, hd, List.cons_beq_cons, beq_self_eq_true,
          Bool.true_and]
      · rw [if_pos hd, if_neg (Ne.symm hc'), List.cons_beq_cons, beq_eq_false_iff_ne.2 (Ne.symm hd),
          Bool.false_and]

/-- A string that begins otherwise is no match. -/
theorem isSameFrom_other (h0 : 0 ∉ pre) (hstar : 0x2A ∉ pre) (h : ¬ pre <+: a) :
    isSameFrom A (pre ++ b) a = some false := by
  induction pre generalizing a with
  | nil => exact absurd List.nil_prefix h
  | cons c pre ih =>
    obtain ⟨hc, h0⟩ := not_or.1 (List.mem_cons.not.1 h0)
    obtain ⟨hc', hstar⟩ := not_or.1 (List.mem_cons.not.1 hstar)
    rw [List.cons_append, isSameFrom]
    cases a with
    | nil => rw [List.headD_nil, if_pos (Ne.symm hc), if_neg (Ne.symm hc')]
    | cons d a =>
      rw [List.headD_cons, List.tail_cons]
      by_cases hd : c = d
      · subst hd
        rw [if_neg (not_not_intro rfl)]
        exact ih h0 hstar fun hpre => h (List.cons_prefix_cons.2 ⟨rfl, hpre⟩)
      · rw [if_pos hd, if_neg (Ne.symm hc')]

/-- The first star of a token with one star. -/
theorem split_unique {pre' suf' : List UInt8} (hpre : 0x2A ∉ pre) (hsuf : 0x2A ∉ suf)
    (h : pre ++ 0x2A :: suf = pre' ++ 0x2A :: suf') : pre = pre' ∧ suf = suf' := by
  rcases List.append_eq_append_iff.1 h with ⟨t, rfl, ht⟩ | ⟨t, rfl, ht⟩
  · cases t with
    | nil => exact ⟨(List.append_nil _).symm, (List.cons.inj ht).2⟩
    | cons c t =>
      obtain ⟨rfl, rfl⟩ := List.cons.inj ht
      exact absurd (List.mem_append_right t List.mem_cons_self) hsuf
  · cases t with
    | nil => exact ⟨List.append_nil _, (List.cons.inj ht).2.symm⟩
    | cons c t =>
      obtain ⟨rfl, rfl⟩ := List.cons.inj ht
      exact absurd (List.mem_append_right pre' List.mem_cons_self) hpre

theorem matches_star (hpre : 0x2A ∉ pre) (hsuf : 0x2A ∉ suf) :
    Matches a (pre ++ 0x2A :: suf) ↔ ∃ mid, a = pre ++ (mid ++ suf) := by
  constructor
  · rintro (⟨h, -⟩ | ⟨pre', suf', mid, h, rfl⟩)
    · exact absurd (List.mem_append_right pre List.mem_cons_self) h
    · obtain ⟨rfl, rfl⟩ := split_unique hpre hsuf h
      exact ⟨mid, List.append_assoc _ _ _⟩
  · rintro ⟨mid, rfl⟩
    exact Or.inr ⟨pre, suf, mid, rfl, (List.append_assoc _ _ _).symm⟩

/-- What the function finds at the star. -/
theorem isSameFrom_star (h0 : 0 ∉ suf) (hsuf : 0x2A ∉ suf) :
    isSameFrom A (0x2A :: suf) a =
      if a.head? = some 0x2A then some (a.tail == suf)
      else if A.length < suf.length then none
      else some (suf == A.drop (A.length - suf.length)) := by
  have hstar : 0x2A ≠ a.headD 0 ↔ a.head? ≠ some 0x2A := by
    cases a with
    | nil => exact iff_of_true (by decide) nofun
    | cons c a =>
      rw [List.headD_cons, List.head?_cons, ne_eq, ne_eq, Option.some.injEq, eq_comm]
  rw [isSameFrom]
  by_cases h : a.head? = some 0x2A
  · rw [if_neg (mt hstar.1 (not_not_intro h)), if_pos h, isSameFrom_plain h0 hsuf]
  rw [if_pos (hstar.2 h), if_pos rfl, if_neg h]
  by_cases hnil : suf = []
  · subst hnil
    rw [if_pos rfl, List.length_nil, if_neg (Nat.not_lt_zero _), Nat.sub_zero, List.drop_length]
    rfl
  · rw [if_neg hnil]

/-- A text without a star ends behind a leading star. -/
theorem suffix_tail (hsuf : 0x2A ∉ suf) : suf <:+ 0x2A :: a ↔ suf <:+ a := by
  rw [List.suffix_cons_iff]
  constructor
  · rintro (rfl | h)
    · exact absurd List.mem_cons_self hsuf
    · exact h
  · exact Or.inr

/-- The last part of a string that is no longer than what follows the first part. -/
theorem suffix_append (hlen : suf.length ≤ a.length) : suf <:+ pre ++ a ↔ suf <:+ a := by
  refine ⟨fun h => ?_, fun h => h.trans (List.suffix_append pre a)⟩
  exact List.suffix_of_suffix_length_le h (List.suffix_append pre a) hlen

end

/-- `is_same` tells whether the string matches the token, and reads nothing in front of it. -/
def SameOk (a b : List UInt8) : Prop := ∃ r, isSame a b = some r ∧ (r = true ↔ Matches a b)

/-- **When `is_same` is right**: for a token with a star, where the text in front of it begins the
    string, the text behind it has to stay apart from that. -/
theorem isSame_iff (a b : List UInt8) (h0 : 0 ∉ b) (hone : b.count 0x2A ≤ 1) :
    SameOk a b ↔ ∀ pre suf a', b = pre ++ 0x2A :: suf → a = pre ++ a' → Apart a a' suf := by
  by_cases hstar : 0x2A ∈ b
  swap
  · have hsame : isSame a b = some (a == b) := isSameFrom_plain h0 hstar
    refine iff_of_true ⟨_, hsame, ?_⟩ fun pre suf a' hb _ => ?_
    · rw [beq_iff_eq]
      refine ⟨fun h => Or.inl ⟨hstar, h⟩, ?_⟩
      rintro (⟨-, h⟩ | ⟨pre, suf, mid, rfl, -⟩)
      · exact h
      · exact absurd (List.mem_append_right pre List.mem_cons_self) hstar
    · rw [hb] at hstar
      exact absurd (List.mem_append_right pre List.mem_cons_self) hstar
  obtain ⟨pre, suf, rfl⟩ := List.append_of_mem hstar
  rw [List.count_append, List.count_cons_self] at hone
  have hpre : 0x2A ∉ pre := List.count_eq_zero.1 (by omega)
  have hsuf : 0x2A ∉ suf := List.count_eq_zero.1 (by omega)
  rw [List.mem_append, List.mem_cons, not_or, not_or] at h0
  by_cases hbegin : pre <+: a
  swap
  · have hsame : isSame a (pre ++ 0x2A :: suf) = some false := isSameFrom_other h0.1 hpre hbegin
    refine iff_of_true ⟨false, hsame, ?_⟩ fun pre' suf' a' hb ha => ?_
    · rw [matches_star hpre hsuf]
      refine iff_of_false Bool.false_ne_true ?_
      rintro ⟨mid, rfl⟩
      exact hbegin (List.prefix_append _ _)
    · obtain ⟨rfl, -⟩ := split_unique hpre hsuf hb
      exact absurd (ha ▸ List.prefix_append _ _) hbegin
  obtain ⟨a', rfl⟩ := hbegin
  have hsame : isSame (pre ++ a') (pre ++ 0x2A :: suf) =
      if a'.head? = some 0x2A then some (a'.tail == suf)
      else if (pre ++ a').length < suf.length then none
      else some (suf == (pre ++ a').drop ((pre ++ a').length - suf.length)) :=
    isSameFrom_append.trans (isSameFrom_star h0.2.2 hsuf)
  have hmatch : Matches (pre ++ a') (pre ++ 0x2A :: suf) ↔ suf <:+ a' := by
    rw [matches_star hpre hsuf]
    exact exists_congr fun mid => (List.append_right_inj pre).trans eq_comm
  have hcond : (∀ pre' suf' a'', pre ++ 0x2A :: suf = pre' ++ 0x2A :: suf' → pre ++ a' = pre' ++ a'' →
      Apart (pre ++ a') a'' suf') ↔ Apart (pre ++ a') a' suf := by
    refine ⟨fun h => h pre suf a' rfl rfl, fun h pre' suf' a'' hb ha => ?_⟩
    obtain ⟨rfl, rfl⟩ := split_unique hpre hsuf hb
    obtain rfl := List.append_cancel_left ha
    exact h
  unfold SameOk
  rw [hcond, hsame, hmatch]
  unfold Apart
  by_cases hhead : a'.head? = some 0x2A
  · -- the star of the string is taken for the one of the token
    rw [if_pos hhead, if_pos hhead]
    obtain ⟨t, rfl⟩ := List.head?_eq_some_iff.1 hhead
    rw [List.tail_cons, suffix_tail hsuf]
    constructor
    · rintro ⟨r, hr, hiff⟩ hsub
      obtain rfl := Option.some.inj hr
      exact (beq_iff_eq.1 (hiff.2 hsub)).symm
    · intro h
      refine ⟨_, rfl, ?_⟩
      rw [beq_iff_eq]
      exact ⟨fun heq => heq ▸ List.suffix_rfl, fun hsub => (h hsub).symm⟩
  rw [if_neg hhead, if_neg hhead]
  by_cases hlen : (pre ++ a').length < suf.length
  · rw [if_pos hlen]
    exact iff_of_false (fun ⟨_, h, _⟩ => nomatch h) fun h => absurd h.1 (Nat.not_le_of_lt hlen)
  rw [if_neg hlen]
  have hdrop := (@List.suffix_iff_eq_drop _ suf (pre ++ a')).symm
  constructor
  · rintro ⟨r, hr, hiff⟩
    obtain rfl := Option.some.inj hr
    rw [beq_iff_eq, hdrop] at hiff
    exact ⟨Nat.le_of_not_lt hlen, fun hsub => (hiff.1 hsub).length_le⟩
  · rintro ⟨-, h⟩
    refine ⟨_, rfl, ?_⟩
    rw [beq_iff_eq, hdrop]
    exact ⟨fun hsub => (suffix_append (h hsub)).1 hsub, fun hsub => hsub.trans (List.suffix_append _ _)⟩

/-- The name `tty1` and the token `tty*`. -/
theorem isSame_tty : SameOk [116, 116, 121, 49] [116, 116, 121, 42] ↔
    ∀ pre suf a', [116, 116, 121, 42] = pre ++ 0x2A :: suf → [116, 116, 121, 49] = pre ++ a' →
      Apart [116, 116, 121, 49] a' suf :=
  isSame_iff _ _ (by decide) (by decide)

/-- The name `ab` is taken for a match of `ab*b`. -/
theorem isSame_overlap : ¬ ∀ a b : List UInt8, 0 ∉ b → b.count 0x2A ≤ 1 → SameOk a b := by
  intro h
  obtain ⟨r, hr, hiff⟩ := h [97, 98] [97, 98, 42, 98] (by decide) (by decide)
  have htrue : isSame [97, 98] [97, 98, 42, 98] = some true := by decide
  obtain rfl := Option.some.inj (htrue.symm.trans hr)
  rcases hiff.1 rfl with ⟨hstar, -⟩ | ⟨pre, suf, mid, hb, ha⟩
  · exact hstar (by decide)
  · have hlen := congrArg List.length hb
    have hlen' := congrArg List.length ha
    simp only [List.length_append, List.length_cons, List.length_nil] at hlen hlen'
    omega

end Pam.Time
