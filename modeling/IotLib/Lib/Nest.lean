/-
  Nested lists that are written flat, with the level of each element.
-/
import Mathlib

/-- A list of elements, some of which head a nested list. -/
inductive Nest (α : Type) where
  | nil
  | leaf (a : α) (next : Nest α)
  | node (a : α) (body next : Nest α)

namespace Nest

variable {α : Type}

/-- The elements one after the other. -/
def flat : Nest α → List α
  | nil => []
  | leaf a next => a :: next.flat
  | node a body next => a :: (body.flat ++ next.flat)

/-- The number of entries, where a nested list counts as one together with its head. -/
def length : Nest α → ℕ
  | nil => 0
  | leaf _ next => next.length + 1
  | node _ _ next => next.length + 1

def drop : ℕ → Nest α → Nest α
  | 0, t => t
  | _ + 1, nil => nil
  | n + 1, leaf _ next => drop n next
  | n + 1, node _ _ next => drop n next

def append : Nest α → Nest α → Nest α
  | nil, u => u
  | leaf a next, u => leaf a (append next u)
  | node a body next, u => node a body (append next u)

/-- The entries have the level `l`, and nested ones the next. -/
def Level (level : α → ℕ) : ℕ → Nest α → Prop
  | _, nil => True
  | l, leaf a next => level a = l ∧ next.Level level l
  | l, node a body next => level a = l ∧ body.Level level (l + 1) ∧ next.Level level l

/-- The elements that head a nested list are those with `head`. -/
def Heads (head : α → Prop) : Nest α → Prop
  | nil => True
  | leaf a next => ¬ head a ∧ next.Heads head
  | node a body next => head a ∧ body.Heads head ∧ next.Heads head

/-- A part of a nested list with what comes behind it: `t.Part out u out'` where `out` comes behind
    `t`, and `out'` behind the part `u`. -/
inductive Part : Nest α → List α → Nest α → List α → Prop
  | refl {t : Nest α} {out : List α} : Part t out t out
  | leaf {a : α} {next u : Nest α} {out out' : List α} (h : Part next out u out') :
      Part (leaf a next) out u out'
  | next {a : α} {body next u : Nest α} {out out' : List α} (h : Part next out u out') :
      Part (node a body next) out u out'
  | body {a : α} {body next u : Nest α} {out out' : List α}
      (h : Part body (next.flat ++ out) u out') : Part (node a body next) out u out'

section
variable {level : α → ℕ} {l : ℕ} {t u : Nest α} {out out' : List α}

theorem append_flat (t u : Nest α) : (t.append u).flat = t.flat ++ u.flat := by
  induction t with
  | nil => rfl
  | leaf a next ih => rw [append, flat, flat, ih, List.cons_append]
  | node a body next _ ih => rw [append, flat, flat, ih, List.cons_append, List.append_assoc]

theorem drop_of_length_le {n : ℕ} (h : t.length ≤ n) : t.drop n = nil := by
  induction t generalizing n with
  | nil => cases n <;> rfl
  | leaf a next ih =>
    cases n with
    | zero => exact absurd h (Nat.not_succ_le_zero _)
    | succ n => exact ih (Nat.le_of_succ_le_succ h)
  | node a body next _ ih =>
    cases n with
    | zero => exact absurd h (Nat.not_succ_le_zero _)
    | succ n => exact ih (Nat.le_of_succ_le_succ h)

theorem Level.append (ht : t.Level level l) (hu : u.Level level l) : (t.append u).Level level l := by
  induction t with
  | nil => exact hu
  | leaf a next ih => exact ⟨ht.1, ih ht.2⟩
  | node a body next _ ih => exact ⟨ht.1, ht.2.1, ih ht.2.2⟩

theorem Heads.append {head : α → Prop} (ht : t.Heads head) (hu : u.Heads head) :
    (t.append u).Heads head := by
  induction t with
  | nil => exact hu
  | leaf a next ih => exact ⟨ht.1, ih ht.2⟩
  | node a body next _ ih => exact ⟨ht.1, ht.2.1, ih ht.2.2⟩

/-- All elements have the level of the list or a deeper one. -/
theorem Level.le (h : t.Level level l) : ∀ x ∈ t.flat, l ≤ level x := by
  induction t generalizing l with
  | nil => nofun
  | leaf a next ih =>
    intro x hx
    rcases List.mem_cons.1 hx with rfl | hx
    · exact h.1.ge
    · exact ih h.2 x hx
  | node a body next ihb ihn =>
    intro x hx
    rcases List.mem_cons.1 hx with rfl | hx
    · exact h.1.ge
    · rcases List.mem_append.1 hx with hx | hx
      · exact (Nat.le_succ l).trans (ihb h.2.1 x hx)
      · exact ihn h.2.2 x hx

/-- The list starts at its level. -/
theorem Level.head (h : t.Level level l) : ∀ x ∈ t.flat.head?, level x = l := by
  cases t with
  | nil => nofun
  | leaf a next =>
    rintro x ⟨⟩
    exact h.1
  | node a body next =>
    rintro x ⟨⟩
    exact h.1

/-- What comes behind a list at level `l` starts below it. -/
theorem Level.head_le (h : t.Level level l) (hout : ∀ x ∈ out.head?, level x < l) :
    ∀ x ∈ (t.flat ++ out).head?, level x ≤ l := by
  intro x hx
  rw [List.head?_append] at hx
  cases hflat : t.flat.head? with
  | none =>
    rw [hflat] at hx
    exact (hout x hx).le
  | some y =>
    rw [hflat] at hx
    obtain rfl := Option.some.inj hx
    exact (h.head y hflat).le

theorem dropWhile_append {p : α → Bool} {xs ys : List α} (hxs : ∀ x ∈ xs, p x = true)
    (hys : ∀ y ∈ ys.head?, p y = false) : (xs ++ ys).dropWhile p = ys := by
  rw [List.dropWhile_append_of_pos hxs]
  cases ys with
  | nil => rfl
  | cons y ys => rw [List.dropWhile_cons_of_neg (by rw [hys y rfl]; exact Bool.false_ne_true)]

theorem takeWhile_append {p : α → Bool} {xs ys : List α} (hxs : ∀ x ∈ xs, p x = true)
    (hys : ∀ y ∈ ys.head?, p y = false) : (xs ++ ys).takeWhile p = xs := by
  rw [List.takeWhile_append_of_pos hxs]
  cases ys with
  | nil => exact List.append_nil xs
  | cons y ys =>
    rw [List.takeWhile_cons_of_neg (by rw [hys y rfl]; exact Bool.false_ne_true), List.append_nil]

/-- Passing over deeper elements leads behind a nested list. -/
theorem Level.dropWhile_body {body next : Nest α} (hbody : body.Level level (l + 1))
    (hnext : next.Level level l) (hout : ∀ x ∈ out.head?, level x < l) :
    (body.flat ++ (next.flat ++ out)).dropWhile (fun x => decide (l < level x)) =
      next.flat ++ out := by
  refine dropWhile_append (fun x hx => ?_) fun x hx => ?_
  · exact decide_eq_true (hbody.le x hx)
  · exact decide_eq_false (hnext.head_le hout x hx).not_gt

theorem Level.dropWhile_next {next : Nest α} (hnext : next.Level level l)
    (hout : ∀ x ∈ out.head?, level x < l) :
    (next.flat ++ out).dropWhile (fun x => decide (l < level x)) = next.flat ++ out :=
  @Level.dropWhile_body α level l out nil next trivial hnext hout

/-- The rest of a list, up to its end. -/
theorem Level.takeWhile (h : t.Level level l) (hout : ∀ x ∈ out.head?, level x < l) :
    (t.flat ++ out).takeWhile (fun x => decide (l ≤ level x)) = t.flat :=
  takeWhile_append (fun x hx => decide_eq_true (h.le x hx))
    fun x hx => decide_eq_false (hout x hx).not_ge

theorem Level.part (h : t.Level level l) (hout : ∀ x ∈ out.head?, level x < l)
    (hpart : t.Part out u out') :
    ∃ l', u.Level level l' ∧ ∀ x ∈ out'.head?, level x < l' := by
  induction hpart generalizing l with
  | refl => exact ⟨l, h, hout⟩
  | leaf _ ih => exact ih h.2 hout
  | next _ ih => exact ih h.2.2 hout
  | body _ ih =>
    exact ih h.2.1 fun x hx => Nat.lt_succ_of_le (h.2.2.head_le hout x hx)

theorem Heads.part {head : α → Prop} (h : t.Heads head) (hpart : t.Part out u out') :
    u.Heads head := by
  induction hpart with
  | refl => exact h
  | leaf _ ih => exact ih h.2
  | next _ ih => exact ih h.2.2
  | body _ ih => exact ih h.2.1

/-- Every element of the flat list stands at the start of a part. -/
theorem exists_part {pre tl : List α} {a : α} (h : t.flat ++ out = pre ++ a :: tl)
    (hpre : pre.length < t.flat.length) :
    ∃ u out', t.Part out u out' ∧ u.flat ++ out' = a :: tl ∧ u ≠ nil := by
  induction t generalizing pre out with
  | nil => exact absurd hpre (Nat.not_lt_zero _)
  | leaf b next ih =>
    cases pre with
    | nil => exact ⟨leaf b next, out, .refl, h, nofun⟩
    | cons p pre =>
      have htl := (List.cons.inj h).2
      obtain ⟨u, out', hpart, hu⟩ := ih htl (Nat.lt_of_succ_lt_succ hpre)
      exact ⟨u, out', .leaf hpart, hu⟩
  | node b body next ihb ihn =>
    cases pre with
    | nil => exact ⟨node b body next, out, .refl, h, nofun⟩
    | cons p pre =>
      have htl : body.flat ++ (next.flat ++ out) = pre ++ a :: tl := by
        rw [← List.append_assoc]
        exact (List.cons.inj h).2
      by_cases hb : pre.length < body.flat.length
      · obtain ⟨u, out', hpart, hu⟩ := ihb htl hb
        exact ⟨u, out', .body hpart, hu⟩
      · -- the element stands behind the nested list
        have hsplit := List.append_eq_append_iff.1 htl
        obtain ⟨mid, rfl, hmid⟩ : ∃ mid, pre = body.flat ++ mid ∧ next.flat ++ out = mid ++ a :: tl := by
          rcases hsplit with ⟨mid, hp, hn⟩ | ⟨mid, hp, hn⟩
          · exact ⟨mid, hp, hn⟩
          · have hlen := congrArg List.length hp
            rw [List.length_append] at hlen
            obtain rfl := List.length_eq_zero_iff.1 (show mid.length = 0 by omega)
            rw [List.append_nil] at hp
            exact ⟨[], by rw [hp, List.append_nil], hn.symm⟩
        have hlen : mid.length < next.flat.length := by
          rw [flat, List.length_cons, List.length_cons, List.length_append, List.length_append] at hpre
          omega
        obtain ⟨u, out', hpart, hu⟩ := ihn hmid hlen
        exact ⟨u, out', .next hpart, hu⟩

end

/-- A list that is related to the flat form element by element is the flat form of a nested list of
    the same shape. -/
theorem exists_of_forall₂ {β : Type} {R : α → β → Prop} {level : α → ℕ} {level' : β → ℕ}
    {head : α → Prop} {head' : β → Prop} (hlevel : ∀ a b, R a b → level' b = level a)
    (hhead : ∀ a b, R a b → (head' b ↔ head a)) {t : Nest α} {l : ℕ} {ys : List β}
    (ht : t.Level level l) (hh : t.Heads head) (h : List.Forall₂ R t.flat ys) :
    ∃ u : Nest β, u.flat = ys ∧ u.Level level' l ∧ u.Heads head' := by
  induction t generalizing l ys with
  | nil =>
    cases h
    exact ⟨nil, rfl, trivial, trivial⟩
  | leaf a next ih =>
    rcases h with _ | ⟨hab, hnext⟩
    obtain ⟨u, rfl, hu, hhu⟩ := ih ht.2 hh.2 hnext
    exact ⟨leaf _ u, rfl, ⟨(hlevel _ _ hab).trans ht.1, hu⟩, fun hb => hh.1 ((hhead _ _ hab).1 hb), hhu⟩
  | node a body next ihb ihn =>
    obtain ⟨b, rest, hab, hrest, rfl⟩ := List.forall₂_cons_left_iff.1 h
    have hbody := (List.forall₂_take_append _ _ _ hrest.flip).flip
    have hnext := (List.forall₂_drop_append _ _ _ hrest.flip).flip
    rw [← List.take_append_drop body.flat.length rest]
    generalize rest.take body.flat.length = ys at hbody ⊢
    generalize rest.drop body.flat.length = zs at hnext ⊢
    obtain ⟨u, rfl, hu, hhu⟩ := ihb ht.2.1 hh.2.1 hbody
    obtain ⟨v, rfl, hv, hhv⟩ := ihn ht.2.2 hh.2.2 hnext
    exact ⟨node _ u v, rfl, ⟨(hlevel _ _ hab).trans ht.1, hu, hv⟩, (hhead _ _ hab).2 hh.1, hhu, hhv⟩

end Nest
