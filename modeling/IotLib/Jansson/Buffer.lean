/-
  Bytes 0 in the buffer of `json_loadb`. The stream marks its empty buffer by a 0, so a 0 that is
  read after a number or an identifier and put back is lost: the text is read as if it had a space
  there.
-/
import IotLib.Jansson.Accept

namespace Jansson

/-! ## Texts with a space for a 0 -/

/-- Where a byte stands: outside of strings, after a letter or a digit or not; in a
    string; or in a string after a backslash. -/
inductive Place where
  | out (after : Bool)
  | str
  | esc

def isAlnum (c : UInt8) : Bool := isDigit c || isAlpha c

/-- The text with a space for each 0. It fails where a 0 does not stand outside of strings, directly
    after a letter or a digit. -/
def spaced : Place → Bytes → Option Bytes
  | _, [] => some []
  | .out after, c :: cs =>
    if c = 0 then if after then (spaced (.out false) cs).map (0x20 :: ·) else none
    else if c = 0x22 then (spaced .str cs).map (c :: ·)
    else (spaced (.out (isAlnum c)) cs).map (c :: ·)
  | .str, c :: cs =>
    if c = 0 then none
    else if c = 0x22 then (spaced (.out false) cs).map (c :: ·)
    else if c = 0x5C then (spaced .esc cs).map (c :: ·)
    else (spaced .str cs).map (c :: ·)
  | .esc, c :: cs => if c = 0 then none else (spaced .str cs).map (c :: ·)

/-- The bytes of the two texts agree, but for ASCII. -/
def SameHigh (c c' : UInt8) : Prop := c = c' ∨ c.toNat < 0x80 ∧ c'.toNat < 0x80

section
variable {p : Place} {c : UInt8} {cs text' : Bytes}

/-- One byte of the text. -/
theorem spaced_cons (h : spaced p (c :: cs) = some text') :
    ∃ p' c' cs', text' = c' :: cs' ∧ spaced p' cs = some cs' ∧ (c' = c ∧ c ≠ 0 ∨ c' = 0x20 ∧ c = 0) := by
  cases p with
  | out after =>
    rw [spaced] at h
    split_ifs at h with h₁ h₂ h₃
    · obtain ⟨cs', hcs, rfl⟩ := Option.map_eq_some_iff.1 h
      exact ⟨_, _, cs', rfl, hcs, Or.inr ⟨rfl, h₁⟩⟩
    · obtain ⟨cs', hcs, rfl⟩ := Option.map_eq_some_iff.1 h
      exact ⟨_, _, cs', rfl, hcs, Or.inl ⟨rfl, h₁⟩⟩
    · obtain ⟨cs', hcs, rfl⟩ := Option.map_eq_some_iff.1 h
      exact ⟨_, _, cs', rfl, hcs, Or.inl ⟨rfl, h₁⟩⟩
  | str =>
    rw [spaced] at h
    split_ifs at h with h₁ h₂ h₃
    all_goals
      obtain ⟨cs', hcs, rfl⟩ := Option.map_eq_some_iff.1 h
      exact ⟨_, _, cs', rfl, hcs, Or.inl ⟨rfl, h₁⟩⟩
  | esc =>
    rw [spaced] at h
    split_ifs at h with h₁
    obtain ⟨cs', hcs, rfl⟩ := Option.map_eq_some_iff.1 h
    exact ⟨_, _, cs', rfl, hcs, Or.inl ⟨rfl, h₁⟩⟩

theorem spaced_nul (h : spaced p cs = some text') : 0 ∉ text' := by
  induction cs generalizing p text' with
  | nil =>
    cases p <;> · obtain rfl := Option.some.inj h; exact List.not_mem_nil
  | cons c cs ih =>
    obtain ⟨p', c', cs', rfl, hcs, hc⟩ := spaced_cons h
    intro hm
    rcases List.mem_cons.1 hm with rfl | hm
    · rcases hc with ⟨rfl, hc⟩ | ⟨hc, -⟩
      · exact hc rfl
      · exact absurd hc (by decide)
    · exact ih hcs hm

theorem spaced_same (h : spaced p cs = some text') : List.Forall₂ SameHigh cs text' := by
  induction cs generalizing p text' with
  | nil =>
    cases p <;> · obtain rfl := Option.some.inj h; exact .nil
  | cons c cs ih =>
    obtain ⟨p', c', cs', rfl, hcs, hc⟩ := spaced_cons h
    refine .cons ?_ (ih hcs)
    rcases hc with ⟨rfl, -⟩ | ⟨rfl, rfl⟩
    · exact Or.inl rfl
    · exact Or.inr ⟨by decide, by decide⟩

end

theorem SameHigh.symm {c c' : UInt8} (h : SameHigh c c') : SameHigh c' c :=
  h.imp Eq.symm And.symm

theorem eq_of_same_high {bs bs' : Bytes} (h : List.Forall₂ SameHigh bs' bs)
    (hbs : ∀ b ∈ bs, 0x80 ≤ b.toNat) : bs' = bs := by
  induction h with
  | nil => rfl
  | cons hb _ ih =>
    obtain ⟨hge, htail⟩ := List.forall_mem_cons.1 hbs
    rcases hb with rfl | hb
    · rw [ih htail]
    · omega

/-- Validity is a matter of the bytes above ASCII. -/
theorem valid_of_same {bs bs' : Bytes} (h : List.Forall₂ SameHigh bs' bs) (hv : Valid bs) :
    Valid bs' := by
  induction hv generalizing bs' with
  | nil =>
    cases h
    exact .nil
  | @cons c bs hc _ ih =>
    have he := List.forall₂_take_append _ _ _ h
    have hr := ih (List.forall₂_drop_append _ _ _ h)
    rw [← List.take_append_drop (encode c).length bs']
    by_cases hlt : c < 0x80
    · rw [encode_ascii hlt] at he hr ⊢
      generalize bs'.take _ = e' at he ⊢
      cases he with
      | @cons b _ _ _ hb htail =>
        cases htail
        refine hr.ascii ?_
        rcases hb with rfl | hb
        · rw [toNat_byte (by omega)]
          exact hlt
        · exact hb.1
    · rw [eq_of_same_high he (encode_high hc (Nat.le_of_not_lt hlt))]
      exact .cons hc hr

/-- The two texts are both valid, or none is. -/
theorem spaced_valid {p : Place} {cs cs' : Bytes} (h : spaced p cs = some cs') :
    Valid cs' ↔ Valid cs := by
  have hs := spaced_same h
  refine ⟨valid_of_same hs, valid_of_same ?_⟩
  exact (List.Forall₂.imp (fun _ _ hb => SameHigh.symm hb) hs).flip

/-! ## Parts of numbers -/

/-- The same part, and what follows is related. -/
def Both {α : Type} (B : Bytes → Bytes → Prop) (x y : α × Bytes) : Prop := x.1 = y.1 ∧ B x.2 y.2

section
variable {α β γ δ : Type} {A : α → β → Prop} {C : γ → δ → Prop} {o : Option α} {o' : Option β}

theorem rel_bind {f : α → Option γ} {g : β → Option δ} (h : Option.Rel A o o')
    (hfg : ∀ x y, A x y → Option.Rel C (f x) (g y)) : Option.Rel C (o.bind f) (o'.bind g) := by
  cases h with
  | none => exact .none
  | some hxy => exact hfg _ _ hxy

theorem rel_map {f : α → γ} {g : β → δ} (h : Option.Rel A o o')
    (hfg : ∀ x y, A x y → C (f x) (g y)) : Option.Rel C (o.map f) (o'.map g) := by
  cases h with
  | none => exact .none
  | some hxy => exact .some (hfg _ _ hxy)

end

/-- Outside of strings, `r'` is `r` with a space for each 0. -/
def Out (after : Bool) (r r' : Bytes) : Prop := spaced (.out after) r = some r'

section
variable {b : Bool} {c : UInt8} {cs cs' r r' : Bytes}

theorem Out.nil_iff (h : Out b [] cs') : cs' = [] := (Option.some.inj h).symm

theorem Out.cons (h : Out b (c :: cs) cs') :
    (c = 0 ∧ b = true ∧ ∃ r', cs' = 0x20 :: r' ∧ Out false cs r') ∨
      (c = 0x22 ∧ ∃ r', cs' = c :: r' ∧ spaced .str cs = some r') ∨
      (c ≠ 0 ∧ c ≠ 0x22 ∧ ∃ r', cs' = c :: r' ∧ Out (isAlnum c) cs r') := by
  unfold Out at h
  rw [spaced] at h
  split_ifs at h with h₁ h₂ h₃
  · obtain ⟨r', hr, rfl⟩ := Option.map_eq_some_iff.1 h
    exact Or.inl ⟨h₁, h₂, r', rfl, hr⟩
  · obtain ⟨r', hr, rfl⟩ := Option.map_eq_some_iff.1 h
    exact Or.inr (Or.inl ⟨h₃, r', rfl, hr⟩)
  · obtain ⟨r', hr, rfl⟩ := Option.map_eq_some_iff.1 h
    exact Or.inr (Or.inr ⟨h₁, h₃, r', rfl, hr⟩)

/-- A byte that is neither 0 nor a quote is the same in both texts. -/
theorem Out.head (h : Out b (c :: cs) cs') (h0 : c ≠ 0) (hq : c ≠ 0x22) :
    ∃ r', cs' = c :: r' ∧ Out (isAlnum c) cs r' := by
  rcases h.cons with ⟨hc, -⟩ | ⟨hc, -⟩ | ⟨-, -, h⟩
  · exact absurd hc h0
  · exact absurd hc hq
  · exact h

/-- A test that neither a 0 nor a space passes is the same in both texts. -/
theorem Out.test {p : UInt8 → Bool} (h : Out b (c :: cs) cs') (h0 : p 0 = false)
    (hs : p 0x20 = false) : ∃ c' r', cs' = c' :: r' ∧ p c' = p c ∧ (p c = true → c' = c) := by
  rcases h.cons with ⟨rfl, -, r', rfl, -⟩ | ⟨rfl, r', rfl, -⟩ | ⟨-, -, r', rfl, -⟩
  · exact ⟨_, _, rfl, hs.trans h0.symm, fun hp => absurd (h0.symm.trans hp) Bool.false_ne_true⟩
  · exact ⟨_, _, rfl, rfl, fun _ => rfl⟩
  · exact ⟨_, _, rfl, rfl, fun _ => rfl⟩

/-- A run of letters or digits. -/
theorem Out.takeWhile {p : UInt8 → Bool} (hp : ∀ c, p c = true → isAlnum c = true)
    (h : Out b cs cs') :
    cs'.takeWhile p = cs.takeWhile p ∧
      Out (if cs.takeWhile p = [] then b else true) (cs.dropWhile p) (cs'.dropWhile p) := by
  have hno : ∀ k, isAlnum k = false → p k = false := by
    intro k hk
    by_contra hpk
    have := hp k (by simpa using hpk)
    rw [hk] at this
    cases this
  induction cs generalizing b cs' with
  | nil =>
    obtain rfl := h.nil_iff
    exact ⟨rfl, h⟩
  | cons c cs ih =>
    by_cases hc : p c = true
    · have halnum := hp c hc
      have h0 : c ≠ 0 := by
        rintro rfl
        cases halnum
      have hq : c ≠ 0x22 := by
        rintro rfl
        cases halnum
      obtain ⟨r', rfl, hr⟩ := h.head h0 hq
      rw [halnum] at hr
      obtain ⟨h₁, h₂⟩ := ih hr
      rw [ite_self] at h₂
      rw [List.takeWhile_cons_of_pos hc, List.takeWhile_cons_of_pos hc,
        List.dropWhile_cons_of_pos hc, List.dropWhile_cons_of_pos hc, h₁,
        if_neg (List.cons_ne_nil _ _)]
      exact ⟨rfl, h₂⟩
    · obtain ⟨c', r', rfl, hc', -⟩ := h.test (hno 0 rfl) (hno 0x20 rfl)
      have hc'' : ¬ p c' = true := by
        rw [hc']
        exact hc
      rw [List.takeWhile_cons_of_neg hc, List.takeWhile_cons_of_neg hc'',
        List.dropWhile_cons_of_neg hc, List.dropWhile_cons_of_neg hc'', if_pos rfl]
      exact ⟨rfl, h⟩

theorem isAlnum_of_digit (c : UInt8) (h : isDigit c = true) : isAlnum c = true := by
  rw [isAlnum, h, Bool.true_or]

theorem isAlnum_of_alpha (c : UInt8) (h : isAlpha c = true) : isAlnum c = true := by
  rw [isAlnum, h, Bool.or_true]

theorem Out.digitsPart (h : Out b cs cs') :
    Option.Rel (Both (Out true)) (digitsPart cs) (digitsPart cs') := by
  obtain ⟨h₁, h₂⟩ := h.takeWhile isAlnum_of_digit
  unfold Jansson.digitsPart
  rw [h₁]
  by_cases hnil : cs.takeWhile isDigit = []
  · rw [if_pos hnil, if_pos hnil]
    exact .none
  · rw [if_neg hnil] at h₂ ⊢
    rw [if_neg hnil]
    exact .some ⟨rfl, h₂⟩

theorem Out.intPart (h : Out b cs cs') :
    Option.Rel (Both (Out true)) (intPart cs) (intPart cs') := by
  cases cs with
  | nil =>
    obtain rfl := h.nil_iff
    exact .none
  | cons c cs =>
    by_cases hd : isDigit c = true
    · obtain ⟨r', rfl, hr⟩ := h.head (by rintro rfl; cases hd) (by rintro rfl; cases hd)
      rw [isAlnum_of_digit c hd] at hr
      obtain ⟨h₁, h₂⟩ := hr.takeWhile isAlnum_of_digit
      rw [ite_self] at h₂
      rw [Jansson.intPart, Jansson.intPart, h₁]
      by_cases h0 : c = 0x30
      · rw [if_pos h0, if_pos h0]
        by_cases hnil : cs.takeWhile isDigit = []
        · rw [if_pos hnil, if_pos hnil]
          exact .some ⟨rfl, hr⟩
        · rw [if_neg hnil, if_neg hnil]
          exact .none
      · rw [if_neg h0, if_neg h0, if_pos hd, if_pos hd]
        exact .some ⟨rfl, h₂⟩
    · obtain ⟨c', r', rfl, hc', -⟩ := @Out.test _ _ _ _ isDigit h rfl rfl
      have hno : ∀ (k : UInt8) (r : Bytes), ¬ isDigit k = true → Jansson.intPart (k :: r) = none := by
        intro k r hk
        rw [Jansson.intPart, if_neg (by rintro rfl; exact hk rfl), if_neg hk]
      rw [hno c cs hd, hno c' r' (by rw [hc']; exact hd)]
      exact .none

theorem Out.sign {p : UInt8 → Bool} (h : Out b cs cs') (h0 : p 0 = false) (hs : p 0x20 = false)
    (hq : p 0x22 = false) :
    (sign p cs').1 = (sign p cs).1 ∧ ∃ b', Out b' (sign p cs).2 (sign p cs').2 := by
  cases cs with
  | nil =>
    obtain rfl := h.nil_iff
    exact ⟨rfl, b, h⟩
  | cons c cs =>
    by_cases hc : p c = true
    · obtain ⟨r', rfl, hr⟩ := h.head (by rintro rfl; rw [h0] at hc; cases hc)
        (by rintro rfl; rw [hq] at hc; cases hc)
      rw [Jansson.sign, Jansson.sign, if_pos hc, if_pos hc]
      exact ⟨rfl, _, hr⟩
    · obtain ⟨c', r', rfl, hc', -⟩ := h.test h0 hs
      rw [Jansson.sign, Jansson.sign, if_neg hc, if_neg (by rw [hc']; exact hc)]
      exact ⟨rfl, b, h⟩

theorem Out.fracPart (h : Out true cs cs') :
    Option.Rel (Both (Out true)) (fracPart cs) (fracPart cs') := by
  cases cs with
  | nil =>
    obtain rfl := h.nil_iff
    exact .some ⟨rfl, h⟩
  | cons c cs =>
    by_cases hc : c = 0x2E
    · obtain ⟨r', rfl, hr⟩ := h.head (by rintro rfl; cases hc) (by rintro rfl; cases hc)
      rw [Jansson.fracPart, Jansson.fracPart, if_pos hc, if_pos hc]
      exact rel_map hr.digitsPart fun _ _ hd => ⟨congrArg (c :: ·) hd.1, hd.2⟩
    · obtain ⟨c', r', rfl, hc', -⟩ := @Out.test _ _ _ _ (· == 0x2E) h rfl rfl
      have hne : c' ≠ 0x2E := by
        simpa [hc] using hc'
      rw [Jansson.fracPart, Jansson.fracPart, if_neg hc, if_neg hne]
      exact .some ⟨rfl, h⟩

theorem Out.expPart (h : Out true cs cs') :
    Option.Rel (Both (Out true)) (expPart cs) (expPart cs') := by
  cases cs with
  | nil =>
    obtain rfl := h.nil_iff
    exact .some ⟨rfl, h⟩
  | cons c cs =>
    by_cases hc : isExp c = true
    · obtain ⟨r', rfl, hr⟩ := h.head (by rintro rfl; cases hc) (by rintro rfl; cases hc)
      obtain ⟨h₁, b', h₂⟩ := @Out.sign _ _ _ isSign hr rfl rfl rfl
      rw [Jansson.expPart, Jansson.expPart, if_pos hc, if_pos hc, h₁]
      exact rel_map h₂.digitsPart fun _ _ hd => ⟨congrArg (fun ds => c :: (_ ++ ds)) hd.1, hd.2⟩
    · obtain ⟨c', r', rfl, hc', -⟩ := @Out.test _ _ _ _ isExp h rfl rfl
      rw [Jansson.expPart, Jansson.expPart, if_neg hc, if_neg (by rw [hc']; exact hc)]
      exact .some ⟨rfl, h⟩

theorem Out.endsInt (h : Out b cs cs') : endsInt cs' = endsInt cs := by
  cases cs with
  | nil =>
    obtain rfl := h.nil_iff
    rfl
  | cons c cs =>
    obtain ⟨c', r', rfl, hc', -⟩ := @Out.test _ _ _ _ (fun c => !(c != 0x2E && !isExp c)) h rfl rfl
    exact Bool.not_inj hc'

end

/-! ## Strings -/

/-- In a string, `r'` is `r` with a space for each 0. -/
def Str (r r' : Bytes) : Prop := spaced .str r = some r'

/-- One hexadecimal digit. -/
def hexHead : Bytes → Option (UInt8 × Bytes)
  | [] => none
  | c :: cs => if isXdigit c then some (c, cs) else none

theorem strBody_hexHead (cs : Bytes) :
    strBody (0x5C :: 0x75 :: cs) =
      (hexHead cs).bind fun (h₁, cs) => (hexHead cs).bind fun (h₂, cs) =>
        (hexHead cs).bind fun (h₃, cs) => (hexHead cs).bind fun (h₄, cs) =>
          (strBody cs).map fun (raw, r) => (0x5C :: 0x75 :: h₁ :: h₂ :: h₃ :: h₄ :: raw, r) := by
  rw [strBody.eq_def]
  dsimp only
  rw [if_neg (by decide), if_neg (by decide), if_pos rfl, if_pos rfl]
  rcases cs with _ | ⟨h₁, _ | ⟨h₂, _ | ⟨h₃, _ | ⟨h₄, cs⟩⟩⟩⟩
  · rfl
  · by_cases x₁ : isXdigit h₁ = true <;> simp [hexHead, x₁]
  · by_cases x₁ : isXdigit h₁ = true <;> by_cases x₂ : isXdigit h₂ = true <;>
      simp [hexHead, x₁, x₂]
  · by_cases x₁ : isXdigit h₁ = true <;> by_cases x₂ : isXdigit h₂ = true <;>
      by_cases x₃ : isXdigit h₃ = true <;> simp [hexHead, x₁, x₂, x₃]
  · by_cases x₁ : isXdigit h₁ = true <;> by_cases x₂ : isXdigit h₂ = true <;>
      by_cases x₃ : isXdigit h₃ = true <;> by_cases x₄ : isXdigit h₄ = true <;>
      simp [hexHead, x₁, x₂, x₃, x₄]

theorem strBody_backslash {x : UInt8} (hx : x ≠ 0x75) (cs : Bytes) :
    strBody (0x5C :: x :: cs) =
      if (unescape x).isSome then (strBody cs).map fun (raw, r) => (0x5C :: x :: raw, r)
      else none := by
  rw [strBody.eq_def]
  dsimp only
  rw [if_neg (by decide), if_neg (by decide), if_pos rfl, if_neg hx]

section
variable {c : UInt8} {cs cs' : Bytes}

theorem Str.nil_iff (h : Str [] cs') : cs' = [] := (Option.some.inj h).symm

theorem Str.cons (h : Str (c :: cs) cs') :
    ∃ r', cs' = c :: r' ∧ ((c = 0x22 ∧ Out false cs r') ∨ (c = 0x5C ∧ spaced .esc cs = some r') ∨
      (c ≠ 0x22 ∧ c ≠ 0x5C ∧ Str cs r')) := by
  unfold Str at h
  rw [spaced] at h
  split_ifs at h with h₁ h₂ h₃
  · obtain ⟨r', hr, rfl⟩ := Option.map_eq_some_iff.1 h
    exact ⟨r', rfl, Or.inl ⟨h₂, hr⟩⟩
  · obtain ⟨r', hr, rfl⟩ := Option.map_eq_some_iff.1 h
    exact ⟨r', rfl, Or.inr (Or.inl ⟨h₃, hr⟩)⟩
  · obtain ⟨r', hr, rfl⟩ := Option.map_eq_some_iff.1 h
    exact ⟨r', rfl, Or.inr (Or.inr ⟨h₂, h₃, hr⟩)⟩

theorem Str.hexHead {n : Nat} (h : Str cs cs' ∧ cs.length < n) :
    Option.Rel (Both fun r r' => Str r r' ∧ r.length < n) (hexHead cs) (hexHead cs') := by
  obtain ⟨h, hn⟩ := h
  cases cs with
  | nil =>
    obtain rfl := h.nil_iff
    exact .none
  | cons c cs =>
    obtain ⟨r', rfl, hc⟩ := h.cons
    rw [Jansson.hexHead, Jansson.hexHead]
    by_cases hx : isXdigit c = true
    · rw [if_pos hx, if_pos hx]
      rcases hc with ⟨rfl, -⟩ | ⟨rfl, -⟩ | ⟨-, -, hr⟩
      · cases hx
      · cases hx
      · exact .some ⟨rfl, hr, Nat.lt_of_succ_lt hn⟩
    · rw [if_neg hx, if_neg hx]
      exact .none

/-- A string is the same in both texts. -/
theorem Str.strBody (h : Str cs cs') :
    Option.Rel (Both (Out false)) (strBody cs) (strBody cs') := by
  induction hlen : cs.length using Nat.strong_induction_on generalizing cs cs' with
  | _ n ih =>
    cases cs with
    | nil =>
      obtain rfl := h.nil_iff
      rw [Jansson.strBody.eq_def]
      exact .none
    | cons c cs =>
      rw [List.length_cons] at hlen
      obtain ⟨r', rfl, hc⟩ := h.cons
      rcases hc with ⟨rfl, hr⟩ | ⟨rfl, hr⟩ | ⟨hq, hbs, hr⟩
      · rw [strBody_quote, strBody_quote]
        exact .some ⟨rfl, hr⟩
      · -- after a backslash
        cases cs with
        | nil =>
          obtain rfl := Option.some.inj hr
          rw [Jansson.strBody.eq_def]
          exact .none
        | cons x cs =>
          rw [List.length_cons] at hlen
          rw [spaced] at hr
          split_ifs at hr with h0
          obtain ⟨r', hr', rfl⟩ := Option.map_eq_some_iff.1 hr
          by_cases hu : x = 0x75
          · subst hu
            rw [strBody_hexHead, strBody_hexHead]
            refine rel_bind (Str.hexHead ⟨hr', (by omega : cs.length < n)⟩) ?_
            rintro ⟨h₁, r₁⟩ ⟨_, r₁'⟩ ⟨rfl, hr₁⟩
            refine rel_bind (Str.hexHead hr₁) ?_
            rintro ⟨h₂, r₂⟩ ⟨_, r₂'⟩ ⟨rfl, hr₂⟩
            refine rel_bind (Str.hexHead hr₂) ?_
            rintro ⟨h₃, r₃⟩ ⟨_, r₃'⟩ ⟨rfl, hr₃⟩
            refine rel_bind (Str.hexHead hr₃) ?_
            rintro ⟨h₄, r₄⟩ ⟨_, r₄'⟩ ⟨rfl, hr₄, hlt⟩
            exact rel_map (ih _ hlt hr₄ rfl) fun _ _ hp =>
              ⟨congrArg (fun raw => 0x5C :: 0x75 :: h₁ :: h₂ :: h₃ :: h₄ :: raw) hp.1, hp.2⟩
          · rw [strBody_backslash hu, strBody_backslash hu]
            by_cases hx : (unescape x).isSome = true
            · rw [if_pos hx, if_pos hx]
              exact rel_map (ih _ (by omega) hr' rfl) fun _ _ hp =>
                ⟨congrArg (fun raw => 0x5C :: x :: raw) hp.1, hp.2⟩
            · rw [if_neg hx, if_neg hx]
              exact .none
      · rw [Jansson.strBody.eq_def, Jansson.strBody.eq_def (c :: r')]
        dsimp only
        rw [if_neg hq, if_neg hq, if_neg hbs, if_neg hbs]
        by_cases hctl : c.toNat ≤ 0x1F
        · rw [if_pos hctl, if_pos hctl]
          exact .none
        · rw [if_neg hctl, if_neg hctl]
          exact rel_map (ih _ (by omega) hr rfl) fun _ _ hp => ⟨congrArg (c :: ·) hp.1, hp.2⟩

end

/-! ## Tokens of both texts -/

/-- What follows a token in both texts. -/
def Follows (r r' : Bytes) : Prop := ∃ r₁, Out false r r₁ ∧ Ws r' r₁

theorem Out.follows {r r' : Bytes} (h : Out false r r') : Follows r r' := ⟨r', h, ws_refl r'⟩

/-- The 0 that is lost is a space in the other text. -/
theorem Out.dropNul {r r' : Bytes} (h : Out true r r') : Follows (dropNul r) (dropNul r') := by
  rw [dropNul_eq (spaced_nul h)]
  cases r with
  | nil =>
    obtain rfl := h.nil_iff
    exact Out.follows rfl
  | cons c r =>
    rcases h.cons with ⟨rfl, -, r₁, rfl, hr⟩ | ⟨rfl, r₁, rfl, hr⟩ | ⟨h0, hq, r₁, rfl, hr⟩
    · exact ⟨r₁, hr, [0x20], by simp [isSpace], rfl⟩
    · refine Out.follows ?_
      unfold Out at *
      rw [Jansson.dropNul, if_neg (by decide), spaced, if_neg (by decide), if_pos rfl, hr]
      rfl
    · refine Out.follows ?_
      unfold Out at *
      rw [Jansson.dropNul, if_neg h0, spaced, if_neg h0, if_neg hq, hr]
      rfl

section
variable {R δ : Type} {e : Conf R δ} {bad : Bool} {b : Bool} {c : UInt8} {cs cs' text text' : Bytes}

theorem rel_map_self {α γ δ : Type} {C : γ → δ → Prop} {f : α → γ} {g : α → δ} (o : Option α)
    (hfg : ∀ x, C (f x) (g x)) : Option.Rel C (o.map f) (o.map g) := by
  cases o with
  | none => exact .none
  | some x => exact .some (hfg x)

theorem Out.scanNumber (h : Out b cs cs') :
    Option.Rel (Both Follows) (scanNumber e cs) (scanNumber e cs') := by
  obtain ⟨h₁, b', h₂⟩ := @Out.sign _ _ _ (· == 0x2D) h rfl rfl rfl
  unfold Jansson.scanNumber
  generalize Jansson.sign (· == 0x2D) cs = s at h₁ h₂ ⊢
  generalize Jansson.sign (· == 0x2D) cs' = s' at h₁ h₂ ⊢
  obtain ⟨m, r⟩ := s
  obtain ⟨_, r'⟩ := s'
  obtain rfl := h₁
  refine rel_bind h₂.intPart ?_
  rintro ⟨ds, r₁⟩ ⟨_, r₁'⟩ ⟨rfl, hr₁⟩
  dsimp only at hr₁ ⊢
  rw [hr₁.endsInt]
  by_cases hends : (!e.flags.decodeIntAsReal && Jansson.endsInt r₁) = true
  · rw [if_pos hends, if_pos hends]
    exact rel_map_self _ fun _ => ⟨rfl, hr₁.dropNul⟩
  · rw [if_neg hends, if_neg hends]
    refine rel_bind hr₁.fracPart ?_
    rintro ⟨fs, r₂⟩ ⟨_, r₂'⟩ ⟨rfl, hr₂⟩
    refine rel_bind (Out.expPart hr₂) ?_
    rintro ⟨xs, r₃⟩ ⟨_, r₃'⟩ ⟨rfl, hr₃⟩
    exact rel_map_self _ fun _ => ⟨rfl, Out.dropNul hr₃⟩

theorem Out.scanIdent (h : Out b (c :: cs) cs') (hc : isAlpha c = true) :
    Option.Rel (Both Follows) (scanIdent (c :: cs) : Option (Token R × Bytes)) (scanIdent cs') := by
  obtain ⟨h₁, h₂⟩ := h.takeWhile isAlnum_of_alpha
  rw [if_neg (by rw [List.takeWhile_cons_of_pos hc]; exact List.cons_ne_nil _ _)] at h₂
  unfold Jansson.scanIdent
  rw [h₁]
  cases (identToken ((c :: cs).takeWhile isAlpha) : Token R) with
  | invalid => exact .none
  | eof | punct _ | string _ | integer _ | real _ | true | false | null =>
    exact .some ⟨rfl, h₂.dropNul⟩

theorem Out.dropWhile (h : Out false text text') :
    Out false (text.dropWhile isSpace) (text'.dropWhile isSpace) := by
  induction text generalizing text' with
  | nil =>
    obtain rfl := h.nil_iff
    exact h
  | cons c cs ih =>
    by_cases hc : isSpace c = true
    · obtain ⟨r', rfl, hr⟩ := h.head (by rintro rfl; cases hc) (by rintro rfl; cases hc)
      have hal : isAlnum c = false := by
        simp only [isSpace, Bool.or_eq_true, beq_iff_eq] at hc
        rcases hc with ((rfl | rfl) | rfl) | rfl <;> rfl
      rw [hal] at hr
      rw [List.dropWhile_cons_of_pos hc, List.dropWhile_cons_of_pos hc]
      exact ih hr
    · rcases h.cons with ⟨-, hb, -⟩ | ⟨-, r', rfl, -⟩ | ⟨-, -, r', rfl, -⟩
      · cases hb
      · rwa [List.dropWhile_cons_of_neg hc, List.dropWhile_cons_of_neg hc]
      · rwa [List.dropWhile_cons_of_neg hc, List.dropWhile_cons_of_neg hc]

theorem Str.scanString (h : Str cs cs') :
    Option.Rel (Both Follows) (scanString cs : Option (Token R × Bytes)) (scanString cs') := by
  unfold Jansson.scanString
  refine rel_bind h.strBody ?_
  rintro ⟨raw, r⟩ ⟨_, r'⟩ ⟨rfl, hr⟩
  dsimp only
  cases decodeString raw with
  | error _ => exact .none
  | ok v => exact .some ⟨rfl, Out.follows hr⟩

theorem isAlnum_punct (hc : isPunct c = true) : isAlnum c = false ∧ c ≠ 0 ∧ c ≠ 0x22 := by
  simp only [isPunct, Bool.or_eq_true, beq_iff_eq] at hc
  rcases hc with ((((rfl | rfl) | rfl) | rfl) | rfl) | rfl <;> decide

theorem Out.scan (h : Out false text text') :
    Option.Rel (Both Follows) (scan e bad text) (scan e bad text') := by
  have hd := h.dropWhile
  unfold Jansson.scan
  generalize text.dropWhile isSpace = inp at hd ⊢
  generalize text'.dropWhile isSpace = inp' at hd ⊢
  cases inp with
  | nil =>
    obtain rfl := hd.nil_iff
    cases bad with
    | true => exact .none
    | false => exact .some ⟨rfl, Out.follows rfl⟩
  | cons c cs =>
    obtain ⟨r', rfl⟩ : ∃ r', inp' = c :: r' := by
      rcases hd.cons with ⟨-, hb, -⟩ | ⟨-, r', rfl, -⟩ | ⟨-, -, r', rfl, -⟩
      · cases hb
      · exact ⟨r', rfl⟩
      · exact ⟨r', rfl⟩
    dsimp only
    by_cases hp : isPunct c = true
    · obtain ⟨hal, h0, hq⟩ := isAlnum_punct hp
      obtain ⟨r'', heq, hr⟩ := hd.head h0 hq
      obtain ⟨-, rfl⟩ := List.cons.inj heq
      rw [hal] at hr
      rw [if_pos hp, if_pos hp]
      exact .some ⟨rfl, hr.follows⟩
    rw [if_neg hp, if_neg hp]
    by_cases hq : c = 0x22
    · rw [if_pos hq, if_pos hq]
      rcases hd.cons with ⟨-, hb, -⟩ | ⟨-, r'', heq, hr⟩ | ⟨-, hq', -⟩
      · cases hb
      · obtain ⟨-, rfl⟩ := List.cons.inj heq
        exact Str.scanString hr
      · exact absurd hq hq'
    rw [if_neg hq, if_neg hq]
    by_cases hn : (isDigit c || c == 0x2D) = true
    · rw [if_pos hn, if_pos hn]
      exact hd.scanNumber
    rw [if_neg hn, if_neg hn]
    by_cases ha : isAlpha c = true
    · rw [if_pos ha, if_pos ha]
      exact hd.scanIdent ha
    · rw [if_neg ha, if_neg ha]
      exact .none

theorem scan_ws {r r₁ : Bytes} (h : Ws r r₁) : scan e bad r = scan e bad r₁ := by
  obtain ⟨ws, hws, rfl⟩ := h
  unfold scan
  rw [List.dropWhile_append_of_pos hws]

theorem Follows.scan (h : Follows text text') :
    Option.Rel (Both Follows) (scan e bad text) (scan e bad text') := by
  obtain ⟨r₁, hout, hws⟩ := h
  rw [scan_ws hws]
  exact hout.scan

/-! ## The parser on both texts -/

variable {B : Bytes → Bytes → Prop} {tv tv' : TextValue R}

/-- The tokens of related texts are the same, and leave related texts. -/
def Respects (e : Conf R δ) (bad : Bool) (B : Bytes → Bytes → Prop) : Prop :=
  ∀ {text text' : Bytes}, B text text' → Option.Rel (Both B) (scan e bad text) (scan e bad text')

/-- So are the values. -/
def RespectsValue (B : Bytes → Bytes → Prop) (tv : TextValue R) : Prop :=
  ∀ (t : Token R) {text text' : Bytes}, B text text' →
    Option.Rel (Both B) (tv (t, text)) (tv (t, text'))

theorem textElems_rel (hB : Respects e bad B) (htv : RespectsValue B tv) :
    ∀ (n : Nat) (array : List (Json R)), RespectsValue B (textElems e bad tv n array)
  | 0, _, _, _, _, _ => .none
  | n + 1, array, t, text, text', h => by
    rw [textElems, textElems]
    refine rel_bind (htv t h) ?_
    rintro ⟨v, r₁⟩ ⟨_, r₁'⟩ ⟨rfl, hr₁⟩
    refine rel_bind (hB hr₁) ?_
    rintro ⟨t₁, r₂⟩ ⟨_, r₂'⟩ ⟨rfl, hr₂⟩
    dsimp only
    split
    · refine rel_bind (hB hr₂) ?_
      rintro ⟨t₂, r₃⟩ ⟨_, r₃'⟩ ⟨rfl, hr₃⟩
      exact textElems_rel hB htv n _ t₂ hr₃
    · exact .some ⟨rfl, hr₂⟩
    · exact .none

theorem textArray_rel (hB : Respects e bad B) (htv : RespectsValue B tv) (h : B text text') :
    Option.Rel (Both B) (textArray e bad tv text) (textArray e bad tv text') := by
  refine rel_bind (hB h) ?_
  rintro ⟨t, r⟩ ⟨_, r'⟩ ⟨rfl, hr⟩
  dsimp only
  split
  · exact .some ⟨rfl, hr⟩
  · exact textElems_rel hB htv _ _ _ hr

theorem textMembers_rel (hB : Respects e bad B) (htv : RespectsValue B tv) :
    ∀ (n : Nat) (object : List (Bytes × Json R)), RespectsValue B (textMembers e bad tv n object)
  | 0, _, _, _, _, _ => .none
  | n + 1, object, t, text, text', h => by
    rw [textMembers.eq_def, textMembers.eq_def _ _ _ _ _ (t, text')]
    dsimp only
    split
    · rename_i key
      by_cases h0 : 0 ∈ key
      · rw [if_pos h0, if_pos h0]
        exact .none
      rw [if_neg h0, if_neg h0]
      by_cases hdup : e.flags.rejectDuplicates = true ∧ (objectGet key object).isSome = true
      · rw [if_pos hdup, if_pos hdup]
        exact .none
      rw [if_neg hdup, if_neg hdup]
      refine rel_bind (hB h) ?_
      rintro ⟨t₁, r₁⟩ ⟨_, r₁'⟩ ⟨rfl, hr₁⟩
      dsimp only
      split
      · have hv : Option.Rel (Both B) ((scan e bad r₁).bind tv) ((scan e bad r₁').bind tv) := by
          refine rel_bind (hB hr₁) ?_
          rintro ⟨t₂, r₂⟩ ⟨_, r₂'⟩ ⟨rfl, hr₂⟩
          exact htv t₂ hr₂
        refine rel_bind hv ?_
        · rintro ⟨v, r₃⟩ ⟨_, r₃'⟩ ⟨rfl, hr₃⟩
          refine rel_bind (hB hr₃) ?_
          rintro ⟨t₄, r₄⟩ ⟨_, r₄'⟩ ⟨rfl, hr₄⟩
          dsimp only
          split
          · refine rel_bind (hB hr₄) ?_
            rintro ⟨t₅, r₅⟩ ⟨_, r₅'⟩ ⟨rfl, hr₅⟩
            exact textMembers_rel hB htv n _ t₅ hr₅
          · exact .some ⟨rfl, hr₄⟩
          · exact .none
      · exact .none
    · exact .none

theorem textObject_rel (hB : Respects e bad B) (htv : RespectsValue B tv) (h : B text text') :
    Option.Rel (Both B) (textObject e bad tv text) (textObject e bad tv text') := by
  refine rel_bind (hB h) ?_
  rintro ⟨t, r⟩ ⟨_, r'⟩ ⟨rfl, hr⟩
  dsimp only
  split
  · exact .some ⟨rfl, hr⟩
  · exact textMembers_rel hB htv _ _ _ hr

theorem textValue_rel (hB : Respects e bad B) : ∀ d : Nat, RespectsValue B (textValue e bad d)
  | 0, _, _, _, _ => .none
  | d + 1, t, text, text', h => by
    have ih := textValue_rel hB d
    rw [textValue.eq_def, textValue.eq_def _ _ _ (t, text')]
    dsimp only
    split
    · rename_i value
      by_cases h0 : (!e.flags.allowNul) = true ∧ 0 ∈ value
      · rw [if_pos h0, if_pos h0]
        exact .none
      · rw [if_neg h0, if_neg h0]
        exact .some ⟨rfl, h⟩
    · exact .some ⟨rfl, h⟩
    · exact .some ⟨rfl, h⟩
    · exact .some ⟨rfl, h⟩
    · exact .some ⟨rfl, h⟩
    · exact .some ⟨rfl, h⟩
    · exact textObject_rel hB ih h
    · exact textArray_rel hB ih h
    · exact .none

theorem textJson_rel (hB : Respects e bad B) (h : B text text') :
    textJson e bad text = textJson e bad text' := by
  have hrel : Option.Rel Eq (textJson e bad text) (textJson e bad text') := by
    refine rel_bind (hB h) ?_
    rintro ⟨t, r⟩ ⟨_, r'⟩ ⟨rfl, hr⟩
    dsimp only
    by_cases hany : (!e.flags.decodeAny && !t.opens) = true
    · rw [if_pos hany, if_pos hany]
      exact .none
    rw [if_neg hany, if_neg hany]
    refine rel_bind (textValue_rel hB jsonParserMaxDepth t hr) ?_
    rintro ⟨v, r₁⟩ ⟨_, r₁'⟩ ⟨rfl, hr₁⟩
    dsimp only
    by_cases heof : e.flags.disableEofCheck = true
    · rw [if_pos heof, if_pos heof]
      exact .some rfl
    rw [if_neg heof, if_neg heof]
    refine rel_bind (hB hr₁) ?_
    rintro ⟨t₂, r₂⟩ ⟨_, r₂'⟩ ⟨rfl, hr₂⟩
    dsimp only
    split
    · exact .some rfl
    · exact .none
  generalize textJson e bad text = o at hrel ⊢
  generalize textJson e bad text' = o' at hrel ⊢
  cases hrel with
  | none => rfl
  | some h => rw [h]

/-- A property that every token keeps, and that the end does not have. -/
theorem textJson_none {P : Bytes → Prop} (he : e.flags.disableEofCheck = false)
    (hP : ∀ {text : Bytes} {t : Token R} {rest : Bytes}, P text →
      scan e bad text = some (t, rest) → t ≠ .eof ∧ P rest)
    (h : P text) : textJson e bad text = none := by
  have hB : Respects e bad fun r r' => r = r' ∧ P r := by
    rintro text _ ⟨rfl, htext⟩
    cases hscan : scan e bad text with
    | none => exact .none
    | some p => exact .some ⟨rfl, rfl, (hP htext hscan).2⟩
  rw [Option.eq_none_iff_forall_ne_some]
  intro v hv
  unfold textJson at hv
  obtain ⟨⟨t, r⟩, hscan, hv⟩ := Option.bind_eq_some_iff.1 hv
  dsimp only at hv
  by_cases hany : (!e.flags.decodeAny && !t.opens) = true
  · rw [if_pos hany] at hv
    cases hv
  rw [if_neg hany] at hv
  obtain ⟨⟨v', r'⟩, hval, hv⟩ := Option.bind_eq_some_iff.1 hv
  dsimp only at hv
  rw [he, if_neg Bool.false_ne_true] at hv
  obtain ⟨⟨t', r''⟩, hscan', hv⟩ := Option.bind_eq_some_iff.1 hv
  have hrel := textValue_rel hB jsonParserMaxDepth t ⟨rfl, (hP h hscan).2⟩
  rw [hval] at hrel
  cases hrel with
  | some hboth =>
    have hne := (hP hboth.2.2 hscan').1
    dsimp only at hv
    split at hv
    · exact hne rfl
    · cases hv

end

/-! ## A 0 at another place -/

/-- The last byte is a letter or a digit; `b` stands for an empty text. -/
def endsAlnum (b : Bool) (pre : Bytes) : Bool := pre.foldl (fun _ c => isAlnum c) b

/-- Neither a 0 nor a quote. -/
def Plain (pre : Bytes) : Prop := ∀ c ∈ pre, c ≠ 0 ∧ c ≠ 0x22

theorem Plain.append {pre pre' : Bytes} (h : Plain pre) (h' : Plain pre') : Plain (pre ++ pre') :=
  List.forall_mem_append.2 ⟨h, h'⟩

theorem endsAlnum_append (b : Bool) (pre pre' : Bytes) :
    endsAlnum b (pre ++ pre') = endsAlnum (endsAlnum b pre) pre' := List.foldl_append

theorem spaced_plain {pre : Bytes} (h : Plain pre) (b : Bool) (r : Bytes) :
    spaced (.out b) (pre ++ r) = (spaced (.out (endsAlnum b pre)) r).map (pre ++ ·) := by
  induction pre generalizing b with
  | nil => simp [endsAlnum]
  | cons c pre ih =>
    obtain ⟨⟨h0, hq⟩, htail⟩ := List.forall_mem_cons.1 h
    rw [List.cons_append, spaced, if_neg h0, if_neg hq, ih htail, Option.map_map]
    rfl

theorem Digits.plain {ds : Bytes} (h : Digits ds) : Plain ds := by
  intro c hc
  have hd := h.2 c hc
  refine ⟨?_, (isDigit_cases hd).2.2.1⟩
  rintro rfl
  cases hd

theorem endsAlnum_of_all {pre : Bytes} (b : Bool) (hne : pre ≠ [])
    (hall : ∀ c ∈ pre, isAlnum c = true) : endsAlnum b pre = true := by
  induction pre generalizing b with
  | nil => exact absurd rfl hne
  | cons c pre ih =>
    obtain ⟨hc, hpre⟩ := List.forall_mem_cons.1 hall
    cases pre with
    | nil => exact hc
    | cons c' pre => exact ih (isAlnum c) (List.cons_ne_nil _ _) hpre

theorem Digits.endsAlnum {ds : Bytes} (h : Digits ds) (b : Bool) : endsAlnum b ds = true :=
  endsAlnum_of_all b h.1 fun c hc => isAlnum_of_digit c (h.2 c hc)

theorem Minus.plain {m : Bytes} (h : Minus m) : Plain m := by
  rcases h with rfl | rfl <;> simp [Plain]

theorem Frac.plain {fs : Bytes} (h : Frac fs) : Plain fs ∧ endsAlnum true fs = true := by
  rcases h with rfl | ⟨ds, rfl, hds⟩
  · exact ⟨by simp [Plain], rfl⟩
  · exact ⟨List.forall_mem_cons.2 ⟨by decide, hds.plain⟩, hds.endsAlnum _⟩

theorem Expo.plain {xs : Bytes} (h : Expo xs) : Plain xs ∧ endsAlnum true xs = true := by
  rcases h with rfl | ⟨x, s, ds, hx, hs, hds, rfl⟩
  · exact ⟨by simp [Plain], rfl⟩
  · refine ⟨List.forall_mem_cons.2 ⟨?_, Plain.append ?_ hds.plain⟩, ?_⟩
    · rcases hx with rfl | rfl <;> decide
    · rcases hs with rfl | rfl | rfl <;> simp [Plain]
    · rw [← List.cons_append, endsAlnum_append]
      exact hds.endsAlnum _

/-- After a letter or a digit, the 0 that is lost is the only one. -/
theorem stuck_dropNul {r : Bytes} (h : spaced (.out true) r = none) :
    spaced (.out false) (dropNul r) = none := by
  cases r with
  | nil => cases h
  | cons c r =>
    by_cases h0 : c = 0
    · subst h0
      rw [spaced, if_pos rfl, if_pos rfl, Option.map_eq_none_iff] at h
      exact h
    · rw [dropNul, if_neg h0]
      rw [spaced, if_neg h0] at h ⊢
      exact h

theorem stuck_number {pre r : Bytes} {b : Bool} (hpre : Plain pre) (hends : endsAlnum b pre = true)
    (h : spaced (.out b) (pre ++ r) = none) : spaced (.out false) (dropNul r) = none := by
  rw [spaced_plain hpre, hends, Option.map_eq_none_iff] at h
  exact stuck_dropNul h

theorem spaced_strBody {cs raw r : Bytes} (h : strBody cs = some (raw, r)) :
    spaced .str cs = (spaced (.out false) r).map (raw ++ ·) := by
  induction hlen : cs.length using Nat.strong_induction_on generalizing cs raw with
  | _ n ih =>
    cases cs with
    | nil => cases h
    | cons b cs =>
      rw [List.length_cons] at hlen
      rcases strBody_cases h with ⟨rfl, rfl, rfl⟩ | ⟨hq, hbs, hge, raw', hs, rfl⟩ |
        ⟨rfl, x, y, cs', raw', hxy, rfl, hs, rfl⟩ | ⟨rfl, hs, m, cs', raw', hm, rfl, hs', rfl⟩
      · rw [spaced, if_neg (by decide), if_pos rfl]
        rfl
      · have h0 : b ≠ 0 := by
          rintro rfl
          exact absurd hge (by decide)
        rw [spaced, if_neg h0, if_neg hq, if_neg hbs, ih _ (by omega) hs rfl, Option.map_map]
        rfl
      · have h0 : x ≠ 0 := by
          rintro rfl
          cases hxy
        rw [List.length_cons] at hlen
        rw [spaced, if_neg (by decide), if_neg (by decide), if_pos rfl, spaced, if_neg h0,
          ih _ (by omega) hs rfl, Option.map_map, Option.map_map]
        rfl
      · have hplain : ∀ c, isXdigit c = true → ∀ r, spaced .str (c :: r) =
            (spaced .str r).map (c :: ·) := by
          intro c hc r
          rw [spaced, if_neg (by rintro rfl; cases hc), if_neg (by rintro rfl; cases hc),
            if_neg (by rintro rfl; cases hc)]
        rw [List.length_cons, List.length_append] at hlen
        rw [spaced, if_neg (by decide), if_neg (by decide), if_pos rfl, spaced, if_neg (by decide)]
        cases hm with
        | intro x₁ x₂ x₃ x₄ =>
          rw [List.cons_append, List.cons_append, List.cons_append, List.cons_append,
            List.nil_append, hplain _ x₁, hplain _ x₂, hplain _ x₃, hplain _ x₄,
            ih _ (by omega) hs' rfl]
          simp only [Option.map_map]
          rfl

section
variable {R δ : Type} {e : Conf R δ} {bad : Bool} {text rest : Bytes} {t : Token R}

theorem scanNumber_plain {cs : Bytes} (h : scanNumber e cs = some (t, rest)) :
    t ≠ .eof ∧ ∃ pre r, cs = pre ++ r ∧ rest = dropNul r ∧ Plain pre ∧ endsAlnum false pre = true := by
  have hsign := sign_append (· == 0x2D) cs
  have hminus := minus_sign cs
  unfold scanNumber at h
  generalize sign (· == 0x2D) cs = s at h hsign hminus
  obtain ⟨m, cs'⟩ := s
  dsimp only at h hsign hminus
  obtain ⟨⟨ds, r⟩, hint, h⟩ := Option.bind_eq_some_iff.1 h
  obtain ⟨hcs', hds, -⟩ := intPart_iff.1 hint
  have hpre := hminus.plain.append hds.digits.plain
  have hends : endsAlnum false (m ++ ds) = true := by
    rw [endsAlnum_append]
    exact hds.digits.endsAlnum _
  dsimp only at h
  split_ifs at h
  · obtain ⟨i, -, heq⟩ := Option.map_eq_some_iff.1 h
    obtain ⟨rfl, rfl⟩ := Prod.mk.inj heq
    exact ⟨nofun, m ++ ds, r, by rw [← hsign, hcs', List.append_assoc], rfl, hpre, hends⟩
  · obtain ⟨⟨fs, r₁⟩, hfrac, h⟩ := Option.bind_eq_some_iff.1 h
    obtain ⟨⟨xs, r₂⟩, hexp, h⟩ := Option.bind_eq_some_iff.1 h
    obtain ⟨x, -, heq⟩ := Option.map_eq_some_iff.1 h
    obtain ⟨rfl, rfl⟩ := Prod.mk.inj heq
    obtain ⟨hfs, hfs'⟩ := (fracPart_sound hfrac).plain
    obtain ⟨hxs, hxs'⟩ := (expPart_sound hexp).plain
    have h₁ := fracPart_append hfrac
    have h₂ := expPart_append hexp
    subst h₁ h₂
    refine ⟨nofun, m ++ ds ++ fs ++ xs, r₂, ?_, rfl, (hpre.append hfs).append hxs, ?_⟩
    · rw [← hsign, hcs']
      simp only [List.append_assoc]
    · rw [endsAlnum_append, endsAlnum_append, hends, hfs', hxs']

theorem scanIdent_plain {c : UInt8} {cs : Bytes} (hc : isAlpha c = true)
    (h : scanIdent (c :: cs) = some (t, rest)) :
    t ≠ .eof ∧ ∃ pre r, c :: cs = pre ++ r ∧ rest = dropNul r ∧ Plain pre ∧
      endsAlnum false pre = true := by
  have hall : ∀ x ∈ (c :: cs).takeWhile isAlpha, isAlpha x = true :=
    fun _ hx => List.mem_takeWhile_imp hx
  unfold scanIdent identToken at h
  have hrest : t ≠ .eof ∧ rest = dropNul ((c :: cs).dropWhile isAlpha) := by
    split_ifs at h
    all_goals
      obtain ⟨rfl, rfl⟩ := Prod.mk.inj (Option.some.inj h)
      exact ⟨nofun, rfl⟩
  refine ⟨hrest.1, _, _, List.takeWhile_append_dropWhile.symm, hrest.2, ?_,
    endsAlnum_of_all false ?_ fun x hx => isAlnum_of_alpha x (hall x hx)⟩
  · intro x hx
    have halpha := hall x hx
    constructor
    · rintro rfl
      cases halpha
    · rintro rfl
      cases halpha
  · rw [List.takeWhile_cons_of_pos hc]
    exact List.cons_ne_nil _ _

/-- A 0 that is not lost stays in the text. -/
theorem scan_stuck (h : spaced (.out false) text = none) (hscan : scan e bad text = some (t, rest)) :
    t ≠ .eof ∧ spaced (.out false) rest = none := by
  have hinp : spaced (.out false) (text.dropWhile isSpace) = none := by
    have hspace : ∀ ws : Bytes, (∀ c ∈ ws, isSpace c = true) → Plain ws ∧ endsAlnum false ws = false := by
      intro ws hws
      induction ws with
      | nil => exact ⟨by simp [Plain], rfl⟩
      | cons w ws ih =>
        obtain ⟨hw, htail⟩ := List.forall_mem_cons.1 hws
        obtain ⟨h₁, h₂⟩ := ih htail
        simp only [isSpace, Bool.or_eq_true, beq_iff_eq] at hw
        refine ⟨List.forall_mem_cons.2 ⟨?_, h₁⟩, ?_⟩
        · rcases hw with ((rfl | rfl) | rfl) | rfl <;> decide
        · rcases hw with ((rfl | rfl) | rfl) | rfl <;> exact h₂
    obtain ⟨hplain, hends⟩ := hspace (text.takeWhile isSpace) fun _ hx => List.mem_takeWhile_imp hx
    rw [← @List.takeWhile_append_dropWhile _ isSpace text, spaced_plain hplain, hends,
      Option.map_eq_none_iff] at h
    exact h
  unfold scan at hscan
  generalize text.dropWhile isSpace = inp at hinp hscan
  cases inp with
  | nil => cases hinp
  | cons c cs =>
    dsimp only at hscan
    split_ifs at hscan with hp hq hn ha
    · obtain ⟨rfl, rfl⟩ := Prod.mk.inj (Option.some.inj hscan)
      obtain ⟨hal, h0, hq⟩ := isAlnum_punct hp
      rw [spaced, if_neg h0, if_neg hq, hal, Option.map_eq_none_iff] at hinp
      exact ⟨by simp, hinp⟩
    · subst hq
      rw [spaced, if_neg (by decide), if_pos rfl, Option.map_eq_none_iff] at hinp
      unfold scanString at hscan
      obtain ⟨⟨raw, r⟩, hbody, hscan⟩ := Option.bind_eq_some_iff.1 hscan
      rw [spaced_strBody hbody, Option.map_eq_none_iff] at hinp
      dsimp only at hscan
      split at hscan
      · cases hscan
      · obtain ⟨rfl, rfl⟩ := Prod.mk.inj (Option.some.inj hscan)
        exact ⟨by simp, hinp⟩
    · obtain ⟨hne, pre, r, heq, rfl, hplain, hends⟩ := scanNumber_plain hscan
      rw [heq] at hinp
      exact ⟨hne, stuck_number hplain hends hinp⟩
    · obtain ⟨hne, pre, r, heq, rfl, hplain, hends⟩ := scanIdent_plain ha hscan
      rw [heq] at hinp
      exact ⟨hne, stuck_number hplain hends hinp⟩

/-- The end of the text is not reached before a byte that is not valid. -/
theorem scan_bad (hscan : scan e true text = some (t, rest)) : t ≠ .eof := by
  unfold scan at hscan
  generalize text.dropWhile isSpace = inp at hscan
  cases inp with
  | nil => cases hscan
  | cons c cs =>
    dsimp only at hscan
    split_ifs at hscan with hp hq hn ha
    · obtain ⟨rfl, -⟩ := Prod.mk.inj (Option.some.inj hscan)
      nofun
    · unfold scanString at hscan
      obtain ⟨⟨raw, r⟩, -, hscan⟩ := Option.bind_eq_some_iff.1 hscan
      dsimp only at hscan
      split at hscan
      · cases hscan
      · obtain ⟨rfl, -⟩ := Prod.mk.inj (Option.some.inj hscan)
        nofun
    · exact (scanNumber_plain hscan).1
    · exact (scanIdent_plain ha hscan).1

end

/-! ## Runs on a buffer -/

section
variable {R : Type} {strtod : Bytes → Option R} {flags : LoadFlags} {buffer : Bytes}

/-- `json_loadb` reads the text that has a space for each 0. -/
theorem jsonLoadb_eq_some_iff (he : flags.disableEofCheck = false) {v : Json R} :
    jsonLoadb strtod flags buffer = some v ↔
      ∃ text, spaced (.out false) buffer = some text ∧ JsonText strtod flags v text := by
  constructor
  · intro h
    obtain ⟨text, bad, hsplit⟩ := split_exists buffer
    unfold jsonLoadb at h
    rw [load_eq (gives_bufferGet buffer) hsplit] at h
    cases bad with
    | true =>
      rw [@textJson_none _ _ _ _ _ (fun _ => True) he (fun _ hs => ⟨scan_bad hs, trivial⟩)
        trivial] at h
      cases h
    | false =>
      obtain rfl := hsplit.eq_of_not_bad
      cases hsp : spaced (.out false) text with
      | none =>
        rw [@textJson_none _ _ _ _ _ (fun r => spaced (.out false) r = none) he scan_stuck hsp] at h
        cases h
      | some text' =>
        have hfollows : Follows text text' := Out.follows hsp
        have hclean : Clean text' := ⟨(spaced_valid hsp).2 hsplit.valid, spaced_nul hsp⟩
        rw [textJson_rel Follows.scan hfollows] at h
        exact ⟨text', rfl, (textJson_sound he hclean h).2⟩
  · rintro ⟨text, hsp, htext⟩
    have hvalid : Valid buffer := (spaced_valid hsp).1 htext.valid
    have hfollows : Follows buffer text := Out.follows hsp
    unfold jsonLoadb
    rw [load_eq (gives_bufferGet buffer) (split_of_valid hvalid),
      textJson_rel Follows.scan hfollows]
    refine textJson_complete he ?_ htext
    rw [← (spaced_same hsp).length_eq]
    exact Nat.lt_succ_self _

end

/-- **`json_loadb` rejects a buffer with a 0, and otherwise returns what `json_loads`
    returns, unless every 0 stands outside of strings, directly after a letter or a digit,
    and the buffer with spaces in their places is a JSON text.** -/
theorem jsonLoadb_nul_iff {R : Type} (strtod : Bytes → Option R) (flags : LoadFlags)
    (he : flags.disableEofCheck = false) (buffer : Bytes) :
    ((0 ∈ buffer → jsonLoadb strtod flags buffer = none) ∧
      (0 ∉ buffer → jsonLoadb strtod flags buffer = jsonLoads strtod flags buffer)) ↔
    ¬ (0 ∈ buffer ∧ ∃ text v, spaced (.out false) buffer = some text ∧
      JsonText strtod flags v text) := by
  constructor
  · rintro ⟨hrej, -⟩ ⟨h0, text, v, hsp, htext⟩
    have hsome := (jsonLoadb_eq_some_iff he).2 ⟨text, hsp, htext⟩
    rw [hrej h0] at hsome
    cases hsome
  · intro hno
    refine ⟨fun h0 => ?_, fun h0 => ?_⟩
    · rw [Option.eq_none_iff_forall_ne_some]
      intro v hv
      obtain ⟨text, hsp, htext⟩ := (jsonLoadb_eq_some_iff he).1 hv
      exact hno ⟨h0, text, v, hsp, htext⟩
    · refine Option.ext fun v => ?_
      exact (load_eq_some_iff (gives_bufferGet buffer) h0 he).trans
        (load_eq_some_iff (gives_stringGet h0) h0 he).symm

/-- Two bytes 0 after a number. -/
theorem jsonLoadb_nul_iff_twice :
    ({} : LoadFlags).disableEofCheck = false ∧ 0 ∈ ([0x5B, 0x31, 0, 0, 0x5D] : Bytes) ∧
      jsonLoadb (fun _ => (none : Option Unit)) {} [0x5B, 0x31, 0, 0, 0x5D] = none := by
  have h0 : 0 ∈ ([0x5B, 0x31, 0, 0, 0x5D] : Bytes) := by decide
  refine ⟨rfl, h0, ((jsonLoadb_nul_iff _ {} rfl _).2 ?_).1 h0⟩
  rintro ⟨-, text, v, hsp, -⟩
  have hnone : spaced (.out false) [0x5B, 0x31, 0, 0, 0x5D] = none := by decide
  rw [hnone] at hsp
  cases hsp

/-- A 0 after a number is lost. -/
theorem jsonLoadb_nul_accepted :
    ¬ ((0 ∈ ([0x5B, 0x31, 0, 0x5D] : Bytes) →
        jsonLoadb (fun _ => (none : Option Unit)) {} [0x5B, 0x31, 0, 0x5D] = none) ∧
      (0 ∉ ([0x5B, 0x31, 0, 0x5D] : Bytes) →
        jsonLoadb (fun _ => (none : Option Unit)) {} [0x5B, 0x31, 0, 0x5D] =
          jsonLoads (fun _ => none) {} [0x5B, 0x31, 0, 0x5D])) := by
  rintro ⟨hrej, -⟩
  have hsome : (jsonLoadb (fun _ => (none : Option Unit)) {} [0x5B, 0x31, 0, 0x5D]).isSome = true := by
    decide +kernel
  rw [hrej (by decide)] at hsome
  cases hsome

end Jansson
