/-
  The tokens of a text. `scan` is the lexical analyzer on lists of bytes; `lex_scan` on a stream
  that gives the text finds the same token and leaves the same rest.

  A number or an identifier is read up to the first byte after it, which is put back: a 0 there is
  lost (`dropNul`).
-/
import IotLib.Jansson.Stream

namespace Jansson

/-! ## Tokens on lists -/

/-- A sign, if there is one. -/
def sign (p : UInt8 → Bool) : Bytes → Bytes × Bytes
  | [] => ([], [])
  | c :: cs => if p c then ([c], cs) else ([], c :: cs)

/-- The digits before the point: 0, or digits that do not begin with 0. -/
def intPart : Bytes → Option (Bytes × Bytes)
  | [] => none
  | c :: cs =>
    if c = 0x30 then if (cs.takeWhile isDigit) = [] then some ([c], cs) else none
    else if isDigit c then some (c :: cs.takeWhile isDigit, cs.dropWhile isDigit)
    else none

/-- Digits, at least one. -/
def digitsPart (cs : Bytes) : Option (Bytes × Bytes) :=
  if cs.takeWhile isDigit = [] then none else some (cs.takeWhile isDigit, cs.dropWhile isDigit)

def fracPart : Bytes → Option (Bytes × Bytes)
  | [] => some ([], [])
  | c :: cs =>
    if c = 0x2E then (digitsPart cs).map fun (ds, r) => (c :: ds, r) else some ([], c :: cs)

def isExp (c : UInt8) : Bool := c == 0x45 || c == 0x65

def isSign (c : UInt8) : Bool := c == 0x2B || c == 0x2D

def expPart : Bytes → Option (Bytes × Bytes)
  | [] => some ([], [])
  | c :: cs =>
    if isExp c then
      (digitsPart (sign isSign cs).2).map fun (ds, r) => (c :: ((sign isSign cs).1 ++ ds), r)
    else some ([], c :: cs)

/-- The end of a string: its text with the closing quote, and what follows. -/
def strBody : Bytes → Option (Bytes × Bytes)
  | [] => none
  | c :: cs =>
    if c = 0x22 then some ([c], cs)
    else if c.toNat ≤ 0x1F then none
    else if c = 0x5C then
      match cs with
      | [] => none
      | x :: cs =>
        if x = 0x75 then
          match cs with
          | h₁ :: h₂ :: h₃ :: h₄ :: cs =>
            if isXdigit h₁ && isXdigit h₂ && isXdigit h₃ && isXdigit h₄ then
              (strBody cs).map fun (raw, r) => (c :: x :: h₁ :: h₂ :: h₃ :: h₄ :: raw, r)
            else none
          | _ => none
        else if (unescape x).isSome then (strBody cs).map fun (raw, r) => (c :: x :: raw, r)
        else none
    else (strBody cs).map fun (raw, r) => (c :: raw, r)

theorem sign_append (p : UInt8 → Bool) (cs : Bytes) : (sign p cs).1 ++ (sign p cs).2 = cs := by
  cases cs with
  | nil => rfl
  | cons c cs =>
    rw [sign]
    split_ifs <;> rfl

variable {cs ds r : Bytes}

theorem digitsPart_append (h : digitsPart cs = some (ds, r)) : cs = ds ++ r := by
  unfold digitsPart at h
  split_ifs at h
  obtain ⟨rfl, rfl⟩ := Prod.mk.inj (Option.some.inj h)
  exact List.takeWhile_append_dropWhile.symm

theorem intPart_append (h : intPart cs = some (ds, r)) : cs = ds ++ r := by
  cases cs with
  | nil => cases h
  | cons c cs =>
    rw [intPart] at h
    split_ifs at h
    · obtain ⟨rfl, rfl⟩ := Prod.mk.inj (Option.some.inj h)
      rfl
    · obtain ⟨rfl, rfl⟩ := Prod.mk.inj (Option.some.inj h)
      rw [List.cons_append, List.takeWhile_append_dropWhile]

theorem fracPart_append (h : fracPart cs = some (ds, r)) : cs = ds ++ r := by
  cases cs with
  | nil =>
    obtain ⟨rfl, rfl⟩ := Prod.mk.inj (Option.some.inj h)
    rfl
  | cons c cs =>
    rw [fracPart] at h
    split_ifs at h
    · obtain ⟨⟨ds', r'⟩, hd, heq⟩ := Option.map_eq_some_iff.1 h
      obtain ⟨rfl, rfl⟩ := Prod.mk.inj heq
      rw [digitsPart_append hd, List.cons_append]
    · obtain ⟨rfl, rfl⟩ := Prod.mk.inj (Option.some.inj h)
      rfl

theorem expPart_append (h : expPart cs = some (ds, r)) : cs = ds ++ r := by
  cases cs with
  | nil =>
    obtain ⟨rfl, rfl⟩ := Prod.mk.inj (Option.some.inj h)
    rfl
  | cons c cs =>
    rw [expPart] at h
    split_ifs at h
    · obtain ⟨⟨ds', r'⟩, hd, heq⟩ := Option.map_eq_some_iff.1 h
      obtain ⟨rfl, rfl⟩ := Prod.mk.inj heq
      rw [List.cons_append, List.append_assoc, ← digitsPart_append hd, sign_append]
    · obtain ⟨rfl, rfl⟩ := Prod.mk.inj (Option.some.inj h)
      rfl

section
variable {R δ : Type} (e : Conf R δ)

def scanString (cs : Bytes) : Option (Token R × Bytes) :=
  (strBody cs).bind fun (raw, r) =>
    match decodeString raw with
    | .error _ => none
    | .ok value => some (.string value, r)

/-- What follows the digits of an integer. -/
def endsInt (cs : Bytes) : Bool :=
  match cs with
  | [] => true
  | c :: _ => c != 0x2E && !isExp c

def scanNumber (cs : Bytes) : Option (Token R × Bytes) :=
  let (minus, cs) := sign (· == 0x2D) cs
  (intPart cs).bind fun (ds, r) =>
    if !e.flags.decodeIntAsReal && endsInt r then
      (jsonStrtoint (minus ++ ds)).map fun value => (.integer value, dropNul r)
    else
      (fracPart r).bind fun (fs, r) =>
        (expPart r).bind fun (xs, r) =>
          (e.strtod (minus ++ ds ++ fs ++ xs)).map fun value => (.real value, dropNul r)

def scanIdent (cs : Bytes) : Option (Token R × Bytes) :=
  match identToken (cs.takeWhile isAlpha) with
  | .invalid => none
  | t => some (t, dropNul (cs.dropWhile isAlpha))

/-- The first token of a text, and what follows; none for an invalid one. -/
def scan (bad : Bool) (text : Bytes) : Option (Token R × Bytes) :=
  match text.dropWhile isSpace with
  | [] => if bad then none else some (.eof, [])
  | c :: cs =>
    if isPunct c then some (.punct c, cs)
    else if c = 0x22 then scanString cs
    else if isDigit c || c == 0x2D then scanNumber e (c :: cs)
    else if isAlpha c then scanIdent (c :: cs)
    else none

/-! ## The lexer on a stream -/

/-- The lexer has the token `t` and the saved text, and its stream gives `text`. -/
structure Lex.At (lex : Lex R δ) (t : Token R) (saved text : Bytes) (bad : Bool) : Prop where
  stream : lex.stream.At e.get text bad
  saved : lex.savedText = saved
  token : lex.token = t

/-- `c` was read from `text` and saved. -/
structure Lex.Looked (lex : Lex R δ) (c : Got) (t : Token R) (saved text : Bytes) (bad : Bool) :
    Prop where
  stream : lex.stream.Looked e.get c text bad
  saved : lex.savedText = saved ++ (match c with | .byte c => [c] | .eof | .error => [])
  token : lex.token = t

/-- The result of scanning. -/
def Lex.Scanned (lex : Lex R δ) (bad : Bool) : Option (Token R × Bytes) → Prop
  | none => lex.token = .invalid
  | some (t, text) => lex.token = t ∧ lex.stream.At e.get text bad

variable {e}

section
variable {lex : Lex R δ} {c : Got} {t : Token R} {saved text : Bytes} {bad : Bool}

@[simp] theorem errorSet_token (code : ErrorCode) (msg : Bytes) :
    (errorSet lex code msg).token = lex.token := rfl

@[simp] theorem errorSet_stream (code : ErrorCode) (msg : Bytes) :
    (errorSet lex code msg).stream = lex.stream := rfl

@[simp] theorem errorSet_savedText (code : ErrorCode) (msg : Bytes) :
    (errorSet lex code msg).savedText = lex.savedText := rfl

theorem lexGet_spec (h : lex.At e t saved text bad) :
    (lexGet e lex).2.stream.Looked e.get (lexGet e lex).1 text bad ∧
      (lexGet e lex).2.savedText = saved ∧ (lexGet e lex).2.token = t := by
  have hl := streamGet_looked h.stream
  unfold lexGet
  generalize streamGet e.get lex.stream = r at hl ⊢
  dsimp only
  split_ifs
  · exact ⟨hl, h.saved, h.token⟩
  · exact ⟨hl, h.saved, h.token⟩

theorem lexGetSave_looked (h : lex.At e t saved text bad) :
    (lexGetSave e lex).2.Looked e (lexGetSave e lex).1 t saved text bad := by
  obtain ⟨h₁, h₂, h₃⟩ := lexGet_spec h
  unfold lexGetSave
  split
  · rename_i b lex' heq
    rw [heq] at h₁ h₂ h₃
    refine ⟨h₁, ?_, h₃⟩
    change lex'.savedText ++ [b] = saved ++ [b]
    rw [h₂]
  · rename_i c lex' hb heq
    rw [heq] at h₁ h₂ h₃
    refine ⟨h₁, ?_, h₃⟩
    cases c with
    | byte b => exact (hb b rfl).elim
    | eof | error => exact h₂.trans (List.append_nil _).symm

theorem Lex.Looked.advance {b : UInt8} (h : lex.Looked e (.byte b) t saved text bad) :
    ∃ cs, text = b :: cs ∧ lex.At e t (saved ++ [b]) cs bad := by
  obtain ⟨cs, rfl, hat, -⟩ := h.stream
  exact ⟨cs, rfl, hat, h.saved, h.token⟩

theorem Lex.Looked.unget (h : lex.Looked e c t saved text bad) :
    (lexUngetUnsave lex c).At e t saved (dropNul text) bad := by
  have hat := streamUnget_at h.stream
  have hs := h.saved
  cases c with
  | byte b =>
    refine ⟨hat, ?_, h.token⟩
    change lex.savedText.dropLast = saved
    rw [hs]
    exact List.dropLast_concat
  | eof => exact ⟨hat, hs.trans (List.append_nil _), h.token⟩
  | error => exact ⟨hat, hs.trans (List.append_nil _), h.token⟩

/-- The byte that was read is the first one. -/
theorem Lex.Looked.is_iff (h : lex.Looked e c t saved text bad) (p : UInt8 → Bool) :
    c.is p = true ↔ ∃ b cs, text = b :: cs ∧ c = .byte b ∧ p b = true := by
  cases c with
  | byte b =>
    obtain ⟨cs, rfl, -⟩ := h.stream
    refine ⟨fun hp => ⟨b, cs, rfl, rfl, hp⟩, ?_⟩
    rintro ⟨b', cs', -, hb, hp⟩
    obtain rfl := Got.byte.inj hb
    exact hp
  | eof | error =>
    refine ⟨fun hp => (by cases hp), ?_⟩
    rintro ⟨b', cs', -, hb, hp⟩
    cases hb

variable {cs : Bytes}

theorem Lex.Looked.not_head {p : UInt8 → Bool} {b : UInt8}
    (h : lex.Looked e c t saved (b :: cs) bad) (hp : ¬ c.is p = true) : ¬ p b = true := by
  intro hb
  refine hp ((h.is_iff p).2 ⟨b, cs, rfl, ?_, hb⟩)
  cases c with
  | byte b' =>
    obtain ⟨cs', heq, -⟩ := h.stream
    rw [(List.cons.inj heq).1]
  | eof | error => exact absurd h.stream.1 (List.cons_ne_nil _ _)

theorem Lex.Looked.takeWhile_nil {p : UInt8 → Bool} (h : lex.Looked e c t saved text bad)
    (hp : ¬ c.is p = true) : text.takeWhile p = [] := by
  cases text with
  | nil => rfl
  | cons b cs => exact List.takeWhile_cons_of_neg (h.not_head hp)

/-- The loops over digits and letters. -/
theorem lexGetSaveWhile_looked (p : UInt8 → Bool) : ∀ (n : Nat) {lex : Lex R δ} {saved text : Bytes},
    text.length < n → lex.At e t saved text bad →
    (lexGetSaveWhile e p n lex).2.Looked e (lexGetSaveWhile e p n lex).1 t
      (saved ++ text.takeWhile p) (text.dropWhile p) bad
  | 0, _, _, _, hn, _ => absurd hn (Nat.not_lt_zero _)
  | n + 1, lex, saved, text, hn, h => by
    have hl := lexGetSave_looked h
    rw [lexGetSaveWhile]
    generalize lexGetSave e lex = r at hl ⊢
    obtain ⟨c, lex'⟩ := r
    dsimp only at hl ⊢
    split_ifs with hp
    · obtain ⟨b, cs, rfl, rfl, hb⟩ := (hl.is_iff p).1 hp
      obtain ⟨cs', heq, hat⟩ := hl.advance
      obtain ⟨-, rfl⟩ := List.cons.inj heq
      have ih := lexGetSaveWhile_looked p n (Nat.lt_of_succ_lt_succ hn) hat
      rw [List.takeWhile_cons_of_pos hb, List.dropWhile_cons_of_pos hb]
      rwa [List.append_assoc] at ih
    · cases text with
      | nil => simpa using hl
      | cons b cs =>
        have hb := hl.not_head hp
        rw [List.takeWhile_cons_of_neg hb, List.dropWhile_cons_of_neg hb, List.append_nil]
        exact hl

theorem Lex.Looked.cases (h : lex.Looked e c t saved text bad) :
    (∃ b cs, c = .byte b ∧ text = b :: cs ∧ lex.At e t (saved ++ [b]) cs bad) ∨
      (text = [] ∧ ∀ b, c ≠ .byte b) := by
  cases c with
  | byte b =>
    obtain ⟨cs, rfl, hat⟩ := h.advance
    exact Or.inl ⟨b, cs, rfl, rfl, hat⟩
  | eof => exact Or.inr ⟨h.stream.1, fun b hb => by cases hb⟩
  | error => exact Or.inr ⟨h.stream.1, fun b hb => by cases hb⟩

/-! ## Numbers -/

/-- The result of reading a part of a number: it fails, or the byte after the part has been read. -/
def Part (e : Conf R δ) (r : Option Got × Lex R δ) (t : Token R) (saved : Bytes) (bad : Bool) :
    Option (Bytes × Bytes) → Prop
  | none => r.1 = none ∧ r.2.token = t
  | some (ds, rest) => ∃ c, r.1 = some c ∧ r.2.Looked e c t (saved ++ ds) rest bad

theorem Part.cases {r : Option Got × Lex R δ} {p : Option (Bytes × Bytes)}
    (h : Part e r t saved bad p) :
    (p = none ∧ ∃ lex, r = (none, lex) ∧ lex.token = t) ∨
      ∃ ds rest c lex, p = some (ds, rest) ∧ r = (some c, lex) ∧
        lex.Looked e c t (saved ++ ds) rest bad := by
  obtain ⟨o, lex⟩ := r
  cases p with
  | none =>
    obtain ⟨h₁, h₂⟩ := h
    exact Or.inl ⟨rfl, lex, Prod.ext h₁ rfl, h₂⟩
  | some p =>
    obtain ⟨c, h₁, h₂⟩ := h
    exact Or.inr ⟨p.1, p.2, c, lex, rfl, Prod.ext h₁ rfl, h₂⟩

theorem unget_token (lex : Lex R δ) (c : Got) : (lexUngetUnsave lex c).token = lex.token := by
  cases c <;> rfl

theorem scanInt_part (hn : text.length < e.steps) (h : lex.Looked e c t saved text bad) :
    Part e (scanInt e c lex) t saved bad (intPart text) := by
  unfold scanInt
  rcases h.cases with ⟨b, cs, rfl, rfl, hat⟩ | ⟨rfl, hc⟩
  · rw [intPart]
    simp only [Got.byte.injEq]
    by_cases h0 : b = 0x30
    · rw [if_pos h0, if_pos h0]
      have hl := lexGetSave_looked hat
      generalize lexGetSave e lex = r at hl ⊢
      obtain ⟨c, lex'⟩ := r
      dsimp only at hl ⊢
      by_cases hd : c.is isDigit = true
      · rw [if_pos hd]
        obtain ⟨b', cs', rfl, -, hb'⟩ := (hl.is_iff isDigit).1 hd
        rw [if_neg (by rw [List.takeWhile_cons_of_pos hb']; exact List.cons_ne_nil _ _)]
        exact ⟨rfl, (unget_token lex' c).trans hl.token⟩
      · rw [if_neg hd]
        rw [if_pos (hl.takeWhile_nil hd)]
        exact ⟨c, rfl, hl⟩
    · rw [if_neg h0, if_neg h0]
      by_cases hd : isDigit b = true
      · rw [if_pos (show (Got.byte b).is isDigit = true from hd), if_pos hd]
        have hl := lexGetSaveWhile_looked isDigit e.steps (Nat.lt_of_succ_lt hn) hat
        refine ⟨_, rfl, ?_⟩
        rwa [List.append_assoc] at hl
      · rw [if_neg (show ¬ (Got.byte b).is isDigit = true from hd), if_neg hd]
        exact ⟨rfl, (unget_token lex _).trans h.token⟩
  · have hnot : ∀ p, c.is p = false := by
      intro p
      cases c with
      | byte b => exact absurd rfl (hc b)
      | eof | error => rfl
    rw [if_neg (hc _), if_neg (by rw [hnot]; decide)]
    exact ⟨rfl, (unget_token lex c).trans h.token⟩

/-- At least one digit, of which the first has been read. -/
theorem scanDigits_part (hn : text.length < e.steps) (h : lex.Looked e c t saved text bad) :
    Part e (if c.is isDigit then
        (some (lexGetSaveWhile e isDigit e.steps lex).1, (lexGetSaveWhile e isDigit e.steps lex).2)
      else (none, lexUngetUnsave lex c)) t saved bad (digitsPart text) := by
  unfold digitsPart
  by_cases hd : c.is isDigit = true
  · rw [if_pos hd]
    obtain ⟨b, cs, rfl, rfl, hb⟩ := (h.is_iff isDigit).1 hd
    obtain ⟨cs', heq, hat⟩ := h.advance
    obtain ⟨-, rfl⟩ := List.cons.inj heq
    rw [List.takeWhile_cons_of_pos hb, List.dropWhile_cons_of_pos hb, if_neg (List.cons_ne_nil _ _)]
    have hl := lexGetSaveWhile_looked isDigit e.steps (Nat.lt_of_succ_lt hn) hat
    refine ⟨_, rfl, ?_⟩
    rwa [List.append_assoc] at hl
  · rw [if_neg hd]
    rw [if_pos (h.takeWhile_nil hd)]
    exact ⟨rfl, (unget_token lex c).trans h.token⟩

theorem scanFrac_part (hn : text.length < e.steps) (h : lex.Looked e c t saved text bad) :
    Part e (scanFrac e c lex) t saved bad (fracPart text) := by
  unfold scanFrac
  rcases h.cases with ⟨b, cs, rfl, rfl, hat⟩ | ⟨rfl, hc⟩
  · rw [fracPart]
    simp only [Got.byte.injEq]
    by_cases hdot : b = 0x2E
    · rw [if_pos hdot, if_pos hdot]
      obtain ⟨h₁, h₂, h₃⟩ := lexGet_spec hat
      generalize lexGet e lex = r at h₁ h₂ h₃ ⊢
      obtain ⟨c, lex'⟩ := r
      dsimp only at h₁ h₂ h₃
      unfold digitsPart
      cases c with
      | byte d =>
        obtain ⟨cs', rfl, hat', -⟩ := h₁
        dsimp only
        by_cases hd : isDigit d = true
        · rw [if_pos hd, List.takeWhile_cons_of_pos hd, List.dropWhile_cons_of_pos hd,
            if_neg (List.cons_ne_nil _ _)]
          have hsave : (lexSave lex' d).At e t (saved ++ [b] ++ [d]) cs' bad :=
            ⟨hat', by rw [← h₂]; rfl, h₃⟩
          have hl := lexGetSaveWhile_looked isDigit e.steps
            (Nat.lt_of_succ_lt (Nat.lt_of_succ_lt hn)) hsave
          refine ⟨_, rfl, ?_⟩
          simpa only [List.append_assoc, List.cons_append, List.nil_append] using hl
        · rw [if_neg hd, List.takeWhile_cons_of_neg hd, if_pos rfl]
          exact ⟨rfl, h₃⟩
      | eof | error =>
        obtain ⟨rfl, -⟩ := h₁
        exact ⟨rfl, h₃⟩
    · rw [if_neg hdot, if_neg hdot]
      exact ⟨_, rfl, by rwa [List.append_nil]⟩
  · rw [if_neg (hc _)]
    exact ⟨_, rfl, by rwa [List.append_nil]⟩

/-- Reading past a sign. -/
theorem sign_looked (h : lex.At e t saved text bad) (p : UInt8 → Bool) :
    (if (lexGetSave e lex).1.is p then lexGetSave e (lexGetSave e lex).2
      else lexGetSave e lex).2.Looked e
      (if (lexGetSave e lex).1.is p then lexGetSave e (lexGetSave e lex).2
        else lexGetSave e lex).1 t (saved ++ (sign p text).1) (sign p text).2 bad := by
  have hl := lexGetSave_looked h
  generalize lexGetSave e lex = r at hl ⊢
  obtain ⟨c, lex'⟩ := r
  dsimp only at hl ⊢
  by_cases hp : c.is p = true
  · rw [if_pos hp]
    obtain ⟨b, cs, rfl, rfl, hb⟩ := (hl.is_iff p).1 hp
    obtain ⟨cs', heq, hat⟩ := hl.advance
    obtain ⟨-, rfl⟩ := List.cons.inj heq
    rw [sign, if_pos hb]
    exact lexGetSave_looked hat
  · rw [if_neg hp]
    cases text with
    | nil => simpa [sign] using hl
    | cons b cs =>
      rw [sign, if_neg (hl.not_head hp)]
      simpa using hl

theorem scanExp_part (hn : text.length < e.steps) (h : lex.Looked e c t saved text bad) :
    Part e (scanExp e c lex) t saved bad (expPart text) := by
  have hexp : ∀ b, (Got.byte b = .byte 0x45 ∨ Got.byte b = .byte 0x65) ↔ isExp b = true := by
    intro b
    simp [isExp]
  have hsign : ∀ c : Got, (c = .byte 0x2B ∨ c = .byte 0x2D) ↔ c.is isSign = true := by
    intro c
    cases c <;> simp [Got.is, isSign]
  unfold scanExp
  rcases h.cases with ⟨b, cs, rfl, rfl, hat⟩ | ⟨rfl, hc⟩
  · rw [expPart]
    by_cases hx : isExp b = true
    · rw [if_pos ((hexp b).2 hx), if_pos hx]
      have hl := sign_looked hat isSign
      simp only [hsign]
      generalize (if (lexGetSave e lex).1.is isSign then lexGetSave e (lexGetSave e lex).2
        else lexGetSave e lex) = r at hl ⊢
      obtain ⟨c, lex'⟩ := r
      have hlen : (sign isSign cs).2.length < e.steps := by
        refine lt_of_le_of_lt ?_ (Nat.lt_of_succ_lt hn)
        cases cs with
        | nil => exact le_rfl
        | cons b' cs' =>
          rw [sign]
          split_ifs
          · exact Nat.le_succ _
          · exact le_rfl
      have hp := scanDigits_part hlen hl
      dsimp only at hp ⊢
      generalize digitsPart (sign isSign cs).2 = dp at hp ⊢
      cases dp with
      | none => exact hp
      | some dp =>
        obtain ⟨ds, r⟩ := dp
        obtain ⟨c', h₁, h₂⟩ := hp
        refine ⟨c', h₁, ?_⟩
        simpa only [List.append_assoc, List.cons_append, List.nil_append] using h₂
    · rw [if_neg fun hb => hx ((hexp b).1 hb), if_neg hx]
      exact ⟨_, rfl, by rwa [List.append_nil]⟩
  · rw [if_neg fun hor => hor.elim (hc _) (hc _)]
    exact ⟨_, rfl, by rwa [List.append_nil]⟩

/-- What ends an integer, by the byte that was read. -/
theorem Lex.Looked.endsInt (h : lex.Looked e c t saved text bad) :
    (c ≠ .byte 0x2E && c ≠ .byte 0x45 && c ≠ .byte 0x65) = endsInt text := by
  rcases h.cases with ⟨b, cs, rfl, rfl, -⟩ | ⟨rfl, hc⟩
  · simp [Jansson.endsInt, isExp, Bool.and_assoc, bne, Bool.beq_eq_decide_eq]
  · simp [Jansson.endsInt, hc]

theorem minus_looked {b : UInt8} (h : lex.Looked e (.byte b) t [] (b :: cs) bad) :
    ∃ c lex', (if b = 0x2D then lexGetSave e lex else (.byte b, lex)) = (c, lex') ∧
      lex'.Looked e c t (sign (· == 0x2D) (b :: cs)).1 (sign (· == 0x2D) (b :: cs)).2 bad := by
  rw [sign]
  by_cases hm : b = 0x2D
  · rw [if_pos hm, if_pos (by rw [hm]; rfl)]
    obtain ⟨cs', heq, hat⟩ := h.advance
    obtain ⟨-, rfl⟩ := List.cons.inj heq
    exact ⟨_, _, rfl, lexGetSave_looked hat⟩
  · rw [if_neg hm, if_neg (by simpa using hm)]
    exact ⟨_, _, rfl, h⟩

theorem lexScanNumber_scanned {b : UInt8} (hn : (b :: cs).length < e.steps)
    (h : lex.Looked e (.byte b) t [] (b :: cs) bad) :
    (lexScanNumber e b lex).Scanned e bad (scanNumber e (b :: cs)) := by
  have h₀ : ({ lex with token := .invalid } : Lex R δ).Looked e (.byte b) .invalid [] (b :: cs) bad :=
    ⟨h.stream, h.saved, rfl⟩
  obtain ⟨c, lex₁, heq₁, h₁⟩ := minus_looked h₀
  have happ := sign_append (· == 0x2D) (b :: cs)
  unfold lexScanNumber scanNumber
  dsimp only
  rw [heq₁]
  dsimp only
  generalize sign (· == 0x2D) (b :: cs) = sg at h₁ happ ⊢
  obtain ⟨minus, cs₁⟩ := sg
  dsimp only at h₁ happ ⊢
  have hn₁ : cs₁.length < e.steps := by
    rw [← happ, List.length_append] at hn
    omega
  rcases (scanInt_part hn₁ h₁).cases with ⟨hi, lex₂, heq₂, h₂⟩ | ⟨ds, r₂, c₂, lex₂, hi, heq₂, h₂⟩
  · rw [hi, heq₂]
    exact h₂
  rw [hi, heq₂]
  dsimp only [Option.bind_some]
  rw [Bool.and_assoc, Bool.and_assoc, ← Bool.and_assoc (decide (c₂ ≠ _)), h₂.endsInt]
  have hn₂ : r₂.length < e.steps := by
    rw [intPart_append hi, List.length_append] at hn₁
    omega
  by_cases hint : (!e.flags.decodeIntAsReal && endsInt r₂) = true
  · rw [if_pos hint, if_pos hint]
    have hu := h₂.unget
    rw [hu.saved]
    cases jsonStrtoint (minus ++ ds) with
    | none => exact hu.token
    | some v => exact ⟨rfl, hu.stream⟩
  rw [if_neg hint, if_neg hint]
  rcases (scanFrac_part hn₂ h₂).cases with ⟨hf, lex₃, heq₃, h₃⟩ | ⟨fs, r₃, c₃, lex₃, hf, heq₃, h₃⟩
  · rw [hf, heq₃]
    exact h₃
  rw [hf, heq₃]
  dsimp only [Option.bind_some]
  have hn₃ : r₃.length < e.steps := by
    rw [fracPart_append hf, List.length_append] at hn₂
    omega
  rcases (scanExp_part hn₃ h₃).cases with ⟨hx, lex₄, heq₄, h₄⟩ | ⟨xs, r₄, c₄, lex₄, hx, heq₄, h₄⟩
  · rw [hx, heq₄]
    exact h₄
  rw [hx, heq₄]
  dsimp only [Option.bind_some]
  have hu := h₄.unget
  rw [hu.saved]
  cases e.strtod (minus ++ ds ++ fs ++ xs) with
  | none => exact hu.token
  | some v => exact ⟨rfl, hu.stream⟩

/-! ## Strings -/

/-- The digits of an escape are there, or one is missing. -/
theorem scanHex_spec : ∀ (i : Nat) {c : Got} {lex : Lex R δ} {saved text : Bytes},
    lex.Looked e c t saved text bad →
    (∃ hs rest c' lex', hs.length = i ∧ (∀ h ∈ hs, isXdigit h = true) ∧ text = hs ++ rest ∧
      scanHex e i c lex = (some c', lex') ∧ lex'.Looked e c' t (saved ++ hs) rest bad) ∨
    ∃ lex', scanHex e i c lex = (none, lex') ∧ lex'.token = t ∧
      ¬ ∃ hs rest, hs.length = i ∧ (∀ h ∈ hs, isXdigit h = true) ∧ text = hs ++ rest
  | 0, c, lex, saved, text, h => by
    refine Or.inl ⟨[], text, c, lex, rfl, fun _ hh => absurd hh List.not_mem_nil, rfl, rfl, ?_⟩
    rwa [List.append_nil]
  | i + 1, c, lex, saved, text, h => by
    rw [scanHex]
    by_cases hx : c.is isXdigit = true
    · rw [if_pos hx]
      obtain ⟨b, cs, rfl, rfl, hb⟩ := (h.is_iff isXdigit).1 hx
      obtain ⟨cs', heq, hat⟩ := h.advance
      obtain ⟨-, rfl⟩ := List.cons.inj heq
      rcases scanHex_spec i (lexGetSave_looked hat) with
        ⟨hs, rest, c', lex', hlen, hall, rfl, heq, hl⟩ | ⟨lex', heq, ht, hno⟩
      · refine Or.inl ⟨b :: hs, rest, c', lex', by rw [List.length_cons, hlen], ?_, rfl, heq, ?_⟩
        · exact List.forall_mem_cons.2 ⟨hb, hall⟩
        · rwa [List.append_assoc] at hl
      · refine Or.inr ⟨lex', heq, ht, ?_⟩
        rintro ⟨hs, rest, hlen, hall, heq'⟩
        cases hs with
        | nil => cases hlen
        | cons h hs =>
          obtain ⟨rfl, rfl⟩ := List.cons.inj heq'
          exact hno ⟨hs, rest, Nat.succ.inj hlen, fun x hx => hall x (List.mem_cons_of_mem _ hx), rfl⟩
    · rw [if_neg hx]
      refine Or.inr ⟨_, rfl, h.token, ?_⟩
      rintro ⟨hs, rest, hlen, hall, rfl⟩
      cases hs with
      | nil => cases hlen
      | cons b hs => exact h.not_head hx (hall b List.mem_cons_self)

theorem length_four {hs : Bytes} (h : hs.length = 4) :
    ∃ h₁ h₂ h₃ h₄, hs = [h₁, h₂, h₃, h₄] := by
  match hs, h with
  | [h₁, h₂, h₃, h₄], _ => exact ⟨h₁, h₂, h₃, h₄, rfl⟩

/-- The result of the first loop over a string. -/
def Body (e : Conf R δ) (r : Bool × Lex R δ) (t : Token R) (saved : Bytes) (bad : Bool) :
    Option (Bytes × Bytes) → Prop
  | none => r.1 = false ∧ r.2.token = t
  | some (raw, rest) => r.1 = true ∧ r.2.At e t (saved ++ raw) rest bad

theorem Body.map {r : Bool × Lex R δ} {o : Option (Bytes × Bytes)} {pre : Bytes}
    (h : Body e r t (saved ++ pre) bad o) :
    Body e r t saved bad (o.map fun (raw, rest) => (pre ++ raw, rest)) := by
  cases o with
  | none => exact h
  | some p =>
    obtain ⟨h₁, h₂⟩ := h
    refine ⟨h₁, ?_⟩
    rwa [List.append_assoc] at h₂

theorem scanBody_body : ∀ (n : Nat) {c : Got} {lex : Lex R δ} {saved text : Bytes},
    text.length < n → lex.Looked e c t saved text bad →
    Body e (scanBody e n c lex) t saved bad (strBody text)
  | 0, _, _, _, _, hn, _ => absurd hn (Nat.not_lt_zero _)
  | n + 1, c, lex, saved, text, hn, h => by
    rcases h.cases with ⟨b, cs, rfl, rfl, hat⟩ | ⟨rfl, hc⟩
    · have hcs : cs.length < n := Nat.lt_of_succ_lt_succ hn
      rw [scanBody, strBody.eq_def]
      dsimp only
      by_cases hq : b = 0x22
      · rw [if_pos hq, if_pos hq]
        exact ⟨rfl, hat⟩
      rw [if_neg hq, if_neg hq]
      by_cases hctl : b.toNat ≤ 0x1F
      · rw [if_pos hctl, if_pos hctl]
        exact ⟨rfl, (unget_token lex _).trans h.token⟩
      rw [if_neg hctl, if_neg hctl]
      have hl := lexGetSave_looked hat
      by_cases hesc : b = 0x5C
      · rw [if_pos hesc, if_pos hesc]
        generalize lexGetSave e lex = r at hl ⊢
        obtain ⟨c, lex'⟩ := r
        dsimp only at hl ⊢
        rcases hl.cases with ⟨x, cs', rfl, rfl, hat'⟩ | ⟨rfl, hc⟩
        · have hcs' : cs'.length < n := Nat.lt_of_succ_lt hcs
          simp only [Got.byte.injEq]
          by_cases hu : x = 0x75
          · rw [if_pos hu, if_pos hu]
            rcases scanHex_spec 4 (lexGetSave_looked hat') with
              ⟨hs, rest, c', lex₂, hlen, hall, rfl, heq, hl'⟩ | ⟨lex₂, heq, ht, hno⟩
            · rw [heq]
              obtain ⟨h₁, h₂, h₃, h₄, rfl⟩ := length_four hlen
              have hrest : rest.length < n := by
                rw [List.length_append] at hcs'
                omega
              have hx : (isXdigit h₁ && isXdigit h₂ && isXdigit h₃ && isXdigit h₄) = true := by
                simp only [hall, List.mem_cons, true_or, or_true, Bool.and_self]
              simp only [List.cons_append, List.nil_append]
              rw [if_pos hx]
              have ih := scanBody_body n hrest hl'
              rw [List.append_assoc, List.append_assoc] at ih
              exact ih.map
            · rw [heq]
              dsimp only
              split
              · rename_i h₁ h₂ h₃ h₄ rest
                split_ifs with hx
                · refine absurd ⟨[h₁, h₂, h₃, h₄], rest, rfl, ?_, rfl⟩ hno
                  simpa [and_assoc] using hx
                · exact ⟨rfl, ht⟩
              · exact ⟨rfl, ht⟩
          · rw [if_neg hu, if_neg hu]
            change Body e (if (unescape x).isSome = true then _ else _) t saved bad _
            split_ifs with hx
            · have ih := scanBody_body n hcs' (lexGetSave_looked hat')
              rw [List.append_assoc] at ih
              exact ih.map
            · exact ⟨rfl, hl.token⟩
        · rw [if_neg (hc _), if_neg]
          · exact ⟨rfl, hl.token⟩
          · cases c with
            | byte b => exact absurd rfl (hc b)
            | eof | error => exact Bool.false_ne_true
      · rw [if_neg hesc, if_neg hesc]
        exact (scanBody_body n hcs hl).map
    · cases c with
      | byte b => exact absurd rfl (hc b)
      | eof => exact ⟨rfl, h.token⟩
      | error => exact ⟨rfl, h.token⟩

theorem lexScanString_scanned (hn : cs.length < e.steps)
    (h : lex.At e t [0x22] cs bad) : (lexScanString e lex).Scanned e bad (scanString cs) := by
  have h₀ : ({ lex with token := .invalid } : Lex R δ).At e .invalid [0x22] cs bad :=
    ⟨h.stream, h.saved, rfl⟩
  have hb := scanBody_body e.steps hn (lexGetSave_looked h₀)
  unfold lexScanString scanString
  dsimp only
  generalize scanBody e e.steps _ _ = r at hb ⊢
  obtain ⟨ok, lex'⟩ := r
  cases hs : strBody cs with
  | none =>
    rw [hs] at hb
    obtain ⟨rfl, ht⟩ := hb
    exact ht
  | some p =>
    obtain ⟨raw, rest⟩ := p
    rw [hs] at hb
    obtain ⟨rfl, hat⟩ := hb
    dsimp only [Option.bind_some]
    rw [hat.saved, List.cons_append, List.nil_append, List.drop_succ_cons, List.drop_zero]
    cases decodeString raw with
    | error msg => exact hat.token
    | ok value => exact ⟨rfl, hat.stream⟩

/-! ## Tokens -/

theorem lexIdent_scanned {b : UInt8} (hn : cs.length < e.steps)
    (hb : isAlpha b = true) (h : lex.At e t [b] cs bad) :
    ({ lexUngetUnsave (lexGetSaveWhile e isAlpha e.steps lex).2
        (lexGetSaveWhile e isAlpha e.steps lex).1 with
      token := identToken (lexUngetUnsave (lexGetSaveWhile e isAlpha e.steps lex).2
        (lexGetSaveWhile e isAlpha e.steps lex).1).savedText } : Lex R δ).Scanned e bad
      (scanIdent (b :: cs)) := by
  have hu := (lexGetSaveWhile_looked isAlpha e.steps hn h).unget
  unfold scanIdent
  rw [hu.saved, List.takeWhile_cons_of_pos hb, List.dropWhile_cons_of_pos hb, List.cons_append,
    List.nil_append]
  split
  · rename_i heq
    exact heq
  · exact ⟨rfl, hu.stream⟩

theorem lexSkip_looked : ∀ (n : Nat) {lex : Lex R δ} {text : Bytes}, text.length < n →
    lex.At e t saved text bad →
    (lexSkip e n lex).2.stream.Looked e.get (lexSkip e n lex).1 (text.dropWhile isSpace) bad ∧
      (lexSkip e n lex).2.savedText = saved ∧ (lexSkip e n lex).2.token = t
  | 0, _, _, hn, _ => absurd hn (Nat.not_lt_zero _)
  | n + 1, lex, text, hn, h => by
    obtain ⟨h₁, h₂, h₃⟩ := lexGet_spec h
    rw [lexSkip]
    generalize lexGet e lex = r at h₁ h₂ h₃ ⊢
    obtain ⟨c, lex'⟩ := r
    dsimp only at h₁ h₂ h₃ ⊢
    cases c with
    | byte b =>
      obtain ⟨cs, rfl, hat, hrest⟩ := h₁
      by_cases hb : isSpace b = true
      · rw [if_pos (show (Got.byte b).is isSpace = true from hb), List.dropWhile_cons_of_pos hb]
        exact lexSkip_looked n (Nat.lt_of_succ_lt_succ hn) ⟨hat, h₂, h₃⟩
      · rw [if_neg (show ¬ (Got.byte b).is isSpace = true from hb), List.dropWhile_cons_of_neg hb]
        exact ⟨⟨cs, rfl, hat, hrest⟩, h₂, h₃⟩
    | eof | error =>
      obtain ⟨rfl, rfl, hat⟩ := h₁
      exact ⟨⟨rfl, rfl, hat⟩, h₂, h₃⟩

/-- `lex_scan` finds the first token of the text. -/
theorem lexScan_scanned (hn : text.length < e.steps) (h : lex.stream.At e.get text bad) :
    (lexScan e lex).Scanned e bad (scan e bad text) := by
  have h₀ : ({ lex with savedText := [] } : Lex R δ).At e lex.token [] text bad := ⟨h, rfl, rfl⟩
  obtain ⟨h₁, h₂, h₃⟩ := lexSkip_looked e.steps hn h₀
  have hlen : (text.dropWhile isSpace).length < e.steps :=
    lt_of_le_of_lt (List.dropWhile_sublist _).length_le hn
  unfold lexScan scan
  dsimp only
  generalize lexSkip e e.steps _ = r at h₁ h₂ h₃ ⊢
  obtain ⟨c, lex'⟩ := r
  dsimp only at h₁ h₂ h₃ ⊢
  cases c with
  | eof =>
    obtain ⟨htext, rfl, hat⟩ := h₁
    rw [htext]
    exact ⟨rfl, hat⟩
  | error =>
    obtain ⟨htext, rfl, -⟩ := h₁
    rw [htext]
    exact rfl
  | byte b =>
    have hlook : (lexSave lex' b).Looked e (.byte b) lex.token [] (text.dropWhile isSpace) bad := by
      refine ⟨h₁, ?_, h₃⟩
      change lex'.savedText ++ [b] = _
      rw [h₂]
    obtain ⟨cs, htext, hat⟩ := hlook.advance
    rw [htext] at hlook hlen ⊢
    have hcs : cs.length < e.steps := Nat.lt_of_succ_lt hlen
    dsimp only
    split_ifs with hp hq hd ha
    · exact ⟨rfl, hat.stream⟩
    · subst hq
      exact lexScanString_scanned hcs hat
    · exact lexScanNumber_scanned hlen hlook
    · exact lexIdent_scanned hcs ha hat
    · exact rfl

end

end

end Jansson
