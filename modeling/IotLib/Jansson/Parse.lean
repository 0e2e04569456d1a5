/-
  The parser on lists of bytes. It reads the tokens of `scan`, and the parser of the source on a
  stream that gives the text has the same result.
-/
import IotLib.Jansson.Tokens

namespace Jansson

section
variable {R δ : Type} (e : Conf R δ) (bad : Bool)

/-! ## The parser on lists -/

/-- A value is parsed from its first token and the text after it. -/
abbrev TextValue (R : Type) := Token R × Bytes → Option (Json R × Bytes)

variable (value : TextValue R)

def textMembers : Nat → List (Bytes × Json R) → Token R × Bytes → Option (Json R × Bytes)
  | 0, _, _ => none
  | n + 1, object, (t, text) =>
    match t with
    | .string key =>
      if 0 ∈ key then none
      else if e.flags.rejectDuplicates ∧ (objectGet key object).isSome then none
      else
        (scan e bad text).bind fun (t, text) =>
          match t with
          | .punct 0x3A =>
            ((scan e bad text).bind value).bind fun (v, text) =>
              (scan e bad text).bind fun (t, text) =>
                match t with
                | .punct 0x2C =>
                  (scan e bad text).bind (textMembers n (objectSet key v object))
                | .punct 0x7D => some (.object (objectSet key v object), text)
                | _ => none
          | _ => none
    | _ => none

def textObject (text : Bytes) : Option (Json R × Bytes) :=
  (scan e bad text).bind fun (t, text) =>
    match t with
    | .punct 0x7D => some (.object [], text)
    | t => textMembers e bad value e.steps [] (t, text)

def textElems : Nat → List (Json R) → Token R × Bytes → Option (Json R × Bytes)
  | 0, _, _ => none
  | n + 1, array, (t, text) =>
    (value (t, text)).bind fun (v, text) =>
      (scan e bad text).bind fun (t, text) =>
        match t with
        | .punct 0x2C => (scan e bad text).bind (textElems n (array ++ [v]))
        | .punct 0x5D => some (.array (array ++ [v]), text)
        | _ => none

def textArray (text : Bytes) : Option (Json R × Bytes) :=
  (scan e bad text).bind fun (t, text) =>
    match t with
    | .punct 0x5D => some (.array [], text)
    | t => textElems e bad value e.steps [] (t, text)

def textValue : Nat → TextValue R
  | 0, _ => none
  | d + 1, (t, text) =>
    match t with
    | .string value =>
      if !e.flags.allowNul ∧ 0 ∈ value then none else some (.string value, text)
    | .integer value => some (.integer value, text)
    | .real value => some (.real value, text)
    | .true => some (.true, text)
    | .false => some (.false, text)
    | .null => some (.null, text)
    | .punct 0x7B => textObject e bad (textValue d) text
    | .punct 0x5B => textArray e bad (textValue d) text
    | _ => none

def textJson (text : Bytes) : Option (Json R) :=
  (scan e bad text).bind fun (t, text) =>
    if !e.flags.decodeAny && !t.opens then none
    else
      (textValue e bad jsonParserMaxDepth (t, text)).bind fun (v, text) =>
        if e.flags.disableEofCheck then some v
        else
          (scan e bad text).bind fun (t, _) =>
            match t with
            | .eof => some v
            | _ => none

/-! ## What a token leaves -/

variable {e bad}

section
-- the equations of these definitions, which the lemmas below rewrite with
attribute [local simp] parseValue parseElems parseMembers
end

theorem dropNul_suffix (text : Bytes) : dropNul text <:+ text := by
  cases text with
  | nil => exact List.suffix_refl _
  | cons c cs =>
    rw [dropNul]
    split_ifs
    · exact List.suffix_cons _ _
    · exact List.suffix_refl _

theorem strBody_suffix {cs raw r : Bytes} (h : strBody cs = some (raw, r)) : r <:+ cs := by
  induction hlen : cs.length using Nat.strong_induction_on generalizing cs raw with
  | _ n ih =>
    cases cs with
    | nil => cases h
    | cons b cs =>
      rw [List.length_cons] at hlen
      rcases strBody_cases h with ⟨-, -, rfl⟩ | ⟨-, -, -, raw', hs, -⟩ |
        ⟨-, x, y, cs', raw', -, rfl, hs, -⟩ | ⟨-, hs, k, cs', raw', -, rfl, hs', -⟩
      · exact List.suffix_cons _ _
      · exact (ih _ (by omega) hs rfl).trans (List.suffix_cons _ _)
      · rw [List.length_cons] at hlen
        exact ((ih _ (by omega) hs rfl).trans (List.suffix_cons _ _)).trans (List.suffix_cons _ _)
      · rw [List.length_cons, List.length_append] at hlen
        have := (ih _ (by omega) hs' rfl).trans (List.suffix_append hs cs')
        exact (this.trans (List.suffix_cons _ _)).trans (List.suffix_cons _ _)

theorem scanString_suffix {cs rest : Bytes} {t : Token R} (h : scanString cs = some (t, rest)) :
    rest <:+ cs := by
  unfold scanString at h
  obtain ⟨⟨raw, r⟩, hbody, h⟩ := Option.bind_eq_some_iff.1 h
  dsimp only at h
  split at h
  · cases h
  · obtain ⟨-, rfl⟩ := Prod.mk.inj (Option.some.inj h)
    exact strBody_suffix hbody

theorem scanNumber_suffix {cs rest : Bytes} {t : Token R} (h : scanNumber e cs = some (t, rest)) :
    rest <:+ cs := by
  have hsign := sign_append (· == 0x2D) cs
  unfold scanNumber at h
  generalize sign (· == 0x2D) cs = s at h hsign
  obtain ⟨m, cs'⟩ := s
  dsimp only at h hsign
  obtain ⟨⟨ds, r⟩, hint, h⟩ := Option.bind_eq_some_iff.1 h
  have hr : r <:+ cs := by
    rw [← hsign, intPart_append hint]
    exact (List.suffix_append ds r).trans (List.suffix_append _ _)
  dsimp only at h
  split_ifs at h
  · obtain ⟨i, -, heq⟩ := Option.map_eq_some_iff.1 h
    obtain ⟨-, rfl⟩ := Prod.mk.inj heq
    exact (dropNul_suffix _).trans hr
  · obtain ⟨⟨fs, r₁⟩, hfrac, h⟩ := Option.bind_eq_some_iff.1 h
    obtain ⟨⟨xs, r₂⟩, hexp, h⟩ := Option.bind_eq_some_iff.1 h
    obtain ⟨x, -, heq⟩ := Option.map_eq_some_iff.1 h
    obtain ⟨-, rfl⟩ := Prod.mk.inj heq
    have h₁ := fracPart_append hfrac
    have h₂ := expPart_append hexp
    subst h₁ h₂
    exact (dropNul_suffix _).trans
      ((List.suffix_append xs r₂).trans ((List.suffix_append fs _).trans hr))

theorem scanIdent_suffix {cs rest : Bytes} {t : Token R} (h : scanIdent cs = some (t, rest)) :
    rest <:+ cs := by
  have hr : rest = dropNul (cs.dropWhile isAlpha) := by
    unfold scanIdent at h
    split at h
    · cases h
    · exact (Prod.mk.inj (Option.some.inj h)).2.symm
  rw [hr]
  exact (dropNul_suffix _).trans (List.dropWhile_suffix _)

theorem scan_suffix {text rest : Bytes} {t : Token R} (h : scan e bad text = some (t, rest)) :
    rest <:+ text := by
  have hsuf : text.dropWhile isSpace <:+ text := List.dropWhile_suffix _
  unfold scan at h
  generalize text.dropWhile isSpace = inp at h hsuf
  cases inp with
  | nil =>
    dsimp only at h
    split_ifs at h
    obtain ⟨-, rfl⟩ := Prod.mk.inj (Option.some.inj h)
    exact hsuf
  | cons c cs =>
    dsimp only at h
    split_ifs at h
    · obtain ⟨-, rfl⟩ := Prod.mk.inj (Option.some.inj h)
      exact (List.suffix_cons _ _).trans hsuf
    · exact (scanString_suffix h).trans ((List.suffix_cons _ _).trans hsuf)
    · exact (scanNumber_suffix h).trans hsuf
    · exact (scanIdent_suffix h).trans hsuf

/-! ## The parser of the source -/

variable (e bad)

/-- The lexer has read the token `t`, and `text` follows. -/
structure Lex.Front (lex : Lex R δ) (t : Token R) (text : Bytes) : Prop where
  token : lex.token = t
  stream : lex.stream.At e.get text bad
  steps : text.length < e.steps

/-- The parser has the result of the one on lists, and leaves the same text. -/
def Parsed (r : Option (Json R) × Lex R δ) : Option (Json R × Bytes) → Prop
  | none => r.1 = none
  | some (v, text) => r.1 = some v ∧ r.2.stream.At e.get text bad ∧ text.length < e.steps

/-- The two parsers of a value agree. -/
structure Simulates (pv : ParseValue R δ) (tv : TextValue R) : Prop where
  front : ∀ {lex : Lex R δ} {t : Token R} {text : Bytes}, lex.Front e bad t text →
    Parsed e bad (pv lex) (tv (t, text))
  invalid : ∀ {lex : Lex R δ}, lex.token = .invalid → (pv lex).1 = none
  eof : ∀ {text : Bytes}, tv (.eof, text) = none

variable {e bad}

/-- One token: it is invalid, or the lexer goes on after it. -/
theorem lexScan_cases {lex : Lex R δ} {text : Bytes} (h : lex.stream.At e.get text bad)
    (hn : text.length < e.steps) :
    (scan e bad text = none ∧ (lexScan e lex).token = .invalid) ∨
      ∃ t rest, scan e bad text = some (t, rest) ∧ (lexScan e lex).Front e bad t rest := by
  have hs := lexScan_scanned hn h
  cases hscan : scan e bad text with
  | none =>
    rw [hscan] at hs
    exact Or.inl ⟨rfl, hs⟩
  | some p =>
    obtain ⟨t, rest⟩ := p
    rw [hscan] at hs
    exact Or.inr ⟨t, rest, rfl, hs.1, hs.2, (scan_suffix hscan).length_le.trans_lt hn⟩

theorem Parsed.cases {r : Option (Json R) × Lex R δ} {o : Option (Json R × Bytes)}
    (h : Parsed e bad r o) :
    (o = none ∧ ∃ lex, r = (none, lex)) ∨
      ∃ v text lex, o = some (v, text) ∧ r = (some v, lex) ∧ lex.stream.At e.get text bad ∧
        text.length < e.steps := by
  obtain ⟨o', lex⟩ := r
  cases o with
  | none => exact Or.inl ⟨rfl, lex, Prod.ext h rfl⟩
  | some p => exact Or.inr ⟨p.1, p.2, lex, rfl, Prod.ext h.1 rfl, h.2⟩

section
variable {pv : ParseValue R δ} {tv : TextValue R} {lex : Lex R δ} {t : Token R} {text : Bytes}

theorem parseElems_invalid (hsim : Simulates e bad pv tv) (n : Nat) (array : List (Json R))
    (h : lex.token = .invalid) : (parseElems e pv n array lex).1 = none := by
  cases n with
  | zero => rfl
  | succ n =>
    have hv := hsim.invalid h
    rw [parseElems, h]
    dsimp only
    generalize pv lex = r at hv
    obtain ⟨o, lex'⟩ := r
    obtain rfl : o = none := hv
    rfl

theorem parseElems_parsed (hsim : Simulates e bad pv tv) : ∀ (n : Nat) {array : List (Json R)}
    {lex : Lex R δ} {t : Token R} {text : Bytes}, lex.Front e bad t text →
    Parsed e bad (parseElems e pv n array lex) (textElems e bad tv n array (t, text))
  | 0, _, _, _, _, _ => rfl
  | n + 1, array, lex, t, text, h => by
    have hv := (hsim.front h).cases
    rw [parseElems, textElems, h.token]
    split
    · rw [hsim.eof]
      rfl
    rcases hv with ⟨h₁, lex₁, h₂⟩ | ⟨v, text₁, lex₁, h₁, h₂, hat₁, hn₁⟩
    · rw [h₁, h₂]
      rfl
    rw [h₁, h₂, Option.bind_some]
    dsimp only
    rcases lexScan_cases hat₁ hn₁ with ⟨h₃, h₄⟩ | ⟨t₂, text₂, h₃, hf₂⟩
    · rw [h₃, h₄]
      rfl
    rw [h₃, hf₂.token, Option.bind_some]
    dsimp only
    split
    · rcases lexScan_cases hf₂.stream hf₂.steps with ⟨h₅, h₆⟩ | ⟨t₃, text₃, h₅, hf₃⟩
      · rw [h₅]
        exact parseElems_invalid hsim n _ h₆
      · rw [h₅, Option.bind_some]
        exact parseElems_parsed hsim n hf₃
    · exact ⟨rfl, hf₂.stream, hf₂.steps⟩
    · rename_i hcomma hbracket
      first
      | rfl
      | split
        · exact (hcomma rfl).elim
        · exact (hbracket rfl).elim
        · rfl

theorem parseArray_parsed (hsim : Simulates e bad pv tv) (h : lex.Front e bad t text) :
    Parsed e bad (parseArray e pv lex) (textArray e bad tv text) := by
  unfold parseArray textArray
  rcases lexScan_cases h.stream h.steps with ⟨h₁, h₂⟩ | ⟨t₁, text₁, h₁, hf⟩
  · rw [h₁]
    dsimp only
    rw [h₂]
    exact parseElems_invalid hsim _ _ h₂
  · rw [h₁, Option.bind_some]
    dsimp only
    rw [hf.token]
    split
    · exact ⟨rfl, hf.stream, hf.steps⟩
    · rename_i hbracket
      first
      | exact parseElems_parsed hsim _ hf
      | split
        · exact (hbracket rfl).elim
        · exact parseElems_parsed hsim _ hf

theorem parseMembers_invalid (n : Nat) (object : List (Bytes × Json R))
    (h : lex.token = .invalid) : (parseMembers e pv n object lex).1 = none := by
  cases n with
  | zero => rfl
  | succ n => rw [parseMembers, h]

theorem parseMembers_parsed (hsim : Simulates e bad pv tv) : ∀ (n : Nat)
    {object : List (Bytes × Json R)} {lex : Lex R δ} {t : Token R} {text : Bytes},
    lex.Front e bad t text →
    Parsed e bad (parseMembers e pv n object lex) (textMembers e bad tv n object (t, text))
  | 0, _, _, _, _, _ => rfl
  | n + 1, object, lex, t, text, h => by
    rw [parseMembers, textMembers.eq_def, h.token]
    cases t with
    | string key =>
      dsimp only
      by_cases h0 : 0 ∈ key
      · rw [if_pos h0, if_pos h0]
        rfl
      rw [if_neg h0, if_neg h0]
      by_cases hdup : e.flags.rejectDuplicates = true ∧ (objectGet key object).isSome = true
      · rw [if_pos hdup, if_pos hdup]
        rfl
      rw [if_neg hdup, if_neg hdup]
      -- the colon
      rcases lexScan_cases h.stream h.steps with ⟨h₁, h₂⟩ | ⟨t₁, text₁, h₁, hf₁⟩
      · rw [h₁, h₂]
        rfl
      rw [h₁, hf₁.token, Option.bind_some]
      dsimp only
      split
      · -- the value
        rcases lexScan_cases hf₁.stream hf₁.steps with ⟨h₂, h₃⟩ | ⟨t₂, text₂, h₂, hf₂⟩
        · have hv := hsim.invalid h₃
          rw [h₂]
          generalize pv (lexScan e (lexScan e lex)) = r at hv ⊢
          obtain ⟨o, lex'⟩ := r
          obtain rfl : o = none := hv
          rfl
        rw [h₂, Option.bind_some]
        rcases (hsim.front hf₂).cases with ⟨h₃, lex₃, h₄⟩ | ⟨v, text₃, lex₃, h₃, h₄, hat₃, hn₃⟩
        · rw [h₃, h₄]
          rfl
        rw [h₃, h₄, Option.bind_some]
        dsimp only
        -- the comma or the brace
        rcases lexScan_cases hat₃ hn₃ with ⟨h₅, h₆⟩ | ⟨t₅, text₅, h₅, hf₅⟩
        · rw [h₅, h₆]
          rfl
        rw [h₅, hf₅.token, Option.bind_some]
        dsimp only
        split
        · rcases lexScan_cases hf₅.stream hf₅.steps with ⟨h₆, h₇⟩ | ⟨t₆, text₆, h₆, hf₆⟩
          · rw [h₆]
            exact parseMembers_invalid n _ h₇
          · rw [h₆, Option.bind_some]
            exact parseMembers_parsed hsim n hf₆
        · exact ⟨rfl, hf₅.stream, hf₅.steps⟩
        · rename_i hcomma hbrace
          first
          | rfl
          | split
            · split
              · exact (hcomma rfl).elim
              · exact (hbrace rfl).elim
              · rfl
            · rfl
      · rename_i hcolon
        first
        | rfl
        | split
          · exact (hcolon rfl).elim
          · rfl
    | invalid | eof | punct _ | integer _ | real _ | true | false | null => rfl

theorem parseObject_parsed (hsim : Simulates e bad pv tv) (h : lex.Front e bad t text) :
    Parsed e bad (parseObject e pv lex) (textObject e bad tv text) := by
  unfold parseObject textObject
  rcases lexScan_cases h.stream h.steps with ⟨h₁, h₂⟩ | ⟨t₁, text₁, h₁, hf⟩
  · rw [h₁]
    dsimp only
    rw [h₂]
    exact parseMembers_invalid _ _ h₂
  · rw [h₁, Option.bind_some]
    dsimp only
    rw [hf.token]
    split
    · exact ⟨rfl, hf.stream, hf.steps⟩
    · rename_i hbrace
      first
      | exact parseMembers_parsed hsim _ hf
      | split
        · exact (hbrace rfl).elim
        · exact parseMembers_parsed hsim _ hf

theorem textValue_punct {c : UInt8} {d : Nat} (h₁ : c ≠ 0x7B) (h₂ : c ≠ 0x5B) :
    textValue e bad (d + 1) (.punct c, text) = none := by
  simp [textValue, h₁, h₂]

theorem parseValue_punct {c : UInt8} {d : Nat} (h₁ : c ≠ 0x7B) (h₂ : c ≠ 0x5B)
    (h : lex.token = .punct c) : (parseValue e (d + 1) lex).1 = none := by
  rw [parseValue, h]
  simp [h₁, h₂]

theorem parseValue_simulates : ∀ d : Nat, Simulates e bad (parseValue e d) (textValue e bad d)
  | 0 => ⟨fun _ => rfl, fun _ => rfl, rfl⟩
  | d + 1 => by
    have ih := @parseValue_simulates d
    refine ⟨fun {lex t text} h => ?_, fun {lex} h => ?_, rfl⟩
    · have hend : ∀ v, Parsed e bad (some v, lex) (some (v, text)) :=
        fun v => ⟨rfl, h.stream, h.steps⟩
      cases t with
      | string value =>
        rw [parseValue, textValue, h.token]
        dsimp only
        by_cases h0 : (!e.flags.allowNul) = true ∧ 0 ∈ value
        · rw [if_pos h0, if_pos h0]
          rfl
        · rw [if_neg h0, if_neg h0]
          exact hend _
      | integer _ | real _ | true | false | null =>
        rw [parseValue, h.token]
        exact hend _
      | invalid | eof =>
        rw [parseValue, h.token]
        rfl
      | punct c =>
        by_cases hbrace : c = 0x7B
        · subst hbrace
          rw [parseValue, h.token]
          exact parseObject_parsed ih h
        by_cases hbracket : c = 0x5B
        · subst hbracket
          rw [parseValue, h.token]
          exact parseArray_parsed ih h
        rw [textValue_punct hbrace hbracket]
        exact parseValue_punct hbrace hbracket h.token
    · rw [parseValue, h]

theorem parseJson_eq (h : lex.stream.At e.get text bad) (hn : text.length < e.steps) :
    (parseJson e lex).1 = textJson e bad text := by
  unfold parseJson textJson
  dsimp only
  rcases lexScan_cases h hn with ⟨h₁, h₂⟩ | ⟨t₁, text₁, h₁, hf⟩
  · rw [h₁, h₂, Option.bind_none]
    by_cases hany : (!e.flags.decodeAny && !(Token.invalid : Token R).opens) = true
    · rw [if_pos hany]
    · have hv := (@parseValue_simulates _ _ e bad jsonParserMaxDepth).invalid h₂
      rw [if_neg hany]
      generalize parseValue e jsonParserMaxDepth (lexScan e lex) = r at hv ⊢
      obtain ⟨o, lex'⟩ := r
      obtain rfl : o = none := hv
      rfl
  · rw [h₁, hf.token, Option.bind_some]
    dsimp only
    by_cases hany : (!e.flags.decodeAny && !t₁.opens) = true
    · rw [if_pos hany, if_pos hany]
    rw [if_neg hany, if_neg hany]
    rcases ((parseValue_simulates jsonParserMaxDepth).front hf).cases with
      ⟨h₃, lex₃, h₄⟩ | ⟨v, text₃, lex₃, h₃, h₄, hat₃, hn₃⟩
    · rw [h₃, h₄]
      rfl
    rw [h₃, h₄, Option.bind_some]
    dsimp only
    by_cases heof : e.flags.disableEofCheck = true
    · rw [if_pos heof, if_pos heof]
    rw [if_neg heof, if_neg heof]
    rcases lexScan_cases hat₃ hn₃ with ⟨h₅, h₆⟩ | ⟨t₅, text₅, h₅, hf₅⟩
    · rw [h₅, h₆]
      rfl
    · rw [h₅, hf₅.token, Option.bind_some]
      cases t₅ <;> rfl

end

/-! ## Runs of the decoder -/

/-- **A run of the decoder parses the valid part of its bytes.** -/
theorem load_eq {get : GetFunc Bytes} {strtod : Bytes → Option R} {flags : LoadFlags}
    {data text : Bytes} {bad : Bool} (hgives : Gives get data data) (hsplit : Split data text bad) :
    (load get strtod flags data).1 =
      textJson ⟨get, strtod, flags, data.length + 1⟩ bad text :=
  parseJson_eq (Stream.at_init hgives hsplit) (Nat.lt_succ_of_le hsplit.length_le)

end

end Jansson
