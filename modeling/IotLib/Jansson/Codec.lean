/-
  The UTF-8 codec of jansson as a whole (`utf.c`), and the surrogate pairs that the dumper writes
  and the lexer reads.
-/
import IotLib.Jansson.Text

namespace Jansson

/-! ## Whole strings -/

/-- The loop of `utf8_check_string`; every turn takes at least one byte. -/
def checkStringLoop : Nat → Bytes → Bool
  | 0, _ => true
  | n + 1, string =>
    if string = [] then true
    else
      let count := utf8CheckFirst (string.headD 0)
      if count = 0 then false
      else if 1 < count then
        if string.length < count then false
        else if (utf8CheckFull (string.take count)).isNone then false
        else checkStringLoop n (string.drop count)
      else checkStringLoop n (string.drop 1)

/-- `utf8_check_string` -/
def utf8CheckString (string : Bytes) : Bool := checkStringLoop string.length string

/-- The outputs of `utf8_encode`, one after the other. -/
def encodeAll (codepoints : List Nat) : Option Bytes :=
  (codepoints.mapM utf8Encode).map List.flatten

/-- The code points that `utf8_iterate` yields up to the end. -/
def codepointsFrom : Nat → Bytes → Option (List Nat)
  | 0, _ => some []
  | n + 1, buffer =>
    if buffer = [] then some []
    else (utf8Iterate buffer).bind fun (codepoint, rest) => (codepointsFrom n rest).map (codepoint :: ·)

section
variable {c n : Nat} {cs : List Nat} {str rest : Bytes}

theorem encodeAll_nil : encodeAll [] = some [] := rfl

theorem encodeAll_cons (hc : IsScalar c) :
    encodeAll (c :: cs) = (encodeAll cs).map (encode c ++ ·) := by
  have hmax : c ≤ 0x10FFFF := by
    unfold IsScalar at hc
    omega
  unfold encodeAll
  rw [List.mapM_cons, utf8Encode_eq hmax]
  cases cs.mapM utf8Encode with
  | none => rfl
  | some bss => rfl

/-- A turn of the check is a turn of the iteration. -/
theorem checkStringLoop_succ (hne : str ≠ []) :
    checkStringLoop (n + 1) str =
      match utf8Iterate str with
      | none => false
      | some (_, rest) => checkStringLoop n rest := by
  rw [checkStringLoop, if_neg hne, utf8Iterate]
  dsimp only
  generalize utf8CheckFirst (str.headD 0) = count
  by_cases h₀ : count = 0
  · rw [if_pos h₀, if_pos h₀]
  rw [if_neg h₀, if_neg h₀]
  by_cases h₁ : count = 1
  · rw [if_pos h₁, if_neg (by omega), List.drop_one]
  rw [if_neg h₁, if_pos (by omega)]
  by_cases hlen : str.length < count
  · rw [if_pos hlen, if_pos hlen]
  rw [if_neg hlen, if_neg hlen]
  cases utf8CheckFull (str.take count) with
  | none => rfl
  | some v => rfl

/-- **The check accepts the valid strings.** -/
theorem checkStringLoop_valid (h : str.length ≤ n) : checkStringLoop n str = true ↔ Valid str := by
  induction n generalizing str with
  | zero =>
    obtain rfl := List.length_eq_zero_iff.1 (Nat.le_zero.1 h)
    exact iff_of_true rfl .nil
  | succ n ih =>
    by_cases hne : str = []
    · subst hne
      exact iff_of_true rfl .nil
    rw [checkStringLoop_succ hne]
    cases hit : utf8Iterate str with
    | none =>
      refine iff_of_false Bool.false_ne_true fun hvalid => ?_
      obtain ⟨c, rest, hc, hstr⟩ := hvalid.exists_encode hne
      rw [(utf8Iterate_eq_some hne).2 ⟨hc, hstr⟩] at hit
      cases hit
    | some p =>
      obtain ⟨c, rest⟩ := p
      obtain ⟨hc, rfl⟩ := (utf8Iterate_eq_some hne).1 hit
      have hpos := encode_length_pos c
      rw [List.length_append] at h
      exact (ih (by omega)).trans (valid_encode_iff hc).symm

/-- A string is valid if it is what `utf8_encode` makes of scalar values. -/
theorem valid_iff_encodeAll :
    Valid str ↔ ∃ cs : List Nat, (∀ c ∈ cs, IsScalar c) ∧ encodeAll cs = some str := by
  constructor
  · intro h
    induction h with
    | nil => exact ⟨[], nofun, rfl⟩
    | @cons c rest hc _ ih =>
      obtain ⟨cs, hcs, hrest⟩ := ih
      refine ⟨c :: cs, List.forall_mem_cons.2 ⟨hc, hcs⟩, ?_⟩
      rw [encodeAll_cons hc, hrest, Option.map_some]
  · rintro ⟨cs, hcs, hstr⟩
    induction cs generalizing str with
    | nil =>
      obtain rfl := Option.some.inj hstr
      exact .nil
    | cons c cs ih =>
      obtain ⟨hc, hcs⟩ := List.forall_mem_cons.1 hcs
      rw [encodeAll_cons hc] at hstr
      obtain ⟨rest, hrest, rfl⟩ := Option.map_eq_some_iff.1 hstr
      exact .cons hc (ih hcs hrest)

/-- The iteration gives the code points back. -/
theorem codepointsFrom_encodeAll (hcs : ∀ c ∈ cs, IsScalar c) (hstr : encodeAll cs = some str)
    (hn : str.length ≤ n) : codepointsFrom n str = some cs := by
  induction cs generalizing str n with
  | nil =>
    obtain rfl := Option.some.inj hstr
    cases n with
    | zero => rfl
    | succ n => exact if_pos rfl
  | cons c cs ih =>
    obtain ⟨hc, hcs⟩ := List.forall_mem_cons.1 hcs
    rw [encodeAll_cons hc] at hstr
    obtain ⟨rest, hrest, rfl⟩ := Option.map_eq_some_iff.1 hstr
    have hpos := encode_length_pos c
    have hne : encode c ++ rest ≠ [] :=
      List.append_ne_nil_of_left_ne_nil (List.ne_nil_of_length_pos hpos) _
    rw [List.length_append] at hn
    obtain ⟨n, rfl⟩ := Nat.exists_eq_succ_of_ne_zero (show n ≠ 0 by omega)
    rw [codepointsFrom, if_neg hne, (utf8Iterate_eq_some hne).2 ⟨hc, rfl⟩, Option.bind_some]
    dsimp only
    rw [ih hcs hrest (by omega), Option.map_some]

end

/-! ## Surrogate pairs -/

section
variable {c : Nat} {flags : DumpFlags}

/-- The escape of a character above the basic plane is a surrogate pair. -/
theorem escapeText_pair (h : 0x10000 ≤ c) (hmax : c ≤ 0x10FFFF) :
    escapeText c = ascii "\\u" ++ hex4 (0xD800 + (c - 0x10000) / 0x400) ++
      (ascii "\\u" ++ hex4 (0xDC00 + (c - 0x10000) % 0x400)) := by
  obtain ⟨hfirst, hlast⟩ := @surrogates (c - 0x10000) (by omega)
  unfold escapeText
  dsimp only
  rw [hfirst, hlast]
  iterate 9 rw [if_neg (by omega)]

/-- With `JSON_ENSURE_ASCII` a character above the basic plane is dumped as its escape. -/
theorem dumpString_escape (hflags : flags.ensureAscii = true) (hc : IsScalar c) (h : 0x10000 ≤ c) :
    dumpString dumpToStrbuffer flags (encode c) [] = (0, 0x22 :: (escapeText c ++ [0x22])) := by
  have hne : encode c ≠ [] := List.ne_nil_of_length_pos (encode_length_pos c)
  have hit : utf8Iterate (encode c) = some (c, []) :=
    (utf8Iterate_eq_some hne).2 ⟨hc, (List.append_nil _).symm⟩
  have hesc : isEscaped flags c = true := by
    simp only [isEscaped, hflags, Bool.true_and, Bool.or_eq_true, decide_eq_true_eq]
    omega
  obtain ⟨n, hn⟩ := Nat.exists_eq_succ_of_ne_zero (encode_length_pos c).ne'
  unfold dumpString
  rw [hn, dumpBody, hn, dumpRun, if_neg hne, hit]
  dsimp only
  rw [if_pos hesc]
  rfl

end

/-- **The UTF-8 codec**: the check accepts exactly what encodes scalar values, the iteration gives
    them back, and the lexer reads the surrogate pair of the dumper as the character. -/
theorem utf8_codec :
    (∀ str : Bytes, utf8CheckString str = true ↔
      ∃ cs : List Nat, (∀ c ∈ cs, IsScalar c) ∧ encodeAll cs = some str) ∧
    (∀ (cs : List Nat) (str : Bytes), (∀ c ∈ cs, IsScalar c) → encodeAll cs = some str →
      codepointsFrom str.length str = some cs) ∧
    ∀ (c : Nat) (flags : DumpFlags), IsScalar c → 0x10000 ≤ c → flags.ensureAscii = true →
      ∃ pair first last, dumpString dumpToStrbuffer flags (encode c) [] =
          (0, ascii "\"" ++ (pair ++ ascii "\"")) ∧
        pair = ascii "\\u" ++ hex4 first ++ (ascii "\\u" ++ hex4 last) ∧
        (0xD800 ≤ first ∧ first ≤ 0xDBFF) ∧ (0xDC00 ≤ last ∧ last ≤ 0xDFFF) ∧
        ∀ {R δ : Type} (e : Conf R δ) (lex : Lex R δ) (t : Token R) (v inp rest : Bytes) (bad : Bool),
          Chars v inp rest → (pair ++ inp).length < e.steps →
          lex.At e t (ascii "\"") (pair ++ inp) bad →
          ∃ str, (lexScanString e lex).token = .string (str ++ v) ∧ utf8Iterate str = some (c, []) := by
  refine ⟨fun str => ?_, fun cs str hcs hstr => ?_, fun c flags hc h hflags => ?_⟩
  · exact (checkStringLoop_valid le_rfl).trans valid_iff_encodeAll
  · exact codepointsFrom_encodeAll hcs hstr le_rfl
  · have hmax : c ≤ 0x10FFFF := by
      unfold IsScalar at hc
      omega
    refine ⟨escapeText c, _, _, dumpString_escape hflags hc h, escapeText_pair h hmax, by omega,
      by omega, fun {R δ} e lex t v inp rest bad hv hn hat => ⟨encode c, ?_, ?_⟩⟩
    · have hscan := lexScanString_scanned hn hat
      rw [scanString_complete (R := R) (escapeText_chars hc hv)] at hscan
      exact hscan.1
    · exact (utf8Iterate_eq_some (List.ne_nil_of_length_pos (encode_length_pos c))).2
        ⟨hc, (List.append_nil _).symm⟩

end Jansson
