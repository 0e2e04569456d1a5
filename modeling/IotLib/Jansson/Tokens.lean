/-
  The tokens that the lexical analyzer finds are those of the grammar.
-/
import IotLib.Jansson.Scan
import IotLib.Jansson.Grammar

namespace Jansson

/-! ## Strings -/

-- the equations, once for the lemmas below
section
attribute [local simp] decodeString strBody
end

theorem unescape_eq_some {x b : UInt8} : unescape x = some b ↔ Escape x b := by
  constructor
  · intro h
    unfold unescape at h
    split_ifs at h with h₁ h₂ h₃ h₄ h₅ h₆
    · obtain rfl := Option.some.inj h
      rcases h₁ with rfl | rfl | rfl
      · exact .quote
      · exact .backslash
      · exact .slash
    · rw [h₂, ← Option.some.inj h]
      exact .backspace
    · rw [h₃, ← Option.some.inj h]
      exact .formFeed
    · rw [h₄, ← Option.some.inj h]
      exact .lineFeed
    · rw [h₅, ← Option.some.inj h]
      exact .carriageReturn
    · rw [h₆, ← Option.some.inj h]
      exact .tab
  · intro h
    cases h <;> rfl

variable {c : UInt8}

theorem isXdigit_cases (h : isXdigit c = true) :
    isDigit c = true ∨ isDigit c = false ∧ isLower c = true ∧ c.toNat - 0x61 + 10 = c.toNat - 0x57 ∨
      isDigit c = false ∧ isLower c = false ∧ isUpper c = true ∧
        c.toNat - 0x41 + 10 = c.toNat - 0x37 := by
  simp only [isXdigit, isDigit, isLower, isUpper, Bool.or_eq_true, Bool.and_eq_true,
    decide_eq_true_eq, UInt8.le_iff_toNat_le, Bool.and_eq_false_iff, decide_eq_false_iff_not] at h ⊢
  simp only [UInt8.reduceToNat] at h ⊢
  omega

theorem decodeStep {value : Nat} (h : isXdigit c = true) :
    (do
      let value ← some value
      if isDigit c then some (value * 16 + (c.toNat - 0x30))
      else if isLower c then some (value * 16 + (c.toNat - 0x61 + 10))
      else if isUpper c then some (value * 16 + (c.toNat - 0x41 + 10))
      else none) = some (value * 16 + hexVal c) := by
  unfold hexVal
  rcases isXdigit_cases h with hd | ⟨hd, hl, he⟩ | ⟨hd, hl, hu, he⟩
  · simp [hd]
  · simp [hd, hl, he]
  · simp [hd, hl, hu, he]

variable {n : Nat}

theorem decodeUnicodeEscape_hex4 {h₁ h₂ h₃ h₄ : UInt8} (h : Hex4 [h₁, h₂, h₃, h₄] n) :
    decodeUnicodeEscape [h₁, h₂, h₃, h₄] = some n := by
  generalize hs : [h₁, h₂, h₃, h₄] = hs at h
  cases h with
  | intro x₁ x₂ x₃ x₄ =>
    simp only [List.cons.injEq, and_true] at hs
    obtain ⟨rfl, rfl, rfl, rfl⟩ := hs
    simp only [decodeUnicodeEscape, List.foldl_cons, List.foldl_nil, decodeStep x₁, decodeStep x₂,
      decodeStep x₃, decodeStep x₄, Nat.zero_mul, Nat.zero_add]

variable {hs : Bytes}

theorem Hex4.four (h : Hex4 hs n) :
    ∃ h₁ h₂ h₃ h₄, hs = [h₁, h₂, h₃, h₄] := by
  cases h with
  | intro _ _ _ _ => exact ⟨_, _, _, _, rfl⟩

theorem hexVal_lt (hc : isXdigit c = true) : hexVal c < 16 := by
  simp only [isXdigit, isDigit, hexVal, isLower, Bool.or_eq_true, Bool.and_eq_true,
    decide_eq_true_eq, UInt8.le_iff_toNat_le, UInt8.reduceToNat] at hc ⊢
  split_ifs <;> omega

theorem Hex4.lt (h : Hex4 hs n) : n < 0x10000 := by
  cases h with
  | intro x₁ x₂ x₃ x₄ =>
    have := hexVal_lt x₁
    have := hexVal_lt x₂
    have := hexVal_lt x₃
    have := hexVal_lt x₄
    omega

theorem Escape.ascii {x y : UInt8} (h : Escape x y) : x.toNat < 0x80 := by
  cases h <;> decide

theorem Hex4.ascii (h : Hex4 hs n) : ∀ x ∈ hs, x.toNat < 0x80 := by
  have hlt : ∀ c, isXdigit c = true → c.toNat < 0x80 := by
    intro c hc
    simp only [isXdigit, isDigit, Bool.or_eq_true, Bool.and_eq_true, decide_eq_true_eq,
      UInt8.le_iff_toNat_le, UInt8.reduceToNat] at hc
    omega
  cases h with
  | intro x₁ x₂ x₃ x₄ => simp [hlt _ x₁, hlt _ x₂, hlt _ x₃, hlt _ x₄]

theorem except_map_ok {α β γ : Type} {f : α → β} {x : Except γ α} {b : β}
    (h : x.map f = .ok b) : ∃ a, x = .ok a ∧ b = f a := by
  cases x with
  | error _ => cases h
  | ok a => exact ⟨a, rfl, (Except.ok.inj h).symm⟩

/-- Bytes above the ASCII range are passed over. -/
theorem strBody_high {pre cs : Bytes} (h : ∀ b ∈ pre, 0x80 ≤ b.toNat) :
    strBody (pre ++ cs) = (strBody cs).map fun (raw, r) => (pre ++ raw, r) := by
  induction pre with
  | nil => simp
  | cons b pre ih =>
    obtain ⟨hb, hpre⟩ := List.forall_mem_cons.1 h
    rw [List.cons_append, strBody.eq_def]
    dsimp only
    rw [if_neg (by rintro rfl; exact absurd hb (by decide)), if_neg (by omega),
      if_neg (by rintro rfl; exact absurd hb (by decide)), ih hpre, Option.map_map]
    rfl

theorem decodeString_high {pre cs : Bytes} (h : ∀ b ∈ pre, 0x80 ≤ b.toNat) :
    decodeString (pre ++ cs) = (decodeString cs).map (pre ++ ·) := by
  induction pre with
  | nil => cases h : decodeString cs <;> simp [h, Except.map]
  | cons b pre ih =>
    obtain ⟨hb, hpre⟩ := List.forall_mem_cons.1 h
    rw [List.cons_append, decodeString.eq_def]
    dsimp only
    rw [if_neg (by rintro rfl; exact absurd hb (by decide)),
      if_neg (by rintro rfl; exact absurd hb (by decide)), ih hpre]
    cases decodeString cs <;> rfl

section
variable {b x : UInt8} {cs raw r v : Bytes}

/-- The ways a string goes on. -/
theorem strBody_cases (h : strBody (b :: cs) = some (raw, r)) :
    (b = 0x22 ∧ raw = [b] ∧ r = cs) ∨
    (b ≠ 0x22 ∧ b ≠ 0x5C ∧ 0x20 ≤ b.toNat ∧ ∃ raw', strBody cs = some (raw', r) ∧ raw = b :: raw') ∨
    (b = 0x5C ∧ ∃ x y cs' raw', Escape x y ∧ cs = x :: cs' ∧ strBody cs' = some (raw', r) ∧
      raw = b :: x :: raw') ∨
    (b = 0x5C ∧ ∃ hs n cs' raw', Hex4 hs n ∧ cs = 0x75 :: (hs ++ cs') ∧
      strBody cs' = some (raw', r) ∧ raw = b :: 0x75 :: (hs ++ raw')) := by
  rw [strBody.eq_def] at h
  dsimp only at h
  split_ifs at h with h₁ h₂ h₃
  · obtain ⟨rfl, rfl⟩ := Prod.mk.inj (Option.some.inj h)
    exact Or.inl ⟨h₁, rfl, rfl⟩
  · right; right
    split at h
    · cases h
    · rename_i x cs'
      split_ifs at h with hu hx
      · right
        split at h
        · rename_i g₁ g₂ g₃ g₄ cs''
          split_ifs at h with hall
          obtain ⟨⟨raw', r'⟩, hs, heq⟩ := Option.map_eq_some_iff.1 h
          obtain ⟨rfl, rfl⟩ := Prod.mk.inj heq
          simp only [Bool.and_eq_true] at hall
          obtain ⟨⟨⟨x₁, x₂⟩, x₃⟩, x₄⟩ := hall
          subst hu
          exact ⟨h₃, [g₁, g₂, g₃, g₄], _, cs'', raw', .intro x₁ x₂ x₃ x₄, rfl, hs, rfl⟩
        · cases h
      · left
        obtain ⟨⟨raw', r'⟩, hs, heq⟩ := Option.map_eq_some_iff.1 h
        obtain ⟨rfl, rfl⟩ := Prod.mk.inj heq
        obtain ⟨y, hy⟩ := Option.isSome_iff_exists.1 hx
        exact ⟨h₃, x, y, cs', raw', unescape_eq_some.1 hy, rfl, hs, rfl⟩
  · obtain ⟨⟨raw', r'⟩, hs, heq⟩ := Option.map_eq_some_iff.1 h
    obtain ⟨rfl, rfl⟩ := Prod.mk.inj heq
    exact Or.inr (Or.inl ⟨h₁, h₃, by omega, raw', hs, rfl⟩)

theorem decodeString_quote : decodeString (0x22 :: cs) = .ok [] := by
  rw [decodeString.eq_def]
  rfl

theorem decodeString_plain (h₁ : b ≠ 0x22) (h₂ : b ≠ 0x5C) :
    decodeString (b :: cs) = (decodeString cs).map (b :: ·) := by
  rw [decodeString.eq_def]
  dsimp only
  rw [if_neg h₁, if_neg h₂]

theorem decodeString_escape {y : UInt8} (h : Escape x y) :
    decodeString (0x5C :: x :: cs) = (decodeString cs).map (y :: ·) := by
  have hx : x ≠ 0x75 := by
    rintro rfl
    cases h
  rw [decodeString.eq_def]
  dsimp only
  rw [if_neg (by decide), if_pos rfl, if_neg hx, unescape_eq_some.2 h]
  rfl

/-- An escape of a character that is no surrogate. -/
theorem decodeString_unicode (h : Hex4 hs n) (hn : IsScalar n) :
    decodeString (0x5C :: 0x75 :: (hs ++ cs)) = (decodeString cs).map (encode n ++ ·) := by
  have hlt := h.lt
  obtain ⟨h₁, h₂, h₃, h₄, rfl⟩ := h.four
  rw [decodeString.eq_def]
  dsimp only [List.cons_append, List.nil_append]
  rw [if_neg (by decide), if_pos rfl, if_pos rfl, decodeUnicodeEscape_hex4 h]
  dsimp only
  unfold IsScalar at hn
  rw [if_neg (by omega), if_neg (by omega), utf8Encode_eq (by omega), Option.getD_some]

/-- The escapes of two surrogates. -/
theorem decodeString_pair {hs gs : Bytes} {m n : Nat} (hm : Hex4 hs m) (hn : Hex4 gs n)
    (hm' : 0xD800 ≤ m ∧ m ≤ 0xDBFF) (hn' : 0xDC00 ≤ n ∧ n ≤ 0xDFFF) :
    decodeString (0x5C :: 0x75 :: (hs ++ 0x5C :: 0x75 :: (gs ++ cs))) =
      (decodeString cs).map (encode (0x10000 + (m - 0xD800) * 1024 + (n - 0xDC00)) ++ ·) := by
  obtain ⟨h₁, h₂, h₃, h₄, rfl⟩ := hm.four
  obtain ⟨g₁, g₂, g₃, g₄, rfl⟩ := hn.four
  have hval : (m - 0xD800) <<< 10 + (n - 0xDC00) + 0x10000 =
      0x10000 + (m - 0xD800) * 1024 + (n - 0xDC00) := by
    rw [Nat.shiftLeft_eq]
    omega
  rw [decodeString.eq_def]
  dsimp only [List.cons_append, List.nil_append]
  rw [if_neg (by decide), if_pos rfl, if_pos rfl, decodeUnicodeEscape_hex4 hm]
  dsimp only
  rw [if_pos hm', if_pos ⟨rfl, rfl⟩, decodeUnicodeEscape_hex4 hn]
  dsimp only
  rw [if_pos hn', hval, utf8Encode_eq (by omega), Option.getD_some]

/-- The second loop: an escape of a surrogate is the first of a pair. -/
theorem decodeString_surrogate {m : Nat} (h : Hex4 hs m) (hm : ¬ IsScalar m)
    (hok : decodeString (0x5C :: 0x75 :: (hs ++ cs)) = .ok v) :
    (0xD800 ≤ m ∧ m ≤ 0xDBFF) ∧ ∃ g₁ g₂ g₃ g₄ cs', cs = 0x5C :: 0x75 :: g₁ :: g₂ :: g₃ :: g₄ :: cs' ∧
      ∃ n, decodeUnicodeEscape [g₁, g₂, g₃, g₄] = some n ∧ 0xDC00 ≤ n ∧ n ≤ 0xDFFF := by
  have hlt := h.lt
  unfold IsScalar at hm
  obtain ⟨h₁, h₂, h₃, h₄, rfl⟩ := h.four
  rw [decodeString.eq_def] at hok
  dsimp only [List.cons_append, List.nil_append] at hok
  rw [if_neg (by decide), if_pos rfl, if_pos rfl, decodeUnicodeEscape_hex4 h] at hok
  dsimp only at hok
  by_cases hhi : 0xD800 ≤ m ∧ m ≤ 0xDBFF
  · refine ⟨hhi, ?_⟩
    rw [if_pos hhi] at hok
    split at hok
    · rename_i b u g₁ g₂ g₃ g₄ cs'
      split_ifs at hok with hbu
      obtain ⟨rfl, rfl⟩ := hbu
      refine ⟨g₁, g₂, g₃, g₄, cs', rfl, ?_⟩
      split at hok
      · cases hok
      · rename_i n hn
        refine ⟨n, hn, ?_⟩
        by_contra hno
        rw [if_neg hno] at hok
        cases hok
    · cases hok
  · rw [if_neg hhi, if_pos (by omega)] at hok
    cases hok

/-- An escape in what was read is one in the text. -/
theorem strBody_unicode_inv {g₁ g₂ g₃ g₄ : UInt8}
    (h : strBody cs = some (0x5C :: 0x75 :: g₁ :: g₂ :: g₃ :: g₄ :: raw, r)) :
    ∃ cs', (∃ n, Hex4 [g₁, g₂, g₃, g₄] n) ∧ cs = 0x5C :: 0x75 :: ([g₁, g₂, g₃, g₄] ++ cs') ∧
      strBody cs' = some (raw, r) := by
  cases cs with
  | nil => cases h
  | cons b cs =>
    rcases strBody_cases h with ⟨-, heq, -⟩ | ⟨-, hbs, -, raw', -, heq⟩ |
      ⟨-, x, y, cs', raw', hxy, -, -, heq⟩ | ⟨rfl, hs, n, cs', raw', hn, rfl, hs', heq⟩
    · cases heq
    · exact absurd (List.cons.inj heq).1.symm hbs
    · obtain ⟨rfl, -⟩ := List.cons.inj (List.cons.inj heq).2
      cases hxy
    · obtain ⟨k₁, k₂, k₃, k₄, rfl⟩ := hn.four
      simp only [List.cons_append, List.nil_append, List.cons.injEq, true_and] at heq
      obtain ⟨rfl, rfl, rfl, rfl, rfl⟩ := heq
      exact ⟨cs', ⟨n, hn⟩, rfl, hs'⟩

/-- What the two loops accept is a string of the grammar. -/
theorem chars_of_strBody : ∀ {cs raw r v : Bytes}, Valid cs → strBody cs = some (raw, r) →
    decodeString raw = .ok v → Chars v cs r ∧ Valid r := by
  intro cs
  induction hlen : cs.length using Nat.strong_induction_on generalizing cs with
  | _ n ih =>
    intro raw r v hvalid hbody hdec
    cases cs with
    | nil => cases hbody
    | cons b cs =>
      by_cases hhigh : 0x80 ≤ b.toNat
      · -- a character of several bytes
        obtain ⟨c, rest, hc, hc', heq, hrest⟩ := hvalid.high hhigh
        have hall := encode_high hc hc'
        rw [heq] at hbody hlen ⊢
        rw [strBody_high hall] at hbody
        obtain ⟨⟨raw', r'⟩, hs, heq'⟩ := Option.map_eq_some_iff.1 hbody
        obtain ⟨rfl, rfl⟩ := Prod.mk.inj heq'
        rw [decodeString_high hall] at hdec
        obtain ⟨v', hv', rfl⟩ := except_map_ok hdec
        have hpos := encode_length_pos c
        rw [List.length_append] at hlen
        obtain ⟨h₁, h₂⟩ := ih rest.length (by omega) rfl hrest hs hv'
        exact ⟨.plain hc (by omega) (by omega) (by omega) h₁, h₂⟩
      have hb : b.toNat < 0x80 := Nat.lt_of_not_le hhigh
      have hcs := hvalid.tail hb
      have hlt : cs.length < n := by
        rw [← hlen]
        exact Nat.lt_succ_self _
      rcases strBody_cases hbody with ⟨rfl, rfl, rfl⟩ | ⟨hq, hbs, hge, raw', hs, rfl⟩ |
        ⟨rfl, x, y, cs', raw', hxy, rfl, hs, rfl⟩ | ⟨rfl, hs, m, cs', raw', hm, rfl, hs', rfl⟩
      · rw [decodeString_quote] at hdec
        obtain rfl := Except.ok.inj hdec
        exact ⟨.close, hcs⟩
      · rw [decodeString_plain hq hbs] at hdec
        obtain ⟨v', hv', rfl⟩ := except_map_ok hdec
        obtain ⟨h₁, h₂⟩ := ih cs.length hlt rfl hcs hs hv'
        refine ⟨?_, h₂⟩
        have hne : ∀ k : UInt8, b ≠ k → b.toNat ≠ k.toNat := fun k hk => mt UInt8.toNat_inj.1 hk
        have := Chars.plain (isScalar_ascii hb) hge (hne 0x22 hq) (hne 0x5C hbs) h₁
        rwa [encode_ascii_byte hb] at this
      · rw [decodeString_escape hxy] at hdec
        obtain ⟨v', hv', rfl⟩ := except_map_ok hdec
        obtain ⟨h₁, h₂⟩ := ih cs'.length (Nat.lt_of_succ_lt hlt) rfl (hcs.tail hxy.ascii) hs hv'
        exact ⟨.escape hxy h₁, h₂⟩
      · have hlt' : cs'.length < n := by
          rw [List.length_cons, List.length_append] at hlt
          omega
        have hcs' : Valid cs' := (hcs.tail (by decide)).drop_ascii hm.ascii
        by_cases hsc : IsScalar m
        · rw [decodeString_unicode hm hsc] at hdec
          obtain ⟨v', hv', rfl⟩ := except_map_ok hdec
          obtain ⟨h₁, h₂⟩ := ih cs'.length hlt' rfl hcs' hs' hv'
          exact ⟨.unicode hm hsc h₁, h₂⟩
        · -- the second surrogate comes next
          obtain ⟨hhi, g₁, g₂, g₃, g₄, raw₂, rfl, k, hk, hlo⟩ := decodeString_surrogate hm hsc hdec
          obtain ⟨cs₂, hgs, rfl, hs₂⟩ := strBody_unicode_inv hs'
          obtain ⟨k', hk'⟩ := hgs
          obtain rfl : k' = k := Option.some.inj ((decodeUnicodeEscape_hex4 hk').symm.trans hk)
          rw [show g₁ :: g₂ :: g₃ :: g₄ :: raw₂ = [g₁, g₂, g₃, g₄] ++ raw₂ from rfl,
            decodeString_pair hm hk' hhi hlo] at hdec
          obtain ⟨v', hv', hv⟩ := except_map_ok hdec
          have hcs₂ : Valid cs₂ :=
            ((hcs'.tail (by decide)).tail (by decide)).drop_ascii hk'.ascii
          have hlt₂ : cs₂.length < n := by
            simp only [List.length_cons, List.length_append] at hlt'
            omega
          obtain ⟨h₁, h₂⟩ := ih cs₂.length hlt₂ rfl hcs₂ hs₂ hv'
          rw [hv]
          exact ⟨.pair hm hk' hhi hlo h₁, h₂⟩

theorem strBody_quote : strBody (0x22 :: cs) = some ([0x22], cs) := by
  rw [strBody.eq_def]
  rfl

theorem strBody_plain (h₁ : b ≠ 0x22) (h₂ : b ≠ 0x5C) (h₃ : 0x20 ≤ b.toNat)
    (h : strBody cs = some (raw, r)) : strBody (b :: cs) = some (b :: raw, r) := by
  rw [strBody.eq_def]
  dsimp only
  rw [if_neg h₁, if_neg (by omega), if_neg h₂, h]
  rfl

theorem strBody_escape {y : UInt8} (hxy : Escape x y) (h : strBody cs = some (raw, r)) :
    strBody (0x5C :: x :: cs) = some (0x5C :: x :: raw, r) := by
  have hx : x ≠ 0x75 := by
    rintro rfl
    cases hxy
  rw [strBody.eq_def]
  dsimp only
  rw [if_neg (by decide), if_neg (by decide), if_pos rfl, if_neg hx, unescape_eq_some.2 hxy, h]
  rfl

theorem strBody_unicode (hn : Hex4 hs n) (h : strBody cs = some (raw, r)) :
    strBody (0x5C :: 0x75 :: (hs ++ cs)) = some (0x5C :: 0x75 :: (hs ++ raw), r) := by
  cases hn with
  | intro x₁ x₂ x₃ x₄ =>
    rw [strBody.eq_def]
    dsimp only [List.cons_append, List.nil_append]
    rw [if_neg (by decide), if_neg (by decide), if_pos rfl, if_pos rfl, x₁, x₂, x₃, x₄, h]
    rfl

/-- The two loops accept the strings of the grammar. -/
theorem strBody_of_chars {inp : Bytes} (h : Chars v inp r) :
    ∃ raw, strBody inp = some (raw, r) ∧ decodeString raw = .ok v := by
  induction h with
  | close => exact ⟨_, strBody_quote, decodeString_quote⟩
  | @plain c v inp rest hc hge hq hbs _ ih =>
    obtain ⟨raw, h₁, h₂⟩ := ih
    by_cases hlt : c < 0x80
    · have hne : ∀ k : UInt8, c ≠ k.toNat → UInt8.ofNat c ≠ k := by
        rintro k hk rfl
        exact hk (toNat_byte (by omega)).symm
      have hb : (UInt8.ofNat c).toNat = c := toNat_byte (by omega)
      rw [encode_ascii hlt]
      refine ⟨_, strBody_plain (hne 0x22 hq) (hne 0x5C hbs) (by rw [hb]; exact hge) h₁, ?_⟩
      rw [decodeString_plain (hne 0x22 hq) (hne 0x5C hbs), h₂]
      rfl
    · have hall := encode_high hc (Nat.le_of_not_lt hlt)
      refine ⟨encode c ++ raw, ?_, ?_⟩
      · rw [strBody_high hall, h₁]
        rfl
      · rw [decodeString_high hall, h₂]
        rfl
  | escape hxy _ ih =>
    obtain ⟨raw, h₁, h₂⟩ := ih
    refine ⟨_, strBody_escape hxy h₁, ?_⟩
    rw [decodeString_escape hxy, h₂]
    rfl
  | unicode hn hsc _ ih =>
    obtain ⟨raw, h₁, h₂⟩ := ih
    refine ⟨_, strBody_unicode hn h₁, ?_⟩
    rw [decodeString_unicode hn hsc, h₂]
    rfl
  | pair hm hn hm' hn' _ ih =>
    obtain ⟨raw, h₁, h₂⟩ := ih
    refine ⟨_, strBody_unicode hm (strBody_unicode hn h₁), ?_⟩
    rw [decodeString_pair hm hn hm' hn', h₂, Except.map]

end

/-! ## Numbers -/

section
variable {cs ds r : Bytes}

/-- The text goes on with none of `p`. -/
def Stops (p : UInt8 → Bool) (r : Bytes) : Prop := ∀ c ∈ r.head?, p c = false

theorem takeWhile_append_stops {p : UInt8 → Bool} (hds : ∀ d ∈ ds, p d = true) (hr : Stops p r) :
    (ds ++ r).takeWhile p = ds ∧ (ds ++ r).dropWhile p = r := by
  induction ds with
  | nil =>
    cases r with
    | nil => exact ⟨rfl, rfl⟩
    | cons c r =>
      have hc : ¬ p c = true := by
        rw [hr c rfl]
        exact Bool.false_ne_true
      exact ⟨List.takeWhile_cons_of_neg hc, List.dropWhile_cons_of_neg hc⟩
  | cons d ds ih =>
    obtain ⟨hd, hds⟩ := List.forall_mem_cons.1 hds
    obtain ⟨h₁, h₂⟩ := ih hds
    rw [List.cons_append, List.takeWhile_cons_of_pos hd, List.dropWhile_cons_of_pos hd, h₁]
    exact ⟨rfl, h₂⟩

theorem stops_dropWhile (p : UInt8 → Bool) (cs : Bytes) : Stops p (cs.dropWhile p) := by
  intro c hc
  have := List.head?_dropWhile_not p cs
  rw [hc] at this
  simpa using this

theorem stops_of_takeWhile {p : UInt8 → Bool} (h : cs.takeWhile p = []) : Stops p cs := by
  have happ : cs.dropWhile p = cs := by
    rw [← List.nil_append (cs.dropWhile p), ← h]
    exact List.takeWhile_append_dropWhile
  rw [← happ]
  exact stops_dropWhile p cs

theorem takeWhile_of_stops {p : UInt8 → Bool} (h : Stops p r) : r.takeWhile p = [] := by
  cases r with
  | nil => rfl
  | cons c r =>
    refine List.takeWhile_cons_of_neg ?_
    rw [h c rfl]
    exact Bool.false_ne_true

theorem digits_takeWhile (h : cs.takeWhile isDigit ≠ []) : Digits (cs.takeWhile isDigit) :=
  ⟨h, fun _ hd => List.mem_takeWhile_imp hd⟩

theorem digitsPart_iff : digitsPart cs = some (ds, r) ↔ cs = ds ++ r ∧ Digits ds ∧ Stops isDigit r := by
  constructor
  · intro h
    have happ := digitsPart_append h
    unfold digitsPart at h
    split_ifs at h with hne
    obtain ⟨rfl, rfl⟩ := Prod.mk.inj (Option.some.inj h)
    exact ⟨happ, digits_takeWhile hne, stops_dropWhile _ _⟩
  · rintro ⟨rfl, ⟨hne, hds⟩, hr⟩
    obtain ⟨h₁, h₂⟩ := takeWhile_append_stops hds hr
    unfold digitsPart
    rw [h₁, h₂, if_neg hne]

theorem intPart_iff : intPart cs = some (ds, r) ↔ cs = ds ++ r ∧ IntText ds ∧ Stops isDigit r := by
  constructor
  · intro h
    have happ := intPart_append h
    cases cs with
    | nil => cases h
    | cons c cs =>
      rw [intPart] at h
      split_ifs at h with h0 hnil hd
      · obtain ⟨rfl, rfl⟩ := Prod.mk.inj (Option.some.inj h)
        refine ⟨happ, Or.inl (by rw [h0]), ?_⟩
        exact stops_of_takeWhile hnil
      · obtain ⟨rfl, rfl⟩ := Prod.mk.inj (Option.some.inj h)
        refine ⟨happ, Or.inr ⟨⟨List.cons_ne_nil _ _, ?_⟩, ?_⟩, stops_dropWhile _ _⟩
        · exact List.forall_mem_cons.2 ⟨hd, fun _ hx => List.mem_takeWhile_imp hx⟩
        · rw [List.head?_cons]
          exact fun h => h0 (Option.some.inj h)
  · rintro ⟨rfl, hint, hr⟩
    rcases hint with rfl | ⟨⟨hne, hds⟩, hhead⟩
    · rw [List.cons_append, List.nil_append, intPart, if_pos rfl]
      rw [if_pos (takeWhile_of_stops hr)]
    · cases ds with
      | nil => exact absurd rfl hne
      | cons d ds =>
        obtain ⟨hd, hds⟩ := List.forall_mem_cons.1 hds
        obtain ⟨h₁, h₂⟩ := takeWhile_append_stops hds hr
        have h0 : d ≠ 0x30 := by
          rintro rfl
          exact hhead rfl
        rw [List.cons_append, intPart, if_neg h0, if_pos hd, h₁, h₂]

theorem fracPart_sound {fs : Bytes} (h : fracPart cs = some (fs, r)) : Frac fs := by
  cases cs with
  | nil =>
    obtain ⟨rfl, rfl⟩ := Prod.mk.inj (Option.some.inj h)
    exact Or.inl rfl
  | cons c cs =>
    rw [fracPart] at h
    split_ifs at h with hc
    · obtain ⟨⟨ds', r'⟩, hd, heq⟩ := Option.map_eq_some_iff.1 h
      obtain ⟨rfl, rfl⟩ := Prod.mk.inj heq
      obtain ⟨-, hds, -⟩ := digitsPart_iff.1 hd
      exact Or.inr ⟨ds', by rw [hc], hds⟩
    · obtain ⟨rfl, rfl⟩ := Prod.mk.inj (Option.some.inj h)
      exact Or.inl rfl

theorem fracPart_complete {fs : Bytes} (h : Frac fs) (hr : Stops isDigit r)
    (hr' : Stops (· == 0x2E) r) : fracPart (fs ++ r) = some (fs, r) := by
  rcases h with rfl | ⟨ds, rfl, hds⟩
  · cases r with
    | nil => rfl
    | cons c r =>
      have hc : c ≠ 0x2E := by
        simpa using hr' c rfl
      rw [List.nil_append, fracPart, if_neg hc]
  · rw [List.cons_append, fracPart, if_pos rfl, digitsPart_iff.2 ⟨rfl, hds, hr⟩]
    rfl

theorem sign_sound (p : UInt8 → Bool) (cs : Bytes) :
    (sign p cs).1 = [] ∨ ∃ c, p c = true ∧ (sign p cs).1 = [c] := by
  cases cs with
  | nil => exact Or.inl rfl
  | cons c cs =>
    rw [sign]
    split_ifs with hc
    · exact Or.inr ⟨c, hc, rfl⟩
    · exact Or.inl rfl

theorem sign_none {p : UInt8 → Bool} (h : Stops p cs) : sign p cs = ([], cs) := by
  cases cs with
  | nil => rfl
  | cons c cs =>
    rw [sign, if_neg]
    rw [h c rfl]
    exact Bool.false_ne_true

theorem expPart_sound {xs : Bytes} (h : expPart cs = some (xs, r)) : Expo xs := by
  cases cs with
  | nil =>
    obtain ⟨rfl, rfl⟩ := Prod.mk.inj (Option.some.inj h)
    exact Or.inl rfl
  | cons c cs =>
    rw [expPart] at h
    split_ifs at h with hc
    · obtain ⟨⟨ds', r'⟩, hd, heq⟩ := Option.map_eq_some_iff.1 h
      obtain ⟨rfl, rfl⟩ := Prod.mk.inj heq
      obtain ⟨-, hds, -⟩ := digitsPart_iff.1 hd
      refine Or.inr ⟨c, _, ds', by simpa [isExp] using hc, ?_, hds, rfl⟩
      rcases sign_sound isSign cs with hs | ⟨x, hx, hs⟩
      · exact Or.inl hs
      · rw [hs]
        right
        rcases (by simpa [isSign] using hx : x = 0x2B ∨ x = 0x2D) with rfl | rfl
        · exact Or.inl rfl
        · exact Or.inr rfl
    · obtain ⟨rfl, rfl⟩ := Prod.mk.inj (Option.some.inj h)
      exact Or.inl rfl

theorem Digits.head {p : UInt8 → Bool} (h : Digits ds) (hp : ∀ c, isDigit c = true → p c = false) :
    Stops p (ds ++ r) := by
  obtain ⟨hne, hds⟩ := h
  cases ds with
  | nil => exact absurd rfl hne
  | cons d ds =>
    intro c hc
    obtain rfl := Option.some.inj hc
    exact hp d (hds d List.mem_cons_self)

theorem expPart_complete {xs : Bytes} (h : Expo xs) (hr : Stops isDigit r) (hr' : Stops isExp r) :
    expPart (xs ++ r) = some (xs, r) := by
  rcases h with rfl | ⟨x, s, ds, hx, hs, hds, rfl⟩
  · cases r with
    | nil => rfl
    | cons c r =>
      have hc : ¬ isExp c = true := by
        rw [hr' c rfl]
        exact Bool.false_ne_true
      rw [List.nil_append, expPart, if_neg hc]
  · have hx' : isExp x = true := by
      rcases hx with rfl | rfl <;> rfl
    have hsign : sign isSign (s ++ (ds ++ r)) = (s, ds ++ r) := by
      rcases hs with rfl | rfl | rfl
      · refine sign_none (hds.head ?_)
        intro c hc
        simp only [isDigit, Bool.and_eq_true, decide_eq_true_eq, UInt8.le_iff_toNat_le,
          UInt8.reduceToNat] at hc
        simp only [isSign, Bool.or_eq_false_iff, beq_eq_false_iff_ne]
        constructor <;> rintro rfl <;> exact absurd hc (by decide)
      · rfl
      · rfl
    rw [List.cons_append, List.append_assoc, expPart, if_pos hx', hsign,
      digitsPart_iff.2 ⟨rfl, hds, hr⟩]
    rfl

end

theorem jsonStrtoint_eq_some {text : Bytes} {i : Int64} :
    jsonStrtoint text = some i ↔ i.toInt = intVal text := by
  unfold jsonStrtoint
  constructor
  · intro h
    split_ifs at h with hr
    rw [← Option.some.inj h]
    exact Int64.toInt_ofInt_of_le hr.1 hr.2
  · intro h
    rw [← h, if_pos ⟨i.le_toInt, i.toInt_lt⟩, Int64.ofInt_toInt]

/-! ## Tokens -/

/-- What comes after a value: whitespace or punctuation, or nothing. -/
def followers : Bytes := [0x20, 0x09, 0x0A, 0x0D, 0x2C, 0x3A, 0x5D, 0x7D]

def Follow (r : Bytes) : Prop := ∀ c ∈ r.head?, c ∈ followers

theorem Follow.stops {r : Bytes} {p : UInt8 → Bool} (h : Follow r)
    (hp : ∀ c ∈ followers, p c = false) : Stops p r := fun c hc => hp c (h c hc)

theorem isSpace_mem (h : isSpace c = true) : c ∈ followers := by
  simp only [isSpace, Bool.or_eq_true, beq_iff_eq] at h
  rcases h with ((rfl | rfl) | rfl) | rfl <;> decide

theorem ws_refl (rest : Bytes) : Ws rest rest := ⟨[], List.forall_mem_nil _, rfl⟩

theorem Ws.follow {r rest : Bytes} (h : Ws r rest) (hf : Follow rest) : Follow r := by
  obtain ⟨ws, hws, rfl⟩ := h
  cases ws with
  | nil => exact hf
  | cons w ws =>
    intro c hc
    obtain rfl := Option.some.inj hc
    exact isSpace_mem (hws w List.mem_cons_self)

theorem Ws.dropWhile {r rest : Bytes} (h : Ws r rest) (hs : Stops isSpace rest) :
    r.dropWhile isSpace = rest := by
  obtain ⟨ws, hws, rfl⟩ := h
  exact (takeWhile_append_stops hws hs).2

theorem ws_dropWhile (r : Bytes) : Ws r (r.dropWhile isSpace) :=
  ⟨r.takeWhile isSpace, fun _ h => List.mem_takeWhile_imp h, List.takeWhile_append_dropWhile.symm⟩

section
variable {R : Type}

/-- A token at the beginning of a text. -/
inductive Tok (strtod : Bytes → Option R) (flags : LoadFlags) : Token R → Bytes → Bytes → Prop where
  | punct {c : UInt8} {rest : Bytes} : isPunct c = true → Tok strtod flags (.punct c) (c :: rest) rest
  | string {v inp rest : Bytes} : Chars v inp rest → Tok strtod flags (.string v) (0x22 :: inp) rest
  | integer {i : Int64} {m ds rest : Bytes} : flags.decodeIntAsReal = Bool.false → Minus m →
      IntText ds → i.toInt = intVal (m ++ ds) → Tok strtod flags (.integer i) (m ++ ds ++ rest) rest
  | real {r : R} {m ds fs xs rest : Bytes} : flags.decodeIntAsReal = Bool.true ∨ fs ++ xs ≠ [] →
      Minus m → IntText ds → Frac fs → Expo xs → strtod (m ++ ds ++ fs ++ xs) = some r →
      Tok strtod flags (.real r) (m ++ ds ++ fs ++ xs ++ rest) rest
  | true {rest : Bytes} : Tok strtod flags .true (ascii "true" ++ rest) rest
  | false {rest : Bytes} : Tok strtod flags .false (ascii "false" ++ rest) rest
  | null {rest : Bytes} : Tok strtod flags .null (ascii "null" ++ rest) rest

variable {e : Conf R δ} {bad : Bool}

theorem minus_sign (cs : Bytes) : Minus (sign (· == 0x2D) cs).1 := by
  rcases sign_sound (· == 0x2D) cs with h | ⟨c, hc, h⟩
  · exact Or.inl h
  · rw [h, beq_iff_eq.1 hc]
    exact Or.inr rfl

/-- A number that does not end as an integer has a fraction or an exponent. -/
theorem endsInt_false {r fs xs r₁ r₂ : Bytes} (h : endsInt r = false)
    (hf : fracPart r = some (fs, r₁)) (hx : expPart r₁ = some (xs, r₂)) : fs ++ xs ≠ [] := by
  cases r with
  | nil => cases h
  | cons c r =>
    simp only [endsInt, Bool.and_eq_false_iff, bne_eq_false_iff_eq, Bool.not_eq_false'] at h
    rw [fracPart] at hf
    split_ifs at hf with hc
    · obtain ⟨⟨ds', r'⟩, -, heq⟩ := Option.map_eq_some_iff.1 hf
      obtain ⟨rfl, -⟩ := Prod.mk.inj heq
      exact List.cons_ne_nil _ _
    · obtain ⟨rfl, rfl⟩ := Prod.mk.inj (Option.some.inj hf)
      rw [expPart, if_pos (h.resolve_left hc)] at hx
      obtain ⟨⟨ds', r'⟩, -, heq⟩ := Option.map_eq_some_iff.1 hx
      obtain ⟨rfl, -⟩ := Prod.mk.inj heq
      exact List.cons_ne_nil _ _

variable {t : Token R}

theorem scanNumber_sound {cs rest : Bytes} (h0 : 0 ∉ cs)
    (h : scanNumber e cs = some (t, rest)) :
    Tok e.strtod e.flags t cs rest ∧ ∀ v, t ≠ .string v := by
  have hsign := sign_append (· == 0x2D) cs
  have hminus := minus_sign cs
  unfold scanNumber at h
  generalize sign (· == 0x2D) cs = s at h hsign hminus
  obtain ⟨m, cs'⟩ := s
  dsimp only at h hsign hminus
  obtain ⟨⟨ds, r⟩, hint, h⟩ := Option.bind_eq_some_iff.1 h
  obtain ⟨hcs', hds, -⟩ := intPart_iff.1 hint
  rw [hcs'] at hsign
  have h0' : 0 ∉ r := fun hm => h0 (by simp [← hsign, hm])
  dsimp only at h
  split_ifs at h with hends
  · obtain ⟨i, hi, heq⟩ := Option.map_eq_some_iff.1 h
    obtain ⟨rfl, rfl⟩ := Prod.mk.inj heq
    simp only [Bool.and_eq_true, Bool.not_eq_true'] at hends
    rw [← hsign, dropNul_eq h0', ← List.append_assoc]
    exact ⟨.integer hends.1 hminus hds (jsonStrtoint_eq_some.1 hi), fun v hv => by cases hv⟩
  · obtain ⟨⟨fs, r₁⟩, hfrac, h⟩ := Option.bind_eq_some_iff.1 h
    obtain ⟨⟨xs, r₂⟩, hexp, h⟩ := Option.bind_eq_some_iff.1 h
    obtain ⟨x, hx, heq⟩ := Option.map_eq_some_iff.1 h
    obtain ⟨rfl, rfl⟩ := Prod.mk.inj heq
    have hne : e.flags.decodeIntAsReal = true ∨ fs ++ xs ≠ [] := by
      simp only [Bool.and_eq_true, Bool.not_eq_true', not_and, Bool.not_eq_true] at hends
      cases hi : e.flags.decodeIntAsReal with
      | true => exact Or.inl rfl
      | false => exact Or.inr (endsInt_false (hends hi) hfrac hexp)
    have h₁ := fracPart_append hfrac
    have h₂ := expPart_append hexp
    subst h₁ h₂
    rw [← hsign, dropNul_eq (fun hm => h0' (by simp [hm]))]
    simp only [← List.append_assoc]
    exact ⟨.real hne hminus hds (fracPart_sound hfrac) (expPart_sound hexp) hx,
      fun v hv => by cases hv⟩

theorem scanIdent_sound {cs rest : Bytes} (h0 : 0 ∉ cs)
    (h : scanIdent cs = some (t, rest)) : Tok e.strtod e.flags t cs rest ∧ ∀ v, t ≠ .string v := by
  have happ : cs.takeWhile isAlpha ++ cs.dropWhile isAlpha = cs := List.takeWhile_append_dropWhile
  have hd : dropNul (cs.dropWhile isAlpha) = cs.dropWhile isAlpha :=
    dropNul_eq fun hm => h0 (List.dropWhile_subset _ hm)
  unfold scanIdent identToken at h
  rw [hd] at h
  split_ifs at h with h₁ h₂ h₃
  · obtain ⟨rfl, rfl⟩ := Prod.mk.inj (Option.some.inj h)
    rw [h₁] at happ
    nth_rewrite 1 [← happ]
    exact ⟨.true, fun v hv => by cases hv⟩
  · obtain ⟨rfl, rfl⟩ := Prod.mk.inj (Option.some.inj h)
    rw [h₂] at happ
    nth_rewrite 1 [← happ]
    exact ⟨.false, fun v hv => by cases hv⟩
  · obtain ⟨rfl, rfl⟩ := Prod.mk.inj (Option.some.inj h)
    rw [h₃] at happ
    nth_rewrite 1 [← happ]
    exact ⟨.null, fun v hv => by cases hv⟩

/-! ## The bytes of a number -/

def IsAscii (bs : Bytes) : Prop := ∀ b ∈ bs, b.toNat < 0x80

theorem IsAscii.append {bs bs' : Bytes} (h : IsAscii bs) (h' : IsAscii bs') : IsAscii (bs ++ bs') :=
  List.forall_mem_append.2 ⟨h, h'⟩

theorem isDigit_lt (h : isDigit c = true) : c.toNat < 0x80 := by
  simp only [isDigit, Bool.and_eq_true, decide_eq_true_eq, UInt8.le_iff_toNat_le,
    UInt8.reduceToNat] at h
  omega

theorem Digits.isAscii {ds : Bytes} (h : Digits ds) : IsAscii ds := fun d hd => isDigit_lt (h.2 d hd)

theorem Minus.isAscii {m : Bytes} (h : Minus m) : IsAscii m := by
  rcases h with rfl | rfl <;> simp [IsAscii]

theorem IntText.digits {ds : Bytes} (h : IntText ds) : Digits ds := by
  rcases h with rfl | ⟨h, -⟩
  · exact ⟨List.cons_ne_nil _ _, by simp [isDigit]⟩
  · exact h

theorem Frac.isAscii {fs : Bytes} (h : Frac fs) : IsAscii fs := by
  rcases h with rfl | ⟨ds, rfl, hds⟩
  · simp [IsAscii]
  · exact List.forall_mem_cons.2 ⟨by decide, hds.isAscii⟩

theorem Expo.isAscii {xs : Bytes} (h : Expo xs) : IsAscii xs := by
  rcases h with rfl | ⟨x, s, ds, hx, hs, hds, rfl⟩
  · simp [IsAscii]
  · refine List.forall_mem_cons.2 ⟨?_, IsAscii.append ?_ hds.isAscii⟩
    · rcases hx with rfl | rfl <;> decide
    · rcases hs with rfl | rfl | rfl <;> simp [IsAscii]

theorem isPunct_lt (h : isPunct c = true) : c.toNat < 0x80 := by
  simp only [isPunct, Bool.or_eq_true, beq_iff_eq] at h
  rcases h with ((((rfl | rfl) | rfl) | rfl) | rfl) | rfl <;> decide

/-- A token that is no string is in ASCII. -/
theorem Tok.isAscii {strtod : Bytes → Option R} {flags : LoadFlags}
    {inp rest : Bytes} (h : Tok strtod flags t inp rest) :
    (∃ v inp', t = .string v ∧ inp = 0x22 :: inp' ∧ Chars v inp' rest) ∨
      ∃ pre, inp = pre ++ rest ∧ IsAscii pre := by
  cases h with
  | punct hc => exact Or.inr ⟨[_], rfl, by simpa [IsAscii] using isPunct_lt hc⟩
  | string hc => exact Or.inl ⟨_, _, rfl, rfl, hc⟩
  | integer _ hm hds _ => exact Or.inr ⟨_, rfl, hm.isAscii.append hds.digits.isAscii⟩
  | real _ hm hds hfs hxs _ =>
    exact Or.inr ⟨_, rfl,
      ((hm.isAscii.append hds.digits.isAscii).append hfs.isAscii).append hxs.isAscii⟩
  | true => exact Or.inr ⟨_, rfl, by unfold IsAscii; decide⟩
  | false => exact Or.inr ⟨_, rfl, by unfold IsAscii; decide⟩
  | null => exact Or.inr ⟨_, rfl, by unfold IsAscii; decide⟩

/-! ## Soundness of the scanner -/

theorem isSpace_lt (h : isSpace c = true) : c.toNat < 0x80 := by
  simp only [isSpace, Bool.or_eq_true, beq_iff_eq] at h
  rcases h with ((rfl | rfl) | rfl) | rfl <;> decide

theorem valid_dropWhile_isSpace {text : Bytes} (h : Valid text) : Valid (text.dropWhile isSpace) := by
  rw [← @List.takeWhile_append_dropWhile _ isSpace text] at h
  exact h.drop_ascii fun b hb => isSpace_lt (List.mem_takeWhile_imp hb)

/-- A text that can be scanned: it is valid and has no 0. -/
structure Clean (text : Bytes) : Prop where
  valid : Valid text
  nul : 0 ∉ text

theorem Clean.dropWhile {text : Bytes} (h : Clean text) : Clean (text.dropWhile isSpace) :=
  ⟨valid_dropWhile_isSpace h.valid, fun hm => h.nul (List.dropWhile_subset _ hm)⟩

theorem Clean.drop_ascii {pre text : Bytes} (h : Clean (pre ++ text)) (hpre : IsAscii pre) :
    Clean text :=
  ⟨h.valid.drop_ascii hpre, fun hm => h.nul (List.mem_append_right _ hm)⟩

theorem Chars.suffix {v inp rest : Bytes} (h : Chars v inp rest) : rest <:+ inp := by
  induction h with
  | close => exact List.suffix_cons _ _
  | plain _ _ _ _ _ ih => exact ih.trans (List.suffix_append _ _)
  | escape _ _ ih => exact (ih.trans (List.suffix_cons _ _)).trans (List.suffix_cons _ _)
  | unicode _ _ _ ih =>
    exact ((ih.trans (List.suffix_append _ _)).trans (List.suffix_cons _ _)).trans
      (List.suffix_cons _ _)
  | @pair m n hs gs v inp rest _ _ _ _ _ ih =>
    have h₁ := ih.trans (List.suffix_append gs inp)
    have h₂ := (h₁.trans (List.suffix_cons 0x75 _)).trans (List.suffix_cons 0x5C _)
    have h₃ := h₂.trans (List.suffix_append hs _)
    exact (h₃.trans (List.suffix_cons _ _)).trans (List.suffix_cons _ _)

theorem scanString_sound {cs rest : Bytes} (hcs : Clean cs)
    (h : scanString cs = some (t, rest)) :
    Tok e.strtod e.flags t (0x22 :: cs) rest ∧ Clean rest := by
  unfold scanString at h
  obtain ⟨⟨raw, r⟩, hbody, h⟩ := Option.bind_eq_some_iff.1 h
  dsimp only at h
  split at h
  · cases h
  · rename_i v hdec
    obtain ⟨rfl, rfl⟩ := Prod.mk.inj (Option.some.inj h)
    obtain ⟨hchars, hrest⟩ := chars_of_strBody hcs.valid hbody hdec
    exact ⟨.string hchars, hrest, fun hm => hcs.nul (hchars.suffix.subset hm)⟩

/-- **What the scanner finds is a token of the grammar, after whitespace.** -/
theorem scan_sound {text rest : Bytes} (htext : Clean text)
    (h : scan e bad text = some (t, rest)) :
    (t = .eof ∧ rest = [] ∧ bad = false ∧ Ws text []) ∨
      ∃ inp, Ws text inp ∧ Tok e.strtod e.flags t inp rest ∧ Clean rest := by
  have hws := ws_dropWhile text
  have hclean := htext.dropWhile
  unfold scan at h
  generalize text.dropWhile isSpace = inp at h hws hclean
  cases inp with
  | nil =>
    dsimp only at h
    split_ifs at h with hb
    obtain ⟨rfl, rfl⟩ := Prod.mk.inj (Option.some.inj h)
    exact Or.inl ⟨rfl, rfl, by simpa using hb, hws⟩
  | cons c cs =>
    right
    refine ⟨c :: cs, hws, ?_⟩
    -- a token in ASCII leaves a valid text
    have hascii : ∀ (ht : Tok e.strtod e.flags t (c :: cs) rest), (∀ v, t ≠ .string v) →
        Tok e.strtod e.flags t (c :: cs) rest ∧ Clean rest := by
      intro ht hne
      rcases ht.isAscii with ⟨v, -, hv, -⟩ | ⟨pre, heq, hpre⟩
      · exact absurd hv (hne v)
      · rw [heq] at hclean
        exact ⟨ht, hclean.drop_ascii hpre⟩
    dsimp only at h
    split_ifs at h with h₁ h₂ h₃ h₄
    · obtain ⟨rfl, rfl⟩ := Prod.mk.inj (Option.some.inj h)
      exact hascii (.punct h₁) fun v hv => by cases hv
    · subst h₂
      have hcs : Clean cs := Clean.drop_ascii (show Clean ([0x22] ++ cs) from hclean) (by simp [IsAscii])
      exact scanString_sound hcs h
    · obtain ⟨ht, hne⟩ := scanNumber_sound hclean.nul h
      exact hascii ht hne
    · obtain ⟨ht, hne⟩ := scanIdent_sound hclean.nul h
      exact hascii ht hne

/-! ## Completeness of the scanner -/

theorem Follow.dropNul {r : Bytes} (h : Follow r) : dropNul r = r := by
  cases r with
  | nil => rfl
  | cons c r =>
    have hc := h c rfl
    rw [Jansson.dropNul, if_neg]
    rintro rfl
    exact absurd hc (by decide)

theorem scan_cons {text cs : Bytes} (hws : Ws text (c :: cs)) (hc : isSpace c = false) :
    scan e bad text =
      if isPunct c then some (.punct c, cs)
      else if c = 0x22 then scanString cs
      else if isDigit c || c == 0x2D then scanNumber e (c :: cs)
      else if isAlpha c then scanIdent (c :: cs)
      else none := by
  unfold scan
  rw [hws.dropWhile (by rintro _ h; rwa [← Option.some.inj h])]

theorem isPunct_notSpace (h : isPunct c = true) : isSpace c = false := by
  simp only [isPunct, Bool.or_eq_true, beq_iff_eq] at h
  rcases h with ((((rfl | rfl) | rfl) | rfl) | rfl) | rfl <;> rfl

theorem scan_punct {text rest : Bytes} (hc : isPunct c = true)
    (hws : Ws text (c :: rest)) : scan e bad text = some (.punct c, rest) := by
  rw [scan_cons hws (isPunct_notSpace hc), if_pos hc]

theorem scan_eof {text : Bytes} (hws : Ws text []) : scan e false text = some (.eof, []) := by
  unfold scan
  rw [hws.dropWhile (by rintro _ h; cases h)]
  rfl

theorem isDigit_cases (h : isDigit c = true) :
    isSpace c = false ∧ isPunct c = false ∧ c ≠ 0x22 ∧ c ≠ 0x2D := by
  simp only [isDigit, Bool.and_eq_true, decide_eq_true_eq, UInt8.le_iff_toNat_le,
    UInt8.reduceToNat] at h
  have hne : ∀ k : UInt8, ¬ (48 ≤ k.toNat ∧ k.toNat ≤ 57) → c ≠ k := by
    rintro k hk rfl
    exact hk h
  have h₁ := hne 0x20 (by decide)
  have h₂ := hne 0x09 (by decide)
  have h₃ := hne 0x0A (by decide)
  have h₄ := hne 0x0D (by decide)
  have h₅ := hne 0x7B (by decide)
  have h₆ := hne 0x7D (by decide)
  have h₇ := hne 0x5B (by decide)
  have h₈ := hne 0x5D (by decide)
  have h₉ := hne 0x3A (by decide)
  have h₁₀ := hne 0x2C (by decide)
  exact ⟨by simp [isSpace, *], by simp [isPunct, *], hne _ (by decide), hne _ (by decide)⟩

/-- A number begins with a sign or a digit. -/
theorem scan_number {text m ds r : Bytes} (hm : Minus m) (hds : IntText ds)
    (hws : Ws text (m ++ ds ++ r)) : scan e bad text = scanNumber e (m ++ ds ++ r) := by
  rcases hm with rfl | rfl
  · obtain ⟨hne, hall⟩ := hds.digits
    cases ds with
    | nil => exact absurd rfl hne
    | cons d ds =>
      have hd := hall d List.mem_cons_self
      obtain ⟨h₁, h₂, h₃, h₄⟩ := isDigit_cases hd
      rw [List.nil_append, List.cons_append] at hws ⊢
      rw [scan_cons hws h₁, if_neg (by rw [h₂]; exact Bool.false_ne_true), if_neg h₃,
        if_pos (by rw [hd]; rfl)]
  · rw [List.cons_append, List.nil_append, List.cons_append] at hws ⊢
    rw [scan_cons hws rfl]
    rfl

theorem sign_minus {m ds r : Bytes} (hm : Minus m) (hds : Digits ds) :
    sign (· == 0x2D) (m ++ (ds ++ r)) = (m, ds ++ r) := by
  rcases hm with rfl | rfl
  · refine sign_none (hds.head ?_)
    intro c hc
    simpa using (isDigit_cases hc).2.2.2
  · rfl

theorem scanNumber_integer {i : Int64} {m ds rest : Bytes} (hi : e.flags.decodeIntAsReal = false)
    (hm : Minus m) (hds : IntText ds) (hval : i.toInt = intVal (m ++ ds)) (hf : Follow rest) :
    scanNumber e (m ++ ds ++ rest) = some (.integer i, rest) := by
  have hends : endsInt rest = true := by
    cases rest with
    | nil => rfl
    | cons c rest =>
      have h₁ := @Follow.stops _ (· == 0x2E) hf (by decide) c rfl
      have h₂ := @Follow.stops _ isExp hf (by decide) c rfl
      simp only [endsInt, h₂, bne, h₁]
      rfl
  unfold scanNumber
  rw [List.append_assoc, sign_minus hm hds.digits]
  dsimp only
  rw [intPart_iff.2 ⟨rfl, hds, hf.stops (by decide)⟩, Option.bind_some]
  dsimp only
  rw [hi, hends, if_pos (by rfl), jsonStrtoint_eq_some.2 hval, hf.dropNul]
  rfl

theorem Expo.stops {p : UInt8 → Bool} {xs rest : Bytes} (h : Expo xs) (hf : Follow rest)
    (hp : ∀ c ∈ followers, p c = false) (h₁ : p 0x45 = false) (h₂ : p 0x65 = false) :
    Stops p (xs ++ rest) := by
  rcases h with rfl | ⟨x, s, ds, hx, hs, hds, rfl⟩
  · exact hf.stops hp
  · intro c hc
    obtain rfl := Option.some.inj hc
    rcases hx with rfl | rfl
    · exact h₁
    · exact h₂

theorem Frac.stops {p : UInt8 → Bool} {fs r : Bytes} (h : Frac fs) (hr : Stops p r)
    (h₁ : p 0x2E = false) : Stops p (fs ++ r) := by
  rcases h with rfl | ⟨ds, rfl, -⟩
  · exact hr
  · intro c hc
    obtain rfl := Option.some.inj hc
    exact h₁

theorem scanNumber_real {r : R} {m ds fs xs rest : Bytes}
    (hne : e.flags.decodeIntAsReal = true ∨ fs ++ xs ≠ [])
    (hm : Minus m) (hds : IntText ds) (hfs : Frac fs) (hxs : Expo xs)
    (hval : e.strtod (m ++ ds ++ fs ++ xs) = some r) (hf : Follow rest) :
    scanNumber e (m ++ ds ++ fs ++ xs ++ rest) = some (.real r, rest) := by
  have hends : ¬ (!e.flags.decodeIntAsReal && endsInt (fs ++ (xs ++ rest))) = true := by
    rcases hne with hi | hne
    · simp [hi]
    have hends : endsInt (fs ++ (xs ++ rest)) = false := by
      rcases hfs with rfl | ⟨ds, rfl, -⟩
      · rcases hxs with rfl | ⟨x, s, ds, hx, -, -, rfl⟩
        · exact absurd rfl hne
        · rcases hx with rfl | rfl <;> rfl
      · rfl
    simp [hends]
  have hdig : Stops isDigit (xs ++ rest) := hxs.stops hf (by decide) rfl rfl
  have hint := hfs.stops hdig rfl
  have happ : m ++ ds ++ fs ++ xs ++ rest = m ++ (ds ++ (fs ++ (xs ++ rest))) := by
    simp only [List.append_assoc]
  unfold scanNumber
  rw [happ, sign_minus hm hds.digits]
  dsimp only
  rw [intPart_iff.2 ⟨rfl, hds, hint⟩, Option.bind_some]
  dsimp only
  rw [if_neg hends,
    fracPart_complete hfs hdig (hxs.stops hf (by decide) rfl rfl), Option.bind_some]
  dsimp only
  rw [expPart_complete hxs (hf.stops (by decide)) (hf.stops (by decide)), Option.bind_some]
  dsimp only
  rw [hval, hf.dropNul]
  rfl

/-- An identifier is read to its end. -/
theorem scan_ident {text name rest : Bytes} {cs : Bytes} (hname : name = c :: cs)
    (halpha : ∀ x ∈ name, isAlpha x = true)
    (hc : isSpace c = false ∧ isPunct c = false ∧ c ≠ 0x22 ∧ (isDigit c || c == 0x2D) = false)
    (hf : Follow rest) (hws : Ws text (name ++ rest)) :
    scan e bad text = scanIdent (name ++ rest) ∧ (name ++ rest).takeWhile isAlpha = name ∧
      dropNul ((name ++ rest).dropWhile isAlpha) = rest := by
  obtain ⟨h₁, h₂⟩ := takeWhile_append_stops halpha (hf.stops (p := isAlpha) (by decide))
  refine ⟨?_, h₁, by rw [h₂, hf.dropNul]⟩
  subst hname
  obtain ⟨g₁, g₂, g₃, g₄⟩ := hc
  rw [List.cons_append] at hws ⊢
  rw [scan_cons hws g₁, g₂, g₄, if_neg Bool.false_ne_true, if_neg g₃, if_neg Bool.false_ne_true,
    if_pos (halpha c List.mem_cons_self)]

theorem scanString_complete {v inp rest : Bytes} (h : Chars v inp rest) :
    scanString inp = some ((.string v : Token R), rest) := by
  obtain ⟨raw, hbody, hdec⟩ := strBody_of_chars h
  unfold scanString
  rw [hbody, Option.bind_some]
  dsimp only
  rw [hdec]

/-- **The scanner finds the tokens of the grammar.** -/
theorem scan_complete {text inp rest : Bytes}
    (hws : Ws text inp) (ht : Tok e.strtod e.flags t inp rest) (hf : Follow rest) :
    scan e bad text = some (t, rest) := by
  cases ht with
  | punct hc => exact scan_punct hc hws
  | string hc =>
    rw [scan_cons hws rfl]
    exact scanString_complete hc
  | integer hi hm hds hval =>
    rw [scan_number hm hds hws]
    exact scanNumber_integer hi hm hds hval hf
  | @real r m ds fs xs _ hne hm hds hfs hxs hval =>
    have happ : m ++ ds ++ fs ++ xs ++ rest = m ++ ds ++ (fs ++ (xs ++ rest)) := by
      simp only [List.append_assoc]
    rw [scan_number hm hds (happ ▸ hws), ← happ]
    exact scanNumber_real hne hm hds hfs hxs hval hf
  | true =>
    obtain ⟨h₁, h₂, h₃⟩ := scan_ident rfl (by decide) (by decide) hf hws
    rw [h₁, scanIdent, h₂, h₃]
    rfl
  | false =>
    obtain ⟨h₁, h₂, h₃⟩ := scan_ident rfl (by decide) (by decide) hf hws
    rw [h₁, scanIdent, h₂, h₃]
    rfl
  | null =>
    obtain ⟨h₁, h₂, h₃⟩ := scan_ident rfl (by decide) (by decide) hf hws
    rw [h₁, scanIdent, h₂, h₃]
    rfl

end

end Jansson
