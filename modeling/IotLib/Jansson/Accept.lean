/-
  The decoder accepts the texts of the grammar, and its result is what they denote.
-/
import IotLib.Jansson.Parse

namespace Jansson

section
variable {R δ : Type} {e : Conf R δ} {bad : Bool} {V : Json R → Bytes → Bytes → Prop}
  {tv : TextValue R}

/-! ## What is accepted is in the grammar -/

/-- What the parser `tv` accepts is in `V`. -/
structure Sound (e : Conf R δ) (V : Json R → Bytes → Bytes → Prop) (tv : TextValue R) : Prop where
  value : ∀ {t : Token R} {inp text : Bytes} {v : Json R} {rest : Bytes},
    Tok e.strtod e.flags t inp text → Clean text → tv (t, text) = some (v, rest) → V v inp rest ∧ Clean rest
  eof : ∀ {text : Bytes}, tv (.eof, text) = none

variable {text rest : Bytes}

/-- A token of punctuation. -/
theorem scan_punct_sound {c : UInt8}
    (htext : Clean text) (h : scan e bad text = some (.punct c, rest)) :
    Ws text (c :: rest) ∧ Clean rest := by
  rcases scan_sound htext h with ⟨ht, -⟩ | ⟨inp, hws, ht, hrest⟩
  · cases ht
  · cases ht with
    | punct _ => exact ⟨hws, hrest⟩

/-- The scanner gives a value its first token. -/
theorem Sound.scan (hs : Sound e V tv)
    {v : Json R} (htext : Clean text) (h : (scan e bad text).bind tv = some (v, rest)) :
    ∃ inp, Ws text inp ∧ V v inp rest ∧ Clean rest := by
  obtain ⟨⟨t, text'⟩, hscan, hv⟩ := Option.bind_eq_some_iff.1 h
  rcases scan_sound htext hscan with ⟨rfl, -⟩ | ⟨inp, hws, ht, htext'⟩
  · rw [hs.eof] at hv
    cases hv
  · exact ⟨inp, hws, hs.value ht htext' hv⟩

theorem textElems_sound (hs : Sound e V tv) :
    ∀ (n : Nat) {array : List (Json R)} {t : Token R} {inp text : Bytes} {v : Json R}
      {rest : Bytes}, Tok e.strtod e.flags t inp text → Clean text →
      textElems e bad tv n array (t, text) = some (v, rest) →
      ∃ vs, v = .array (array ++ vs) ∧ Elems V vs inp rest ∧ Clean rest
  | 0, _, _, _, _, _, _, _, _, h => by cases h
  | n + 1, array, t, inp, text, v, rest, ht, htext, h => by
    rw [textElems] at h
    obtain ⟨⟨x, r₁⟩, hx, h⟩ := Option.bind_eq_some_iff.1 h
    obtain ⟨⟨t₁, r₂⟩, hscan, h⟩ := Option.bind_eq_some_iff.1 h
    obtain ⟨hV, hr₁⟩ := hs.value ht htext hx
    dsimp only at h
    split at h
    · -- a comma: the rest is an array again
      obtain ⟨⟨t₃, r₃⟩, hscan₃, h⟩ := Option.bind_eq_some_iff.1 h
      obtain ⟨hws, hr₂⟩ := scan_punct_sound hr₁ hscan
      rcases scan_sound hr₂ hscan₃ with ⟨rfl, -⟩ | ⟨inp₃, hws₃, ht₃, hr₃⟩
      · cases n with
        | zero => cases h
        | succ n =>
          rw [textElems, hs.eof] at h
          cases h
      · obtain ⟨vs, hv, hvs, hrest⟩ := textElems_sound hs n ht₃ hr₃ h
        refine ⟨x :: vs, ?_, .more hV hws hws₃ hvs, hrest⟩
        rw [hv, List.append_assoc, List.singleton_append]
    · obtain ⟨rfl, rfl⟩ := Prod.mk.inj (Option.some.inj h)
      obtain ⟨hws, hr₂⟩ := scan_punct_sound hr₁ hscan
      exact ⟨[x], rfl, .last hV hws, hr₂⟩
    · cases h

theorem textArray_sound (hs : Sound e V tv)
    {v : Json R} (htext : Clean text)
    (h : textArray e bad tv text = some (v, rest)) :
    Rule V false e.strtod e.flags v (0x5B :: text) rest ∧ v.IsContainer ∧ Clean rest := by
  unfold textArray at h
  obtain ⟨⟨t, r⟩, hscan, h⟩ := Option.bind_eq_some_iff.1 h
  dsimp only at h
  split at h
  · obtain ⟨rfl, rfl⟩ := Prod.mk.inj (Option.some.inj h)
    obtain ⟨hws, hr⟩ := scan_punct_sound htext hscan
    exact ⟨.emptyArray hws, trivial, hr⟩
  · rcases scan_sound htext hscan with ⟨rfl, -⟩ | ⟨inp, hws, ht, hr⟩
    · cases hn : e.steps with
      | zero =>
        rw [hn] at h
        cases h
      | succ n =>
        rw [hn, textElems, hs.eof] at h
        cases h
    · obtain ⟨vs, rfl, hvs, hrest⟩ := textElems_sound hs _ ht hr h
      exact ⟨.array hws hvs, trivial, hrest⟩

/-- No key comes twice. -/
def Distinct (flags : LoadFlags) (object ms : List (Bytes × Json R)) : Prop :=
  flags.rejectDuplicates = true → (object.map Prod.fst).Nodup →
    (object.map Prod.fst ++ ms.map Prod.fst).Nodup

theorem textMembers_sound (hs : Sound e V tv) :
    ∀ (n : Nat) {object : List (Bytes × Json R)} {t : Token R} {inp text : Bytes} {v : Json R}
      {rest : Bytes}, Tok e.strtod e.flags t inp text → Clean text →
      textMembers e bad tv n object (t, text) = some (v, rest) →
      ∃ ms, v = .object (ms.foldl (fun object m => objectSet m.1 m.2 object) object) ∧
        Members V false ms inp rest ∧ Distinct e.flags object ms ∧ Clean rest
  | 0, _, _, _, _, _, _, _, _, h => by cases h
  | n + 1, object, t, inp, text, v, rest, ht, htext, h => by
    rw [textMembers.eq_def] at h
    dsimp only at h
    split at h
    · rename_i key
      cases ht with
      | @string _ inp _ hkey =>
      split_ifs at h with h0 hdup
      obtain ⟨⟨t₁, r₁⟩, hscan₁, h⟩ := Option.bind_eq_some_iff.1 h
      dsimp only at h
      split at h
      · obtain ⟨hws₁, hr₁⟩ := scan_punct_sound htext hscan₁
        obtain ⟨⟨x, r₂⟩, hx, h⟩ := Option.bind_eq_some_iff.1 h
        obtain ⟨⟨t₃, r₃⟩, hscan₃, h⟩ := Option.bind_eq_some_iff.1 h
        obtain ⟨inp₂, hws₂, hV, hr₂⟩ := hs.scan hr₁ hx
        have hmem : Member V false key x (0x22 :: inp) r₂ := .intro hkey (Or.inr h0) hws₁ hws₂ hV
        have hfresh : e.flags.rejectDuplicates = true → key ∉ object.map Prod.fst := by
          intro hrd
          rw [← objectGet_eq_none_iff, ← Option.not_isSome_iff_eq_none]
          exact fun hsome => hdup ⟨hrd, hsome⟩
        have hsnoc : e.flags.rejectDuplicates = true → (object.map Prod.fst).Nodup →
            (object.map Prod.fst ++ [key]).Nodup := by
          intro hrd hobj
          rw [← List.concat_eq_append]
          exact hobj.concat (hfresh hrd)
        dsimp only at h
        split at h
        · obtain ⟨hws₃, hr₃⟩ := scan_punct_sound hr₂ hscan₃
          obtain ⟨⟨t₄, r₄⟩, hscan₄, h⟩ := Option.bind_eq_some_iff.1 h
          rcases scan_sound hr₃ hscan₄ with ⟨rfl, -⟩ | ⟨inp₄, hws₄, ht₄, hr₄⟩
          · cases n <;> cases h
          · obtain ⟨ms, hv, hms, hdis, hrest⟩ := textMembers_sound hs n ht₄ hr₄ h
            refine ⟨(key, x) :: ms, hv, .more hmem hws₃ hws₄ hms, ?_, hrest⟩
            intro hrd hobj
            have hkeys : (objectSet key x object).map Prod.fst = object.map Prod.fst ++ [key] := by
              rw [objectSet_fresh (hfresh hrd), List.map_append]
              rfl
            have hnodup := hdis hrd (by rw [hkeys]; exact hsnoc hrd hobj)
            rwa [hkeys, List.append_assoc] at hnodup
        · obtain ⟨rfl, rfl⟩ := Prod.mk.inj (Option.some.inj h)
          obtain ⟨hws₃, hr₃⟩ := scan_punct_sound hr₂ hscan₃
          refine ⟨[(key, x)], rfl, .last hmem hws₃, ?_, hr₃⟩
          exact fun hrd hobj => hsnoc hrd hobj
        · cases h
      · cases h
    · cases h

theorem textObject_sound (hs : Sound e V tv)
    {v : Json R} (htext : Clean text)
    (h : textObject e bad tv text = some (v, rest)) :
    Rule V false e.strtod e.flags v (0x7B :: text) rest ∧ v.IsContainer ∧ Clean rest := by
  unfold textObject at h
  obtain ⟨⟨t, r⟩, hscan, h⟩ := Option.bind_eq_some_iff.1 h
  dsimp only at h
  split at h
  · obtain ⟨rfl, rfl⟩ := Prod.mk.inj (Option.some.inj h)
    obtain ⟨hws, hr⟩ := scan_punct_sound htext hscan
    exact ⟨.emptyObject hws, trivial, hr⟩
  · rcases scan_sound htext hscan with ⟨rfl, -⟩ | ⟨inp, hws, ht, hr⟩
    · cases hn : e.steps with
      | zero =>
        rw [hn] at h
        cases h
      | succ n =>
        rw [hn] at h
        cases h
    · obtain ⟨ms, rfl, hms, hdis, hrest⟩ := textMembers_sound hs _ ht hr h
      exact ⟨.object hws hms fun hrd => hdis hrd List.nodup_nil, trivial, hrest⟩

theorem textValue_sound :
    ∀ d : Nat, Sound e (Value false e.strtod e.flags d) (textValue e bad d)
  | 0 => ⟨fun _ _ h => (by cases h), rfl⟩
  | d + 1 => by
    have ih := @textValue_sound d
    refine ⟨fun {t inp text v rest} ht htext h => ?_, rfl⟩
    change Rule (Value false e.strtod e.flags d) false e.strtod e.flags v inp rest ∧ Clean rest
    cases ht with
    | @punct c _ hc =>
      by_cases hbrace : c = 0x7B
      · subst hbrace
        obtain ⟨h₁, -, h₂⟩ := textObject_sound ih htext h
        exact ⟨h₁, h₂⟩
      by_cases hbracket : c = 0x5B
      · subst hbracket
        obtain ⟨h₁, -, h₂⟩ := textArray_sound ih htext h
        exact ⟨h₁, h₂⟩
      rw [textValue_punct hbrace hbracket] at h
      cases h
    | string hchars =>
      rw [textValue] at h
      split_ifs at h with h0
      obtain ⟨rfl, rfl⟩ := Prod.mk.inj (Option.some.inj h)
      refine ⟨.string hchars ?_, htext⟩
      by_cases hnul : e.flags.allowNul = true
      · exact Or.inl hnul
      · exact Or.inr fun hm => h0 ⟨by simpa using hnul, hm⟩
    | integer hi hm hds hval =>
      obtain ⟨rfl, rfl⟩ := Prod.mk.inj (Option.some.inj h)
      exact ⟨.integer hi hm hds hval, htext⟩
    | real hne hm hds hfs hxs hval =>
      obtain ⟨rfl, rfl⟩ := Prod.mk.inj (Option.some.inj h)
      exact ⟨.real hne hm hds hfs hxs hval, htext⟩
    | true =>
      obtain ⟨rfl, rfl⟩ := Prod.mk.inj (Option.some.inj h)
      exact ⟨.true, htext⟩
    | false =>
      obtain ⟨rfl, rfl⟩ := Prod.mk.inj (Option.some.inj h)
      exact ⟨.false, htext⟩
    | null =>
      obtain ⟨rfl, rfl⟩ := Prod.mk.inj (Option.some.inj h)
      exact ⟨.null, htext⟩

theorem opens_iff {t : Token R} : t.opens = true ↔ t = .punct 0x5B ∨ t = .punct 0x7B := by
  constructor
  · intro h
    unfold Token.opens at h
    split at h
    · exact Or.inl rfl
    · exact Or.inr rfl
    · cases h
  · rintro (rfl | rfl) <;> rfl

/-- A value that begins with a bracket or a brace is an array or an object. -/
theorem textValue_opens {d : Nat} {t : Token R}
    {v : Json R} (ht : t.opens = true) (htext : Clean text)
    (h : textValue e bad d (t, text) = some (v, rest)) : v.IsContainer := by
  cases d with
  | zero => cases h
  | succ d =>
    rcases opens_iff.1 ht with rfl | rfl
    · exact (textArray_sound (textValue_sound d) htext h).2.1
    · exact (textObject_sound (textValue_sound d) htext h).2.1

/-! ## What is in the grammar is accepted -/

variable {inp rest : Bytes}

theorem Ws.suffix (h : Ws inp rest) : rest <:+ inp := by
  obtain ⟨ws, -, rfl⟩ := h
  exact List.suffix_append _ _

theorem Ws.cons_suffix {c : UInt8} (h : Ws inp (c :: rest)) :
    rest.length < inp.length :=
  Nat.lt_of_succ_le h.suffix.length_le

/-- A rule reads a beginning of the text. -/
def Consumes (V : Json R → Bytes → Bytes → Prop) : Prop :=
  ∀ {v : Json R} {inp rest : Bytes}, V v inp rest → rest <:+ inp

theorem Elems.suffix (hV : Consumes V) {vs : List (Json R)}
    (h : Elems V vs inp rest) : rest <:+ inp ∧ vs.length + rest.length ≤ inp.length := by
  induction h with
  | @last v inp r rest hv hws =>
    have h₁ := (List.suffix_cons _ _).trans hws.suffix
    have h₂ := hws.cons_suffix
    have h₃ := (hV hv).length_le
    exact ⟨h₁.trans (hV hv), by rw [List.length_singleton]; omega⟩
  | @more v vs inp r₁ r₂ r₃ rest hv hws hws' _ ih =>
    have h₁ := (List.suffix_cons _ _).trans hws.suffix
    have h₂ := hws.cons_suffix
    have h₃ := (hV hv).length_le
    have h₄ := hws'.suffix.length_le
    exact ⟨((ih.1.trans hws'.suffix).trans h₁).trans (hV hv), by rw [List.length_cons]; omega⟩

variable {nulKeys : Bool}

theorem Member.suffix (hV : Consumes V) {key : Bytes} {v : Json R}
    (h : Member V nulKeys key v inp rest) : rest <:+ inp := by
  cases h with
  | intro hkey _ hws₁ hws₂ hv =>
    have h₁ := ((hV hv).trans hws₂.suffix).trans ((List.suffix_cons _ _).trans hws₁.suffix)
    exact (h₁.trans hkey.suffix).trans (List.suffix_cons _ _)

variable {ms : List (Bytes × Json R)}

theorem Members.suffix (hV : Consumes V)
    (h : Members V nulKeys ms inp rest) : rest <:+ inp ∧ ms.length + rest.length ≤ inp.length := by
  induction h with
  | @last key v inp r rest hm hws =>
    have h₁ := (List.suffix_cons _ _).trans hws.suffix
    have h₂ := hws.cons_suffix
    have h₃ := (hm.suffix hV).length_le
    exact ⟨h₁.trans (hm.suffix hV), by rw [List.length_singleton]; omega⟩
  | @more key v ms inp r₁ r₂ r₃ rest hm hws hws' _ ih =>
    have h₁ := (List.suffix_cons _ _).trans hws.suffix
    have h₂ := hws.cons_suffix
    have h₃ := (hm.suffix hV).length_le
    have h₄ := hws'.suffix.length_le
    exact ⟨((ih.1.trans hws'.suffix).trans h₁).trans (hm.suffix hV), by
      rw [List.length_cons]; omega⟩

theorem Rule.suffix {strtod : Bytes → Option R} {flags : LoadFlags}
    (hV : Consumes V) {v : Json R} (h : Rule V nulKeys strtod flags v inp rest) : rest <:+ inp := by
  cases h with
  | true | false | null => exact List.suffix_append _ _
  | string hc _ => exact hc.suffix.trans (List.suffix_cons _ _)
  | integer _ _ _ _ => exact List.suffix_append _ _
  | real _ _ _ _ _ _ => exact List.suffix_append _ _
  | emptyArray hws => exact ((List.suffix_cons _ _).trans hws.suffix).trans (List.suffix_cons _ _)
  | array hws hvs => exact ((hvs.suffix hV).1.trans hws.suffix).trans (List.suffix_cons _ _)
  | emptyObject hws => exact ((List.suffix_cons _ _).trans hws.suffix).trans (List.suffix_cons _ _)
  | object hws hms _ => exact ((hms.suffix hV).1.trans hws.suffix).trans (List.suffix_cons _ _)

theorem Value.suffix {strtod : Bytes → Option R} {flags : LoadFlags} :
    ∀ d : Nat, Consumes (Value nulKeys strtod flags d)
  | 0 => fun h => h.elim
  | d + 1 => fun h => Rule.suffix (Value.suffix d) h

/-- The parser `tv` accepts what is in `V`, after any whitespace. -/
def Complete (e : Conf R δ) (bad : Bool) (V : Json R → Bytes → Bytes → Prop) (tv : TextValue R) :
    Prop :=
  ∀ {v : Json R} {inp rest : Bytes}, V v inp rest → inp.length < e.steps → Follow rest →
    ∃ t text, (∀ text₀, Ws text₀ inp → scan e bad text₀ = some (t, text)) ∧
      t ≠ .punct 0x5D ∧ (v.IsContainer → t.opens = true) ∧ tv (t, text) = some (v, rest)

theorem follow_cons {c : UInt8} {rest : Bytes} (hc : c ∈ followers) : Follow (c :: rest) := by
  intro c' hc'
  obtain rfl := Option.some.inj hc'
  exact hc

theorem textElems_complete (hc : Complete e bad V tv) (hV : Consumes V) :
    ∀ {vs : List (Json R)} {inp rest : Bytes}, Elems V vs inp rest → inp.length < e.steps →
    ∀ (n : Nat) (array : List (Json R)), vs.length ≤ n →
    ∃ t text, (∀ text₀, Ws text₀ inp → scan e bad text₀ = some (t, text)) ∧ t ≠ .punct 0x5D ∧
      textElems e bad tv n array (t, text) = some (.array (array ++ vs), rest) := by
  intro vs inp rest h
  induction h with
  | @last v inp r rest hv hws =>
    intro hn n array hlen
    obtain ⟨n, rfl⟩ : ∃ m, n = m + 1 := ⟨n - 1, (Nat.sub_add_cancel hlen).symm⟩
    obtain ⟨t, text, hscan, hne, -, htv⟩ := hc hv hn (hws.follow (follow_cons (by decide)))
    refine ⟨t, text, hscan, hne, ?_⟩
    rw [textElems, htv, Option.bind_some]
    dsimp only
    rw [scan_punct rfl hws, Option.bind_some]
    rfl
  | @more v vs inp r₁ r₂ r₃ rest hv hws hws' _ ih =>
    intro hn n array hlen
    obtain ⟨n, rfl⟩ : ∃ m, n = m + 1 := ⟨n - 1, (Nat.sub_add_cancel (Nat.one_le_of_lt hlen)).symm⟩
    obtain ⟨t, text, hscan, hne, -, htv⟩ := hc hv hn (hws.follow (follow_cons (by decide)))
    have h₂ := hws.cons_suffix
    have h₃ := (hV hv).length_le
    have h₄ := hws'.suffix.length_le
    obtain ⟨t', text', hscan', -, htv'⟩ :=
      ih (by omega) n (array ++ [v]) (Nat.le_of_succ_le_succ hlen)
    refine ⟨t, text, hscan, hne, ?_⟩
    rw [textElems, htv, Option.bind_some]
    dsimp only
    rw [scan_punct rfl hws, Option.bind_some]
    dsimp only
    rw [hscan' _ hws', Option.bind_some, htv', List.append_assoc, List.singleton_append]
    rfl

/-- The tokens of a member. -/
theorem textMembers_member (hc : Complete e bad V tv)
    {key : Bytes} {v : Json R} (h : Member V false key v inp rest)
    (hn : inp.length < e.steps) (hf : Follow rest) (n : Nat) {object : List (Bytes × Json R)}
    (hdup : e.flags.rejectDuplicates = true → key ∉ object.map Prod.fst) :
    ∃ text, (∀ text₀, Ws text₀ inp → scan e bad text₀ = some (.string key, text)) ∧
      textMembers e bad tv (n + 1) object (.string key, text) =
        (scan e bad rest).bind fun (t, text) =>
          match t with
          | .punct 0x2C => (scan e bad text).bind (textMembers e bad tv n (objectSet key v object))
          | .punct 0x7D => some (.object (objectSet key v object), text)
          | _ => none := by
  cases h with
  | @intro inp r₁ r₂ r₃ _ hkey h0 hws₁ hws₂ hv =>
    have hlen : r₃.length < e.steps := by
      have h₁ := hkey.suffix.length_le
      have h₂ := hws₁.cons_suffix
      have h₃ := hws₂.suffix.length_le
      rw [List.length_cons] at hn
      omega
    obtain ⟨t, text, hscan, -, -, htv⟩ := hc hv hlen hf
    refine ⟨r₁, fun text₀ hws => ?_, ?_⟩
    · exact scan_complete hws (.string hkey) (hws₁.follow (follow_cons (by decide)))
    · rw [textMembers, if_neg (h0.resolve_left Bool.false_ne_true), if_neg, scan_punct rfl hws₁, Option.bind_some]
      · dsimp only
        rw [hscan _ hws₂, Option.bind_some, htv, Option.bind_some]
        rfl
      · rintro ⟨hrd, hsome⟩
        exact hdup hrd (objectGet_isSome_iff.1 hsome)

theorem textMembers_complete (hc : Complete e bad V tv) (hV : Consumes V)
    :
    ∀ {ms : List (Bytes × Json R)} {inp rest : Bytes}, Members V false ms inp rest →
    inp.length < e.steps → ∀ (n : Nat) (object : List (Bytes × Json R)), ms.length ≤ n →
    (e.flags.rejectDuplicates = true → (object.map Prod.fst ++ ms.map Prod.fst).Nodup) →
    ∃ key text, (∀ text₀, Ws text₀ inp → scan e bad text₀ = some (.string key, text)) ∧
      textMembers e bad tv n object (.string key, text) =
        some (.object (ms.foldl (fun object m => objectSet m.1 m.2 object) object), rest) := by
  intro ms inp rest h
  induction h with
  | @last key v inp r rest hm hws =>
    intro hn n object hlen hdup
    obtain ⟨n, rfl⟩ : ∃ m, n = m + 1 := ⟨n - 1, (Nat.sub_add_cancel hlen).symm⟩
    obtain ⟨text, hscan, heq⟩ := textMembers_member hc hm hn
      (hws.follow (follow_cons (by decide))) n fun hrd hmem =>
        (List.nodup_append.1 (hdup hrd)).2.2 key hmem key List.mem_cons_self rfl
    refine ⟨key, text, hscan, ?_⟩
    rw [heq, scan_punct rfl hws, Option.bind_some]
    rfl
  | @more key v ms inp r₁ r₂ r₃ rest hm hws hws' _ ih =>
    intro hn n object hlen hdup
    obtain ⟨n, rfl⟩ : ∃ m, n = m + 1 := ⟨n - 1, (Nat.sub_add_cancel (Nat.one_le_of_lt hlen)).symm⟩
    have hfresh : e.flags.rejectDuplicates = true → key ∉ object.map Prod.fst := fun hrd hmem =>
      (List.nodup_append.1 (hdup hrd)).2.2 key hmem key List.mem_cons_self rfl
    obtain ⟨text, hscan, heq⟩ := textMembers_member hc hm hn
      (hws.follow (follow_cons (by decide))) n hfresh
    have h₂ := hws.cons_suffix
    have h₃ := (hm.suffix hV).length_le
    have h₄ := hws'.suffix.length_le
    obtain ⟨key', text', hscan', htv'⟩ :=
      ih (by omega) n (objectSet key v object) (Nat.le_of_succ_le_succ hlen) (by
        intro hrd
        rw [objectSet_fresh (hfresh hrd), List.map_append, List.append_assoc]
        exact hdup hrd)
    refine ⟨key, text, hscan, ?_⟩
    rw [heq, scan_punct rfl hws, Option.bind_some]
    dsimp only
    rw [hscan' _ hws', Option.bind_some, htv', List.foldl_cons]
    rfl

theorem textArray_complete (hc : Complete e bad V tv) (hV : Consumes V) {vs : List (Json R)}
    {inp r rest : Bytes} (hws : Ws inp r) (h : Elems V vs r rest) (hn : inp.length < e.steps) :
    textArray e bad tv inp = some (.array vs, rest) := by
  have hr : r.length < e.steps := hws.suffix.length_le.trans_lt hn
  have hlen := (h.suffix hV).2
  obtain ⟨t, text, hscan, hne, htv⟩ := textElems_complete hc hV h hr e.steps [] (by omega)
  unfold textArray
  rw [hscan _ hws, Option.bind_some]
  dsimp only
  split
  · exact absurd rfl hne
  · exact htv

theorem textObject_complete (hc : Complete e bad V tv) (hV : Consumes V)
    {inp r rest : Bytes} (hws : Ws inp r) (h : Members V false ms r rest)
    (hdup : e.flags.rejectDuplicates = true → (ms.map Prod.fst).Nodup)
    (hn : inp.length < e.steps) :
    textObject e bad tv inp = some (.object (bindings ms), rest) := by
  have hr : r.length < e.steps := hws.suffix.length_le.trans_lt hn
  have hlen := (h.suffix hV).2
  obtain ⟨key, text, hscan, htv⟩ :=
    textMembers_complete hc hV h hr e.steps [] (by omega) hdup
  unfold textObject
  rw [hscan _ hws, Option.bind_some]
  exact htv

/-- What follows an array or an object does not matter. -/
theorem textValue_container {d : Nat} {v : Json R} (hv : v.IsContainer)
    (ih : Complete e bad (Value false e.strtod e.flags d) (textValue e bad d))
    (h : Value false e.strtod e.flags (d + 1) v inp rest) (hn : inp.length < e.steps) :
    ∃ t text, (∀ text₀, Ws text₀ inp → scan e bad text₀ = some (t, text)) ∧
      t ≠ .punct 0x5D ∧ t.opens = true ∧ textValue e bad (d + 1) (t, text) = some (v, rest) := by
  have hV : Consumes (Value false e.strtod e.flags d) := Value.suffix d
  cases h with
  | true | false | null | string _ _ | integer _ _ _ _ | real _ _ _ _ _ _ => exact hv.elim
  | @emptyArray inp _ hws =>
    refine ⟨.punct 0x5B, inp, fun _ hws => scan_punct rfl hws, by simp, rfl, ?_⟩
    rw [textValue, textArray, scan_punct rfl hws]
    rfl
  | @array vs inp r _ hws hvs =>
    refine ⟨.punct 0x5B, inp, fun _ hws => scan_punct rfl hws, by simp, rfl, ?_⟩
    rw [textValue]
    exact textArray_complete ih hV hws hvs (Nat.lt_of_succ_lt hn)
  | @emptyObject inp _ hws =>
    refine ⟨.punct 0x7B, inp, fun _ hws => scan_punct rfl hws, by simp, rfl, ?_⟩
    rw [textValue, textObject, scan_punct rfl hws]
    rfl
  | @object ms inp r _ hws hms hdup =>
    refine ⟨.punct 0x7B, inp, fun _ hws => scan_punct rfl hws, by simp, rfl, ?_⟩
    rw [textValue]
    exact textObject_complete ih hV hws hms hdup (Nat.lt_of_succ_lt hn)

theorem textValue_complete :
    ∀ d : Nat, Complete e bad (Value false e.strtod e.flags d) (textValue e bad d)
  | 0 => fun h => h.elim
  | d + 1 => by
    intro h hn hf
    rename_i v inp rest
    have ih : Complete e bad (Value false e.strtod e.flags d) (textValue e bad d) :=
      textValue_complete d
    by_cases hv : v.IsContainer
    · obtain ⟨t, text, hscan, hne, hopens, htv⟩ := textValue_container hv ih h hn
      exact ⟨t, text, hscan, hne, fun _ => hopens, htv⟩
    cases h with
    | true =>
      exact ⟨.true, rest, fun _ hws => scan_complete hws .true hf, by simp, hv.elim, rfl⟩
    | false =>
      exact ⟨.false, rest, fun _ hws => scan_complete hws .false hf, by simp, hv.elim, rfl⟩
    | null =>
      exact ⟨.null, rest, fun _ hws => scan_complete hws .null hf, by simp, hv.elim, rfl⟩
    | @string v _ _ hc h0 =>
      refine ⟨.string v, rest, fun _ hws => scan_complete hws (.string hc) hf, by simp, hv.elim, ?_⟩
      rw [textValue, if_neg]
      rintro ⟨hnul, hmem⟩
      rcases h0 with h0 | h0
      · rw [h0] at hnul
        cases hnul
      · exact h0 hmem
    | @integer i _ _ _ hi hm hds hval =>
      exact ⟨.integer i, rest, fun _ hws => scan_complete hws (.integer hi hm hds hval) hf, by simp,
        hv.elim, rfl⟩
    | @real r _ _ _ _ _ hne hm hds hfs hxs hval =>
      exact ⟨.real r, rest, fun _ hws => scan_complete hws (.real hne hm hds hfs hxs hval) hf,
        by simp, hv.elim, rfl⟩
    | emptyArray _ | array _ _ | emptyObject _ | object _ _ _ => exact absurd trivial hv

/-! ## The bytes of a text -/

/-- The property holds of a text when it holds of what is left after the first
    characters, which are no control characters. -/
structure Prepends (Q : Bytes → Prop) : Prop where
  nil : Q []
  ascii : ∀ {b : UInt8} {bs : Bytes}, b ≠ 0 → b.toNat < 0x80 → Q bs → Q (b :: bs)
  char : ∀ {c : Nat} {bs : Bytes}, IsScalar c → 0x20 ≤ c → Q bs → Q (encode c ++ bs)

theorem prepends_valid : Prepends Valid where
  nil := .nil
  ascii _ hb hbs := hbs.ascii hb
  char hc _ hbs := .cons hc hbs

theorem prepends_nul : Prepends (0 ∉ ·) where
  nil := List.not_mem_nil
  ascii h0 _ hbs := by
    rw [List.mem_cons, not_or]
    exact ⟨Ne.symm h0, hbs⟩
  char {c bs} hc hge hbs := by
    rw [List.mem_append, not_or]
    refine ⟨fun hm => ?_, hbs⟩
    by_cases hlt : c < 0x80
    · rw [encode_ascii hlt, List.mem_singleton] at hm
      have := congrArg UInt8.toNat hm
      rw [toNat_byte (by omega)] at this
      exact absurd this (by simp only [UInt8.toNat_zero]; omega)
    · exact absurd (encode_high hc (Nat.le_of_not_lt hlt) 0 hm) (by decide)

section
variable {Q : Bytes → Prop} {nulKeys : Bool} {strtod : Bytes → Option R} {flags : LoadFlags}
  {v : Json R} {inp rest : Bytes}

/-- ASCII, and no 0. -/
def IsText (bs : Bytes) : Prop := ∀ b ∈ bs, b ≠ 0 ∧ b.toNat < 0x80

theorem Prepends.append (hQ : Prepends Q) {bs bs' : Bytes} (h : IsText bs) (h' : Q bs') :
    Q (bs ++ bs') := by
  induction bs with
  | nil => exact h'
  | cons b bs ih =>
    obtain ⟨⟨h0, hb⟩, htail⟩ := List.forall_mem_cons.1 h
    exact hQ.ascii h0 hb (ih htail)

theorem IsText.append {bs bs' : Bytes} (h : IsText bs) (h' : IsText bs') : IsText (bs ++ bs') :=
  List.forall_mem_append.2 ⟨h, h'⟩

theorem Hex4.isText {hs : Bytes} {n : Nat} (h : Hex4 hs n) : IsText hs := by
  intro b hb
  refine ⟨?_, h.ascii b hb⟩
  rintro rfl
  cases h with
  | intro x₁ x₂ x₃ x₄ =>
    simp only [List.mem_cons, List.not_mem_nil, or_false] at hb
    rcases hb with rfl | rfl | rfl | rfl
    · cases x₁
    · cases x₂
    · cases x₃
    · cases x₄

theorem Digits.isText {ds : Bytes} (h : Digits ds) : IsText ds := by
  intro d hd
  refine ⟨?_, h.isAscii d hd⟩
  rintro rfl
  cases h.2 0 hd

theorem Minus.isText {m : Bytes} (h : Minus m) : IsText m := by
  rcases h with rfl | rfl <;> simp [IsText]

theorem Frac.isText {fs : Bytes} (h : Frac fs) : IsText fs := by
  rcases h with rfl | ⟨ds, rfl, hds⟩
  · simp [IsText]
  · exact List.forall_mem_cons.2 ⟨by decide, hds.isText⟩

theorem Expo.isText {xs : Bytes} (h : Expo xs) : IsText xs := by
  rcases h with rfl | ⟨x, s, ds, hx, hs, hds, rfl⟩
  · simp [IsText]
  · refine List.forall_mem_cons.2 ⟨?_, IsText.append ?_ hds.isText⟩
    · rcases hx with rfl | rfl <;> decide
    · rcases hs with rfl | rfl | rfl <;> simp [IsText]

theorem Chars.prepends (hQ : Prepends Q) {v : Bytes} (h : Chars v inp rest) (hrest : Q rest) :
    Q inp := by
  have hesc : ∀ {hs bs : Bytes} {n : Nat}, Hex4 hs n → Q bs → Q (0x5C :: 0x75 :: (hs ++ bs)) := by
    intro hs bs n hn hbs
    exact hQ.ascii (by decide) (by decide)
      (hQ.ascii (by decide) (by decide) (hQ.append hn.isText hbs))
  induction h with
  | close => exact hQ.ascii (by decide) (by decide) hrest
  | plain hc hge _ _ _ ih => exact hQ.char hc hge (ih hrest)
  | escape hxy _ ih =>
    exact hQ.ascii (by decide) (by decide)
      (hQ.ascii (by rintro rfl; cases hxy) hxy.ascii (ih hrest))
  | unicode hn _ _ ih => exact hesc hn (ih hrest)
  | pair hm hn _ _ _ ih => exact hesc hm (hesc hn (ih hrest))

theorem Ws.prepends (hQ : Prepends Q) (h : Ws inp rest) (hrest : Q rest) : Q inp := by
  obtain ⟨ws, hws, rfl⟩ := h
  refine hQ.append (fun b hb => ⟨?_, isSpace_lt (hws b hb)⟩) hrest
  rintro rfl
  cases hws 0 hb

/-- A rule reads a text with the property. -/
def ReadsOnly (Q : Bytes → Prop) (V : Json R → Bytes → Bytes → Prop) : Prop :=
  ∀ {v : Json R} {inp rest : Bytes}, V v inp rest → Q rest → Q inp

theorem Elems.prepends (hQ : Prepends Q) (hV : ReadsOnly Q V) {vs : List (Json R)}
    (h : Elems V vs inp rest) (hrest : Q rest) : Q inp := by
  have hc : ∀ {b : UInt8} {bs : Bytes}, b = 0x5D ∨ b = 0x2C → Q bs → Q (b :: bs) := by
    rintro b bs (rfl | rfl) hbs <;> exact hQ.ascii (by decide) (by decide) hbs
  induction h with
  | last hv hws => exact hV hv (hws.prepends hQ (hc (Or.inl rfl) hrest))
  | more hv hws hws' _ ih =>
    exact hV hv (hws.prepends hQ (hc (Or.inr rfl) (hws'.prepends hQ (ih hrest))))

theorem Member.prepends (hQ : Prepends Q) (hV : ReadsOnly Q V) {key : Bytes}
    (h : Member V nulKeys key v inp rest) (hrest : Q rest) : Q inp := by
  cases h with
  | intro hkey _ hws₁ hws₂ hv =>
    have h₁ := @Prepends.ascii _ hQ 0x3A _ (by decide) (by decide) (hws₂.prepends hQ (hV hv hrest))
    exact hQ.ascii (by decide) (by decide) (hkey.prepends hQ (hws₁.prepends hQ h₁))

theorem Members.prepends (hQ : Prepends Q) (hV : ReadsOnly Q V)
    (h : Members V nulKeys ms inp rest) (hrest : Q rest) : Q inp := by
  have hc : ∀ {b : UInt8} {bs : Bytes}, b = 0x7D ∨ b = 0x2C → Q bs → Q (b :: bs) := by
    rintro b bs (rfl | rfl) hbs <;> exact hQ.ascii (by decide) (by decide) hbs
  induction h with
  | last hm hws => exact hm.prepends hQ hV (hws.prepends hQ (hc (Or.inl rfl) hrest))
  | more hm hws hws' _ ih =>
    exact hm.prepends hQ hV (hws.prepends hQ (hc (Or.inr rfl) (hws'.prepends hQ (ih hrest))))

theorem Rule.prepends (hQ : Prepends Q) (hV : ReadsOnly Q V)
    (h : Rule V nulKeys strtod flags v inp rest) (hrest : Q rest) : Q inp := by
  have hc : ∀ {b : UInt8} {bs : Bytes}, isPunct b = Bool.true → Q bs → Q (b :: bs) := by
    intro b bs hb hbs
    exact hQ.ascii (by rintro rfl; cases hb) (isPunct_lt hb) hbs
  cases h with
  | true => exact hQ.append (by unfold IsText; decide) hrest
  | false => exact hQ.append (by unfold IsText; decide) hrest
  | null => exact hQ.append (by unfold IsText; decide) hrest
  | string hchars _ => exact hQ.ascii (by decide) (by decide) (hchars.prepends hQ hrest)
  | integer _ hm hds _ => exact hQ.append (hm.isText.append hds.digits.isText) hrest
  | real _ hm hds hfs hxs _ =>
    have h₁ := (hm.isText.append hds.digits.isText).append hfs.isText
    exact hQ.append (h₁.append hxs.isText) hrest
  | emptyArray hws => exact hc rfl (hws.prepends hQ (hc rfl hrest))
  | array hws hvs => exact hc rfl (hws.prepends hQ (hvs.prepends hQ hV hrest))
  | emptyObject hws => exact hc rfl (hws.prepends hQ (hc rfl hrest))
  | object hws hms _ => exact hc rfl (hws.prepends hQ (hms.prepends hQ hV hrest))

theorem Value.prepends (hQ : Prepends Q) :
    ∀ d : Nat, ReadsOnly Q (Value nulKeys strtod flags d : Json R → Bytes → Bytes → Prop)
  | 0 => fun h => h.elim
  | d + 1 => fun h hrest => Rule.prepends hQ (Value.prepends hQ d) h hrest

/-- A JSON text is valid UTF-8. -/
theorem JsonText.valid {text : Bytes} (h : JsonText strtod flags v text) : Valid text := by
  obtain ⟨-, inp, rest, hws, hv, hws'⟩ := h
  exact hws.prepends prepends_valid
    (Value.prepends prepends_valid _ hv (hws'.prepends prepends_valid .nil))

end

/-! ## Whole texts -/

theorem textJson_sound
    (he : e.flags.disableEofCheck = false) {text : Bytes} {v : Json R} (htext : Clean text)
    (h : textJson e bad text = some v) : bad = false ∧ JsonText e.strtod e.flags v text := by
  unfold textJson at h
  obtain ⟨⟨t, r⟩, hscan, h⟩ := Option.bind_eq_some_iff.1 h
  dsimp only at h
  by_cases hany : (!e.flags.decodeAny && !t.opens) = true
  · rw [if_pos hany] at h
    cases h
  rw [if_neg hany] at h
  obtain ⟨⟨v', r'⟩, hv, h⟩ := Option.bind_eq_some_iff.1 h
  dsimp only at h
  rw [he, if_neg Bool.false_ne_true] at h
  obtain ⟨⟨t', r''⟩, hscan', h⟩ := Option.bind_eq_some_iff.1 h
  dsimp only at h
  split at h
  · obtain rfl := Option.some.inj h
    rcases scan_sound htext hscan with ⟨rfl, -⟩ | ⟨inp, hws, ht, hr⟩
    · cases hv
    obtain ⟨hval, hr'⟩ := (textValue_sound jsonParserMaxDepth).value ht hr hv
    rcases scan_sound hr' hscan' with ⟨-, -, hbad, hws'⟩ | ⟨inp', -, ht', -⟩
    · refine ⟨hbad, ?_, inp, r', hws, hval, hws'⟩
      by_cases hd : e.flags.decodeAny = true
      · exact Or.inl hd
      · refine Or.inr (textValue_opens ?_ hr hv)
        simpa [hd] using hany
    · cases ht'
  · cases h

theorem textJson_complete
    (he : e.flags.disableEofCheck = false) {text : Bytes} {v : Json R}
    (hn : text.length < e.steps) (h : JsonText e.strtod e.flags v text) :
    textJson e false text = some v := by
  obtain ⟨hany, inp, rest, hws, hv, hws'⟩ := h
  have hn' : inp.length < e.steps := hws.suffix.length_le.trans_lt hn
  obtain ⟨t, r, hscan, -, hopens, htv⟩ :=
    textValue_complete jsonParserMaxDepth hv hn' (hws'.follow (fun c hc => by cases hc))
  unfold textJson
  rw [hscan _ hws, Option.bind_some]
  dsimp only
  rw [if_neg]
  · rw [htv, Option.bind_some]
    dsimp only
    rw [he, if_neg Bool.false_ne_true, scan_eof hws']
    rfl
  · rcases hany with hany | hany
    · simp [hany]
    · simp [hopens hany]

end

section
variable {R : Type} {strtod : Bytes → Option R} {flags : LoadFlags} {data : Bytes}

/-- A run on bytes without a 0. -/
theorem load_eq_some_iff {get : GetFunc Bytes} (hgives : Gives get data data) (h0 : 0 ∉ data)
    (he : flags.disableEofCheck = false) {v : Json R} :
    (load get strtod flags data).1 = some v ↔ JsonText strtod flags v data := by
  constructor
  · intro h
    obtain ⟨text, bad, hsplit⟩ := split_exists data
    rw [load_eq hgives hsplit] at h
    have hclean : Clean text := ⟨hsplit.valid, fun hm => h0 (hsplit.subset hm)⟩
    obtain ⟨rfl, htext⟩ := textJson_sound he hclean h
    rwa [hsplit.eq_of_not_bad] at htext
  · intro h
    rw [load_eq hgives (split_of_valid h.valid)]
    exact textJson_complete he (Nat.lt_succ_self _) h

end

/-- **`json_loads` accepts the texts of the grammar, and returns what they denote.** -/
theorem jsonLoads_iff_jsonText {R : Type} (strtod : Bytes → Option R)
    (rejectDuplicates decodeAny allowNul : Bool) (string : Bytes) (h0 : 0 ∉ string) (v : Json R) :
    jsonLoads strtod
        { rejectDuplicates := rejectDuplicates, decodeAny := decodeAny, allowNul := allowNul }
        string = some v ↔
      JsonText strtod
        { rejectDuplicates := rejectDuplicates, decodeAny := decodeAny, allowNul := allowNul }
        v string :=
  load_eq_some_iff (gives_stringGet h0) h0 rfl

theorem jsonLoads_iff_jsonText_duplicate :
    0 ∉ ascii "\x7b\"a\":1, \"a\":[2]\x7d" ∧
      ∃ v : Json Unit, JsonText (fun _ => none) {} v (ascii "\x7b\"a\":1, \"a\":[2]\x7d") := by
  have h0 : 0 ∉ ascii "\x7b\"a\":1, \"a\":[2]\x7d" := by decide
  have hsome : (jsonLoads (fun _ => (none : Option Unit)) {}
      (ascii "\x7b\"a\":1, \"a\":[2]\x7d")).isSome = true := by decide +kernel
  obtain ⟨v, hv⟩ := Option.isSome_iff_exists.1 hsome
  exact ⟨h0, v, (jsonLoads_iff_jsonText _ false false false _ h0 v).1 hv⟩

end Jansson
