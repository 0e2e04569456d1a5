/-
  What the decoder consumes with `JSON_DISABLE_EOF_CHECK`.

  A value of the grammar ends with a byte that is no whitespace, and is the same value whatever
  follows. The stream stands right behind that byte when the decoder returns.
-/
import IotLib.Jansson.Accept
import IotLib.Jansson.Locate

namespace Jansson

/-! ## Values and what follows them -/

/-- `inp` begins with a text that ends with a byte that is no whitespace; the rule `W` reads that
    text whatever follows. -/
def Closed (W : Bytes → Bytes → Prop) (inp rest : Bytes) : Prop :=
  ∃ pre b, inp = pre ++ b :: rest ∧ isSpace b = false ∧ ∀ rest', W (pre ++ b :: rest') rest'

/-- What one rule reads, the other reads too, whatever follows. -/
def Closes {R : Type} (V V' : Json R → Bytes → Bytes → Prop) : Prop :=
  ∀ (v : Json R) (inp rest : Bytes), V v inp rest → Closed (V' v) inp rest

theorem Chars.closed {v inp rest : Bytes} (h : Chars v inp rest) :
    ∃ pre, inp = pre ++ 0x22 :: rest ∧ ∀ rest', Chars v (pre ++ 0x22 :: rest') rest' := by
  induction h with
  | close => exact ⟨[], rfl, fun _ => .close⟩
  | @plain c v inp rest hc hge hq hb _ ih =>
    obtain ⟨pre, rfl, hpre⟩ := ih
    refine ⟨encode c ++ pre, (List.append_assoc _ _ _).symm, fun rest' => ?_⟩
    rw [List.append_assoc]
    exact .plain hc hge hq hb (hpre rest')
  | @escape x b v inp rest hx _ ih =>
    obtain ⟨pre, rfl, hpre⟩ := ih
    exact ⟨0x5C :: x :: pre, rfl, fun rest' => .escape hx (hpre rest')⟩
  | @unicode n hs v inp rest hn hsc _ ih =>
    obtain ⟨pre, rfl, hpre⟩ := ih
    refine ⟨0x5C :: 0x75 :: (hs ++ pre), by simp, fun rest' => ?_⟩
    have := Chars.unicode hn hsc (hpre rest')
    simpa using this
  | @pair m n hs gs v inp rest hm hn hhigh hlow _ ih =>
    obtain ⟨pre, rfl, hpre⟩ := ih
    refine ⟨0x5C :: 0x75 :: (hs ++ 0x5C :: 0x75 :: (gs ++ pre)), by simp, fun rest' => ?_⟩
    have := Chars.pair hm hn hhigh hlow (hpre rest')
    simpa using this

theorem isDigit_notSpace {c : UInt8} (h : isDigit c = true) : isSpace c = false := by
  cases hs : isSpace c with
  | false => rfl
  | true =>
    simp only [isSpace, Bool.or_eq_true, beq_iff_eq] at hs
    rcases hs with ((rfl | rfl) | rfl) | rfl <;> cases h

theorem Digits.last {ds : Bytes} (h : Digits ds) : ∃ pre d, ds = pre ++ [d] ∧ isSpace d = false := by
  obtain rfl | ⟨pre, d, rfl⟩ := List.eq_nil_or_concat ds
  · exact absurd rfl h.1
  · refine ⟨pre, d, List.concat_eq_append, isDigit_notSpace (h.2 d ?_)⟩
    rw [List.concat_eq_append]
    exact List.mem_append_right _ List.mem_cons_self

/-- A number ends with a digit. -/
theorem number_last {m ds fs xs : Bytes} (hds : IntText ds) (hfs : Frac fs) (hxs : Expo xs) :
    ∃ pre d, m ++ ds ++ fs ++ xs = pre ++ [d] ∧ isSpace d = false := by
  rcases hxs with rfl | ⟨x, s, es, -, -, hes, rfl⟩
  · rcases hfs with rfl | ⟨es, rfl, hes⟩
    · obtain ⟨pre, d, rfl, hd⟩ := hds.digits.last
      exact ⟨m ++ pre, d, by simp, hd⟩
    · obtain ⟨pre, d, rfl, hd⟩ := hes.last
      exact ⟨m ++ ds ++ 0x2E :: pre, d, by simp, hd⟩
  · obtain ⟨pre, d, rfl, hd⟩ := hes.last
    exact ⟨m ++ ds ++ fs ++ x :: (s ++ pre), d, by simp, hd⟩

section
variable {R : Type} {V V' : Json R → Bytes → Bytes → Prop} {nulKeys : Bool} {inp rest : Bytes}
  {v : Json R}

theorem Elems.closed (hV : Closes V V') {vs : List (Json R)} (h : Elems V vs inp rest) :
    Closed (Elems V' vs) inp rest := by
  induction h with
  | @last v inp r rest hv hws =>
    obtain ⟨pre, b, rfl, -, hv'⟩ := hV _ _ _ hv
    obtain ⟨ws, hspace, rfl⟩ := hws
    refine ⟨pre ++ b :: ws, 0x5D, by simp, rfl, fun rest' => ?_⟩
    have := Elems.last (hv' (ws ++ 0x5D :: rest')) ⟨ws, hspace, rfl⟩
    simpa using this
  | @more v vs inp r₁ r₂ r₃ rest hv hws hws' _ ih =>
    obtain ⟨pre, b, rfl, -, hv'⟩ := hV _ _ _ hv
    obtain ⟨ws, hspace, rfl⟩ := hws
    obtain ⟨ws', hspace', rfl⟩ := hws'
    obtain ⟨pre₃, b₃, rfl, hb₃, hvs'⟩ := ih
    refine ⟨pre ++ b :: (ws ++ 0x2C :: (ws' ++ pre₃)), b₃, by simp, hb₃, fun rest' => ?_⟩
    have := Elems.more (hv' (ws ++ 0x2C :: (ws' ++ (pre₃ ++ b₃ :: rest')))) ⟨ws, hspace, rfl⟩
      ⟨ws', hspace', rfl⟩ (hvs' rest')
    simpa using this

theorem Member.closed (hV : Closes V V') {key : Bytes} (h : Member V nulKeys key v inp rest) :
    Closed (Member V' nulKeys key v) inp rest := by
  obtain ⟨hkey, hnul, hws, hws', hv⟩ := h
  obtain ⟨prek, rfl, hkey'⟩ := hkey.closed
  obtain ⟨ws, hspace, rfl⟩ := hws
  obtain ⟨ws', hspace', rfl⟩ := hws'
  obtain ⟨pre, b, rfl, hb, hv'⟩ := hV _ _ _ hv
  refine ⟨0x22 :: (prek ++ 0x22 :: (ws ++ 0x3A :: (ws' ++ pre))), b, by simp, hb, fun rest' => ?_⟩
  have := Member.intro (hkey' (ws ++ 0x3A :: (ws' ++ (pre ++ b :: rest')))) hnul ⟨ws, hspace, rfl⟩
    ⟨ws', hspace', rfl⟩ (hv' rest')
  simpa using this

theorem Members.closed (hV : Closes V V') {ms : List (Bytes × Json R)}
    (h : Members V nulKeys ms inp rest) : Closed (Members V' nulKeys ms) inp rest := by
  induction h with
  | @last key v inp r rest hm hws =>
    obtain ⟨pre, b, rfl, -, hm'⟩ := hm.closed hV
    obtain ⟨ws, hspace, rfl⟩ := hws
    refine ⟨pre ++ b :: ws, 0x7D, by simp, rfl, fun rest' => ?_⟩
    have := Members.last (hm' (ws ++ 0x7D :: rest')) ⟨ws, hspace, rfl⟩
    simpa using this
  | @more key v ms inp r₁ r₂ r₃ rest hm hws hws' _ ih =>
    obtain ⟨pre, b, rfl, -, hm'⟩ := hm.closed hV
    obtain ⟨ws, hspace, rfl⟩ := hws
    obtain ⟨ws', hspace', rfl⟩ := hws'
    obtain ⟨pre₃, b₃, rfl, hb₃, hms'⟩ := ih
    refine ⟨pre ++ b :: (ws ++ 0x2C :: (ws' ++ pre₃)), b₃, by simp, hb₃, fun rest' => ?_⟩
    have := Members.more (hm' (ws ++ 0x2C :: (ws' ++ (pre₃ ++ b₃ :: rest')))) ⟨ws, hspace, rfl⟩
      ⟨ws', hspace', rfl⟩ (hms' rest')
    simpa using this

variable {strtod : Bytes → Option R} {flags : LoadFlags} (disable : Bool)

theorem Rule.closed (hV : Closes V V') (h : Rule V nulKeys strtod flags v inp rest) :
    Closed (Rule V' nulKeys strtod { flags with disableEofCheck := disable } v) inp rest := by
  cases h with
  | true => exact ⟨ascii "tru", 0x65, rfl, rfl, fun _ => .true⟩
  | false => exact ⟨ascii "fals", 0x65, rfl, rfl, fun _ => .false⟩
  | null => exact ⟨ascii "nul", 0x6C, rfl, rfl, fun _ => .null⟩
  | @string v inp _ hchars hnul =>
    obtain ⟨pre, rfl, hchars'⟩ := hchars.closed
    exact ⟨0x22 :: pre, 0x22, rfl, rfl, fun rest' => .string (hchars' rest') hnul⟩
  | @integer i m ds _ hi hm hds hval =>
    obtain ⟨pre, d, heq, hd⟩ := @number_last m ds [] [] hds (.inl rfl) (.inl rfl)
    rw [List.append_nil, List.append_nil] at heq
    refine ⟨pre, d, by rw [heq]; simp, hd, fun rest' => ?_⟩
    rw [List.append_cons pre d rest', ← heq]
    exact .integer hi hm hds hval
  | @real r m ds fs xs _ hne hm hds hfs hxs hval =>
    obtain ⟨pre, d, heq, hd⟩ := @number_last m ds fs xs hds hfs hxs
    refine ⟨pre, d, by rw [heq]; simp, hd, fun rest' => ?_⟩
    rw [List.append_cons pre d rest', ← heq]
    exact .real hne hm hds hfs hxs hval
  | @emptyArray inp _ hws =>
    obtain ⟨ws, hspace, rfl⟩ := hws
    exact ⟨0x5B :: ws, 0x5D, rfl, rfl, fun rest' => .emptyArray ⟨ws, hspace, rfl⟩⟩
  | @array vs inp r _ hws hvs =>
    obtain ⟨ws, hspace, rfl⟩ := hws
    obtain ⟨pre, b, rfl, hb, hvs'⟩ := hvs.closed hV
    refine ⟨0x5B :: (ws ++ pre), b, by simp, hb, fun rest' => ?_⟩
    rw [List.cons_append, List.append_assoc]
    exact .array ⟨ws, hspace, rfl⟩ (hvs' rest')
  | @emptyObject inp _ hws =>
    obtain ⟨ws, hspace, rfl⟩ := hws
    exact ⟨0x7B :: ws, 0x7D, rfl, rfl, fun rest' => .emptyObject ⟨ws, hspace, rfl⟩⟩
  | @object ms inp r _ hws hms hdup =>
    obtain ⟨ws, hspace, rfl⟩ := hws
    obtain ⟨pre, b, rfl, hb, hms'⟩ := hms.closed hV
    refine ⟨0x7B :: (ws ++ pre), b, by simp, hb, fun rest' => ?_⟩
    rw [List.cons_append, List.append_assoc]
    exact .object ⟨ws, hspace, rfl⟩ (hms' rest') hdup

/-- **A value is closed**, and does not depend on the check for the end of the input. -/
theorem Value.closed : ∀ d : ℕ, Closes (Value nulKeys strtod flags d)
    (Value nulKeys strtod { flags with disableEofCheck := disable } d)
  | 0 => fun _ _ _ h => h.elim
  | d + 1 => fun _ _ _ h => Rule.closed disable (Value.closed d) h

end

/-! ## The stream behind a value -/

section
variable {δ : Type} {get : GetFunc δ}

theorem Gives.unique : ∀ {data : δ} {bs bs' : Bytes}, Gives get data bs → Gives get data bs' → bs = bs'
  | _, [], [], _, _ => rfl
  | data, [], c :: cs, h, h' => by
    obtain ⟨data', hget, -⟩ := h'
    have hnone : (get data).1 = none := h
    rw [hget] at hnone
    cases hnone
  | data, c :: cs, [], h, h' => by
    obtain ⟨data', hget, -⟩ := h
    have hnone : (get data).1 = none := h'
    rw [hget] at hnone
    cases hnone
  | data, c :: cs, c' :: cs', h, h' => by
    obtain ⟨d, hget, hcs⟩ := h
    obtain ⟨d', hget', hcs'⟩ := h'
    rw [hget] at hget'
    obtain ⟨hc, rfl⟩ := Prod.mk.inj hget'
    rw [Option.some.inj hc, Gives.unique hcs hcs']

theorem Split.unique {bs t t' : Bytes} {bad bad' : Bool} (h : Split bs t bad) (h' : Split bs t' bad') :
    t = t' := by
  induction h generalizing t' bad' with
  | nil =>
    generalize hbs : ([] : Bytes) = bs at h'
    cases h' with
    | nil => rfl
    | @cons c bs text _ _ _ =>
      have := congrArg List.length hbs
      have hpos := encode_length_pos c
      rw [List.length_append, List.length_nil] at this
      omega
    | bad hne _ => exact absurd hbs.symm hne
  | @cons c bs text bad hc hsplit ih =>
    generalize hbs : encode c ++ bs = bs₁ at h'
    cases h' with
    | nil =>
      have := congrArg List.length hbs
      have hpos := encode_length_pos c
      rw [List.length_append, List.length_nil] at this
      omega
    | @cons c' bs' text' _ hc' hsplit' =>
      -- the first byte tells the length
      have hlen : (encode c).length = (encode c').length := by
        cases he : encode c with
        | nil => exact absurd (encode_length_pos c) (by rw [he]; exact Nat.lt_irrefl 0)
        | cons b tail =>
          cases he' : encode c' with
          | nil => exact absurd (encode_length_pos c') (by rw [he']; exact Nat.lt_irrefl 0)
          | cons b' tail' =>
            rw [he, he'] at hbs
            obtain ⟨rfl, -⟩ := List.cons.inj hbs
            exact (utf8CheckFirst_encode hc he).symm.trans (utf8CheckFirst_encode hc' he')
      obtain ⟨he, rfl⟩ := List.append_inj hbs hlen
      rw [he, ih hsplit']
    | bad _ hbad => exact absurd hbs.symm (hbad c bs hc)
  | @bad bs hne hbad =>
    cases h' with
    | nil => exact absurd rfl hne
    | @cons c bs _ _ hc _ => exact absurd rfl (hbad c bs hc)
    | bad _ _ => rfl

/-- A stream stands before one text only. -/
theorem Stream.At.unique {s : Stream δ} {text text' : Bytes} {bad bad' : Bool}
    (h : s.At get text bad) (h' : s.At get text' bad') : text = text' := by
  cases hs : s.state with
  | eof => rw [(h.eof hs).1, (h'.eof hs).1]
  | error => rw [(h.error hs).1, (h'.error hs).1]
  | ok =>
    obtain ⟨-, -, bs, t, hgives, hsplit, rfl⟩ := h.ok hs
    obtain ⟨-, -, bs', t', hgives', hsplit', rfl⟩ := h'.ok hs
    obtain rfl := hgives.unique hgives'
    rw [hsplit.unique hsplit']

theorem Valid.split_append {w rest t : Bytes} {bad : Bool} (hw : Valid w) (h : Split rest t bad) :
    Split (w ++ rest) (w ++ t) bad := by
  induction hw with
  | nil => exact h
  | @cons c w hc _ ih =>
    rw [List.append_assoc, List.append_assoc]
    exact .cons hc ih

/-- With `JSON_DISABLE_EOF_CHECK` the stream is where the value has ended. -/
theorem parseJson_rest {R : Type} {e : Conf R δ} {lex : Lex R δ} {text : Bytes} {bad : Bool}
    (he : e.flags.disableEofCheck = true) (h : lex.stream.At e.get text bad)
    (hn : text.length < e.steps) :
    (∀ v, (parseJson e lex).1 = some v →
      ∃ t r rest, scan e bad text = some (t, r) ∧ (e.flags.decodeAny = true ∨ t.opens = true) ∧
        textValue e bad jsonParserMaxDepth (t, r) = some (v, rest) ∧
        (parseJson e lex).2.stream.At e.get rest bad) ∧
    ∀ t r v rest, scan e bad text = some (t, r) → (e.flags.decodeAny = true ∨ t.opens = true) →
      textValue e bad jsonParserMaxDepth (t, r) = some (v, rest) → (parseJson e lex).1 = some v := by
  constructor
  · intro v hv
    unfold parseJson at hv ⊢
    dsimp only at hv ⊢
    by_cases hany : (!e.flags.decodeAny && !(lexScan e lex).token.opens) = true
    · rw [if_pos hany] at hv
      cases hv
    rw [if_neg hany] at hv ⊢
    rcases lexScan_cases h hn with ⟨-, htoken⟩ | ⟨t, r, hscan, hfront⟩
    · have hnone := (@parseValue_simulates _ _ e bad jsonParserMaxDepth).invalid htoken
      generalize parseValue e jsonParserMaxDepth (lexScan e lex) = result at hnone hv
      obtain ⟨o, lex'⟩ := result
      obtain rfl : o = none := hnone
      cases hv
    rcases ((parseValue_simulates jsonParserMaxDepth).front hfront).cases with
      ⟨-, lex', heq⟩ | ⟨v', rest, lex', htv, heq, hat, -⟩
    · rw [heq] at hv
      cases hv
    rw [heq] at hv ⊢
    dsimp only at hv ⊢
    rw [he, if_pos rfl] at hv ⊢
    obtain rfl := Option.some.inj hv
    refine ⟨t, r, rest, hscan, ?_, htv, hat⟩
    rw [hfront.token] at hany
    simpa [imp_iff_not_or] using hany
  · intro t r v rest hscan hany htv
    rw [parseJson_eq h hn]
    unfold textJson
    rw [hscan, Option.bind_some]
    dsimp only
    rw [if_neg, htv, Option.bind_some]
    · dsimp only
      rw [he, if_pos rfl]
    · rcases hany with hany | hany
      · simp [hany]
      · simp [hany]

end

/-! ## Runs of the decoder -/

section
variable {R : Type} {strtod : Bytes → Option R} {flags : LoadFlags} {data text : Bytes} {bad : Bool}

/-- The position of a run that succeeds, and what the parser on lists has left. -/
theorem load_behind {get : GetFunc Bytes} (he : flags.disableEofCheck = true)
    (hgives : Gives get data data) (h0 : 0 ∉ data) (hsplit : Split data text bad) {v : Json R}
    (hv : (load get strtod flags data).1 = some v) :
    ∃ pre rest t r, text = pre ++ rest ∧ (load get strtod flags data).2.stream.position = pre.length ∧
      scan ⟨get, strtod, flags, data.length + 1⟩ bad text = some (t, r) ∧
      (flags.decodeAny = true ∨ t.opens = true) ∧
      textValue ⟨get, strtod, flags, data.length + 1⟩ bad jsonParserMaxDepth (t, r) = some (v, rest) := by
  obtain ⟨⟨pre, left, hbetween⟩, -⟩ := @load_tracked R strtod flags data text bad get hgives h0 hsplit
  obtain ⟨t, r, rest, hscan, hany, htv, hat⟩ := (@parseJson_rest Bytes R
    ⟨get, strtod, flags, data.length + 1⟩ { stream := { data := data } } text bad he
    (Stream.at_init hgives hsplit) (Nat.lt_succ_of_le hsplit.length_le)).1 v hv
  obtain rfl : left = rest := hbetween.left.unique hat
  exact ⟨pre, left, t, r, hbetween.whole, hbetween.behind.position, hscan, hany, htv⟩

theorem reported_position (source : Bytes) {r : Option (Json R) × Lex R Bytes} {v : Json R}
    (h : r.1 = some v) : (reported source r).1 = some v ∧
      (reported source r).2.position = .ofInt r.2.stream.position := by
  unfold reported
  rw [h]
  exact ⟨rfl, rfl⟩

/-- What was consumed is a text of its own. -/
theorem consumed_text (h0 : 0 ∉ data) {v : Json R} {error : JsonError}
    (h : jsonLoadsError strtod { flags with disableEofCheck := true } data = (some v, error)) :
    ∃ n ≤ data.length, error.position = .ofInt n ∧
      jsonLoads strtod { flags with disableEofCheck := false } (data.take n) = some v ∧
      ∃ b, (data.take n).getLast? = some b ∧ isSpace b = false := by
  obtain ⟨text, bad, hsplit⟩ := split_exists data
  have hvalue : (load stringGet strtod { flags with disableEofCheck := true } data).1 = some v := by
    have hfst := jsonLoadsError_fst strtod { flags with disableEofCheck := true } data
    rw [h] at hfst
    exact hfst.symm
  have hposition := (reported_position (ascii "<string>") hvalue).2
  rw [show reported (ascii "<string>") (load stringGet strtod { flags with disableEofCheck := true } data) =
    (some v, error) from h] at hposition
  obtain ⟨pre, rest, t, r, rfl, hpre, hscan, hany, htv⟩ := load_behind rfl (gives_stringGet h0) h0 hsplit hvalue
  have hclean : Clean (pre ++ rest) := ⟨hsplit.valid, fun hm => h0 (hsplit.subset hm)⟩
  rcases scan_sound hclean hscan with ⟨rfl, -⟩ | ⟨inp, hws, htok, hr⟩
  · cases htv
  have hval := ((textValue_sound jsonParserMaxDepth).value htok hr htv).1
  obtain ⟨body, b, rfl, hb, hclosed⟩ := Value.closed false jsonParserMaxDepth _ _ _ hval
  obtain ⟨ws, hspace, heq⟩ := hws
  have hpre' : pre = ws ++ body ++ [b] := by
    have : pre ++ rest = ws ++ body ++ [b] ++ rest := by rw [heq]; simp
    exact List.append_cancel_right this
  have hbegins : pre <+: data := (List.prefix_append _ _).trans hsplit.begins
  have htake : data.take pre.length = pre := (List.prefix_iff_eq_take.1 hbegins).symm
  refine ⟨pre.length, hbegins.length_le, ?_, ?_, b, ?_, hb⟩
  · rw [hposition, hpre]
  · rw [htake]
    have h0' : 0 ∉ pre := fun hm => h0 (hbegins.subset hm)
    refine (load_eq_some_iff (gives_stringGet h0') h0' rfl).2 ⟨?_, body ++ [b], [], ⟨ws, hspace, ?_⟩,
      hclosed [], [], nofun, rfl⟩
    · exact hany.imp_right fun hopens => textValue_opens hopens hr htv
    · rw [hpre', List.append_assoc]
  · rw [htake, hpre', List.getLast?_concat]

/-- A text in front of others is read, and the position is its length. -/
theorem consumed_append {w rest : Bytes} (h0 : 0 ∉ w ++ rest) {v : Json R}
    (h : jsonLoads strtod { flags with disableEofCheck := false } w = some v)
    (hlast : ∃ b, w.getLast? = some b ∧ isSpace b = false) (hrest : v.IsContainer ∨ Follow rest) :
    (jsonLoadsError strtod { flags with disableEofCheck := true } (w ++ rest)).1 = some v ∧
      (jsonLoadsError strtod { flags with disableEofCheck := true } (w ++ rest)).2.position =
        .ofInt w.length := by
  have h0w : 0 ∉ w := fun hm => h0 (List.mem_append_left _ hm)
  have htext := (load_eq_some_iff (gives_stringGet h0w) h0w rfl).1 h
  obtain ⟨t, bad, hsplit⟩ := split_exists rest
  have hwhole : Split (w ++ rest) (w ++ t) bad := htext.valid.split_append hsplit
  obtain ⟨hany, inp, r, hws, hval, hr⟩ := htext
  obtain ⟨body, b, rfl, -, hclosed⟩ := Value.closed true jsonParserMaxDepth _ _ _ hval
  -- nothing follows the value in its text
  obtain rfl : r = [] := by
    obtain ⟨ws, hspace, rfl⟩ := hws
    obtain ⟨ws', hspace', rfl⟩ := hr
    obtain rfl | ⟨init, c, rfl⟩ := List.eq_nil_or_concat ws'
    · rfl
    obtain ⟨b', hb', hne⟩ := hlast
    rw [List.concat_eq_append] at hb' hspace'
    have hc := hspace' c (List.mem_append_right _ List.mem_cons_self)
    have : ws ++ (body ++ b :: (init ++ [c] ++ [])) = (ws ++ body ++ b :: init) ++ [c] := by simp
    rw [this, List.getLast?_concat] at hb'
    rw [Option.some.inj hb', hne] at hc
    cases hc
  obtain ⟨ws, hspace, rfl⟩ := hws
  have hlen : (body ++ b :: t).length < (ws ++ (body ++ [b]) ++ rest).length + 1 := by
    have := hsplit.length_le
    simp only [List.length_append, List.length_cons, List.length_nil]
    omega
  have hfollow : v.IsContainer ∨ Follow t := by
    refine hrest.imp_right fun hf c hc => ?_
    cases t with
    | nil => cases hc
    | cons c' t =>
      obtain rfl := Option.mem_some_iff.1 hc
      obtain ⟨ch, tail, bs', cs', -, -, rfl, -⟩ := hsplit.head
      exact hf _ rfl
  let e : Conf R Bytes := ⟨stringGet, strtod, { flags with disableEofCheck := true },
    (ws ++ (body ++ [b]) ++ rest).length + 1⟩
  have hcomplete : ∃ tok text, (∀ text₀, Ws text₀ (body ++ b :: t) → scan e bad text₀ = some (tok, text)) ∧
      (v.IsContainer → tok.opens = true) ∧ textValue e bad jsonParserMaxDepth (tok, text) = some (v, t) := by
    rcases hfollow with hcont | hf
    · obtain ⟨d, hd⟩ : ∃ d, jsonParserMaxDepth = d + 1 := ⟨2047, rfl⟩
      rw [hd] at hclosed ⊢
      obtain ⟨tok, text, hscan, -, hopens, htv⟩ :=
        @textValue_container R Bytes e bad _ _ d v hcont (textValue_complete d) (hclosed t) hlen
      exact ⟨tok, text, hscan, fun _ => hopens, htv⟩
    · obtain ⟨tok, text, hscan, -, hopens, htv⟩ :=
        @textValue_complete R Bytes e bad jsonParserMaxDepth v _ _ (hclosed t) hlen hf
      exact ⟨tok, text, hscan, hopens, htv⟩
  obtain ⟨tok, text, hscan, hopens, htv⟩ := hcomplete
  have hscan' := hscan (ws ++ (body ++ [b]) ++ t) ⟨ws, hspace, by simp⟩
  have hvalue : (load stringGet strtod { flags with disableEofCheck := true }
      (ws ++ (body ++ [b]) ++ rest)).1 = some v :=
    (parseJson_rest (e := e) rfl (Stream.at_init (gives_stringGet h0) hwhole)
      (Nat.lt_succ_of_le hwhole.length_le)).2 tok text v t hscan' (hany.imp_right hopens) htv
  obtain ⟨pre, left, tok', text', heq, hpre, hscan₁, -, htv₁⟩ :=
    load_behind rfl (gives_stringGet h0) h0 hwhole hvalue
  rw [hscan'] at hscan₁
  obtain ⟨rfl, rfl⟩ := Prod.mk.inj (Option.some.inj hscan₁)
  rw [htv] at htv₁
  obtain ⟨-, rfl⟩ := Prod.mk.inj (Option.some.inj htv₁)
  obtain rfl := List.append_cancel_right heq
  have hreported := reported_position (ascii "<string>") hvalue
  rw [hpre] at hreported
  exact hreported

variable (strtod flags)

/-- **What is consumed.** With `JSON_DISABLE_EOF_CHECK`, the position that is reported is the length
    of a text of its own, converted to `int`; the text ends with its value. A text in front of
    others is consumed and nothing else, where an array or an object may be followed by anything and
    other values by whitespace or punctuation. -/
theorem jsonLoads_consumed :
    (∀ (string : Bytes) (v : Json R) (error : JsonError), 0 ∉ string →
      jsonLoadsError strtod { flags with disableEofCheck := true } string = (some v, error) →
      ∃ n ≤ string.length, error.position = .ofInt n ∧ (n < 2 ^ 31 → error.position.toInt = n) ∧
        jsonLoads strtod { flags with disableEofCheck := false } (string.take n) = some v ∧
        ∃ b, (string.take n).getLast? = some b ∧ isSpace b = false) ∧
    ∀ (w rest : Bytes) (v : Json R), 0 ∉ w ++ rest →
      jsonLoads strtod { flags with disableEofCheck := false } w = some v →
      (∃ b, w.getLast? = some b ∧ isSpace b = false) → (v.IsContainer ∨ Follow rest) →
      (jsonLoadsError strtod { flags with disableEofCheck := true } (w ++ rest)).1 = some v ∧
        (jsonLoadsError strtod { flags with disableEofCheck := true } (w ++ rest)).2.position =
          .ofInt w.length := by
  refine ⟨fun string v error h0 h => ?_, fun w rest v h0 h hlast hrest =>
    consumed_append h0 h hlast hrest⟩
  obtain ⟨n, hn, hposition, htext⟩ := consumed_text h0 h
  refine ⟨n, hn, hposition, fun hlt => ?_, htext⟩
  rw [hposition]
  exact Int32.toInt_ofInt_of_le (by omega) (by omega)

end

/-- `0`, a number with a byte of lookahead that is no UTF-8, is consumed up to that byte. -/
theorem jsonLoads_consumed_lookahead :
    ∃ v : Json Empty, ∃ n ≤ 2, jsonLoads (fun _ => none) { decodeAny := true } ([0x30, 0xFF].take n) = some v := by
  have h0 : 0 ∉ ([0x30, 0xFF] : Bytes) := by decide
  have hsome : (jsonLoadsError (R := Empty) (fun _ => none) { decodeAny := true, disableEofCheck := true }
      [0x30, 0xFF]).1.isSome = true := by decide +kernel
  obtain ⟨v, hv⟩ := Option.isSome_iff_exists.1 hsome
  obtain ⟨n, hn, -, -, htext, -⟩ := (jsonLoads_consumed (R := Empty) (fun _ => none) { decodeAny := true }).1
    [0x30, 0xFF] v _ h0 (Prod.ext hv rfl)
  exact ⟨v, n, hn, htext⟩

/-- An empty array behind whitespace. -/
theorem jsonLoads_padded (n : ℕ) :
    0 ∉ List.replicate n (0x20 : UInt8) ++ [0x5B, 0x5D] ∧
      (jsonLoadsError (R := Empty) (fun _ => none) { disableEofCheck := true }
        (List.replicate n 0x20 ++ [0x5B, 0x5D])).1 = some (.array []) ∧
      (jsonLoadsError (R := Empty) (fun _ => none) { disableEofCheck := true }
        (List.replicate n 0x20 ++ [0x5B, 0x5D])).2.position = .ofInt (n + 2 : ℕ) := by
  have h0 : 0 ∉ List.replicate n (0x20 : UInt8) ++ [0x5B, 0x5D] := by
    rw [List.mem_append, not_or]
    exact ⟨fun hmem => absurd (List.eq_of_mem_replicate hmem) (by decide), by decide⟩
  have hvalue : Value false (fun _ => none) {} jsonParserMaxDepth (.array [] : Json Empty)
      [0x5B, 0x5D] [] := by
    obtain ⟨d, hd⟩ : ∃ d, jsonParserMaxDepth = d + 1 := ⟨2047, rfl⟩
    rw [hd]
    exact .emptyArray ⟨[], nofun, rfl⟩
  have hspace : ∀ c ∈ List.replicate n (0x20 : UInt8), isSpace c = true := fun c hc => by
    rw [List.eq_of_mem_replicate hc]
    rfl
  have hloads : jsonLoads (fun _ => none) {} (List.replicate n 0x20 ++ [0x5B, 0x5D]) =
      some (.array [] : Json Empty) :=
    (load_eq_some_iff (gives_stringGet h0) h0 rfl).2
      ⟨.inr trivial, [0x5B, 0x5D], [], ⟨_, hspace, rfl⟩, hvalue, [], nofun, rfl⟩
  have hlast : (List.replicate n (0x20 : UInt8) ++ [0x5B, 0x5D]).getLast? = some 0x5D := by
    rw [List.append_cons, List.getLast?_concat]
  obtain ⟨hfst, hposition⟩ := @consumed_append Empty _ {} _ [] (by rwa [List.append_nil]) _ hloads
    ⟨0x5D, hlast, rfl⟩ (.inl trivial)
  rw [List.append_nil] at hfst hposition
  rw [List.length_append, List.length_replicate] at hposition
  exact ⟨h0, hfst, hposition⟩

/-- Behind 2 GiB the position is no longer the length of what was consumed. -/
theorem jsonLoads_not_consumed :
    ∃ (string : Bytes) (v : Json Empty) (error : JsonError), 0 ∉ string ∧
      jsonLoadsError (fun _ => none) { disableEofCheck := true } string = (some v, error) ∧
      ¬ ∃ n : ℕ, error.position.toInt = n := by
  obtain ⟨k, hk⟩ : ∃ k : ℕ, k = 2 ^ 31 := ⟨_, rfl⟩
  obtain ⟨h0, hfst, hposition⟩ := jsonLoads_padded k
  refine ⟨_, _, _, h0, Prod.ext hfst rfl, ?_⟩
  rintro ⟨n, hn⟩
  have hneg : (Int32.ofInt ((2 ^ 31 + 2 : ℕ) : ℤ)).toInt = -2 ^ 31 + 2 := by decide
  rw [hposition, hk, hneg] at hn
  omega

end Jansson
