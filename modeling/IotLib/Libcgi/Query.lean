/-
  Form decoding of libcgi (`cgi.c`): `process_data`, which splits a query into names and values, and the
  escaping and unescaping of values.
-/
import IotLib.Libcgi.Slashes

namespace Libcgi

/-! ## The functions -/

def isalnum (c : UInt8) : Bool := (0x30 ≤ c && c ≤ 0x39) || (0x41 ≤ c && c ≤ 0x5A) || (0x61 ≤ c && c ≤ 0x7A)

def isxdigit (c : UInt8) : Bool := (0x30 ≤ c && c ≤ 0x39) || (0x41 ≤ c && c ≤ 0x46) || (0x61 ≤ c && c ≤ 0x66)

/-- The value of a hexadecimal digit. -/
def hexVal (c : UInt8) : ℕ :=
  if 0x30 ≤ c && c ≤ 0x39 then c.toNat - 0x30
  else if 0x41 ≤ c && c ≤ 0x46 then c.toNat - 0x41 + 10
  else if 0x61 ≤ c && c ≤ 0x66 then c.toNat - 0x61 + 10
  else 0

/-- `hextable` after `init_hex_table`: the entry of the letter `e` is 13. -/
def hextable (c : UInt8) : ℕ := if c = 0x65 then 13 else hexVal c

/-- A character that is not escaped. -/
def plus (c : UInt8) : UInt8 := if c = 0x2B then 0x20 else c

/-- The decoding of a text, where two digits behind a percent sign have a value. -/
def decodeWith (digit : UInt8 → Bool) (val : UInt8 → ℕ) : Bytes → Bytes
  | [] => []
  | c :: str =>
    match str with
    | a :: b :: rest =>
      if c = 0x25 ∧ digit a ∧ digit b then .ofNat (val a * 16 + val b) :: decodeWith digit val rest
      else plus c :: decodeWith digit val (a :: b :: rest)
    | str => plus c :: decodeWith digit val str

/-- `cgi_unescape_special_chars` -/
def cgiUnescapeSpecialChars : Bytes → Bytes := decodeWith isalnum hextable

def hex (n : ℕ) : UInt8 := if n < 10 then .ofNat (0x30 + n) else .ofNat (0x41 + (n - 10))

/-- `cgi_escape_special_chars` -/
def cgiEscapeSpecialChars (str : Bytes) : Bytes :=
  str.flatMap fun c =>
    if c = 0x20 then [0x2B]
    else if !isalnum c && c != 0x5F && c != 0x2D && c != 0x2E then
      [0x25, hex (c.toNat / 16), hex (c.toNat % 16)]
    else [c]

/-- The string that `strncpy` makes, with a terminator behind it. -/
def strncpy (src : Bytes) (n : ℕ) : Bytes := (src.takeWhile (· ≠ 0)).take n

section
variable (delim sep : UInt8) (total : ℕ)

/-- The loop of `process_data` over a value: `i`, `position` and `aux`. -/
def valueLoop : Bytes → ℕ → ℕ → ℕ × ℕ × Bytes
  | [], i, position => (i, position, [])
  | c :: aux, i, position =>
    if c = sep then (i, position, c :: aux)
    else if c = 0x25 ∧ i + 2 ≤ total then
      match aux with
      | a :: b :: aux =>
        if isalnum a ∧ isalnum b then valueLoop aux (i + 3) (position + 1)
        else valueLoop (a :: b :: aux) (i + 1) position
      | aux => valueLoop aux (i + 1) position
    else valueLoop aux (i + 1) (position + 1)

/-- The loop of `process_data` over the fields; each takes at least one character. -/
def fieldLoop : ℕ → ℕ → Bytes → List (Bytes × Bytes)
  | 0, _, _ => []
  | n + 1, i, query =>
    if query = [] then []
    else
      let name := query.takeWhile (· ≠ delim)
      let aux := query.dropWhile (· ≠ delim)
      let i := i + name.length + (if aux = [] then 0 else 1)
      let query := aux.drop 1
      let (i, position, aux) := valueLoop sep total query i 0
      let i := i + (if aux = [] then 0 else 1)
      (name, strncpy (cgiUnescapeSpecialChars query) position) :: fieldLoop n i (aux.drop 1)

end

/-- `process_data` -/
def processData (query : Bytes) (delim sep : UInt8) : List (Bytes × Bytes) :=
  fieldLoop delim sep query.length query.length 0 query

/-! ## What is meant -/

def percentDecode : Bytes → Bytes := decodeWith isxdigit hexVal

/-- The fields of a query: a name, the text of the value, and whether that ends the query. -/
def fields : ℕ → Bytes → List (Bytes × Bytes × Bool)
  | 0, _ => []
  | n + 1, query =>
    if query = [] then []
    else
      let value := (query.dropWhile (· ≠ 0x3D)).drop 1
      let rest := value.dropWhile (· ≠ 0x26)
      (query.takeWhile (· ≠ 0x3D), value.takeWhile (· ≠ 0x26), rest = []) :: fields n (rest.drop 1)

/-- A text that is decoded as it should be: every percent sign begins an escape without the letter `e`,
    or is the last character of the query. -/
def Readable (ended : Bool) : Bytes → Prop
  | [] => True
  | c :: text =>
    if c = 0x25 then
      match text with
      | a :: b :: text => (isxdigit a ∧ isxdigit b ∧ a ≠ 0x65 ∧ b ≠ 0x65) ∧ Readable ended text
      | text => text = [] ∧ ended
    else Readable ended text

/-! ## Decoding -/

section
variable {digit : UInt8 → Bool} {val : UInt8 → ℕ} {a b c : UInt8} {s r : Bytes}

/-- No escape begins here. -/
def NoEscape (digit : UInt8 → Bool) (s : Bytes) : Prop := ∀ a b t, s = a :: b :: t → ¬ (digit a ∧ digit b)

section
-- the equations of these definitions, which the lemmas below rewrite with
attribute [local simp] Readable cgiUnescapeSpecialChars decodeWith fields hexVal isxdigit
  percentDecode plus valueLoop
end

theorem decode_escape (ha : digit a = true) (hb : digit b = true) :
    decodeWith digit val (0x25 :: a :: b :: s) = .ofNat (val a * 16 + val b) :: decodeWith digit val s := by
  rw [decodeWith]
  exact if_pos ⟨rfl, ha, hb⟩

theorem decode_other (h : c = 0x25 → NoEscape digit s) :
    decodeWith digit val (c :: s) = plus c :: decodeWith digit val s := by
  match s, h with
  | [], _ => rfl
  | [_], _ => rfl
  | a :: b :: t, h =>
    rw [decodeWith]
    exact if_neg fun h' => h h'.1 a b t rfl h'.2

/-- The induction over a text along the escapes that libcgi sees. -/
theorem text_induction {P : Bytes → Prop} (nil : P []) (plain : ∀ c s, c ≠ 0x25 → P s → P (c :: s))
    (escape : ∀ a b s, isalnum a = true → isalnum b = true → P s → P (0x25 :: a :: b :: s))
    (percent : ∀ s, NoEscape isalnum s → P s → P (0x25 :: s)) (s : Bytes) : P s := by
  induction hl : s.length using Nat.strong_induction_on generalizing s with
  | _ l ih =>
    subst hl
    match s with
    | [] => exact nil
    | c :: s =>
      have hs := ih s.length (Nat.lt_succ_self _) s rfl
      by_cases hc : c = 0x25
      · subst hc
        by_cases h : NoEscape isalnum s
        · exact percent s h hs
        · obtain ⟨a, b, t, rfl, ha, hb⟩ : ∃ a b t, s = a :: b :: t ∧ isalnum a ∧ isalnum b := by
            simpa only [NoEscape, not_forall, not_not, exists_prop] using h
          exact escape a b t ha hb (ih t.length (by simp only [List.length_cons]; omega) t rfl)
      · exact plain c s hc hs

/-- Behind a value there is no digit, so that no escape reaches beyond it. -/
theorem NoEscape.append (hr : ∀ c ∈ r.head?, isalnum c = false) (h : NoEscape isalnum s) :
    NoEscape isalnum (s ++ r) := by
  intro a b t heq hab
  match s, h with
  | [], _ =>
    rw [List.nil_append] at heq
    subst heq
    rw [hr a rfl] at hab
    exact Bool.false_ne_true hab.1
  | [_], _ =>
    obtain ⟨-, rfl⟩ := List.cons.inj heq
    rw [hr b rfl] at hab
    exact Bool.false_ne_true hab.2
  | x :: y :: _, h =>
    have hx : x = a := (List.cons.inj heq).1
    have hy : y = b := (List.cons.inj (List.cons.inj heq).2).1
    exact h x y _ rfl ⟨hx ▸ hab.1, hy ▸ hab.2⟩

theorem unescape_append (hr : ∀ c ∈ r.head?, isalnum c = false) (s : Bytes) :
    cgiUnescapeSpecialChars (s ++ r) = cgiUnescapeSpecialChars s ++ cgiUnescapeSpecialChars r := by
  unfold cgiUnescapeSpecialChars
  induction s using text_induction with
  | nil => rfl
  | plain c s hc ih =>
    rw [List.cons_append, decode_other fun h => absurd h hc, decode_other fun h => absurd h hc, ih]
    rfl
  | escape a b s ha hb ih =>
    rw [List.cons_append, List.cons_append, List.cons_append, decode_escape ha hb, decode_escape ha hb, ih]
    rfl
  | percent s h ih =>
    rw [List.cons_append, decode_other fun _ => h.append hr, decode_other fun _ => h, ih]
    rfl

theorem isalnum_of_isxdigit (h : isxdigit c = true) : isalnum c = true := by
  simp only [isxdigit, isalnum, Bool.or_eq_true, Bool.and_eq_true, decide_eq_true_eq,
    UInt8.le_iff_toNat_le, UInt8.reduceToNat] at h ⊢
  omega

theorem hexVal_lt (c : UInt8) : hexVal c < 16 := by
  unfold hexVal
  split_ifs with h₁ h₂ h₃ <;>
    simp only [Bool.and_eq_true, decide_eq_true_eq, UInt8.le_iff_toNat_le, UInt8.reduceToNat] at * <;> omega

/-- The table gives another byte if and only if a digit is the letter `e`. -/
theorem hextable_byte : (UInt8.ofNat (hextable a * 16 + hextable b) = .ofNat (hexVal a * 16 + hexVal b)) ↔
    a ≠ 0x65 ∧ b ≠ 0x65 := by
  have he : hexVal 0x65 = 14 := by decide
  have ha := hexVal_lt a
  have hb := hexVal_lt b
  unfold hextable
  constructor
  · intro h
    have h' := congrArg UInt8.toNat h
    constructor
    · rintro rfl
      rw [if_pos rfl, he, UInt8.toNat_ofNat_of_lt' (show _ < 256 by split_ifs <;> omega),
        UInt8.toNat_ofNat_of_lt' (show _ < 256 by omega)] at h'
      split_ifs at h' <;> omega
    · rintro rfl
      rw [if_pos rfl, he, UInt8.toNat_ofNat_of_lt' (show _ < 256 by split_ifs <;> omega),
        UInt8.toNat_ofNat_of_lt' (show _ < 256 by omega)] at h'
      split_ifs at h' <;> omega
  · rintro ⟨h₁, h₂⟩
    rw [if_neg h₁, if_neg h₂]

theorem plus_alnum (h : isalnum c = true) : plus c = c ∧ c ≠ 0x25 := by
  unfold plus
  constructor
  · rw [if_neg]
    rintro rfl
    exact absurd h (by decide)
  · rintro rfl
    exact absurd h (by decide)

/-! ## A value -/

variable {sep : UInt8} {total i position : ℕ}

theorem valueLoop_cons (h : c ≠ sep) : valueLoop sep total (c :: s) i position =
    if c = 0x25 ∧ i + 2 ≤ total then
      match s with
      | a :: b :: aux =>
        if isalnum a ∧ isalnum b then valueLoop sep total aux (i + 3) (position + 1)
        else valueLoop sep total (a :: b :: aux) (i + 1) position
      | aux => valueLoop sep total aux (i + 1) position
    else valueLoop sep total s (i + 1) (position + 1) := by
  rw [valueLoop.eq_def]
  exact if_neg h

theorem readable_plain {ended : Bool} (h : c ≠ 0x25) : Readable ended (c :: s) ↔ Readable ended s := by
  rw [Readable.eq_def]
  exact iff_of_eq (if_neg h)

theorem readable_escape {ended : Bool} : Readable ended (0x25 :: a :: b :: s) ↔
    (isxdigit a ∧ isxdigit b ∧ a ≠ 0x65 ∧ b ≠ 0x65) ∧ Readable ended s := by
  rw [Readable.eq_def]
  exact iff_of_eq (if_pos rfl)

/-- What the loop counts in a value is at most what is decoded of it, and that is at most what is meant;
    all agree if and only if the text is readable. -/
theorem valueLoop_spec (hsep : isalnum sep = false) (hr : ∀ c ∈ r.head?, c = sep)
    (v : Bytes) (hv : sep ∉ v) (hi : i + v.length + r.length = total) :
    ∃ n, valueLoop sep total (v ++ r) i position = (i + v.length, position + n, r) ∧
      n ≤ (cgiUnescapeSpecialChars v).length ∧
      (cgiUnescapeSpecialChars v).length ≤ (percentDecode v).length ∧
      (n = (cgiUnescapeSpecialChars v).length ∧ cgiUnescapeSpecialChars v = percentDecode v ↔
        Readable (r = []) v) := by
  have hstop : ∀ c ∈ r.head?, isalnum c = false := fun c hc => (hr c hc) ▸ hsep
  unfold cgiUnescapeSpecialChars percentDecode
  induction v using text_induction generalizing i position with
  | nil =>
    refine ⟨0, ?_, le_rfl, le_rfl, iff_of_true ⟨rfl, rfl⟩ trivial⟩
    rw [List.nil_append]
    cases r with
    | nil => rfl
    | cons c r =>
      rw [valueLoop.eq_def]
      exact if_pos (hr c rfl)
  | plain c v hc ih =>
    obtain ⟨hcs, hv⟩ := not_or.1 (List.mem_cons.not.1 hv)
    rw [List.length_cons] at hi
    obtain ⟨n, hn, hle, hle', hiff⟩ := @ih (i + 1) (position + 1) hv (by omega)
    refine ⟨n + 1, ?_, ?_⟩
    · rw [List.cons_append, valueLoop_cons (Ne.symm hcs), if_neg fun h => hc h.1, hn, List.length_cons]
      simp only [Nat.add_assoc, Nat.add_comm 1]
    · rw [decode_other fun h => absurd h hc, decode_other fun h => absurd h hc,
        readable_plain hc, List.length_cons, List.length_cons, ← hiff, Nat.add_right_cancel_iff, List.cons.injEq]
      exact ⟨Nat.succ_le_succ hle, Nat.succ_le_succ hle', by simp only [true_and]⟩
  | escape a b v ha hb ih =>
    simp only [List.mem_cons, not_or] at hv
    simp only [List.length_cons] at hi
    obtain ⟨n, hn, hle, hle', hiff⟩ := @ih (i + 3) (position + 1) hv.2.2.2 (by omega)
    refine ⟨n + 1, ?_, ?_⟩
    · rw [List.cons_append, List.cons_append, List.cons_append, valueLoop_cons (Ne.symm hv.1),
        if_pos ⟨rfl, by omega⟩]
      dsimp only
      rw [if_pos ⟨ha, hb⟩, hn]
      simp only [List.length_cons, Nat.add_assoc, Nat.add_comm 1, Nat.reduceAdd]
      rw [Nat.add_comm 3]
    · rw [decode_escape ha hb, List.length_cons]
      by_cases hx : isxdigit a = true ∧ isxdigit b = true
      · rw [decode_escape hx.1 hx.2, List.length_cons, Nat.add_right_cancel_iff, List.cons.injEq, hextable_byte,
          readable_escape, ← hiff]
        refine ⟨Nat.succ_le_succ hle, Nat.succ_le_succ hle', ?_⟩
        simp only [hx.1, hx.2, true_and]
        exact and_left_comm
      · -- the escape is none, and three characters are meant
        have hpa := plus_alnum ha
        have hpb := plus_alnum hb
        have hno : NoEscape isxdigit (a :: b :: v) := by
          intro x y t heq hxy
          have h₁ : a = x := (List.cons.inj heq).1
          have h₂ : b = y := (List.cons.inj (List.cons.inj heq).2).1
          exact hx ⟨h₁ ▸ hxy.1, h₂ ▸ hxy.2⟩
        rw [decode_other fun _ => hno, decode_other fun h => absurd h hpa.2,
          decode_other fun h => absurd h hpb.2, readable_escape]
        simp only [List.length_cons]
        refine ⟨Nat.succ_le_succ hle, by omega, iff_of_false (fun h => ?_) fun h => hx ⟨h.1.1, h.1.2.1⟩⟩
        have hlen := congrArg List.length h.2
        simp only [List.length_cons] at hlen
        omega
  | percent v hno ih =>
    obtain ⟨hcs, hv⟩ := not_or.1 (List.mem_cons.not.1 hv)
    rw [List.length_cons] at hi
    have hx : NoEscape isxdigit v := fun a b t heq h =>
      hno a b t heq ⟨isalnum_of_isxdigit h.1, isalnum_of_isxdigit h.2⟩
    rw [decode_other fun _ => hno, decode_other fun _ => hx, List.length_cons, List.length_cons]
    by_cases hlast : v ++ r = []
    · -- the last character of the query
      obtain ⟨rfl, rfl⟩ := List.append_eq_nil_iff.1 hlast
      refine ⟨1, ?_, le_rfl, le_rfl, iff_of_true ⟨rfl, rfl⟩ ⟨rfl, rfl⟩⟩
      have hend : ¬ i + 2 ≤ total := by
        simp only [List.length_nil] at hi
        omega
      rw [List.append_nil, valueLoop_cons (Ne.symm hcs), if_neg fun h => hend h.2]
      rfl
    · obtain ⟨n, hn, hle, hle', -⟩ := @ih (i + 1) position hv (by omega)
      refine ⟨n, ?_, Nat.le_succ_of_le hle, Nat.succ_le_succ hle',
        iff_of_false (fun h => absurd h.1 (Nat.lt_succ_of_le hle).ne) fun h => ?_⟩
      · have hpos := List.length_pos_of_ne_nil hlast
        rw [List.length_append] at hpos
        have hloop : valueLoop sep total (0x25 :: (v ++ r)) i position =
            valueLoop sep total (v ++ r) (i + 1) position := by
          rw [valueLoop_cons (Ne.symm hcs), if_pos ⟨rfl, by omega⟩]
          have happ := hno.append hstop
          match v ++ r, happ with
          | [], _ => rfl
          | [_], _ => rfl
          | a :: b :: t, happ => exact if_neg (happ a b t rfl)
        rw [List.cons_append, hloop, hn, Nat.add_assoc, Nat.add_comm 1]
      · rw [Readable.eq_def] at h
        dsimp only at h
        rw [if_pos rfl] at h
        match v, hno, hlast, h with
        | [], _, hlast, h => exact hlast (of_decide_eq_true h.2)
        | [_], _, _, h => exact List.cons_ne_nil _ _ h.1
        | a :: b :: _, hno, _, h =>
          exact hno a b _ rfl ⟨isalnum_of_isxdigit h.1.1, isalnum_of_isxdigit h.1.2.1⟩

/-- **A value** is right if and only if its text is readable. -/
theorem value_iff (hsep : isalnum sep = false) (hr : ∀ c ∈ r.head?, c = sep)
    (v : Bytes) (hv : sep ∉ v) (hi : i + v.length + r.length = total) (h0 : 0 ∉ percentDecode v) :
    ∃ n, valueLoop sep total (v ++ r) i 0 = (i + v.length, n, r) ∧
      (strncpy (cgiUnescapeSpecialChars (v ++ r)) n = percentDecode v ↔ Readable (r = []) v) := by
  obtain ⟨n, hn, hle, hle', hiff⟩ := @valueLoop_spec r sep total i 0 hsep hr v hv hi
  refine ⟨n, by rw [hn, Nat.zero_add], ?_⟩
  rw [unescape_append fun c hc => (hr c hc) ▸ hsep, ← hiff]
  unfold strncpy
  constructor
  · intro h
    have hlen := congrArg List.length h
    rw [List.length_take] at hlen
    have hn' : n = (cgiUnescapeSpecialChars v).length := by omega
    refine ⟨hn', ?_⟩
    rw [← h]
    have hpre : List.take n (List.takeWhile (fun x => decide (x ≠ 0))
        (cgiUnescapeSpecialChars v ++ cgiUnescapeSpecialChars r)) <+:
        cgiUnescapeSpecialChars v ++ cgiUnescapeSpecialChars r :=
      (List.take_prefix _ _).trans (List.takeWhile_prefix _)
    refine ((List.prefix_of_prefix_length_le hpre (List.prefix_append _ _) ?_).eq_of_length ?_).symm
    · rw [h]
      omega
    · rw [h]
      omega
  · rintro ⟨rfl, heq⟩
    rw [List.takeWhile_append_of_pos, List.take_left, heq]
    intro c hc
    refine decide_eq_true ?_
    rintro rfl
    exact h0 (heq ▸ hc)

/-! ## Fields -/

/-- A NUL is decoded only of `%00`. -/
theorem zero_mem_decode (v : Bytes) (h : 0 ∈ percentDecode v) : 0 ∈ v ∨ [0x25, 0x30, 0x30] <:+: v := by
  have hplus : ∀ c : UInt8, 0 = plus c → c = 0 := by
    intro c hc
    unfold plus at hc
    split_ifs at hc
    · exact absurd hc (by decide)
    · exact hc.symm
  have hcons : ∀ {c : UInt8} {s : Bytes}, (0 ∈ s ∨ [0x25, 0x30, 0x30] <:+: s) →
      0 ∈ c :: s ∨ [0x25, 0x30, 0x30] <:+: c :: s :=
    fun h => h.imp (List.mem_cons_of_mem _) fun h => h.trans (List.suffix_cons _ _).isInfix
  unfold percentDecode at h
  induction v using text_induction with
  | nil => cases h
  | plain c s hc ih =>
    rw [decode_other fun h => absurd h hc, List.mem_cons] at h
    rcases h with h | h
    · exact Or.inl (hplus c h ▸ List.mem_cons_self)
    · exact hcons (ih h)
  | escape a b s ha hb ih =>
    by_cases hx : isxdigit a = true ∧ isxdigit b = true
    · rw [decode_escape hx.1 hx.2, List.mem_cons] at h
      rcases h with h | h
      · have hval := congrArg UInt8.toNat h
        have hlt := hexVal_lt a
        have hlt' := hexVal_lt b
        rw [UInt8.toNat_ofNat_of_lt' (show _ < 256 by omega), UInt8.toNat_zero] at hval
        have hzero : ∀ {c : UInt8}, isxdigit c = true → hexVal c = 0 → c = 0x30 := by
          intro c hc h0
          rw [← UInt8.toNat_inj]
          unfold hexVal at h0
          simp only [isxdigit, Bool.or_eq_true, Bool.and_eq_true, decide_eq_true_eq,
            UInt8.le_iff_toNat_le, UInt8.reduceToNat] at hc h0 ⊢
          split_ifs at h0 <;> omega
        obtain rfl := hzero hx.1 (by omega)
        obtain rfl := hzero hx.2 (by omega)
        exact Or.inr (List.prefix_append [0x25, 0x30, 0x30] s).isInfix
      · exact hcons (hcons (hcons (ih h)))
    · have hno : NoEscape isxdigit (a :: b :: s) := by
        intro x y t heq hxy
        have h₁ : a = x := (List.cons.inj heq).1
        have h₂ : b = y := (List.cons.inj (List.cons.inj heq).2).1
        exact hx ⟨h₁ ▸ hxy.1, h₂ ▸ hxy.2⟩
      rw [decode_other fun _ => hno, decode_other fun h => absurd h (plus_alnum ha).2,
        decode_other fun h => absurd h (plus_alnum hb).2] at h
      simp only [List.mem_cons] at h
      rcases h with h | h | h | h
      · exact absurd h (by decide)
      · exact Or.inl (by simp [hplus a h])
      · exact Or.inl (by simp [hplus b h])
      · exact hcons (hcons (hcons (ih h)))
  | percent s hno ih =>
    rw [decode_other fun _ a b t heq h =>
      hno a b t heq ⟨isalnum_of_isxdigit h.1, isalnum_of_isxdigit h.2⟩, List.mem_cons] at h
    rcases h with h | h
    · exact absurd h (by decide)
    · exact hcons (ih h)

theorem fields_infix {n : ℕ} {query : Bytes} : ∀ f ∈ fields n query, f.2.1 <:+: query := by
  induction n generalizing query with
  | zero => exact nofun
  | succ n ih =>
    rw [fields]
    split_ifs with hq
    · exact nofun
    have hvalue : (query.dropWhile (· ≠ 0x3D)).drop 1 <:+ query :=
      (List.drop_suffix _ _).trans (List.dropWhile_suffix _)
    refine List.forall_mem_cons.2 ⟨(List.takeWhile_prefix _).isInfix.trans hvalue.isInfix, fun f hf => ?_⟩
    exact (ih f hf).trans ((List.drop_suffix _ _).trans ((List.dropWhile_suffix _).trans hvalue)).isInfix

theorem head_stop {p : UInt8} (s : Bytes) : ∀ c ∈ (s.dropWhile (· ≠ p)).head?, c = p := by
  intro c hc
  have h := List.head?_dropWhile_not (fun x => decide (x ≠ p)) s
  rw [Option.mem_def.1 hc] at h
  simpa using h

theorem length_stop {p : UInt8} (s : Bytes) : (s.takeWhile (· ≠ p)).length +
    ((if s.dropWhile (· ≠ p) = [] then 0 else 1) + ((s.dropWhile (· ≠ p)).drop 1).length) = s.length := by
  have h := congrArg List.length (@List.takeWhile_append_dropWhile _ (fun x => decide (x ≠ p)) s)
  rw [List.length_append] at h
  rw [List.length_drop, ← h]
  split_ifs with hnil
  · rw [hnil, List.length_nil]
  · have := List.length_pos_of_ne_nil hnil
    omega

/-- **The fields** are those of the query if and only if the values are readable. -/
theorem fieldLoop_iff {n : ℕ} {query : Bytes} (hn : query.length ≤ n) (hi : i + query.length = total)
    (h0 : ∀ f ∈ fields n query, 0 ∉ percentDecode f.2.1) :
    fieldLoop 0x3D 0x26 total n i query = (fields n query).map (fun f => (f.1, percentDecode f.2.1)) ↔
      ∀ f ∈ fields n query, Readable f.2.2 f.2.1 := by
  induction n generalizing i query with
  | zero => exact iff_of_true rfl nofun
  | succ n ih =>
    rw [fieldLoop, fields] at *
    by_cases hq : query = []
    · rw [if_pos hq, if_pos hq]
      exact iff_of_true rfl nofun
    rw [if_neg hq] at h0 ⊢
    rw [if_neg hq]
    have hname := @length_stop 0x3D query
    dsimp only at h0 ⊢
    generalize query.dropWhile (· ≠ 0x3D) = aux at *
    generalize hvalue : aux.drop 1 = value at *
    have hrest := @length_stop 0x26 value
    have hsplit := @List.takeWhile_append_dropWhile _ (fun x => decide (x ≠ 0x26)) value
    have hstop := @head_stop 0x26 value
    have hv : (0x26 : UInt8) ∉ value.takeWhile (· ≠ 0x26) := fun hmem => by
      simpa using List.mem_takeWhile_imp hmem
    generalize value.dropWhile (· ≠ 0x26) = r at *
    generalize value.takeWhile (· ≠ 0x26) = v at *
    obtain ⟨h0, h0'⟩ := List.forall_mem_cons.1 h0
    obtain ⟨m, hm, hiff⟩ := @value_iff r 0x26 total
      (i + (query.takeWhile (· ≠ 0x3D)).length + (if aux = [] then 0 else 1)) (by decide) hstop v
      hv (by rw [← hsplit, List.length_append] at hname; omega) h0
    rw [← hsplit, hm]
    dsimp only
    have hpos : 0 < (query.takeWhile (· ≠ 0x3D)).length + (if aux = [] then 0 else 1) := by
      split_ifs with haux
      · have := List.length_pos_of_ne_nil hq
        rw [← hvalue, haux, if_pos rfl] at hname
        rw [← hname] at this
        exact this
      · exact Nat.succ_pos _
    rw [List.map_cons, List.cons.injEq, Prod.mk.injEq, List.forall_mem_cons, ← hiff,
      ih (by omega) (by omega) h0']
    simp only [true_and]

/-! ## Escaping -/

theorem hex_spec {n : ℕ} (h : n < 16) : isxdigit (hex n) = true ∧ hexVal (hex n) = n ∧ hex n ≠ 0x65 ∧
    hex n ≠ 0x26 := by
  interval_cases n <;> decide

/-- **An escaped value** is readable and decoded to itself, and does not end before its end. -/
theorem escape_decode (v : Bytes) : percentDecode (cgiEscapeSpecialChars v) = v ∧
    Readable true (cgiEscapeSpecialChars v) ∧ 0x26 ∉ cgiEscapeSpecialChars v := by
  unfold cgiEscapeSpecialChars percentDecode
  induction v with
  | nil => exact ⟨rfl, trivial, nofun⟩
  | cons c v ih =>
    obtain ⟨ih₁, ih₂, ih₃⟩ := ih
    rw [List.flatMap_cons]
    split_ifs with hspace hesc
    · subst hspace
      rw [List.cons_append, List.nil_append, decode_other fun h => absurd h (by decide), ih₁,
        readable_plain (by decide)]
      exact ⟨rfl, ih₂, List.not_mem_cons_of_ne_of_not_mem (by decide) ih₃⟩
    · obtain ⟨h₁, h₂, h₃, h₄⟩ := hex_spec (show c.toNat / 16 < 16 by have := c.toNat_lt; omega)
      obtain ⟨h₁', h₂', h₃', h₄'⟩ := hex_spec (Nat.mod_lt c.toNat (show 0 < 16 by decide))
      rw [List.cons_append, List.cons_append, List.cons_append, List.nil_append, decode_escape h₁ h₁', ih₁,
        h₂, h₂', readable_escape, show c.toNat / 16 * 16 + c.toNat % 16 = c.toNat by omega, UInt8.ofNat_toNat]
      refine ⟨rfl, ⟨⟨h₁, h₁', h₃, h₃'⟩, ih₂⟩, ?_⟩
      simp only [List.mem_cons, not_or]
      exact ⟨by decide, Ne.symm h₄, Ne.symm h₄', ih₃⟩
    · have hc : c ≠ 0x25 ∧ c ≠ 0x2B ∧ c ≠ 0x26 := by
        refine ⟨?_, ?_, ?_⟩ <;>
        · rintro rfl
          exact hesc (by decide)
      rw [List.cons_append, List.nil_append, decode_other fun h => absurd h hc.1, ih₁, readable_plain hc.1]
      exact ⟨by rw [plus, if_neg hc.2.1], ih₂, List.not_mem_cons_of_ne_of_not_mem (Ne.symm hc.2.2) ih₃⟩

end

/-- The fields of a query, decoded. -/
def decodedFields (query : Bytes) : List (Bytes × Bytes) :=
  (fields query.length query).map fun f => (f.1, percentDecode f.2.1)

/-- **When `process_data` decodes a query**: if and only if every value is readable. What
    `cgi_escape_special_chars` makes of a value always is. -/
theorem processData_iff (query name v : Bytes) :
    (0 ∉ query → ¬ [0x25, 0x30, 0x30] <:+: query →
      (processData query 0x3D 0x26 = decodedFields query ↔
        ∀ f ∈ fields query.length query, Readable f.2.2 f.2.1)) ∧
    (0x3D ∉ name → 0 ∉ v →
      processData (name ++ 0x3D :: cgiEscapeSpecialChars v) 0x3D 0x26 = [(name, v)]) := by
  refine ⟨fun h0 h00 => ?_, fun hname h0 => ?_⟩
  · refine fieldLoop_iff le_rfl (Nat.zero_add _) fun f hf hzero => ?_
    have hpart := fields_infix f hf
    rcases zero_mem_decode _ hzero with h | h
    · exact h0 (hpart.subset h)
    · exact h00 (h.trans hpart)
  · obtain ⟨hdecode, hread, hsep⟩ := escape_decode v
    generalize cgiEscapeSpecialChars v = text at *
    have hpos : ∀ c ∈ name, decide (c ≠ 0x3D) = true := fun c hc => decide_eq_true fun h => hname (h ▸ hc)
    have htext : ∀ c ∈ text, decide (c ≠ 0x26) = true := fun c hc => decide_eq_true fun h => hsep (h ▸ hc)
    have hfields : fields (name ++ 0x3D :: text).length (name ++ 0x3D :: text) = [(name, text, true)] := by
      rw [List.length_append, List.length_cons, ← Nat.add_assoc, fields, if_neg (by simp),
        List.dropWhile_append_of_pos hpos, List.takeWhile_append_of_pos hpos]
      simp only [ne_eq, not_true_eq_false, decide_false, Bool.false_eq_true, not_false_eq_true,
        List.dropWhile_cons_of_neg, List.takeWhile_cons_of_neg, List.append_nil, List.drop_succ_cons,
        List.drop_zero]
      have hdrop : text.dropWhile (fun x => decide ¬x = 0x26) = [] := List.dropWhile_eq_nil_iff.2 htext
      have htake : text.takeWhile (fun x => decide ¬x = 0x26) = text := List.takeWhile_eq_self_iff.2 htext
      rw [hdrop, htake]
      cases name.length + text.length <;> rfl
    have hloop : processData (name ++ 0x3D :: text) 0x3D 0x26 = _ := (fieldLoop_iff le_rfl (Nat.zero_add _)
      (by rw [hfields]; simpa [hdecode] using h0)).2 (by rw [hfields]; simpa using hread)
    rw [hfields, List.map_singleton, hdecode] at hloop
    exact hloop

/-- `a=%7e` is decoded with the byte `7D`. -/
theorem processData_tilde : ¬ ∀ query : Bytes, 0 ∉ query → ¬ [0x25, 0x30, 0x30] <:+: query →
    processData query 0x3D 0x26 = decodedFields query := by
  intro h
  exact absurd (h [0x61, 0x3D, 0x25, 0x37, 0x65] (by decide) (by decide)) (by decide)

end Libcgi
