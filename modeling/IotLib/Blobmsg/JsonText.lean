/-
  The grammar of JSON texts without doubles (RFC 8259), and the texts that formatting gives.

  A rule relates what it denotes, the text at its beginning and the text after it. Strings are bytes
  here: one that is not escaped stands for itself.
-/
import IotLib.Blobmsg.Json
import IotLib.Jansson.Text

namespace Blobmsg

open Jansson (Ws Escape Hex4 Minus IntText intVal IsScalar Stops isDigit isSpace)

/-! ## The grammar -/

/-- The rest of a string after the opening quote. -/
inductive Chars : Bytes → Bytes → Bytes → Prop where
  | close {rest : Bytes} : Chars [] (0x22 :: rest) rest
  | plain {c : UInt8} {v inp rest : Bytes} : 0x20 ≤ c → c ≠ 0x22 → c ≠ 0x5C → Chars v inp rest →
      Chars (c :: v) (c :: inp) rest
  | escape {x b : UInt8} {v inp rest : Bytes} : Escape x b → Chars v inp rest →
      Chars (b :: v) (0x5C :: x :: inp) rest
  | unicode {n : ℕ} {hs v inp rest : Bytes} : Hex4 hs n → IsScalar n → Chars v inp rest →
      Chars (Jansson.encode n ++ v) (0x5C :: 0x75 :: (hs ++ inp)) rest
  | pair {m n : ℕ} {hs gs v inp rest : Bytes} : Hex4 hs m → Hex4 gs n →
      0xD800 ≤ m ∧ m ≤ 0xDBFF → 0xDC00 ≤ n ∧ n ≤ 0xDFFF → Chars v inp rest →
      Chars (Jansson.encode (0x10000 + (m - 0xD800) * 1024 + (n - 0xDC00)) ++ v)
        (0x5C :: 0x75 :: (hs ++ 0x5C :: 0x75 :: (gs ++ inp))) rest

mutual

inductive JsonValue : Json → Bytes → Bytes → Prop where
  | null {rest : Bytes} : JsonValue .null (ascii "null" ++ rest) rest
  | true {rest : Bytes} : JsonValue (.bool true) (ascii "true" ++ rest) rest
  | false {rest : Bytes} : JsonValue (.bool false) (ascii "false" ++ rest) rest
  | int {i : Int64} {m ds rest : Bytes} : Minus m → IntText ds → i.toInt = intVal (m ++ ds) →
      JsonValue (.int i) (m ++ ds ++ rest) rest
  | string {s : CStr} {inp rest : Bytes} : Chars s.1 inp rest →
      JsonValue (.string s) (0x22 :: inp) rest
  | emptyArray {inp rest : Bytes} : Ws inp (0x5D :: rest) → JsonValue (.array []) (0x5B :: inp) rest
  | array {vs : List Json} {inp r rest : Bytes} : Ws inp r → JsonElems vs r rest →
      JsonValue (.array vs) (0x5B :: inp) rest
  | emptyObject {inp rest : Bytes} : Ws inp (0x7D :: rest) → JsonValue (.object []) (0x7B :: inp) rest
  | object {ms : List (CStr × Json)} {inp r rest : Bytes} : Ws inp r → JsonMembers ms r rest →
      JsonValue (.object ms) (0x7B :: inp) rest

/-- The elements of an array and the closing bracket. -/
inductive JsonElems : List Json → Bytes → Bytes → Prop where
  | last {v : Json} {inp r rest : Bytes} : JsonValue v inp r → Ws r (0x5D :: rest) →
      JsonElems [v] inp rest
  | more {v : Json} {vs : List Json} {inp r₁ r₂ r₃ rest : Bytes} : JsonValue v inp r₁ →
      Ws r₁ (0x2C :: r₂) → Ws r₂ r₃ → JsonElems vs r₃ rest → JsonElems (v :: vs) inp rest

/-- A key, a colon, and a value. -/
inductive JsonMember : CStr → Json → Bytes → Bytes → Prop where
  | intro {key : CStr} {v : Json} {inp r₁ r₂ r₃ rest : Bytes} : Chars key.1 inp r₁ →
      Ws r₁ (0x3A :: r₂) → Ws r₂ r₃ → JsonValue v r₃ rest → JsonMember key v (0x22 :: inp) rest

/-- The members of an object and the closing brace. -/
inductive JsonMembers : List (CStr × Json) → Bytes → Bytes → Prop where
  | last {key : CStr} {v : Json} {inp r rest : Bytes} : JsonMember key v inp r →
      Ws r (0x7D :: rest) → JsonMembers [(key, v)] inp rest
  | more {key : CStr} {v : Json} {ms : List (CStr × Json)} {inp r₁ r₂ r₃ rest : Bytes} :
      JsonMember key v inp r₁ → Ws r₁ (0x2C :: r₂) → Ws r₂ r₃ → JsonMembers ms r₃ rest →
      JsonMembers ((key, v) :: ms) inp rest

end

/-- The text denotes the value. -/
def Denotes (text : Bytes) (v : Json) : Prop :=
  ∃ inp rest, Ws text inp ∧ JsonValue v inp rest ∧ Ws rest []

/-! ## The texts of values -/

/-- The key of a member as it is formatted: an empty one is left out. -/
def keyText (indent : Option ℕ) (key : Bytes) : Bytes :=
  if key = [] then []
  else blobmsgFormatString key ++ (if indent.isSome then [0x3A, 0x20] else [0x3A])

/-- What stands before an element. -/
def commaText (indent : Option ℕ) (first : Bool) : Bytes :=
  if first then [] else [0x2C] ++ addSeparator indent

mutual

/-- The text of a value. -/
def jsonText (indent : Option ℕ) : Json → Bytes
  | .null => ascii "null"
  | .bool b => if b then ascii "true" else ascii "false"
  | .int i => Jansson.integerText i
  | .string s => blobmsgFormatString s.1
  | .array elems =>
    [0x5B] ++ addSeparator (indent.map (· + 1)) ++ elemsText (indent.map (· + 1)) true elems ++
      addSeparator indent ++ [0x5D]
  | .object members =>
    [0x7B] ++ addSeparator (indent.map (· + 1)) ++ membersText (indent.map (· + 1)) true members ++
      addSeparator indent ++ [0x7D]

def elemsText (indent : Option ℕ) : Bool → List Json → Bytes
  | _, [] => []
  | first, v :: vs => commaText indent first ++ jsonText indent v ++ elemsText indent false vs

def membersText (indent : Option ℕ) : Bool → List (CStr × Json) → Bytes
  | _, [] => []
  | first, (key, v) :: ms =>
    commaText indent first ++ (keyText indent key.1 ++ jsonText indent v) ++ membersText indent false ms

end

mutual

/-- No object in the value has an empty key. -/
def NoEmptyKey : Json → Prop
  | .array elems => NoEmptyKeyElems elems
  | .object members => NoEmptyKeyMembers members
  | .null | .bool _ | .int _ | .string _ => True

def NoEmptyKeyElems : List Json → Prop
  | [] => True
  | v :: vs => NoEmptyKey v ∧ NoEmptyKeyElems vs

def NoEmptyKeyMembers : List (CStr × Json) → Prop
  | [] => True
  | (key, v) :: ms => (key.1 ≠ [] ∧ NoEmptyKey v) ∧ NoEmptyKeyMembers ms

end

section
-- the equations of these definitions, which the lemmas below rewrite with
attribute [local simp] jsonText commaText keyText elemsText membersText isSpace
end

/-! ## Strings -/

/-- What a byte of a string becomes. -/
def escaped (p : UInt8) : Bytes := (escapeByte p).getD [p]

theorem formatChars_eq (run s : Bytes) : formatChars run s = run ++ s.flatMap escaped := by
  induction s generalizing run with
  | nil => simp [formatChars]
  | cons p s ih =>
    rw [formatChars, List.flatMap_cons, escaped]
    split
    · rename_i h
      rw [ih, h]
      simp
    · rename_i escape h
      rw [ih, h]
      simp

theorem formatString_append (s rest : Bytes) :
    blobmsgFormatString s ++ rest = 0x22 :: (s.flatMap escaped ++ 0x22 :: rest) := by
  simp [blobmsgFormatString, formatChars_eq]

/-- The kinds of escapes. -/
theorem escaped_cases (p : UInt8) :
    (0x20 ≤ p ∧ p ≠ 0x22 ∧ p ≠ 0x5C ∧ escaped p = [p]) ∨
    (∃ x, Escape x p ∧ x ≠ 0x75 ∧ escaped p = [0x5C, x]) ∨
    (p < 0x20 ∧ escaped p = [0x5C, 0x75, 0x30, 0x30] ++ hex2 p) := by
  unfold escaped escapeByte
  split_ifs with h₁ h₂ h₃ h₄ h₅ h₆
  · exact .inr (.inl ⟨_, h₁ ▸ .backspace, by decide, rfl⟩)
  · exact .inr (.inl ⟨_, h₂ ▸ .lineFeed, by decide, rfl⟩)
  · exact .inr (.inl ⟨_, h₃ ▸ .tab, by decide, rfl⟩)
  · exact .inr (.inl ⟨_, h₄ ▸ .carriageReturn, by decide, rfl⟩)
  · rcases h₅ with rfl | rfl
    · exact .inr (.inl ⟨_, .quote, by decide, rfl⟩)
    · exact .inr (.inl ⟨_, .backslash, by decide, rfl⟩)
  · exact .inr (.inr ⟨h₆, rfl⟩)
  · exact .inl ⟨UInt8.not_lt.1 h₆, fun h => h₅ (.inl h), fun h => h₅ (.inr h), rfl⟩

/-- The four digits of an escape, and the byte they stand for. -/
theorem hex2_spec {p : UInt8} (h : p < 0x20) :
    Hex4 (0x30 :: 0x30 :: hex2 p) p.toNat ∧ Jansson.encode p.toNat = [p] := by
  have hp : p.toNat < 32 := by simpa [UInt8.lt_iff_toNat_lt] using h
  have hdigit : ∀ m < 16, Jansson.isXdigit (Jansson.hexDigit false m) = true ∧
      Jansson.hexVal (Jansson.hexDigit false m) = m := by decide
  have hhi := hdigit (p.toNat / 16) (by omega)
  have hlo := hdigit (p.toNat % 16) (by omega)
  have hzero : Jansson.isXdigit 0x30 = true ∧ Jansson.hexVal 0x30 = 0 := by decide
  refine ⟨?_, Jansson.encode_ascii_byte (by omega)⟩
  have hfour := Hex4.intro hzero.1 hzero.1 hhi.1 hlo.1
  rw [hzero.2, hhi.2, hlo.2] at hfour
  have hval : ((0 * 16 + 0) * 16 + p.toNat / 16) * 16 + p.toNat % 16 = p.toNat := by omega
  rwa [hval] at hfour

/-- A formatted string is read back. -/
theorem chars_escaped (s rest : Bytes) : Chars s (s.flatMap escaped ++ 0x22 :: rest) rest := by
  induction s with
  | nil => exact .close
  | cons p s ih =>
    rw [List.flatMap_cons, List.append_assoc]
    rcases escaped_cases p with ⟨h20, hq, hb, he⟩ | ⟨x, hx, -, he⟩ | ⟨h20, he⟩
    · rw [he]
      exact .plain h20 hq hb ih
    · rw [he]
      exact .escape hx ih
    · obtain ⟨hhex, henc⟩ := hex2_spec h20
      have hp : p.toNat < 32 := by simpa [UInt8.lt_iff_toNat_lt] using h20
      have hchars := Chars.unicode hhex (.inl (by omega)) ih
      rw [henc] at hchars
      rw [he]
      exact hchars

/-! ## Texts without empty keys -/

theorem addSeparator_space (indent : Option ℕ) : ∀ c ∈ addSeparator indent, isSpace c = true := by
  intro c hc
  cases indent with
  | none => cases hc
  | some level =>
    rcases List.mem_cons.1 hc with rfl | hc
    · rfl
    · rw [(List.mem_replicate.1 hc).2]
      rfl

theorem ws_separator (indent : Option ℕ) (rest : Bytes) : Ws (addSeparator indent ++ rest) rest :=
  ⟨_, addSeparator_space indent, rfl⟩

theorem ws_blank (inner indent : Option ℕ) (rest : Bytes) :
    Ws (addSeparator inner ++ (addSeparator indent ++ rest)) rest :=
  ⟨addSeparator inner ++ addSeparator indent,
    List.forall_mem_append.2 ⟨addSeparator_space _, addSeparator_space _⟩, by simp⟩

/-- What stands between a key and its value. -/
theorem colon_eq (indent : Option ℕ) : ∃ ws, (∀ c ∈ ws, isSpace c = true) ∧
    (if indent.isSome then [0x3A, 0x20] else [0x3A] : Bytes) = 0x3A :: ws := by
  cases indent with
  | none => exact ⟨[], List.forall_mem_nil _, rfl⟩
  | some level => exact ⟨[0x20], by decide, rfl⟩

/-- A key that is not empty, and its value. -/
theorem keyText_member {inner : Option ℕ} {key : CStr} {v : Json} {text rest : Bytes}
    (hkey : key.1 ≠ []) (hv : JsonValue v text rest) :
    JsonMember key v (keyText inner key.1 ++ text) rest := by
  obtain ⟨ws, hws, hcolon⟩ := colon_eq inner
  rw [keyText, if_neg hkey, hcolon, List.append_assoc, formatString_append]
  exact .intro (chars_escaped key.1 _) (Jansson.ws_refl _) ⟨ws, hws, rfl⟩ hv

variable {ms : List (CStr × Json)}

section
variable {inner indent : Option ℕ}

/-- The text after an element that is not the last. -/
theorem elemsText_cons (v w : Json) (vs : List Json) (rest : Bytes) :
    elemsText inner true (v :: w :: vs) ++ rest =
      jsonText inner v ++ 0x2C :: (addSeparator inner ++ (elemsText inner true (w :: vs) ++ rest)) := by
  simp [elemsText, commaText]

theorem membersText_cons (key k : CStr) (v w : Json) (ms : List (CStr × Json)) (rest : Bytes) :
    membersText inner true ((key, v) :: (k, w) :: ms) ++ rest =
      keyText inner key.1 ++ (jsonText inner v ++ 0x2C :: (addSeparator inner ++
        (membersText inner true ((k, w) :: ms) ++ rest))) := by
  simp [membersText, commaText]

theorem elemsText_single (v : Json) (rest : Bytes) :
    elemsText inner true [v] ++ rest = jsonText inner v ++ rest := by
  simp [elemsText, commaText]

theorem membersText_single (key : CStr) (v : Json) (rest : Bytes) :
    membersText inner true [(key, v)] ++ rest = keyText inner key.1 ++ (jsonText inner v ++ rest) := by
  simp [membersText, commaText]

theorem jsonText_array (vs : List Json) (rest : Bytes) :
    jsonText indent (.array vs) ++ rest = 0x5B :: (addSeparator (indent.map (· + 1)) ++
      (elemsText (indent.map (· + 1)) true vs ++ (addSeparator indent ++ 0x5D :: rest))) := by
  simp [jsonText]

theorem jsonText_object (ms : List (CStr × Json)) (rest : Bytes) :
    jsonText indent (.object ms) ++ rest = 0x7B :: (addSeparator (indent.map (· + 1)) ++
      (membersText (indent.map (· + 1)) true ms ++ (addSeparator indent ++ 0x7D :: rest))) := by
  simp [jsonText]

theorem elemsText_elems {vs : List Json} {v : Json} {rest : Bytes}
    (ih : ∀ w ∈ v :: vs, ∀ rest, NoEmptyKey w → JsonValue w (jsonText inner w ++ rest) rest)
    (h : NoEmptyKeyElems (v :: vs)) :
    JsonElems (v :: vs) (elemsText inner true (v :: vs) ++ (addSeparator indent ++ 0x5D :: rest))
      rest := by
  induction vs generalizing v with
  | nil =>
    rw [elemsText_single]
    exact .last (ih v List.mem_cons_self _ h.1) (ws_separator _ _)
  | cons w vs ihvs =>
    rw [elemsText_cons]
    exact .more (ih v List.mem_cons_self _ h.1) (Jansson.ws_refl _) (ws_separator _ _)
      (ihvs (fun x hx => ih x (List.mem_cons_of_mem _ hx)) h.2)

theorem membersText_members {key : CStr} {v : Json} {rest : Bytes}
    (ih : ∀ m ∈ (key, v) :: ms, ∀ rest, NoEmptyKey m.2 →
      JsonValue m.2 (jsonText inner m.2 ++ rest) rest)
    (h : NoEmptyKeyMembers ((key, v) :: ms)) :
    JsonMembers ((key, v) :: ms)
      (membersText inner true ((key, v) :: ms) ++ (addSeparator indent ++ 0x7D :: rest)) rest := by
  induction ms generalizing key v with
  | nil =>
    rw [membersText_single]
    exact .last (keyText_member h.1.1 (ih _ List.mem_cons_self _ h.1.2)) (ws_separator _ _)
  | cons m ms ihms =>
    rw [membersText_cons]
    exact .more (keyText_member h.1.1 (ih _ List.mem_cons_self _ h.1.2)) (Jansson.ws_refl _)
      (ws_separator _ _) (ihms (fun x hx => ih x (List.mem_cons_of_mem _ hx)) h.2)

end

/-- The text of a value without empty keys denotes it. -/
theorem jsonText_value {indent : Option ℕ} {v : Json} {rest : Bytes} (h : NoEmptyKey v) :
    JsonValue v (jsonText indent v ++ rest) rest := by
  induction v using Json.induction generalizing indent rest with
  | null => exact .null
  | bool b =>
    cases b
    · exact .false
    · exact .true
  | int i =>
    obtain ⟨m, ds, htext, hm, hds, hval⟩ := Jansson.integerText_spec i
    rw [jsonText, htext]
    exact .int hm hds hval
  | string s =>
    rw [jsonText, formatString_append]
    exact .string (chars_escaped s.1 rest)
  | array vs ih =>
    rw [jsonText_array]
    cases vs with
    | nil => exact .emptyArray (ws_blank _ _ _)
    | cons v vs =>
      exact .array (ws_separator _ _) (elemsText_elems (fun w hw rest hw' => ih w hw hw') h)
  | object ms ih =>
    rw [jsonText_object]
    cases ms with
    | nil => exact .emptyObject (ws_blank _ _ _)
    | cons m ms =>
      exact .object (ws_separator _ _) (membersText_members (fun m hm rest hm' => ih m hm hm') h)

/-! ## Texts with empty keys

A text is read in one way only, so that the text of a value is read along the value. Where it
has an empty key, the reading gets stuck. -/

section
variable {v : Json} {inp r rest : Bytes}

/-- A formatted string is read up to its closing quote. -/
theorem chars_unique {s v : Bytes} (h : Chars v (s.flatMap escaped ++ 0x22 :: rest) r) : r = rest := by
  induction s generalizing v with
  | nil =>
    generalize hinp : ([] : Bytes).flatMap escaped ++ 0x22 :: rest = inp at h
    rw [List.flatMap_nil, List.nil_append] at hinp
    cases h with
    | close => exact (List.cons.inj hinp).2.symm
    | plain _ hq _ _ => exact absurd (List.cons.inj hinp).1.symm hq
    | escape _ _ => exact absurd (List.cons.inj hinp).1 (by decide)
    | unicode _ _ _ => exact absurd (List.cons.inj hinp).1 (by decide)
    | pair _ _ _ _ _ => exact absurd (List.cons.inj hinp).1 (by decide)
  | cons p s ih =>
    generalize hinp : (p :: s).flatMap escaped ++ 0x22 :: rest = inp at h
    rw [List.flatMap_cons, List.append_assoc] at hinp
    rcases escaped_cases p with ⟨h20, hq, hb, he⟩ | ⟨x, hx, h75, he⟩ | ⟨h20, he⟩
    · rw [he] at hinp
      cases h with
      | close => exact absurd (List.cons.inj hinp).1 hq
      | plain _ _ _ h =>
        rw [← (List.cons.inj hinp).2] at h
        exact ih h
      | escape _ _ => exact absurd (List.cons.inj hinp).1 hb
      | unicode _ _ _ => exact absurd (List.cons.inj hinp).1 hb
      | pair _ _ _ _ _ => exact absurd (List.cons.inj hinp).1 hb
    · rw [he] at hinp
      cases h with
      | close => exact absurd (List.cons.inj hinp).1 (by decide)
      | plain _ _ hc _ => exact absurd (List.cons.inj hinp).1.symm hc
      | escape _ h =>
        rw [← (List.cons.inj (List.cons.inj hinp).2).2] at h
        exact ih h
      | unicode _ _ _ => exact absurd (List.cons.inj (List.cons.inj hinp).2).1 h75
      | pair _ _ _ _ _ => exact absurd (List.cons.inj (List.cons.inj hinp).2).1 h75
    · rw [he] at hinp
      cases h with
      | close => exact absurd (List.cons.inj hinp).1 (by decide)
      | plain _ _ hc _ => exact absurd (List.cons.inj hinp).1.symm hc
      | escape hx _ =>
        rw [← (List.cons.inj (List.cons.inj hinp).2).1] at hx
        cases hx
      | unicode hhex _ h =>
        cases hhex with
        | intro _ _ _ _ =>
          simp only [hex2, List.cons_append, List.nil_append, List.cons.injEq, true_and] at hinp
          rw [← hinp.2.2.2.2] at h
          exact ih h
      | pair hhex _ hm _ _ =>
        cases hhex with
        | intro _ _ h₃ h₄ =>
          have hlt₃ := Jansson.hexVal_lt h₃
          have hlt₄ := Jansson.hexVal_lt h₄
          have hzero : Jansson.hexVal 0x30 = 0 := by decide
          simp only [hex2, List.cons_append, List.nil_append, List.cons.injEq, true_and] at hinp
          obtain ⟨rfl, rfl, -⟩ := hinp
          rw [hzero] at hm
          omega

/-- Where whitespace ends is determined by the text. -/
theorem ws_unique {X : Bytes} (h : Ws inp r) (hr : Stops isSpace r) (hX : Ws inp X)
    (hX' : Stops isSpace X) : r = X := by
  rw [← h.dropWhile hr, hX.dropWhile hX']

theorem stops_cons {p : UInt8 → Bool} {c : UInt8} (hc : p c = false) : Stops p (c :: rest) := by
  intro d hd
  obtain rfl := Option.some.inj hd
  exact hc

theorem isDigit_space {c : UInt8} (h : isSpace c = true) : isDigit c = false := by
  simp only [isSpace, Bool.or_eq_true, beq_iff_eq] at h
  rcases h with ((rfl | rfl) | rfl) | rfl <;> rfl

/-- A number does not go on behind whitespace, or before a byte that is not a digit. -/
theorem ws_stops {c : UInt8} (h : Ws r (c :: rest)) (hc : isDigit c = false) : Stops isDigit r := by
  obtain ⟨ws, hws, rfl⟩ := h
  cases ws with
  | nil => exact stops_cons hc
  | cons w ws => exact stops_cons (isDigit_space (hws w List.mem_cons_self))

/-- The first byte of a number. -/
theorem number_head {m ds : Bytes} (hm : Minus m) (hds : Jansson.Digits ds) :
    ∃ c X, m ++ ds ++ r = c :: X ∧ (c = 0x2D ∨ isDigit c = true) := by
  obtain ⟨hne, hall⟩ := hds
  cases ds with
  | nil => exact absurd rfl hne
  | cons d ds =>
    rcases hm with rfl | rfl
    · exact ⟨d, ds ++ r, rfl, .inr (hall d List.mem_cons_self)⟩
    · exact ⟨0x2D, d :: ds ++ r, rfl, .inl rfl⟩

/-- What a value looks like, by its first byte. -/
theorem JsonValue.inv {c : UInt8} (h : JsonValue v (c :: inp) r) :
    (c = 0x6E ∧ inp = [0x75, 0x6C, 0x6C] ++ r) ∨ (c = 0x74 ∧ inp = [0x72, 0x75, 0x65] ++ r) ∨
    (c = 0x66 ∧ inp = [0x61, 0x6C, 0x73, 0x65] ++ r) ∨
    ((c = 0x2D ∨ isDigit c = Bool.true) ∧ ∃ m ds, Minus m ∧ Jansson.Digits ds ∧ c :: inp = m ++ ds ++ r) ∨
    (c = 0x22 ∧ ∃ s, Chars s inp r) ∨
    (c = 0x5B ∧ (Ws inp (0x5D :: r) ∨ ∃ vs r', Ws inp r' ∧ JsonElems vs r' r)) ∨
    (c = 0x7B ∧ (Ws inp (0x7D :: r) ∨ ∃ ms r', Ws inp r' ∧ JsonMembers ms r' r)) := by
  generalize hinp : c :: inp = text at h
  cases h with
  | null => exact .inl (List.cons.inj hinp)
  | true => exact .inr (.inl (List.cons.inj hinp))
  | false => exact .inr (.inr (.inl (List.cons.inj hinp)))
  | int hm hds _ =>
    obtain ⟨d, X, hX, hd⟩ := @number_head r _ _ hm hds.digits
    rw [hX] at hinp ⊢
    exact .inr (.inr (.inr (.inl ⟨(List.cons.inj hinp).1 ▸ hd, _, _, hm, hds.digits, hX.symm⟩)))
  | string h =>
    obtain ⟨rfl, rfl⟩ := List.cons.inj hinp
    exact .inr (.inr (.inr (.inr (.inl ⟨rfl, _, h⟩))))
  | emptyArray h =>
    obtain ⟨rfl, rfl⟩ := List.cons.inj hinp
    exact .inr (.inr (.inr (.inr (.inr (.inl ⟨rfl, .inl h⟩)))))
  | array hw h =>
    obtain ⟨rfl, rfl⟩ := List.cons.inj hinp
    exact .inr (.inr (.inr (.inr (.inr (.inl ⟨rfl, .inr ⟨_, _, hw, h⟩⟩)))))
  | emptyObject h =>
    obtain ⟨rfl, rfl⟩ := List.cons.inj hinp
    exact .inr (.inr (.inr (.inr (.inr (.inr ⟨rfl, .inl h⟩)))))
  | object hw h =>
    obtain ⟨rfl, rfl⟩ := List.cons.inj hinp
    exact .inr (.inr (.inr (.inr (.inr (.inr ⟨rfl, .inr ⟨_, _, hw, h⟩⟩)))))

/-- A value does not begin with whitespace. -/
theorem JsonValue.stops (h : JsonValue v inp r) : Stops isSpace inp := by
  cases inp with
  | nil => exact fun c hc => absurd hc (by simp)
  | cons c inp =>
    refine stops_cons ?_
    rcases h.inv with ⟨rfl, -⟩ | ⟨rfl, -⟩ | ⟨rfl, -⟩ | ⟨hc, -⟩ | ⟨rfl, -⟩ | ⟨rfl, -⟩ | ⟨rfl, -⟩
    · rfl
    · rfl
    · rfl
    · rcases hc with rfl | hc
      · rfl
      · by_contra hsp
        simp only [isSpace, Bool.not_eq_false, Bool.or_eq_true, beq_iff_eq] at hsp
        rcases hsp with ((rfl | rfl) | rfl) | rfl <;> exact absurd hc (by decide)
    · rfl
    · rfl
    · rfl

theorem JsonElems.stops {vs : List Json} (h : JsonElems vs inp r) : Stops isSpace inp := by
  cases h with
  | last hv _ => exact hv.stops
  | more hv _ _ _ => exact hv.stops

theorem JsonMembers.stops (h : JsonMembers ms inp r) :
    Stops isSpace inp := by
  have hmember : ∀ {key v inp r}, JsonMember key v inp r → Stops isSpace inp := by
    intro key v inp r h
    cases h with
    | intro _ _ _ _ => exact stops_cons rfl
  cases h with
  | last hm _ => exact hmember hm
  | more hm _ _ _ => exact hmember hm

theorem JsonElems.not_close {vs : List Json} : ¬ JsonElems vs (0x5D :: inp) r := by
  have hvalue : ∀ {v r}, ¬ JsonValue v (0x5D :: inp) r := by
    intro v r h
    rcases h.inv with ⟨h, -⟩ | ⟨h, -⟩ | ⟨h, -⟩ | ⟨h | h, -⟩ | ⟨h, -⟩ | ⟨h, -⟩ | ⟨h, -⟩ <;>
      exact absurd h (by decide)
  intro h
  cases h with
  | last hv _ => exact hvalue hv
  | more hv _ _ _ => exact hvalue hv

theorem JsonMembers.not_close : ¬ JsonMembers ms (0x7D :: inp) r := by
  intro h
  cases h with
  | last hm _ => cases hm
  | more hm _ _ _ => cases hm

/-- The integer at the beginning of a text is the whole of it. -/
theorem number_unique {m ds m' ds' : Bytes} (hm : Minus m) (hds : Jansson.Digits ds) (hm' : Minus m')
    (hds' : Jansson.Digits ds') (hr : Stops isDigit r) (hrest : Stops isDigit rest)
    (h : m' ++ ds' ++ rest = m ++ ds ++ r) : r = rest := by
  have hcut : ∀ {ds r ds' rest : Bytes}, Jansson.Digits ds → Jansson.Digits ds' → Stops isDigit r →
      Stops isDigit rest → ds' ++ rest = ds ++ r → r = rest := by
    intro ds r ds' rest hds hds' hr hrest h
    rw [← (Jansson.takeWhile_append_stops hds.2 hr).2, ← h,
      (Jansson.takeWhile_append_stops hds'.2 hrest).2]
  have hdash : ∀ {ds : Bytes} {X Y : Bytes}, Jansson.Digits ds → 0x2D :: X ≠ ds ++ Y := by
    intro ds X Y hds heq
    obtain ⟨hne, hall⟩ := hds
    cases ds with
    | nil => exact hne rfl
    | cons d ds =>
      have hd := hall d List.mem_cons_self
      rw [← (List.cons.inj heq).1] at hd
      exact absurd hd (by decide)
  rw [List.append_assoc, List.append_assoc] at h
  rcases hm with rfl | rfl
  · rcases hm' with rfl | rfl
    · exact hcut hds hds' hr hrest h
    · exact absurd (show 0x2D :: (ds' ++ rest) = ds ++ r from h) (hdash hds)
  · rcases hm' with rfl | rfl
    · exact absurd (show 0x2D :: (ds ++ r) = ds' ++ rest from h.symm) (hdash hds')
    · exact hcut hds hds' hr hrest (List.cons.inj h).2

theorem isDigit_ne {c d : UInt8} (hc : c = 0x2D ∨ isDigit c = true) (hd : d ≠ 0x2D)
    (hd' : isDigit d = false) : c ≠ d := by
  rintro rfl
  rcases hc with rfl | hc
  · exact hd rfl
  · rw [hd'] at hc
    cases hc

/-- A word is read as a whole. -/
theorem jsonText_word {c : UInt8} {word : Bytes}
    (hword : c :: word = ascii "null" ∨ c :: word = ascii "true" ∨ c :: word = ascii "false")
    (h : JsonValue v (c :: word ++ rest) r) : r = rest := by
  have hne : c ≠ 0x2D ∧ isDigit c = false ∧ c ≠ 0x22 ∧ c ≠ 0x5B ∧ c ≠ 0x7B := by
    rcases hword with hw | hw | hw <;> obtain ⟨rfl, -⟩ := List.cons.inj hw <;> decide
  obtain ⟨hdash, hdigit, hq, hb, hc⟩ := hne
  have hcut : ∀ {w : Bytes}, c :: word = c :: w → word ++ rest = w ++ r → r = rest := by
    intro w hw h
    rw [(List.cons.inj hw).2] at h
    exact (List.append_cancel_left h).symm
  rcases h.inv with ⟨rfl, htail⟩ | ⟨rfl, htail⟩ | ⟨rfl, htail⟩ | ⟨hd, -⟩ | ⟨h, -⟩ | ⟨h, -⟩ | ⟨h, -⟩
  · refine hcut ?_ htail
    rcases hword with hw | hw | hw
    · exact hw
    · exact absurd (List.cons.inj hw).1 (by decide)
    · exact absurd (List.cons.inj hw).1 (by decide)
  · refine hcut ?_ htail
    rcases hword with hw | hw | hw
    · exact absurd (List.cons.inj hw).1 (by decide)
    · exact hw
    · exact absurd (List.cons.inj hw).1 (by decide)
  · refine hcut ?_ htail
    rcases hword with hw | hw | hw
    · exact absurd (List.cons.inj hw).1 (by decide)
    · exact absurd (List.cons.inj hw).1 (by decide)
    · exact hw
  · exact absurd rfl (isDigit_ne hd hdash hdigit)
  · exact absurd h hq
  · exact absurd h hb
  · exact absurd h hc

/-- A text that begins with a quote is a string. -/
theorem JsonValue.quote (h : JsonValue v (0x22 :: inp) r) : ∃ s, Chars s inp r := by
  rcases h.inv with ⟨h, -⟩ | ⟨h, -⟩ | ⟨h, -⟩ | ⟨h, -⟩ | ⟨-, h⟩ | ⟨h, -⟩ | ⟨h, -⟩
  · exact absurd h (by decide)
  · exact absurd h (by decide)
  · exact absurd h (by decide)
  · exact absurd rfl (isDigit_ne h (by decide) rfl)
  · exact h
  · exact absurd h (by decide)
  · exact absurd h (by decide)

theorem JsonValue.bracket (h : JsonValue v (0x5B :: inp) r) :
    Ws inp (0x5D :: r) ∨ ∃ vs r', Ws inp r' ∧ JsonElems vs r' r := by
  rcases h.inv with ⟨h, -⟩ | ⟨h, -⟩ | ⟨h, -⟩ | ⟨h, -⟩ | ⟨h, -⟩ | ⟨-, h⟩ | ⟨h, -⟩
  · exact absurd h (by decide)
  · exact absurd h (by decide)
  · exact absurd h (by decide)
  · exact absurd rfl (isDigit_ne h (by decide) rfl)
  · exact absurd h (by decide)
  · exact h
  · exact absurd h (by decide)

theorem JsonValue.brace (h : JsonValue v (0x7B :: inp) r) :
    Ws inp (0x7D :: r) ∨ ∃ ms r', Ws inp r' ∧ JsonMembers ms r' r := by
  rcases h.inv with ⟨h, -⟩ | ⟨h, -⟩ | ⟨h, -⟩ | ⟨h, -⟩ | ⟨h, -⟩ | ⟨h, -⟩ | ⟨-, h⟩
  · exact absurd h (by decide)
  · exact absurd h (by decide)
  · exact absurd h (by decide)
  · exact absurd rfl (isDigit_ne h (by decide) rfl)
  · exact absurd h (by decide)
  · exact absurd h (by decide)
  · exact h

theorem JsonValue.number {m ds : Bytes} (h : JsonValue v (m ++ ds ++ rest) r) (hm : Minus m)
    (hds : Jansson.Digits ds) (hr : Stops isDigit r) (hrest : Stops isDigit rest) : r = rest := by
  obtain ⟨c, X, hX, hc⟩ := @number_head rest _ _ hm hds
  have hne : ∀ d, d ≠ 0x2D → isDigit d = Bool.false → c ≠ d := fun d => isDigit_ne hc
  rw [hX] at h
  rcases h.inv with ⟨h, -⟩ | ⟨h, -⟩ | ⟨h, -⟩ | ⟨-, m', ds', hm', hds', h⟩ | ⟨h, -⟩ | ⟨h, -⟩ | ⟨h, -⟩
  · exact absurd h (hne _ (by decide) rfl)
  · exact absurd h (hne _ (by decide) rfl)
  · exact absurd h (hne _ (by decide) rfl)
  · rw [← hX] at h
    exact number_unique hm' hds' hm hds hr hrest h
  · exact absurd h (hne _ (by decide) rfl)
  · exact absurd h (hne _ (by decide) rfl)
  · exact absurd h (hne _ (by decide) rfl)

variable {inner indent : Option ℕ}

/-- The text of a value is read in one way, and has no empty keys if it is read at all. -/
def ReadsAlong (j : Json) : Prop :=
  ∀ {indent : Option ℕ} {v : Json} {r rest : Bytes}, JsonValue v (jsonText indent j ++ rest) r →
    Stops isDigit r → Stops isDigit rest → NoEmptyKey j ∧ r = rest

/-- The text of a value begins with a byte that is neither whitespace nor closes a list. -/
theorem jsonText_head (indent : Option ℕ) (j : Json) (rest : Bytes) :
    ∃ c X, jsonText indent j ++ rest = c :: X ∧ isSpace c = false ∧ c ≠ 0x5D ∧ c ≠ 0x7D ∧
      (c = 0x22 → ∃ s, j = .string s) := by
  cases j with
  | null =>
    exact ⟨0x6E, _, rfl, rfl, by decide, by decide, fun h => absurd h (by decide)⟩
  | bool b =>
    cases b
    · exact ⟨0x66, _, rfl, rfl, by decide, by decide, fun h => absurd h (by decide)⟩
    · exact ⟨0x74, _, rfl, rfl, by decide, by decide, fun h => absurd h (by decide)⟩
  | int i =>
    obtain ⟨m, ds, htext, hm, hds, -⟩ := Jansson.integerText_spec i
    obtain ⟨c, X, hX, hc⟩ := @number_head rest m ds hm hds.digits
    refine ⟨c, X, by rw [jsonText, htext, hX], ?_, isDigit_ne hc (by decide) rfl,
      isDigit_ne hc (by decide) rfl, fun h => absurd h (isDigit_ne hc (by decide) rfl)⟩
    by_contra hsp
    simp only [isSpace, Bool.not_eq_false, Bool.or_eq_true, beq_iff_eq] at hsp
    rcases hsp with ((rfl | rfl) | rfl) | rfl <;> exact absurd rfl (isDigit_ne hc (by decide) rfl)
  | string s =>
    exact ⟨0x22, _, by rw [jsonText, formatString_append], rfl, by decide, by decide, fun _ => ⟨s, rfl⟩⟩
  | array vs =>
    exact ⟨0x5B, _, jsonText_array vs rest, rfl, by decide, by decide, fun h => absurd h (by decide)⟩
  | object ms =>
    exact ⟨0x7B, _, jsonText_object ms rest, rfl, by decide, by decide, fun h => absurd h (by decide)⟩

theorem elemsText_head (j : Json) (js : List Json) (rest : Bytes) :
    ∃ c X, elemsText inner true (j :: js) ++ rest = c :: X ∧ isSpace c = false ∧ c ≠ 0x5D := by
  obtain ⟨c, X, hX, hc, h5D, -⟩ := jsonText_head inner j (elemsText inner false js ++ rest)
  refine ⟨c, X, ?_, hc, h5D⟩
  rw [elemsText, commaText, if_pos rfl, List.nil_append, List.append_assoc, hX]

theorem membersText_head (key : CStr) (j : Json) (js : List (CStr × Json)) (rest : Bytes) :
    ∃ c X, membersText inner true ((key, j) :: js) ++ rest = c :: X ∧ isSpace c = false ∧
      c ≠ 0x7D := by
  rw [membersText, commaText, if_pos rfl, List.nil_append, List.append_assoc, List.append_assoc,
    keyText]
  by_cases hkey : key.1 = []
  · obtain ⟨c, X, hX, hc, -, h7D, -⟩ := jsonText_head inner j (membersText inner false js ++ rest)
    exact ⟨c, X, by rw [if_pos hkey, List.nil_append, hX], hc, h7D⟩
  · rw [if_neg hkey, List.append_assoc, formatString_append]
    exact ⟨0x22, _, rfl, rfl, by decide⟩

theorem elemsText_stops (j : Json) (js : List Json) (rest : Bytes) :
    Stops isSpace (elemsText inner true (j :: js) ++ rest) := by
  obtain ⟨c, X, hX, hc, -⟩ := @elemsText_head inner j js rest
  rw [hX]
  exact stops_cons hc

theorem membersText_stops (key : CStr) (j : Json) (js : List (CStr × Json)) (rest : Bytes) :
    Stops isSpace (membersText inner true ((key, j) :: js) ++ rest) := by
  obtain ⟨c, X, hX, hc, -⟩ := @membersText_head inner key j js rest
  rw [hX]
  exact stops_cons hc

/-- After an element comes a comma or the closing bracket. -/
theorem elemsText_unique {j : Json} {js vs : List Json} (ih : ∀ w ∈ j :: js, ReadsAlong w)
    (h : JsonElems vs (elemsText inner true (j :: js) ++ (addSeparator indent ++ 0x5D :: rest)) r) :
    NoEmptyKeyElems (j :: js) ∧ r = rest := by
  induction js generalizing j vs with
  | nil =>
    rw [elemsText_single] at h
    have hclose : Ws (addSeparator indent ++ 0x5D :: rest) (0x5D :: rest) := ws_separator _ _
    cases h with
    | last hv hw =>
      obtain ⟨hj, rfl⟩ := ih j List.mem_cons_self hv (ws_stops hw rfl) (ws_stops hclose rfl)
      have heq := ws_unique hw (stops_cons rfl) hclose (stops_cons rfl)
      exact ⟨⟨hj, trivial⟩, (List.cons.inj heq).2⟩
    | more hv hw _ _ =>
      obtain ⟨-, rfl⟩ := ih j List.mem_cons_self hv (ws_stops hw rfl) (ws_stops hclose rfl)
      have heq := ws_unique hw (stops_cons rfl) hclose (stops_cons rfl)
      exact absurd (List.cons.inj heq).1 (by decide)
  | cons w js ihjs =>
    rw [elemsText_cons] at h
    cases h with
    | last hv hw =>
      obtain ⟨-, rfl⟩ := ih j List.mem_cons_self hv (ws_stops hw rfl) (stops_cons rfl)
      have heq := ws_unique hw (stops_cons rfl) (Jansson.ws_refl _) (stops_cons rfl)
      exact absurd (List.cons.inj heq).1 (by decide)
    | more hv hw hw₂ hvs =>
      obtain ⟨hj, rfl⟩ := ih j List.mem_cons_self hv (ws_stops hw rfl) (stops_cons rfl)
      have heq := ws_unique hw (stops_cons rfl) (Jansson.ws_refl _) (stops_cons rfl)
      rw [(List.cons.inj heq).2] at hw₂
      rw [ws_unique hw₂ hvs.stops (ws_separator _ _) (elemsText_stops _ _ _)] at hvs
      obtain ⟨hjs, hr⟩ := ihjs (fun x hx => ih x (List.mem_cons_of_mem _ hx)) hvs
      exact ⟨⟨hj, hjs⟩, hr⟩

/-- A member is read as its key and its value; without a key there is no colon. -/
theorem member_unique {j : Json} {k key : CStr} {T : Bytes} {close : UInt8} (ih : ReadsAlong j)
    (h : JsonMember k v (keyText inner key.1 ++ (jsonText inner j ++ T)) r) (hr : Stops isDigit r)
    (hT : Ws T (close :: rest)) (hclose : close = 0x2C ∨ close = 0x7D) :
    (key.1 ≠ [] ∧ NoEmptyKey j) ∧ r = T := by
  have hstop : isSpace close = false ∧ isDigit close = false ∧ close ≠ 0x3A := by
    rcases hclose with rfl | rfl <;> decide
  by_cases hkey : key.1 = []
  · exfalso
    rw [keyText, if_pos hkey, List.nil_append] at h
    obtain ⟨c, X, hX, -, -, -, hq⟩ := jsonText_head inner j T
    generalize hinp : jsonText inner j ++ T = text at h hX
    cases h with
    | intro hchars hw _ _ =>
      obtain ⟨s, rfl⟩ := hq (List.cons.inj hX).1.symm
      rw [jsonText, formatString_append] at hinp
      rw [← (List.cons.inj hinp).2] at hchars
      rw [chars_unique hchars] at hw
      have heq := ws_unique hw (stops_cons rfl) hT (stops_cons hstop.1)
      exact hstop.2.2 (List.cons.inj heq).1.symm
  · obtain ⟨ws, hws, hcolon⟩ := colon_eq inner
    rw [keyText, if_neg hkey, hcolon, List.append_assoc, formatString_append, List.cons_append] at h
    cases h with
    | intro hchars hw₁ hw₂ hv =>
      rw [chars_unique hchars] at hw₁
      have heq := ws_unique hw₁ (stops_cons rfl) (Jansson.ws_refl _) (stops_cons rfl)
      rw [(List.cons.inj heq).2] at hw₂
      obtain ⟨c, X, hX, hc, -⟩ := jsonText_head inner j T
      have hstart : Stops isSpace (jsonText inner j ++ T) := by
        rw [hX]
        exact stops_cons hc
      rw [ws_unique hw₂ hv.stops ⟨ws, hws, rfl⟩ hstart] at hv
      obtain ⟨hj, hrT⟩ := ih hv hr (ws_stops hT hstop.2.1)
      exact ⟨⟨hkey, hj⟩, hrT⟩

/-- After a member comes a comma or the closing brace. -/
theorem membersText_unique {key : CStr} {j : Json} {js vs : List (CStr × Json)}
    (ih : ∀ m ∈ (key, j) :: js, ReadsAlong m.2)
    (h : JsonMembers vs (membersText inner true ((key, j) :: js) ++ (addSeparator indent ++ 0x7D :: rest))
      r) : NoEmptyKeyMembers ((key, j) :: js) ∧ r = rest := by
  induction js generalizing key j vs with
  | nil =>
    rw [membersText_single] at h
    have hclose : Ws (addSeparator indent ++ 0x7D :: rest) (0x7D :: rest) := ws_separator _ _
    cases h with
    | last hm hw =>
      obtain ⟨hj, rfl⟩ :=
        member_unique (ih _ List.mem_cons_self) hm (ws_stops hw rfl) hclose (.inr rfl)
      have heq := ws_unique hw (stops_cons rfl) hclose (stops_cons rfl)
      exact ⟨⟨hj, trivial⟩, (List.cons.inj heq).2⟩
    | more hm hw _ _ =>
      obtain ⟨-, rfl⟩ :=
        member_unique (ih _ List.mem_cons_self) hm (ws_stops hw rfl) hclose (.inr rfl)
      have heq := ws_unique hw (stops_cons rfl) hclose (stops_cons rfl)
      exact absurd (List.cons.inj heq).1 (by decide)
  | cons m js ihjs =>
    obtain ⟨k, w⟩ := m
    rw [membersText_cons] at h
    cases h with
    | last hm hw =>
      obtain ⟨-, rfl⟩ := member_unique (ih _ List.mem_cons_self) hm (ws_stops hw rfl)
        (Jansson.ws_refl _) (.inl rfl)
      have heq := ws_unique hw (stops_cons rfl) (Jansson.ws_refl _) (stops_cons rfl)
      exact absurd (List.cons.inj heq).1 (by decide)
    | more hm hw hw₂ hms =>
      obtain ⟨hj, rfl⟩ := member_unique (ih _ List.mem_cons_self) hm (ws_stops hw rfl)
        (Jansson.ws_refl _) (.inl rfl)
      have heq := ws_unique hw (stops_cons rfl) (Jansson.ws_refl _) (stops_cons rfl)
      rw [(List.cons.inj heq).2] at hw₂
      rw [ws_unique hw₂ hms.stops (ws_separator _ _) (membersText_stops _ _ _ _)] at hms
      obtain ⟨hjs, hr⟩ := ihjs (fun x hx => ih x (List.mem_cons_of_mem _ hx)) hms
      exact ⟨⟨hj, hjs⟩, hr⟩

/-- **The text of a value can only be read if no object in it has an empty key.** -/
theorem jsonText_unique (j : Json) : ReadsAlong j := by
  induction j using Json.induction with
  | null => exact fun h _ _ => ⟨trivial, jsonText_word (.inl rfl) h⟩
  | bool b =>
    cases b
    · exact fun h _ _ => ⟨trivial, jsonText_word (.inr (.inr rfl)) h⟩
    · exact fun h _ _ => ⟨trivial, jsonText_word (.inr (.inl rfl)) h⟩
  | int i =>
    intro indent v r rest h hr hrest
    obtain ⟨m, ds, htext, hm, hds, -⟩ := Jansson.integerText_spec i
    rw [jsonText, htext] at h
    exact ⟨trivial, h.number hm hds.digits hr hrest⟩
  | string s =>
    intro indent v r rest h _ _
    rw [jsonText, formatString_append] at h
    obtain ⟨s', hs'⟩ := h.quote
    exact ⟨trivial, chars_unique hs'⟩
  | array vs ih =>
    intro indent v r rest h _ _
    rw [jsonText_array] at h
    cases vs with
    | nil =>
      have hclose := ws_blank (indent.map (· + 1)) indent (0x5D :: rest)
      rcases h.bracket with hw | ⟨vs', r', hw, helems⟩
      · have heq := ws_unique hw (stops_cons rfl) hclose (stops_cons rfl)
        exact ⟨trivial, (List.cons.inj heq).2⟩
      · rw [ws_unique hw helems.stops hclose (stops_cons rfl)] at helems
        exact absurd helems JsonElems.not_close
    | cons j js =>
      have hstart := ws_separator (indent.map (· + 1))
        (elemsText (indent.map (· + 1)) true (j :: js) ++ (addSeparator indent ++ 0x5D :: rest))
      rcases h.bracket with hw | ⟨vs', r', hw, helems⟩
      · have heq := ws_unique hw (stops_cons rfl) hstart (elemsText_stops _ _ _)
        obtain ⟨c, X, hX, -, hc⟩ := @elemsText_head (indent.map (· + 1)) j js
          (addSeparator indent ++ 0x5D :: rest)
        rw [hX] at heq
        exact absurd (List.cons.inj heq).1.symm hc
      · rw [ws_unique hw helems.stops hstart (elemsText_stops _ _ _)] at helems
        exact elemsText_unique ih helems
  | object ms ih =>
    intro indent v r rest h _ _
    rw [jsonText_object] at h
    cases ms with
    | nil =>
      have hclose := ws_blank (indent.map (· + 1)) indent (0x7D :: rest)
      rcases h.brace with hw | ⟨ms', r', hw, hmembers⟩
      · have heq := ws_unique hw (stops_cons rfl) hclose (stops_cons rfl)
        exact ⟨trivial, (List.cons.inj heq).2⟩
      · rw [ws_unique hw hmembers.stops hclose (stops_cons rfl)] at hmembers
        exact absurd hmembers JsonMembers.not_close
    | cons m ms =>
      obtain ⟨key, j⟩ := m
      have hstart := ws_separator (indent.map (· + 1))
        (membersText (indent.map (· + 1)) true ((key, j) :: ms) ++ (addSeparator indent ++ 0x7D :: rest))
      rcases h.brace with hw | ⟨ms', r', hw, hmembers⟩
      · have heq := ws_unique hw (stops_cons rfl) hstart (membersText_stops _ _ _ _)
        obtain ⟨c, X, hX, -, hc⟩ := @membersText_head (indent.map (· + 1)) key j ms
          (addSeparator indent ++ 0x7D :: rest)
        rw [hX] at heq
        exact absurd (List.cons.inj heq).1.symm hc
      · rw [ws_unique hw hmembers.stops hstart (membersText_stops _ _ _ _)] at hmembers
        exact membersText_unique ih hmembers

end

/-- **The text of a value denotes it exactly if no object in it has an empty key.** -/
theorem denotes_jsonText_iff (indent : Option ℕ) (v : Json) :
    Denotes (jsonText indent v) v ↔ NoEmptyKey v := by
  constructor
  · rintro ⟨inp, rest, hw, hv, hrest⟩
    obtain ⟨c, X, hX, hc, -⟩ := jsonText_head indent v []
    rw [List.append_nil] at hX
    have hstop : Stops isSpace (jsonText indent v) := by
      rw [hX]
      exact stops_cons hc
    rw [ws_unique hw hv.stops (Jansson.ws_refl _) hstop, ← List.append_nil (jsonText indent v)] at hv
    have hdigit : Stops isDigit rest := by
      obtain ⟨ws, hws, rfl⟩ := hrest
      cases ws with
      | nil => exact fun c hc => absurd hc (by simp)
      | cons w ws => exact stops_cons (isDigit_space (hws w List.mem_cons_self))
    exact (jsonText_unique v hv hdigit fun c hc => absurd hc (by simp)).1
  · intro h
    have hv := @jsonText_value indent v [] h
    rw [List.append_nil] at hv
    exact ⟨_, [], Jansson.ws_refl _, hv, Jansson.ws_refl _⟩

end Blobmsg
