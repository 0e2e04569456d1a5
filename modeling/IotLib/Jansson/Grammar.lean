/-
  The grammar of JSON texts (RFC 8259), with the value that a text denotes.

  A rule relates what it denotes, the text at its beginning and the text after it.
  `Value n` are the values of nesting at most `n`.
-/
import IotLib.Jansson.Load

namespace Jansson

/-! ## Whitespace and strings -/

/-- Spaces, tabs, line feeds and carriage returns. -/
def Ws (inp rest : Bytes) : Prop := ∃ ws, (∀ c ∈ ws, isSpace c = true) ∧ inp = ws ++ rest

/-- The escapes of one character, and what they denote. -/
inductive Escape : UInt8 → UInt8 → Prop where
  | quote : Escape 0x22 0x22
  | backslash : Escape 0x5C 0x5C
  | slash : Escape 0x2F 0x2F
  | backspace : Escape 0x62 0x08
  | formFeed : Escape 0x66 0x0C
  | lineFeed : Escape 0x6E 0x0A
  | carriageReturn : Escape 0x72 0x0D
  | tab : Escape 0x74 0x09

/-- The value of a hexadecimal digit. -/
def hexVal (c : UInt8) : Nat :=
  if isDigit c then c.toNat - 0x30 else if isLower c then c.toNat - 0x57 else c.toNat - 0x37

/-- Four hexadecimal digits with the value `n`. -/
inductive Hex4 : Bytes → Nat → Prop where
  | intro {h₁ h₂ h₃ h₄ : UInt8} : isXdigit h₁ = true → isXdigit h₂ = true → isXdigit h₃ = true →
      isXdigit h₄ = true →
      Hex4 [h₁, h₂, h₃, h₄] (((hexVal h₁ * 16 + hexVal h₂) * 16 + hexVal h₃) * 16 + hexVal h₄)

/-- The rest of a string after the opening quote: characters in UTF-8, and escapes. The escapes of
    two surrogates denote one character, and there are no others of surrogates. -/
inductive Chars : Bytes → Bytes → Bytes → Prop where
  | close {rest : Bytes} : Chars [] (0x22 :: rest) rest
  | plain {c : Nat} {v inp rest : Bytes} : IsScalar c → 0x20 ≤ c → c ≠ 0x22 → c ≠ 0x5C →
      Chars v inp rest → Chars (encode c ++ v) (encode c ++ inp) rest
  | escape {x b : UInt8} {v inp rest : Bytes} : Escape x b → Chars v inp rest →
      Chars (b :: v) (0x5C :: x :: inp) rest
  | unicode {n : Nat} {hs v inp rest : Bytes} : Hex4 hs n → IsScalar n → Chars v inp rest →
      Chars (encode n ++ v) (0x5C :: 0x75 :: (hs ++ inp)) rest
  | pair {m n : Nat} {hs gs v inp rest : Bytes} : Hex4 hs m → Hex4 gs n →
      0xD800 ≤ m ∧ m ≤ 0xDBFF → 0xDC00 ≤ n ∧ n ≤ 0xDFFF → Chars v inp rest →
      Chars (encode (0x10000 + (m - 0xD800) * 1024 + (n - 0xDC00)) ++ v)
        (0x5C :: 0x75 :: (hs ++ 0x5C :: 0x75 :: (gs ++ inp))) rest

/-! ## Numbers -/

/-- One digit or more. -/
def Digits (ds : Bytes) : Prop := ds ≠ [] ∧ ∀ d ∈ ds, isDigit d = true

def Minus (m : Bytes) : Prop := m = [] ∨ m = [0x2D]

/-- 0, or digits that do not begin with 0. -/
def IntText (ds : Bytes) : Prop := ds = [0x30] ∨ Digits ds ∧ ds.head? ≠ some 0x30

def Frac (fs : Bytes) : Prop := fs = [] ∨ ∃ ds, fs = 0x2E :: ds ∧ Digits ds

def Expo (xs : Bytes) : Prop :=
  xs = [] ∨ ∃ x s ds, (x = 0x45 ∨ x = 0x65) ∧ (s = [] ∨ s = [0x2B] ∨ s = [0x2D]) ∧ Digits ds ∧
    xs = x :: (s ++ ds)

/-! ## Values -/

section
variable {R : Type}

/-- An object with the given bindings: the last binding of a key wins. -/
def bindings (ms : List (Bytes × Json R)) : List (Bytes × Json R) :=
  ms.foldl (fun object m => objectSet m.1 m.2 object) []

variable (V : Json R → Bytes → Bytes → Prop) (nulKeys : Bool)

/-- The elements of an array and the closing bracket. -/
inductive Elems : List (Json R) → Bytes → Bytes → Prop where
  | last {v : Json R} {inp r rest : Bytes} : V v inp r → Ws r (0x5D :: rest) → Elems [v] inp rest
  | more {v : Json R} {vs : List (Json R)} {inp r₁ r₂ r₃ rest : Bytes} : V v inp r₁ →
      Ws r₁ (0x2C :: r₂) → Ws r₂ r₃ → Elems vs r₃ rest → Elems (v :: vs) inp rest

/-- A key, a colon, and a value. A key has no 0 unless `nulKeys`. -/
inductive Member : Bytes → Json R → Bytes → Bytes → Prop where
  | intro {key : Bytes} {v : Json R} {inp r₁ r₂ r₃ rest : Bytes} : Chars key inp r₁ →
      (nulKeys = true ∨ 0 ∉ key) → Ws r₁ (0x3A :: r₂) → Ws r₂ r₃ → V v r₃ rest →
      Member key v (0x22 :: inp) rest

/-- The members of an object and the closing brace. -/
inductive Members : List (Bytes × Json R) → Bytes → Bytes → Prop where
  | last {key : Bytes} {v : Json R} {inp r rest : Bytes} : Member V nulKeys key v inp r →
      Ws r (0x7D :: rest) → Members [(key, v)] inp rest
  | more {key : Bytes} {v : Json R} {ms : List (Bytes × Json R)} {inp r₁ r₂ r₃ rest : Bytes} :
      Member V nulKeys key v inp r₁ → Ws r₁ (0x2C :: r₂) → Ws r₂ r₃ → Members ms r₃ rest →
      Members ((key, v) :: ms) inp rest

variable (strtod : Bytes → Option R) (flags : LoadFlags)

/-- A value whose elements or members are in `V`. -/
inductive Rule : Json R → Bytes → Bytes → Prop where
  | true {rest : Bytes} : Rule .true (ascii "true" ++ rest) rest
  | false {rest : Bytes} : Rule .false (ascii "false" ++ rest) rest
  | null {rest : Bytes} : Rule .null (ascii "null" ++ rest) rest
  | string {v inp rest : Bytes} : Chars v inp rest → (flags.allowNul = true ∨ 0 ∉ v) →
      Rule (.string v) (0x22 :: inp) rest
  | integer {i : Int64} {m ds rest : Bytes} : flags.decodeIntAsReal = false → Minus m →
      IntText ds → i.toInt = intVal (m ++ ds) → Rule (.integer i) (m ++ ds ++ rest) rest
  | real {r : R} {m ds fs xs rest : Bytes} : flags.decodeIntAsReal = true ∨ fs ++ xs ≠ [] →
      Minus m → IntText ds → Frac fs → Expo xs → strtod (m ++ ds ++ fs ++ xs) = some r →
      Rule (.real r) (m ++ ds ++ fs ++ xs ++ rest) rest
  | emptyArray {inp rest : Bytes} : Ws inp (0x5D :: rest) → Rule (.array []) (0x5B :: inp) rest
  | array {vs : List (Json R)} {inp r rest : Bytes} : Ws inp r → Elems V vs r rest →
      Rule (.array vs) (0x5B :: inp) rest
  | emptyObject {inp rest : Bytes} : Ws inp (0x7D :: rest) → Rule (.object []) (0x7B :: inp) rest
  | object {ms : List (Bytes × Json R)} {inp r rest : Bytes} : Ws inp r → Members V nulKeys ms r rest →
      (flags.rejectDuplicates = true → (ms.map Prod.fst).Nodup) →
      Rule (.object (bindings ms)) (0x7B :: inp) rest

/-- A value of nesting at most `n`. -/
def Value : Nat → Json R → Bytes → Bytes → Prop
  | 0 => fun _ _ _ => False
  | n + 1 => Rule (Value n) nulKeys strtod flags

def Json.IsContainer : Json R → Prop
  | .array _ | .object _ => True
  | _ => False

/-- A JSON text that denotes `v`; keys have no 0. -/
def JsonText (v : Json R) (text : Bytes) : Prop :=
  (flags.decodeAny = true ∨ v.IsContainer) ∧
    ∃ inp rest, Ws text inp ∧ Value Bool.false strtod flags jsonParserMaxDepth v inp rest ∧ Ws rest []

end

end Jansson
