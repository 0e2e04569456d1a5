/-
  The decoder of jansson (`load.c`): the stream of bytes with its buffer of one character, the
  lexical analyzer, and the parser.

  The functions take a lexer state and return it changed, as the source changes `lex_t`. Loops over
  the input take at most `steps` rounds, which is more than the input has bytes. The parser recurses
  on the depth that is left of `JSON_PARSER_MAX_DEPTH`.
-/
import IotLib.Jansson.Value

namespace Jansson

/-! ## Streams -/

/-- `get_func`: a byte or `EOF`, and what the source is then. -/
abbrev GetFunc (δ : Type) := δ → Option UInt8 × δ

/-- `string_get`; the string ends at the first 0. -/
def stringGet : GetFunc Bytes
  | [] => (none, [])
  | c :: data => if c = 0 then (none, c :: data) else (some c, data)

/-- `buffer_get` -/
def bufferGet : GetFunc Bytes
  | [] => (none, [])
  | c :: data => (some c, data)

inductive StreamState where
  | ok
  | eof
  | error
deriving DecidableEq, Repr

/-- `stream_t`; the bytes of `buffer` are followed by 0. -/
structure Stream (δ : Type) where
  data : δ
  buffer : Bytes := []
  bufferPos : Nat := 0
  state : StreamState := .ok
  line : Int := 1
  column : Int := 0
  lastColumn : Int := 0
  position : Nat := 0
deriving Repr

/-- What `stream_get` returns. -/
inductive Got where
  | byte (c : UInt8)
  | eof
  | error
deriving DecidableEq, Repr

/-- The rest of a character of several bytes; `EOF` is stored as 0xFF. -/
def getMore {δ : Type} (get : GetFunc δ) : Nat → δ → Bytes × δ
  | 0, data => ([], data)
  | n + 1, data =>
    match get data with
    | (none, data) => let (bs, data) := getMore get n data; (0xFF :: bs, data)
    | (some c, data) => let (bs, data) := getMore get n data; (c :: bs, data)

/-- The next byte of the buffer. -/
def Stream.next {δ : Type} (s : Stream δ) : Got × Stream δ :=
  let c := s.buffer.getD s.bufferPos 0
  let s := { s with bufferPos := s.bufferPos + 1, position := s.position + 1 }
  if c = 0x0A then (.byte c, { s with line := s.line + 1, lastColumn := s.column, column := 0 })
  else if utf8CheckFirst c ≠ 0 then (.byte c, { s with column := s.column + 1 })
  else (.byte c, s)

/-- `stream_get` -/
def streamGet {δ : Type} (get : GetFunc δ) (s : Stream δ) : Got × Stream δ :=
  match s.state with
  | .eof => (.eof, s)
  | .error => (.error, s)
  | .ok =>
    if s.buffer.getD s.bufferPos 0 = 0 then
      match get s.data with
      | (none, data) => (.eof, { s with data := data, state := .eof })
      | (some c, data) =>
        if c.toNat < 0x80 then { s with data := data, buffer := [c], bufferPos := 0 }.next
        else if utf8CheckFirst c = 0 then
          (.error, { s with data := data, buffer := [c], bufferPos := 0, state := .error })
        else
          let (bs, data) := getMore get (utf8CheckFirst c - 1) data
          let s := { s with data := data, buffer := c :: bs, bufferPos := 0 }
          if utf8CheckFull (c :: bs) = none then (.error, { s with state := .error })
          else s.next
    else s.next

/-- `stream_unget` -/
def streamUnget {δ : Type} (s : Stream δ) : Got → Stream δ
  | .eof | .error => s
  | .byte c =>
    let s := { s with bufferPos := s.bufferPos - 1, position := s.position - 1 }
    if c = 0x0A then { s with line := s.line - 1, column := s.lastColumn }
    else if utf8CheckFirst c ≠ 0 then { s with column := s.column - 1 }
    else s

/-! ## Errors -/

/-- The codes that the decoder uses, of `enum json_error_code`. -/
inductive ErrorCode where
  | stackOverflow | invalidUtf8 | prematureEndOfInput | endOfInputExpected | invalidSyntax
  | nullCharacter | nullByteInKey | duplicateKey | numericOverflow
deriving DecidableEq, Repr

/-- `json_error_t` -/
structure Error where
  line : Int
  column : Int
  position : Nat
  code : ErrorCode
  text : Bytes
deriving DecidableEq, Repr

/-- The bytes of an ASCII text. -/
def ascii (s : String) : Bytes := s.toList.map fun c => .ofNat c.toNat

def hexDigit (upper : Bool) (n : Nat) : UInt8 :=
  .ofNat (if n < 10 then 0x30 + n else if upper then 0x37 + n else 0x57 + n)

/-- The conversion `%x` of a byte. -/
def hexByte (c : UInt8) : Bytes :=
  if c.toNat < 16 then [hexDigit false c.toNat]
  else [hexDigit false (c.toNat / 16), hexDigit false (c.toNat % 16)]

/-- The conversion `%04X` of a number below 0x10000. -/
def hex4 (n : Nat) : Bytes :=
  [hexDigit true (n / 4096 % 16), hexDigit true (n / 256 % 16), hexDigit true (n / 16 % 16),
    hexDigit true (n % 16)]

/-! ## Lexical analyzer -/

/-- The tokens, with their values. -/
inductive Token (R : Type) where
  | invalid
  | eof
  | punct (c : UInt8)
  | string (value : Bytes)
  | integer (value : Int64)
  | real (value : R)
  | true
  | false
  | null

/-- `lex_t`, with the first error that was set. -/
structure Lex (R δ : Type) where
  stream : Stream δ
  savedText : Bytes := []
  token : Token R := .invalid
  error : Option Error := none

/-- The flags of `json_loads`. -/
structure LoadFlags where
  rejectDuplicates : Bool := false
  disableEofCheck : Bool := false
  decodeAny : Bool := false
  decodeIntAsReal : Bool := false
  allowNul : Bool := false
deriving DecidableEq, Repr

/-- What a run of the decoder is given: where the bytes come from, the conversion of `jsonp_strtod`,
    which fails on overflow, the flags, and the bound on the rounds of a loop. -/
structure Conf (R δ : Type) where
  get : GetFunc δ
  strtod : Bytes → Option R
  flags : LoadFlags
  steps : Nat

section
variable {R δ : Type}

/-- `error_set` -/
def errorSet (lex : Lex R δ) (code : ErrorCode) (msg : Bytes) : Lex R δ :=
  let saved := lex.savedText.takeWhile (· ≠ 0)
  let (code, text) :=
    if saved ≠ [] then
      (code, if lex.savedText.length ≤ 20 then msg ++ ascii " near '" ++ saved ++ ascii "'" else msg)
    else
      (if code = .invalidSyntax then .prematureEndOfInput else code,
        if lex.stream.state = .error then msg else msg ++ ascii " near end of file")
  { lex with
    error := lex.error.or
      (some ⟨lex.stream.line, lex.stream.column, lex.stream.position, code, text⟩) }

def isDigit (c : UInt8) : Bool := 0x30 ≤ c && c ≤ 0x39
def isUpper (c : UInt8) : Bool := 0x41 ≤ c && c ≤ 0x5A
def isLower (c : UInt8) : Bool := 0x61 ≤ c && c ≤ 0x7A
def isAlpha (c : UInt8) : Bool := isUpper c || isLower c
def isXdigit (c : UInt8) : Bool :=
  isDigit c || (0x41 ≤ c && c ≤ 0x46) || (0x61 ≤ c && c ≤ 0x66)
def isSpace (c : UInt8) : Bool := c == 0x20 || c == 0x09 || c == 0x0A || c == 0x0D

/-- A test on a byte; the end of the stream does not pass. -/
def Got.is (c : Got) (p : UInt8 → Bool) : Bool :=
  match c with
  | .byte c => p c
  | .eof | .error => false

variable (e : Conf R δ)

/-- `lex_get` -/
def lexGet (lex : Lex R δ) : Got × Lex R δ :=
  let (c, stream) := streamGet e.get lex.stream
  let lex' := { lex with stream := stream }
  if lex.stream.state = .ok ∧ stream.state = .error then
    (c, errorSet lex' .invalidUtf8 (ascii "unable to decode byte 0x" ++ hexByte (stream.buffer.headD 0)))
  else (c, lex')

/-- `lex_save` -/
def lexSave (lex : Lex R δ) (c : UInt8) : Lex R δ := { lex with savedText := lex.savedText ++ [c] }

/-- `lex_get_save` -/
def lexGetSave (lex : Lex R δ) : Got × Lex R δ :=
  match lexGet e lex with
  | (.byte c, lex) => (.byte c, lexSave lex c)
  | (c, lex) => (c, lex)

/-- `lex_unget` -/
def lexUnget (lex : Lex R δ) (c : Got) : Lex R δ := { lex with stream := streamUnget lex.stream c }

/-- `lex_unget_unsave` -/
def lexUngetUnsave (lex : Lex R δ) : Got → Lex R δ
  | .byte c => { lexUnget lex (.byte c) with savedText := lex.savedText.dropLast }
  | .eof | .error => lex

/-- `lex_save_cached` -/
def lexSaveCached (lex : Lex R δ) : Lex R δ :=
  let rest := lex.stream.buffer.drop lex.stream.bufferPos
  { lex with
    savedText := lex.savedText ++ rest
    stream :=
      { lex.stream with
        bufferPos := lex.stream.bufferPos + rest.length
        position := lex.stream.position + rest.length } }

/-- `do c = lex_get_save(lex, error); while (p(c));` -/
def lexGetSaveWhile (p : UInt8 → Bool) : Nat → Lex R δ → Got × Lex R δ
  | 0, lex => (.error, lex)
  | n + 1, lex =>
    let (c, lex) := lexGetSave e lex
    if c.is p then lexGetSaveWhile p n lex else (c, lex)

/-- `decode_unicode_escape`, on the digits after the `u`. -/
def decodeUnicodeEscape : Bytes → Option Nat
  | digits =>
    digits.foldl (fun value c => do
      let value ← value
      if isDigit c then some (value * 16 + (c.toNat - 0x30))
      else if isLower c then some (value * 16 + (c.toNat - 0x61 + 10))
      else if isUpper c then some (value * 16 + (c.toNat - 0x41 + 10))
      else none) (some 0)

/-- The character that a backslash and `c` stand for. -/
def unescape (c : UInt8) : Option UInt8 :=
  if c = 0x22 ∨ c = 0x5C ∨ c = 0x2F then some c
  else if c = 0x62 then some 0x08
  else if c = 0x66 then some 0x0C
  else if c = 0x6E then some 0x0A
  else if c = 0x72 then some 0x0D
  else if c = 0x74 then some 0x09
  else none

/-- The four digits of an escape. -/
def scanHex : Nat → Got → Lex R δ → Option Got × Lex R δ
  | 0, c, lex => (some c, lex)
  | i + 1, c, lex =>
    if c.is isXdigit then
      let (c, lex) := lexGetSave e lex
      scanHex i c lex
    else (none, errorSet lex .invalidSyntax (ascii "invalid escape"))

/-- The first loop of `lex_scan_string`: find the end of the string and check the escapes. -/
def scanBody : Nat → Got → Lex R δ → Bool × Lex R δ
  | 0, _, lex => (false, lex)
  | _ + 1, .error, lex => (false, lex)
  | _ + 1, .eof, lex =>
    (false, errorSet lex .prematureEndOfInput (ascii "premature end of input"))
  | n + 1, .byte c, lex =>
    if c = 0x22 then (true, lex)
    else if c.toNat ≤ 0x1F then
      let lex := lexUngetUnsave lex (.byte c)
      (false, errorSet lex .invalidSyntax
        (if c = 0x0A then ascii "unexpected newline"
          else ascii "control character 0x" ++ hexByte c))
    else if c = 0x5C then
      let (c, lex) := lexGetSave e lex
      if c = .byte 0x75 then
        let (c, lex) := lexGetSave e lex
        match scanHex e 4 c lex with
        | (none, lex) => (false, lex)
        | (some c, lex) => scanBody n c lex
      else if c.is fun c => (unescape c).isSome then
        let (c, lex) := lexGetSave e lex
        scanBody n c lex
      else (false, errorSet lex .invalidSyntax (ascii "invalid escape"))
    else
      let (c, lex) := lexGetSave e lex
      scanBody n c lex

end

/-- The second loop of `lex_scan_string`: the value of the saved text up to the closing
    quote, or an error message. -/
def decodeString : Bytes → Except Bytes Bytes
  | [] => .ok []
  | c :: p =>
    if c = 0x22 then .ok []
    else if c = 0x5C then
      match p with
      | [] => .ok []
      | x :: p =>
        if x = 0x75 then
          match p with
          | h₁ :: h₂ :: h₃ :: h₄ :: p =>
            match decodeUnicodeEscape [h₁, h₂, h₃, h₄] with
            | none => .error (ascii "invalid Unicode escape '\\u" ++ [h₁, h₂, h₃, h₄] ++ ascii "'")
            | some value =>
              if 0xD800 ≤ value ∧ value ≤ 0xDBFF then
                match p with
                | b :: u :: g₁ :: g₂ :: g₃ :: g₄ :: p =>
                  if b = 0x5C ∧ u = 0x75 then
                    match decodeUnicodeEscape [g₁, g₂, g₃, g₄] with
                    | none =>
                      .error (ascii "invalid Unicode escape '\\u" ++ [g₁, g₂, g₃, g₄] ++ ascii "'")
                    | some value₂ =>
                      if 0xDC00 ≤ value₂ ∧ value₂ ≤ 0xDFFF then
                        let value := (value - 0xD800) <<< 10 + (value₂ - 0xDC00) + 0x10000
                        (decodeString p).map ((utf8Encode value).getD [] ++ ·)
                      else
                        .error (ascii "invalid Unicode '\\u" ++ hex4 value ++ ascii "\\u" ++
                          hex4 value₂ ++ ascii "'")
                  else .error (ascii "invalid Unicode '\\u" ++ hex4 value ++ ascii "'")
                | _ => .error (ascii "invalid Unicode '\\u" ++ hex4 value ++ ascii "'")
              else if 0xDC00 ≤ value ∧ value ≤ 0xDFFF then
                .error (ascii "invalid Unicode '\\u" ++ hex4 value ++ ascii "'")
              else (decodeString p).map ((utf8Encode value).getD [] ++ ·)
          | _ => .ok []
        else (decodeString p).map ((unescape x).toList ++ ·)
    else (decodeString p).map (c :: ·)

section
variable {R δ : Type} (e : Conf R δ)

/-- `lex_scan_string` -/
def lexScanString (lex : Lex R δ) : Lex R δ :=
  let lex := { lex with token := .invalid }
  let (c, lex) := lexGetSave e lex
  match scanBody e e.steps c lex with
  | (false, lex) => lex
  | (true, lex) =>
    match decodeString (lex.savedText.drop 1) with
    | .error msg => errorSet lex .invalidSyntax msg
    | .ok value => { lex with token := .string value }

/-- The value of a text of digits with a sign. -/
def digitsVal (digits : Bytes) : Nat := digits.foldl (fun n c => n * 10 + (c.toNat - 0x30)) 0

def intVal : Bytes → Int
  | [] => 0
  | c :: cs => if c = 0x2D then -(digitsVal cs : Int) else digitsVal (c :: cs)

/-- `json_strtoint`; it fails on overflow. -/
def jsonStrtoint (text : Bytes) : Option Int64 :=
  if -2 ^ 63 ≤ intVal text ∧ intVal text < 2 ^ 63 then some (.ofInt (intVal text)) else none

/-- The part of `lex_scan_number` before the point. -/
def scanInt (c : Got) (lex : Lex R δ) : Option Got × Lex R δ :=
  if c = .byte 0x30 then
    let (c, lex) := lexGetSave e lex
    if c.is isDigit then (none, lexUngetUnsave lex c) else (some c, lex)
  else if c.is isDigit then
    let (c, lex) := lexGetSaveWhile e isDigit e.steps lex
    (some c, lex)
  else (none, lexUngetUnsave lex c)

/-- The point and the digits after it. -/
def scanFrac (c : Got) (lex : Lex R δ) : Option Got × Lex R δ :=
  if c = .byte 0x2E then
    match lexGet e lex with
    | (.byte c, lex) =>
      if isDigit c then
        let (c, lex) := lexGetSaveWhile e isDigit e.steps (lexSave lex c)
        (some c, lex)
      else (none, lexUnget lex (.byte c))
    | (_, lex) => (none, lex)
  else (some c, lex)

/-- The exponent. -/
def scanExp (c : Got) (lex : Lex R δ) : Option Got × Lex R δ :=
  if c = .byte 0x45 ∨ c = .byte 0x65 then
    let (c, lex) := lexGetSave e lex
    let (c, lex) := if c = .byte 0x2B ∨ c = .byte 0x2D then lexGetSave e lex else (c, lex)
    if c.is isDigit then
      let (c, lex) := lexGetSaveWhile e isDigit e.steps lex
      (some c, lex)
    else (none, lexUngetUnsave lex c)
  else (some c, lex)

/-- `lex_scan_number` -/
def lexScanNumber (c : UInt8) (lex : Lex R δ) : Lex R δ :=
  let lex := { lex with token := .invalid }
  let (c, lex) := if c = 0x2D then lexGetSave e lex else (.byte c, lex)
  match scanInt e c lex with
  | (none, lex) => lex
  | (some c, lex) =>
    if !e.flags.decodeIntAsReal && c ≠ .byte 0x2E && c ≠ .byte 0x45 && c ≠ .byte 0x65 then
      let lex := lexUngetUnsave lex c
      match jsonStrtoint lex.savedText with
      | none =>
        errorSet lex .numericOverflow
          (if intVal lex.savedText < 0 then ascii "too big negative integer"
            else ascii "too big integer")
      | some value => { lex with token := .integer value }
    else
      match scanFrac e c lex with
      | (none, lex) => lex
      | (some c, lex) =>
        match scanExp e c lex with
        | (none, lex) => lex
        | (some c, lex) =>
          let lex := lexUngetUnsave lex c
          match e.strtod lex.savedText with
          | none => errorSet lex .numericOverflow (ascii "real number overflow")
          | some value => { lex with token := .real value }

/-- `do c = lex_get(lex, error); while (c == ' ' || ...);` -/
def lexSkip : Nat → Lex R δ → Got × Lex R δ
  | 0, lex => (.error, lex)
  | n + 1, lex =>
    let (c, lex) := lexGet e lex
    if c.is isSpace then lexSkip n lex else (c, lex)

def isPunct (c : UInt8) : Bool :=
  c == 0x7B || c == 0x7D || c == 0x5B || c == 0x5D || c == 0x3A || c == 0x2C

/-- The token of an identifier. -/
def identToken (text : Bytes) : Token R :=
  if text = ascii "true" then .true
  else if text = ascii "false" then .false
  else if text = ascii "null" then .null
  else .invalid

/-- `lex_scan` -/
def lexScan (lex : Lex R δ) : Lex R δ :=
  let lex := { lex with savedText := [] }
  match lexSkip e e.steps lex with
  | (.eof, lex) => { lex with token := .eof }
  | (.error, lex) => { lex with token := .invalid }
  | (.byte c, lex) =>
    let lex := lexSave lex c
    if isPunct c then { lex with token := .punct c }
    else if c = 0x22 then lexScanString e lex
    else if isDigit c || c == 0x2D then lexScanNumber e c lex
    else if isAlpha c then
      let (c, lex) := lexGetSaveWhile e isAlpha e.steps lex
      let lex := lexUngetUnsave lex c
      { lex with token := identToken lex.savedText }
    else { lexSaveCached lex with token := .invalid }

/-! ## Parser -/

/-- `parse_value` for the elements of an array or an object -/
abbrev ParseValue (R δ : Type) := Lex R δ → Option (Json R) × Lex R δ

variable (value : ParseValue R δ)

/-- The loop of `parse_object`. -/
def parseMembers : Nat → List (Bytes × Json R) → Lex R δ → Option (Json R) × Lex R δ
  | 0, _, lex => (none, lex)
  | n + 1, object, lex =>
    match lex.token with
    | .string key =>
      if 0 ∈ key then
        (none, errorSet lex .nullByteInKey (ascii "NUL byte in object key not supported"))
      else if e.flags.rejectDuplicates ∧ (objectGet key object).isSome then
        (none, errorSet lex .duplicateKey (ascii "duplicate object key"))
      else
        let lex := lexScan e lex
        match lex.token with
        | .punct 0x3A =>
          match value (lexScan e lex) with
          | (none, lex) => (none, lex)
          | (some v, lex) =>
            let object := objectSet key v object
            let lex := lexScan e lex
            match lex.token with
            | .punct 0x2C => parseMembers n object (lexScan e lex)
            | .punct 0x7D => (some (.object object), lex)
            | _ => (none, errorSet lex .invalidSyntax (ascii "'\x7d' expected"))
        | _ => (none, errorSet lex .invalidSyntax (ascii "':' expected"))
    | _ => (none, errorSet lex .invalidSyntax (ascii "string or '\x7d' expected"))

/-- `parse_object` -/
def parseObject (lex : Lex R δ) : Option (Json R) × Lex R δ :=
  let lex := lexScan e lex
  match lex.token with
  | .punct 0x7D => (some (.object []), lex)
  | _ => parseMembers e value e.steps [] lex

/-- The loop of `parse_array`. -/
def parseElems : Nat → List (Json R) → Lex R δ → Option (Json R) × Lex R δ
  | 0, _, lex => (none, lex)
  | n + 1, array, lex =>
    match lex.token with
    | .eof => (none, errorSet lex .invalidSyntax (ascii "']' expected"))
    | _ =>
      match value lex with
      | (none, lex) => (none, lex)
      | (some v, lex) =>
        let array := array ++ [v]
        let lex := lexScan e lex
        match lex.token with
        | .punct 0x2C => parseElems n array (lexScan e lex)
        | .punct 0x5D => (some (.array array), lex)
        | _ => (none, errorSet lex .invalidSyntax (ascii "']' expected"))

/-- `parse_array` -/
def parseArray (lex : Lex R δ) : Option (Json R) × Lex R δ :=
  let lex := lexScan e lex
  match lex.token with
  | .punct 0x5D => (some (.array []), lex)
  | _ => parseElems e value e.steps [] lex

/-- `parse_value`, at the depth that leaves `d` of `JSON_PARSER_MAX_DEPTH`. -/
def parseValue : Nat → ParseValue R δ
  | 0, lex => (none, errorSet lex .stackOverflow (ascii "maximum parsing depth reached"))
  | d + 1, lex =>
    match lex.token with
    | .string value =>
      if !e.flags.allowNul ∧ 0 ∈ value then
        (none, errorSet lex .nullCharacter (ascii "\\u0000 is not allowed without JSON_ALLOW_NUL"))
      else (some (.string value), lex)
    | .integer value => (some (.integer value), lex)
    | .real value => (some (.real value), lex)
    | .true => (some .true, lex)
    | .false => (some .false, lex)
    | .null => (some .null, lex)
    | .punct 0x7B => parseObject e (parseValue d) lex
    | .punct 0x5B => parseArray e (parseValue d) lex
    | .invalid => (none, errorSet lex .invalidSyntax (ascii "invalid token"))
    | _ => (none, errorSet lex .invalidSyntax (ascii "unexpected token"))

/-- `JSON_PARSER_MAX_DEPTH` -/
def jsonParserMaxDepth : Nat := 2048

/-- The token begins an array or an object. -/
def Token.opens : Token R → Bool
  | .punct 0x5B | .punct 0x7B => Bool.true
  | _ => Bool.false

/-- `parse_json` -/
def parseJson (lex : Lex R δ) : Option (Json R) × Lex R δ :=
  let lex := lexScan e lex
  if !e.flags.decodeAny && !lex.token.opens then
    (none, errorSet lex .invalidSyntax (ascii "'[' or '\x7b' expected"))
  else
    match parseValue e jsonParserMaxDepth lex with
    | (none, lex) => (none, lex)
    | (some v, lex) =>
      if e.flags.disableEofCheck then (some v, lex)
      else
        let lex := lexScan e lex
        match lex.token with
        | .eof => (some v, lex)
        | _ => (none, errorSet lex .endOfInputExpected (ascii "end of file expected"))

/-- A run of the decoder on the bytes `data`. -/
def load (get : GetFunc Bytes) (strtod : Bytes → Option R) (flags : LoadFlags) (data : Bytes) :
    Option (Json R) × Lex R Bytes :=
  parseJson ⟨get, strtod, flags, data.length + 1⟩ { stream := { data := data } }

/-- `json_loads` -/
def jsonLoads (strtod : Bytes → Option R) (flags : LoadFlags) (string : Bytes) :
    Option (Json R) :=
  (load stringGet strtod flags string).1

/-- `json_loadb` -/
def jsonLoadb (strtod : Bytes → Option R) (flags : LoadFlags) (buffer : Bytes) :
    Option (Json R) :=
  (load bufferGet strtod flags buffer).1

end

end Jansson
