/-
  Values of json-c as blobmsg attributes, and attributes as JSON texts (blobmsg_json.c).

  The text that is being formatted is the list of the bytes that were put into it, and there is
  no custom format.
-/
import IotLib.Blobmsg.Build
import IotLib.Jansson.Dump

namespace Blobmsg

/-- A value that json-c delivers, without doubles. -/
inductive Json where
  | null
  | bool (b : Bool)
  | int (i : Int64)
  | string (s : CStr)
  | array (elems : List Json)
  | object (members : List (CStr × Json))

/-- Induction over the values inside. -/
theorem Json.induction {P : Json → Prop} (null : P .null) (bool : ∀ b, P (.bool b))
    (int : ∀ i, P (.int i)) (string : ∀ s, P (.string s))
    (array : ∀ vs : List Json, (∀ v ∈ vs, P v) → P (.array vs))
    (object : ∀ ms : List (CStr × Json), (∀ m ∈ ms, P m.2) → P (.object ms)) : ∀ v, P v
  | .null => null
  | .bool b => bool b
  | .int i => int i
  | .string s => string s
  | .array vs => array vs fun v hv => by
    have hlt := List.sizeOf_lt_of_mem hv
    exact induction null bool int string array object v
  | .object ms => object ms fun m hm => by
    have hlt := List.sizeOf_lt_of_mem hm
    exact induction null bool int string array object m.2
termination_by v => sizeOf v
decreasing_by
  · simp only [Json.array.sizeOf_spec]
    omega
  · obtain ⟨key, v⟩ := m
    simp only [Json.object.sizeOf_spec, Prod.mk.sizeOf_spec] at hlt ⊢
    omega

/-! ## Adding a value -/

/-- The name of an attribute; the elements of an array have none. -/
def keyBytes : Option CStr → Bytes
  | none => []
  | some key => key.1

/-- The payload for an integer: four bytes if they hold it. -/
def intValue (i : Int64) : Value :=
  if -2 ^ 31 ≤ i.toInt ∧ i.toInt ≤ 2 ^ 31 - 1 then .int32 (.ofNat (i.toInt % 2 ^ 32).toNat)
  else .int64 (.ofNat (i.toInt % 2 ^ 64).toNat)

/-- `blobmsg_add_*` as `blobmsg_add_json_element` calls it: when the buffer cannot grow, it stays
    as it is, and nobody is told. -/
def addValue (buf : BlobBuf) (name : Option CStr) (value : Value) : BlobBuf :=
  (blobmsgAddField buf value.type.toType.code (keyBytes name) value.payload).getD buf

mutual

/-- `blobmsg_add_json_element`. If a nested attribute cannot be opened, there is no cookie for the
    call that closes it. -/
def blobmsgAddJsonElement : Json → Option CStr → BlobBuf → Option BlobBuf
  | .object members, name, buf =>
    (blobmsgOpenNested buf (keyBytes name) false).bind fun (c, buf) =>
      (blobmsgAddObject members buf).bind fun buf => blobNestEnd buf c
  | .array elems, name, buf =>
    (blobmsgOpenNested buf (keyBytes name) true).bind fun (c, buf) =>
      (blobmsgAddArray elems buf).bind fun buf => blobNestEnd buf c
  | .string s, name, buf => some (addValue buf name (.string s))
  | .bool b, name, buf => some (addValue buf name (.int8 (if b then 1 else 0)))
  | .int i, name, buf => some (addValue buf name (intValue i))
  | .null, name, buf => some (addValue buf name (.raw []))

/-- `blobmsg_add_array` -/
def blobmsgAddArray : List Json → BlobBuf → Option BlobBuf
  | [], buf => some buf
  | obj :: elems, buf =>
    (blobmsgAddJsonElement obj none buf).bind fun buf => blobmsgAddArray elems buf

/-- `blobmsg_add_object` -/
def blobmsgAddObject : List (CStr × Json) → BlobBuf → Option BlobBuf
  | [], buf => some buf
  | (key, val) :: members, buf =>
    (blobmsgAddJsonElement val (some key) buf).bind fun buf => blobmsgAddObject members buf

end

/-! ## Formatting -/

/-- `add_separator`; the level is there when the text is indented. -/
def addSeparator : Option ℕ → Bytes
  | none => []
  | some level => 0x0A :: List.replicate (min level 16) 0x09

/-- `%02x` -/
def hex2 (c : UInt8) : Bytes :=
  [Jansson.hexDigit false (c.toNat / 16), Jansson.hexDigit false (c.toNat % 16)]

/-- What is put for a byte that `blobmsg_format_string` escapes. -/
def escapeByte (p : UInt8) : Option Bytes :=
  if p = 0x08 then some [0x5C, 0x62]
  else if p = 0x0A then some [0x5C, 0x6E]
  else if p = 0x09 then some [0x5C, 0x74]
  else if p = 0x0D then some [0x5C, 0x72]
  else if p = 0x22 ∨ p = 0x5C then some [0x5C, p]
  else if p < 0x20 then some ([0x5C, 0x75, 0x30, 0x30] ++ hex2 p)
  else none

/-- The loop of `blobmsg_format_string`, with the bytes between `last` and `p`. -/
def formatChars : Bytes → Bytes → Bytes
  | run, [] => run
  | run, p :: ps =>
    match escapeByte p with
    | none => formatChars (run ++ [p]) ps
    | some escape => run ++ escape ++ formatChars [] ps

/-- `blobmsg_format_string` -/
def blobmsgFormatString (str : Bytes) : Bytes := [0x22] ++ formatChars [] str ++ [0x22]

/-- A number of some bytes, as a signed one. -/
def signed (bits n : ℕ) : ℤ := if n < 2 ^ (bits - 1) then n else n - 2 ^ bits

/-- `%d` of a signed number in network byte order. -/
def formatInt (bits : ℕ) (data : Bytes) : Bytes :=
  Jansson.integerText (.ofInt (signed bits (beNat data)))

/-- The conversion from `size_t` to `int` and back. -/
def viaInt (len : ℕ) : ℕ :=
  if len % 2 ^ 32 < 2 ^ 31 then len % 2 ^ 32 else SIZE_MOD - 2 ^ 32 + len % 2 ^ 32

/-- The brackets of a list. -/
def openBracket (array : Bool) : Bytes := if array then [0x5B] else [0x7B]

def closeBracket (array : Bool) : Bytes := if array then [0x5D] else [0x7D]

/-- `blobmsg_format_json_list`, where `format` formats an element. -/
def blobmsgFormatJsonList (format : Option ℕ → Bool → ℕ → Option Bytes) (mem : Bytes)
    (indent : Option ℕ) (attr len : ℕ) (array : Bool) : Option Bytes :=
  let inner := indent.map (· + 1)
  (forEachAttr mem (fun _ => true) (fun (s : Bool × Bytes) pos _ =>
    (format inner array pos).bind fun text =>
      some (.inl (false, s.2 ++ (if s.1 then [] else [0x2C] ++ addSeparator inner) ++ text)))
    (viaInt len + 1) (true, openBracket array ++ addSeparator inner) attr (viaInt len)).bind fun s =>
      some (s.2 ++ addSeparator indent ++ closeBracket array)

section
variable (formatDouble : UInt64 → Bytes) (mem : Bytes)

/-- The name of an element and the colon. -/
def formatName (indent : Option ℕ) (withoutName : Bool) (attr : ℕ) : Option Bytes :=
  if withoutName then some []
  else
    (bytesAt mem (attr + ATTR_SIZE + HDR_SIZE) 1).bind fun c =>
      if c = [0] then some []
      else
        (cstrAt mem (attr + ATTR_SIZE + HDR_SIZE)).bind fun name =>
          some (blobmsgFormatString name ++ (if indent.isSome then [0x3A, 0x20] else [0x3A]))

/-- The `switch` of `blobmsg_format_element` over the type of the attribute. -/
def formatData (formatList : ℕ → ℕ → Bool → Option Bytes) (data len : ℕ) :
    BlobmsgType → Option Bytes
  | .unspec => some (ascii "null")
  | .int8 => (bytesAt mem data 1).bind fun b => some (if b = [0] then ascii "false" else ascii "true")
  | .int16 => (bytesAt mem data 2).bind fun b => some (formatInt 16 b)
  | .int32 => (bytesAt mem data 4).bind fun b => some (formatInt 32 b)
  | .int64 => (bytesAt mem data 8).bind fun b => some (formatInt 64 b)
  | .double => (bytesAt mem data 8).bind fun b => some (formatDouble (.ofNat (beNat b)))
  | .string => (cstrAt mem data).bind fun s => some (blobmsgFormatString s)
  | .array => formatList data len true
  | .table => formatList data len false

/-- `blobmsg_format_element` -/
def blobmsgFormatElement : ℕ → Option ℕ → Bool → ℕ → Option Bytes
  | 0, _, _, _ => none
  | fuel + 1, indent, withoutName, attr =>
    (blobmsgCheckAttr mem attr false).bind fun ok =>
      if ¬ ok then some []
      else
        (formatName mem indent withoutName attr).bind fun name =>
          (blobmsgData mem attr).bind fun data =>
            (blobmsgDataLen mem attr).bind fun len =>
              (blobId mem attr).bind fun id =>
                (BlobmsgType.ofCode id).bind fun type =>
                  (formatData formatDouble mem
                    (blobmsgFormatJsonList (blobmsgFormatElement fuel) mem indent) data len type).bind
                      fun text => some (name ++ text)

/-- `blobmsg_format_json_with_cb`; `blobmsg_format_json` does not indent. -/
def blobmsgFormatJson (attr : ℕ) (list : Bool) (indent : Option ℕ) : Option Bytes :=
  (blobIsExtended mem attr).bind fun extended =>
    (blobId mem attr).bind fun id =>
      let array := extended && decide (id = BlobmsgType.array.code)
      if list then
        (blobmsgData mem attr).bind fun data =>
          (blobmsgDataLen mem attr).bind fun len =>
            blobmsgFormatJsonList (blobmsgFormatElement formatDouble mem mem.length) mem indent data len
              array
      else blobmsgFormatElement formatDouble mem mem.length indent false attr

/-- An object is added to a buffer that held `mem` before, and the buffer is formatted. -/
def formatObject (id : ℕ) (members : List (CStr × Json)) (indent : Option ℕ) : Option Bytes :=
  (blobBufInit mem id).bind fun buf =>
    (blobmsgAddObject members buf).bind fun buf =>
      (buf.deref buf.head).bind fun head => blobmsgFormatJson formatDouble buf.mem head true indent

end

end Blobmsg
