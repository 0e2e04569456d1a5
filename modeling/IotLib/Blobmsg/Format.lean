/-
  The bytes of blobmsg attributes: a header, the name, the payload, and padding.
-/
import IotLib.Blobmsg.Blob

namespace Blobmsg

/-! ## Parts of an attribute -/

/-- The last `n` bytes of a number in network byte order. -/
def beBytes : ℕ → ℕ → Bytes
  | 0, _ => []
  | n + 1, x => beBytes n (x / 256) ++ [UInt8.ofNat (x % 256)]

/-- The header of an attribute: its id with the bit for names, and its length. -/
def hdr (id n : ℕ) : Bytes := beBytes 4 (id * 2 ^ 24 + n)

/-- An attribute with its padding. -/
def attr (id n : ℕ) (G : Bytes) : Bytes := hdr id n ++ (G ++ List.replicate (pad4 n - n) 0)

/-- The length of a name, the name, and zeros up to the payload. -/
def nameHdr (name : Bytes) : Bytes :=
  beBytes 2 name.length ++ (name ++ List.replicate (blobmsgHdrlen name.length - (2 + name.length)) 0)

/-- A named attribute with its payload and padding. -/
def encodeAttr (t : ℕ) (name payload : Bytes) : Bytes :=
  attr (128 + t) (4 + (blobmsgHdrlen name.length + payload.length)) (nameHdr name ++ payload)

/-! ## Trees -/

/-- The number of the type of a nested attribute. -/
def nestCode (array : Bool) : ℕ := if array then BlobmsgType.array.code else BlobmsgType.table.code

mutual

/-- The bytes of an attribute, with its padding. -/
def encode : Field → Bytes
  | .leaf name type payload => encodeAttr type.toType.code name payload
  | .nest name array elems => encodeAttr (nestCode array) name (encodeAll elems)

def encodeAll : List Field → Bytes
  | [] => []
  | f :: fs => encode f ++ encodeAll fs

end

/-- The payload passes `blob_check_type`. -/
def PayloadOk : LeafType → Bytes → Prop
  | .unspec, _ => True
  | .string, payload => ∃ s, payload = s ++ [0]
  | .int64, payload => payload.length = 8
  | .int32, payload => payload.length = 4
  | .int16, payload => payload.length = 2
  | .int8, payload => payload.length = 1
  | .double, payload => payload.length = 8

mutual

/-- Every name is a C string that fits its length field, and every payload fits its type. -/
def WellFormed : Field → Prop
  | .leaf name type payload => (0 ∉ name ∧ name.length < 2 ^ 16) ∧ PayloadOk type payload
  | .nest name _ elems => (0 ∉ name ∧ name.length < 2 ^ 16) ∧ WellFormedAll elems

def WellFormedAll : List Field → Prop
  | [] => True
  | f :: fs => WellFormed f ∧ WellFormedAll fs

end

/-! ## Strings -/

/-- `strlen`, if the string ends inside the block. -/
def strlenAt (mem : Bytes) (a : ℕ) : Option ℕ :=
  if 0 ∈ mem.drop a then some ((mem.drop a).takeWhile (· ≠ 0)).length else none

/-- The C string at an address. -/
def cstrAt (mem : Bytes) (a : ℕ) : Option Bytes := (strlenAt mem a).bind fun n => bytesAt mem a n

/-- An attribute at an address. -/
def EncodedAt (mem : Bytes) (a : ℕ) (f : Field) : Prop :=
  ∃ P R, mem = P ++ (encode f ++ R) ∧ a = P.length

/-- A well-formed attribute in some memory. -/
structure Source where
  mem : Bytes
  addr : ℕ
  field : Field
  wf : WellFormed field
  encoded : EncodedAt mem addr field

end Blobmsg
