/-
  Blobmsg values as trees (blobmsg.h): named attributes, with tables and arrays of them.
-/
import Mathlib

namespace Blobmsg

/-- A run of bytes. -/
abbrev Bytes := List UInt8

/-- The bytes of an ASCII string. -/
def ascii (s : String) : Bytes := s.toList.map fun c => UInt8.ofNat c.toNat

/-- `enum blobmsg_type`. -/
inductive BlobmsgType where
  | unspec | array | table | string | int64 | int32 | int16 | int8 | double
  deriving DecidableEq, Repr

/-- The types of attributes that do not hold other attributes. -/
inductive LeafType where
  | unspec | string | int64 | int32 | int16 | int8 | double
  deriving DecidableEq, Repr

def LeafType.toType : LeafType → BlobmsgType
  | unspec => .unspec
  | string => .string
  | int64 => .int64
  | int32 => .int32
  | int16 => .int16
  | int8 => .int8
  | double => .double

/-- A blobmsg attribute and what it holds. -/
inductive Field where
  | leaf (name : Bytes) (type : LeafType) (payload : Bytes)
  | nest (name : Bytes) (array : Bool) (elems : List Field)

namespace Field

/-- `blobmsg_name`. -/
def name : Field → Bytes
  | leaf name _ _ => name
  | nest name _ _ => name

/-- `blobmsg_type`. -/
def type : Field → BlobmsgType
  | leaf _ type _ => type.toType
  | nest _ true _ => .array
  | nest _ false _ => .table

/-- The attributes inside. -/
def elems : Field → List Field
  | leaf _ _ _ => []
  | nest _ _ elems => elems

/-- The C string at `blobmsg_data`. -/
def text : Field → Bytes
  | leaf _ _ payload => payload.takeWhile (· ≠ 0)
  | nest _ _ _ => []

theorem sizeOf_elem {f g : Field} (h : g ∈ f.elems) : sizeOf g < sizeOf f := by
  cases f with
  | leaf => cases h
  | nest name array elems =>
    have hlt := List.sizeOf_lt_of_mem (show g ∈ elems from h)
    rw [nest.sizeOf_spec]
    omega

end Field

end Blobmsg
