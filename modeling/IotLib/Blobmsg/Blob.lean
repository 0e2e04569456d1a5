/-
  Blob attributes in memory (blob.h, blob.c), and the checks and parsers of blobmsg.c.

  The memory is the buffer that the functions are given. An address is an offset into it, and
  reading outside of it fails. A length is a `size_t` of 64 bits, which wraps around.
-/
import IotLib.Blobmsg.Field

namespace Blobmsg

/-! ## Attributes -/

/-- The bytes at an address. -/
def bytesAt (mem : Bytes) (a n : ℕ) : Option Bytes :=
  if a + n ≤ mem.length then some ((mem.drop a).take n) else none

/-- A number in network byte order. -/
def beNat (bs : Bytes) : ℕ := bs.foldl (fun x b => x * 256 + b.toNat) 0

/-- `be32_to_cpu(attr->id_len)` -/
def idLen (mem : Bytes) (a : ℕ) : Option ℕ := (bytesAt mem a 4).map beNat

abbrev SIZE_MOD : ℕ := 2 ^ 64
abbrev BLOB_ATTR_LEN_MASK : ℕ := 0xffffff

/-- `sizeof(struct blob_attr)` and `sizeof(struct blobmsg_hdr)` -/
abbrev ATTR_SIZE : ℕ := 4
abbrev HDR_SIZE : ℕ := 2

/-- `blob_id` -/
def blobId (mem : Bytes) (a : ℕ) : Option ℕ := (idLen mem a).map fun x => x / 2 ^ 24 % 2 ^ 7

/-- `blob_is_extended` -/
def blobIsExtended (mem : Bytes) (a : ℕ) : Option Bool :=
  (idLen mem a).map fun x => decide (x / 2 ^ 31 % 2 = 1)

/-- `blob_len`, which wraps around for attributes shorter than their header. -/
def blobLen (mem : Bytes) (a : ℕ) : Option ℕ :=
  (idLen mem a).map fun x => (x % 2 ^ 24 + (SIZE_MOD - ATTR_SIZE)) % SIZE_MOD

/-- `blob_raw_len` -/
def blobRawLen (mem : Bytes) (a : ℕ) : Option ℕ :=
  (blobLen mem a).map fun len => (len + ATTR_SIZE) % SIZE_MOD

/-- A length rounded up to the alignment. -/
def pad4 (n : ℕ) : ℕ := (n + 3) / 4 * 4

/-- `blob_pad_len`, in `unsigned int`. -/
def blobPadLen (mem : Bytes) (a : ℕ) : Option ℕ :=
  (blobRawLen mem a).map fun len => pad4 (len % 2 ^ 32) % 2 ^ 32

/-- `blobmsg_namelen` of the header behind an attribute. -/
def blobmsgNamelen (mem : Bytes) (a : ℕ) : Option ℕ := (bytesAt mem (a + ATTR_SIZE) 2).map beNat

/-- `blobmsg_hdrlen` -/
def blobmsgHdrlen (namelen : ℕ) : ℕ := pad4 (HDR_SIZE + namelen + 1)

/-- `blobmsg_data` -/
def blobmsgData (mem : Bytes) (a : ℕ) : Option ℕ :=
  (blobIsExtended mem a).bind fun extended =>
    if extended then
      (blobmsgNamelen mem a).bind fun namelen => some (a + ATTR_SIZE + blobmsgHdrlen namelen)
    else some (a + ATTR_SIZE)

/-- `blobmsg_data_len` -/
def blobmsgDataLen (mem : Bytes) (a : ℕ) : Option ℕ :=
  (blobLen mem a).bind fun len =>
    (blobmsgData mem a).bind fun data =>
      some ((len + SIZE_MOD - (data - (a + ATTR_SIZE))) % SIZE_MOD)

/-- `__blob_for_each_attr`, `blob_for_each_attr` and `blob_for_each_attr_len`: the body goes on
    (`inl`) or leaves the loop (`inr`). The last of them also has a bound on `rem`. -/
def forEachAttr {β : Type} (mem : Bytes) (bound : ℕ → Bool) (body : β → ℕ → ℕ → Option (β ⊕ β)) :
    ℕ → β → ℕ → ℕ → Option β
  | 0, _, _, _ => none
  | fuel + 1, s, pos, rem =>
    if rem < ATTR_SIZE ∨ bound rem = false then some s
    else
      (blobPadLen mem pos).bind fun pad =>
        if pad ≤ rem ∧ ATTR_SIZE ≤ pad then
          (body s pos rem).bind fun r =>
            match r with
            | .inl s => forEachAttr mem bound body fuel s (pos + pad) (rem - pad)
            | .inr s => some s
        else some s

/-- The attributes that a loop visits, each with `rem`. -/
def attrsFrom (mem : Bytes) (pos rem : ℕ) : Option (List (ℕ × ℕ)) :=
  forEachAttr mem (fun _ => true) (fun acc pos rem => some (.inl (acc ++ [(pos, rem)])))
    (rem + 1) [] pos rem

/-! ## Checks -/

/-- The types of blob.h; a policy that does not check has `last`. -/
inductive BlobType where
  | unspec | nested | binary | string | int8 | int16 | int32 | int64 | double | last
  deriving DecidableEq, Repr

/-- `blob_type_minlen` -/
def blobTypeMinlen : BlobType → ℕ
  | .string => 1
  | .int8 => 1
  | .int16 => 2
  | .int32 => 4
  | .int64 => 8
  | .double => 8
  | .unspec | .nested | .binary | .last => 0

/-- The type is one of the integers. -/
def BlobType.isInt : BlobType → Bool
  | .int8 | .int16 | .int32 | .int64 => true
  | _ => false

/-- `blob_check_type` -/
def blobCheckType (mem : Bytes) (data len : ℕ) (type : BlobType) : Option Bool :=
  if type = .last then some false
  else if type.isInt ∧ len ≠ blobTypeMinlen type then some false
  else if ¬ type.isInt ∧ len < blobTypeMinlen type then some false
  else if type = .string then
    (bytesAt mem (data + (len - 1)) 1).bind fun c => some (decide (c = [0]))
  else some true

/-- `blob_type`; tables and arrays have none. -/
def BlobmsgType.blobType : BlobmsgType → Option BlobType
  | .int8 => some .int8
  | .int16 => some .int16
  | .int32 => some .int32
  | .int64 => some .int64
  | .double => some .double
  | .string => some .string
  | .unspec => some .binary
  | .array | .table => none

/-- The numbers of `enum blobmsg_type`. -/
def BlobmsgType.code : BlobmsgType → ℕ
  | .unspec => 0
  | .array => 1
  | .table => 2
  | .string => 3
  | .int64 => 4
  | .int32 => 5
  | .int16 => 6
  | .int8 => 7
  | .double => 8

def BlobmsgType.ofCode : ℕ → Option BlobmsgType
  | 0 => some .unspec
  | 1 => some .array
  | 2 => some .table
  | 3 => some .string
  | 4 => some .int64
  | 5 => some .int32
  | 6 => some .int16
  | 7 => some .int8
  | 8 => some .double
  | _ => none

/-- `blobmsg_check_name` -/
def blobmsgCheckName (mem : Bytes) (a : ℕ) (name : Bool) : Option Bool :=
  (blobIsExtended mem a).bind fun extended =>
    if ¬ extended then some !name
    else
      (blobLen mem a).bind fun len =>
        if len < HDR_SIZE then some false
        else
          (blobmsgNamelen mem a).bind fun namelen =>
            if name ∧ namelen = 0 then some false
            else if len < blobmsgHdrlen namelen then some false
            else
              (bytesAt mem (a + ATTR_SIZE + HDR_SIZE + namelen) 1).bind fun c =>
                some (decide (c = [0]))

/-- `blobmsg_check_attr_len` -/
def blobmsgCheckAttrLen (mem : Bytes) (a : ℕ) (name : Bool) (len : ℕ) : Option Bool :=
  if len < ATTR_SIZE then some false
  else
    (blobRawLen mem a).bind fun rawLen =>
      if rawLen < ATTR_SIZE ∨ len < rawLen then some false
      else
        (blobmsgCheckName mem a name).bind fun ok =>
          if ¬ ok then some false
          else
            (blobId mem a).bind fun id =>
              match BlobmsgType.ofCode id with
              | none => some false
              | some type =>
                match type.blobType with
                | none => some true
                | some blobType =>
                  (blobmsgData mem a).bind fun data =>
                    (blobmsgDataLen mem a).bind fun dataLen =>
                      blobCheckType mem data (dataLen % 2 ^ 32) blobType

/-- `blobmsg_check_attr` -/
def blobmsgCheckAttr (mem : Bytes) (a : ℕ) (name : Bool) : Option Bool :=
  (blobRawLen mem a).bind fun len => blobmsgCheckAttrLen mem a name len

/-- The body of the loop of `blobmsg_check_array_len`. -/
def checkElement (mem : Bytes) (type : Int) (name : Bool) (size : Int) (cur rem : ℕ) :
    Option (Int ⊕ Int) :=
  (blobId mem cur).bind fun id =>
    if type ≠ 0 ∧ (id : Int) ≠ type then some (.inr (-1))
    else
      (blobmsgCheckAttrLen mem cur name rem).bind fun ok =>
        if ¬ ok then some (.inr (-1)) else some (.inl (size + 1))

/-- `blobmsg_check_array_len`: the number of elements, or -1. -/
def blobmsgCheckArrayLen (mem : Bytes) (a : ℕ) (type : Int) (len : ℕ) : Option Int :=
  if BlobmsgType.double.code < type then some (-1)
  else
    (blobmsgCheckAttrLen mem a false len).bind fun ok =>
      if ¬ ok then some (-1)
      else
        (blobId mem a).bind fun id =>
          if id ≠ BlobmsgType.table.code ∧ id ≠ BlobmsgType.array.code then some (-1)
          else
            let name := decide (id = BlobmsgType.table.code)
            (blobmsgDataLen mem a).bind fun rem =>
              (blobmsgData mem a).bind fun pos =>
                forEachAttr mem (fun _ => true) (checkElement mem type name) (rem + 1) 0 pos rem

/-! ## Parsers -/

/-- A C string. -/
abbrev CStr := { s : Bytes // 0 ∉ s }

/-- The type of a policy entry: a type, or `BLOBMSG_CAST_INT64`. -/
inductive PolicyType where
  | of (type : BlobmsgType)
  | castInt64
  deriving DecidableEq, Repr

/-- `struct blobmsg_policy` -/
structure BlobmsgPolicy where
  name : Option CStr
  type : PolicyType

/-- The policy entry takes attributes with this id. -/
def PolicyType.admits (type : PolicyType) (id : ℕ) : Bool :=
  match type with
  | .of .unspec => true
  | .of type => id = type.code
  | .castInt64 => id = BlobmsgType.int64.code ∨ id = BlobmsgType.int32.code ∨
      id = BlobmsgType.int16.code ∨ id = BlobmsgType.int8.code

/-- `policy[i].type != BLOBMSG_TYPE_UNSPEC && blob_id(attr) != policy[i].type`, which
    `blobmsg_parse_array` tests, fails. -/
def PolicyType.is (type : PolicyType) (id : ℕ) : Bool :=
  match type with
  | .of .unspec => true
  | .of type => id = type.code
  | .castInt64 => id = BlobmsgType.double.code + 1

/-- `blobmsg_parse_array`: the result, and the table that it fills. The loop has the rest of the
    policy and the entries filled so far. -/
def blobmsgParseArray (mem : Bytes) (policy : List BlobmsgPolicy) (data len : ℕ) :
    Option (Int × List (Option ℕ)) :=
  (forEachAttr mem (fun _ => true) (fun (s : Int × List BlobmsgPolicy × List ℕ) attr rem =>
    match s.2.1 with
    | [] => none
    | p :: ps =>
      (blobId mem attr).bind fun id =>
        if ¬ p.type.is id then some (.inl s)
        else
          (blobmsgCheckAttrLen mem attr false rem).bind fun ok =>
            if ¬ ok then some (.inr (-1, s.2))
            else if ps = [] then some (.inr (s.1, ps, s.2.2 ++ [attr]))
            else some (.inl (s.1, ps, s.2.2 ++ [attr])))
    (len + 1) (0, policy, []) data len).bind fun s =>
      some (s.1, s.2.2.map some ++ List.replicate (policy.length - s.2.2.length) none)

/-- `!strcmp(s, p)` for the string at an address. -/
def strcmpEq (mem : Bytes) : ℕ → Bytes → Option Bool
  | a, [] => (bytesAt mem a 1).bind fun c => some (decide (c = [0]))
  | a, x :: xs => (bytesAt mem a 1).bind fun c =>
      if c = [x] then strcmpEq mem (a + 1) xs else some false

/-- The loop of `blobmsg_parse` over the policy, for one attribute. -/
def parsePolicy (mem : Bytes) (attr id namelen : ℕ) :
    List BlobmsgPolicy → List (Option ℕ) → Option (List (Option ℕ))
  | p :: ps, e :: tb =>
    let rest := fun e' => (parsePolicy mem attr id namelen ps tb).bind fun tb => some (e' :: tb)
    match p.name with
    | none => rest e
    | some pname =>
      if ¬ p.type.admits id then rest e
      else if namelen ≠ pname.1.length % 2 ^ 8 then rest e
      else if e.isSome then rest e
      else
        (strcmpEq mem (attr + ATTR_SIZE + HDR_SIZE) pname.1).bind fun eq =>
          rest (if eq then some attr else e)
  | _, tb => some tb

/-- `-EINVAL` -/
def EINVAL : Int := -22

/-- `blobmsg_parse` -/
def blobmsgParse (mem : Bytes) (policy : List BlobmsgPolicy) (data len : ℕ) :
    Option (Int × List (Option ℕ)) :=
  if len = 0 then some (EINVAL, policy.map fun _ => none)
  else
    forEachAttr mem (fun _ => true) (fun (s : Int × List (Option ℕ)) attr rem =>
      (blobmsgCheckAttrLen mem attr false rem).bind fun ok =>
        if ¬ ok then some (.inr (-1, s.2))
        else
          (blobIsExtended mem attr).bind fun extended =>
            if ¬ extended then some (.inl s)
            else
              (blobId mem attr).bind fun id =>
                (blobmsgNamelen mem attr).bind fun namelen =>
                  (parsePolicy mem attr id namelen policy s.2).bind fun tb => some (.inl (s.1, tb)))
      (len + 1) (0, policy.map fun _ => none) data len

/-- `struct blob_attr_info` -/
structure BlobAttrInfo where
  type : BlobType
  minlen : ℕ
  maxlen : ℕ
  validate : Option (ℕ → Bool)

/-- The checks of `blob_parse_attr` that a policy asks for. -/
def BlobAttrInfo.check (info : BlobAttrInfo) (mem : Bytes) (attr len dataLen : ℕ) : Option Bool :=
  (if info.type ≠ .last then blobCheckType mem (attr + ATTR_SIZE) (dataLen % 2 ^ 32) info.type
    else some true).bind fun ok =>
      some (ok ∧ ¬ (info.minlen ≠ 0 ∧ len < info.minlen) ∧ ¬ (info.maxlen ≠ 0 ∧ info.maxlen < len) ∧
        (info.validate.all fun validate => validate attr))

/-- `blob_parse_attr`: whether the entry was empty, and the table. There is an entry for each id
    below `max`. -/
def blobParseAttr (mem : Bytes) (attr attrLen : ℕ) (info : Option (ℕ → BlobAttrInfo))
    (data : List (Option ℕ)) : Option (ℕ × List (Option ℕ)) :=
  if attrLen < ATTR_SIZE then some (0, data)
  else
    (blobId mem attr).bind fun id =>
      if data.length ≤ id then some (0, data)
      else
        (blobRawLen mem attr).bind fun len =>
          if attrLen < len ∨ len < ATTR_SIZE then some (0, data)
          else
            (blobLen mem attr).bind fun dataLen =>
              if len < dataLen then some (0, data)
              else
                (match info with
                | none => some true
                | some info => (info id).check mem attr len dataLen).bind fun ok =>
                  if ¬ ok then some (0, data)
                  else some (if (data.getD id none).isSome then 0 else 1, data.set id (some attr))

/-- `blob_parse_untrusted`; the table is not written when the buffer is too short. -/
def blobParseUntrusted (mem : Bytes) (attr attrLen : ℕ) (data : List (Option ℕ))
    (info : Option (ℕ → BlobAttrInfo)) : Option (ℕ × Option (List (Option ℕ))) :=
  if attrLen < ATTR_SIZE then some (0, none)
  else
    (blobRawLen mem attr).bind fun len =>
      if attrLen < len then some (0, none)
      else
        (blobLen mem attr).bind fun rem =>
          (forEachAttr mem (fun rem => decide (rem < len)) (fun (s : ℕ × List (Option ℕ)) pos rem =>
            (blobParseAttr mem pos rem info s.2).bind fun r => some (.inl (s.1 + r.1, r.2)))
            (len + 1) (0, data.map fun _ => none) (attr + ATTR_SIZE) rem).bind fun s =>
              some (s.1, some s.2)

end Blobmsg
