/-
  Appending to a blob buffer when the message is full or the memory is short (blob.c, blobmsg.c):
  lengths are machine integers, `realloc` may fail, and the head of a buffer may be NULL.

  What dereferences NULL or a pointer into an old block, or writes outside of the block, has no
  result.
-/
import IotLib.Blobmsg.Build

namespace Blobmsg.Machine

/-! ## Machine integers -/

/-- A value as an `int`. -/
def toInt (x : ℤ) : ℤ := (x + 2 ^ 31) % 2 ^ 32 - 2 ^ 31

/-- A value as an `unsigned int`. -/
def toUInt (x : ℤ) : ℕ := (x % 2 ^ 32).toNat

/-- `blobmsg_hdrlen` of an `unsigned int`. -/
def blobmsgHdrlenInt (namelen : ℕ) : ℤ := toInt (pad4 (HDR_SIZE + namelen + 1))

/-! ## Buffers -/

/-- `struct blob_buf`, with `blob_buffer_grow` for `grow`. -/
structure Buf where
  mem : Bytes
  gen : ℕ
  head : Option BufPtr
  deriving DecidableEq, Repr

/-- The offset of a pointer into the block. -/
def Buf.deref (buf : Buf) (p : BufPtr) : Option ℕ := if p.gen = buf.gen then some p.off else none

/-- The offset of the head. -/
def Buf.headOff (buf : Buf) : Option ℕ := buf.head.bind buf.deref

/-- The change of a block. -/
def Buf.update (buf : Buf) (f : Bytes → Option Bytes) : Option Buf :=
  (f buf.mem).map fun mem => { buf with mem := mem }

/-- `blob_buffer_grow`; `alloc` says whether there is memory. A negative size is a `size_t` that no
    memory is large enough for. -/
def blobBufferGrow (alloc : Bool) (buf : Buf) (minlen : ℤ) : Option Buf :=
  let delta := toInt ((minlen / 256 + 1) * 256)
  if alloc ∧ 0 ≤ toInt (buf.mem.length + delta) then
    some { buf with mem := buf.mem ++ List.replicate delta.toNat 0, gen := buf.gen + 1 }
  else none

/-- `blob_buf_grow` -/
def blobBufGrow (alloc : Bool) (buf : Buf) (required : ℤ) : Option (Bool × Buf) :=
  buf.headOff.bind fun offset =>
    if BLOB_ATTR_LEN_MASK < toInt (buf.mem.length + required) then some (false, buf)
    else
      match blobBufferGrow alloc buf required with
      | none => some (false, buf)
      | some buf => some (true, { buf with head := some ⟨buf.gen, offset⟩ })

/-- `blob_fill_pad` -/
def blobFillPad (mem : Bytes) (a : ℕ) : Option Bytes :=
  (blobRawLen mem a).bind fun rawLen =>
    (blobPadLen mem a).bind fun padLen =>
      if rawLen < padLen then writeAt mem (a + rawLen) (List.replicate (padLen - rawLen) 0)
      else some mem

/-- `blob_add`: the attribute, or NULL. -/
def blobAdd (alloc : Bool) (buf : Buf) (pos : BufPtr) (id : ℕ) (payload : ℤ) :
    Option (Option BufPtr × Buf) :=
  (buf.deref pos).bind fun offset =>
    let required := toInt (offset + ATTR_SIZE + payload - buf.mem.length)
    (if 0 < required then
      (blobBufGrow alloc buf required).map fun (ok, buf) =>
        (if ok then some ⟨buf.gen, offset⟩ else none, buf)
    else some (some pos, buf)).bind fun (attr, buf) =>
      match attr with
      | none => some (none, buf)
      | some attr =>
        (buf.update fun mem =>
          (blobInit mem offset id (toUInt (payload + ATTR_SIZE))).bind fun mem =>
            blobFillPad mem offset).map fun buf => (some attr, buf)

/-- `blob_next` of the head. -/
def blobNextHead (buf : Buf) : Option BufPtr :=
  buf.headOff.bind fun h => (blobPadLen buf.mem h).map fun pad => ⟨buf.gen, h + pad⟩

/-- `blob_buf_init` on a buffer with any block: whether it returns 0. -/
def blobBufInit (alloc : Bool) (buf : Buf) (id : ℕ) : Option (Bool × Buf) :=
  (blobAdd alloc { buf with head := some ⟨buf.gen, 0⟩ } ⟨buf.gen, 0⟩ id 0).map fun (attr, buf) =>
    (attr.isSome, buf)

/-- `blob_new` -/
def blobNew (alloc : Bool) (buf : Buf) (id : ℕ) (payload : ℤ) : Option (Option BufPtr × Buf) :=
  (blobNextHead buf).bind fun pos =>
    (blobAdd alloc buf pos id payload).bind fun (attr, buf) =>
      match attr with
      | none => some (none, buf)
      | some attr =>
        (buf.deref attr).bind fun a =>
          buf.headOff.bind fun h =>
            (blobPadLen buf.mem h).bind fun headPad =>
              (blobPadLen buf.mem a).bind fun attrPad =>
                (buf.update fun mem => blobSetRawLen mem h (headPad + attrPad)).map fun buf =>
                  (some attr, buf)

/-- What goes into an attribute: the bytes at a pointer, or, for NULL, room for a number of them. -/
inductive Payload where
  | bytes (bs : Bytes)
  | room (len : ℕ)
  deriving DecidableEq, Repr

def Payload.len : Payload → ℕ
  | bytes bs => bs.length
  | room len => len

/-- `blob_put_raw` of NULL or of the bytes at a pointer. -/
def blobPutRaw (alloc : Bool) (buf : Buf) (ptr : Option Bytes) : Option (Option BufPtr × Buf) :=
  match ptr with
  | none => some (none, buf)
  | some src =>
    if src.length < ATTR_SIZE then some (none, buf)
    else
      (blobNextHead buf).bind fun pos =>
        (blobAdd alloc buf pos 0 (toInt (src.length - ATTR_SIZE))).bind fun (attr, buf) =>
          match attr with
          | none => some (none, buf)
          | some attr =>
            (buf.deref attr).bind fun a =>
              buf.headOff.bind fun h =>
                (blobPadLen buf.mem h).bind fun headPad =>
                  (buf.update fun mem =>
                    (blobSetRawLen mem h (headPad + src.length)).bind fun mem =>
                      writeAt mem a src).map fun buf => (some attr, buf)

/-- `blob_put` -/
def blobPut (alloc : Bool) (buf : Buf) (id : ℕ) (payload : Payload) :
    Option (Option BufPtr × Buf) :=
  (blobNew alloc buf id (toInt payload.len)).bind fun (attr, buf) =>
    match attr with
    | none => some (none, buf)
    | some attr =>
      match payload with
      | .room _ => some (some attr, buf)
      | .bytes bs =>
        (buf.deref attr).bind fun a =>
          (buf.update fun mem => writeAt mem (a + ATTR_SIZE) bs).map fun buf => (some attr, buf)

/-- `blob_nest_start`: the cookie. -/
def blobNestStart (alloc : Bool) (buf : Buf) (id : ℕ) : Option (Option ℕ × Buf) :=
  buf.headOff.bind fun h =>
    (blobNew alloc buf id 0).map fun (attr, buf) =>
      (attr.map fun _ => h + BLOB_COOKIE, { buf with head := attr })

/-- `blob_nest_end`; a cookie is an offset plus `BLOB_COOKIE`. -/
def blobNestEnd (buf : Buf) (cookie : ℕ) : Option Buf :=
  if cookie < BLOB_COOKIE then none
  else
    let attr := cookie - BLOB_COOKIE
    buf.headOff.bind fun h =>
      (blobLen buf.mem h).bind fun len =>
        (blobPadLen buf.mem attr).bind fun pad =>
          (buf.update fun mem => blobSetRawLen mem attr (pad + len)).map fun buf =>
            { buf with head := some ⟨buf.gen, attr⟩ }

/-! ## Named attributes -/

/-- `if (!name) name = ""` -/
def nameOf (name : Option CStr) : Bytes :=
  match name with
  | none => []
  | some name => name.1

/-- The part of `blobmsg_new` that writes the name; a negative length is too much to copy. -/
def putNameN (mem : Bytes) (a : ℕ) (name : Bytes) (namelen : ℤ) : Option Bytes :=
  if namelen < 0 then none else putName mem a (name.take namelen.toNat)

/-- `blobmsg_new`: the attribute and where its payload goes, or NULL. -/
def blobmsgNew (alloc : Bool) (buf : Buf) (type : ℕ) (name : Bytes) (payloadLen : ℤ) :
    Option (Option (BufPtr × BufPtr) × Buf) :=
  let namelen := toInt name.length
  let attrlen := toInt (blobmsgHdrlenInt (toUInt namelen) + payloadLen)
  (blobNew alloc buf type attrlen).bind fun (attr, buf) =>
    match attr with
    | none => some (none, buf)
    | some attr =>
      (buf.deref attr).bind fun a =>
        (buf.update fun mem =>
          (setExtended mem a).bind fun mem => putNameN mem a name namelen).bind fun buf =>
            (blobmsgData buf.mem a).map fun data => (some (attr, ⟨buf.gen, data⟩), buf)

/-- `blobmsg_add_field`: whether it returns 0. -/
def blobmsgAddField (alloc : Bool) (buf : Buf) (type : ℕ) (name : Option CStr) (data : Bytes) :
    Option (Bool × Buf) :=
  (blobmsgNew alloc buf type (nameOf name) (toInt data.length)).bind fun (r, buf) =>
    match r with
    | none => some (false, buf)
    | some (_, dest) =>
      (buf.deref dest).bind fun d =>
        (buf.update fun mem => writeAt mem d data).map fun buf => (true, buf)

/-- `blobmsg_open_nested`: the cookie. -/
def blobmsgOpenNested (alloc : Bool) (buf : Buf) (name : Option CStr) (array : Bool) :
    Option (Option ℕ × Buf) :=
  buf.headOff.bind fun offset =>
    (blobmsgNew alloc buf (if array then BlobmsgType.array.code else BlobmsgType.table.code)
      (nameOf name) 0).bind fun (r, buf) =>
        match r with
        | none => some (none, buf)
        | some (head, _) =>
          buf.headOff.bind fun h =>
            (blobPadLen buf.mem h).bind fun pad =>
              (buf.update fun mem =>
                blobSetRawLen mem h
                  (toUInt (pad - blobmsgHdrlenInt (toUInt (nameOf name).length)))).map fun buf =>
                    (some (offset + BLOB_COOKIE), { buf with head := some head })

/-- `blobmsg_alloc_string_buffer`: where the string goes. -/
def blobmsgAllocStringBuffer (alloc : Bool) (buf : Buf) (name : Option CStr) (maxlen : ℕ) :
    Option (Option BufPtr × Buf) :=
  let maxlen := toUInt (maxlen + 1)
  (blobmsgNew alloc buf BlobmsgType.string.code (nameOf name) (toInt maxlen)).bind fun (r, buf) =>
    match r with
    | none => some (none, buf)
    | some (attr, dest) =>
      (buf.deref attr).bind fun a =>
        buf.headOff.bind fun h =>
          (blobPadLen buf.mem h).bind fun headPad =>
            (blobPadLen buf.mem a).bind fun attrPad =>
              (buf.update fun mem => blobSetRawLen mem h (toUInt (headPad - attrPad))).bind fun buf =>
                (blobRawLen buf.mem a).bind fun rawLen =>
                  (buf.update fun mem => blobSetRawLen mem a (toUInt (rawLen - maxlen))).map fun buf =>
                    (some dest, buf)

/-- `blobmsg_realloc_string_buffer`: where the string is now. -/
def blobmsgReallocStringBuffer (alloc : Bool) (buf : Buf) (maxlen : ℕ) :
    Option (Option BufPtr × Buf) :=
  buf.headOff.bind fun h =>
    (blobPadLen buf.mem h).bind fun headPad =>
      (blobPadLen buf.mem (h + headPad)).bind fun pad =>
        let required := toInt (maxlen + 1 - (buf.mem.length - (h + headPad + pad)))
        (if 0 < required then blobBufGrow alloc buf required else some (true, buf)).bind
          fun (ok, buf) =>
            if ok then
              (blobNextHead buf).bind fun attr =>
                (buf.deref attr).bind fun a =>
                  (blobmsgData buf.mem a).map fun data => (some ⟨buf.gen, data⟩, buf)
            else some (none, buf)

/-- `blobmsg_add_string_buffer` -/
def blobmsgAddStringBuffer (buf : Buf) : Option Buf :=
  (blobNextHead buf).bind fun attr =>
    (buf.deref attr).bind fun a =>
      (blobmsgData buf.mem a).bind fun data =>
        (strlenAt buf.mem data).bind fun len =>
          (blobRawLen buf.mem a).bind fun rawLen =>
            (buf.update fun mem =>
              (blobSetRawLen mem a (toUInt (rawLen + (len + 1)))).bind fun mem =>
                blobFillPad mem a).bind fun buf =>
                  buf.headOff.bind fun h =>
                    (blobRawLen buf.mem h).bind fun headLen =>
                      (blobPadLen buf.mem a).bind fun attrPad =>
                        buf.update fun mem => blobSetRawLen mem h (headLen + attrPad)

/-! ## Calls -/

/-- The calls that write into a buffer. -/
inductive Call where
  | new (id payload : ℕ)
  | put (id : ℕ) (payload : Payload)
  | putRaw (ptr : Option Bytes)
  | nestStart (id : ℕ)
  | addField (type : ℕ) (name : Option CStr) (data : Bytes)
  | openNested (name : Option CStr) (array : Bool)
  | allocString (name : Option CStr) (maxlen : ℕ)
  | reallocString (maxlen : ℕ)
  | write (off : ℕ) (bytes : Bytes)
  | addString
  | nestEnd (cookie : ℕ)

/-- A call: whether it succeeds, and the buffer after it. A `write` is the program's own, into the
    string buffer at the end of the message. -/
def run (alloc : Bool) (buf : Buf) : Call → Option (Bool × Buf)
  | .new id payload => (blobNew alloc buf id (toInt payload)).map fun (r, buf) => (r.isSome, buf)
  | .put id payload => (blobPut alloc buf id payload).map fun (r, buf) => (r.isSome, buf)
  | .putRaw ptr => (blobPutRaw alloc buf ptr).map fun (r, buf) => (r.isSome, buf)
  | .nestStart id => (blobNestStart alloc buf id).map fun (r, buf) => (r.isSome, buf)
  | .addField type name data => blobmsgAddField alloc buf type name data
  | .openNested name array =>
    (blobmsgOpenNested alloc buf name array).map fun (r, buf) => (r.isSome, buf)
  | .allocString name maxlen =>
    (blobmsgAllocStringBuffer alloc buf name maxlen).map fun (r, buf) => (r.isSome, buf)
  | .reallocString maxlen =>
    (blobmsgReallocStringBuffer alloc buf maxlen).map fun (r, buf) => (r.isSome, buf)
  | .write off bytes =>
    (blobNextHead buf).bind fun attr =>
      (buf.deref attr).bind fun a =>
        (blobmsgData buf.mem a).bind fun data =>
          (buf.update fun mem => writeAt mem (data + off) bytes).map fun buf => (true, buf)
  | .addString => (blobmsgAddStringBuffer buf).map fun buf => (true, buf)
  | .nestEnd cookie => (blobNestEnd buf cookie).map fun buf => (true, buf)

end Blobmsg.Machine
