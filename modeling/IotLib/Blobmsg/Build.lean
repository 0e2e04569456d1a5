/-
  Writing blobmsg values into a buffer (blob.c, blobmsg.c).

  A pointer into the buffer belongs to the block that the last `realloc` returned: using it
  after the buffer has moved fails, as does writing outside of the block.
-/
import IotLib.Blobmsg.Format

namespace Blobmsg

/-! ## Memory -/

/-- `memcpy` and `memset` to an address. -/
def writeAt (mem : Bytes) (a : ℕ) (bs : Bytes) : Option Bytes :=
  if a + bs.length ≤ mem.length then some (mem.take a ++ bs ++ mem.drop (a + bs.length)) else none

/-- A pointer into a block. -/
structure BufPtr where
  gen : ℕ
  off : ℕ
  deriving DecidableEq, Repr

/-- `struct blob_buf`; `gen` counts the blocks of the buffer. -/
structure BlobBuf where
  mem : Bytes
  gen : ℕ
  head : BufPtr
  deriving DecidableEq, Repr

/-- The offset of a pointer, if it is one into the block of the buffer. -/
def BlobBuf.deref (buf : BlobBuf) (p : BufPtr) : Option ℕ := if p.gen = buf.gen then some p.off else none

/-! ## Blobs -/

/-- `blob_buffer_grow`, which leaves `head` behind. -/
def blobBufferGrow (buf : BlobBuf) (minlen : ℕ) : BlobBuf :=
  { buf with
    mem := buf.mem ++ List.replicate ((minlen / 256 + 1) * 256) 0
    gen := buf.gen + 1 }

/-- `blob_buf_grow` -/
def blobBufGrow (buf : BlobBuf) (required : ℕ) : Option BlobBuf :=
  (buf.deref buf.head).bind fun offset =>
    if BLOB_ATTR_LEN_MASK < buf.mem.length + required then none
    else
      let buf := blobBufferGrow buf required
      some { buf with head := ⟨buf.gen, offset⟩ }

/-- `blob_init` -/
def blobInit (mem : Bytes) (a id len : ℕ) : Option Bytes :=
  writeAt mem a (beBytes 4 (len % 2 ^ 24 + id % 2 ^ 7 * 2 ^ 24))

/-- `blob_fill_pad` -/
def blobFillPad (mem : Bytes) (a : ℕ) : Option Bytes :=
  (blobRawLen mem a).bind fun rawLen =>
    (blobPadLen mem a).bind fun padLen =>
      writeAt mem (a + rawLen) (List.replicate (padLen - rawLen) 0)

/-- `blob_set_raw_len` -/
def blobSetRawLen (mem : Bytes) (a len : ℕ) : Option Bytes :=
  (idLen mem a).bind fun x => writeAt mem a (beBytes 4 (x - x % 2 ^ 24 + len % 2 ^ 24))

/-- The change of a block. -/
def BlobBuf.update (buf : BlobBuf) (f : Bytes → Option Bytes) : Option BlobBuf :=
  (f buf.mem).bind fun mem => some { buf with mem := mem }

/-- `blob_add` -/
def blobAdd (buf : BlobBuf) (pos : BufPtr) (id payload : ℕ) : Option (BufPtr × BlobBuf) :=
  (buf.deref pos).bind fun offset =>
    (if buf.mem.length < offset + ATTR_SIZE + payload then
      (blobBufGrow buf (offset + ATTR_SIZE + payload - buf.mem.length)).bind fun buf =>
        some ((⟨buf.gen, offset⟩ : BufPtr), buf)
    else some (pos, buf)).bind fun (attr, buf) =>
      (buf.deref attr).bind fun a =>
        (buf.update fun mem =>
          (blobInit mem a id (payload + ATTR_SIZE)).bind fun mem => blobFillPad mem a).bind fun buf =>
            some (attr, buf)

/-- `blob_next` -/
def blobNext (buf : BlobBuf) (p : BufPtr) : Option BufPtr :=
  (buf.deref p).bind fun a => (blobPadLen buf.mem a).bind fun pad => some ⟨buf.gen, a + pad⟩

/-- `blob_buf_init` on a buffer with any contents. -/
def blobBufInit (mem : Bytes) (id : ℕ) : Option BlobBuf :=
  (blobAdd ⟨mem, 0, ⟨0, 0⟩⟩ ⟨0, 0⟩ id 0).bind fun r => some r.2

/-- `blob_new` -/
def blobNew (buf : BlobBuf) (id payload : ℕ) : Option (BufPtr × BlobBuf) :=
  (blobNext buf buf.head).bind fun pos =>
    (blobAdd buf pos id payload).bind fun (attr, buf) =>
      (buf.deref attr).bind fun a =>
        (buf.deref buf.head).bind fun h =>
          (blobPadLen buf.mem h).bind fun headPad =>
            (blobPadLen buf.mem a).bind fun attrPad =>
              (buf.update fun mem => blobSetRawLen mem h (headPad + attrPad)).bind fun buf =>
                some (attr, buf)

/-- `blob_nest_end`; a cookie is an offset plus `BLOB_COOKIE`. -/
def BLOB_COOKIE : ℕ := 0x01234567

def blobNestEnd (buf : BlobBuf) (cookie : ℕ) : Option BlobBuf :=
  let attr := cookie - BLOB_COOKIE
  (buf.deref buf.head).bind fun h =>
    (blobLen buf.mem h).bind fun len =>
      (blobPadLen buf.mem attr).bind fun pad =>
        (buf.update fun mem => blobSetRawLen mem attr (pad + len)).bind fun buf =>
          some { buf with head := ⟨buf.gen, attr⟩ }

/-! ## Named attributes -/

/-- `attr->id_len |= BLOB_ATTR_EXTENDED` -/
def setExtended (mem : Bytes) (a : ℕ) : Option Bytes :=
  (idLen mem a).bind fun x => writeAt mem a (beBytes 4 (if x / 2 ^ 31 % 2 = 1 then x else x + 2 ^ 31))

/-- The part of `blobmsg_new` that writes the name. -/
def putName (mem : Bytes) (a : ℕ) (name : Bytes) : Option Bytes :=
  (writeAt mem (a + ATTR_SIZE) (beBytes 2 name.length)).bind fun mem =>
    (writeAt mem (a + ATTR_SIZE + HDR_SIZE) name).bind fun mem =>
      (writeAt mem (a + ATTR_SIZE + HDR_SIZE + name.length) [0]).bind fun mem =>
        (blobmsgData mem a).bind fun data =>
          let padStart := a + ATTR_SIZE + HDR_SIZE + name.length
          writeAt mem padStart (List.replicate (data - padStart) 0)

/-- `blobmsg_new`: the attribute, and where its payload goes. -/
def blobmsgNew (buf : BlobBuf) (type : ℕ) (name : Bytes) (payloadLen : ℕ) :
    Option (BufPtr × BufPtr × BlobBuf) :=
  (blobNew buf type (blobmsgHdrlen name.length + payloadLen)).bind fun (attr, buf) =>
    (buf.deref attr).bind fun a =>
      (buf.update fun mem => (setExtended mem a).bind fun mem => putName mem a name).bind fun buf =>
        (blobmsgData buf.mem a).bind fun data => some (attr, ⟨buf.gen, data⟩, buf)

/-- `blobmsg_add_field` -/
def blobmsgAddField (buf : BlobBuf) (type : ℕ) (name data : Bytes) : Option BlobBuf :=
  (blobmsgNew buf type name data.length).bind fun (_, dest, buf) =>
    (buf.deref dest).bind fun d => buf.update fun mem => writeAt mem d data

/-- `blobmsg_add_blob` -/
def blobmsgAddBlob (buf : BlobBuf) (mem : Bytes) (a : ℕ) : Option BlobBuf :=
  (blobId mem a).bind fun type =>
    (cstrAt mem (a + ATTR_SIZE + HDR_SIZE)).bind fun name =>
      (blobmsgData mem a).bind fun data =>
        (blobmsgDataLen mem a).bind fun len =>
          (bytesAt mem data len).bind fun payload => blobmsgAddField buf type name payload

/-- `blobmsg_open_nested`: the cookie. -/
def blobmsgOpenNested (buf : BlobBuf) (name : Bytes) (array : Bool) : Option (ℕ × BlobBuf) :=
  (buf.deref buf.head).bind fun h =>
    (blobmsgNew buf (if array then BlobmsgType.array.code else BlobmsgType.table.code) name 0).bind
      fun (head, _, buf) =>
        (buf.deref buf.head).bind fun parent =>
          (blobPadLen buf.mem parent).bind fun pad =>
            (buf.update fun mem =>
              blobSetRawLen mem parent (pad + 2 ^ 32 - blobmsgHdrlen name.length)).bind fun buf =>
                some (h + BLOB_COOKIE, { buf with head := head })

/-- `blobmsg_alloc_string_buffer`: where the string goes. -/
def blobmsgAllocStringBuffer (buf : BlobBuf) (name : Bytes) (maxlen : ℕ) :
    Option (BufPtr × BlobBuf) :=
  (blobmsgNew buf BlobmsgType.string.code name (maxlen + 1)).bind fun (attr, dest, buf) =>
    (buf.deref attr).bind fun a =>
      (buf.deref buf.head).bind fun h =>
        (blobPadLen buf.mem h).bind fun headPad =>
          (blobPadLen buf.mem a).bind fun attrPad =>
            (buf.update fun mem => blobSetRawLen mem h (headPad + 2 ^ 32 - attrPad)).bind fun buf =>
              (blobRawLen buf.mem a).bind fun rawLen =>
                (buf.update fun mem =>
                  blobSetRawLen mem a (rawLen + 2 ^ 32 - (maxlen + 1))).bind fun buf => some (dest, buf)

/-- `blobmsg_realloc_string_buffer`: where the string is now. -/
def blobmsgReallocStringBuffer (buf : BlobBuf) (maxlen : ℕ) : Option (BufPtr × BlobBuf) :=
  (blobNext buf buf.head).bind fun attr =>
    (buf.deref attr).bind fun a =>
      (blobPadLen buf.mem a).bind fun pad =>
        (if buf.mem.length < a + pad + (maxlen + 1) then
          (blobBufGrow buf (a + pad + (maxlen + 1) - buf.mem.length)).bind fun buf =>
            (blobNext buf buf.head).bind fun attr => some (attr, buf)
        else some (attr, buf)).bind fun (attr, buf) =>
          (buf.deref attr).bind fun a =>
            (blobmsgData buf.mem a).bind fun data => some ((⟨buf.gen, data⟩ : BufPtr), buf)

/-- `blobmsg_add_string_buffer` -/
def blobmsgAddStringBuffer (buf : BlobBuf) : Option BlobBuf :=
  (blobNext buf buf.head).bind fun attr =>
    (buf.deref attr).bind fun a =>
      (blobmsgData buf.mem a).bind fun data =>
        (strlenAt buf.mem data).bind fun len =>
          (blobRawLen buf.mem a).bind fun rawLen =>
            (buf.update fun mem =>
              (blobSetRawLen mem a (rawLen + (len + 1))).bind fun mem => blobFillPad mem a).bind
              fun buf =>
                (buf.deref buf.head).bind fun h =>
                  (blobRawLen buf.mem h).bind fun headLen =>
                    (blobPadLen buf.mem a).bind fun attrPad =>
                      buf.update fun mem => blobSetRawLen mem h (headLen + attrPad)

/-! ## Sequences of calls -/

/-- What the program does with a string buffer before it is added. -/
inductive Edit where
  | realloc (maxlen : ℕ)
  | write (off : ℕ) (bytes : Bytes)

/-- The buffer after the edits, and where its string is. -/
def runEdits : List Edit → BufPtr → BlobBuf → Option (BufPtr × BlobBuf)
  | [], dest, buf => some (dest, buf)
  | .realloc maxlen :: es, _, buf =>
    (blobmsgReallocStringBuffer buf maxlen).bind fun (dest, buf) => runEdits es dest buf
  | .write off bytes :: es, dest, buf =>
    (buf.deref dest).bind fun d =>
      (buf.update fun mem => writeAt mem (d + off) bytes).bind fun buf => runEdits es dest buf

/-- `blobmsg_vprintf`, where `text` is what `vsnprintf` writes. -/
def blobmsgVprintf (buf : BlobBuf) (name text : Bytes) : Option BlobBuf :=
  (blobmsgAllocStringBuffer buf name text.length).bind fun (dest, buf) =>
    (buf.deref dest).bind fun d =>
      (buf.update fun mem => writeAt mem d (text ++ [0])).bind fun buf => blobmsgAddStringBuffer buf

/-- The payloads of the functions `blobmsg_add_*`. -/
inductive Value where
  | raw (bytes : Bytes)
  | string (s : CStr)
  | int64 (v : UInt64)
  | int32 (v : UInt32)
  | int16 (v : UInt16)
  | int8 (v : UInt8)
  | double (bits : UInt64)

def Value.type : Value → LeafType
  | raw _ => .unspec
  | string _ => .string
  | int64 _ => .int64
  | int32 _ => .int32
  | int16 _ => .int16
  | int8 _ => .int8
  | double _ => .double

def Value.payload : Value → Bytes
  | raw bytes => bytes
  | string s => s.1 ++ [0]
  | int64 v => beBytes 8 v.toNat
  | int32 v => beBytes 4 v.toNat
  | int16 v => beBytes 2 v.toNat
  | int8 v => [v]
  | double bits => beBytes 8 bits.toNat

/-- What the edits of a string buffer leave at a position, as far as they say. -/
def Edit.apply (content : ℕ → Option UInt8) : Edit → ℕ → Option UInt8
  | realloc _, i => content i
  | write off bytes, i =>
    if off ≤ i ∧ i < off + bytes.length then bytes[i - off]? else content i

/-- Every write stays inside the string buffer as it was last asked for. -/
def EditsFit : ℕ → List Edit → Prop
  | _, [] => True
  | _, .realloc maxlen :: es => EditsFit maxlen es
  | maxlen, .write off bytes :: es => off + bytes.length ≤ maxlen + 1 ∧ EditsFit maxlen es

/-- The use of a string buffer, which spells a C string. -/
structure StringBuffer where
  maxlen : ℕ
  edits : List Edit
  text : CStr
  fit : EditsFit maxlen edits
  spells : ∀ i b, (text.1 ++ [0])[i]? = some b → edits.foldl Edit.apply (fun _ => none) i = some b

/-- A name that fits the field for its length. -/
abbrev Name := { s : Bytes // 0 ∉ s ∧ s.length < 2 ^ 16 }

/-- A properly nested sequence of calls writes items: a field, a copy of another attribute, the
    calls between an open and its close, a string buffer, or a formatted string. -/
inductive Item where
  | field (name : Option Name) (value : Value)
  | blob (src : Source)
  | nest (name : Option Name) (array : Bool) (items : List Item)
  | text (name : Option Name) (buffer : StringBuffer)
  | printf (name : Option Name) (text : Bytes)

/-- `if (!name) name = ""` -/
def nameBytes : Option Name → Bytes
  | none => []
  | some name => name.1

mutual

/-- The calls that write an item. -/
def build : Item → BlobBuf → Option BlobBuf
  | .field name value, buf =>
    blobmsgAddField buf value.type.toType.code (nameBytes name) value.payload
  | .blob src, buf => blobmsgAddBlob buf src.mem src.addr
  | .nest name array items, buf =>
    (blobmsgOpenNested buf (nameBytes name) array).bind fun (cookie, buf) =>
      (buildAll items buf).bind fun buf => blobNestEnd buf cookie
  | .text name buffer, buf =>
    (blobmsgAllocStringBuffer buf (nameBytes name) buffer.maxlen).bind fun (dest, buf) =>
      (runEdits buffer.edits dest buf).bind fun (_, buf) => blobmsgAddStringBuffer buf
  | .printf name text, buf => blobmsgVprintf buf (nameBytes name) text

/-- The calls that write items one after the other. -/
def buildAll : List Item → BlobBuf → Option BlobBuf
  | [], buf => some buf
  | item :: items, buf => (build item buf).bind fun buf => buildAll items buf

end

/-- A buffer is set up, with any contents, and items are written into it. -/
def buildBuf (mem : Bytes) (id : ℕ) (items : List Item) : Option BlobBuf :=
  (blobBufInit mem id).bind fun buf => buildAll items buf

end Blobmsg
