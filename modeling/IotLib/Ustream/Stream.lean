/-
  Stream buffers (ustream.c): two lists of buffers, one for what is written and one for what is
  read.

  A buffer has an address. Using one that was freed fails, as does an access outside of its block,
  and so does `abort`. The functions that the stream is used with are parameters: how many bytes
  `s->write` accepts, and whether `malloc` succeeds, at each call.
-/
import IotLib.Lib.Block

namespace Ustream

abbrev Bytes := List UInt8

/-! ## Lists of buffers -/

/-- `struct ustream_buf`: the block, with the offsets `data`, `tail` and `end`. -/
structure Buf where
  mem : Bytes
  data : ℕ
  tail : ℕ
  size : ℕ

/-- `struct ustream_buf_list` -/
structure BufList where
  bufs : ℕ → Option Buf
  next : ℕ → Option ℕ
  fresh : ℕ
  head : Option ℕ
  dataTail : Option ℕ
  tail : Option ℕ
  dataBytes : ℤ
  minBuffers : ℤ
  maxBuffers : ℤ
  bufferLen : ℕ
  buffers : ℤ

def BufList.setBuf (l : BufList) (a : ℕ) (buf : Buf) : BufList :=
  { l with bufs := Function.update l.bufs a (some buf) }

/-- `ustream_init_buf`, on the block of a buffer. -/
def ustreamInitBuf (mem : Bytes) (len : ℕ) : Option Buf :=
  if len = 0 then none
  else (Block.write mem 0 [0]).bind fun mem => some ⟨mem, 0, 0, len⟩

/-- `ustream_add_buf` -/
def ustreamAddBuf (l : BufList) (a : ℕ) : BufList :=
  let l := { l with buffers := l.buffers + 1 }
  let l :=
    match l.tail with
    | none => { l with head := some a }
    | some t => { l with next := Function.update l.next t (some a) }
  let l := { l with next := Function.update l.next a none, tail := some a }
  if l.dataTail = none then { l with dataTail := l.head } else l

/-- `ustream_can_alloc` -/
def ustreamCanAlloc (l : BufList) : Bool := l.maxBuffers ≤ 0 ∨ l.buffers < l.maxBuffers

/-- `ustream_alloc_default`: whether there is a new buffer. -/
def ustreamAllocDefault (stringData malloc : Bool) (l : BufList) : Option (Bool × BufList) :=
  if ¬ ustreamCanAlloc l then some (false, l)
  else if ¬ malloc then some (false, l)
  else
    (ustreamInitBuf (List.replicate (l.bufferLen + stringData.toNat) 0) l.bufferLen).bind fun buf =>
      some (true, ustreamAddBuf { l.setBuf l.fresh buf with fresh := l.fresh + 1 } l.fresh)

/-- `ustream_should_move` -/
def ustreamShouldMove (l : BufList) (a : ℕ) (buf : Buf) (len : ℕ) : Bool :=
  if buf.data = 0 then false
  else if buf.size / 2 < buf.data then true
  else if buf.tail - buf.data < 32 ∧ buf.size / 4 < buf.data then true
  else if some a ≠ l.tail ∨ ustreamCanAlloc l then false
  else buf.size - buf.tail < len

/-- `ustream_free_buf` -/
def ustreamFreeBuf (l : BufList) (a : ℕ) : Option BufList :=
  (l.bufs a).bind fun buf =>
    let l := if some a = l.head then { l with head := l.next a } else l
    let l := if some a = l.dataTail then { l with dataTail := l.next a } else l
    let l := if some a = l.tail then { l with tail := none } else l
    let l := { l with buffers := l.buffers - 1 }
    if l.minBuffers ≤ l.buffers then some { l with bufs := Function.update l.bufs a none }
    else
      (ustreamInitBuf buf.mem buf.size).bind fun buf => some (ustreamAddBuf (l.setBuf a buf) a)

/-- `ustream_fixup_string` -/
def ustreamFixupString (stringData : Bool) (buf : Buf) : Option Buf :=
  if ¬ stringData then some buf
  else (Block.write buf.mem buf.tail [0]).bind fun mem => some { buf with mem := mem }

/-- The squeezing of a buffer in `ustream_prepare_buf`. -/
def squeeze (read stringData : Bool) (buf : Buf) : Option Buf :=
  (Block.read buf.mem buf.data (buf.tail - buf.data)).bind fun bytes =>
    (Block.write buf.mem 0 bytes).bind fun mem =>
      ustreamFixupString (read && stringData)
        { buf with mem := mem, data := 0, tail := buf.tail - buf.data }

/-- The end of `ustream_prepare_buf`: another buffer. -/
def addData (stringData malloc : Bool) (l : BufList) : Option (Bool × BufList) :=
  if ¬ ustreamCanAlloc l then some (false, l)
  else
    (ustreamAllocDefault stringData malloc l).bind fun (ok, l) =>
      if ¬ ok then some (false, l) else some (true, { l with dataTail := l.tail })

/-- `ustream_prepare_buf`: whether there is room at `data_tail`; `read` tells the two lists apart. -/
def ustreamPrepareBuf (read stringData malloc : Bool) (l : BufList) (len : ℕ) :
    Option (Bool × BufList) :=
  match l.dataTail with
  | none => addData stringData malloc l
  | some a =>
    (l.bufs a).bind fun buf =>
      (if ustreamShouldMove l a buf len then squeeze read stringData buf else some buf).bind fun buf =>
        let l := l.setBuf a buf
        if buf.tail ≠ buf.size then some (true, l)
        else
          match l.next a with
          | some b => some (true, { l with dataTail := some b })
          | none => addData stringData malloc l

/-! ## Streams -/

/-- `struct ustream`, with the number of calls out of it and what `s->write` accepted so far. -/
structure Ustream where
  r : BufList
  w : BufList
  stringData : Bool
  calls : ℕ
  sent : Bytes

section
variable (accepts : ℕ → ℕ) (mallocs : ℕ → Bool)

/-- `s->write`: the number of bytes that it accepts. -/
def Ustream.write (s : Ustream) (bytes : Bytes) : ℕ × Ustream :=
  let len := min (accepts s.calls) bytes.length
  (len, { s with calls := s.calls + 1, sent := s.sent ++ bytes.take len })

/-- `ustream_prepare_buf` on the list for writing. -/
def prepareWrite (s : Ustream) (len : ℕ) : Option (Bool × Ustream) :=
  (ustreamPrepareBuf false s.stringData (mallocs s.calls) s.w len).bind fun (ok, w) =>
    some (ok, { s with w := w, calls := s.calls + 1 })

/-- The bytes that are put behind the data of a buffer; `n` of them count. -/
def BufList.put (l : BufList) (bytes : Bytes) (n : ℕ) : Option BufList :=
  l.dataTail.bind fun a =>
    (l.bufs a).bind fun buf =>
      (Block.write buf.mem buf.tail bytes).bind fun mem =>
        some { l.setBuf a { buf with mem := mem, tail := buf.tail + n } with
          dataBytes := l.dataBytes + n }

/-- The room at `data_tail`. -/
def BufList.room (l : BufList) : Option ℕ :=
  l.dataTail.bind fun a => (l.bufs a).bind fun buf => some (buf.size - buf.tail)

/-- `ustream_write_buffered` -/
def ustreamWriteBuffered : ℕ → Bytes → ℕ → Ustream → Option (ℕ × Ustream)
  | _, [], wr, s => some (wr, s)
  | 0, _ :: _, _, _ => none
  | fuel + 1, data, wr, s =>
    (prepareWrite mallocs s data.length).bind fun (ok, s) =>
      if ¬ ok then some (wr, s)
      else
        s.w.room.bind fun room =>
          let maxlen := min room data.length
          (s.w.put (data.take maxlen) maxlen).bind fun w =>
            ustreamWriteBuffered fuel (data.drop maxlen) (wr + maxlen) { s with w := w }

/-- `ustream_write` on a stream without a write error. -/
def ustreamWrite (s : Ustream) (data : Bytes) : Option (ℕ × Ustream) :=
  if s.w.dataBytes = 0 then
    let (wr, s) := s.write accepts data
    if wr = data.length then some (wr, s)
    else ustreamWriteBuffered mallocs data.length (data.drop wr) wr s
  else ustreamWriteBuffered mallocs data.length data 0 s

abbrev MAX_STACK_BUFLEN : ℕ := 256

/-- `ustream_vprintf`, where `text` is what the format stands for. -/
def ustreamVprintf (s : Ustream) (text : Bytes) : Option (ℕ × Ustream) :=
  if s.w.dataBytes = 0 then
    if text.length < MAX_STACK_BUFLEN then
      let (wr, s) := s.write accepts text
      if wr = text.length then some (wr, s)
      else ustreamWriteBuffered mallocs text.length (text.drop wr) wr s
    else if ¬ mallocs s.calls then some (0, { s with calls := s.calls + 1 })
    else ustreamWrite accepts mallocs { s with calls := s.calls + 1 } text
  else
    (prepareWrite mallocs s 1).bind fun (ok, s) =>
      if ¬ ok then some (0, s)
      else
        s.w.room.bind fun buflen =>
          -- `vsnprintf` puts a NUL behind what it writes
          let wr := if buflen ≤ text.length then buflen - 1 else text.length
          (s.w.put (text.take wr ++ [0]) wr).bind fun w =>
            let s := { s with w := w }
            if text.length < buflen then some (wr, s)
            else if ¬ mallocs s.calls then some (wr, { s with calls := s.calls + 1 })
            else
              ustreamWriteBuffered mallocs text.length (text.drop wr) wr { s with calls := s.calls + 1 }

/-- The loop of `ustream_write_pending`. -/
def writePendingLoop : ℕ → Option ℕ → Ustream → Option Ustream
  | _, none, s => some s
  | 0, some _, _ => none
  | fuel + 1, some a, s =>
    if s.w.dataBytes = 0 then some s
    else
      (s.w.bufs a).bind fun buf =>
        (Block.read buf.mem buf.data (buf.tail - buf.data)).bind fun bytes =>
          let next := s.w.next a
          let (len, s) := s.write accepts bytes
          if len = 0 then some s
          else
            let w := { s.w with dataBytes := s.w.dataBytes - len }
            if len < bytes.length then
              some { s with w := w.setBuf a { buf with data := buf.data + len } }
            else (ustreamFreeBuf w a).bind fun w => writePendingLoop fuel next { s with w := w }

/-- `ustream_write_pending`: whether everything is written. -/
def ustreamWritePending (s : Ustream) : Option (Bool × Ustream) :=
  (writePendingLoop accepts (s.w.dataBytes.toNat + 1) s.w.head s).bind fun s =>
    some (decide (s.w.dataBytes = 0), s)

/-- `ustream_reserve`: how many bytes there is room for, if there is any. -/
def ustreamReserve (s : Ustream) (len : ℕ) : Option (Option ℕ × Ustream) :=
  (ustreamPrepareBuf true s.stringData (mallocs s.calls) s.r len).bind fun (ok, r) =>
    let s := { s with r := r, calls := s.calls + 1 }
    if ¬ ok then some (none, s) else r.room.bind fun room => some (some room, s)

/-- The loop of `ustream_fill_read`. -/
def fillReadLoop (stringData : Bool) : ℕ → Option ℕ → ℕ → BufList → Option BufList
  | 0, _, _, _ => none
  | _, none, _, _ => none
  | fuel + 1, some a, len, l =>
    (l.bufs a).bind fun buf =>
      let maxlen := min len (buf.size - buf.tail)
      (ustreamFixupString stringData { buf with tail := buf.tail + maxlen }).bind fun buf =>
        let l := { l.setBuf a buf with dataTail := some a }
        if len - maxlen = 0 then some l
        else fillReadLoop stringData fuel (l.next a) (len - maxlen) l

/-- `ustream_fill_read` -/
def ustreamFillRead (s : Ustream) (len : ℕ) : Option Ustream :=
  (fillReadLoop s.stringData (len + 1) s.r.dataTail len
    { s.r with dataBytes := s.r.dataBytes + len }).bind fun r => some { s with r := r }

/-- `ustream_get_read_buf`: the bytes that the caller finds there, if there are any. -/
def ustreamGetReadBuf (s : Ustream) : Option (Option Bytes) :=
  match s.r.head with
  | none => some none
  | some a =>
    (s.r.bufs a).bind fun buf =>
      if buf.tail - buf.data = 0 then some none
      else (Block.read buf.mem buf.data (buf.tail - buf.data)).bind fun bytes => some (some bytes)

/-- The loop of `ustream_consume`. -/
def consumeLoop : ℕ → Option ℕ → ℕ → BufList → Option BufList
  | 0, _, _, _ => none
  | _, none, _, _ => none
  | fuel + 1, some a, len, l =>
    (l.bufs a).bind fun buf =>
      let next := l.next a
      let bufLen := buf.tail - buf.data
      if len < bufLen then some (l.setBuf a { buf with data := buf.data + len })
      else
        (ustreamFreeBuf l a).bind fun l =>
          if len - bufLen = 0 then some l else consumeLoop fuel next (len - bufLen) l

/-- `ustream_consume` -/
def ustreamConsume (s : Ustream) (len : ℕ) : Option Ustream :=
  if len = 0 then some s
  else
    let r := { s.r with dataBytes := s.r.dataBytes - len }
    if r.dataBytes < 0 then none
    else (consumeLoop len r.head len r).bind fun r => some { s with r := r }

/-- The loop of `ustream_read`, with the bytes copied so far. -/
def readLoop : ℕ → ℕ → Bytes → Ustream → Option (Bytes × Ustream)
  | 0, _, _, _ => none
  | fuel + 1, buflen, got, s =>
    (ustreamGetReadBuf s).bind fun chunk =>
      match chunk with
      | none => some (got, s)
      | some chunk =>
        let chunkLen := min chunk.length (buflen - got.length)
        (ustreamConsume s chunkLen).bind fun s =>
          let got := got ++ chunk.take chunkLen
          if got.length < buflen then readLoop fuel buflen got s else some (got, s)

/-- `ustream_read`: the bytes that are copied. -/
def ustreamRead (s : Ustream) (buflen : ℕ) : Option (Bytes × Ustream) :=
  readLoop (buflen + 1) buflen [] s

end

/-! ## Runs -/

/-- The bytes of a buffer. -/
def Buf.content (buf : Buf) : Bytes := (buf.mem.drop buf.data).take (buf.tail - buf.data)

/-- The bytes that are buffered from an address on, in the order of the list. -/
def contentsFrom (l : BufList) : ℕ → Option ℕ → Bytes
  | 0, _ => []
  | _, none => []
  | fuel + 1, some a =>
    match l.bufs a with
    | none => []
    | some buf => buf.content ++ contentsFrom l fuel (l.next a)

/-- The bytes that are buffered. -/
def BufList.contents (l : BufList) : Bytes := contentsFrom l l.buffers.toNat l.head

/-- The settings of a stream; 0 stands for the default. -/
structure Config where
  rMin : ℤ
  rMax : ℤ
  rLen : ℕ
  wMin : ℤ
  wMax : ℤ
  wLen : ℕ
  stringData : Bool

/-- `DEFAULT_SET` -/
def defaultSet {α : Type} [DecidableEq α] [Zero α] (x d : α) : α := if x = 0 then d else x

/-- A list without buffers. -/
def emptyList (minBuffers maxBuffers : ℤ) (bufferLen : ℕ) : BufList where
  bufs := fun _ => none
  next := fun _ => none
  fresh := 0
  head := none
  dataTail := none
  tail := none
  dataBytes := 0
  minBuffers := minBuffers
  maxBuffers := maxBuffers
  bufferLen := bufferLen
  buffers := 0

/-- `ustream_init_defaults` -/
def ustreamInitDefaults (c : Config) : Ustream where
  r := emptyList (defaultSet c.rMin 1) (defaultSet c.rMax 1) (defaultSet c.rLen 4096)
  w := emptyList (defaultSet c.wMin 2) (defaultSet c.wMax (-1)) (defaultSet c.wLen 256)
  stringData := c.stringData
  calls := 0
  sent := []

/-- A stream and its user: what the calls for writing reported as accepted, what the stream's
    implementation filled in, and what the user got out. -/
structure Session where
  s : Ustream
  accepted : Bytes
  filled : Bytes
  delivered : Bytes

/-- What the user and the implementation of a stream do. The implementation reserves room, puts as
    many bytes there as fit, and reports them; the user looks at the next bytes and consumes some of
    them, drops bytes that are pending, or reads. -/
inductive Op where
  | write (data : Bytes)
  | vprintf (text : Bytes)
  | writePending
  | reserve (len : ℕ)
  | fetch (len : ℕ) (bytes : Bytes)
  | take (n : ℕ)
  | drop (n : ℕ)
  | read (n : ℕ)

section
variable (accepts : ℕ → ℕ) (mallocs : ℕ → Bool)

/-- The bytes that the implementation puts into the room that it got. -/
def BufList.copyIn (l : BufList) (bytes : Bytes) : Option BufList :=
  l.dataTail.bind fun a =>
    (l.bufs a).bind fun buf =>
      (Block.write buf.mem buf.tail bytes).bind fun mem => some (l.setBuf a { buf with mem := mem })

def step : Op → Session → Option Session
  | .write data, t =>
    (ustreamWrite accepts mallocs t.s data).bind fun (wr, s) =>
      some { t with s := s, accepted := t.accepted ++ data.take wr }
  | .vprintf text, t =>
    (ustreamVprintf accepts mallocs t.s text).bind fun (wr, s) =>
      some { t with s := s, accepted := t.accepted ++ text.take wr }
  | .writePending, t =>
    (ustreamWritePending accepts t.s).bind fun (_, s) => some { t with s := s }
  | .reserve len, t => (ustreamReserve mallocs t.s len).bind fun (_, s) => some { t with s := s }
  | .fetch len bytes, t =>
    (ustreamReserve mallocs t.s len).bind fun (room, s) =>
      match room with
      | none => some { t with s := s }
      | some maxlen =>
        let bytes := bytes.take maxlen
        (s.r.copyIn bytes).bind fun r =>
          (ustreamFillRead { s with r := r } bytes.length).bind fun s =>
            some { t with s := s, filled := t.filled ++ bytes }
  | .take n, t =>
    (ustreamGetReadBuf t.s).bind fun chunk =>
      match chunk with
      | none => some t
      | some chunk =>
        (ustreamConsume t.s (min n chunk.length)).bind fun s =>
          some { t with s := s, delivered := t.delivered ++ chunk.take n }
  | .drop n, t =>
    let len := min n t.s.r.dataBytes.toNat
    (ustreamConsume t.s len).bind fun s =>
      some { t with s := s, delivered := t.delivered ++ t.s.r.contents.take len }
  | .read n, t =>
    (ustreamRead t.s n).bind fun (bytes, s) => some { t with s := s, delivered := t.delivered ++ bytes }

/-- A run of calls, in any order. -/
def run : List Op → Session → Option Session
  | [], t => some t
  | op :: ops, t => (step accepts mallocs op t).bind fun t => run ops t

end

/-- A new stream. -/
def initSession (c : Config) : Session := ⟨ustreamInitDefaults c, [], [], []⟩

end Ustream
