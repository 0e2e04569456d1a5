/-
  Templates (`do_patch`, `do_if` and `do_array` of `patch.c`).

  A block is cut out of what is read, written to a buffer, and patched from there.
-/
import IotLib.Xmldb.Tag

namespace Xmldb.Patch

/-! ## Sources -/

/-- `PINFO`; a file is what is left of it. -/
structure Pinfo where
  fh : Option Bytes
  buff : Bytes
  offset : ℕ
  current : Option Loc
  max : ℤ

/-- `pi_getc`; a `char` of the buffer may be `EOF`. -/
def piGetc (pi : Pinfo) : Option UInt8 × Pinfo :=
  match pi.fh with
  | some [] => (none, pi)
  | some (c :: fh) => (some c, { pi with fh := some fh })
  | none =>
    match pi.buff[pi.offset]? with
    | none => (none, pi)
    | some c => (if signed c = -1 then none else some c, { pi with offset := pi.offset + 1 })

/-- What `pi_puttag` writes. -/
def puttag (tag : Bytes) : Bytes := ascii "\x7b\x7b" ++ tag ++ ascii "\x7d\x7d"

def MAX_PATCH_MSG_LEN : ℕ := 256

/-- The loop of `read_tag_msg`, with room for `n` bytes: the last character, the bytes, and the
    source. -/
def readTagLoop : ℕ → Option UInt8 → Pinfo → Bytes → Option UInt8 × Bytes × Pinfo
  | 0, c, pi, buff => (c, buff, pi)
  | n + 1, _, pi, buff =>
    match piGetc pi with
    | (none, pi) => (none, buff, pi)
    | (some c, pi) =>
      if c = 0x7D then
        match piGetc pi with
        | (none, pi) => (none, buff, pi)
        | (some c, pi) =>
          if c = 0x7D then (some c, buff, pi) else readTagLoop (n - 1) (some c) pi (buff ++ [0x7D, c])
      else readTagLoop n (some c) pi (buff ++ [c])

/-- `read_tag_msg` -/
def readTagMsg (pi : Pinfo) : Option UInt8 × Bytes × Pinfo :=
  readTagLoop (MAX_PATCH_MSG_LEN - 2) (some 0) pi []

/-- The tag in `g_tag`, without the white space around it. -/
def tagMsg (tag : Bytes) : Bytes := xmldbEatwhite (xmldbReatwhite (cstr tag))

/-! ## Cutting out blocks -/

/-- What a tag does to the cutting: it belongs to the block, with the number of open tags after it; or
    the block ends, perhaps at `$else`. -/
inductive Turn where
  | put (open_ : ℕ)
  | stop (isElse : Bool)

/-- The loop of `do_if` up to `$else` or `$fi`. -/
def ifTurn (nif : ℕ) (msg : Bytes) : Turn :=
  if starts "$if" msg then .put (nif + 1)
  else if starts "$else" msg then if nif = 1 then .stop true else .put nif
  else if starts "$fi" msg then if nif - 1 ≠ 0 then .put (nif - 1) else .stop false
  else .put nif

/-- The loop of `do_if` from `$else` on. -/
def elseTurn (nif : ℕ) (msg : Bytes) : Turn :=
  if starts "$if" msg then .put (nif + 1)
  else if starts "$fi" msg then if nif - 1 ≠ 0 then .put (nif - 1) else .stop false
  else .put nif

/-- The loop of `do_array`. -/
def arrayTurn (array : ℕ) (msg : Bytes) : Turn :=
  if starts "$arraystart:" msg then .put (array + 1)
  else if starts "$arrayend" msg then if array - 1 ≠ 0 then .put (array - 1) else .stop false
  else .put array

/-- Where the cutting came to an end, what was cut out, and the source. -/
structure Cut where
  stop : Option Bool
  buff : Bytes
  pi : Pinfo

/-- The loops that cut out a block. What they read is written to the buffer if it is kept. -/
def cut (turn : ℕ → Bytes → Turn) (keep : Bool) : ℕ → ℕ → Pinfo → Bytes → Cut
  | 0, _, pi, buff => ⟨none, buff, pi⟩
  | n + 1, open_, pi, buff =>
    let put (bytes : Bytes) := if keep then buff ++ bytes else buff
    match piGetc pi with
    | (none, pi) => ⟨none, buff, pi⟩
    | (some c, pi) =>
      if c ≠ 0x7B then cut turn keep n open_ pi (put [c])
      else
        match piGetc pi with
        | (none, pi) => ⟨none, put [0x7B], pi⟩
        | (some c, pi) =>
          if c ≠ 0x7B then cut turn keep n open_ pi (put [0x7B, c])
          else
            let (c, tag, pi) := readTagMsg pi
            match turn open_ (tagMsg tag) with
            | .stop isElse => ⟨some isElse, buff, pi⟩
            | .put open_ =>
              if c = none then ⟨none, put (puttag (tagMsg tag)), pi⟩
              else cut turn keep n open_ pi (put (puttag (tagMsg tag)))

/-- How much is left to read. -/
def Pinfo.size (pi : Pinfo) : ℕ :=
  match pi.fh with
  | some fh => fh.length
  | none => pi.buff.length - pi.offset

/-- A cutting from the start. -/
def cutBlock (turn : ℕ → Bytes → Turn) (keep : Bool) (pi : Pinfo) (buff : Bytes) : Cut :=
  cut turn keep (pi.size + 1) 1 pi buff

/-! ## Patching -/

/-- What was printed, and `g_var`. -/
structure State where
  out : Bytes
  vars : Vars

/-- `buffer_putc` -/
def State.put (s : State) (bytes : Bytes) : State := { s with out := s.out ++ bytes }

section
variable (tree : XmlNode) (flags : ℕ)

/-- What a tag is read in. -/
def Pinfo.ctx (pi : Pinfo) (id : ℤ) : Ctx := ⟨tree, flags, pi.current, id, pi.max⟩

/-- The result of `do_patch`; it is negative if a tag is not well formed. -/
abbrev Patch := Pinfo → ℤ → State → Option (ℤ × State)

section
variable (patch : Patch)

/-- `do_if` -/
def doIf (pi : Pinfo) (tagmsg : Bytes) (id : ℤ) (s : State) : Option (ℤ × State × Pinfo) := do
  let res ← doIfCondition (pi.ctx tree flags id) s.vars tagmsg
  let info : Pinfo := ⟨none, [], 0, pi.current, 0⟩
  let first := cutBlock ifTurn res pi []
  let s ← if res then (patch { info with buff := first.buff } id s).map Prod.snd else some s
  if first.stop = some true then
    let second := cutBlock elseTurn (!res) first.pi first.buff
    let s ← if !res then (patch { info with buff := second.buff } id s).map Prod.snd else some s
    return (0, s, second.pi)
  else return (0, s, first.pi)

/-- `do_array`; the buffer is read from its start for each entry. -/
def doArray (pi : Pinfo) (path : Bytes) (s : State) : Option (ℤ × State × Pinfo) := do
  let block := cutBlock arrayTurn true pi []
  let ctx := pi.ctx tree flags 0
  match ctx.parent path with
  | none => return (0, s, block.pi)
  | some pnode =>
    let ids := entries (ctx.children pnode) (splitEntry path).2
    let info : Pinfo := ⟨none, block.buff, 0, none, ids.length⟩
    let s ← ids.foldlM (fun s e => (patch { info with current := some (pnode ++ [e.2]) } e.1 s).map Prod.snd) s
    return (0, s, block.pi)

/-- A tag in `do_patch`. -/
def doTag (pi : Pinfo) (id : ℤ) (s : State) (tagmsg : Bytes) : Option (ℤ × State × Pinfo) :=
  let ctx := pi.ctx tree flags id
  if tagmsg.head? = some 0x24 then
    if starts "$arraystart:" tagmsg then doArray tree flags patch pi (tagmsg.drop 12) s
    else if starts "$if" tagmsg then doIf tree flags patch pi (tagmsg.drop 3) id s
    else if starts "$var" tagmsg then
      (doVariables ctx s.vars (tagmsg.drop 4)).map fun r =>
        (if r.1 then 0 else -1, { s with vars := r.2 }, pi)
    else some (0, s, pi)
  else if tagmsg.head? = some 0x40 then
    some (0, s, if id = 0 then { pi with current := ctx.findNode (tagmsg.drop 1) } else pi)
  else (doMapping ctx s.vars tagmsg).map fun value => (0, s.put value, pi)

end

/-- `do_patch`, with so many turns of its loop and of the loops in it. -/
def doPatch : ℕ → Patch
  | 0, _, _, _ => none
  | n + 1, pi, id, s =>
    match piGetc pi with
    | (none, _) => some (0, s)
    | (some c, pi) =>
      if c ≠ 0x7B then doPatch n pi id (s.put [c])
      else
        match piGetc pi with
        | (none, _) => some (0, s.put [0x7B])
        | (some c, pi) =>
          if c ≠ 0x7B then doPatch n pi id (s.put [0x7B, c])
          else
            let (c, tag, pi) := readTagMsg pi
            (doTag tree flags (doPatch n) pi id s (tagMsg tag)).bind fun (ret, s, pi) =>
              if ret < 0 then some (ret, s)
              else if c = none then some (ret, s)
              else doPatch n pi id s

/-- `xmldb_patch_file` on a file that can be opened: the result, and what is sent. -/
def xmldbPatchFile (file : Bytes) : Option (ℤ × Bytes) :=
  (doPatch tree flags (file.length + 1) ⟨some file, [], 0, some [], 0⟩ 0 ⟨[], fun _ => 0⟩).map fun r =>
    (r.1, r.2.out ++ [0])

/-- `xmldb_patch_buffer`: what is sent. -/
def xmldbPatchBuffer (buff : Bytes) : Option Bytes :=
  (doPatch tree flags (buff.length + 1) ⟨none, buff, 0, some [], 0⟩ 0 ⟨[], fun _ => 0⟩).map fun r =>
    r.2.out ++ [0]

end

end Xmldb.Patch
