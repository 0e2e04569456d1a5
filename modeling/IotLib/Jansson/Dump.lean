/-
  The encoder of jansson (`dump.c`).

  The callback is given a chunk and its state, and returns an `int` and the new state.
  The lengths of keys are numbers without a bound, while `struct key_len` has an `int`.
-/
import IotLib.Jansson.Graph
import IotLib.Jansson.Load

namespace Jansson

/-- The flags of `json_dumps`. -/
structure DumpFlags where
  indent : Fin 32 := 0
  compact : Bool := false
  ensureAscii : Bool := false
  sortKeys : Bool := false
  encodeAny : Bool := false
  escapeSlash : Bool := false
  precision : Fin 32 := 0
  embed : Bool := false
deriving DecidableEq, Repr

/-! ## Writing -/

section
variable {σ : Type}

/-- `json_dump_callback_t` -/
abbrev Callback (σ : Type) := Bytes → σ → Int × σ

/-- A function that writes and returns an `int`. -/
abbrev Writer (σ : Type) := σ → Int × σ

/-- `return r;` -/
def giveBack (r : Int) : Writer σ := fun s => (r, s)

/-- `if (a) return -1;` before `b` -/
def Writer.check (a b : Writer σ) : Writer σ := fun s =>
  match a s with
  | (r, s) => if r = 0 then b s else (-1, s)

/-- A call whose result is not used. -/
def Writer.forget (a : Writer σ) : Writer σ := fun s => (0, (a s).2)

variable (dump : Callback σ)

/-- The loop of `dump_indent`, over the spaces that are left. -/
def dumpSpaces : Nat → Nat → Writer σ
  | 0, _ => giveBack 0
  | n + 1, spaces =>
    if spaces = 0 then giveBack 0
    else
      let cur := if spaces < 32 then spaces else 32
      Writer.check (dump (List.replicate cur 0x20)) (dumpSpaces n (spaces - cur))

/-- `dump_indent` -/
def dumpIndent (flags : DumpFlags) (depth : Nat) (space : Bool) : Writer σ :=
  if flags.indent.val > 0 then
    let spaces := depth * flags.indent.val
    Writer.check (dump [0x0A]) (dumpSpaces dump spaces spaces)
  else if space && !flags.compact then dump [0x20]
  else giveBack 0

/-! ## Strings -/

/-- The characters that are not written as they are. -/
def isEscaped (flags : DumpFlags) (codepoint : Nat) : Bool :=
  codepoint = 0x5C || codepoint = 0x22 || codepoint < 0x20 ||
    (flags.escapeSlash && codepoint = 0x2F) || (flags.ensureAscii && codepoint > 0x7F)

/-- The inner loop of `dump_string`: the characters before the next one that is escaped, that one,
    and the rest. It fails on invalid UTF-8. -/
def dumpRun (flags : DumpFlags) : Nat → Bytes → Option (Bytes × Option (Nat × Bytes))
  | 0, _ => some ([], none)
  | n + 1, str =>
    if str = [] then some ([], none)
    else
      match utf8Iterate str with
      | none => none
      | some (codepoint, rest) =>
        if isEscaped flags codepoint then some ([], some (codepoint, rest))
        else
          (dumpRun flags n rest).map fun (run, next) =>
            (str.take (str.length - rest.length) ++ run, next)

/-- The escape of a character. -/
def escapeText (codepoint : Nat) : Bytes :=
  if codepoint = 0x5C then ascii "\\\\"
  else if codepoint = 0x22 then ascii "\\\""
  else if codepoint = 0x08 then ascii "\\b"
  else if codepoint = 0x0C then ascii "\\f"
  else if codepoint = 0x0A then ascii "\\n"
  else if codepoint = 0x0D then ascii "\\r"
  else if codepoint = 0x09 then ascii "\\t"
  else if codepoint = 0x2F then ascii "\\/"
  else if codepoint < 0x10000 then ascii "\\u" ++ hex4 codepoint
  else
    let codepoint := codepoint - 0x10000
    let first := 0xD800 ||| ((codepoint &&& 0xFFC00) >>> 10)
    let last := 0xDC00 ||| (codepoint &&& 0x003FF)
    ascii "\\u" ++ hex4 first ++ (ascii "\\u" ++ hex4 last)

/-- The outer loop of `dump_string`. -/
def dumpBody (flags : DumpFlags) : Nat → Bytes → Writer σ
  | 0, _ => giveBack (-1)
  | n + 1, str =>
    match dumpRun flags str.length str with
    | none => giveBack (-1)
    | some (run, next) =>
      Writer.check (if run ≠ [] then dump run else giveBack 0)
        (match next with
          | none => dump [0x22]
          | some (codepoint, rest) =>
            Writer.check (dump (escapeText codepoint)) (dumpBody flags n rest))

/-- `dump_string` -/
def dumpString (flags : DumpFlags) (str : Bytes) : Writer σ :=
  Writer.check (dump [0x22]) (dumpBody dump flags (str.length + 1) str)

end

/-! ## Sorted keys -/

/-- `memcmp` on the first `n` bytes. -/
def memcmp : Nat → Bytes → Bytes → Int
  | n + 1, a :: as, b :: bs => if a = b then memcmp n as bs else (a.toNat : Int) - b.toNat
  | _, _, _ => 0

/-- `compare_keys` -/
def compareKeys (k₁ k₂ : Bytes) : Int :=
  let minSize := if k₁.length < k₂.length then k₁.length else k₂.length
  let res := memcmp minSize k₁ k₂
  if res ≠ 0 then res else (k₁.length : Int) - k₂.length

/-- `qsort` with `compare_keys` -/
def sortKeys (keys : List Bytes) : List Bytes := keys.mergeSort fun k₁ k₂ => compareKeys k₁ k₂ ≤ 0

/-- The members in the order in which they are dumped. -/
def dumpOrder {α : Type} (sort : Bool) (ms : List (Bytes × α)) : List (Bytes × Option α) :=
  if sort then (sortKeys (ms.map Prod.fst)).map fun key => (key, objectGet key ms)
  else ms.map fun (key, value) => (key, some value)

/-! ## Values -/

/-- The conversion `%lld`, with room for `n` digits. -/
def decimal : Nat → Nat → Bytes
  | 0, _ => []
  | n + 1, k => if k < 10 then [.ofNat (0x30 + k)] else decimal n (k / 10) ++ [.ofNat (0x30 + k % 10)]

def integerText (value : Int64) : Bytes :=
  if value.toInt < 0 then 0x2D :: decimal 20 value.toInt.natAbs else decimal 20 value.toInt.natAbs

section
variable {R σ : Type} (heap : Heap R) (dtostr : Nat → R → Option Bytes) (dump : Callback σ)

/-- The loops over elements and over members: what is written after each of them. -/
def dumpItems {α : Type} (flags : DumpFlags) (depth : Nat) (item : α → Writer σ) :
    List α → Writer σ
  | [] => giveBack 0
  | [x] => Writer.check (item x) (dumpIndent dump flags depth false)
  | x :: xs =>
    Writer.check (item x) (Writer.check (dump [0x2C])
      (Writer.check (dumpIndent dump flags (depth + 1) true) (dumpItems flags depth item xs)))

/-- A member of an object. What `dump_string` returns for the key is not looked at. -/
def dumpMember (flags : DumpFlags) (value : Ref → Writer σ) (m : Bytes × Option Ref) : Writer σ :=
  Writer.check (Writer.forget (dumpString dump flags m.1))
    (Writer.check (dump (if flags.compact then ascii ":" else ascii ": "))
      (match m.2 with
        | none => giveBack (-1)
        | some p => value p))

/-- An array or an object: the brackets, unless it is embedded, and what is inside. -/
def dumpBracketed {α : Type} (flags : DumpFlags) (embed : Bool) (depth : Nat)
    (first last : UInt8) (item : α → Writer σ) (items : List α) : Writer σ :=
  let finish := if embed then giveBack 0 else dump [last]
  Writer.check (if embed then giveBack 0 else dump [first])
    (if items.isEmpty then finish
      else
        Writer.check (dumpIndent dump flags (depth + 1) false)
          (Writer.check (dumpItems dump flags depth item items) finish))

/-- `do_dump`, with at most `n` nested calls; `parents` are the containers that are being dumped. -/
def doDump : Nat → DumpFlags → Nat → List Ref → Ref → Writer σ
  | 0, _, _, _, _ => giveBack (-1)
  | n + 1, flags, depth, parents, json =>
    let embed := flags.embed
    let flags := { flags with embed := false }
    match json with
    | .null => dump (ascii "null")
    | .true => dump (ascii "true")
    | .false => dump (ascii "false")
    | .node i =>
      match heap[i]? with
      | none => giveBack (-1)
      | some (.integer value) => dump (integerText value)
      | some (.real value) =>
        match dtostr flags.precision value with
        | none => giveBack (-1)
        | some text => dump text
      | some (.string value) => dumpString dump flags value
      | some (.array elems) =>
        if json ∈ parents then giveBack (-1)
        else
          dumpBracketed dump flags embed depth 0x5B 0x5D
            (doDump n flags (depth + 1) (json :: parents)) elems
      | some (.object members) =>
        if json ∈ parents then giveBack (-1)
        else
          dumpBracketed dump flags embed depth 0x7B 0x7D
            (dumpMember dump flags (doDump n flags (depth + 1) (json :: parents)))
            (dumpOrder flags.sortKeys members)

/-- `json_is_array(json) || json_is_object(json)` -/
def isContainer (json : Ref) : Bool :=
  match jsonTypeof heap json with
  | some .array | some .object => true
  | _ => false

/-- `json_dump_callback`; no call is nested deeper than the heap has nodes. -/
def jsonDumpCallback (flags : DumpFlags) (json : Ref) : Writer σ :=
  if !flags.encodeAny && !isContainer heap json then giveBack (-1)
  else doDump heap dtostr dump (heap.length + 1) flags 0 [] json

/-- `dump_to_strbuffer` -/
def dumpToStrbuffer : Callback Bytes := fun chunk s => (0, s ++ chunk)

/-- `json_dumps`; `jsonp_strdup` copies up to the first 0. -/
def jsonDumps (flags : DumpFlags) (json : Ref) : Option Bytes :=
  match jsonDumpCallback heap dtostr dumpToStrbuffer flags json [] with
  | (r, s) => if r = 0 then some (s.takeWhile (· ≠ 0)) else none

end

end Jansson
