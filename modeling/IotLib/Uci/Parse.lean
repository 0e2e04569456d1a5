/-
  The tokenizer of libuci (`file.c`): a line is read into a buffer, and the arguments are extracted
  from it in place. A quoted argument may go on over several lines, which are read behind the part
  that was already parsed.
-/
import IotLib.Uci.Package

namespace Uci

def newline : UInt8 := 10
def carriage : UInt8 := 13
def space : UInt8 := 32
def tab : UInt8 := 9
def quote : UInt8 := 39
def dquote : UInt8 := 34
def hash : UInt8 := 35
def semicolon : UInt8 := 59
def backslash : UInt8 := 92

/-- `struct uci_context` with its parse context. `buf` has the size of the buffer, and is empty when
    there is none; `file` is what is left to read. -/
structure Ctx where
  strict : Bool := true
  root : List Package := []
  file : Str := []
  eof : Bool := false
  line : Nat := 0
  buf : Str := []
  bufFilled : Nat := 0
  pos : Nat := 0
  name : Option Str := none
  package : Option Package := none
  sect : Option Nat := none
  merge : Bool := false

/-- Computations that may throw; what was read and changed before stays. -/
abbrev M := EStateM Err Ctx

/-! ## The buffer -/

/-- `pctx_char` -/
def Ctx.char (c : Ctx) (i : Nat) : UInt8 := c.buf.getD i 0

/-- `pctx_cur_char` -/
def Ctx.cur (c : Ctx) : UInt8 := c.char c.pos

/-- `pctx_str` -/
def Ctx.str (c : Ctx) (i : Nat) : Str := (c.buf.drop i).takeWhile fun b => b != 0

/-- `pctx_cur_str` -/
def Ctx.curStr (c : Ctx) : Str := c.str c.pos

def Ctx.setChar (c : Ctx) (i : Nat) (b : UInt8) : Ctx := { c with buf := c.buf.set i b }

/-- `uci_realloc` to twice the size. -/
def Ctx.grow (c : Ctx) : Ctx := { c with buf := c.buf ++ List.replicate c.buf.length 0 }

/-- `fgets` for up to `n` bytes: what was read, what is left, and whether the
    end of the file was met. -/
def fgets : Nat → Str → Str × Str × Bool
  | 0, file => ([], file, false)
  | _ + 1, [] => ([], [], true)
  | n + 1, b :: file =>
    if b = newline then ([b], file, false)
    else (b :: (fgets n file).1, (fgets n file).2)

/-- `LINEBUF` -/
def linebuf : Nat := 32

/-- `fgets` into the buffer. -/
def Ctx.gets (c : Ctx) (ofs : Nat) : Ctx :=
  let r := fgets (c.buf.length - ofs - 1) c.file
  { c with
    buf := c.buf.take ofs ++ (r.1 ++ 0 :: c.buf.drop (ofs + r.1.length + 1))
    file := r.2.1
    eof := c.eof || r.2.2 }

/-- The loop of `uci_getln`; each turn but the last reads something. -/
def getlnLoop : Nat → Nat → Ctx → Ctx
  | 0, _, c => c
  | fuel + 1, ofs, c =>
    let c := c.gets ofs
    let n := (c.str ofs).length
    if n = 0 then c
    else if c.char (ofs + n - 1) = newline then
      { c with bufFilled := ofs + n, line := c.line + 1 }
    else getlnLoop fuel (ofs + n) { c.grow with bufFilled := ofs + n }

/-- `uci_getln` -/
def uciGetln (c : Ctx) (offset : Nat) : Ctx :=
  let c := if c.buf = [] then { c with buf := List.replicate linebuf 0 } else c
  let c := if c.buf.length - 1 ≤ offset then c.grow else c
  getlnLoop (c.file.length + 1) offset c

/-- A bound on the number of characters that a command can still read. -/
def Ctx.fuel (c : Ctx) : Nat := c.bufFilled + 2 * c.file.length + 2

/-- `uci_parse_error` -/
def uciParseError {α : Type} (reason : String) : M α := do
  let c ← get
  throw (.parse reason c.line c.pos)

/-! ## Arguments -/

/-- `parse_backslash`: whether the character that follows is to be parsed. -/
def parseBackslash (c : Ctx) : Bool × Ctx :=
  let c := { c with pos := c.pos + 1 }
  if c.cur = 0 ∨ c.cur = newline ∨
      (c.cur = carriage ∧ c.char (c.pos + 1) = newline ∧ c.char (c.pos + 2) = 0) then
    (false, uciGetln c c.pos)
  else (true, c)

/-- `skip_whitespace` -/
def skipWhitespace (c : Ctx) : Ctx :=
  { c with pos := c.pos + ((c.buf.drop c.pos).takeWhile isspace).length }

/-- `addc` -/
def addc (c : Ctx) (target : Nat) : Ctx :=
  { c.setChar target c.cur with pos := c.pos + 1 }

/-- `uci_increase_pos` -/
def uciIncreasePos (add : Nat) (reason : String) : M Unit := do
  let c ← get
  if c.bufFilled < c.pos + add then uciParseError reason
  set { c with pos := c.pos + add }

/-- The loop of `parse_double_quote`. -/
def doubleQuoteLoop : Nat → Nat → M Nat
  | 0, target => return target
  | fuel + 1, target => do
    let c ← get
    if c.cur = dquote then
      set { c with pos := c.pos + 1 }
      return target
    else if c.cur = 0 then
      -- a value of several lines
      set (uciGetln c c.pos)
      if (uciGetln c c.pos).cur = 0 then uciParseError "EOF with unterminated \""
      doubleQuoteLoop fuel target
    else if c.cur = backslash then
      let (parse, c) := parseBackslash c
      if parse then
        set (addc c target)
        doubleQuoteLoop fuel (target + 1)
      else
        set c
        doubleQuoteLoop fuel target
    else
      set (addc c target)
      doubleQuoteLoop fuel (target + 1)

/-- `parse_double_quote` -/
def parseDoubleQuote (target : Nat) : M Nat := do
  let c ← get
  set { c with pos := c.pos + 1 }
  doubleQuoteLoop c.fuel target

/-- The loop of `parse_single_quote`. -/
def singleQuoteLoop : Nat → Nat → M Nat
  | 0, target => return target
  | fuel + 1, target => do
    let c ← get
    if c.cur = quote then
      set { c with pos := c.pos + 1 }
      return target
    else if c.cur = 0 then
      set (uciGetln c c.pos)
      if (uciGetln c c.pos).cur = 0 then uciParseError "EOF with unterminated '"
      singleQuoteLoop fuel target
    else
      set (addc c target)
      singleQuoteLoop fuel (target + 1)

/-- `parse_single_quote` -/
def parseSingleQuote (target : Nat) : M Nat := do
  let c ← get
  set { c with pos := c.pos + 1 }
  singleQuoteLoop c.fuel target

/-- How a turn of the loop of `parse_str` ends: it goes on if the argument does,
    or it is done, at a `;` or not. -/
inductive Turn where
  | next (target : Nat)
  | done (semicolon : Bool)

/-- One turn of the loop of `parse_str`. -/
def parseStrTurn (target : Nat) : M Turn := do
  let c ← get
  if c.cur = quote then return .next (← parseSingleQuote target)
  else if c.cur = dquote then return .next (← parseDoubleQuote target)
  else if c.cur = hash then
    set (c.setChar c.pos 0)
    return .done false
  else if c.cur = 0 then return .done false
  else if c.cur = semicolon then return .done true
  else if c.cur = backslash then
    let (parse, c) := parseBackslash c
    if parse then
      set (addc c target)
      return .next (target + 1)
    else
      set c
      return .next target
  else
    set (addc c target)
    return .next (target + 1)

/-- The loop of `parse_str`: the end of the argument, and whether it is followed by a `;`. -/
def parseStrLoop : Nat → Nat → M (Nat × Bool)
  | 0, target => return (target, false)
  | fuel + 1, target => do
    match ← parseStrTurn target with
    | .done semicolon => return (target, semicolon)
    | .next target =>
      let c ← get
      if c.cur ≠ 0 ∧ isspace c.cur = false then parseStrLoop fuel target
      else return (target, false)

/-- `parse_str` -/
def parseStr (target : Nat) : M Unit := do
  let c ← get
  let (target, semicolon) ← parseStrLoop c.fuel target
  let c ← get
  -- the white space will be overwritten by a null byte
  let c := if c.cur ≠ 0 ∧ semicolon = false then { c with pos := c.pos + 1 } else c
  set (c.setChar target 0)

/-- `next_arg`: the position of the argument. -/
def nextArg (required name package : Bool) : M Nat := do
  let c ← get
  let c := skipWhitespace c
  let val := c.pos
  if c.cur = semicolon then set { c.setChar c.pos 0 with pos := c.pos + 1 }
  else
    set c
    parseStr val
  let c ← get
  if c.char val = 0 then
    if required then uciParseError "insufficient arguments"
  else if name ∧ uciValidateStr (c.str val) name package = false then
    uciParseError "invalid character in name field"
  return val

end Uci
