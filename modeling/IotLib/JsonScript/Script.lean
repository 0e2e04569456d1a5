/-
  The json_script interpreter (json_script.c): commands, expressions and the files they are read
  from.

  The recursion of the interpreter takes fuel, one unit for each call of `json_process_cmd` and
  `json_process_expr`. The loops over the elements of a block are structural.
-/
import IotLib.Blobmsg.Field

namespace JsonScript

open Blobmsg

/-- `struct json_script_file`: the sequence number of the run that ran it last, and its data,
    followed by the data of the files on its `next` chain. The name is the key of the entry in
    `Ctx.files`. -/
structure ScriptFile where
  seq : UInt32
  data : List Field

/-- What the callbacks can change: their own state, and `ctx->abort`. -/
structure Env (σ : Type) where
  ext : σ
  abort : Bool

/-- The callbacks of a context, and what the interpreter reads of its surroundings. They do not
    enter the interpreter. -/
structure Host (σ : Type) where
  /-- `handle_command name cmd vars`. -/
  handleCommand : Bytes → Field → List Field → Env σ → Env σ
  /-- `handle_expr name expr vars`, whose result is not used. -/
  handleExpr : Bytes → Field → List Field → Env σ → Env σ
  /-- `handle_var name vars`. -/
  handleVar : Bytes → List Field → Env σ → Option Bytes × Env σ
  /-- `handle_file name`: a file whose key is `name`. -/
  handleFile : Bytes → Env σ → Option ScriptFile × Env σ
  /-- `handle_error msg context`. -/
  handleError : String → Field → Env σ → Env σ
  /-- `regcomp` and `regexec`: a string matches a pattern that compiles. -/
  regexMatch : Bytes → Bytes → Bool
  /-- `stat`: a path names a directory. -/
  isDir : Bytes → Env σ → Bool
  /-- A blob buffer can be made to hold a string of this length. -/
  canGrow : ℕ → Env σ → Bool
  /-- What an empty array's first element is read as: the memory behind it may look like
      a string. -/
  behind : Field → Env σ → Option Bytes

/-- What a run does: it starts to run a file, or processes the command at a place in it.
    A place is the path of element numbers, innermost first. -/
inductive Event where
  | file (name : Bytes)
  | command (name : Bytes) (place : List ℕ)
  deriving DecidableEq, Repr

def Event.name : Event → Bytes
  | file name => name
  | command name _ => name

/-- `struct json_script_ctx`, the static `_seq`, and the events so far. -/
structure Ctx (σ : Type) where
  env : Env σ
  files : List (Bytes × ScriptFile)
  seq : UInt32
  log : List Event

/-- `blobmsg_parse_array`: for each entry of the policy, the next element of that type with its
    number. Elements of another type are skipped. -/
def blobmsgParseArray : List BlobmsgType → List Field → ℕ → List (Option (ℕ × Field))
  | [], _, _ => []
  | policy, [], _ => policy.map fun _ => none
  | type :: policy, attr :: attrs, i =>
    if type ≠ .unspec ∧ attr.type ≠ type then
      blobmsgParseArray (type :: policy) attrs (i + 1)
    else
      some (i, attr) :: blobmsgParseArray policy attrs (i + 1)

/-- `json_get_tuple`. -/
def jsonGetTuple (cur : Field) (t1 t2 : BlobmsgType) : List (Option (ℕ × Field)) :=
  blobmsgParseArray [.string, t1, t2] cur.elems 0

/-- The entry `tb[i]`. -/
def entry (tb : List (Option (ℕ × Field))) (i : ℕ) : Option (ℕ × Field) := tb.getD i none

section
variable {σ : Type} (host : Host σ) (vars : List Field)

/-- `json_script_find_var`. -/
def jsonScriptFindVar (name : Bytes) (env : Env σ) : Option Bytes × Env σ :=
  match vars.find? fun cur => cur.type = .string ∧ cur.name = name with
  | some cur => (some cur.text, env)
  | none => host.handleVar name vars env

/-- The string that stands first in an array, as `blobmsg_data(blobmsg_data(cur))`. -/
def headText (cur : Field) (env : Env σ) : Option Bytes :=
  match cur.elems with
  | [] => host.behind cur env
  | first :: _ => if first.type = .string then some first.text else none

/-! ## Strings -/

/-- The loop of `eval_string` over the parts between percent signs. -/
def evalParts : List Bytes → Bool → Bytes → Env σ → Bool × Bytes × Env σ
  | [], var, dest, env => (var, dest, env)
  | part :: parts, curVar, dest, env =>
    let var := if parts.isEmpty then curVar else !curVar
    let (cur, env) :=
      if curVar then
        if part.isEmpty then (some [0x25], env) else jsonScriptFindVar host vars part env
      else if part.isEmpty then (none, env)
      else (some part, env)
    match cur with
    | none => evalParts parts var dest env
    | some cur =>
      if host.canGrow (dest.length + cur.length) env then
        evalParts parts var (dest ++ cur) env
      else (true, dest, env)

/-- `eval_string`. -/
def evalString (pattern : Bytes) (env : Env σ) : Option Bytes × Env σ :=
  if host.canGrow 0 env then
    match evalParts host vars (pattern.splitOn 0x25) false [] env with
    | (true, _, env) => (none, env)
    | (false, dest, env) => (some dest, env)
  else (none, env)

/-! ## Expressions -/

/-- `eq_regex_cmp`. -/
def eqRegexCmp (str pattern : Bytes) (regex : Bool) : Bool :=
  if regex then host.regexMatch pattern str else str = pattern

/-- The loops of `expr_eq_regex` and `handle_expr_has` over an array of strings. -/
def anyString (test : Bytes → Env σ → Bool × Env σ) : List Field → Env σ → Int × Env σ
  | [], env => (0, env)
  | cur :: rest, env =>
    if cur.type ≠ .string then (-1, host.handleError "Unexpected element type" cur env)
    else
      match test cur.text env with
      | (true, env) => (1, env)
      | (false, env) => anyString test rest env

/-- A test of a string, or of the strings of an array. -/
def stringOrStrings (test : Bytes → Env σ → Bool × Env σ) (arg : Field) (env : Env σ) :
    Int × Env σ :=
  match arg.type with
  | .string =>
    match test arg.text env with
    | (true, env) => (1, env)
    | (false, env) => (0, env)
  | .array => anyString host test arg.elems env
  | _ => (-1, host.handleError "Unexpected element type" arg env)

/-- `expr_eq_regex`. -/
def exprEqRegex (regex : Bool) (expr : Field) (env : Env σ) : Int × Env σ :=
  let tb := jsonGetTuple expr .string .unspec
  match entry tb 1, entry tb 2 with
  | some (_, name), some (_, pattern) =>
    match jsonScriptFindVar host vars name.text env with
    | (none, env) => (0, env)
    | (some var, env) =>
      stringOrStrings host (fun s env => (eqRegexCmp host var s regex, env)) pattern env
  | _, _ => (-1, env)

/-- `handle_expr_has`. -/
def handleExprHas (expr : Field) (env : Env σ) : Int × Env σ :=
  match entry (jsonGetTuple expr .unspec .unspec) 1 with
  | none => (-1, env)
  | some (_, arg) =>
    stringOrStrings host (fun name env =>
      let (var, env) := jsonScriptFindVar host vars name env
      (var.isSome, env)) arg env

/-- `handle_expr_isdir`. -/
def handleExprIsdir (expr : Field) (env : Env σ) : Int × Env σ :=
  match entry (jsonGetTuple expr .string .unspec) 1 with
  | none => (-1, env)
  | some (_, pattern) =>
    match evalString host vars pattern.text env with
    | (none, env) => (-1, env)
    | (some path, env) => (if host.isDir path env then 1 else 0, env)

/-- `expr_and_or`, over the elements after the first. -/
def exprAndOr (eval : Field → Env σ → Option (Int × Env σ)) (and : Int) :
    List Field → Env σ → Option (Int × Env σ)
  | [], env => some (and, env)
  | cur :: rest, env =>
    (eval cur env).bind fun (ret, env) =>
      if ret < 0 then some (ret, env)
      else if ret ≠ and then some (ret, env)
      else exprAndOr eval and rest env

/-- `handle_expr_not`. -/
def handleExprNot (eval : Field → Env σ → Option (Int × Env σ)) (expr : Field) (env : Env σ) :
    Option (Int × Env σ) :=
  match entry (jsonGetTuple expr .array .unspec) 1 with
  | none => some (-1, env)
  | some (_, arg) =>
    (eval arg env).bind fun (ret, env) =>
      if ret < 0 then some (ret, env) else some (if ret = 0 then 1 else 0, env)

/-- The table `expr` and `handle_expr`. -/
def exprHandler (eval : Field → Env σ → Option (Int × Env σ)) (name : Bytes) (cur : Field)
    (env : Env σ) : Option (Int × Env σ) :=
  if name = ascii "eq" then some (exprEqRegex host vars false cur env)
  else if name = ascii "regex" then some (exprEqRegex host vars true cur env)
  else if name = ascii "has" then some (handleExprHas host vars cur env)
  else if name = ascii "and" then exprAndOr eval 1 (cur.elems.drop 1) env
  else if name = ascii "or" then exprAndOr eval 0 (cur.elems.drop 1) env
  else if name = ascii "not" then handleExprNot eval cur env
  else if name = ascii "isdir" then some (handleExprIsdir host vars cur env)
  else some (-1, host.handleExpr name cur vars env)

/-- `json_process_expr`. -/
def jsonProcessExpr : ℕ → Field → Env σ → Option (Int × Env σ)
  | 0, _, _ => none
  | fuel + 1, cur, env =>
    match if cur.type = .array then headText host cur env else none with
    | none => some (-1, host.handleError "Unexpected element type" cur env)
    | some name => exprHandler host vars (jsonProcessExpr fuel) name cur env

/-! ## Commands -/

/-- `cmd_process_strings`: the command that is given to `handle_command`, without its name. -/
def cmdProcessStrings : List Field → List Field → Env σ → Option (List Field) × Env σ
  | [], args, env => (some args, env)
  | cur :: rest, args, env =>
    if cur.type ≠ .string then cmdProcessStrings rest (args ++ [cur]) env
    else
      match evalString host vars cur.text env with
      | (none, env) => (none, env)
      | (some text, env) => cmdProcessStrings rest (args ++ [.leaf [] .string (text ++ [0])]) env

/-- A callback runs. -/
def Ctx.call (ctx : Ctx σ) (f : Env σ → Env σ) : Ctx σ := { ctx with env := f ctx.env }

/-- `json_script_get_file`. -/
def jsonScriptGetFile (filename : Bytes) (ctx : Ctx σ) : Option ScriptFile × Ctx σ :=
  match ctx.files.lookup filename with
  | some f => (some f, ctx)
  | none =>
    match host.handleFile filename ctx.env with
    | (none, env) => (none, { ctx with env := env })
    | (some f, env) => (some f, { ctx with env := env, files := (filename, f) :: ctx.files })

/-- `file->seq = seq`. -/
def markFile (seq : UInt32) (name : Bytes) (files : List (Bytes × ScriptFile)) :
    List (Bytes × ScriptFile) :=
  files.map fun f => if f.1 = name then (f.1, { f.2 with seq := seq }) else f

variable (seq : UInt32)

/-- Processing a block at a place of a file. -/
abbrev Process (σ : Type) := Bytes → List ℕ → Field → Ctx σ → Option (Int × Ctx σ)

/-- The loop of `__json_script_run` over a file and its `next` chain. -/
def runChain (process : Process σ) (name : Bytes) : ℕ → List Field → Ctx σ → Option (Ctx σ)
  | _, [], ctx => some ctx
  | i, data :: chain, ctx =>
    (process name [i] data ctx).bind fun (_, ctx) => runChain process name (i + 1) chain ctx

/-- `__json_script_run`. -/
def jsonScriptRun' (process : Process σ) (name : Bytes) (file : ScriptFile)
    (context : Option Field) (ctx : Ctx σ) : Option (Ctx σ) :=
  if file.seq = seq then
    match context with
    | some expr => some (ctx.call (host.handleError "Recursive include" expr))
    | none => some ctx
  else
    runChain process name 0 file.data
      { ctx with files := markFile seq name ctx.files, log := ctx.log ++ [.file name] }

/-- `handle_if`. -/
def handleIf (eval : Field → Env σ → Option (Int × Env σ)) (process : Process σ) (name : Bytes)
    (place : List ℕ) (expr : Field) (ctx : Ctx σ) : Option (Int × Ctx σ) :=
  let tb := blobmsgParseArray [.string, .array, .array, .array] expr.elems 0
  match entry tb 1, entry tb 2 with
  | some (_, cond), some (i, block) =>
    (eval cond ctx.env).bind fun (ret, env) =>
      let ctx := { ctx with env := env }
      if ret < 0 then some (0, ctx)
      else if ret ≠ 0 then process name (i :: place) block ctx
      else
        match entry tb 3 with
        | none => some (0, ctx)
        | some (j, block) => process name (j :: place) block ctx
  | _, _ => some (0, ctx)

/-- `handle_case`. -/
def handleCase (process : Process σ) (name : Bytes) (place : List ℕ) (expr : Field)
    (ctx : Ctx σ) : Option (Int × Ctx σ) :=
  let tb := jsonGetTuple expr .string .table
  match entry tb 1, entry tb 2 with
  | some (_, arg), some (i, cases) =>
    match jsonScriptFindVar host vars arg.text ctx.env with
    | (none, env) => some (0, { ctx with env := env })
    | (some var, env) =>
      let ctx := { ctx with env := env }
      match cases.elems.zipIdx.find? fun cur => var = cur.1.name with
      | none => some (0, ctx)
      | some (cur, j) => process name (j :: i :: place) cur ctx
  | _, _ => some (0, ctx)

/-- `handle_include`. -/
def handleInclude (process : Process σ) (expr : Field) (ctx : Ctx σ) : Option (Int × Ctx σ) :=
  match entry (jsonGetTuple expr .string .unspec) 1 with
  | none => some (0, ctx)
  | some (_, arg) =>
    match jsonScriptGetFile host arg.text ctx with
    | (none, ctx) => some (0, ctx)
    | (some f, ctx) =>
      (jsonScriptRun' host seq process arg.text f (some expr) ctx).bind fun ctx => some (0, ctx)

/-- The table `cmd` and `handle_command`. -/
def cmdHandler (eval : Field → Env σ → Option (Int × Env σ)) (process : Process σ) (file : Bytes)
    (place : List ℕ) (name : Bytes) (cur : Field) (ctx : Ctx σ) : Option (Int × Ctx σ) :=
  if name = ascii "if" then handleIf eval process file place cur ctx
  else if name = ascii "case" then handleCase host vars process file place cur ctx
  else if name = ascii "return" then some (-2, ctx)
  else if name = ascii "include" then handleInclude host seq process cur ctx
  else
    match cmdProcessStrings host vars (cur.elems.drop 1) [] ctx.env with
    | (none, env) =>
      some (-1, { ctx with
        env := host.handleError "Unterminated variable reference in string" cur env })
    | (some args, env) =>
      some (0, { ctx with env := host.handleCommand name (.nest [] true args) vars env })

/-- `__json_process_cmd`. -/
def jsonProcessCmd' (eval : Field → Env σ → Option (Int × Env σ)) (process : Process σ)
    (file : Bytes) (place : List ℕ) (cur : Field) (ctx : Ctx σ) : Option (Int × Ctx σ) :=
  let ctx := { ctx with log := ctx.log ++ [.command file place] }
  match if cur.type = .array then headText host cur ctx.env else none with
  | none => some (-1, ctx.call (host.handleError "Unexpected element type" cur))
  | some name => cmdHandler host vars seq eval process file place name cur ctx

/-- The loop of `json_process_cmd` over the elements of a block. -/
def processLoop (eval : Field → Env σ → Option (Int × Env σ)) (process : Process σ)
    (file : Bytes) (place : List ℕ) (block : Field) : ℕ → List Field → Ctx σ →
    Option (Int × Ctx σ)
  | _, [], ctx => some (0, ctx)
  | i, cur :: rest, ctx =>
    if ctx.env.abort then some (0, ctx)
    else if cur.type = .string ∧ i = 0 then
      jsonProcessCmd' host vars seq eval process file place block ctx
    else
      (process file (i :: place) cur ctx).bind fun (ret, ctx) =>
        if ret < -1 then some (ret, ctx)
        else processLoop eval process file place block (i + 1) rest ctx

/-- `json_process_cmd`. -/
def jsonProcessCmd : ℕ → Process σ
  | 0, _, _, _, _ => none
  | fuel + 1, file, place, block, ctx =>
    if block.type ≠ .array then
      some (-1, ctx.call (host.handleError "Unexpected element type" block))
    else
      processLoop host vars seq (jsonProcessExpr host vars fuel) (jsonProcessCmd fuel) file place
        block 0 block.elems ctx

end

section
variable {σ : Type} (host : Host σ)

/-- The next sequence number: `++_seq`, which skips 0. -/
def nextSeq (seq : UInt32) : UInt32 := if seq + 1 = 0 then seq + 2 else seq + 1

/-- `json_script_run_file`, for a file of the tree. -/
def jsonScriptRunFile (fuel : ℕ) (name : Bytes) (file : ScriptFile) (vars : List Field)
    (ctx : Ctx σ) : Option (Ctx σ) :=
  let seq := nextSeq ctx.seq
  jsonScriptRun' host seq (jsonProcessCmd host vars seq fuel) name file none
    { ctx with seq := seq, env := { ctx.env with abort := false } }

/-- `json_script_run`. -/
def jsonScriptRun (fuel : ℕ) (name : Bytes) (vars : List Field) (ctx : Ctx σ) :
    Option (Ctx σ) :=
  match jsonScriptGetFile host name ctx with
  | (none, ctx) => some ctx
  | (some file, ctx) => jsonScriptRunFile host fuel name file vars ctx

end

end JsonScript
