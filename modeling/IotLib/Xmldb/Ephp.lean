/-
  The script interpreter of xmldb (`ephp.c`), and the daemon that runs it between other requests.

  A script is what `do_embeded_php` and `parse_ephp` make of its file. A step of the daemon is a
  request or one step of the running script; a script that does not end goes on for ever.
-/
import IotLib.Xmldb.Pointer

namespace Xmldb.Ephp

/-! ## Scripts -/

mutual

/-- `strlist_t` without its operator. -/
inductive StrElem where
  | str (str : Bytes)
  | var (name : Bytes)
  | query (js : Bool) (node : StrList)

/-- A list of `strlist_t`; the operator stands behind its element. -/
inductive StrList where
  | nil
  | cons (elem : StrElem) (op : UInt8) (next : StrList)

end

inductive IfOp where
  | equal | notEqual | greaterThan | lessThan | greaterEqual | lessEqual

inductive IfNext where
  | end_ | and | or
deriving DecidableEq

/-- `cond_t` -/
structure Cond where
  operand1 : StrList
  op : IfOp
  operand2 : StrList
  next : IfNext

inductive AssignOp where
  | assign | add | sub | increase | decrease

/-- `sblock_t` -/
inductive Stmt where
  | require (file : StrList)
  | anchor (node : StrList)
  | query (js : Bool) (node : StrList)
  | del (node : StrList)
  | set (node value : StrList)
  | echo (string : StrList)
  | assign (name : Bytes) (op : AssignOp) (value : StrList)
  | map (node : StrList) (mptr : List (StrList × StrList)) (default : Option StrList)
  | inclog (format file : Bytes)
  | cond (condition : List Cond) (true_ false_ : List Stmt)
  | for_ (node : StrList) (statement : List Stmt)
  | exit

/-- A part of a script file: text, `<?=$name?>`, a block of code, or one with an error, with the
    message for it. -/
inductive Item where
  | text (text : Bytes)
  | echoVar (name : Bytes)
  | code (shead : List Stmt)
  | bad (message : Bytes)

/-- The files that a script reads: scripts, and the lines of logs. -/
structure Env where
  files : Bytes → Option (List Item)
  logs : Bytes → Option (List Bytes)

/-! ## Strings -/

/-- The daemon does not go on: it accesses a node that was deleted, perhaps before the request came,
    or is stopped by a signal. -/
inductive Stop where
  | freed (stale : Bool)
  | signal
deriving DecidableEq, Repr

/-- `g_nspace` -/
abbrev Vars := List (Bytes × Bytes)

/-- The value of strings; variables are created when they are read. -/
abbrev Eval := StateT Vars (Except Stop)

/-- `get_var_value` -/
def getVarValue (name : Bytes) : Eval Bytes := fun vars =>
  match vars.find? fun v => v.1 = name with
  | some v => .ok (v.2, vars)
  | none => .ok ([], (name, []) :: vars)

/-- `set_var` -/
def setVar (name value : Bytes) (vars : Vars) : Vars :=
  match vars.findIdx? fun v => v.1 = name with
  | some i => vars.modify i fun v => (v.1, value)
  | none => (name, value) :: vars

/-- An access by way of a pointer. -/
def access {α : Type} (p : NodePtr) (r : Option α) : Except Stop α :=
  match r with
  | some a => .ok a
  | none => .error (.freed (p = .dangling true))

/-- The conversion `%d`. -/
def formatInt (n : Int) : Bytes :=
  if n = 0 then ascii "0" else if n < 0 then 0x2D :: decimal n.natAbs else decimal n.natAbs

/-- An `int`. -/
def wrap (n : Int) : Int := n.bmod (2 ^ 32)

/-- The loop of `query_node` for a string in a script, with room for `n` bytes. -/
def escapeJs : ℕ → Bytes → Bytes
  | 0, _ => []
  | _ + 1, [] => []
  | n + 1, c :: str =>
    if c = 0x22 ∨ c = 0x24 ∨ c = 0x5C then 0x5C :: c :: escapeJs (n - 1) str
    else c :: escapeJs n str

/-- `query_node` -/
def queryNode (tree : XmlNode) (anchor : NodePtr) (node : Bytes) (js : Bool) : Except Stop Bytes := do
  let str ← access anchor (getValueFrom tree anchor node)
  return if js then escapeJs 511 str else str

/-- The operators of `convert_strlst`. -/
def isOp (op : UInt8) : Bool := op ∈ ascii ".+-*/%"

/-- The operation in `convert_strlst`; a division that is not possible raises a signal. -/
def applyOp (op : UInt8) (final result : Bytes) : Except Stop Bytes :=
  let a := atoi final
  let b := atoi result
  if op = 0x2E then .ok (final ++ result)
  else if op = 0x2B then .ok (formatInt (wrap (a + b)))
  else if op = 0x2D then .ok (formatInt (wrap (a - b)))
  else if op = 0x2A then .ok (formatInt (wrap (a * b)))
  else if op = 0x2F then
    if b = 0 then .ok final
    else if a = -2 ^ 31 ∧ b = -1 then .error .signal
    else .ok (formatInt (a.tdiv b))
  else if op = 0x25 then
    if b = 0 ∨ (a = -2 ^ 31 ∧ b = -1) then .error .signal else .ok (formatInt (a.tmod b))
  else .ok result

section
variable (tree : XmlNode) (anchor : NodePtr)

mutual

/-- An element of `convert_strlst`. -/
def convertElem : StrElem → Eval Bytes
  | .str str => pure (str.take 511)
  | .var name => do
    let value ← getVarValue name
    return value.take 511
  | .query js node => do
    let node ← convertLoop 0 [] node
    let value ← (queryNode tree anchor node js : Except Stop Bytes)
    return value.take 511

/-- The loop of `convert_strlst`. -/
def convertLoop (op : UInt8) (final : Bytes) : StrList → Eval Bytes
  | .nil => pure final
  | .cons elem op' next => do
    let result ← convertElem elem
    let final ← (applyOp op final result : Except Stop Bytes)
    if isOp op' then convertLoop op' final next else return final

end

/-- `convert_strlst` -/
def convertStrlst (head : StrList) : Eval Bytes := convertLoop tree anchor 0 [] head

/-- The comparison in `check_condition`. -/
def compare (op : IfOp) (op1 op2 : Bytes) : Bool :=
  match op with
  | .equal => op1 == op2
  | .notEqual => op1 != op2
  | .greaterThan => atoi op1 > atoi op2
  | .lessThan => atoi op1 < atoi op2
  | .greaterEqual => atoi op1 ≥ atoi op2
  | .lessEqual => atoi op1 ≤ atoi op2

/-- The loop of `check_condition`; nothing for −1. -/
def checkCondition (ret : Option Bool) : List Cond → Eval (Option Bool)
  | [] => pure ret
  | cptr :: next => do
    let op1 ← convertStrlst tree anchor cptr.operand1
    let op2 ← convertStrlst tree anchor cptr.operand2
    let r := compare cptr.op op1 op2
    if (cptr.next = .and ∧ !r) ∨ (cptr.next = .or ∧ r) ∨ cptr.next = .end_ then return some r
    else checkCondition (some r) next

/-- The loop of `execute_map` over the patterns. -/
def mapOutput (value : Bytes) (default : Option StrList) : List (StrList × StrList) → Eval Bytes
  | [] =>
    match default with
    | some output => convertStrlst tree anchor output
    | none => pure value
  | mptr :: next => do
    let patt ← convertStrlst tree anchor mptr.1
    if patt = value then convertStrlst tree anchor mptr.2 else mapOutput value default next

end

/-- The fields of a line of a log. -/
def logFields (line : Bytes) : List Bytes :=
  (line.splitOn 0x7C).map fun field => xmldbReatwhite (xmldbEatwhite field)

/-- The loop of `execute_inclog` over the format; a field that does not exist raises a signal. -/
def formatLog (field : List Bytes) : Bytes → Except Stop Bytes
  | [] => .ok []
  | [c] => .ok (if c = 0x25 then [] else [c])
  | c :: d :: curr =>
    if c = 0x25 then
      if isDigit d then
        match field[d.toNat - 0x30]? with
        | some text => (formatLog field curr).map (text ++ ·)
        | none => .error .signal
      else (formatLog field curr).map (d :: ·)
    else (formatLog field (d :: curr)).map (c :: ·)

/-! ## The interpreter -/

/-- What is running: a file, a list of statements, or a `for` before its turn for `id`. -/
inductive Frame where
  | file (items : List Item)
  | block (shead : List Stmt)
  | loop (pnode : NodePtr) (entry : Bytes) (id : ℕ) (statement : List Stmt) (oldAnchor : NodePtr)
      (oldnum : Bytes)

def Frame.pointers : Frame → List NodePtr
  | .loop pnode _ _ _ oldAnchor _ => [pnode, oldAnchor]
  | _ => []

def Frame.mapPointers (f : NodePtr → NodePtr) : Frame → Frame
  | .loop pnode entry id statement oldAnchor oldnum =>
    .loop (f pnode) entry id statement (f oldAnchor) oldnum
  | frame => frame

/-- The daemon: `g_xml_root`, the static variables of the interpreter, what has been written to the
    client, and the calls under way, with the value that the last one returned. -/
structure State where
  tree : XmlNode
  anchor : NodePtr
  vars : Vars
  buffer : Bytes
  written : Bytes
  running : Bool
  stack : List Frame
  ret : Int
  stop : Option Stop

/-- The pointers to nodes that are kept from one step to the next. -/
def State.pointers (s : State) : List NodePtr := s.anchor :: s.stack.flatMap Frame.pointers

def BUFFER_SIZE : ℕ := 1024

/-- `b_flush` -/
def State.flush (s : State) : State := { s with written := s.written ++ s.buffer, buffer := [] }

/-- `b_putc` -/
def State.putc (s : State) (c : UInt8) : State :=
  let s := { s with buffer := s.buffer ++ [c] }
  if s.buffer.length = BUFFER_SIZE then s.flush else s

/-- `b_puts` -/
def State.puts (s : State) (str : Bytes) : State := str.foldl State.putc s

def State.push (s : State) (frame : Frame) : State := { s with stack := frame :: s.stack }

def State.setVar (s : State) (name value : Bytes) : State :=
  { s with vars := Ephp.setVar name value s.vars }

/-- The value of strings, and then a step. -/
def State.evalThen {α : Type} (s : State) (x : Eval α) (f : α → State → Except Stop State) :
    Except Stop State := do
  let r ← x s.vars
  f r.1 { s with vars := r.2 }

def State.mapPointers (f : NodePtr → NodePtr) (s : State) : State :=
  { s with anchor := f s.anchor, stack := s.stack.map (Frame.mapPointers f) }

/-- The node of a deletion is taken out. -/
def State.without (s : State) (r : XmlNode × Option Loc) : State :=
  match r.2 with
  | some removed => { s.mapPointers (NodePtr.without removed) with tree := r.1 }
  | none => { s with tree := r.1 }

/-- `convert_strlst` in a state. -/
def State.str (s : State) (head : StrList) : Eval Bytes := convertStrlst s.tree s.anchor head

/-- `execute_require` -/
def executeRequire (env : Env) (file : StrList) (s : State) : Except Stop State :=
  s.evalThen (s.str file) fun fname s =>
    match env.files fname with
    | some ephpfd => .ok (s.push (.file ephpfd))
    | none => .ok { s with ret := -1 }

/-- `execute_anchor` -/
def executeAnchor (node : StrList) (s : State) : Except Stop State :=
  s.evalThen (s.str node) fun node s => do
    let root := if node.head? = some 0x2F then .null else s.anchor
    let r ← access root (findFrom s.tree root node false)
    return { s with anchor := r.2 }

/-- `_exec_query` -/
def execQuery (js : Bool) (node : StrList) (s : State) : Except Stop State :=
  s.evalThen (s.str node) fun node s => do
    let value ← queryNode s.tree s.anchor node js
    return s.puts value

/-- `execute_del` -/
def executeDel (node : StrList) (s : State) : Except Stop State :=
  s.evalThen (s.str node) fun node s => do
    let r ← access s.anchor (xmldbDelNode s.tree s.anchor node)
    return s.without r

/-- `execute_set` -/
def executeSet (node value : StrList) (s : State) : Except Stop State :=
  s.evalThen (s.str node) fun node s =>
    s.evalThen (s.str value) fun value s => do
      let r ← access s.anchor (setValueFrom s.tree s.anchor node value)
      return { s with tree := r.1 }

/-- `execute_echo` -/
def executeEcho (string : StrList) (s : State) : Except Stop State :=
  s.evalThen (s.str string) fun str s => .ok (s.puts str)

/-- The value that `execute_assign` gives to a variable. -/
def assignValue (name : Bytes) (op : AssignOp) (str : Bytes) : Eval Bytes :=
  match op with
  | .assign => pure str
  | .add => do return formatInt (wrap (atoi (← getVarValue name) + atoi str))
  | .sub => do return formatInt (wrap (atoi (← getVarValue name) - atoi str))
  | .increase => do return formatInt (wrap (atoi (← getVarValue name) + 1))
  | .decrease => do return formatInt (wrap (atoi (← getVarValue name) - 1))

/-- `execute_assign` -/
def executeAssign (name : Bytes) (op : AssignOp) (value : StrList) (s : State) : Except Stop State :=
  s.evalThen (s.str value) fun str s =>
    s.evalThen (assignValue name op str) fun buf s => .ok (s.setVar name buf)

/-- `execute_map` -/
def executeMap (node : StrList) (mptr : List (StrList × StrList)) (default : Option StrList)
    (s : State) : Except Stop State :=
  s.evalThen (s.str node) fun node s => do
    let value ← queryNode s.tree s.anchor node false
    s.evalThen (mapOutput s.tree s.anchor value default mptr) fun output s => .ok (s.puts output)

/-- The lines that `execute_inclog` writes. -/
def logLines (format : Bytes) : List Bytes → Except Stop Bytes
  | [] => .ok []
  | line :: next => do
    let text ← formatLog (logFields line) format
    let rest ← logLines format next
    return text ++ 0x0A :: rest

/-- `execute_inclog` without `tlogs`. -/
def executeInclog (env : Env) (format file : Bytes) (s : State) : Except Stop State :=
  match env.logs file with
  | some lines => (logLines format lines).map s.puts
  | none => .ok s

/-- `execute_if` -/
def executeIf (condition : List Cond) (true_ false_ : List Stmt) (s : State) : Except Stop State :=
  s.evalThen (checkCondition s.tree s.anchor none condition) fun ret s =>
    match ret with
    | none => .ok { s with ret := -1 }
    | some true => .ok (s.push (.block true_))
    | some false => .ok (s.push (.block false_))

/-- The node whose children `execute_for` goes through. -/
def forParent (tree : XmlNode) (anchor : NodePtr) (path : Bytes) : Except Stop NodePtr :=
  if 0x2F ∈ path then
    let path := ((path.reverse.dropWhile (· ≠ 0x2F)).drop 1).reverse
    (access anchor (findFrom tree anchor path false)).map Prod.snd
  else .ok anchor

/-- `execute_for` up to its loop. -/
def executeFor (node : StrList) (statement : List Stmt) (s : State) : Except Stop State :=
  s.evalThen (s.str node) fun path s => do
    let entry := (path.reverse.takeWhile (· ≠ 0x2F)).reverse
    let pnode ← forParent s.tree s.anchor path
    if pnode = .null then return s
    else
      s.evalThen (getVarValue (ascii "#")) fun oldnum s =>
        .ok (s.push (.loop pnode entry 1 statement s.anchor oldnum))

/-- A turn of `execute_sblist`. -/
def execute (env : Env) : Stmt → State → Except Stop State
  | .require file => executeRequire env file
  | .anchor node => executeAnchor node
  | .query js node => execQuery js node
  | .del node => executeDel node
  | .set node value => executeSet node value
  | .echo string => executeEcho string
  | .assign name op value => executeAssign name op value
  | .map node mptr default => executeMap node mptr default
  | .inclog format file => executeInclog env format file
  | .cond condition true_ false_ => executeIf condition true_ false_
  | .for_ node statement => executeFor node statement
  | .exit => fun s => .ok { s with ret := 1 }

/-- A turn of the loop of `execute_for`: the sibling with the next id becomes the anchor. -/
def loopTurn (pnode : NodePtr) (entry : Bytes) (id : ℕ) (statement : List Stmt) (oldAnchor : NodePtr)
    (oldnum : Bytes) (s : State) : Except Stop State := do
  let next ← access pnode (deref s.tree pnode .null fun loc node =>
    (node.child.findIdx? (isSibling entry id)).elim .null fun i => .node (loc ++ [i]))
  if next = .null then return { s.setVar (ascii "#") oldnum with anchor := oldAnchor }
  else
    let s := { s.setVar (ascii "#") (formatInt id) with anchor := next }
    return (s.push (.loop pnode entry (id + 1) statement oldAnchor oldnum)).push (.block statement)

/-- A step of the innermost call; a call that has returned something else than 0 ends those around
    it. -/
def frameStep (env : Env) (s : State) : Frame → Except Stop State
  | .loop pnode entry id statement oldAnchor oldnum =>
    if s.ret ≠ 0 then .ok { s.setVar (ascii "#") oldnum with anchor := oldAnchor }
    else loopTurn pnode entry id statement oldAnchor oldnum s
  | .file [] => .ok s
  | .block [] => .ok s
  | .file (item :: items) =>
    if s.ret ≠ 0 then .ok s
    else
      let s := s.push (.file items)
      match item with
      | .text text => .ok (s.puts text)
      | .echoVar name => s.evalThen (getVarValue name) fun value s => .ok (s.puts value)
      | .code shead => .ok (s.push (.block shead))
      | .bad message => .ok { s.puts message with ret := -1 }
  | .block (sbptr :: shead) =>
    if s.ret ≠ 0 then .ok s else execute env sbptr (s.push (.block shead))

/-- The end of `xmldb_ephp`. -/
def State.finish (s : State) : State :=
  { ({ s with vars := [] }.putc 0).flush with running := false, ret := 0 }

/-- A step of the running script. -/
def tick (env : Env) (s : State) : Except Stop State :=
  match s.stack with
  | [] => .ok s.finish
  | frame :: stack => frameStep env { s with stack := stack } frame

/-! ## The daemon -/

/-- A request, or a step of the running script. The script of a request may not be there. -/
inductive Event where
  | set (path value : Bytes)
  | setNotify (path message : Bytes)
  | del (path : Bytes)
  | reload (file : Option Bytes) (skipProc : Bool)
  | ephp (file : Option (List Item)) (vars : Vars)
  | tick (env : Env)

/-- What is dangling was left behind by an earlier request. -/
def NodePtr.aged : NodePtr → NodePtr
  | .dangling _ => .dangling true
  | p => p

/-- `xmldb_ephp` up to `do_embeded_php`. -/
def State.start (s : State) (file : Option (List Item)) (vars : Vars) : State :=
  let s := { s.mapPointers NodePtr.aged with written := [], running := true, ret := 0 }
  match file with
  | some ephpfd =>
    (vars.foldl (fun s v => s.setVar v.1 v.2) (s.setVar (ascii "#") (ascii "0"))).push (.file ephpfd)
  | none => s

/-- A request, with its path from the root of the tree. -/
def request (rootname : Bytes) (s : State) : Event → Except Stop State
  | .set path value => do
    let r ← access .null (setValueFrom s.tree .null (path.map toLower) value)
    return { s with tree := r.1 }
  | .setNotify path message => do
    let tree ← access .null (setNotifyFrom s.tree .null (path.map toLower) message)
    return { s with tree := tree }
  | .del path => do
    let r ← access .null (xmldbDelNode s.tree .null (path.map toLower))
    return s.without r
  | .reload file skipProc => .ok
    { s.mapPointers (reloadPtr rootname s.tree file skipProc) with
      tree := (xmldbReadXml rootname s.tree file skipProc).1 }
  | .ephp file vars => .ok (s.start file vars)
  | .tick _ => .ok s

/-- A step of the daemon; requests wait until the running script has ended. -/
def serve (rootname : Bytes) (s : State) (event : Event) : Except Stop State :=
  match s.running, event with
  | true, .tick env => tick env s
  | true, _ => .ok s
  | false, event => request rootname s event

def step (rootname : Bytes) (s : State) (event : Event) : State :=
  if s.stop ≠ none then s
  else
    match serve rootname s event with
    | .ok s => s
    | .error stop => { s with stop := some stop }

def init (tree : XmlNode) : State := ⟨tree, .null, [], [], [], false, [], 0, none⟩

end Xmldb.Ephp
