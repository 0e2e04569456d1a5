/-
  The tags of a template (`patch.c`): values, counts, calculations, maps, conditions and variables.

  Loops that do not come to an end and accesses outside of an object have no result. A `char` is
  signed.
-/
import IotLib.Xmldb.Ephp

namespace Xmldb.Patch

open Ephp (formatInt wrap)

/-! ## What tags refer to -/

/-- `g_var` -/
abbrev Vars := Fin 10 → ℤ

/-- What a tag is read in: the tree, the flags, the current node, the number of the array entry, and
    how many there are. -/
structure Ctx where
  tree : XmlNode
  flags : ℕ
  current : Option Loc
  id : ℤ
  max : ℤ

def RGDB_ESCAPE_JS (flags : ℕ) : Bool := flags % 2 == 1

/-- `strncmp(string, pre, strlen(pre)) == 0` -/
def starts (pre : String) (string : Bytes) : Bool := (ascii pre).isPrefixOf string

/-- A `char` as a number. -/
def signed (c : UInt8) : ℤ := if c < 0x80 then c.toNat else c.toNat - 256

/-- The index `(c-'0')%10` in `g_var`. -/
def varIndex (c : UInt8) : Option (Fin 10) :=
  let i := (signed c - 0x30).tmod 10
  if i < 0 then none else some (Fin.ofNat 10 i.toNat)

/-- A character of a string, or the NUL behind it. -/
def charAt (string : Bytes) (i : ℕ) : Option UInt8 := if i ≤ string.length then some (string.getD i 0) else none

/-- The variable that is named by a string. -/
def varAt (vars : Vars) (string : Bytes) : Option ℤ :=
  (charAt string 3).bind fun c => (varIndex c).map vars

section
variable (ctx : Ctx) (vars : Vars)

/-- `xmldb_get_value` -/
def Ctx.getValue (path : Bytes) : Bytes := xmldbGetValue ctx.tree (ctx.current.getD []) path

/-- `xmldb_find_node`, which takes `NULL` for the root. -/
def Ctx.findNode (path : Bytes) : Option Loc := (xmldbFindNode ctx.tree (ctx.current.getD []) path false).2

/-- The children of a node. -/
def Ctx.children (loc : Loc) : List XmlNode := ((ctx.tree.at? loc).map XmlNode.child).getD []

/-- The path of an array, cut at its last slash. -/
def splitEntry (path : Bytes) : Option Bytes × Bytes :=
  let rev := path.reverse
  (if 0x2F ∈ path then some ((rev.dropWhile (· ≠ 0x2F)).drop 1).reverse else none,
    (rev.takeWhile (· ≠ 0x2F)).reverse)

/-- The parent node in `do_array` and `do_array_count`. -/
def Ctx.parent (path : Bytes) : Option Loc :=
  match (splitEntry path).1 with
  | none => ctx.current
  | some parent => ctx.findNode parent

/-- The entries with the numbers from `id` on, up to the first that does not exist. -/
def entriesFrom (child : List XmlNode) (entry : Bytes) : ℕ → ℤ → List (ℤ × ℕ)
  | 0, _ => []
  | n + 1, id =>
    match (xmldbFindSibling child entry id false).2 with
    | none => []
    | some i => (id, i) :: entriesFrom child entry n (id + 1)

/-- The entries of an array; there are no more than children. -/
def entries (child : List XmlNode) (entry : Bytes) : List (ℤ × ℕ) :=
  entriesFrom child entry child.length 1

/-- `do_array_count` -/
def doArrayCount (path : Bytes) : ℤ :=
  match ctx.parent path with
  | none => 0
  | some pnode => (entries (ctx.children pnode) (splitEntry path).2).length

/-! ## Calculations -/

/-- `readnum`: the number, and the rest of the string. -/
def readnum (num : Bytes) : Option (ℤ × Bytes) :=
  if num.head? = some 0x23 then some (ctx.id, num.drop 1)
  else if num.head? = some 0x40 then some (ctx.max, num.drop 1)
  else if starts "var" num then (varAt vars num).map fun v => (v, num.drop 4)
  else
    some ((num.takeWhile isDigit).foldl (fun i c => wrap (i * 10 + (c.toNat - 0x30))) 0,
      num.dropWhile isDigit)

/-- An `int` that a comparison stands for. -/
def flag (b : Bool) : ℤ := if b then 1 else 0

/-- An operation of a calculation; a division that is not possible raises a signal. -/
abbrev CalcOp := ℤ → ℤ → Option ℤ

def divide : CalcOp := fun v i => some (if 0 < i then v.tdiv i else v)

def modulo : CalcOp := fun v i => if i = 0 ∨ v = -2 ^ 31 ∧ i = -1 then none else some (v.tmod i)

/-- The operators of `do_variables`. -/
def varOps : List (String × CalcOp) :=
  [("+", fun v i => some (wrap (v + i))), ("-", fun v i => some (wrap (v - i))),
    ("*", fun v i => some (wrap (v * i))), ("/", divide), ("%", modulo)]

/-- The operators of `do_calculate`. -/
def calcOps : List (String × CalcOp) :=
  [("==", fun v i => some (flag (v = i))), ("!=", fun v i => some (flag (v ≠ i))),
    (">=", fun v i => some (flag (v ≥ i))), ("!<", fun v i => some (flag (v ≥ i))),
    ("<=", fun v i => some (flag (v ≤ i))), ("!>", fun v i => some (flag (v ≤ i)))] ++ varOps ++
  [(">", fun v i => some (flag (v > i))), ("<", fun v i => some (flag (v < i)))]

/-- The loop of a calculation; it does not get on where there is no operator. -/
def calcLoop (ops : List (String × CalcOp)) (skip : Bytes → Bytes) : ℕ → ℤ → Bytes → Option ℤ
  | 0, _, _ => none
  | n + 1, v, cstr =>
    if cstr = [] then some v
    else
      let cstr := skip cstr
      match ops.find? fun op => starts op.1 cstr with
      | none => if cstr = [] then some v else none
      | some (name, op) => do
        let (i, cstr) ← readnum ctx vars (xmldbEatwhite (cstr.drop name.length))
        calcLoop ops skip n (← op v i) cstr

/-- `do_calculate` -/
def doCalculate (v : ℤ) (cstr : Bytes) : Option ℤ :=
  calcLoop ctx vars calcOps xmldbEatwhite (cstr.length + 1) v cstr

/-- `do_variables`: whether the tag is well formed, and the variables. -/
def doVariables (tag : Bytes) : Option (Bool × Vars) :=
  if tag = [] then none
  else
    let tagmsg := xmldbEatwhite (tag.drop 1)
    if tagmsg.head? ≠ some 0x3D then some (false, vars)
    else do
      let (value, tagmsg) ← readnum ctx vars (xmldbEatwhite (tagmsg.drop 1))
      let tagmsg := xmldbEatwhite tagmsg
      let value ← calcLoop ctx vars varOps id (tagmsg.length + 1) value tagmsg
      let r ← varIndex (tag.getD 0 0)
      some (true, Function.update vars r value)

/-! ## Maps -/

/-- The string in quotes, and what is left from the closing quote on. -/
def readQuoted (i : ℕ) : Bytes → Bytes × Bytes
  | [] => ([], [])
  | [c] => if c = 0x22 then ([], [c]) else (if i < 255 then [c] else [], [])
  | c :: d :: msg =>
    if c = 0x22 then ([], c :: d :: msg)
    else if i < 255 then
      if c = 0x5C then
        let r := readQuoted (i + 1) msg
        (d :: r.1, r.2)
      else
        let r := readQuoted (i + 1) (d :: msg)
        (c :: r.1, r.2)
    else readQuoted i (d :: msg)

/-- `read_string`: the string, and the rest of the message. The closing quote may be missing. -/
def readString (message : Bytes) (stop : Option UInt8) : Bytes × Bytes :=
  if message.head? = some 0x22 then
    let r := readQuoted 0 (message.drop 1)
    if r.2.head? = some 0x22 then (r.1, r.2.drop 1) else ([], message)
  else
    ((message.takeWhile fun c => !isWhite c && some c != stop).take 255,
      message.dropWhile fun c => !isWhite c && some c != stop)

/-- `struct map_sect` -/
structure Maps where
  maps : List (Bytes × Bytes) := []
  default : Option Bytes := none

def MAX_MAP_SECTION : ℕ := 32

def Maps.add (maps : Maps) (pattern output : Bytes) : Maps :=
  if maps.maps.length < MAX_MAP_SECTION then
    if pattern = ascii "*" then { maps with default := some output }
    else { maps with maps := maps.maps ++ [(pattern, output)] }
  else maps

/-- `extract_maps`, up to the first part that is no map. -/
def extractMaps : ℕ → Maps → Bytes → Maps
  | 0, maps, _ => maps
  | n + 1, maps, msg =>
    if msg = [] then maps
    else
      let (pattern, msg) := readString (xmldbEatwhite msg) (some 0x3A)
      match xmldbEatwhite msg with
      | 0x3A :: msg =>
        if msg = [] then maps
        else
          let (output, msg) := readString (xmldbEatwhite msg) (some 0x2C)
          match xmldbEatwhite msg with
          | [] => maps.add pattern output
          | 0x2C :: msg => extractMaps n (maps.add pattern output) msg
          | _ => maps
      | _ => maps

/-- `_output` -/
def output (value : Bytes) : Bytes :=
  if RGDB_ESCAPE_JS ctx.flags then
    value.flatMap fun c => if c = 0x22 ∨ c = 0x24 ∨ c = 0x5C then [0x5C, c] else [c]
  else value

/-- `map_output` -/
def mapOutput (value map : Bytes) : Bytes :=
  let maps := extractMaps map.length {} map
  match maps.maps.find? fun m => m.1 = value with
  | some m => output ctx m.2
  | none => output ctx (maps.default.getD value)

/-- `get_node_from_cstring` stops here. -/
def isCalc (c : UInt8) : Bool := c ∈ ascii "+-*/%><=!"

/-- The value in `do_mapping`. -/
def mappingValue (path : Bytes) : Option Bytes :=
  if path = [] then none
  else if path = ascii "#" then some (formatInt ctx.id)
  else if path.getLast? = some 0x23 then some (formatInt (doArrayCount ctx path.dropLast))
  else if path.head? = some 0x25 then
    let node := (path.drop 1).takeWhile fun c => !isCalc c
    let cstr := (path.drop 1).dropWhile fun c => !isCalc c
    if 80 ≤ node.length then none
    else if node = [] then some []
    else do
      let i ←
        if node = ascii "#" then some ctx.id
        else if starts "var" node then varAt vars node
        else some (atoi (ctx.getValue node))
      (doCalculate ctx vars i cstr).map formatInt
  else if starts "var" path then (varAt vars path).map formatInt
  else some (ctx.getValue path)

/-- The path in `do_mapping`, in front of the map. -/
def mappingPath (msg : Bytes) : Bytes := xmldbReatwhite ((xmldbEatwhite msg).takeWhile (· ≠ 0x2C))

/-- `do_mapping`: what is printed. -/
def doMapping (msg : Bytes) : Option Bytes :=
  let map := ((xmldbEatwhite msg).dropWhile (· ≠ 0x2C)).drop 1
  (mappingValue ctx vars (mappingPath msg)).map fun value =>
    if map = [] then output ctx value else mapOutput ctx value map

/-! ## Conditions -/

/-- A comparison, and what follows it. -/
structure Clause where
  entry : Bytes
  op : Bytes
  oprand : Bytes
  rest : Bytes

/-- The comparison that `do_if_condition` reads next. -/
def readClause (ptr : Bytes) : Option Clause :=
  let (entry, ptr) := readString (xmldbEatwhite ptr) none
  if entry = [] then none
  else
    let (op, ptr) := readString (xmldbEatwhite ptr) none
    if op = [] then none
    else
      let (oprand, ptr) := readString (xmldbEatwhite ptr) none
      some ⟨entry, op, oprand, xmldbEatwhite ptr⟩

/-- The operators between numbers. -/
def compareInt (op : Bytes) (val1 val2 : ℤ) : Option Bool :=
  if op = ascii "==" then some (val1 = val2)
  else if op = ascii "!=" then some (val1 ≠ val2)
  else if op = ascii "<=" ∨ op = ascii "!>" then some (val1 ≤ val2)
  else if op = ascii ">=" ∨ op = ascii "!<" then some (val1 ≥ val2)
  else if op = ascii "<" then some (val1 < val2)
  else if op = ascii ">" then some (val1 > val2)
  else none

/-- The operators between strings. -/
def compareStr (op op1 op2 : Bytes) : Option Bool :=
  if op = ascii "==" then some (op1 = op2)
  else if op = ascii "!=" then some (op1 ≠ op2)
  else none

/-- A comparison in `do_if_condition`; there is no answer if the operator is unknown. The number of
    a variable on the right is taken from `index`. -/
def evalClause (index : Clause → Bytes) (c : Clause) : Option (Option Bool) :=
  if c.entry.head? = some 0x25 then do
    let entry := c.entry.drop 1
    let val1 ← if starts "var" entry then varAt vars entry else some (atoi (ctx.getValue entry))
    let val2 ←
      if starts "var" c.oprand then varAt vars (index { c with entry := entry }) else some (atoi c.oprand)
    some (compareInt c.op val1 val2)
  else do
    let op1 ←
      if starts "var" c.entry then (varAt vars c.entry).map formatInt else some (ctx.getValue c.entry)
    let op2 ←
      if starts "var" c.oprand then (varAt vars (index c)).map formatInt else some c.oprand
    some (compareStr c.op op1 op2)

/-- The comparisons of a condition, up to the one that decides it. -/
def condLoop (eval : Clause → Option (Option Bool)) : ℕ → Bool → Bytes → Option Bool
  | 0, _, _ => none
  | n + 1, res, ptr =>
    if ptr = [] then some res
    else
      match readClause ptr with
      | none => some res
      | some c => do
        match ← eval c with
        | none => some res
        | some res =>
          if starts "&&" c.rest then
            if res then condLoop eval n res (c.rest.drop 2) else some res
          else if starts "||" c.rest then
            if res then some res else condLoop eval n res (c.rest.drop 2)
          else some res

/-- A condition, with its comparisons. -/
def condition (eval : Clause → Option (Option Bool)) (tagmsg : Bytes) : Option Bool :=
  condLoop eval (tagmsg.length + 1) false (xmldbEatwhite (xmldbReatwhite tagmsg))

/-- `do_if_condition`. The number of a variable on the right is taken from the left side; and
    `entry` is freed after it was moved behind a percent sign. -/
def doIfCondition (tagmsg : Bytes) : Option Bool :=
  condition (fun c => if c.entry.head? = some 0x25 then none else evalClause ctx vars Clause.entry c) tagmsg

end

end Xmldb.Patch
