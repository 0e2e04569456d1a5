/-
  The text format of packages (`file.c`): `uci_import` and `uci_export`.
-/
import IotLib.Uci.Parse

namespace Uci

/-- The bytes of an ASCII string. -/
def bytes (str : String) : Str := str.toList.map fun c => UInt8.ofNat c.toNat

/-! ## Commands -/

/-- `assert_eol` -/
def assertEol : M Unit := do
  modify skipWhitespace
  let ofs ← nextArg false false false
  let c ← get
  if c.str ofs ≠ [] ∧ c.strict = true then uciParseError "too many arguments"

/-- `uci_switch_config` -/
def uciSwitchConfig : M Unit := do
  let c ← get
  let c :=
    match c.package with
    | none => c
    | some p => { c with root := c.root ++ [p], package := none, sect := none }
  set c
  match c.name with
  | none => return
  | some name =>
    if ∃ p ∈ c.root, p.name = name then throw .duplicate
    set { c with package := some { name := name } }

/-- `uci_parse_package` -/
def uciParsePackage (single : Bool) : M Unit := do
  let c ← get
  uciIncreasePos (c.curStr.length + 1) "package without name"
  let ofs ← nextArg true true true
  assertEol
  let c ← get
  if single = false then
    set { c with name := some (c.str ofs) }
    uciSwitchConfig

/-- A change of the package that may fail. -/
def liftPackage {α : Type} (f : Package → Except Err (Package × α)) : M α := do
  let c ← get
  match c.package with
  | none => throw .inval
  | some p =>
    match f p with
    | .error e => throw e
    | .ok (p, a) =>
      set { c with package := some p }
      return a

/-- The section with the given name, which has another type. -/
def otherType (p : Package) (name type : Str) : Bool :=
  match p.lookup name with
  | none => false
  | some s => (p.sect s).type ≠ type

/-- `uci_parse_config` -/
def uciParseConfig : M Unit := do
  let c ← get
  if c.package = none then
    if c.name = none then
      uciParseError "attempting to import a file without a package name"
    uciSwitchConfig
  let c ← get
  uciIncreasePos (c.curStr.length + 1) "config without name"
  let ofsType ← nextArg true false false
  let c ← get
  if uciValidateType (c.str ofsType) = false then
    uciParseError "invalid character in type field"
  let ofsName ← nextArg false true false
  assertEol
  let c ← get
  let type := c.str ofsType
  let name := c.str ofsName
  if name = [] then
    let s ← liftPackage fun p => .ok (uciAddSection (!c.merge) p type, p.sections.length)
    modify fun c => { c with sect := some s }
  else
    if c.strict = true ∧ c.package.any (fun p => otherType p name type) = true then
      uciParseError "section of different type overwrites prior section with same name"
    let s ← liftPackage fun p => uciSet (!c.merge) p
      { sect := some name, value := some type, s := p.lookup name, done := true }
    modify fun c => { c with sect := s }

/-- `uci_add_list` or `uci_set` -/
def putOption (list internal : Bool) (p : Package) (ptr : Ptr) : Except Err Package :=
  if list then uciAddList internal p ptr else (uciSet internal p ptr).map Prod.fst

/-- `uci_parse_option` -/
def uciParseOption (list : Bool) : M Unit := do
  let c ← get
  if c.sect = none then uciParseError "option/list command found before the first section"
  uciIncreasePos (c.curStr.length + 1) "option without name"
  let ofsName ← nextArg true true false
  let ofsValue ← nextArg false false false
  assertEol
  let c ← get
  let name := c.str ofsName
  let s := c.sect.getD 0
  let ptr := fun (p : Package) =>
    { sect := some (p.sect s).name, option := some name, value := some (c.str ofsValue),
      s := some s, o := (p.sect s).lookup name, done := true : Ptr }
  liftPackage fun p => (putOption list (!c.merge) p (ptr p)).map fun p => (p, ())

/-! ## Lines -/

/-- A delimiter of `strtok` here. -/
def isDelim (b : UInt8) : Bool := b == space || b == tab

/-- `strtok(pctx_cur_str(pctx), " \t")` -/
def strtok : M (Option Str) := do
  let c ← get
  let str := c.curStr.dropWhile isDelim
  let word := str.takeWhile fun b => !isDelim b
  let stop := c.pos + (c.curStr.length - str.length) + word.length
  if word.length < str.length then set (c.setChar stop 0)
  return if word = [] then none else some word

/-- The commands, which may be abbreviated to the first letter. -/
def isCommand (word : Str) (cmd : String) : Bool :=
  word = bytes cmd ∨ word = (bytes cmd).take 1

/-- The command of a line. -/
def runCommand (single : Bool) (word : Str) : M Unit :=
  if isCommand word "package" then uciParsePackage single
  else if isCommand word "config" then uciParseConfig
  else if isCommand word "option" then uciParseOption false
  else if isCommand word "list" then uciParseOption true
  else uciParseError "invalid command"

/-- The loop of `uci_parse_line`. -/
def parseLineLoop (single : Bool) : Nat → M Unit
  | 0 => return
  | fuel + 1 => do
    match ← strtok with
    | none => return
    | some word =>
      if word.head? = some hash then return
      runCommand single word
      parseLineLoop single fuel

/-- `uci_parse_line` -/
def uciParseLine (single : Bool) : M Unit := do
  modify skipWhitespace
  let c ← get
  parseLineLoop single c.fuel

/-- A parse error does not end the import unless it is strict. -/
def Err.fatal (strict : Bool) : Err → Bool
  | .parse _ _ _ => strict
  | _ => true

/-- The loop of `uci_import`. -/
def importLoop (single : Bool) : Nat → M Unit
  | 0 => return
  | fuel + 1 => do
    let c ← get
    if c.eof then return
    let c := uciGetln { c with pos := 0 } 0
    set c
    try
      if c.char 0 ≠ 0 then uciParseLine single
    catch e =>
      if e.fatal c.strict then throw e
    importLoop single fuel

/-- `uci_import` into a context: the package that was read. -/
def uciImport (stream : Str) (name : Option Str) (package : Option Package) (single : Bool) :
    M (Option Package) := do
  let merge := package.isSome && single
  let package := if merge then package else none
  modify fun c =>
    { strict := c.strict, root := c.root, file := stream, merge := merge, package := package }
  match name with
  | none => pure ()
  | some n =>
    if uciValidatePackage n = false then throw .inval
    modify fun c => { c with name := name }
  importLoop single (stream.length + 2)
  let c ← get
  if c.package = none ∧ name ≠ none then uciSwitchConfig
  let c ← get
  let result := c.package
  set { c with package := if merge then none else c.package, name := none }
  uciSwitchConfig
  return result

/-! ## Export -/

/-- `uci_escape` -/
def uciEscape : Str → Str
  | [] => []
  | b :: str =>
    if b = quote then [quote, backslash, quote, quote] ++ uciEscape str else b :: uciEscape str

/-- A line with a command, an argument, and a quoted one. -/
def exportLine (cmd : String) (arg : Str) (quoted : Option Str) : Str :=
  bytes cmd ++ [space] ++ uciEscape arg ++
    (match quoted with
      | none => []
      | some str => [space, quote] ++ uciEscape str ++ [quote]) ++ [newline]

def exportOption (o : Opt) : Str :=
  match o.value with
  | .string str => tab :: exportLine "option" o.name (some str)
  | .list items => items.flatMap fun item => tab :: exportLine "list" o.name (some item)

def exportSection (exportName : Bool) (s : Sect) : Str :=
  newline :: exportLine "config" s.type
    (if s.anonymous = false ∨ exportName = true then some s.name else none) ++
    s.options.flatMap exportOption

/-- `uci_export_package`; `exportName` is `UCI_FLAG_EXPORT_NAME`. -/
def uciExportPackage (exportName header : Bool) (p : Package) : Str :=
  (if header then exportLine "package" p.name none else []) ++
    p.sections.flatMap (exportSection exportName) ++ [newline]

end Uci
