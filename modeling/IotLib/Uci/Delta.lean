/-
  The changes of a package that were saved (`delta.c`): a line for each of them,
  and what becomes of a package when these lines are read.
-/
import IotLib.Uci.File

namespace Uci

/-- `uci_command_char` -/
def uciCommandChar : Command → UInt8
  | .add => 43
  | .remove => 45
  | .change => 0
  | .rename => 64
  | .reorder => 94
  | .listAdd => 124
  | .listDel => 126

def commands : List Command := [.add, .remove, .change, .rename, .reorder, .listAdd, .listDel]

/-- The command that a line starts with. -/
def commandOf (b : UInt8) : Command :=
  (commands.find? fun cmd => uciCommandChar cmd == b).getD .change

/-! ## Saving -/

/-- The character of a command, if it has one. -/
def Command.lead (cmd : Command) : Str :=
  if uciCommandChar cmd = 0 then [] else [uciCommandChar cmd]

/-- `uci_delta_save` -/
def uciDeltaSave (name : Str) (d : Delta) : Str :=
  d.cmd.lead ++ name ++ [dot] ++ d.sect ++ (d.option.elim [] fun option => dot :: option) ++
    (if d.cmd = .remove ∧ d.value = none then []
      else [equals, quote] ++ uciEscape (d.value.getD []) ++ [quote]) ++ [newline]

/-- `uci_save` to a file with the given contents. -/
def uciSave (file : Str) (p : Package) : Str × Package :=
  (file ++ p.delta.flatMap (uciDeltaSave p.name), { p with delta := [] })

/-! ## Reading -/

/-- `strsep`: the string up to the separator, and the rest behind it. -/
def strsep (sep : UInt8) : Option Str → Option Str × Option Str
  | none => (none, none)
  | some str =>
    (some (str.takeWhile (· ≠ sep)),
      if sep ∈ str then some ((str.dropWhile (· ≠ sep)).drop 1) else none)

/-- `uci_parse_ptr`: the name of the package, the element, and whether the name
    of its section is an extended one. -/
def uciParsePtr (str : Str) : Except Err (Str × Ptr × Bool) :=
  let value := if equals ∈ str then some ((str.dropWhile (· ≠ equals)).drop 1) else none
  let package := strsep dot (some (str.takeWhile (· ≠ equals)))
  let sect := strsep dot package.2
  let option := strsep dot sect.2
  if (strsep dot option.2).1 ≠ none ∨ package.1.any uciValidatePackage = false ∨
      option.1.all uciValidateName = false ∨ value.all uciValidateText = false then
    .error (.parse "" 0 0)
  else
    .ok (package.1.getD [], { sect := sect.1, option := option.1, value := value },
      !sect.1.all uciValidateName)

/-- `uci_parse_delta_tuple`: the command, the name of the package, and the element. -/
def uciParseDeltaTuple : M (Command × Str × Ptr) := do
  let ofs ← nextArg false false false
  let c ← get
  if c.curStr ≠ [] then throw .inval
  let arg := c.str ofs
  let cmd := commandOf (arg.headD 0)
  match uciParsePtr (if cmd = .change then arg else arg.tail) with
  | .error e => throw e
  | .ok (package, ptr, extended) =>
    if ptr.sect = none ∨ extended = true ∨ (cmd ≠ .remove ∧ ptr.value = none) then throw .inval
    match cmd with
    | .reorder => if ptr.option ≠ none then throw .inval
    | .rename => if ptr.value.all uciValidateName = false then throw .inval
    | .listAdd | .listDel => if ptr.option = none then throw .inval
    | _ => pure ()
    return (cmd, package, ptr)

/-- What a command does to the package; the functions are called as internal ones. -/
def runDelta (cmd : Command) (ptr : Ptr) (p : Package) : Except Err Package :=
  match cmd with
  | .reorder => do
    let ptr ← uciExpandPtr p ptr true
    match ptr.s with
    | none => throw .notfound
    | some s => return uciReorderSection true p s (strtoulInt (ptr.value.getD []))
  | .rename => uciRename true p ptr
  | .remove => uciDelete true p ptr
  | .listAdd => uciAddList true p ptr
  | .listDel => uciDelList true p ptr
  | .add => do
    let (p, s) ← uciSet true p ptr
    match s with
    | some i => return if ptr.option = none then p.modSect i fun x => { x with anonymous := true } else p
    | none => return p
  | .change => (uciSet true p ptr).map Prod.fst

/-- `uci_parse_delta_line` -/
def uciParseDeltaLine : M Unit := do
  let (cmd, package, ptr) ← uciParseDeltaTuple
  let c ← get
  if c.package.all (fun p => decide (p.name = package)) = false then throw (.parse "" 0 0)
  liftPackage fun p => (runDelta cmd ptr p).map fun p => (p, ())

/-- The loop of `uci_parse_delta`. A line that is in error is skipped. -/
def deltaLoop : Nat → Nat → M Nat
  | 0, changes => return changes
  | fuel + 1, changes => do
    let c ← get
    if c.eof then return changes
    let c := uciGetln { c with pos := 0 } 0
    set c
    if c.char 0 = 0 then deltaLoop fuel changes
    else
      let ok ← try
          uciParseDeltaLine
          pure true
        catch _ => pure false
      deltaLoop fuel (if ok then changes + 1 else changes)

/-- `uci_parse_delta`: the number of changes. The package is that of the context. -/
def uciParseDelta (stream : Str) : M Nat := do
  modify fun c => { strict := c.strict, root := c.root, file := stream, package := c.package }
  deltaLoop (stream.length + 2) 0

/-- `uci_load_delta_file` for a file of the search path, if it can be opened. -/
def uciLoadDeltaFile (file : Option Str) : M Nat :=
  match file with
  | none => return 0
  | some stream => uciParseDelta stream

/-- `uci_load_delta`, for the files of the search path; the saved changes are not flushed. -/
def uciLoadDelta (files : List (Option Str)) : M Nat := do
  let c ← get
  if c.package.any Package.hasDelta = false then return 0
  files.foldlM (fun changes file => return changes + (← uciLoadDeltaFile file)) 0

end Uci
