/-
  The packages of libuci and the operations on them (`list.c`, and the checks of `util.c`). A
  section or an option is referred to by its position, which stands for the pointer that the code
  passes around.
-/
import IotLib.Lib.Forall

namespace Uci

/-! ## Strings -/

/-- A C string, without the terminating null byte. -/
abbrev Str := List UInt8

def dot : UInt8 := 46
def minus : UInt8 := 45
def underscore : UInt8 := 95
def equals : UInt8 := 61

def isalnum (c : UInt8) : Bool :=
  (48 ≤ c && c ≤ 57) || (65 ≤ c && c ≤ 90) || (97 ≤ c && c ≤ 122)

/-- `uci_validate_str` -/
def uciValidateStr (str : Str) (name package : Bool) : Bool :=
  !str.isEmpty && str.all fun c =>
    isalnum c || c == underscore || (c == minus && package) || !(name || c < 33 || 126 < c)

/-- `uci_validate_package` -/
def uciValidatePackage (str : Str) : Bool := uciValidateStr str false true

/-- `uci_validate_type` -/
def uciValidateType (str : Str) : Bool := uciValidateStr str false false

/-- `uci_validate_name` -/
def uciValidateName (str : Str) : Bool := uciValidateStr str true false

/-- `uci_validate_text` -/
def uciValidateText (str : Str) : Bool :=
  str.all fun c => !(c < 32 && c != 9 && c != 10 && c != 13)

def hexDigit (d : Nat) : UInt8 := UInt8.ofNat (if d < 10 then 48 + d else 87 + d)

/-- `%0*x` -/
def hex (width n : Nat) : Str :=
  let digits := ((Nat.digits 16 n).map hexDigit).reverse
  List.replicate (width - digits.length) 48 ++ digits

def decimal (n : Nat) : Str :=
  if n = 0 then [48] else ((Nat.digits 10 n).map fun d => UInt8.ofNat (48 + d)).reverse

/-- `%d` -/
def sprintInt (x : Int) : Str :=
  if x < 0 then minus :: decimal x.natAbs else decimal x.natAbs

def isdigit (c : UInt8) : Bool := 48 ≤ c && c ≤ 57

def isspace (c : UInt8) : Bool := (9 ≤ c && c ≤ 13) || c == 32

/-- The digits at the start of a string. -/
def scanNat (str : Str) : Nat :=
  (str.takeWhile isdigit).foldl (fun n c => 10 * n + (c.toNat - 48)) 0

/-- The number at the start of a string; white space and a sign are skipped. -/
def scanInt (str : Str) : Option Int :=
  let str := str.dropWhile isspace
  let digits := if str.head? = some minus ∨ str.head? = some 43 then str.tail else str
  if (digits.head?.any isdigit) = false then none
  else if str.head? = some minus then some (-(scanNat digits)) else some (scanNat digits)

/-- `(int) strtoul(str, NULL, 10)` -/
def strtoulInt (str : Str) : Int :=
  match scanInt str with
  | none => 0
  | some x =>
    if 18446744073709551616 ≤ x.natAbs then -1 else Int.bmod x 4294967296

/-! ## Packages -/

/-- `UCI_ERR_*`; a parse error comes with its reason, line and byte. -/
inductive Err where
  | mem
  | inval
  | notfound
  | io
  | parse (reason : String) (line byte : Nat)
  | duplicate
deriving DecidableEq, Repr

/-- `UCI_TYPE_STRING` and `UCI_TYPE_LIST` -/
inductive Value where
  | string (str : Str)
  | list (items : List Str)
deriving DecidableEq, Repr

/-- `struct uci_option` -/
structure Opt where
  name : Str
  value : Value
deriving DecidableEq, Repr

/-- `struct uci_section` -/
structure Sect where
  name : Str
  type : Str
  anonymous : Bool := false
  options : List Opt := []
deriving DecidableEq, Repr

/-- `enum uci_command` -/
inductive Command where
  | add
  | remove
  | change
  | rename
  | reorder
  | listAdd
  | listDel
deriving DecidableEq, Repr

/-- `struct uci_delta` -/
structure Delta where
  cmd : Command
  sect : Str
  option : Option Str := none
  value : Option Str := none
deriving DecidableEq, Repr

/-- `struct uci_package` -/
structure Package where
  name : Str
  sections : List Sect := []
  nSection : Nat := 0
  hasDelta : Bool := false
  delta : List Delta := []
deriving DecidableEq, Repr

/-- `struct uci_ptr`, for a given package. -/
structure Ptr where
  sect : Option Str := none
  option : Option Str := none
  value : Option Str := none
  s : Option Nat := none
  o : Option Nat := none
  done : Bool := false
  complete : Bool := false
deriving DecidableEq, Repr

/-- `uci_lookup_list` in the sections of a package. -/
def Package.lookup (p : Package) (name : Str) : Option Nat :=
  p.sections.findIdx? fun s => decide (s.name = name)

/-- `uci_lookup_list` in the options of a section. -/
def Sect.lookup (s : Sect) (name : Str) : Option Nat :=
  s.options.findIdx? fun o => decide (o.name = name)

def Package.sect (p : Package) (s : Nat) : Sect := p.sections.getD s ⟨[], [], false, []⟩

def Sect.opt (s : Sect) (o : Nat) : Opt := s.options.getD o ⟨[], .string []⟩

def Package.modSect (p : Package) (s : Nat) (f : Sect → Sect) : Package :=
  { p with sections := p.sections.modify s f }

def Package.modOpt (p : Package) (s o : Nat) (f : Opt → Opt) : Package :=
  p.modSect s fun x => { x with options := x.options.modify o f }

/-- `uci_add_delta`, unless the call is an internal one. -/
def Package.record (p : Package) (internal : Bool) (d : Delta) : Package :=
  if internal = false ∧ p.hasDelta = true then { p with delta := p.delta ++ [d] } else p

theorem ok_bind {α β : Type} {x : Except Err α} {f : α → Except Err β} {b : β}
    (h : x >>= f = .ok b) : ∃ a, x = .ok a ∧ f a = .ok b := by
  cases x with
  | error e => cases h
  | ok a => exact ⟨a, rfl, h⟩

/-! ## Looking up -/

/-- `uci_lookup_ptr`, after the package was found. -/
def uciLookupPtr (p : Package) (ptr : Ptr) : Ptr :=
  let ptr := { ptr with done := true }
  match ptr.s, ptr.sect with
  | none, none => { ptr with complete := true }
  | s, sect =>
    match s.orElse fun _ => sect.bind p.lookup with
    | none => ptr
    | some i =>
      let ptr := { ptr with s := some i }
      match ptr.option with
      | none => { ptr with complete := true }
      | some name =>
        match (p.sect i).lookup name with
        | none => ptr
        | some j => { ptr with o := some j, complete := true }

/-- `uci_expand_ptr` -/
def uciExpandPtr (p : Package) (ptr : Ptr) (complete : Bool) : Except Err Ptr :=
  let ptr := if ptr.done then ptr else uciLookupPtr p ptr
  if complete = true ∧ ptr.complete = false then .error .notfound
  else
    .ok { ptr with
      sect := ptr.sect.orElse fun _ => ptr.s.map fun i => (p.sect i).name
      option := ptr.option.orElse fun _ => ptr.o.map fun j => ((p.sect (ptr.s.getD 0)).opt j).name }

/-! ## Sections -/

/-- `djbhash`; the initial value stands for `~0U`. -/
def djbhash (hash : Option UInt32) (str : Str) : UInt32 :=
  let step := fun (hash : UInt32) (c : UInt8) => (hash <<< 5) + hash + c.toUInt32
  str.foldl step (hash.getD 5381) &&& 0x7FFFFFFF

/-- The name that `uci_fixup_section` gives to a section without options. -/
def uciFixupSection (nSection : Nat) (type : Str) : Str :=
  [99, 102, 103] ++ hex 2 nSection ++ hex 4 ((djbhash none type).toNat % 65536)

/-- `uci_add_section`; the section is the last one of the package. -/
def uciAddSection (internal : Bool) (p : Package) (type : Str) : Package :=
  let name := uciFixupSection (p.nSection + 1) type
  let s : Sect := { name := name, type := type, anonymous := true }
  let p := { p with sections := p.sections ++ [s], nSection := p.nSection + 1 }
  p.record internal { cmd := .add, sect := name, value := some type }

/-- `uci_list_set_pos`: the new order, and whether it has changed. -/
def uciListSetPos (l : List Sect) (s : Nat) (pos : Int) : List Sect × Bool :=
  let rest := l.eraseIdx s
  let i := min pos.toNat rest.length
  (rest.take i ++ l.getD s ⟨[], [], false, []⟩ :: rest.drop i, i ≠ s)

/-- `uci_reorder_section` -/
def uciReorderSection (internal : Bool) (p : Package) (s : Nat) (pos : Int) : Package :=
  let r := uciListSetPos p.sections s pos
  let p' := { p with sections := r.1 }
  if r.2 then
    p'.record internal
      { cmd := .reorder, sect := (p.sect s).name, value := some (sprintInt pos) }
  else p'

/-! ## Elements -/

/-- `uci_rename` -/
def uciRename (internal : Bool) (p : Package) (ptr : Ptr) : Except Err Package := do
  let ptr ← uciExpandPtr p ptr true
  match ptr.s, ptr.value with
  | some s, some value =>
    let p := p.record internal
      { cmd := .rename, sect := ptr.sect.getD [], option := ptr.option, value := some value }
    match ptr.o with
    | some o => return p.modOpt s o fun x => { x with name := value }
    | none => return p.modSect s fun x => { x with name := value, anonymous := false }
  | _, _ => throw .inval

/-- The item of a list that `uci_delete` is asked to remove. -/
def Ptr.item (p : Package) (ptr : Ptr) : Option (Nat × List Str × Str) :=
  match ptr.o, ptr.value with
  | some o, some value =>
    match ((p.sect (ptr.s.getD 0)).opt o).value with
    | .list items => if value = [] then none else some (o, items, value)
    | .string _ => none
  | _, _ => none

/-- `uci_delete` -/
def uciDelete (internal : Bool) (p : Package) (ptr : Ptr) : Except Err Package := do
  let ptr ← uciExpandPtr p ptr true
  match ptr.s with
  | none => throw .inval
  | some s =>
    match ptr.item p with
    | some (o, items, value) =>
      match scanInt value with
      | none => throw .mem
      | some index =>
        if 0 ≤ index ∧ index.toNat < items.length then
          let p := p.record internal
            { cmd := .remove, sect := ptr.sect.getD [], option := ptr.option, value := some value }
          return p.modOpt s o fun x => { x with value := .list (items.eraseIdx index.toNat) }
        else return p
    | none =>
      let p := p.record internal
        { cmd := .remove, sect := ptr.sect.getD [], option := ptr.option }
      match ptr.o with
      | some o => return p.modSect s fun x => { x with options := x.options.eraseIdx o }
      | none => return { p with sections := p.sections.eraseIdx s }

/-- `uci_add_list` -/
def uciAddList (internal : Bool) (p : Package) (ptr : Ptr) : Except Err Package := do
  let ptr ← uciExpandPtr p ptr false
  match ptr.s, ptr.value with
  | some s, some value =>
    let p' : Package :=
      match ptr.o with
      | none => p.modSect s fun x =>
          { x with options := x.options ++ [⟨ptr.option.getD [], .list [value]⟩] }
      | some o => p.modOpt s o fun x =>
          match x.value with
          | .string str => ⟨ptr.option.getD [], .list [str, value]⟩
          | .list items => { x with value := .list (items ++ [value]) }
    return p'.record internal
      { cmd := .listAdd, sect := ptr.sect.getD [], option := ptr.option, value := some value }
  | _, _ => throw .inval

/-- `uci_del_list` -/
def uciDelList (internal : Bool) (p : Package) (ptr : Ptr) : Except Err Package := do
  let ptr ← uciExpandPtr p ptr false
  match ptr.s, ptr.value with
  | some s, some value =>
    match ptr.o, ptr.option with
    | some o, some option =>
      match ((p.sect s).opt o).value with
      | .string _ => return p
      | .list items =>
        let p := p.record internal
          { cmd := .listDel, sect := ptr.sect.getD [], option := some option, value := some value }
        return p.modOpt s o fun x =>
          { x with value := .list (items.filter fun item => decide (item ≠ value)) }
    | _, _ => return p
  | _, _ => throw .inval

/-- An option gets a value; the element stays or is replaced in its place. -/
def setOption (p : Package) (s o : Nat) (option value : Str) : Package :=
  match ((p.sect s).opt o).value with
  | .string str =>
    if str.length = value.length then p.modOpt s o fun x => { x with value := .string value }
    else p.modOpt s o fun _ => ⟨option, .string value⟩
  | .list _ => p.modOpt s o fun _ => ⟨option, .string value⟩

/-- A section gets another type. If this has another length `uci_alloc_section` makes the section
    again, which is anonymous only without a name. -/
def setType (p : Package) (s : Nat) (type : Str) : Package :=
  if (p.sect s).type.length = type.length then p.modSect s fun x => { x with type := type }
  else p.modSect s fun x =>
    { name := x.name, type := type, anonymous := x.name.isEmpty, options := x.options }

/-- The last part of `uci_set`: the section of the element, and whether there
    is a change to record. -/
def setElement (p : Package) (ptr : Ptr) (value : Str) : Except Err (Package × Option Nat × Bool) :=
  match ptr.s, ptr.sect, ptr.o, ptr.option with
  | some s, _, none, some option =>
    .ok (p.modSect s fun x => { x with options := x.options ++ [⟨option, .string value⟩] },
      some s, true)
  | none, some name, _, _ =>
    -- an empty name makes an anonymous section
    let s : Sect := { name := name, type := value, anonymous := name.isEmpty }
    .ok ({ p with sections := p.sections ++ [s], nSection := p.nSection + 1 },
      some p.sections.length, true)
  | some s, _, some o, some option =>
    if ((p.sect s).opt o).value = .string value then .ok (p, some s, false)
    else .ok (setOption p s o option value, some s, true)
  | some s, some _, _, none =>
    if (p.sect s).type = value then .ok (p, some s, false)
    else .ok (setType p s value, some s, true)
  | _, _, _, _ => .error .inval

/-- `uci_set`; the section is that of the changed element, if it still exists.
    `uci_delete` is called as a public function. -/
def uciSet (internal : Bool) (p : Package) (ptr : Ptr) : Except Err (Package × Option Nat) := do
  let ptr ← uciExpandPtr p ptr false
  match ptr.value with
  | none => throw .inval
  | some value =>
    if ptr.s = none ∧ (ptr.option ≠ none ∨ ptr.sect = none) then throw .inval
    if ptr.option = none ∧ value ≠ [] ∧ uciValidateType value = false then throw .inval
    let ptr :=
      match ptr.o, ptr.s, ptr.option with
      | none, some s, some option => { ptr with o := (p.sect s).lookup option }
      | _, _, _ => ptr
    if value = [] then
      if ptr.complete = false then return (p, ptr.s)
      else return (← uciDelete false p ptr, if ptr.option = none then none else ptr.s)
    else
      let r ← setElement p ptr value
      let d : Delta :=
        { cmd := .change, sect := ptr.sect.getD [], option := ptr.option, value := some value }
      return (if r.2.2 then r.1.record internal d else r.1, r.2.1)

end Uci
