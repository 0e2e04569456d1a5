/-
  Reading and dumping an XML file (`xmldb.c`).

  A file is the list of its bytes. The buffers of the reader are lists of a limited length, and are
  cut at a 0 where the source takes them as strings.
-/
import IotLib.Xmldb.Tree

namespace Xmldb

def MAX_VAL_LEN : Nat := 256

/-- `IS_WHITE` -/
def isWhite (c : UInt8) : Bool := c == 0x20 || c == 0x09 || c == 0x0D || c == 0x0A

/-- `xmldb_eatwhite` -/
def xmldbEatwhite (string : Bytes) : Bytes := string.dropWhile isWhite

/-- `xmldb_reatwhite` -/
def xmldbReatwhite (string : Bytes) : Bytes := (string.reverse.dropWhile isWhite).reverse

/-- A buffer as a string. -/
def cstr (buff : Bytes) : Bytes := buff.takeWhile (· ≠ 0)

/-! ## Tags -/

/-- A comment or a declaration. -/
def isComment (tag : Bytes) : Bool :=
  (tag.length > 4 && tag.take 4 == ascii "<!--") || (tag.length > 5 && tag.take 5 == ascii "<?xml")

/-- The loop of `read_tag`: what stands before the tag, the tag, and the rest of the file. -/
def readLoop (tsize : Nat) : Bytes → Bool → Bytes → Bytes → Bytes × Bytes × Bytes
  | [], _, raw, tag => (raw, tag, [])
  | c :: fh, false, raw, tag =>
    if c = 0x3C then readLoop tsize fh true raw (tag ++ [c])
    else if raw.length + 1 ≥ MAX_VAL_LEN then (raw ++ [c], tag, fh)
    else readLoop tsize fh false (raw ++ [c]) tag
  | c :: fh, true, raw, tag =>
    if tag.length ≥ tsize then (raw, tag, fh)
    else if c = 0x3E then
      if isComment (tag ++ [c]) then readLoop tsize fh false raw [] else (raw, tag ++ [c], fh)
    else readLoop tsize fh true raw (tag ++ [c])

/-- The entities of `read_tag`, with what they stand for. -/
def entities : List (Bytes × UInt8) :=
  [(ascii "&amp;", 0x26), (ascii "&lt;", 0x3C), (ascii "&gt;", 0x3E), (ascii "&quot;", 0x22),
    (ascii "&apos;", 0x27)]

/-- The first entity at the beginning of a text, and the rest. -/
def entityAt (raw : Bytes) : Option (UInt8 × Bytes) :=
  (entities.find? fun e => e.1.isPrefixOf raw).map fun e => (e.2, raw.drop e.1.length)

/-- The special characters of a value, with room for `n` bytes. -/
def unescape : Nat → Bytes → Bytes
  | 0, _ => []
  | _ + 1, [] => []
  | n + 1, c :: raw =>
    match entityAt (c :: raw) with
    | some (b, rest) => b :: unescape n rest
    | none => c :: unescape n raw

/-- `read_tag`: the value, the tag, and the rest of the file. -/
def readTag (fh : Bytes) (vsize tsize : Nat) : Bytes × Bytes × Bytes :=
  match readLoop tsize fh false [] [] with
  | (raw, tag, fh) => (unescape vsize (cstr raw), cstr tag, fh)

/-- `get_name_from_tag`; nothing for a text that is not a tag. -/
def getNameFromTag (tag : Bytes) (size : Nat) : Bytes :=
  match tag with
  | 0x3C :: tag => (tag.takeWhile fun c => !isWhite c && c != 0x3E).take (size - 1)
  | _ => []

/-- `strstr(tag, "id=")` -/
def strstrId : Bytes → Option Bytes
  | [] => none
  | c :: cs => if (ascii "id=").isPrefixOf (c :: cs) then some (c :: cs) else strstrId cs

/-- `get_id_from_tag`; the text between the quotes has room in its buffer. -/
def getIdFromTag (tag : Bytes) : Int :=
  match strstrId tag with
  | some str => atoi (((str.dropWhile (· ≠ 0x22)).drop 1).takeWhile (· ≠ 0x22))
  | none => 0

/-! ## Reading -/

/-- The value of a node: `none` if there is only white space. -/
def trimmed (val : Bytes) : Option Bytes :=
  let val := xmldbReatwhite val
  if xmldbEatwhite val ≠ [] then some (xmldbEatwhite val) else none

/-- `parse_xmltree`: the node and those after it along `next` (none for `NULL`), the tag
    that was read last, and the rest of the file. -/
def parseXmltree : Nat → Bytes → Bytes → List XmlNode × Bytes × Bytes
  | 0, tag, fh => ([], tag, fh)
  | n + 1, tag, fh =>
    let nodeName := getNameFromTag tag MAX_TAG_LEN
    if nodeName = [] then ([], tag, fh)
    else
      let id := getIdFromTag tag
      let (val, tag, fh) := readTag fh MAX_VAL_LEN MAX_TAG_LEN
      let name := getNameFromTag tag MAX_TAG_LEN
      if name = [] then ([], tag, fh)
      else
        let (child, tag, fh) :=
          if name.head? ≠ some 0x2F then parseXmltree n tag fh else ([], tag, fh)
        let name := getNameFromTag tag MAX_TAG_LEN
        if name = [] then ([], tag, fh)
        else if name.head? ≠ some 0x2F then ([], tag, fh)
        else
          let node : XmlNode := ⟨nodeName, id, trimmed val, none, child⟩
          if nodeName ≠ name.drop 1 then ([node], tag, fh)
          else
            let (_, tag, fh) := readTag fh 0 MAX_TAG_LEN
            let name := getNameFromTag tag MAX_TAG_LEN
            if name ≠ [] ∧ name.head? ≠ some 0x2F then
              let (next, tag, fh) := parseXmltree n tag fh
              (node :: next, tag, fh)
            else ([node], tag, fh)

/-- The first child with the name and the id. -/
def removeChild (name : Bytes) (id : Int) (child : List XmlNode) : List XmlNode × Option XmlNode :=
  match child.find? fun c => c.name == name && c.id == id with
  | some c => (child.eraseP fun c => c.name == name && c.id == id, some c)
  | none => (child, none)

/-- `xmldb_read_xml` without and with `RGDB_SKIP_PROC`; `none` is a file that cannot be opened. The
    result is the tree and the `int` that is returned. -/
def xmldbReadXml (rootname : Bytes) (root : XmlNode) (file : Option Bytes) (skipProc : Bool) :
    XmlNode × Int :=
  let nptr := if skipProc then (removeChild (ascii "proc") 0 root.child).2 else none
  match file with
  | none => ({ root with child := [] }, -1)
  | some fh =>
    let (_, tag, fh) := readTag fh 0 MAX_TAG_LEN
    let val := getNameFromTag tag MAX_VAL_LEN
    let child :=
      if val ≠ [] ∧ val = rootname then
        let (_, tag, fh) := readTag fh 0 MAX_TAG_LEN
        if getNameFromTag tag MAX_VAL_LEN ≠ [] then (parseXmltree (fh.length + 1) tag fh).1 else []
      else []
    let child :=
      match nptr with
      | some proc => (removeChild (ascii "proc") 0 child).1 ++ [proc]
      | none => child
    ({ root with child := child }, if child = [] then -1 else 0)

/-! ## Dumping -/

/-- The special characters of a value. -/
def escapeByte (c : UInt8) : Bytes :=
  if c = 0x26 then ascii "&amp;"
  else if c = 0x3C then ascii "&lt;"
  else if c = 0x3E then ascii "&gt;"
  else if c = 0x22 then ascii "&quot;"
  else if c = 0x27 then ascii "&apos;"
  else [c]

def escape (value : Bytes) : Bytes := value.flatMap escapeByte

/-- The conversion `%d` of a positive number. -/
def decimal (n : Nat) : Bytes := (Nat.digits 10 n).reverse.map fun d => .ofNat (0x30 + d)

def tabs (depth : Nat) : Bytes := List.replicate depth 0x09

/-- The start tag of a node. -/
def startTag (node : XmlNode) : Bytes :=
  ascii "<" ++ node.name ++
    (if node.id > 0 then ascii " id=\"" ++ decimal node.id.toNat ++ ascii "\"" else []) ++ ascii ">"

/-- `dump_node_start` -/
def dumpNodeStart (node : XmlNode) (depth : Nat) : Bytes :=
  tabs depth ++ startTag node ++ (node.value.map escape).getD []

/-- `dump_node_end` -/
def dumpNodeEnd (node : XmlNode) (depth : Nat) : Bytes :=
  tabs depth ++ ascii "</" ++ node.name ++ ascii ">\n"

/-- The nodes that are not dumped. -/
def isSkipped (skipProc : Bool) (depth : Nat) (name : Bytes) : Bool :=
  depth = 1 && (name == ascii "tmp" || name == ascii "runtime" || (skipProc && name == ascii "proc"))

mutual

/-- A node in the loop of `xmldb_dump_nodes`. -/
def xmldbDumpNode (skipProc : Bool) (depth : Nat) : XmlNode → Bytes
  | ⟨name, id, value, notify, child⟩ =>
    let node : XmlNode := ⟨name, id, value, notify, []⟩
    if isSkipped skipProc depth name then []
    else
      dumpNodeStart node depth ++
        if child.isEmpty then dumpNodeEnd node 0
        else [0x0A] ++ xmldbDumpNodes skipProc (depth + 1) child ++ dumpNodeEnd node depth

/-- `xmldb_dump_nodes` -/
def xmldbDumpNodes (skipProc : Bool) (depth : Nat) : List XmlNode → Bytes
  | [] => []
  | node :: next => xmldbDumpNode skipProc depth node ++ xmldbDumpNodes skipProc depth next

end

end Xmldb
