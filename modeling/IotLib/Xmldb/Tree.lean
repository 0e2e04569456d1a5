/-
  The tree of xmldb (`xmldb.c`): nodes, and lookup, creation and update by path.

  The children of a node are the list from `child` along `next`. A pointer to a node is its
  location: the positions of the children that lead to it from the root.
-/
import IotLib.Lib.Forall

namespace Xmldb

/-- C strings, without the final 0. -/
abbrev Bytes := List UInt8

/-- The bytes of an ASCII text. -/
def ascii (s : String) : Bytes := s.toList.map fun c => .ofNat c.toNat

/-- `struct xml_node` -/
structure XmlNode where
  name : Bytes
  id : Int
  value : Option Bytes
  notify : Option Bytes
  child : List XmlNode

/-! ## The C library -/

def isDigit (c : UInt8) : Bool := 0x30 ≤ c && c ≤ 0x39

def isSpace (c : UInt8) : Bool := c == 0x20 || (0x09 ≤ c && c ≤ 0x0D)

def toLower (c : UInt8) : UInt8 := if 0x41 ≤ c && c ≤ 0x5A then c + 0x20 else c

/-- `strcasecmp(a, b) == 0` -/
def strcaseeq (a b : Bytes) : Bool := a.map toLower == b.map toLower

def digitsVal (digits : Bytes) : Nat := digits.foldl (fun n c => n * 10 + (c.toNat - 0x30)) 0

/-- `atoi`; a number that is no `int` is clamped. -/
def atoi (s : Bytes) : Int :=
  let clamp (n : Int) : Int := max (-2 ^ 31) (min (2 ^ 31 - 1) n)
  match s.dropWhile isSpace with
  | 0x2D :: cs => clamp (-(digitsVal (cs.takeWhile isDigit)))
  | 0x2B :: cs => clamp (digitsVal (cs.takeWhile isDigit))
  | cs => clamp (digitsVal (cs.takeWhile isDigit))

/-! ## Locations -/

abbrev Loc := List Nat

/-- The node at a location. -/
def XmlNode.at? : XmlNode → Loc → Option XmlNode
  | node, [] => some node
  | node, i :: loc => (node.child[i]?).bind fun c => c.at? loc

/-- The tree with another node at a location. -/
def XmlNode.modify (f : XmlNode → XmlNode) : Loc → XmlNode → XmlNode
  | [], node => f node
  | i :: loc, node => { node with child := node.child.modify i (XmlNode.modify f loc) }

/-! ## Lookup -/

/-- `new_node` -/
def newNode (name : Bytes) (value : Option Bytes) (id : Int) : Option XmlNode :=
  if name ≠ [] then some ⟨name, id, value, none, []⟩ else none

/-- `get_node` with a buffer of `size` bytes: the name, and the rest of the path. -/
def getNode (size : Nat) (path : Bytes) : Bytes × Bytes :=
  ((path.takeWhile (· ≠ 0x2F)).take (size - 1), (path.dropWhile (· ≠ 0x2F)).drop 1)

/-- A node name and an id, cut at the first colon. -/
def splitId (buff : Bytes) : Bytes × Int :=
  if 0x3A ∈ buff then
    (buff.takeWhile (· ≠ 0x3A), atoi ((buff.dropWhile (· ≠ 0x3A)).drop 1))
  else (buff, 0)

/-- The test of `xmldb_find_sibling`. -/
def isSibling (name : Bytes) (id : Int) (curr : XmlNode) : Bool :=
  strcaseeq curr.name name && curr.id == id

/-- `xmldb_find_sibling` on a list that is not empty: the list, and the position. -/
def xmldbFindSibling (start : List XmlNode) (name : Bytes) (id : Int) (create : Bool) :
    List XmlNode × Option Nat :=
  match start.findIdx? (isSibling name id) with
  | some i => (start, some i)
  | none =>
    if create then
      match newNode name none id with
      | some node => (start ++ [node], some start.length)
      | none => (start, none)
    else (start, none)

def MAX_TAG_LEN : Nat := 256

/-- The loop of `xmldb_find_node`: the tree, `root` and `target`. -/
def findLoop (create : Bool) : Nat → Bytes → XmlNode → Loc → Option Loc → XmlNode × Option Loc
  | 0, _, tree, _, target => (tree, target)
  | n + 1, ptr, tree, root, target =>
    if ptr = [] then (tree, target)
    else
      let (buff, ptr) := getNode MAX_TAG_LEN ptr
      if buff = [0x2E] then findLoop create n ptr tree root (some root)
      else
        let (name, id) := splitId buff
        let (tree, target) :=
          match ((tree.at? root).map XmlNode.child).getD [] with
          | [] =>
            if create then
              match newNode name none id with
              | some node =>
                (tree.modify (fun r => { r with child := [node] }) root, some (root ++ [0]))
              | none => (tree, none)
            else (tree, target)
          | child =>
            let (child, i) := xmldbFindSibling child name id create
            (tree.modify (fun r => { r with child := child }) root, i.map fun i => root ++ [i])
        match target with
        | none => (tree, none)
        | some loc => findLoop create n ptr tree loc (some loc)

/-- `xmldb_find_node`; a path that begins with a slash starts at the root of the tree. -/
def xmldbFindNode (tree : XmlNode) (root : Loc) (path : Bytes) (create : Bool) :
    XmlNode × Option Loc :=
  match path with
  | 0x2F :: ptr => findLoop create ptr.length ptr tree [] none
  | ptr => findLoop create ptr.length ptr tree root none

/-! ## Values -/

/-- The new value of a node, and whether it is another one. -/
def newValue (old : Option Bytes) (value : Bytes) : Option Bytes × Bool :=
  match old with
  | some v =>
    if v ≠ value then (if value ≠ [] then some value else none, true) else (some v, false)
  | none => if value ≠ [] then (some value, true) else (none, false)

/-- `xmldb_set_value`: the tree, the node, and the notification that is sent. -/
def xmldbSetValue (tree : XmlNode) (root : Loc) (path value : Bytes) :
    XmlNode × Option Loc × Option Bytes :=
  match xmldbFindNode tree root path true with
  | (tree, none) => (tree, none, none)
  | (tree, some loc) =>
    let node := tree.at? loc
    let dirty := (newValue (node.bind XmlNode.value) value).2
    (tree.modify (fun n => { n with value := (newValue n.value value).1 }) loc, some loc,
      if dirty then node.bind XmlNode.notify else none)

/-- `xmldb_get_value` -/
def xmldbGetValue (tree : XmlNode) (root : Loc) (path : Bytes) : Bytes :=
  match xmldbFindNode tree root path false with
  | (_, none) => []
  | (tree, some loc) => ((tree.at? loc).bind XmlNode.value).getD []

end Xmldb
