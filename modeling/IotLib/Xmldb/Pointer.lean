/-
  Pointers to nodes that are kept while the tree changes (`g_anchor`, and the locals of
  `execute_for` in `ephp.c`), and `xmldb_del_node`.

  A new node is the last of its siblings, so that locations stay what they are. A deletion moves the
  later siblings up, and what pointed into the deleted node is dangling.
-/
import IotLib.Xmldb.File
import IotLib.Xmldb.Path

namespace Xmldb

/-! ## Pointers -/

/-- A pointer to a node: `NULL`, a node of the tree, or one that is no longer part of it. A dangling
    pointer is stale if it was left behind by an earlier request. -/
inductive NodePtr where
  | null
  | node (loc : Loc)
  | dangling (stale : Bool)
deriving DecidableEq, Repr

/-- `NULL` or a node of the tree. -/
def NodePtr.Live (tree : XmlNode) : NodePtr → Prop
  | .null => True
  | .node loc => (tree.at? loc).isSome
  | .dangling _ => False

instance (tree : XmlNode) : (p : NodePtr) → Decidable (p.Live tree)
  | .null => inferInstanceAs (Decidable True)
  | .node _ => inferInstanceAs (Decidable (_ = true))
  | .dangling _ => inferInstanceAs (Decidable False)

/-- Where a node is after the one at `removed` has been taken out. -/
def Loc.without : Loc → Loc → Option Loc
  | [], _ => none
  | _ :: _, [] => some []
  | i :: removed, j :: loc =>
    if j = i then (Loc.without removed loc).map (j :: ·)
    else some ((if removed = [] ∧ i < j then j - 1 else j) :: loc)

def NodePtr.without (removed : Loc) : NodePtr → NodePtr
  | .node loc => (Loc.without removed loc).elim (.dangling false) .node
  | p => p

/-! ## Access through a pointer -/

/-- The loop of `xmldb_find_node` from a dangling pointer, which is not accessed as long as the
    segments are dots. -/
def findDangling (root : NodePtr) : ℕ → Bytes → NodePtr → Option NodePtr
  | 0, _, target => some target
  | n + 1, ptr, target =>
    if ptr = [] then some target
    else if (getNode MAX_TAG_LEN ptr).1 = [0x2E] then
      findDangling root n (getNode MAX_TAG_LEN ptr).2 root
    else none

/-- Where lookup starts; `NULL` stands for the root. -/
def NodePtr.start : NodePtr → Loc
  | .node loc => loc
  | _ => []

/-- `xmldb_find_node` from a pointer: the tree and the node. There is no result if a dangling
    pointer is accessed. -/
def findFrom (tree : XmlNode) (root : NodePtr) (path : Bytes) (create : Bool) :
    Option (XmlNode × NodePtr) :=
  if path.head? = some 0x2F ∨ root.Live tree then
    let r := xmldbFindNode tree root.start path create
    some (r.1, r.2.elim .null .node)
  else (findDangling root path.length path .null).map fun target => (tree, target)

/-- The node that a pointer points to; `NULL` is left to `f`. -/
def deref {α : Type} (tree : XmlNode) (p : NodePtr) (null : α) (f : Loc → XmlNode → α) : Option α :=
  match p with
  | .null => some null
  | .node loc => (tree.at? loc).map (f loc)
  | .dangling _ => none

/-- `xmldb_get_value` -/
def getValueFrom (tree : XmlNode) (root : NodePtr) (path : Bytes) : Option Bytes :=
  (findFrom tree root path false).bind fun r => deref r.1 r.2 [] fun _ node => node.value.getD []

/-- `xmldb_set_value`: the tree, and the notification that is sent. -/
def setValueFrom (tree : XmlNode) (root : NodePtr) (path value : Bytes) :
    Option (XmlNode × Option Bytes) :=
  (findFrom tree root path true).bind fun r =>
    deref r.1 r.2 (r.1, none) fun loc node =>
      (r.1.modify (fun n => { n with value := (newValue n.value value).1 }) loc,
        if (newValue node.value value).2 then node.notify else none)

/-- `xmldb_set_notify` -/
def setNotifyFrom (tree : XmlNode) (root : NodePtr) (path message : Bytes) : Option XmlNode :=
  (findFrom tree root path true).bind fun r =>
    deref r.1 r.2 r.1 fun loc _ =>
      r.1.modify (fun n => { n with notify := if message ≠ [] then some message else none }) loc

/-! ## Deletion -/

/-- A path is cut at its last slash; the part before it is not used if it is empty. -/
def splitLeaf (path : Bytes) : Option Bytes × Bytes :=
  let rev := path.reverse
  let ppath := ((rev.dropWhile (· ≠ 0x2F)).drop 1).reverse
  (if 0x2F ∈ path ∧ ppath ≠ [] then some ppath else none, (rev.takeWhile (· ≠ 0x2F)).reverse)

/-- `remove_child` finds this child. -/
def isChild (name : Bytes) (id : Int) (c : XmlNode) : Bool := c.name == name && c.id == id

/-- The node that `xmldb_del_node` deletes, as its parent and its position. -/
def delTarget (tree : XmlNode) (root : NodePtr) (path : Bytes) : Option (Option (Loc × ℕ)) :=
  let (name, id) := splitId (splitLeaf path).2
  let pnode : Option NodePtr :=
    match (splitLeaf path).1 with
    | some ppath => (findFrom tree root ppath false).map Prod.snd
    | none => some (if root = .null then .node [] else root)
  pnode.bind fun pnode => deref tree pnode none fun loc node =>
    (node.child.findIdx? (isChild name id)).map fun i => (loc, i)

/-- The children with higher ids move up by one. -/
def renumber (name : Bytes) : ℕ → Int → List XmlNode → List XmlNode
  | 0, _, child => child
  | n + 1, id, child =>
    match child.findIdx? (isSibling name (id + 1)) with
    | none => child
    | some i => renumber name n (id + 1) (child.modify i fun c => { c with id := id })

/-- `xmldb_del_node`: the tree, and where the node was. -/
def xmldbDelNode (tree : XmlNode) (root : NodePtr) (path : Bytes) : Option (XmlNode × Option Loc) :=
  let (name, id) := splitId (splitLeaf path).2
  (delTarget tree root path).map fun
    | none => (tree, none)
    | some (loc, i) =>
      (tree.modify (fun p =>
        let child := p.child.eraseIdx i
        { p with child := if id = 0 then child else renumber name child.length id child }) loc,
        some (loc ++ [i]))

/-- A pointer after `xmldb_read_xml`: only the root stays, and `proc` if it is kept. -/
def reloadPtr (rootname : Bytes) (root : XmlNode) (file : Option Bytes) (skipProc : Bool) :
    NodePtr → NodePtr
  | .node [] => .node []
  | .node (i :: loc) =>
    if skipProc = true ∧ file.isSome ∧ root.child.findIdx? (isChild (ascii "proc") 0) = some i then
      .node (((xmldbReadXml rootname root file skipProc).1.child.length - 1) :: loc)
    else .dangling false
  | p => p

/-! ## Trees that keep their locations -/

/-- Every node is still there. -/
def Grows (tree tree' : XmlNode) : Prop := ∀ loc, (tree.at? loc).isSome → (tree'.at? loc).isSome

section
variable {tree tree' tree'' : XmlNode}

theorem Grows.refl (tree : XmlNode) : Grows tree tree := fun _ h => h

theorem Grows.trans (h : Grows tree tree') (h' : Grows tree' tree'') : Grows tree tree'' :=
  fun loc hl => h' loc (h loc hl)

/-- A node keeps its children, as far as these keep theirs. -/
theorem grows_child {node node' : XmlNode}
    (h : ∀ (i : ℕ) (c : XmlNode), node.child[i]? = some c →
      ∃ c', node'.child[i]? = some c' ∧ Grows c c') :
    Grows node node' := by
  intro loc hl
  cases loc with
  | nil => rfl
  | cons i loc =>
    rw [XmlNode.at?] at hl ⊢
    obtain ⟨n, hn⟩ := Option.isSome_iff_exists.1 hl
    obtain ⟨c, hc, hn⟩ := Option.bind_eq_some_iff.1 hn
    obtain ⟨c', hc', hg⟩ := h i c hc
    rw [hc', Option.bind_some]
    exact hg loc (Option.isSome_iff_exists.2 ⟨n, hn⟩)

theorem grows_same {node node' : XmlNode} (h : node'.child = node.child) : Grows node node' :=
  grows_child fun _ c hc => ⟨c, by rw [h, hc], Grows.refl c⟩

theorem grows_append {node node' : XmlNode} {new : List XmlNode} (h : node'.child = node.child ++ new) :
    Grows node node' := by
  refine grows_child fun i c hc => ⟨c, ?_, Grows.refl c⟩
  rw [h, List.getElem?_append_left (List.getElem?_eq_some_iff.1 hc).1, hc]

theorem grows_modify {f : XmlNode → XmlNode} (hf : ∀ node, Grows node (f node)) (loc : Loc)
    (tree : XmlNode) : Grows tree (tree.modify f loc) := by
  induction loc generalizing tree with
  | nil => exact hf tree
  | cons j loc ih =>
    refine grows_child fun i c hc => ?_
    rw [XmlNode.modify]
    dsimp only
    rw [List.getElem?_modify, hc]
    by_cases hij : j = i
    · exact ⟨_, by simp [hij], ih c⟩
    · exact ⟨_, by simp [hij], Grows.refl c⟩

/-! ## Lookup -/

/-- A turn of the loop that looks for a child. -/
def findTurn (create : Bool) (k : Key) (tree : XmlNode) (root : Loc) (target : Option Loc) :
    XmlNode × Option Loc :=
  match ((tree.at? root).map XmlNode.child).getD [] with
  | [] =>
    if create then
      match newNode k.1 none k.2 with
      | some node => (tree.modify (fun r => { r with child := [node] }) root, some (root ++ [0]))
      | none => (tree, none)
    else (tree, target)
  | child =>
    let (child, i) := xmldbFindSibling child k.1 k.2 create
    (tree.modify (fun r => { r with child := child }) root, i.map fun i => root ++ [i])

theorem findLoop_succ (create : Bool) (n : ℕ) (ptr : Bytes) (tree : XmlNode) (root : Loc)
    (target : Option Loc) :
    findLoop create (n + 1) ptr tree root target =
      if ptr = [] then (tree, target)
      else if (getNode MAX_TAG_LEN ptr).1 = [0x2E] then
        findLoop create n (getNode MAX_TAG_LEN ptr).2 tree root (some root)
      else
        let r := findTurn create (splitId (getNode MAX_TAG_LEN ptr).1) tree root target
        match r.2 with
        | none => (r.1, none)
        | some loc => findLoop create n (getNode MAX_TAG_LEN ptr).2 r.1 loc (some loc) := rfl

/-- The siblings are those that were there, and perhaps a new one. -/
theorem xmldbFindSibling_append (start : List XmlNode) (name : Bytes) (id : Int) (create : Bool) :
    ∃ new, (xmldbFindSibling start name id create).1 = start ++ new ∧
      ∀ i, (xmldbFindSibling start name id create).2 = some i →
        i < (xmldbFindSibling start name id create).1.length := by
  unfold xmldbFindSibling
  cases hfind : start.findIdx? (isSibling name id) with
  | some i =>
    refine ⟨[], (List.append_nil _).symm, fun j hj => ?_⟩
    obtain rfl := Option.some.inj hj
    exact (List.findIdx?_eq_some_iff_getElem.1 hfind).1
  | none =>
    dsimp only
    split_ifs
    · split
      · rename_i node _
        refine ⟨[node], rfl, fun j hj => ?_⟩
        obtain rfl := Option.some.inj hj
        simp
      · exact ⟨[], (List.append_nil _).symm, fun j hj => by cases hj⟩
    · exact ⟨[], (List.append_nil _).symm, fun j hj => by cases hj⟩

theorem at?_child {loc : Loc} {node : XmlNode} (h : tree.at? loc = some node) {i : ℕ}
    (hi : i < node.child.length) : (tree.at? (loc ++ [i])).isSome := by
  rw [XmlNode.at?_append, h, Option.bind_some, XmlNode.at?, List.getElem?_eq_getElem hi]
  rfl

theorem grows_setChild {root : Loc} {node : XmlNode} (h : tree.at? root = some node)
    {new : List XmlNode} :
    Grows tree (tree.modify (fun r => { r with child := node.child ++ new }) root) := by
  have heq : tree.modify (fun r => { r with child := node.child ++ new }) root =
      tree.modify (fun r => { r with child := r.child ++ new }) root := XmlNode.modify_congr h rfl
  rw [heq]
  exact grows_modify (fun _ => grows_append rfl) root tree

theorem findTurn_live (create : Bool) (k : Key) {root : Loc} {target : Option Loc}
    (hroot : (tree.at? root).isSome) (htarget : ∀ l, target = some l → (tree.at? l).isSome) :
    let r := findTurn create k tree root target
    Grows tree r.1 ∧ ∀ l, r.2 = some l → (r.1.at? l).isSome := by
  obtain ⟨node, hnode⟩ := Option.isSome_iff_exists.1 hroot
  have hat : ∀ child : List XmlNode, (tree.modify (fun r => { r with child := child }) root).at? root =
      some { node with child := child } := fun child => by
    rw [XmlNode.at?_modify, hnode, Option.map_some]
  unfold findTurn
  rw [hnode, Option.map_some, Option.getD_some]
  cases hchild : node.child with
  | nil =>
    dsimp only
    split_ifs
    · split
      · rename_i new _
        refine ⟨?_, fun l hl => ?_⟩
        · have hset := @grows_setChild tree root node hnode [new]
          rwa [hchild, List.nil_append] at hset
        · obtain rfl := Option.some.inj hl
          exact at?_child (hat [new]) Nat.zero_lt_one
      · exact ⟨Grows.refl tree, fun l hl => by cases hl⟩
    · exact ⟨Grows.refl tree, htarget⟩
  | cons c cs =>
    dsimp only
    obtain ⟨new, hnew, hlt⟩ := xmldbFindSibling_append (c :: cs) k.1 k.2 create
    refine ⟨?_, fun l hl => ?_⟩
    · rw [hnew, ← hchild]
      exact grows_setChild hnode
    · obtain ⟨i, hi, rfl⟩ := Option.map_eq_some_iff.1 hl
      exact at?_child (hat _) (hlt i hi)

/-- The loop finds nodes of the tree, and keeps those that are there. -/
theorem findLoop_live (create : Bool) {n : ℕ} {ptr : Bytes} {root : Loc} {target : Option Loc}
    (hroot : (tree.at? root).isSome) (htarget : ∀ l, target = some l → (tree.at? l).isSome) :
    let r := findLoop create n ptr tree root target
    Grows tree r.1 ∧ ∀ l, r.2 = some l → (r.1.at? l).isSome := by
  induction n generalizing ptr tree root target with
  | zero => exact ⟨Grows.refl tree, htarget⟩
  | succ n ih =>
    rw [findLoop_succ]
    dsimp only
    split_ifs with hnil hdot
    · exact ⟨Grows.refl tree, htarget⟩
    · exact ih hroot fun l hl => Option.some.inj hl ▸ hroot
    · obtain ⟨hgrows, hlive⟩ :=
        findTurn_live create (splitId (getNode MAX_TAG_LEN ptr).1) hroot htarget
      cases hloc : (findTurn create (splitId (getNode MAX_TAG_LEN ptr).1) tree root target).2 with
      | none => exact ⟨hgrows, fun l hl => by cases hl⟩
      | some loc =>
        have hl := hlive loc hloc
        obtain ⟨hgrows', hlive'⟩ := @ih _ (getNode MAX_TAG_LEN ptr).2 _ _ hl fun l hl' =>
          Option.some.inj hl' ▸ hl
        exact ⟨hgrows.trans hgrows', hlive'⟩

theorem xmldbFindNode_live {root : Loc} (hroot : (tree.at? root).isSome) (path : Bytes) (create : Bool) :
    let r := xmldbFindNode tree root path create
    Grows tree r.1 ∧ ∀ l, r.2 = some l → (r.1.at? l).isSome := by
  unfold xmldbFindNode
  split
  · exact findLoop_live create rfl fun l hl => by cases hl
  · exact findLoop_live create hroot fun l hl => by cases hl

theorem findTurn_false (k : Key) (tree : XmlNode) (root : Loc) (target : Option Loc) :
    (findTurn false k tree root target).1 = tree := by
  unfold findTurn
  cases hat : tree.at? root with
  | none => rfl
  | some node =>
    rw [Option.map_some, Option.getD_some]
    cases hchild : node.child with
    | nil => rfl
    | cons c cs =>
      have hsame : (xmldbFindSibling (c :: cs) k.1 k.2 false).1 = node.child := by
        rw [hchild]
        unfold xmldbFindSibling
        split <;> rfl
      dsimp only
      rw [hsame]
      refine XmlNode.modify_id hat ?_
      cases node
      rfl

theorem findLoop_false (n : ℕ) (ptr : Bytes) (tree : XmlNode) (root : Loc) (target : Option Loc) :
    (findLoop false n ptr tree root target).1 = tree := by
  induction n generalizing ptr root target with
  | zero => rfl
  | succ n ih =>
    rw [findLoop_succ]
    dsimp only
    split_ifs
    · rfl
    · exact ih _ _ _
    · have hturn := findTurn_false (splitId (getNode MAX_TAG_LEN ptr).1) tree root target
      split
      · exact hturn
      · rw [hturn]
        exact ih _ _ _

variable {root : NodePtr} {p : NodePtr}

/-- Lookup does not change the tree. -/
theorem findFrom_false {path : Bytes} {tree' : XmlNode}
    (h : findFrom tree root path false = some (tree', p)) : tree' = tree := by
  unfold findFrom at h
  split_ifs at h
  · obtain ⟨rfl, -⟩ := Prod.mk.inj (Option.some.inj h)
    unfold xmldbFindNode
    split
    · exact findLoop_false _ _ _ _ _
    · exact findLoop_false _ _ _ _ _
  · obtain ⟨target, -, heq⟩ := Option.map_eq_some_iff.1 h
    exact (Prod.mk.inj heq).1.symm

theorem NodePtr.Live.mono (h : p.Live tree) (hg : Grows tree tree') : p.Live tree' := by
  cases p with
  | null => trivial
  | node loc => exact hg loc h
  | dangling stale => exact h.elim

/-- From a live pointer, lookup comes to an end. -/
theorem findFrom_isSome (h : root.Live tree) (path : Bytes) (create : Bool) :
    (findFrom tree root path create).isSome := by
  unfold findFrom
  rw [if_pos (.inr h)]
  rfl

theorem findDangling_eq {root target p : NodePtr} {n : ℕ} {ptr : Bytes}
    (h : findDangling root n ptr target = some p) : p = target ∨ p = root := by
  induction n generalizing ptr target with
  | zero => exact .inl (Option.some.inj h).symm
  | succ n ih =>
    unfold findDangling at h
    split_ifs at h
    · exact .inl (Option.some.inj h).symm
    · rcases ih h with rfl | rfl
      · exact .inr rfl
      · exact .inr rfl

/-- Lookup finds `NULL` or a node of the tree, or stays where it is. -/
theorem findFrom_found {root p : NodePtr} {path : Bytes} {create : Bool}
    (h : findFrom tree root path create = some (tree', p)) :
    Grows tree tree' ∧ (p.Live tree' ∨ p = root) := by
  unfold findFrom at h
  split_ifs at h with hroot
  · obtain ⟨rfl, rfl⟩ := Prod.mk.inj (Option.some.inj h)
    have hfound : Grows tree (xmldbFindNode tree root.start path create).1 ∧
        ∀ l, (xmldbFindNode tree root.start path create).2 = some l →
          ((xmldbFindNode tree root.start path create).1.at? l).isSome := by
      rcases hroot with hslash | hroot
      · obtain ⟨rest, rfl⟩ := List.head?_eq_some_iff.1 hslash
        have hroot : (tree.at? []).isSome := rfl
        exact xmldbFindNode_live hroot (0x2F :: rest) create
      · refine xmldbFindNode_live ?_ path create
        cases root with
        | null => rfl
        | node loc => exact hroot
        | dangling stale => exact hroot.elim
    refine ⟨hfound.1, .inl ?_⟩
    cases hr : (xmldbFindNode tree root.start path create).2 with
    | none => trivial
    | some l => exact hfound.2 l hr
  · obtain ⟨target, htarget, heq⟩ := Option.map_eq_some_iff.1 h
    obtain ⟨rfl, rfl⟩ := Prod.mk.inj heq
    refine ⟨Grows.refl tree, ?_⟩
    rcases findDangling_eq htarget with rfl | rfl
    · exact .inl trivial
    · exact .inr rfl

/-- From a live pointer, lookup finds `NULL` or a node of the tree. -/
theorem findFrom_live (h : root.Live tree) (path : Bytes) (create : Bool) :
    ∃ tree' p, findFrom tree root path create = some (tree', p) ∧ Grows tree tree' ∧ p.Live tree' := by
  obtain ⟨⟨tree', p⟩, hfind⟩ := Option.isSome_iff_exists.1 (findFrom_isSome h path create)
  obtain ⟨hgrows, hp⟩ := findFrom_found hfind
  refine ⟨tree', p, hfind, hgrows, ?_⟩
  rcases hp with hp | rfl
  · exact hp
  · exact h.mono hgrows

theorem deref_isSome {α : Type} (h : p.Live tree) (null : α) (f : Loc → XmlNode → α) :
    (deref tree p null f).isSome := by
  cases p with
  | null => rfl
  | node loc => exact (Option.isSome_map ..).trans h
  | dangling stale => exact h.elim

theorem deref_cases {α : Type} {null a : α} {f : Loc → XmlNode → α}
    (h : deref tree p null f = some a) :
    p = .null ∧ a = null ∨ ∃ loc node, p = .node loc ∧ tree.at? loc = some node ∧ a = f loc node := by
  cases p with
  | null => exact .inl ⟨rfl, (Option.some.inj h).symm⟩
  | node loc =>
    obtain ⟨node, hnode, ha⟩ := Option.map_eq_some_iff.1 h
    exact .inr ⟨loc, node, rfl, hnode, ha.symm⟩
  | dangling stale => cases h

theorem getValueFrom_isSome (h : root.Live tree) (path : Bytes) :
    (getValueFrom tree root path).isSome := by
  obtain ⟨tree', p, hfind, -, hp⟩ := findFrom_live h path false
  rw [getValueFrom, hfind, Option.bind_some]
  exact deref_isSome hp _ _

theorem setValueFrom_isSome (h : root.Live tree) (path value : Bytes) :
    (setValueFrom tree root path value).isSome := by
  obtain ⟨tree', p, hfind, -, hp⟩ := findFrom_live h path true
  rw [setValueFrom, hfind, Option.bind_some]
  exact deref_isSome hp _ _

theorem setValueFrom_grows {path value : Bytes} {r : XmlNode × Option Bytes}
    (h : setValueFrom tree root path value = some r) : Grows tree r.1 := by
  obtain ⟨⟨tree', p⟩, hfind, h⟩ := Option.bind_eq_some_iff.1 h
  obtain ⟨hgrows, -⟩ := findFrom_found hfind
  rcases deref_cases h with ⟨-, rfl⟩ | ⟨loc, node, -, -, rfl⟩
  · exact hgrows
  · have hset := grows_modify (f := fun n => { n with value := (newValue n.value value).1 })
      (fun _ => grows_same rfl) loc tree'
    exact hgrows.trans hset

theorem setNotifyFrom_isSome (h : root.Live tree) (path message : Bytes) :
    (setNotifyFrom tree root path message).isSome := by
  obtain ⟨tree', p, hfind, -, hp⟩ := findFrom_live h path true
  rw [setNotifyFrom, hfind, Option.bind_some]
  exact deref_isSome hp _ _

theorem setNotifyFrom_grows {path message : Bytes}
    (h : setNotifyFrom tree root path message = some tree') : Grows tree tree' := by
  obtain ⟨⟨tree₁, p⟩, hfind, h⟩ := Option.bind_eq_some_iff.1 h
  obtain ⟨hgrows, -⟩ := findFrom_found hfind
  rcases deref_cases h with ⟨-, rfl⟩ | ⟨loc, node, -, -, rfl⟩
  · exact hgrows
  · have hset := grows_modify
      (f := fun n => { n with notify := if message ≠ [] then some message else none })
      (fun _ => grows_same rfl) loc tree₁
    exact hgrows.trans hset

/-! ## Deletion and reload -/

/-- A pointer does not point into the node at a location. -/
def NodePtr.Spared (removed : Loc) : NodePtr → Prop
  | .node loc => ¬ removed <+: loc
  | _ => True

instance (removed : Loc) : (p : NodePtr) → Decidable (p.Spared removed)
  | .null => inferInstanceAs (Decidable True)
  | .node _ => inferInstanceAs (Decidable (¬ _ <+: _))
  | .dangling _ => inferInstanceAs (Decidable True)

theorem without_eq_none : ∀ {removed loc : Loc}, Loc.without removed loc = none ↔ removed <+: loc
  | [], _ => by simp [Loc.without]
  | _ :: _, [] => by simp [Loc.without]
  | i :: removed, j :: loc => by
    rw [Loc.without, List.cons_prefix_cons]
    split_ifs with hj
    · rw [Option.map_eq_none_iff, without_eq_none]
      exact ⟨fun h => ⟨hj.symm, h⟩, And.right⟩
    · simp [Ne.symm hj]

/-- What is not deleted is found at its new location. -/
theorem at?_without {i : ℕ} : ∀ {p loc loc' : Loc} {tree : XmlNode}, (tree.at? loc).isSome →
    Loc.without (p ++ [i]) loc = some loc' →
    ((tree.modify (fun n => { n with child := n.child.eraseIdx i }) p).at? loc').isSome
  | [], [], loc', tree, _, h => by
    obtain rfl := Option.some.inj h
    rfl
  | [], j :: loc, loc', tree, hl, h => by
    rw [List.nil_append, Loc.without] at h
    by_cases hj : j = i
    · rw [if_pos hj] at h
      cases h
    · rw [if_neg hj] at h
      obtain rfl := Option.some.inj h
      rw [XmlNode.at?] at hl
      rw [XmlNode.modify, XmlNode.at?]
      dsimp only
      have hget : (tree.child.eraseIdx i)[if ([] : Loc) = [] ∧ i < j then j - 1 else j]? = tree.child[j]? := by
        by_cases hij : i < j
        · rw [if_pos ⟨rfl, hij⟩, List.getElem?_eraseIdx, if_neg (by omega), Nat.sub_add_cancel (by omega)]
        · rw [if_neg (fun h => hij h.2), List.getElem?_eraseIdx, if_pos (by omega)]
      rw [hget]
      exact hl
  | k :: p, [], loc', tree, _, h => by
    obtain rfl := Option.some.inj h
    rfl
  | k :: p, j :: loc, loc', tree, hl, h => by
    rw [List.cons_append, Loc.without] at h
    rw [XmlNode.at?] at hl
    obtain ⟨n, hn⟩ := Option.isSome_iff_exists.1 hl
    obtain ⟨c, hc, hn⟩ := Option.bind_eq_some_iff.1 hn
    by_cases hj : j = k
    · subst hj
      rw [if_pos rfl] at h
      obtain ⟨loc₁, h₁, rfl⟩ := Option.map_eq_some_iff.1 h
      rw [XmlNode.modify, XmlNode.at?]
      dsimp only
      rw [List.getElem?_modify_eq, hc]
      exact at?_without (Option.isSome_iff_exists.2 ⟨n, hn⟩) h₁
    · rw [if_neg hj, if_neg (fun h => by simp at h)] at h
      obtain rfl := Option.some.inj h
      rw [XmlNode.modify, XmlNode.at?]
      dsimp only
      rw [List.getElem?_modify_ne _ _ (Ne.symm hj), hc, Option.bind_some, hn]
      rfl

theorem renumber_getElem? {name : Bytes} {n : ℕ} {id : Int} {child : List XmlNode} {j : ℕ} {c : XmlNode}
    (hc : child[j]? = some c) : ∃ c', (renumber name n id child)[j]? = some c' ∧ c'.child = c.child := by
  induction n generalizing id child c with
  | zero => exact ⟨c, hc, rfl⟩
  | succ n ih =>
    unfold renumber
    cases child.findIdx? (isSibling name (id + 1)) with
    | none => exact ⟨c, hc, rfl⟩
    | some i =>
      dsimp only
      obtain ⟨c₁, hc₁, hchild⟩ : ∃ c₁, (child.modify i fun c => { c with id := id })[j]? = some c₁ ∧
          c₁.child = c.child := by
        rw [List.getElem?_modify, hc]
        by_cases hij : i = j
        · exact ⟨{ c with id := id }, by simp [hij], rfl⟩
        · exact ⟨c, by simp [hij], rfl⟩
      obtain ⟨c', hc', hchild'⟩ := ih hc₁
      exact ⟨c', hc', hchild'.trans hchild⟩

/-- From a live pointer, `xmldb_del_node` comes to an end. -/
theorem xmldbDelNode_isSome (h : root.Live tree) (path : Bytes) :
    (xmldbDelNode tree root path).isSome := by
  unfold xmldbDelNode
  refine (Option.isSome_map ..).trans ?_
  unfold delTarget
  dsimp only
  obtain ⟨pnode, hpnode, hp⟩ : ∃ pnode : NodePtr, (match (splitLeaf path).1 with
      | some ppath => (findFrom tree root ppath false).map Prod.snd
      | none => some (if root = .null then .node [] else root)) = some pnode ∧ pnode.Live tree := by
    split
    · rename_i ppath _
      obtain ⟨tree', p, hfind, -, hp⟩ := findFrom_live h ppath false
      refine ⟨p, by rw [hfind, Option.map_some], ?_⟩
      exact findFrom_false hfind ▸ hp
    · refine ⟨_, rfl, ?_⟩
      split_ifs
      · rfl
      · exact h
  rw [hpnode, Option.bind_some]
  exact deref_isSome hp _ _

/-- The nodes outside the deleted one are found at their new locations. -/
theorem xmldbDelNode_spares {path : Bytes} {r : XmlNode × Option Loc}
    (h : xmldbDelNode tree root path = some r) :
    (r.2 = none → r.1 = tree) ∧
      ∀ removed, r.2 = some removed → ∀ p : NodePtr, p.Live tree → p.Spared removed →
        (p.without removed).Live r.1 := by
  unfold xmldbDelNode at h
  dsimp only at h
  obtain ⟨target, -, rfl⟩ := Option.map_eq_some_iff.1 h
  cases target with
  | none => exact ⟨fun _ => rfl, fun _ h => by cases h⟩
  | some t =>
    obtain ⟨loc, i⟩ := t
    refine ⟨nofun, fun removed hr p hp hspared => ?_⟩
    obtain rfl := Option.some.inj hr
    cases p with
    | null => trivial
    | dangling stale => exact hp.elim
    | node l =>
      have hne : Loc.without (loc ++ [i]) l ≠ none := fun h => hspared (without_eq_none.1 h)
      obtain ⟨l', hl'⟩ := Option.ne_none_iff_exists'.1 hne
      rw [NodePtr.without, hl']
      show (XmlNode.at? _ l').isSome
      have herase := at?_without hp hl'
      have hrenumber : ∀ node : XmlNode, Grows node ⟨node.name, node.id, node.value, node.notify,
          if (splitId (splitLeaf path).2).2 = 0 then node.child
          else renumber (splitId (splitLeaf path).2).1 node.child.length (splitId (splitLeaf path).2).2
            node.child⟩ := by
        refine fun node => grows_child fun j c hc => ?_
        dsimp only
        split_ifs
        · exact ⟨c, hc, Grows.refl c⟩
        · obtain ⟨c', hc', hchild⟩ := renumber_getElem? hc
          exact ⟨c', hc', grows_same hchild⟩
      have hlive := grows_modify hrenumber loc _ l' herase
      rwa [XmlNode.modify_modify] at hlive

theorem without_cases (removed : Loc) (p : NodePtr) :
    p.Spared removed ∨ p.without removed = .dangling false := by
  cases p with
  | null => exact .inl trivial
  | dangling stale => exact .inl trivial
  | node loc =>
    by_cases h : removed <+: loc
    · exact .inr (by rw [NodePtr.without, without_eq_none.2 h, Option.elim_none])
    · exact .inl h

/-- A pointer to a node that is still there after a reload. -/
def NodePtr.Remains (root : XmlNode) (file : Option Bytes) (skipProc : Bool) : NodePtr → Prop
  | .node (i :: _) =>
    skipProc = true ∧ file.isSome ∧ root.child.findIdx? (isChild (ascii "proc") 0) = some i
  | _ => True

instance (root : XmlNode) (file : Option Bytes) (skipProc : Bool) :
    (p : NodePtr) → Decidable (p.Remains root file skipProc)
  | .node (_ :: _) => inferInstanceAs (Decidable (_ ∧ _ ∧ _))
  | .node [] => inferInstanceAs (Decidable True)
  | .null => inferInstanceAs (Decidable True)
  | .dangling _ => inferInstanceAs (Decidable True)

/-- The node that is kept is the last child. -/
theorem xmldbReadXml_proc (rootname : Bytes) {root : XmlNode} (fh : Bytes) {i : ℕ}
    (hi : root.child.findIdx? (isChild (ascii "proc") 0) = some i) :
    ∃ proc child, root.child[i]? = some proc ∧
      (xmldbReadXml rootname root (some fh) true).1.child = child ++ [proc] := by
  obtain ⟨hlt, hp, hbefore⟩ := List.findIdx?_eq_some_iff_getElem.1 hi
  have hfind : root.child.find? (fun c => c.name == ascii "proc" && c.id == 0) = some root.child[i] :=
    List.find?_eq_some_iff_getElem.2 ⟨hp, i, hlt, rfl, fun j hj => by
      simpa [isChild, imp_iff_not_or] using hbefore j hj⟩
  refine ⟨root.child[i], ?_⟩
  rw [xmldbReadXml, if_pos rfl, removeChild, hfind]
  exact ⟨_, List.getElem?_eq_getElem hlt, rfl⟩

theorem reloadPtr_live (rootname : Bytes) {root : XmlNode} {file : Option Bytes} {skipProc : Bool}
    (hp : p.Live root) (h : p.Remains root file skipProc) :
    (reloadPtr rootname root file skipProc p).Live (xmldbReadXml rootname root file skipProc).1 := by
  rcases p with _ | (_ | ⟨i, loc⟩) | stale
  · trivial
  · rfl
  · obtain ⟨rfl, hfile, hi⟩ := h
    obtain ⟨fh, rfl⟩ := Option.isSome_iff_exists.1 hfile
    obtain ⟨proc, child, hproc, hchild⟩ := xmldbReadXml_proc rootname fh hi
    rw [reloadPtr, if_pos ⟨rfl, hfile, hi⟩]
    show (XmlNode.at? _ _).isSome
    change (XmlNode.at? _ _).isSome = true at hp
    rw [XmlNode.at?, hproc] at hp
    rw [XmlNode.at?, hchild, List.length_append, List.length_singleton, Nat.add_sub_cancel,
      List.getElem?_concat_length]
    exact hp
  · exact hp.elim

theorem reloadPtr_cases (rootname : Bytes) (root : XmlNode) (file : Option Bytes) (skipProc : Bool)
    (p : NodePtr) :
    p.Remains root file skipProc ∨ reloadPtr rootname root file skipProc p = .dangling false := by
  rcases p with _ | (_ | ⟨i, loc⟩) | stale
  · exact .inl trivial
  · exact .inl trivial
  · by_cases h : skipProc = true ∧ file.isSome = true ∧
        root.child.findIdx? (isChild (ascii "proc") 0) = some i
    · exact .inl h
    · exact .inr (by rw [reloadPtr, if_neg h])
  · exact .inl trivial

end

end Xmldb
