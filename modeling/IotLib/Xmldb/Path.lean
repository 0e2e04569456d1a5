/-
  Lookup and update by path, against matching the segments in turn.

  Lookup keeps the last match when it comes to a node without children: a path that runs
  past a leaf finds the leaf.
-/
import IotLib.Xmldb.Tree

namespace Xmldb

/-! ## Paths -/

/-- A name and an id. -/
abbrev Key := Bytes × Int

/-- A segment of a path. -/
structure SegOk (seg : Bytes) : Prop where
  slash : 0x2F ∉ seg
  length : seg.length < MAX_TAG_LEN
  dot : seg ≠ [0x2E]
  name : (splitId seg).1 ≠ []

/-- The segments of a path after the first slash. -/
inductive Segs : Bytes → List Key → Prop where
  | nil : Segs [] []
  | last {seg : Bytes} : SegOk seg → Segs seg [splitId seg]
  | more {seg rest : Bytes} {keys : List Key} : SegOk seg → Segs rest keys →
      Segs (seg ++ 0x2F :: rest) (splitId seg :: keys)

-- the equations, once for the lemmas below
section
attribute [local simp] XmlNode.at? XmlNode.modify findLoop
end

variable {seg : Bytes}

theorem SegOk.ne_nil (h : SegOk seg) : seg ≠ [] := by
  rintro rfl
  exact h.name rfl

theorem SegOk.takeWhile (h : SegOk seg) : seg.takeWhile (· ≠ 0x2F) = seg := by
  refine List.takeWhile_eq_self_iff.2 fun c hc => ?_
  exact decide_eq_true fun heq => h.slash (heq ▸ hc)

theorem SegOk.take (h : SegOk seg) : seg.take (MAX_TAG_LEN - 1) = seg :=
  List.take_of_length_le (Nat.le_sub_one_of_lt h.length)

theorem getNode_last (h : SegOk seg) : getNode MAX_TAG_LEN seg = (seg, []) := by
  have hdrop : seg.dropWhile (· ≠ 0x2F) = [] := by
    refine List.dropWhile_eq_nil_iff.2 fun c hc => ?_
    exact decide_eq_true fun heq => h.slash (heq ▸ hc)
  rw [getNode, h.takeWhile, h.take, hdrop]
  rfl

theorem getNode_more (h : SegOk seg) (rest : Bytes) :
    getNode MAX_TAG_LEN (seg ++ 0x2F :: rest) = (seg, rest) := by
  have hall : ∀ c ∈ seg, decide (c ≠ 0x2F) = true := fun c hc =>
    decide_eq_true fun heq => h.slash (heq ▸ hc)
  rw [getNode, List.takeWhile_append_of_pos hall, List.dropWhile_append_of_pos hall]
  have htake : (0x2F :: rest).takeWhile (fun c => decide (c ≠ 0x2F)) = [] := rfl
  have hdrop : (0x2F :: rest).dropWhile (fun c => decide (c ≠ 0x2F)) = 0x2F :: rest := rfl
  rw [htake, hdrop, List.append_nil, h.take]
  rfl

variable {keys : List Key} {path : Bytes} {k : Key}

/-- One turn of the loop takes one segment. -/
theorem Segs.getNode (h : Segs path (k :: keys)) :
    ∃ seg rest, SegOk seg ∧ splitId seg = k ∧ getNode MAX_TAG_LEN path = (seg, rest) ∧
      Segs rest keys ∧ rest.length < path.length ∧ path ≠ [] := by
  generalize hks : k :: keys = ks at h
  cases h with
  | nil => cases hks
  | @last seg hseg =>
    obtain ⟨rfl, rfl⟩ := List.cons.inj hks
    exact ⟨path, [], hseg, rfl, getNode_last hseg, .nil,
      List.length_pos_of_ne_nil hseg.ne_nil, hseg.ne_nil⟩
  | @more seg rest keys' hseg hrest =>
    obtain ⟨rfl, rfl⟩ := List.cons.inj hks
    refine ⟨seg, rest, hseg, rfl, getNode_more hseg rest, hrest, ?_, by simp⟩
    rw [List.length_append, List.length_cons]
    omega

theorem Segs.eq_nil (h : Segs path []) : path = [] := by
  generalize hks : ([] : List Key) = ks at h
  cases h with
  | nil => rfl
  | last => cases hks
  | more => cases hks

/-! ## Locations -/

theorem XmlNode.at?_append (tree : XmlNode) (loc loc' : Loc) :
    tree.at? (loc ++ loc') = (tree.at? loc).bind fun n => n.at? loc' := by
  induction loc generalizing tree with
  | nil => rfl
  | cons i loc ih =>
    rw [List.cons_append, XmlNode.at?, XmlNode.at?, Option.bind_assoc]
    congr 1
    funext c
    exact ih c

theorem XmlNode.at?_modify (f : XmlNode → XmlNode) (tree : XmlNode) (loc : Loc) :
    (tree.modify f loc).at? loc = (tree.at? loc).map f := by
  induction loc generalizing tree with
  | nil => rfl
  | cons i loc ih =>
    rw [XmlNode.modify, XmlNode.at?, XmlNode.at?]
    dsimp only
    rw [List.getElem?_modify_eq]
    cases tree.child[i]? with
    | none => rfl
    | some c => exact ih c

theorem XmlNode.modify_modify (f g : XmlNode → XmlNode) (tree : XmlNode) (loc : Loc) :
    (tree.modify f loc).modify g loc = tree.modify (fun n => g (f n)) loc := by
  induction loc generalizing tree with
  | nil => rfl
  | cons i loc ih =>
    rw [XmlNode.modify, XmlNode.modify, XmlNode.modify]
    dsimp only
    rw [List.modify_modify_eq]
    congr 2
    funext c
    exact ih c

variable {tree node : XmlNode}

/-- Only the node at the location is changed. -/
theorem XmlNode.modify_congr {f g : XmlNode → XmlNode} {loc : Loc}
    (h : tree.at? loc = some node) (hfg : f node = g node) : tree.modify f loc = tree.modify g loc := by
  induction loc generalizing tree with
  | nil =>
    obtain rfl := Option.some.inj h
    exact hfg
  | cons i loc ih =>
    rw [XmlNode.at?] at h
    obtain ⟨c, hc, h⟩ := Option.bind_eq_some_iff.1 h
    rw [XmlNode.modify, XmlNode.modify]
    congr 1
    apply List.ext_getElem?
    intro j
    rw [List.getElem?_modify, List.getElem?_modify]
    by_cases hij : i = j
    · subst hij
      simp [hc, ih h]
    · simp [hij]

variable {f : XmlNode → XmlNode}

theorem XmlNode.modify_id {loc : Loc}
    (h : tree.at? loc = some node) (hf : f node = node) : tree.modify f loc = tree := by
  induction loc generalizing tree with
  | nil =>
    obtain rfl := Option.some.inj h
    exact hf
  | cons i loc ih =>
    rw [XmlNode.at?] at h
    obtain ⟨c, hc, h⟩ := Option.bind_eq_some_iff.1 h
    have hchild : tree.child.modify i (XmlNode.modify f loc) = tree.child := by
      apply List.ext_getElem?
      intro j
      rw [List.getElem?_modify]
      by_cases hij : i = j
      · subst hij
        simp [hc, ih h]
      · simp [hij]
    rw [XmlNode.modify, hchild]
    cases tree
    rfl

/-! ## Matching in turn -/

/-- The first child that a segment matches: the name without regard to case, and the id. -/
def XmlNode.match? (node : XmlNode) (k : Key) : Option XmlNode := node.child.find? (isSibling k.1 k.2)

/-- The node reached by matching every segment in turn. -/
def reach : XmlNode → List Key → Option XmlNode
  | node, [] => some node
  | node, k :: keys => (node.match? k).bind fun c => reach c keys

/-- The leaf that a path from a node runs past, with the number of segments before it. -/
def overrun : XmlNode → List Key → Option (Nat × XmlNode)
  | _, [] => none
  | node, k :: keys =>
    if node.child = [] then some (0, node)
    else (node.match? k).bind fun c => (overrun c keys).map fun p => (p.1 + 1, p.2)

/-- What lookup finds below a node. -/
def found (node : XmlNode) (keys : List Key) : Option XmlNode :=
  (reach node keys).or ((overrun node keys).map Prod.snd)

/-- A node for a segment. -/
def fresh (k : Key) : XmlNode := ⟨k.1, k.2, none, none, []⟩

/-- The tree with the path in it, and `f` on the node at its end. -/
def update (f : XmlNode → XmlNode) : List Key → XmlNode → XmlNode
  | [], node => f node
  | k :: keys, node =>
    match node.child.findIdx? (isSibling k.1 k.2) with
    | some i => { node with child := node.child.modify i (update f keys) }
    | none => { node with child := node.child ++ [update f keys (fresh k)] }

/-- Where the node at the end of the path is then. -/
def place : List Key → XmlNode → Loc
  | [], _ => []
  | k :: keys, node =>
    match node.child.findIdx? (isSibling k.1 k.2) with
    | some i => i :: place keys ((node.child[i]?).getD (fresh k))
    | none => node.child.length :: place keys (fresh k)

variable {node : XmlNode}

/-- `node->value`, or the empty string. -/
def valueOf (node : Option XmlNode) : Bytes := (node.bind XmlNode.value).getD []

variable {tree : XmlNode}

/-- `xmldb_set_value` on the node at the end of the path. -/
def setValue (value : Bytes) (node : XmlNode) : XmlNode :=
  { node with value := (newValue node.value value).1 }

/-- A name without regard to case, and an id. -/
def norm (k : Key) : Key := (k.1.map toLower, k.2)

/-- Two paths denote the same segments. -/
def Same (p q : List Key) : Prop := p.map norm = q.map norm

instance (p q : List Key) : Decidable (Same p q) := inferInstanceAs (Decidable (_ = _))

variable {k k' : Key}

/-- A function that keeps what lookup looks at. -/
structure Keeps (f : XmlNode → XmlNode) : Prop where
  name : ∀ node, (f node).name = node.name
  id : ∀ node, (f node).id = node.id
  child : ∀ node, (f node).child = node.child

/-- The node is not there, or has no children. -/
def childless : Option XmlNode → Bool
  | none => true
  | some node => node.child.isEmpty

/-- The path `q` goes on after the path `p`, and finds no child there. -/
def below (node : XmlNode) (p q : List Key) : Bool :=
  (p.map norm <+: q.map norm) && childless (reach node p)

variable {p q : List Key}

/-- The value at a path, by matching its segments in turn. -/
def lookup (tree : XmlNode) (keys : List Key) : Bytes := valueOf (reach tree keys)

end Xmldb
