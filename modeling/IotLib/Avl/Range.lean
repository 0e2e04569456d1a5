/-
  Range queries in an AVL tree with duplicates (`avl.c`): `avl_find`, `avl_find_lessequal` and
  `avl_find_greaterequal`.
-/
import IotLib.Avl.Search

namespace Avl

/-! ## Comparators -/

/-- A comparator (`avl_tree_comp`): the sign of its result orders the keys. -/
structure Comparator (K : Type) where
  comp : K → K → ℤ
  swap : ∀ a b, comp a b < 0 ↔ 0 < comp b a
  trans : ∀ a b c, comp a b ≤ 0 → comp b c ≤ 0 → comp a c ≤ 0

namespace Comparator

variable {K : Type} (cmp : Comparator K) {a b c : K}

theorem refl (a : K) : cmp.comp a a = 0 := by
  have h := cmp.swap a a
  omega

theorem le_of_not_lt (h : ¬ cmp.comp a b < 0) : cmp.comp b a ≤ 0 := by
  rw [cmp.swap] at h
  omega

theorem lt_of_lt_of_le (hab : cmp.comp a b < 0) (hbc : cmp.comp b c ≤ 0) : cmp.comp a c < 0 := by
  by_contra h
  have hba := cmp.trans b c a hbc (cmp.le_of_not_lt h)
  have hba' := (cmp.swap a b).1 hab
  omega

theorem lt_of_le_of_lt (hab : cmp.comp a b ≤ 0) (hbc : cmp.comp b c < 0) : cmp.comp a c < 0 := by
  by_contra h
  have hcb := cmp.trans c a b (cmp.le_of_not_lt h) hab
  have hcb' := (cmp.swap b c).1 hbc
  omega

theorem eq_symm (h : cmp.comp a b = 0) : cmp.comp b a = 0 := by
  have h1 := cmp.swap a b
  have h2 := cmp.swap b a
  omega

theorem eq_trans (hab : cmp.comp a b = 0) (hbc : cmp.comp b c = 0) : cmp.comp a c = 0 := by
  have h1 := cmp.trans a b c (by omega) (by omega)
  have h2 := cmp.trans c b a (by rw [cmp.eq_symm hbc]) (by rw [cmp.eq_symm hab])
  have h3 := cmp.swap a c
  omega

end Comparator

/-! ## Trees with duplicates -/

/-- A tree (`struct avl_tree`): its root, and all nodes in the order of the list. The nodes of the
    tree are the leaders; a node that is no leader stands behind one with its key. -/
structure AvlTree (ι K : Type) extends Comparator K where
  key : ι → K
  leader : ι → Bool
  root : Tree ι
  list : List ι
  nodup : list.Nodup
  sorted : list.Pairwise fun x y => comp (key x) (key y) ≤ 0
  leaders : root.toList = list.filter leader
  strict : root.toList.Pairwise fun x y => comp (key x) (key y) < 0
  follows : ∀ before x after, list = before ++ x :: after → leader x = false →
    ∃ y ∈ before.getLast?, comp (key y) (key x) = 0

namespace AvlTree

variable {ι K : Type} [DecidableEq ι] (t : AvlTree ι K) (k : K)

/-- How the key compares with that of a node. -/
abbrev diff (x : ι) : ℤ := t.comp k (t.key x)

/-- `avl_find_rec`, with its comparison result. -/
def avlFindRec : Tree ι → Option (ι × ℤ)
  | .nil => none
  | .node left x right =>
    let diff := t.diff k x
    if diff < 0 then some ((avlFindRec left).getD (x, diff))
    else if diff > 0 then some ((avlFindRec right).getD (x, diff))
    else some (x, diff)

/-- `avl_find` -/
def avlFind : Option ι :=
  match t.avlFindRec k t.root with
  | none => none
  | some (node, diff) => if diff = 0 then some node else none

/-- The place of a node in the list, behind the nodes `before`. -/
def cursor (before : List ι) : List ι → ι → Option (Cursor ι)
  | [], _ => none
  | y :: list, x => if y = x then some ⟨before, y, list⟩ else cursor (y :: before) list x

/-- The first loop: to the next node ahead, as long as the node is on the wrong side of the key.
    The search fails at the end of the list. -/
def leave (wrong : ℤ → Bool) : ℤ → ι → List ι → List ι → Option (ι × List ι)
  | diff, node, [], behind => if wrong diff then none else some (node, behind)
  | diff, node, next :: ahead, behind =>
    if wrong diff then leave wrong (t.diff k next) next ahead (node :: behind)
    else some (node, behind)

/-- The second loop: back, as long as the next node is on the right side of the key. -/
def comeBack (wrong : ℤ → Bool) : ι → List ι → ι
  | node, [] => node
  | node, next :: behind =>
    if wrong (t.diff k next) then node else comeBack wrong next behind

/-- `avl_find_lessequal`: left as long as the key is less, then right. -/
def avlFindLessequal : Option ι :=
  match t.avlFindRec k t.root with
  | none => none
  | some (node, diff) =>
    (cursor [] t.list node).bind fun c =>
      (t.leave k (· < 0) diff node c.before c.after).map fun (node, behind) =>
        t.comeBack k (· < 0) node behind

/-- `avl_find_greaterequal`: right as long as the key is greater, then left. -/
def avlFindGreaterequal : Option ι :=
  match t.avlFindRec k t.root with
  | none => none
  | some (node, diff) =>
    (cursor [] t.list node).bind fun c =>
      (t.leave k (· > 0) diff node c.after c.before).map fun (node, behind) =>
        t.comeBack k (· > 0) node behind

/-! ## The search in the tree -/

section
variable {t : AvlTree ι K} {k : K}

/-- What the search in a tree finds: a node, with the key if there is one. -/
def Found (t : AvlTree ι K) (k : K) (s : Tree ι) (x : ι) : Prop :=
  x ∈ s.toList ∧ (t.diff k x ≠ 0 → ∀ y ∈ s.toList, t.diff k y ≠ 0)

omit [DecidableEq ι] in
theorem avlFindRec_spec {s : Tree ι}
    (hs : s.toList.Pairwise fun x y => t.comp (t.key x) (t.key y) < 0) (hne : s ≠ .nil) :
    ∃ x, t.avlFindRec k s = some (x, t.diff k x) ∧ Found t k s x := by
  induction s with
  | nil => exact absurd rfl hne
  | node left x right ihl ihr =>
    obtain ⟨hl, hr, hlr⟩ := List.pairwise_append.1 hs
    obtain ⟨hx, hr⟩ := List.pairwise_cons.1 hr
    rw [avlFindRec]
    by_cases hlt : t.diff k x < 0
    · rw [if_pos hlt]
      -- the key is less than those of the right subtree
      have hright : ∀ y ∈ right.toList, t.diff k y ≠ 0 := by
        intro y hy
        have hxy := t.lt_of_lt_of_le hlt (le_of_lt (hx y hy))
        exact ne_of_lt hxy
      by_cases hnil : left = .nil
      · subst hnil
        refine ⟨x, rfl, by simp [Tree.toList], ?_⟩
        intro hd y hy
        rcases List.mem_cons.1 hy with rfl | hy
        · exact hd
        · exact hright y hy
      · obtain ⟨y, hy, hmem, hno⟩ := ihl hl hnil
        refine ⟨y, congrArg (fun r => some (Option.getD r (x, t.diff k x))) hy,
          List.mem_append_left _ hmem, ?_⟩
        intro hd z hz
        rcases List.mem_append.1 hz with hz | hz
        · exact hno hd z hz
        · rcases List.mem_cons.1 hz with rfl | hz
          · exact ne_of_lt hlt
          · exact hright z hz
    · rw [if_neg hlt]
      by_cases hgt : t.diff k x > 0
      · rw [if_pos hgt]
        have hxk : t.comp (t.key x) k < 0 := (t.swap _ _).2 hgt
        -- the key is greater than those of the left subtree
        have hleft : ∀ y ∈ left.toList, t.diff k y ≠ 0 := by
          intro y hy
          have hyk := t.lt_of_lt_of_le (hlr y hy x List.mem_cons_self) (le_of_lt hxk)
          exact ne_of_gt ((t.swap _ _).1 hyk)
        by_cases hnil : right = .nil
        · subst hnil
          refine ⟨x, rfl, by simp [Tree.toList], ?_⟩
          intro hd y hy
          rcases List.mem_append.1 hy with hy | hy
          · exact hleft y hy
          · rw [List.mem_singleton.1 hy]
            exact hd
        · obtain ⟨y, hy, hmem, hno⟩ := ihr hr hnil
          refine ⟨y, congrArg (fun r => some (Option.getD r (x, t.diff k x))) hy,
            List.mem_append_right _ (List.mem_cons_of_mem x hmem), ?_⟩
          intro hd z hz
          rcases List.mem_append.1 hz with hz | hz
          · exact hleft z hz
          · rcases List.mem_cons.1 hz with rfl | hz
            · exact ne_of_gt hgt
            · exact hno hd z hz
      · rw [if_neg hgt]
        refine ⟨x, rfl, by simp [Tree.toList], ?_⟩
        intro hd
        omega

omit [DecidableEq ι] in
/-- The leader of a node: it has the same key, and does not stand behind it. -/
theorem exists_leader {before after : List ι} {x : ι} (h : t.list = before ++ x :: after) :
    ∃ y ∈ before ++ [x], y ∈ t.root.toList ∧ t.comp (t.key y) (t.key x) = 0 := by
  induction before using List.reverseRecOn generalizing x after with
  | nil =>
    cases hx : t.leader x with
    | false =>
      obtain ⟨y, hy, -⟩ := t.follows [] x after h hx
      cases hy
    | true =>
      refine ⟨x, List.mem_singleton_self x, ?_, t.refl (t.key x)⟩
      rw [t.leaders, h]
      exact List.mem_filter.2 ⟨List.mem_cons_self, hx⟩
  | append_singleton before z ih =>
    cases hx : t.leader x with
    | true =>
      refine ⟨x, by simp, ?_, t.refl (t.key x)⟩
      rw [t.leaders, h]
      exact List.mem_filter.2 ⟨by simp, hx⟩
    | false =>
      obtain ⟨y, hy, hzx⟩ := t.follows _ x after h hx
      rw [List.getLast?_concat] at hy
      cases hy
      rw [List.append_assoc] at h
      obtain ⟨y, hmem, hroot, hyz⟩ := ih h
      exact ⟨y, List.mem_append_left _ hmem, hroot, t.eq_trans hyz hzx⟩

omit [DecidableEq ι] in
/-- A leader stands in front of the other nodes with its key. -/
theorem find_leader {x : ι} (hx : x ∈ t.root.toList) (hk : t.diff k x = 0) :
    (t.list.find? fun x => t.diff k x = 0) = some x := by
  have hlist : x ∈ t.list := by
    rw [t.leaders] at hx
    exact List.mem_of_mem_filter hx
  obtain ⟨before, after, h⟩ := List.append_of_mem hlist
  rw [List.find?_eq_some_iff_append]
  refine ⟨decide_eq_true hk, before, after, h, ?_⟩
  intro z hz
  rw [Bool.not_eq_true', decide_eq_false_iff_not]
  intro hkz
  -- the leader of that node would be another one with the key
  obtain ⟨b, a, rfl⟩ := List.append_of_mem hz
  have hz' : t.list = b ++ z :: (a ++ x :: after) := by
    rw [h, List.append_assoc, List.cons_append]
  obtain ⟨y, hy, hroot, hyz⟩ := exists_leader hz'
  have hyx : t.comp (t.key y) (t.key x) < 0 := by
    have hstrict := t.strict
    have hleader : t.leader x = true := by
      rw [t.leaders] at hx
      exact List.of_mem_filter hx
    rw [t.leaders, h, List.filter_append, List.filter_cons_of_pos hleader] at hstrict
    refine (List.pairwise_append.1 hstrict).2.2 y ?_ x List.mem_cons_self
    rw [t.leaders] at hroot
    refine List.mem_filter.2 ⟨?_, List.of_mem_filter hroot⟩
    rcases List.mem_append.1 hy with hy | hy
    · exact List.mem_append_left _ hy
    · rw [List.mem_singleton.1 hy]
      simp
  have heq := t.eq_trans (t.eq_trans hyz (t.eq_symm hkz)) hk
  omega

omit [DecidableEq ι] in
theorem root_nil_iff : t.root = .nil ↔ t.list = [] := by
  constructor
  · intro hroot
    by_contra hne
    obtain ⟨x, list, hlist⟩ := List.exists_cons_of_ne_nil hne
    obtain ⟨y, -, hy, -⟩ := exists_leader (hlist.trans (List.nil_append _).symm)
    rw [hroot] at hy
    cases hy
  · intro hlist
    have hleaders := t.leaders
    rw [hlist] at hleaders
    cases hroot : t.root with
    | nil => rfl
    | node left x right =>
      rw [hroot] at hleaders
      simp [Tree.toList] at hleaders

omit [DecidableEq ι] in
/-- **`avl_find`** finds the first node with the key. -/
theorem avlFind_eq : t.avlFind k = t.list.find? fun x => t.diff k x = 0 := by
  unfold avlFind
  by_cases hnil : t.root = .nil
  · rw [hnil, root_nil_iff.1 hnil]
    rfl
  · obtain ⟨x, hx, hmem, hno⟩ := avlFindRec_spec (k := k) t.strict hnil
    rw [hx]
    by_cases hk : t.diff k x = 0
    · rw [find_leader hmem hk]
      exact if_pos hk
    · refine (if_neg hk).trans (Eq.symm ?_)
      rw [List.find?_eq_none]
      intro z hz hkz
      obtain ⟨b, a, h⟩ := List.append_of_mem hz
      obtain ⟨y, -, hroot, hyz⟩ := exists_leader h
      exact hno hk y hroot (t.eq_trans (of_decide_eq_true hkz) (t.eq_symm hyz))

/-! ## The walk along the list -/

omit [DecidableEq ι] in
theorem leave_spec (wrong : ℤ → Bool) (x : ι) (ahead behind : List ι) :
    match t.leave k wrong (t.diff k x) x ahead behind with
    | none => ∀ y ∈ x :: ahead, wrong (t.diff k y) = true
    | some (y, behind') => wrong (t.diff k y) = false ∧
      ∃ ahead', behind'.reverse ++ y :: ahead' = behind.reverse ++ x :: ahead := by
  induction ahead generalizing x behind with
  | nil =>
    rw [leave]
    cases hx : wrong (t.diff k x) with
    | true => exact fun y hy => by rwa [List.mem_singleton.1 hy]
    | false => exact ⟨hx, [], rfl⟩
  | cons y ahead ih =>
    rw [leave]
    cases hx : wrong (t.diff k x) with
    | false => exact ⟨hx, y :: ahead, rfl⟩
    | true =>
      have hnext := ih y (x :: behind)
      rw [if_pos rfl]
      cases hrun : t.leave k wrong (t.diff k y) y ahead (x :: behind) with
      | none =>
        rw [hrun] at hnext
        exact List.forall_mem_cons.2 ⟨hx, hnext⟩
      | some r =>
        rw [hrun] at hnext
        obtain ⟨hr, ahead', heq⟩ := hnext
        refine ⟨hr, ahead', ?_⟩
        rw [heq, List.reverse_cons, List.append_assoc, List.singleton_append]

omit [DecidableEq ι] in
theorem comeBack_spec {wrong : ℤ → Bool} {x : ι} (ahead behind : List ι)
    (hx : wrong (t.diff k x) = false) :
    wrong (t.diff k (t.comeBack k wrong x behind)) = false ∧
      ∃ behind' ahead' : List ι, behind'.reverse ++ t.comeBack k wrong x behind :: ahead' =
          behind.reverse ++ x :: ahead ∧
        ∀ y ∈ behind'.head?, wrong (t.diff k y) = true := by
  induction behind generalizing x ahead with
  | nil => exact ⟨hx, [], ahead, rfl, nofun⟩
  | cons y behind ih =>
    rw [comeBack]
    cases hy : wrong (t.diff k y) with
    | true =>
      refine ⟨hx, y :: behind, ahead, rfl, ?_⟩
      intro z hz
      cases hz
      exact hy
    | false =>
      obtain ⟨hres, behind', ahead', heq, hhead⟩ := ih (x :: ahead) hy
      refine ⟨hres, behind', ahead', ?_, hhead⟩
      rw [List.reverse_cons, List.append_assoc, List.singleton_append]
      exact heq

omit [DecidableEq ι] in
/-- Both loops together find the first node ahead of which nothing is on the wrong side. -/
theorem leave_comeBack {wrong : ℤ → Bool} {x : ι} {ahead behind : List ι}
    (hmono : (behind.reverse ++ x :: ahead).Pairwise fun y z =>
      wrong (t.diff k z) = true → wrong (t.diff k y) = true) :
    ((t.leave k wrong (t.diff k x) x ahead behind).map fun (node, behind) =>
        t.comeBack k wrong node behind) =
      (behind.reverse ++ x :: ahead).find? fun y => !wrong (t.diff k y) := by
  have hleave := @leave_spec ι K t k wrong x ahead behind
  cases hrun : t.leave k wrong (t.diff k x) x ahead behind with
  | none =>
    rw [hrun] at hleave
    rw [Option.map_none, eq_comm, List.find?_eq_none]
    intro y hy
    rw [Bool.not_eq_true', Bool.not_eq_false]
    rcases List.mem_append.1 hy with hy | hy
    · exact (List.pairwise_append.1 hmono).2.2 y hy x List.mem_cons_self
        (hleave x List.mem_cons_self)
    · exact hleave y hy
  | some r =>
    obtain ⟨y, behind'⟩ := r
    rw [hrun] at hleave
    obtain ⟨hy, ahead', heq⟩ := hleave
    obtain ⟨hres, behind'', ahead'', heq', hhead⟩ := comeBack_spec ahead' behind' hy
    rw [heq] at heq'
    rw [Option.map_some, eq_comm, List.find?_eq_some_iff_append]
    refine ⟨by rw [hres]; rfl, behind''.reverse, ahead'', heq'.symm, ?_⟩
    intro z hz
    rw [Bool.not_not]
    rw [← heq'] at hmono
    -- the node next to the one found is on the wrong side, and all behind it are
    cases behind'' with
    | nil => cases hz
    | cons w behind'' =>
      have hw := hhead w rfl
      rw [List.reverse_cons] at hz hmono
      rcases List.mem_append.1 hz with hz | hz
      · rw [List.append_assoc] at hmono
        exact (List.pairwise_append.1 hmono).2.2 z hz w (by simp) hw
      · rw [List.mem_singleton.1 hz]
        exact hw

/-- A node of the list is found at its place. -/
theorem cursor_eq (before : List ι) {list : List ι} {x : ι} (hx : x ∈ list) :
    ∃ c, cursor before list x = some c ∧ c.node = x ∧
      c.toList = before.reverse ++ list := by
  induction list generalizing before with
  | nil => cases hx
  | cons y list ih =>
    rw [cursor]
    by_cases hy : y = x
    · rw [if_pos hy, hy]
      exact ⟨_, rfl, rfl, rfl⟩
    · rw [if_neg hy]
      have hmem : x ∈ list := (List.mem_cons.1 hx).resolve_left (Ne.symm hy)
      obtain ⟨c, hc, hnode, hlist⟩ := ih (y :: before) hmem
      refine ⟨c, hc, hnode, ?_⟩
      rw [hlist, List.reverse_cons, List.append_assoc, List.singleton_append]

/-- The search leads to a node of the list, at its place. -/
theorem search_cursor (h : t.root ≠ .nil) :
    ∃ c, t.avlFindRec k t.root = some (c.node, t.diff k c.node) ∧
      cursor [] t.list c.node = some c ∧ c.toList = t.list := by
  obtain ⟨x, hx, hmem, -⟩ := avlFindRec_spec (k := k) t.strict h
  have hlist : x ∈ t.list := by
    rw [t.leaders] at hmem
    exact List.mem_of_mem_filter hmem
  obtain ⟨c, hc, rfl, hcl⟩ := cursor_eq [] hlist
  exact ⟨c, hx, hc, hcl⟩

/-- **`avl_find_greaterequal`** finds the first node whose key is not less. -/
theorem avlFindGreaterequal_eq :
    t.avlFindGreaterequal k = t.list.find? fun x => t.diff k x ≤ 0 := by
  unfold avlFindGreaterequal
  by_cases hnil : t.root = .nil
  · rw [hnil, root_nil_iff.1 hnil]
    rfl
  · obtain ⟨c, hrec, hc, hlist⟩ := search_cursor (k := k) hnil
    rw [hrec]
    simp only [hc, Option.bind_some]
    rw [leave_comeBack]
    · rw [← hlist]
      congr 1
      funext x
      rw [Bool.eq_iff_iff]
      simp
    · have hsorted := t.sorted
      rw [← hlist] at hsorted
      refine hsorted.imp fun {x y} hxy hy => ?_
      have hyk := (t.swap (t.key y) k).2 (of_decide_eq_true hy)
      exact decide_eq_true ((t.swap _ _).1 (t.lt_of_le_of_lt hxy hyk))

/-- **`avl_find_lessequal`** finds the last node whose key is not greater. -/
theorem avlFindLessequal_eq :
    t.avlFindLessequal k = t.list.reverse.find? fun x => 0 ≤ t.diff k x := by
  unfold avlFindLessequal
  by_cases hnil : t.root = .nil
  · rw [hnil, root_nil_iff.1 hnil]
    rfl
  · obtain ⟨c, hrec, hc, hlist⟩ := search_cursor (k := k) hnil
    have hrev : c.after.reverse ++ c.node :: c.before = t.list.reverse := by
      rw [← hlist]
      simp [Cursor.toList]
    rw [hrec]
    simp only [hc, Option.bind_some]
    rw [leave_comeBack]
    · rw [hrev]
      congr 1
      funext x
      rw [Bool.eq_iff_iff]
      simp
    · rw [hrev, List.pairwise_reverse]
      refine t.sorted.imp fun {x y} hxy hx => ?_
      exact decide_eq_true (t.lt_of_lt_of_le (of_decide_eq_true hx) hxy)

/-- **Range queries**: the leader of the key, the last node that is not greater and the first one
    that is not less, if there are such nodes. -/
theorem range_queries (t : AvlTree ι K) (k : K) :
    (∀ x, t.avlFind k = some x ↔ x ∈ t.root.toList ∧ t.diff k x = 0) ∧
      (t.avlFind k = none ↔ ∀ x ∈ t.list, t.diff k x ≠ 0) ∧
      t.avlFindLessequal k = (t.list.filter fun x => 0 ≤ t.diff k x).getLast? ∧
      (t.avlFindLessequal k = none ↔ ∀ x ∈ t.list, ¬ 0 ≤ t.diff k x) ∧
      t.avlFindGreaterequal k = (t.list.filter fun x => t.diff k x ≤ 0).head? ∧
      (t.avlFindGreaterequal k = none ↔ ∀ x ∈ t.list, ¬ t.diff k x ≤ 0) := by
  refine ⟨?_, ?_, ?_, ?_, ?_, ?_⟩
  · intro x
    constructor
    · intro hx
      unfold avlFind at hx
      by_cases hnil : t.root = .nil
      · rw [hnil] at hx
        cases hx
      · obtain ⟨y, hy, hmem, -⟩ := avlFindRec_spec (k := k) t.strict hnil
        rw [hy] at hx
        by_cases hk : t.diff k y = 0
        · rw [← (Option.some.inj ((if_pos hk).symm.trans hx))]
          exact ⟨hmem, hk⟩
        · exact absurd ((if_neg hk).symm.trans hx) nofun
    · rintro ⟨hmem, hk⟩
      rw [avlFind_eq, find_leader hmem hk]
  · rw [avlFind_eq, List.find?_eq_none]
    simp
  · rw [avlFindLessequal_eq, ← List.head?_filter, List.filter_reverse, List.head?_reverse]
  · rw [avlFindLessequal_eq, List.find?_eq_none]
    simp
  · rw [avlFindGreaterequal_eq, List.head?_filter]
  · rw [avlFindGreaterequal_eq, List.find?_eq_none]
    simp

/-- A tree with two nodes for the key 1 and one for the key 2. -/
def twoKeys : AvlTree (Fin 3) ℤ where
  comp a b := a - b
  swap a b := by omega
  trans a b c := by omega
  key := ![1, 1, 2]
  leader := ![true, false, true]
  root := .node .nil 0 (.node .nil 2 .nil)
  list := [0, 1, 2]
  nodup := by decide
  sorted := by decide
  leaders := by decide
  strict := by decide
  follows := by
    intro before x after h hx
    obtain rfl : x = 1 := by
      fin_cases x
      · cases hx
      · rfl
      · cases hx
    obtain rfl : before = [0] := by
      rcases before with _ | ⟨a, _ | ⟨b, _ | ⟨c, before⟩⟩⟩
      · simp at h
      · simp at h
        rw [h.1]
      · simp at h
      · simp at h
    exact ⟨0, rfl, rfl⟩

example : (twoKeys.avlFind 1, twoKeys.avlFindLessequal 1, twoKeys.avlFindGreaterequal 2,
    twoKeys.avlFindGreaterequal 3) = (some 0, some 1, some 2, none) := by decide

end

end AvlTree

end Avl
