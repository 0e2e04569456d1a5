/-
  Searching in an AVL tree (`avl.c`): `avl_find` and `avl_find_greaterequal`.

  The nodes are linked in the order of their keys. A node that was found is given with the nodes
  before and behind it in this list, where the loops go on.
-/
import Mathlib

namespace Avl

/-- A tree of nodes. -/
inductive Tree (ι : Type) where
  | nil
  | node (left : Tree ι) (x : ι) (right : Tree ι)
deriving DecidableEq, Repr

/-- The nodes in the order of the list. -/
def Tree.toList {ι : Type} : Tree ι → List ι
  | .nil => []
  | .node left x right => left.toList ++ x :: right.toList

/-- A node, the nodes before it with the nearest one first, and those behind it. -/
structure Cursor (ι : Type) where
  before : List ι
  node : ι
  after : List ι
deriving DecidableEq, Repr

/-- The whole list. -/
def Cursor.toList {ι : Type} (c : Cursor ι) : List ι := c.before.reverse ++ c.node :: c.after

variable {ι K : Type} [LT K] [DecidableLT K] (key : ι → K) (k : K)

/-! ## The search -/

/-- `avl_find_rec` in a subtree that stands between `before` and `after`. -/
def avlFindRec : Tree ι → List ι → List ι → Option (Cursor ι)
  | .nil, _, _ => none
  | .node left x right, before, after =>
    let here := ⟨left.toList.reverse ++ before, x, right.toList ++ after⟩
    if k < key x then some ((avlFindRec left before (x :: (right.toList ++ after))).getD here)
    else if key x < k then
      some ((avlFindRec right (x :: (left.toList.reverse ++ before)) after).getD here)
    else some here

/-- `avl_find` -/
def avlFind (t : Tree ι) : Option ι :=
  (avlFindRec key k t [] []).bind fun c =>
    if ¬ k < key c.node ∧ ¬ key c.node < k then some c.node else none

/-- The loop of `avl_find_greaterequal` to the right, as long as the key is greater. -/
def goRight : List ι → ι → List ι → Option (Cursor ι)
  | before, x, [] => if key x < k then none else some ⟨before, x, []⟩
  | before, x, y :: after =>
    if key x < k then goRight (x :: before) y after else some ⟨before, x, y :: after⟩

/-- The loop of `avl_find_greaterequal` to the left, as long as the key of the node before is not
    less. -/
def goLeft : List ι → ι → List ι → Cursor ι
  | [], x, after => ⟨[], x, after⟩
  | y :: before, x, after =>
    if key y < k then ⟨y :: before, x, after⟩ else goLeft before y (x :: after)

/-- `avl_find_greaterequal` -/
def avlFindGreaterequal (t : Tree ι) : Option (Cursor ι) :=
  (avlFindRec key k t [] []).bind fun c =>
    (goRight key k c.before c.node c.after).map fun c => goLeft key k c.before c.node c.after

/-! ## The list -/

section
variable {key : ι → K} {k : K}

section
-- the equations of these definitions, which the lemmas below rewrite with
attribute [local simp] Cursor.toList Tree.toList avlFindRec goRight
end

variable {before after : List ι}

/-- The search ends at a node of the list. -/
theorem avlFindRec_toList {t : Tree ι} {c : Cursor ι}
    (h : avlFindRec key k t before after = some c) :
    c.toList = before.reverse ++ t.toList ++ after := by
  induction t generalizing before after c with
  | nil => cases h
  | node left x right ihl ihr =>
    unfold avlFindRec at h
    dsimp only at h
    set here : Cursor ι := ⟨left.toList.reverse ++ before, x, right.toList ++ after⟩ with hhere
    have hhere' : here.toList = before.reverse ++ (Tree.node left x right).toList ++ after := by
      simp [hhere, Cursor.toList, Tree.toList]
    split_ifs at h with h₁ h₂
    · obtain rfl := Option.some.inj h
      cases hl : avlFindRec key k left before (x :: (right.toList ++ after)) with
      | none => exact hhere'
      | some c =>
        rw [Option.getD_some, ihl hl]
        simp [Tree.toList]
    · obtain rfl := Option.some.inj h
      cases hr : avlFindRec key k right (x :: (left.toList.reverse ++ before)) after with
      | none => exact hhere'
      | some c =>
        rw [Option.getD_some, ihr hr]
        simp [Tree.toList]
    · obtain rfl := Option.some.inj h
      exact hhere'

theorem avlFindRec_isSome {t : Tree ι} (ht : t.toList ≠ []) (before after : List ι) :
    ∃ c, avlFindRec key k t before after = some c := by
  cases t with
  | nil => exact absurd rfl ht
  | node left x right =>
    unfold avlFindRec
    dsimp only
    split_ifs <;> exact ⟨_, rfl⟩

theorem goRight_eq_some {x : ι} {c : Cursor ι}
    (h : goRight key k before x after = some c) :
    c.toList = before.reverse ++ x :: after ∧ ¬ key c.node < k := by
  induction after generalizing before x with
  | nil =>
    unfold goRight at h
    split_ifs at h with hx
    obtain rfl := Option.some.inj h
    exact ⟨rfl, hx⟩
  | cons y after ih =>
    unfold goRight at h
    split_ifs at h with hx
    · obtain ⟨hlist, hge⟩ := ih h
      exact ⟨by rw [hlist, List.reverse_cons, List.append_assoc, List.singleton_append], hge⟩
    · obtain rfl := Option.some.inj h
      exact ⟨rfl, hx⟩

theorem goRight_eq_none {x : ι} (h : goRight key k before x after = none) :
    ∀ y ∈ x :: after, key y < k := by
  induction after generalizing before x with
  | nil =>
    unfold goRight at h
    split_ifs at h with hx
    rintro y hy
    rw [List.mem_singleton.1 hy]
    exact hx
  | cons z after ih =>
    unfold goRight at h
    split_ifs at h with hx
    exact List.forall_mem_cons.2 ⟨hx, ih h⟩

/-- The loop to the left keeps the list, and stops behind a smaller key. -/
theorem goLeft_spec {x : ι} (hx : ¬ key x < k) :
    (goLeft key k before x after).toList = before.reverse ++ x :: after ∧
      ¬ key (goLeft key k before x after).node < k ∧
      ∀ y ∈ (goLeft key k before x after).before.head?, key y < k := by
  induction before generalizing x after with
  | nil =>
    unfold goLeft
    exact ⟨rfl, hx, fun y hy => by cases hy⟩
  | cons z before ih =>
    unfold goLeft
    split_ifs with hz
    · refine ⟨rfl, hx, ?_⟩
      rintro y ⟨⟩
      exact hz
    · obtain ⟨hlist, hge, hprev⟩ := @ih (x :: after) z hz
      exact ⟨by rw [hlist, List.reverse_cons, List.append_assoc, List.singleton_append], hge, hprev⟩

end

/-! ## Sorted lists -/

section
variable {key : ι → K} {k : K} [LE K] [Std.IsLinearOrder K] [Std.LawfulOrderLT K]

/-- **`avl_find_greaterequal`** finds the first node whose key is not less. -/
theorem avlFindGreaterequal_eq {t : Tree ι} (ht : t.toList.Pairwise fun x y => key x < key y) :
    ((avlFindGreaterequal key k t).elim [] fun c => c.node :: c.after) =
      t.toList.dropWhile fun x => decide (key x < k) := by
  by_cases hnil : t.toList = []
  · cases t with
    | nil => rfl
    | node => simp [Tree.toList] at hnil
  obtain ⟨c, hc⟩ := @avlFindRec_isSome ι K _ _ key k t hnil [] []
  have hlist : c.toList = t.toList := by
    rw [avlFindRec_toList hc, List.reverse_nil, List.nil_append, List.append_nil]
  unfold avlFindGreaterequal
  rw [hc, Option.bind_some]
  cases hr : goRight key k c.before c.node c.after with
  | none =>
    -- every key is less
    have hafter := goRight_eq_none hr
    rw [Option.map_none, Option.elim_none, eq_comm, List.dropWhile_eq_nil_iff]
    intro x hx
    rw [decide_eq_true_eq]
    rw [← hlist] at hx ht
    rcases List.mem_append.1 hx with hx | hx
    · have hlt := (List.pairwise_append.1 ht).2.2 x hx c.node List.mem_cons_self
      exact Std.lt_trans hlt (hafter _ List.mem_cons_self)
    · exact hafter x hx
  | some d =>
    obtain ⟨hd, hge⟩ := goRight_eq_some hr
    obtain ⟨he, hge', hprev⟩ := @goLeft_spec ι K _ _ key k d.before d.after d.node hge
    rw [Option.map_some, Option.elim_some]
    set e := goLeft key k d.before d.node d.after with hedef
    have hte : t.toList = e.before.reverse ++ e.node :: e.after := by
      rw [← hlist, show c.toList = _ from hd.symm]
      exact he.symm
    rw [hte, List.dropWhile_append_of_pos, List.dropWhile_cons_of_neg]
    · simpa using hge'
    · intro x hx
      rw [decide_eq_true_eq]
      cases hb : e.before with
      | nil =>
        rw [hb] at hx
        cases hx
      | cons y before =>
        have hy : key y < k := hprev y (by rw [hb]; rfl)
        rw [hb, List.reverse_cons, List.mem_append, List.mem_singleton] at hx
        rcases hx with hx | rfl
        · rw [hte, hb, List.reverse_cons, List.append_assoc] at ht
          exact Std.lt_trans ((List.pairwise_append.1 ht).2.2 x hx y (by simp)) hy
        · exact hy

omit [DecidableLT K] in
theorem eq_of_not_lt {a b : K} (h : ¬ a < b) (h' : ¬ b < a) : a = b :=
  Std.le_antisymm (Std.not_lt.1 h') (Std.not_lt.1 h)

/-- The search finds a key that is there. -/
theorem avlFindRec_key {t : Tree ι} (ht : t.toList.Pairwise fun x y => key x < key y) {x : ι}
    (hx : x ∈ t.toList) (before after : List ι) :
    ∃ c, avlFindRec key (key x) t before after = some c ∧ c.node = x := by
  induction t generalizing before after with
  | nil => cases hx
  | node left y right ihl ihr =>
    obtain ⟨hl, hr, hlr⟩ := List.pairwise_append.1 ht
    have hright := List.pairwise_cons.1 hr
    unfold avlFindRec
    dsimp only
    rcases List.mem_append.1 hx with hx | hx
    · rw [if_pos (hlr x hx y List.mem_cons_self)]
      obtain ⟨c, hc, hnode⟩ := ihl hl hx before (y :: (right.toList ++ after))
      rw [hc]
      exact ⟨c, rfl, hnode⟩
    · rcases List.mem_cons.1 hx with rfl | hx
      · rw [if_neg Std.lt_irrefl, if_neg Std.lt_irrefl]
        exact ⟨_, rfl, rfl⟩
      · have hlt := hright.1 x hx
        rw [if_neg (fun h => Std.lt_irrefl (Std.lt_trans h hlt)), if_pos hlt]
        obtain ⟨c, hc, hnode⟩ := ihr hright.2 hx (y :: (left.toList.reverse ++ before)) after
        rw [hc]
        exact ⟨c, rfl, hnode⟩

/-- **`avl_find`** finds the node with the key. -/
theorem avlFind_eq_some_iff {t : Tree ι} (ht : t.toList.Pairwise fun x y => key x < key y) {x : ι} :
    avlFind key k t = some x ↔ x ∈ t.toList ∧ key x = k := by
  unfold avlFind
  constructor
  · intro h
    obtain ⟨c, hc, hx⟩ := Option.bind_eq_some_iff.1 h
    split_ifs at hx with hkey
    obtain rfl := Option.some.inj hx
    have hlist := avlFindRec_toList hc
    rw [List.reverse_nil, List.nil_append, List.append_nil] at hlist
    exact ⟨by rw [← hlist]; simp [Cursor.toList], eq_of_not_lt hkey.2 hkey.1⟩
  · rintro ⟨hx, rfl⟩
    obtain ⟨c, hc, rfl⟩ := avlFindRec_key ht hx [] []
    rw [hc, Option.bind_some, if_pos ⟨Std.lt_irrefl, Std.lt_irrefl⟩]

end

end Avl
