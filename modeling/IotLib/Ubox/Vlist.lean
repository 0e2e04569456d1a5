/-
  Versioned lists (vlist.c): what an update cycle leaves in the tree, and which changes it reports.

  The tree is the list of its nodes in the order of their keys.
-/
import IotLib.Avl.Range
import IotLib.Lib.Insert
import IotLib.Lib.Run

namespace Vlist

open Avl (Comparator)
open Insert

/-- A `struct vlist_node`, by address. -/
abbrev NodeId := ℕ

/-- `struct vlist_node`. -/
structure Node (K : Type) where
  key : K
  version : ℤ

/-- `struct vlist_tree`. The calls of `update`, with the new and the old node, are kept with the
    latest first; `pinned` tells the nodes whose version the user has set to -1 since they were
    added. -/
structure VlistTree (K : Type) where
  cmp : Comparator K
  node : NodeId → Node K
  avl : List NodeId
  version : ℤ
  keepOld : Bool
  noDelete : Bool
  calls : List (Option NodeId × Option NodeId)
  pinned : NodeId → Bool

variable {K : Type}

namespace VlistTree

/-- How a key compares with that of a node. -/
abbrev diff (t : VlistTree K) (key : K) (n : NodeId) : ℤ := t.cmp.comp key (t.node n).key

/-- `avl_find` -/
def avlFind (t : VlistTree K) (key : K) : Option NodeId := t.avl.find? fun n => t.diff key n = 0

/-- `avl_insert`, in front of the first node with a greater key. -/
def avlInsert (t : VlistTree K) (n : NodeId) : VlistTree K :=
  { t with avl := insertBefore (fun m => t.diff (t.node n).key m < 0) n t.avl }

/-- `avl_delete` -/
def avlDelete (t : VlistTree K) (n : NodeId) : VlistTree K := { t with avl := t.avl.erase n }

/-- `tree->update(tree, node_new, node_old)` -/
def update (t : VlistTree K) (new old : Option NodeId) : VlistTree K :=
  { t with calls := (new, old) :: t.calls }

def setNode (t : VlistTree K) (n : NodeId) (f : Node K → Node K) : VlistTree K :=
  { t with node := fun m => if m = n then f (t.node m) else t.node m }

/-- `vlist_delete` -/
def vlistDelete (t : VlistTree K) (n : NodeId) : VlistTree K :=
  (if t.noDelete then t else t.avlDelete n).update none (some n)

/-- `vlist_add` -/
def vlistAdd (t : VlistTree K) (n : NodeId) (key : K) : VlistTree K :=
  let t := t.setNode n fun _ => ⟨key, t.version⟩
  let t := { t with pinned := fun m => if m = n then false else t.pinned m }
  match t.avlFind key with
  | some old =>
    if t.keepOld || t.noDelete then
      (t.setNode old fun node => { node with version := t.version }).update (some n) (some old)
    else ((t.avlDelete old).avlInsert n).update (some n) (some old)
  | none => (t.avlInsert n).update (some n) none

/-- `vlist_update`; the version is an `int`. -/
def vlistUpdate (t : VlistTree K) : VlistTree K := { t with version := (t.version + 1).bmod (2 ^ 32) }

/-- The test of `vlist_flush`: the node stays. -/
def stays (t : VlistTree K) (n : NodeId) : Bool :=
  ((t.node n).version == t.version || (t.node n).version == -1) && t.version != -1

/-- The loop of `vlist_flush`; the next node is read before the body. -/
def flushLoop : List NodeId → VlistTree K → VlistTree K
  | [], t => t
  | n :: rest, t => flushLoop rest (if t.stays n then t else t.vlistDelete n)

/-- `vlist_flush` -/
def vlistFlush (t : VlistTree K) : VlistTree K := flushLoop t.avl t

/-- `vlist_flush_all` -/
def vlistFlushAll (t : VlistTree K) : VlistTree K := { t with version := -1 }.vlistFlush

end VlistTree

open VlistTree

/-- What a program does with a tree; `pin` sets the version of a node to -1. -/
inductive Op (K : Type) where
  | add (n : NodeId) (key : K)
  | delete (n : NodeId)
  | update
  | flush
  | flushAll
  | pin (n : NodeId)

def step (t : VlistTree K) : Op K → VlistTree K
  | .add n key => t.vlistAdd n key
  | .delete n => t.vlistDelete n
  | .update => t.vlistUpdate
  | .flush => t.vlistFlush
  | .flushAll => t.vlistFlushAll
  | .pin n =>
    { t.setNode n fun node => { node with version := -1 } with
      pinned := fun m => if m = n then true else t.pinned m }

/-- A node of the tree is added again under its key only, and only nodes of the tree are deleted. -/
def Allowed (t : VlistTree K) : Op K → Prop
  | .add n key => n ∈ t.avl → t.diff key n = 0
  | .delete n => n ∈ t.avl
  | _ => True

/-- `vlist_init`, for a tree without `keep_old` and `no_delete`. -/
def init (cmp : Comparator K) (node : NodeId → Node K) : VlistTree K where
  cmp := cmp
  node := node
  avl := []
  version := 1
  keepOld := false
  noDelete := false
  calls := []
  pinned _ := false

/-- The additions of an update cycle. -/
abbrev Adds (K : Type) := List (NodeId × K)

def addAll (t : VlistTree K) (adds : Adds K) : VlistTree K := Run.run step t (adds.map fun a => .add a.1 a.2)

/-- An update cycle. -/
def cycle (t : VlistTree K) (adds : Adds K) : VlistTree K := (addAll t.vlistUpdate adds).vlistFlush

/-! ## Well-formed trees -/

/-- The nodes are in the order of their keys. -/
def Sorted (t : VlistTree K) : Prop :=
  t.avl.Pairwise fun m n => t.cmp.comp (t.node m).key (t.node n).key < 0

/-- The tree is in order, and a node that the user pinned has version -1. -/
structure Inv (t : VlistTree K) : Prop where
  sorted : Sorted t
  pinned : ∀ n, t.pinned n = true → (t.node n).version = -1
  plain : t.keepOld = false ∧ t.noDelete = false

section
variable {t : VlistTree K} {n m : NodeId} {key : K}

theorem Sorted.nodup (h : Sorted t) : t.avl.Nodup := by
  refine h.imp fun {m n} hlt heq => ?_
  rw [heq, t.cmp.refl] at hlt
  exact lt_irrefl _ hlt

/-- Two nodes of the tree with the same key are the same. -/
theorem Sorted.eq_of_key (h : Sorted t) (hm : m ∈ t.avl) (hn : n ∈ t.avl)
    (hkey : t.cmp.comp (t.node m).key (t.node n).key = 0) : m = n := by
  obtain ⟨before, after, hl⟩ := List.append_of_mem hm
  have hsymm := t.cmp.eq_symm hkey
  unfold Sorted at h
  rw [hl] at h hn
  obtain ⟨-, hcons, hbefore⟩ := List.pairwise_append.1 h
  rcases List.mem_append.1 hn with hn | hn
  · have hlt := hbefore n hn m List.mem_cons_self
    omega
  · rcases List.mem_cons.1 hn with rfl | hn
    · rfl
    · have hlt := (List.pairwise_cons.1 hcons).1 n hn
      omega

/-- The node with a key, if there is one. -/
theorem avlFind_some (h : t.avlFind key = some n) : n ∈ t.avl ∧ t.diff key n = 0 := by
  have hdiff := List.find?_some h
  exact ⟨List.mem_of_find?_eq_some h, of_decide_eq_true hdiff⟩

theorem avlFind_none (h : t.avlFind key = none) (hn : n ∈ t.avl) : t.diff key n ≠ 0 := by
  have hdiff := List.find?_eq_none.1 h n hn
  exact of_decide_eq_false (by simpa using hdiff)

/-- A node is inserted where the order is kept, if its key is new. -/
theorem Sorted.avlInsert (h : Sorted t) (hnew : ∀ m ∈ t.avl, t.diff (t.node n).key m ≠ 0) :
    Sorted (t.avlInsert n) := by
  refine pairwise_insertBefore h ?_ ?_
  · intro m hm hlate
    have hne := hnew m hm
    have hnot : ¬ t.diff (t.node n).key m < 0 := of_decide_eq_false hlate
    have hgt : 0 < t.cmp.comp (t.node n).key (t.node m).key := by
      show 0 < t.diff (t.node n).key m
      omega
    exact (t.cmp.swap _ _).2 hgt
  · intro m hm hlate
    have hlt : t.diff (t.node n).key m < 0 := of_decide_eq_true hlate
    exact ⟨hlt, fun q _ hmq => t.cmp.lt_of_lt_of_le hlt (le_of_lt hmq)⟩

/-- What `vlist_add` does: the node takes the place of the one with its key. -/
structure Added (t t' : VlistTree K) (n : NodeId) (key : K) : Prop where
  inv : Inv t'
  mem : ∀ m, m ∈ t'.avl ↔ m = n ∨ (m ∈ t.avl ∧ t.diff key m ≠ 0)
  node : t'.node n = ⟨key, t.version⟩
  other : ∀ m, m ≠ n → t'.node m = t.node m ∧ t'.pinned m = t.pinned m
  pinned : t'.pinned n = false
  cmp : t'.cmp = t.cmp
  version : t'.version = t.version
  calls : t'.calls = (some n, t.avlFind key) :: t.calls

/-- The node under its new key, before it is put into the tree. -/
def keyed (t : VlistTree K) (n : NodeId) (key : K) : VlistTree K :=
  { t.setNode n fun _ => ⟨key, t.version⟩ with
    pinned := fun m => if m = n then false else t.pinned m }

theorem keyed_self (t : VlistTree K) (n : NodeId) (key : K) :
    (keyed t n key).node n = ⟨key, t.version⟩ := if_pos rfl

theorem keyed_other (key : K) (h : m ≠ n) :
    (keyed t n key).node m = t.node m ∧ (keyed t n key).pinned m = t.pinned m :=
  ⟨if_neg h, if_neg h⟩

/-- A node that is in the tree keeps its key. -/
theorem keyed_key (hok : Allowed t (.add n key)) (hm : m ∈ t.avl) :
    t.cmp.comp ((keyed t n key).node m).key (t.node m).key = 0 := by
  by_cases heq : m = n
  · subst heq
    rw [keyed_self]
    exact hok hm
  · rw [(keyed_other key heq).1]
    exact t.cmp.refl _

theorem keyed_diff (hok : Allowed t (.add n key)) (hm : m ∈ t.avl) (k : K) :
    (keyed t n key).diff k m = 0 ↔ t.diff k m = 0 := by
  have hkey := keyed_key hok hm
  constructor
  · intro h
    exact t.cmp.eq_trans h hkey
  · intro h
    exact t.cmp.eq_trans h (t.cmp.eq_symm hkey)

theorem keyed_sorted (h : Sorted t) (hok : Allowed t (.add n key)) : Sorted (keyed t n key) := by
  refine List.Pairwise.imp_of_mem ?_ h
  intro a b ha hb hlt
  have hab := t.cmp.lt_of_le_of_lt (le_of_eq (keyed_key hok ha)) hlt
  exact t.cmp.lt_of_lt_of_le hab (le_of_eq (t.cmp.eq_symm (keyed_key hok hb)))

theorem keyed_find (hok : Allowed t (.add n key)) :
    (keyed t n key).avlFind key = t.avlFind key := by
  have hsame : ∀ m ∈ t.avl, decide ((keyed t n key).diff key m = 0) = decide (t.diff key m = 0) :=
    fun m hm => decide_eq_decide.2 (keyed_diff hok hm key)
  exact List.find?_congr hsame

theorem Inv.vlistAdd (h : Inv t) (hok : Allowed t (.add n key)) :
    Added t (t.vlistAdd n key) n key := by
  have hsorted := keyed_sorted h.sorted hok
  have hpinned : ∀ m, (keyed t n key).pinned m = true → ((keyed t n key).node m).version = -1 := by
    intro m hm
    by_cases heq : m = n
    · rw [heq] at hm
      exact absurd ((if_pos rfl).symm.trans hm) Bool.false_ne_true
    · rw [(keyed_other key heq).1]
      rw [(keyed_other key heq).2] at hm
      exact h.pinned m hm
  have hadd : t.vlistAdd n key = match t.avlFind key with
      | some old => (((keyed t n key).avlDelete old).avlInsert n).update (some n) (some old)
      | none => ((keyed t n key).avlInsert n).update (some n) none := by
    have hflags : ¬ ((keyed t n key).keepOld || (keyed t n key).noDelete) = true := by
      show ¬ (t.keepOld || t.noDelete) = true
      rw [h.plain.1, h.plain.2]
      exact Bool.false_ne_true
    rw [← keyed_find hok]
    unfold VlistTree.vlistAdd
    show (match (keyed t n key).avlFind key with | some old => _ | none => _) = _
    cases (keyed t n key).avlFind key with
    | none => rfl
    | some old => exact if_neg hflags
  rw [hadd]
  cases hfind : t.avlFind key with
  | none =>
    have hnew : ∀ m ∈ t.avl, t.diff key m ≠ 0 := fun m hm => avlFind_none hfind hm
    refine ⟨⟨?_, hpinned, h.plain⟩, ?_, keyed_self t n key, fun m hm => keyed_other key hm,
      if_pos rfl, rfl, rfl, congrArg (· :: t.calls) (by rw [hfind])⟩
    · refine Sorted.avlInsert hsorted ?_
      rw [keyed_self]
      intro m hm
      exact (keyed_diff hok hm key).not.2 (hnew m hm)
    · intro m
      refine mem_insertBefore.trans (or_congr_right ?_)
      exact ⟨fun hm => ⟨hm, hnew m hm⟩, And.left⟩
  | some old =>
    obtain ⟨hold, hkey⟩ := avlFind_some hfind
    -- no other node has the key
    have hne : ∀ m ∈ t.avl, m ≠ old ↔ t.diff key m ≠ 0 := by
      intro m hm
      refine not_congr ⟨?_, ?_⟩
      · rintro rfl
        exact hkey
      · intro hm0
        exact h.sorted.eq_of_key hm hold (t.cmp.eq_trans (t.cmp.eq_symm hm0) hkey)
    have herase : ∀ m, m ∈ t.avl.erase old ↔ m ∈ t.avl ∧ t.diff key m ≠ 0 := by
      intro m
      rw [h.sorted.nodup.mem_erase_iff, and_comm]
      exact and_congr_right fun hm => hne m hm
    refine ⟨⟨?_, hpinned, h.plain⟩, ?_, keyed_self t n key, fun m hm => keyed_other key hm,
      if_pos rfl, rfl, rfl, congrArg (· :: t.calls) (by rw [hfind])⟩
    · have hsub : Sorted ((keyed t n key).avlDelete old) :=
        List.Pairwise.sublist (List.erase_sublist (a := old) (l := t.avl)) hsorted
      refine hsub.avlInsert ?_
      intro m hm
      obtain ⟨hm, hm0⟩ := (herase m).1 hm
      have hself : ((keyed t n key).avlDelete old).node n = ⟨key, t.version⟩ := keyed_self t n key
      rw [hself]
      exact (keyed_diff hok hm key).not.2 hm0
    · intro m
      exact mem_insertBefore.trans (or_congr_right (herase m))

/-! ## Additions -/

/-- Some additions leave a node of the tree alone. -/
def Untouched (t : VlistTree K) (adds : Adds K) (m : NodeId) : Prop :=
  ∀ a ∈ adds, t.diff a.2 m ≠ 0

/-- A node is the one that was added last for some key. -/
def LastAdded (cmp : Comparator K) (adds : Adds K) (m : NodeId) : Prop :=
  ∃ before key after, adds = before ++ (m, key) :: after ∧ ∀ a ∈ after, cmp.comp a.2 key ≠ 0

/-- The calls for some additions, the latest first: each with the node that it replaces. -/
def addCalls (t : VlistTree K) : Adds K → List (Option NodeId × Option NodeId)
  | [] => []
  | (n, key) :: adds => addCalls (t.vlistAdd n key) adds ++ [(some n, t.avlFind key)]

theorem lastAdded_cons {cmp : Comparator K} {adds : Adds K} :
    LastAdded cmp ((n, key) :: adds) m ↔
      LastAdded cmp adds m ∨ (m = n ∧ ∀ a ∈ adds, cmp.comp a.2 key ≠ 0) := by
  constructor
  · rintro ⟨before, k, after, heq, hafter⟩
    cases before with
    | nil =>
      cases heq
      exact Or.inr ⟨rfl, hafter⟩
    | cons a before =>
      cases heq
      exact Or.inl ⟨before, k, after, rfl, hafter⟩
  · rintro (⟨before, k, after, rfl, hafter⟩ | ⟨rfl, hall⟩)
    · exact ⟨(n, key) :: before, k, after, rfl, hafter⟩
    · exact ⟨[], key, adds, rfl, hall⟩

/-- What some additions do. -/
structure AddedAll (t t' : VlistTree K) (adds : Adds K) : Prop where
  inv : Inv t'
  mem : ∀ m, m ∈ t'.avl ↔ LastAdded t.cmp adds m ∨ (m ∈ t.avl ∧ Untouched t adds m)
  added : ∀ m, LastAdded t.cmp adds m → (t'.node m).version = t.version
  kept : ∀ m ∈ t.avl, Untouched t adds m → t'.node m = t.node m ∧ t'.pinned m = t.pinned m
  disjoint : ∀ m ∈ t.avl, Untouched t adds m → ¬ LastAdded t.cmp adds m
  cmp : t'.cmp = t.cmp
  version : t'.version = t.version
  calls : t'.calls = addCalls t adds ++ t.calls

theorem Inv.addAll (h : Inv t) {adds : Adds K}
    (hok : Run.Admits step Allowed t (adds.map fun a => .add a.1 a.2)) :
    AddedAll t (addAll t adds) adds := by
  induction adds generalizing t with
  | nil =>
    have hnone : ∀ m, ¬ LastAdded t.cmp [] m := by
      rintro m ⟨before, k, after, heq, -⟩
      simp at heq
    refine ⟨h, ?_, fun m hm => absurd hm (hnone m), fun m _ _ => ⟨rfl, rfl⟩,
      fun m _ _ => hnone m, rfl, rfl, rfl⟩
    intro m
    constructor
    · intro hm
      exact Or.inr ⟨hm, nofun⟩
    · rintro (hm | ⟨hm, -⟩)
      · exact absurd hm (hnone m)
      · exact hm
  | cons a adds ih =>
    obtain ⟨n, key⟩ := a
    obtain ⟨hok, hrest⟩ := hok
    have hadd := h.vlistAdd hok
    have hnext := ih hadd.inv hrest
    -- the node that was added, and those that were there
    have hself : Untouched (t.vlistAdd n key) adds n ↔ ∀ a ∈ adds, t.cmp.comp a.2 key ≠ 0 := by
      unfold Untouched VlistTree.diff
      rw [hadd.node, hadd.cmp]
    have hother : ∀ m, m ≠ n → (Untouched (t.vlistAdd n key) adds m ↔ Untouched t adds m) := by
      intro m hm
      unfold Untouched VlistTree.diff
      rw [(hadd.other m hm).1, hadd.cmp]
    have hcons : ∀ m, Untouched t ((n, key) :: adds) m ↔ t.diff key m ≠ 0 ∧ Untouched t adds m :=
      fun m => List.forall_mem_cons
    have hne : ∀ m ∈ t.avl, t.diff key m ≠ 0 → m ≠ n := by
      rintro m hm hdiff rfl
      exact hdiff (hok hm)
    refine ⟨hnext.inv, ?_, ?_, ?_, ?_, hnext.cmp.trans hadd.cmp, hnext.version.trans hadd.version, ?_⟩
    · intro m
      refine (hnext.mem m).trans ?_
      rw [hadd.cmp, hadd.mem, lastAdded_cons, hcons]
      by_cases hm : m = n
      · subst hm
        rw [hself]
        constructor
        · rintro (hlast | ⟨-, hall⟩)
          · exact Or.inl (Or.inl hlast)
          · exact Or.inl (Or.inr ⟨rfl, hall⟩)
        · rintro ((hlast | ⟨-, hall⟩) | ⟨hmem, hdiff, -⟩)
          · exact Or.inl hlast
          · exact Or.inr ⟨Or.inl rfl, hall⟩
          · exact absurd rfl (hne m hmem hdiff)
      · rw [hother m hm]
        constructor
        · rintro (hlast | ⟨hn | ⟨hmem, hdiff⟩, hunt⟩)
          · exact Or.inl (Or.inl hlast)
          · exact absurd hn hm
          · exact Or.inr ⟨hmem, hdiff, hunt⟩
        · rintro ((hlast | ⟨hn, -⟩) | ⟨hmem, hdiff, hunt⟩)
          · exact Or.inl hlast
          · exact absurd hn hm
          · exact Or.inr ⟨Or.inr ⟨hmem, hdiff⟩, hunt⟩
    · intro m hm
      rcases lastAdded_cons.1 hm with hm | ⟨rfl, hall⟩
      · exact (hnext.added m (by rw [hadd.cmp]; exact hm)).trans hadd.version
      · obtain ⟨hnode, -⟩ := hnext.kept m ((hadd.mem m).2 (Or.inl rfl)) (hself.2 hall)
        refine (congrArg Node.version hnode).trans ?_
        rw [hadd.node]
    · intro m hm hunt
      obtain ⟨hdiff, hunt⟩ := (hcons m).1 hunt
      have hmn := hne m hm hdiff
      obtain ⟨hnode, hpin⟩ := hnext.kept m ((hadd.mem m).2 (Or.inr ⟨hm, hdiff⟩))
        ((hother m hmn).2 hunt)
      exact ⟨hnode.trans (hadd.other m hmn).1, hpin.trans (hadd.other m hmn).2⟩
    · intro m hm hunt hlast
      obtain ⟨hdiff, hunt⟩ := (hcons m).1 hunt
      have hmn := hne m hm hdiff
      rcases lastAdded_cons.1 hlast with hlast | ⟨heq, -⟩
      · refine hnext.disjoint m ((hadd.mem m).2 (Or.inr ⟨hm, hdiff⟩)) ((hother m hmn).2 hunt) ?_
        rw [hadd.cmp]
        exact hlast
      · exact hmn heq
    · rw [addCalls, List.append_assoc, List.singleton_append, ← hadd.calls]
      exact hnext.calls

/-! ## Flushing -/

/-- The nodes that `vlist_flush` drops. -/
def dropped (t : VlistTree K) : List NodeId := t.avl.filter fun n => !t.stays n

theorem flushLoop_eq (l : List NodeId) (h : t.noDelete = false) :
    flushLoop l t =
      { t with
        avl := t.avl.diff (l.filter fun n => !t.stays n)
        calls := (l.filter fun n => !t.stays n).reverse.map (fun n => (none, some n)) ++
          t.calls } := by
  induction l generalizing t with
  | nil => rfl
  | cons n l ih =>
    rw [flushLoop]
    cases hn : t.stays n with
    | true =>
      rw [if_pos rfl, ih h, List.filter_cons_of_neg (by simp [hn])]
    | false =>
      have hdelete : t.vlistDelete n = (t.avlDelete n).update none (some n) := by
        unfold vlistDelete
        rw [h, if_neg Bool.false_ne_true]
      have hnext := @ih ((t.avlDelete n).update none (some n)) h
      have hstays : ((t.avlDelete n).update none (some n)).stays = t.stays := rfl
      rw [if_neg Bool.false_ne_true, hdelete, hnext, hstays,
        List.filter_cons_of_pos (by simp [hn]), List.diff_cons, List.reverse_cons,
        List.map_append, List.append_assoc]
      rfl

/-- What `vlist_flush` does. -/
theorem Inv.vlistFlush (h : Inv t) :
    t.vlistFlush = { t with
        avl := t.avl.filter t.stays
        calls := (dropped t).reverse.map (fun n => (none, some n)) ++ t.calls } := by
  have hdiff : t.avl.diff (dropped t) = t.avl.filter t.stays := by
    rw [h.sorted.nodup.sdiff_eq_filter]
    refine List.filter_congr fun n hn => ?_
    cases hs : t.stays n with
    | true => simp [dropped, hs]
    | false => simp [dropped, hs, hn]
  unfold VlistTree.vlistFlush
  rw [flushLoop_eq t.avl h.plain.2]
  exact congrArg (fun avl => { t with
    avl := avl
    calls := (dropped t).reverse.map (fun n => (none, some n)) ++ t.calls }) hdiff

theorem Inv.flush (h : Inv t) : Inv t.vlistFlush := by
  rw [h.vlistFlush]
  exact ⟨h.sorted.sublist List.filter_sublist, h.pinned, h.plain⟩

/-! ## Runs -/

theorem inv_init (cmp : Comparator K) (node : NodeId → Node K) : Inv (init cmp node) :=
  ⟨List.Pairwise.nil, nofun, rfl, rfl⟩

theorem Inv.step (h : Inv t) {op : Op K} (hok : Allowed t op) : Inv (step t op) := by
  cases op with
  | add n key => exact (h.vlistAdd hok).inv
  | delete n =>
    show Inv (t.vlistDelete n)
    unfold VlistTree.vlistDelete
    rw [h.plain.2, if_neg Bool.false_ne_true]
    exact ⟨h.sorted.sublist List.erase_sublist, h.pinned, h.plain⟩
  | update => exact ⟨h.sorted, h.pinned, h.plain⟩
  | flush => exact h.flush
  | flushAll =>
    have hall : Inv { t with version := -1 } := ⟨h.sorted, h.pinned, h.plain⟩
    exact hall.flush
  | pin n =>
    have hkey : ∀ m, ((Vlist.step t (.pin n)).node m).key = (t.node m).key := by
      intro m
      show (if m = n then _ else t.node m : Node K).key = _
      split <;> rfl
    refine ⟨?_, ?_, h.plain⟩
    · refine List.Pairwise.imp ?_ h.sorted
      intro a b hlt
      rw [hkey, hkey]
      exact hlt
    · intro m hm
      show (if m = n then { t.node m with version := -1 } else t.node m : Node K).version = -1
      by_cases heq : m = n
      · rw [if_pos heq]
      · rw [if_neg heq]
        exact h.pinned m ((if_neg heq).symm.trans hm)

theorem inv_run (cmp : Comparator K) (node : NodeId → Node K) {ops : List (Op K)}
    (hok : Run.Admits Vlist.step Allowed (init cmp node) ops) :
    Inv (Run.run Vlist.step (init cmp node) ops) :=
  hok.invariant (fun _ _ hop h => h.step hop) (inv_init cmp node)

/-! ## Update cycles -/

/-- An update cycle does what it is for: it leaves the nodes added last for their keys, and those
    of the other nodes that the user pinned; it reports each addition with the node replaced, and
    each node dropped. -/
structure CycleRight (t : VlistTree K) (adds : Adds K) : Prop where
  holds : ∀ m, m ∈ (cycle t adds).avl ↔
    LastAdded t.cmp adds m ∨ (m ∈ t.avl ∧ Untouched t adds m ∧ t.pinned m = true)
  calls : ∃ gone : List NodeId, gone.Nodup ∧
    (∀ m, m ∈ gone ↔ m ∈ (addAll t.vlistUpdate adds).avl ∧ m ∉ (cycle t adds).avl) ∧
    (cycle t adds).calls =
      gone.map (fun n => (none, some n)) ++ addCalls t.vlistUpdate adds ++ t.calls

/-- The version of the cycle is not the reserved one, no node that is left alone has it, and such a
    node has the reserved one only if the user has set it. -/
def Distinct (t : VlistTree K) (adds : Adds K) : Prop :=
  t.vlistUpdate.version ≠ -1 ∧ ∀ m ∈ t.avl, Untouched t adds m →
    (t.node m).version ≠ t.vlistUpdate.version ∧
      ((t.node m).version = -1 → t.pinned m = true)

/-- With the reserved version, there is nothing to keep. -/
def Nothing (t : VlistTree K) (adds : Adds K) : Prop :=
  t.vlistUpdate.version = -1 ∧ adds = [] ∧ ∀ m ∈ t.avl, t.pinned m = false

theorem lastAdded_last {cmp : Comparator K} {adds : Adds K} (h : adds ≠ []) :
    ∃ m, LastAdded cmp adds m := by
  obtain ⟨before, a, rfl⟩ := List.eq_nil_or_concat'  adds |>.resolve_left h
  exact ⟨a.1, before, a.2, [], rfl, nofun⟩

theorem cycle_mem (h : Inv t) {adds : Adds K}
    (hok : Run.Admits Vlist.step Allowed t.vlistUpdate (adds.map fun a => .add a.1 a.2)) (m : NodeId) :
    m ∈ (cycle t adds).avl ↔ t.vlistUpdate.version ≠ -1 ∧
      (LastAdded t.cmp adds m ∨ (m ∈ t.avl ∧ Untouched t adds m ∧
        ((t.node m).version = t.vlistUpdate.version ∨ (t.node m).version = -1))) := by
  have hup : Inv t.vlistUpdate := ⟨h.sorted, h.pinned, h.plain⟩
  have hadds := hup.addAll hok
  have hflush : m ∈ (cycle t adds).avl ↔
      m ∈ (addAll t.vlistUpdate adds).avl ∧ (addAll t.vlistUpdate adds).stays m = true := by
    unfold cycle
    rw [hadds.inv.vlistFlush]
    exact List.mem_filter
  have hstays : (addAll t.vlistUpdate adds).stays m = true ↔
      (((addAll t.vlistUpdate adds).node m).version = t.vlistUpdate.version ∨
        ((addAll t.vlistUpdate adds).node m).version = -1) ∧ t.vlistUpdate.version ≠ -1 := by
    unfold VlistTree.stays
    rw [hadds.version]
    simp
  rw [hflush, hadds.mem, hstays]
  constructor
  · rintro ⟨hlast | ⟨hmem, hunt⟩, hver, hne⟩
    · exact ⟨hne, Or.inl hlast⟩
    · rw [(hadds.kept m hmem hunt).1] at hver
      exact ⟨hne, Or.inr ⟨hmem, hunt, hver⟩⟩
  · rintro ⟨hne, hlast | ⟨hmem, hunt, hver⟩⟩
    · exact ⟨Or.inl hlast, Or.inl (hadds.added m hlast), hne⟩
    · refine ⟨Or.inr ⟨hmem, hunt⟩, ?_, hne⟩
      rw [(hadds.kept m hmem hunt).1]
      exact hver

/-- What a cycle reports. -/
theorem cycle_calls (h : Inv t) {adds : Adds K}
    (hok : Run.Admits Vlist.step Allowed t.vlistUpdate (adds.map fun a => .add a.1 a.2)) :
    ∃ gone : List NodeId, gone.Nodup ∧
      (∀ m, m ∈ gone ↔ m ∈ (addAll t.vlistUpdate adds).avl ∧ m ∉ (cycle t adds).avl) ∧
      (cycle t adds).calls =
        gone.map (fun n => (none, some n)) ++ addCalls t.vlistUpdate adds ++ t.calls := by
  have hup : Inv t.vlistUpdate := ⟨h.sorted, h.pinned, h.plain⟩
  have hadds := hup.addAll hok
  have hflush := hadds.inv.vlistFlush
  refine ⟨(dropped (addAll t.vlistUpdate adds)).reverse, ?_, ?_, ?_⟩
  · rw [List.nodup_reverse]
    exact hadds.inv.sorted.nodup.filter _
  · intro m
    have hmem : m ∈ (cycle t adds).avl ↔
        m ∈ (addAll t.vlistUpdate adds).avl ∧ (addAll t.vlistUpdate adds).stays m = true := by
      unfold cycle
      rw [hflush]
      exact List.mem_filter
    rw [hmem, List.mem_reverse, dropped, List.mem_filter, Bool.not_eq_true', ← Bool.not_eq_true]
    tauto
  · unfold cycle
    rw [hflush, List.append_assoc]
    exact congrArg (List.append _) hadds.calls

/-- **An update cycle** does what it is for exactly if the versions tell the nodes apart. -/
theorem cycleRight_iff (h : Inv t) {adds : Adds K}
    (hok : Run.Admits Vlist.step Allowed t.vlistUpdate (adds.map fun a => .add a.1 a.2)) :
    CycleRight t adds ↔ Distinct t adds ∨ Nothing t adds := by
  have hup : Inv t.vlistUpdate := ⟨h.sorted, h.pinned, h.plain⟩
  have hadds := hup.addAll hok
  constructor
  · intro hright
    by_cases hver : t.vlistUpdate.version = -1
    · -- nothing stays
      have hnone : ∀ m, m ∉ (cycle t adds).avl := fun m hm => ((cycle_mem h hok m).1 hm).1 hver
      have hnil : adds = [] := by
        by_contra hne
        obtain ⟨m, hm⟩ := lastAdded_last hne
        exact hnone m ((hright.holds m).2 (Or.inl hm))
      refine Or.inr ⟨hver, hnil, ?_⟩
      intro m hm
      rw [← Bool.not_eq_true]
      intro hpin
      refine hnone m ((hright.holds m).2 (Or.inr ⟨hm, ?_, hpin⟩))
      rw [hnil]
      exact nofun
    · refine Or.inl ⟨hver, ?_⟩
      intro m hm hunt
      -- a node that stays is one that the user pinned
      have hpin : (t.node m).version = t.vlistUpdate.version ∨ (t.node m).version = -1 →
          t.pinned m = true := by
        intro hv
        have hstays := (cycle_mem h hok m).2 ⟨hver, Or.inr ⟨hm, hunt, hv⟩⟩
        rcases (hright.holds m).1 hstays with hlast | ⟨-, -, hpin⟩
        · exact absurd hlast (hadds.disjoint m hm hunt)
        · exact hpin
      refine ⟨?_, fun hv => hpin (Or.inr hv)⟩
      intro hv
      have hneg := h.pinned m (hpin (Or.inl hv))
      exact hver (hv.symm.trans hneg)
  · intro hcond
    refine ⟨?_, cycle_calls h hok⟩
    intro m
    rw [cycle_mem h hok]
    rcases hcond with ⟨hver, hdist⟩ | ⟨hver, rfl, hpin⟩
    · constructor
      · rintro ⟨-, hlast | ⟨hm, hunt, hv⟩⟩
        · exact Or.inl hlast
        · obtain ⟨hne, hpin⟩ := hdist m hm hunt
          exact Or.inr ⟨hm, hunt, hpin (hv.resolve_left hne)⟩
      · rintro (hlast | ⟨hm, hunt, hpin⟩)
        · exact ⟨hver, Or.inl hlast⟩
        · exact ⟨hver, Or.inr ⟨hm, hunt, Or.inr (h.pinned m hpin)⟩⟩
    · constructor
      · rintro ⟨hne, -⟩
        exact absurd hver hne
      · rintro (⟨before, key, after, heq, -⟩ | ⟨hm, -, hp⟩)
        · simp at heq
        · rw [hpin m hm] at hp
          cases hp

/-- **After every history**, a cycle is right exactly if the versions tell the nodes apart. -/
theorem cycle_after_history_iff (cmp : Comparator K) (node : NodeId → Node K) (ops : List (Op K))
    (adds : Adds K) (hops : Run.Admits Vlist.step Allowed (init cmp node) ops)
    (hadds : Run.Admits Vlist.step Allowed
      (Run.run Vlist.step (init cmp node) ops).vlistUpdate (adds.map fun a => .add a.1 a.2)) :
    CycleRight (Run.run Vlist.step (init cmp node) ops) adds ↔
      Distinct (Run.run Vlist.step (init cmp node) ops) adds ∨
        Nothing (Run.run Vlist.step (init cmp node) ops) adds :=
  cycleRight_iff (inv_run cmp node hops) hadds

theorem sub_swap (a b : ℤ) : a - b < 0 ↔ 0 < b - a := by omega

theorem sub_le_trans (a b c : ℤ) (hab : a - b ≤ 0) (hbc : b - c ≤ 0) : a - c ≤ 0 := by omega

/-- Integers as keys. -/
def intCmp : Comparator ℤ where
  comp a b := a - b
  swap := sub_swap
  trans := sub_le_trans

theorem cycle_after_history_one :
    CycleRight (Run.run Vlist.step (init intCmp fun _ => ⟨0, 0⟩) [.add 0 5]) [(1, 5)] ↔
      Distinct (Run.run Vlist.step (init intCmp fun _ => ⟨0, 0⟩) [.add 0 5]) [(1, 5)] ∨
        Nothing (Run.run Vlist.step (init intCmp fun _ => ⟨0, 0⟩) [.add 0 5]) [(1, 5)] :=
  cycle_after_history_iff intCmp (fun _ => ⟨0, 0⟩) [.add 0 5] [(1, 5)]
    ⟨fun h => absurd h List.not_mem_nil, trivial⟩ ⟨fun h => absurd h (by decide), trivial⟩

/-- A node that is added between `vlist_flush_all` and `vlist_update` survives the cycle. -/
theorem cycle_keeps_stale :
    ¬ ∀ (ops : List (Op ℤ)) (adds : Adds ℤ),
      Run.Admits Vlist.step Allowed (init intCmp fun _ => ⟨0, 0⟩) ops →
      Run.Admits Vlist.step Allowed
        (Run.run Vlist.step (init intCmp fun _ => ⟨0, 0⟩) ops).vlistUpdate
        (adds.map fun a => .add a.1 a.2) →
      CycleRight (Run.run Vlist.step (init intCmp fun _ => ⟨0, 0⟩) ops) adds := by
  intro h
  have hright := h [.flushAll, .add 0 5] []
    ⟨trivial, fun h => absurd h List.not_mem_nil, trivial⟩ trivial
  have hstays : 0 ∈ (cycle (Run.run Vlist.step (init intCmp fun _ => ⟨0, 0⟩)
      [.flushAll, .add 0 5]) []).avl := by decide
  rcases (hright.holds 0).1 hstays with ⟨before, key, after, heq, -⟩ | ⟨-, -, hpin⟩
  · simp at heq
  · exact absurd hpin (by decide)

end

end Vlist
