/-
  The hash table (`hashtable.c`). All pairs are on one circular list, on which the pairs of a bucket
  stand next to each other; the bucket has the first and the last of them. A second circular list
  has the pairs in the order of their insertion.

  A pair is named by its address. What reads a pair that is not allocated has no result.
-/
import IotLib.Lib.Ring
import IotLib.Lib.Segments
import IotLib.Jansson.Graph

namespace Jansson

/-! ## The table -/

/-- `list_t *`: the list of the table, or the one of a pair. -/
inductive ListPtr where
  | table
  | pair (p : ℕ)
deriving DecidableEq

/-- `pair_t`, less its links -/
structure Pair (V : Type) where
  hash : ℕ
  key : Bytes
  value : V

/-- `bucket_t` -/
structure Bucket where
  first : ListPtr
  last : ListPtr

/-- `hashtable_t`, with the pairs that are allocated -/
structure Hashtable (V : Type) where
  size : ℕ
  buckets : List Bucket
  order : ℕ
  list : Ring.Links ListPtr
  orderedList : Ring.Links ListPtr
  pairs : ℕ → Option (Pair V)

def hashsize (n : ℕ) : ℕ := 2 ^ n

def hashmask (n : ℕ) : ℕ := hashsize n - 1

/-- `INITIAL_HASHTABLE_ORDER` -/
def initialHashtableOrder : ℕ := 3

/-- `sizeof(bucket_t)` -/
def sizeofBucket : ℕ := 16

/-- `offsetof(pair_t, key)` -/
def offsetofKey : ℕ := 56

/-- `list_init` -/
def listInit (m : Ring.Links ListPtr) (list : ListPtr) : Ring.Links ListPtr where
  next := Function.update m.next list (some list)
  prev := Function.update m.prev list (some list)

/-- `list_insert`: the node comes before the list. -/
def listInsert (m : Ring.Links ListPtr) (list node : ListPtr) : Option (Ring.Links ListPtr) := do
  let prev ← m.prev list
  return {
    next := Function.update (Function.update m.next node (some list)) prev (some node)
    prev := Function.update (Function.update m.prev node (some prev)) list (some node) }

/-- `list_remove` -/
def listRemove (m : Ring.Links ListPtr) (list : ListPtr) : Option (Ring.Links ListPtr) := do
  let next ← m.next list
  let prev ← m.prev list
  return {
    next := Function.update m.next prev (some next)
    prev := Function.update m.prev next (some prev) }

/-- The links of a freed node -/
def listFree (m : Ring.Links ListPtr) (list : ListPtr) : Ring.Links ListPtr where
  next := Function.update m.next list none
  prev := Function.update m.prev list none

def emptyBucket : Bucket := ⟨.table, .table⟩

/-- `bucket_is_empty` -/
def bucketIsEmpty (bucket : Bucket) : Bool := bucket.first = .table ∧ bucket.first = bucket.last

section
variable {V : Type}

/-- `insert_to_bucket` -/
def insertToBucket (t : Hashtable V) (index : ℕ) (list : ListPtr) : Option (Hashtable V) := do
  let bucket ← t.buckets[index]?
  if bucketIsEmpty bucket then
    let links ← listInsert t.list .table list
    return { t with list := links, buckets := t.buckets.set index ⟨list, list⟩ }
  else
    let links ← listInsert t.list bucket.first list
    return { t with list := links, buckets := t.buckets.set index { bucket with first := list } }

/-- The loop of `hashtable_find_pair`, for a number of rounds -/
def findPairFrom (t : Hashtable V) (bucket : Bucket) (key : Bytes) (hash : ℕ) :
    ℕ → ListPtr → Option (Option ℕ)
  | 0, _ => none
  | _ + 1, .table => none
  | n + 1, .pair p => do
    let pair ← t.pairs p
    if pair.hash = hash ∧ pair.key = key then
      return some p
    if ListPtr.pair p = bucket.last then
      return none
    let next ← t.list.next (.pair p)
    findPairFrom t bucket key hash n next

/-- `hashtable_find_pair` -/
def hashtableFindPair (t : Hashtable V) (index : ℕ) (key : Bytes) (hash : ℕ) :
    Option (Option ℕ) := do
  let bucket ← t.buckets[index]?
  if bucketIsEmpty bucket then
    return none
  findPairFrom t bucket key hash t.size bucket.first

/-- `jsonp_free` of a pair -/
def Hashtable.free (t : Hashtable V) (p : ℕ) : Hashtable V :=
  { t with
    list := listFree t.list (.pair p)
    orderedList := listFree t.orderedList (.pair p)
    pairs := Function.update t.pairs p none }

/-- What `hashtable_do_del` makes of the bucket of a pair -/
def bucketWithout (list : Ring.Links ListPtr) (bucket : Bucket) (p : ListPtr) : Option Bucket :=
  if p = bucket.first ∧ p = bucket.last then some emptyBucket
  else if p = bucket.first then (list.next p).map fun next => { bucket with first := next }
  else if p = bucket.last then (list.prev p).map fun prev => { bucket with last := prev }
  else some bucket

/-- `hashtable_do_del`, `true` for 0 -/
def hashtableDoDel (t : Hashtable V) (key : Bytes) (hash : ℕ) :
    Option (Bool × Hashtable V) := do
  let index := hash &&& hashmask t.order
  match ← hashtableFindPair t index key hash with
  | none => return (false, t)
  | some p =>
    let bucket ← t.buckets[index]?
    let bucket ← bucketWithout t.list bucket (.pair p)
    let list ← listRemove t.list (.pair p)
    let orderedList ← listRemove t.orderedList (.pair p)
    let _ ← t.pairs p
    let t := { t with buckets := t.buckets.set index bucket, list, orderedList }
    return (true, { t.free p with size := t.size - 1 })

/-- The loop of `hashtable_do_clear`, for a number of rounds -/
def clearFrom : ℕ → Hashtable V → ListPtr → Option (Hashtable V)
  | 0, _, _ => none
  | _ + 1, t, .table => some t
  | n + 1, t, .pair p => do
    let next ← t.list.next (.pair p)
    let _ ← t.pairs p
    clearFrom n (t.free p) next

/-- `hashtable_do_clear` -/
def hashtableDoClear (t : Hashtable V) : Option (Hashtable V) := do
  let list ← t.list.next .table
  clearFrom (t.size + 1) t list

/-- The loop of `hashtable_do_rehash`, for a number of rounds -/
def rehashFrom (newSize : ℕ) : ℕ → Hashtable V → ListPtr → Option (Hashtable V)
  | 0, _, _ => none
  | _ + 1, t, .table => some t
  | n + 1, t, .pair p => do
    let next ← t.list.next (.pair p)
    let pair ← t.pairs p
    let t ← insertToBucket t (pair.hash % newSize) (.pair p)
    rehashFrom newSize n t next

/-- `hashtable_do_rehash`, `true` for 0. `jsonp_malloc` gives nothing when it is asked for no bytes,
    which is what the size of the new buckets wraps around to in the end. -/
def hashtableDoRehash (t : Hashtable V) (malloc : Bool) : Option (Bool × Hashtable V) := do
  let newOrder := t.order + 1
  let newSize := hashsize newOrder
  if malloc = false ∨ newSize * sizeofBucket % 2 ^ 64 = 0 then
    return (false, t)
  let t := { t with buckets := List.replicate newSize emptyBucket, order := newOrder }
  let list ← t.list.next .table
  let t ← rehashFrom newSize (t.size + 1) { t with list := listInit t.list .table } list
  return (true, t)

/-- A table without pairs -/
def hashtableInit : Hashtable V where
  size := 0
  buckets := List.replicate (hashsize initialHashtableOrder) emptyBucket
  order := initialHashtableOrder
  list := listInit ⟨fun _ => none, fun _ => none⟩ .table
  orderedList := listInit ⟨fun _ => none, fun _ => none⟩ .table
  pairs := fun _ => none

/-- `init_pair` where there is memory -/
def Hashtable.init (t : Hashtable V) (p : ℕ) (pair : Pair V) : Hashtable V :=
  { t with
    list := listInit t.list (.pair p)
    orderedList := listInit t.orderedList (.pair p)
    pairs := Function.update t.pairs p (some pair) }

/-- `init_pair`, at the address that `jsonp_malloc` gives -/
def initPair (t : Hashtable V) (value : V) (key : Bytes) (hash : ℕ) (malloc : Option ℕ) :
    Option (ℕ × Hashtable V) :=
  if 2 ^ 64 - 1 - offsetofKey ≤ key.length then none
  else malloc.map fun p => (p, t.init p ⟨hash, key, value⟩)

/-- The part of `hashtable_set` behind the rehashing -/
def hashtableStore (t : Hashtable V) (key : Bytes) (hash : ℕ) (value : V) (malloc : Option ℕ) :
    Option (Bool × Hashtable V) := do
  let index := hash &&& hashmask t.order
  match ← hashtableFindPair t index key hash with
  | some p =>
    let pair ← t.pairs p
    return (true, { t with pairs := Function.update t.pairs p (some { pair with value }) })
  | none =>
    match initPair t value key hash malloc with
    | none => return (false, t)
    | some (p, t) =>
      let t ← insertToBucket t index (.pair p)
      let orderedList ← listInsert t.orderedList .table (.pair p)
      return (true, { t with orderedList, size := t.size + 1 })

/-- What the two calls of `jsonp_malloc` in `hashtable_set` give: whether there are new buckets,
    and the address of the pair. -/
structure Alloc where
  buckets : Bool
  pair : Option ℕ

variable (hash : Bytes → ℕ)

/-- `hashtable_set`, `true` for 0 -/
def hashtableSet (t : Hashtable V) (key : Bytes) (value : V) (alloc : Alloc) :
    Option (Bool × Hashtable V) := do
  if hashsize t.order ≤ t.size then
    let (done, t) ← hashtableDoRehash t alloc.buckets
    if done then hashtableStore t key (hash key) value alloc.pair else return (false, t)
  else
    hashtableStore t key (hash key) value alloc.pair

/-- `hashtable_get` -/
def hashtableGet (t : Hashtable V) (key : Bytes) : Option (Option V) := do
  match ← hashtableFindPair t (hash key &&& hashmask t.order) key (hash key) with
  | none => return none
  | some p =>
    let pair ← t.pairs p
    return some pair.value

/-- `hashtable_del`, `true` for 0 -/
def hashtableDel (t : Hashtable V) (key : Bytes) : Option (Bool × Hashtable V) :=
  hashtableDoDel t key (hash key)

/-- `hashtable_clear` -/
def hashtableClear (t : Hashtable V) : Option (Hashtable V) := do
  let t ← hashtableDoClear t
  return { t with
    buckets := List.replicate (hashsize t.order) emptyBucket
    list := listInit t.list .table
    orderedList := listInit t.orderedList .table
    size := 0 }

/-- `hashtable_iter_next`; `.table` is `&hashtable->ordered_list`. -/
def hashtableIterNext (t : Hashtable V) (iter : ListPtr) : Option (Option ListPtr) := do
  let next ← t.orderedList.next iter
  return if next = .table then none else some next

/-- `hashtable_iter` -/
def hashtableIter (t : Hashtable V) : Option (Option ListPtr) := hashtableIterNext t .table

/-- `ordered_list_to_pair` -/
def orderedListToPair (t : Hashtable V) : ListPtr → Option (Pair V)
  | .table => none
  | .pair p => t.pairs p

/-- `hashtable_iter_key`, with `hashtable_iter_key_len` -/
def hashtableIterKey (t : Hashtable V) (iter : ListPtr) : Option Bytes :=
  (orderedListToPair t iter).map Pair.key

/-- `hashtable_iter_value` -/
def hashtableIterValue (t : Hashtable V) (iter : ListPtr) : Option V :=
  (orderedListToPair t iter).map Pair.value

/-- An iteration, for a number of rounds -/
def iterateFrom (t : Hashtable V) : ℕ → Option ListPtr → Option (List (Bytes × V))
  | 0, _ => none
  | _ + 1, none => some []
  | n + 1, some iter => do
    let key ← hashtableIterKey t iter
    let value ← hashtableIterValue t iter
    let next ← hashtableIterNext t iter
    let entries ← iterateFrom t n next
    return (key, value) :: entries

/-- All keys and values, as iterating the table gives them -/
def hashtableIterate (t : Hashtable V) : Option (List (Bytes × V)) := do
  let iter ← hashtableIter t
  iterateFrom t (t.size + 1) iter

end

theorem Hashtable.init_pairs_self {V : Type} (t : Hashtable V) (p : ℕ) (pair : Pair V) :
    (t.init p pair).pairs p = some pair := Function.update_self p _ t.pairs

theorem Hashtable.init_pairs_of_ne {V : Type} (t : Hashtable V) {p q : ℕ} (pair : Pair V)
    (hne : q ≠ p) : (t.init p pair).pairs q = t.pairs q := Function.update_of_ne hne _ _

/-! ## The lists -/

section
variable {m m' : Ring.Links ListPtr} {list node : ListPtr}

theorem listInsert_eq {prev : ListPtr} (hprev : m.prev list = some prev) (hne : node ≠ list) :
    listInsert m list node = some (m.insert node prev list) := by
  rw [listInsert, hprev, Ring.Links.insert, ← Function.update_comm hne]
  rfl

/-- A node is taken out and freed. -/
theorem listRemove_free (h : m.remove node = some m') :
    ∃ m₁, listRemove m node = some m₁ ∧ listFree m₁ node = m' := by
  rw [Ring.Links.remove] at h
  split at h
  · rename_i next prev hnext hprev
    refine ⟨⟨Function.update m.next prev (some next), Function.update m.prev next (some prev)⟩,
      ?_, Option.some.inj h⟩
    rw [listRemove, hnext, hprev]
    rfl
  · cases h

/-- The head of a list that is initialised stands alone. -/
theorem listInit_around (m : Ring.Links ListPtr) (list : ListPtr) :
    Ring.Around (listInit m list) list [] :=
  .empty (Function.update_self list _ m.next) (Function.update_self list _ m.prev)

theorem listInit_next {y : ListPtr} (m : Ring.Links ListPtr) (hne : y ≠ list) :
    (listInit m list).next y = m.next y := Function.update_of_ne hne _ _

/-- A new node may have links already. -/
theorem listInit_around_of_notMem {l : List ListPtr} {head : ListPtr} (h : Ring.Around m head l)
    (hnode : node ∉ head :: l) : Ring.Around (listInit m node) head l := by
  refine ⟨h.path.congr (fun y hy => ?_) (fun y hy => ?_), h.nodup⟩
  · have hne : y ≠ node := fun heq => hnode (heq ▸ hy)
    exact Function.update_of_ne hne _ _
  · have hmem : y ∈ head :: l := by
      rcases List.mem_append.1 hy with hy | hy
      · exact List.mem_cons_of_mem head hy
      · exact List.mem_singleton.1 hy ▸ List.mem_cons_self
    have hne : y ≠ node := fun heq => hnode (heq ▸ hmem)
    exact Function.update_of_ne hne _ _

end

/-! ## Segments -/

section
variable {V : Type}

/-- The nodes of pairs -/
abbrev nodes (l : List ℕ) : List ListPtr := l.map .pair

theorem mem_nodes {p : ℕ} {l : List ℕ} : ListPtr.pair p ∈ ListPtr.table :: nodes l ↔ p ∈ l := by
  simp [nodes]

/-- The bucket of a segment -/
def ends (l : List ℕ) : Bucket :=
  ⟨Ring.firstOf (nodes l) .table, Ring.lastOf .table (nodes l)⟩

theorem bucketIsEmpty_ends (l : List ℕ) : bucketIsEmpty (ends l) = l.isEmpty := by
  cases l with
  | nil => rfl
  | cons x l => simp [bucketIsEmpty, ends, Ring.firstOf]

/-- The list is cut into segments, those named in `idx`, and each bucket has the ends of its own. -/
structure Segmented (list : Ring.Links ListPtr) (buckets : List Bucket) (idx : List ℕ)
    (seg : ℕ → List ℕ) : Prop where
  ring : Ring.Around list .table (nodes (Segments.flat idx seg))
  nodup : idx.Nodup
  absent : ∀ i, i ∉ idx → seg i = []
  ends : ∀ i < buckets.length, buckets[i]? = some (ends (seg i))

section
variable {list : Ring.Links ListPtr} {buckets : List Bucket} {idx : List ℕ} {seg : ℕ → List ℕ}
  {i p : ℕ}

theorem Segmented.listed (h : Segmented list buckets idx seg) (hp : p ∈ seg i) : i ∈ idx := by
  by_contra hi
  rw [h.absent i hi] at hp
  cases hp

theorem Segmented.mem_flat (h : Segmented list buckets idx seg) (hp : p ∈ seg i) :
    p ∈ Segments.flat idx seg := Segments.mem_flat.2 ⟨i, h.listed hp, hp⟩

theorem Segmented.nodup_flat (h : Segmented list buckets idx seg) :
    (Segments.flat idx seg).Nodup :=
  List.Nodup.of_map _ (List.nodup_cons.1 h.ring.nodup).2

/-- A segment in its place. -/
theorem Segmented.exists_around (h : Segmented list buckets idx seg) (hp : p ∈ seg i) :
    ∃ before behind, Segments.flat idx seg = before ++ (seg i ++ behind) ∧
      ∀ l, Segments.flat idx (Function.update seg i l) = before ++ (l ++ behind) := by
  obtain ⟨before, behind, heq⟩ := Segments.exists_around (h.listed hp) h.nodup seg
  have hself := heq (seg i)
  rw [Function.update_eq_self] at hself
  exact ⟨before, behind, hself, heq⟩

/-- Another segment for one bucket -/
theorem ends_set {l : List ℕ} (hi : i < buckets.length)
    (h : ∀ j < buckets.length, buckets[j]? = some (Jansson.ends (seg j))) :
    ∀ j < (buckets.set i (Jansson.ends l)).length,
      (buckets.set i (Jansson.ends l))[j]? = some (Jansson.ends (Function.update seg i l j)) := by
  intro j hj
  rw [List.length_set] at hj
  by_cases hji : j = i
  · rw [hji, Function.update_self, List.getElem?_set_self hi]
  · rw [Function.update_of_ne hji, List.getElem?_set_ne (Ne.symm hji), h j hj]

/-- A new pair comes first in its segment. -/
theorem Segmented.insert {t : Hashtable V} (h : Segmented t.list t.buckets idx seg)
    (hi : i < t.buckets.length) (hp : p ∉ Segments.flat idx seg) :
    ∃ list buckets idx', insertToBucket t i (.pair p) = some { t with list, buckets } ∧
      buckets.length = t.buckets.length ∧
      (∀ y, y ∉ ListPtr.table :: nodes (p :: Segments.flat idx seg) →
        list.next y = t.list.next y) ∧
      Segmented list buckets idx' (Function.update seg i (p :: seg i)) ∧
      (Segments.flat idx' (Function.update seg i (p :: seg i))).Perm
        (p :: Segments.flat idx seg) := by
  have hpring : ListPtr.pair p ∉ ListPtr.table :: nodes (Segments.flat idx seg) :=
    fun hmem => hp (mem_nodes.1 hmem)
  have hframe : ∀ {prev next y : ListPtr}, prev ∈ ListPtr.table :: nodes (Segments.flat idx seg) →
      y ∉ ListPtr.table :: nodes (p :: Segments.flat idx seg) →
      (t.list.insert (.pair p) prev next).next y = t.list.next y := by
    intro prev next y hprev hy
    rw [nodes, List.map_cons] at hy
    refine Ring.Links.insert_next ?_ ?_
    · rintro rfl
      exact hy (by simp)
    · rintro rfl
      refine hy ?_
      rcases List.mem_cons.1 hprev with rfl | hmem
      · exact List.mem_cons_self
      · exact List.mem_cons_of_mem _ (List.mem_cons_of_mem _ hmem)
  rw [insertToBucket, h.ends i hi, Option.bind_eq_bind, Option.bind_some, bucketIsEmpty_ends]
  cases hseg : seg i with
  | nil =>
    obtain ⟨prev, hprev, hring⟩ := h.ring.insert_last hpring
    have hnot : i ∉ idx.erase i := h.nodup.not_mem_erase
    have hflat : Segments.flat (idx.erase i ++ [i]) (Function.update seg i [p]) =
        Segments.flat idx seg ++ [p] := by
      rw [Segments.flat_concat hnot, Segments.flat_erase hseg]
    refine ⟨t.list.insert (.pair p) prev .table, t.buckets.set i (Jansson.ends [p]),
      idx.erase i ++ [i], ?_, List.length_set,
      fun y => hframe (h.ring.prev_mem List.mem_cons_self hprev), ⟨?_, ?_, ?_, ?_⟩, ?_⟩
    · rw [List.isEmpty_nil, if_pos rfl, listInsert_eq hprev (by simp)]
      rfl
    · rw [hflat, nodes, List.map_append]
      exact hring
    · rw [← List.concat_eq_append]
      exact (h.nodup.erase i).concat hnot
    · intro j hj
      rw [List.mem_append, List.mem_singleton, not_or] at hj
      rw [Function.update_of_ne hj.2]
      exact h.absent j fun hmem => hj.1 ((List.mem_erase_of_ne hj.2).2 hmem)
    · exact ends_set hi h.ends
    · rw [hflat]
      exact List.perm_append_singleton p _
  | cons x l =>
    have hx : x ∈ seg i := hseg ▸ List.mem_cons_self
    obtain ⟨before, behind, hself, heq⟩ := h.exists_around hx
    rw [hseg] at hself
    have hnodes : nodes (Segments.flat idx seg) =
        nodes before ++ ListPtr.pair x :: nodes (l ++ behind) := by
      rw [hself, nodes, List.map_append, List.cons_append, List.map_cons]
    have hbefore := h.ring
    rw [hnodes] at hbefore
    obtain ⟨prev, hprev, hring⟩ := hbefore.insert_before (hnodes ▸ hpring)
    have hmem : ListPtr.pair x ∈ ListPtr.table :: nodes (Segments.flat idx seg) :=
      mem_nodes.2 (h.mem_flat hx)
    refine ⟨t.list.insert (.pair p) prev (.pair x), t.buckets.set i (Jansson.ends (p :: x :: l)),
      idx, ?_, List.length_set,
      fun y => hframe (h.ring.prev_mem hmem hprev), ⟨?_, h.nodup, ?_, ?_⟩, ?_⟩
    · rw [List.isEmpty_cons, if_neg (by simp)]
      show (listInsert t.list (.pair x) (.pair p)).bind _ = _
      rw [listInsert_eq hprev]
      · rfl
      · intro hpx
        exact hpring (hpx ▸ hmem)
    · rw [heq, nodes, List.map_append, List.cons_append, List.map_cons, List.cons_append,
        List.map_cons]
      exact hring
    · intro j hj
      have hji : j ≠ i := fun hji => hj (hji ▸ h.listed hx)
      rw [Function.update_of_ne hji]
      exact h.absent j hj
    · exact ends_set hi h.ends
    · rw [heq, hself, List.cons_append]
      exact List.perm_middle

/-- The bucket of a segment that loses a pair -/
theorem bucketWithout_ends {pre post before behind : List ℕ}
    (h : Ring.Around list .table (nodes (before ++ ((pre ++ p :: post) ++ behind)))) :
    bucketWithout list (Jansson.ends (pre ++ p :: post)) (.pair p) =
      some (Jansson.ends (pre ++ post)) := by
  have hnodup : (pre ++ p :: post).Nodup := by
    have hall := List.Nodup.of_map _ (List.nodup_cons.1 h.nodup).2
    exact (List.nodup_append.1 (List.nodup_append.1 hall).2.1).1
  have hpath := h.path
  rw [List.append_assoc, List.cons_append, ← List.append_assoc, nodes, List.map_append,
    List.map_cons] at hpath
  obtain ⟨hto, hfrom⟩ := Ring.Path.append.1 hpath
  have hlast : (Jansson.ends (pre ++ p :: post)).last = Ring.lastOf (.pair p) (nodes post) := by
    rw [Jansson.ends, nodes, List.map_append, List.map_cons, Ring.lastOf_append]
  have hpre : ∀ x l, pre = x :: l → ListPtr.pair p ≠ .pair x := by
    rintro x l rfl heq
    rw [ListPtr.pair.injEq] at heq
    subst heq
    exact (List.nodup_cons.1 hnodup).1 (List.mem_append_right l List.mem_cons_self)
  have hpost : ∀ y l, post = y :: l →
      ListPtr.pair p ≠ (Jansson.ends (pre ++ p :: y :: l)).last := by
    rintro y l rfl heq
    have hmem : ListPtr.pair p ∈ nodes (y :: l) := by
      rw [heq, hlast]
      exact Ring.lastOf_mem (ListPtr.pair y) (nodes l)
    rw [nodes, List.mem_map] at hmem
    obtain ⟨q, hq, heq⟩ := hmem
    rw [ListPtr.pair.injEq] at heq
    exact (List.nodup_cons.1 (List.nodup_append.1 hnodup).2.1).1 (heq ▸ hq)
  rw [bucketWithout]
  cases pre with
  | nil =>
    cases post with
    | nil => rw [if_pos ⟨rfl, rfl⟩]; rfl
    | cons y post =>
      have hfirst : (Jansson.ends ([] ++ p :: y :: post)).first = .pair p := rfl
      rw [if_neg fun hand => hpost y post rfl hand.2, if_pos hfirst.symm, hfrom.next_eq]
      rfl
  | cons x pre =>
    have hne : ListPtr.pair p ≠ (Jansson.ends (x :: pre ++ p :: post)).first := hpre x pre rfl
    rw [if_neg fun hand => hne hand.1, if_neg hne]
    cases post with
    | nil =>
      have heq : ListPtr.pair p = (Jansson.ends (x :: pre ++ [p])).last := hlast.symm
      rw [if_pos heq, hto.prev_eq, List.map_append, List.map_cons, Ring.lastOf_append,
        List.append_nil]
      rfl
    | cons y post =>
      rw [if_neg (hpost y post rfl)]
      have hsame : (Jansson.ends (x :: pre ++ p :: y :: post)).last =
          (Jansson.ends (x :: pre ++ y :: post)).last := by
        rw [hlast, Jansson.ends, nodes, nodes, List.map_append, List.map_cons, List.map_cons,
          Ring.lastOf_append]
        rfl
      rw [show Jansson.ends (x :: pre ++ p :: y :: post) =
        ⟨.pair x, (Jansson.ends (x :: pre ++ p :: y :: post)).last⟩ from rfl, hsame]
      rfl

/-- A pair leaves its segment. -/
theorem Segmented.remove (h : Segmented list buckets idx seg) (hi : i < buckets.length)
    {pre post : List ℕ} (hseg : seg i = pre ++ p :: post) :
    ∃ list', bucketWithout list (Jansson.ends (seg i)) (.pair p) =
        some (Jansson.ends (pre ++ post)) ∧ listRemove list (.pair p) = some list' ∧
      Segmented (listFree list' (.pair p)) (buckets.set i (Jansson.ends (pre ++ post))) idx
        (Function.update seg i (pre ++ post)) ∧
      (Segments.flat idx seg).Perm
        (p :: Segments.flat idx (Function.update seg i (pre ++ post))) := by
  have hp : p ∈ seg i := hseg ▸ List.mem_append_right pre List.mem_cons_self
  obtain ⟨before, behind, hself, heq⟩ := h.exists_around hp
  have hring := h.ring
  rw [hself, hseg] at hring
  have hbucket := bucketWithout_ends hring
  rw [List.append_assoc, List.cons_append, ← List.append_assoc, nodes, List.map_append,
    List.map_cons] at hring
  obtain ⟨-, m', hremove, hring'⟩ := hring.remove
  obtain ⟨list', hlist', hfree⟩ := listRemove_free hremove
  refine ⟨list', hseg ▸ hbucket, hlist', ⟨?_, h.nodup, ?_, ends_set hi h.ends⟩, ?_⟩
  · rw [hfree, heq, List.append_assoc, ← List.append_assoc, nodes, List.map_append]
    exact hring'
  · intro j hj
    have hji : j ≠ i := fun hji => hj (hji ▸ h.listed hp)
    rw [Function.update_of_ne hji]
    exact h.absent j hj
  · rw [hself, heq, hseg, List.append_assoc, List.append_assoc, List.cons_append,
      ← List.append_assoc, ← List.append_assoc]
    exact List.perm_middle

end

/-! ## Finding a pair -/

/-- The pair has the key. -/
def Hashtable.Matches (t : Hashtable V) (key : Bytes) (hash p : ℕ) : Prop :=
  ∃ pair, t.pairs p = some pair ∧ pair.hash = hash ∧ pair.key = key

/-- The loop finds the first pair of the segment that has the key. -/
theorem findPairFrom_finds {t : Hashtable V} {bucket : Bucket} {key : Bytes} {hash : ℕ}
    {behind : List ListPtr} {b : ListPtr} : ∀ {post : List ℕ} {p n : ℕ},
    Ring.Path t.list (.pair p) (nodes post ++ behind) b →
    bucket.last = Ring.lastOf (.pair p) (nodes post) → (p :: post).Nodup →
    (∀ q ∈ p :: post, (t.pairs q).isSome) → post.length < n →
    ∃ found, findPairFrom t bucket key hash n (.pair p) = some found ∧
      (∀ q, found = some q → q ∈ p :: post ∧ t.Matches key hash q) ∧
      (found = none → ∀ q ∈ p :: post, ¬t.Matches key hash q)
  | post, p, n + 1, hpath, hlast, hnodup, hlive, hn => by
    obtain ⟨pair, hpair⟩ := Option.isSome_iff_exists.1 (hlive p List.mem_cons_self)
    rw [findPairFrom, hpair, Option.bind_eq_bind, Option.bind_some]
    by_cases hmatch : pair.hash = hash ∧ pair.key = key
    · refine ⟨some p, by rw [if_pos hmatch]; rfl, ?_, nofun⟩
      rintro q ⟨⟩
      exact ⟨List.mem_cons_self, pair, hpair, hmatch⟩
    have hno : ¬t.Matches key hash p := by
      rintro ⟨pair', hpair', hmatch'⟩
      rw [hpair] at hpair'
      exact hmatch (Option.some.inj hpair' ▸ hmatch')
    rw [if_neg hmatch]
    cases post with
    | nil =>
      have heq : ListPtr.pair p = bucket.last := hlast.symm
      refine ⟨none, ?_, nofun, fun _ q hq => ?_⟩
      · rw [if_pos heq]
        rfl
      · rw [List.mem_singleton.1 hq]
        exact hno
    | cons y post =>
      have hne : ListPtr.pair p ≠ bucket.last := by
        intro heq
        have hmem : ListPtr.pair p ∈ nodes (y :: post) := by
          rw [heq, hlast]
          exact Ring.lastOf_mem (ListPtr.pair y) (nodes post)
        obtain ⟨q, hq, heq⟩ := List.mem_map.1 hmem
        rw [ListPtr.pair.injEq] at heq
        exact (List.nodup_cons.1 hnodup).1 (heq ▸ hq)
      rw [List.length_cons] at hn
      obtain ⟨found, hfound, hsome, hnone⟩ := findPairFrom_finds hpath.2 hlast
        (List.nodup_cons.1 hnodup).2 (fun q hq => hlive q (List.mem_cons_of_mem p hq))
        (Nat.lt_of_succ_lt_succ hn)
      refine ⟨found, ?_, fun q hq => ?_, fun hn q hq => ?_⟩
      · rw [if_neg hne, hpath.next_eq]
        exact hfound
      · exact ⟨List.mem_cons_of_mem p (hsome q hq).1, (hsome q hq).2⟩
      · rcases List.mem_cons.1 hq with rfl | hq
        · exact hno
        · exact hnone hn q hq

/-- `hashtable_find_pair` -/
theorem hashtableFindPair_finds {t : Hashtable V} {idx : List ℕ} {seg : ℕ → List ℕ} {i : ℕ}
    (h : Segmented t.list t.buckets idx seg) (hi : i < t.buckets.length)
    (hlive : ∀ q ∈ seg i, (t.pairs q).isSome) (hsize : (seg i).length ≤ t.size) (key : Bytes)
    (hash : ℕ) :
    ∃ found, hashtableFindPair t i key hash = some found ∧
      (∀ q, found = some q → q ∈ seg i ∧ t.Matches key hash q) ∧
      (found = none → ∀ q ∈ seg i, ¬t.Matches key hash q) := by
  rw [hashtableFindPair, h.ends i hi, Option.bind_eq_bind, Option.bind_some, bucketIsEmpty_ends]
  cases hseg : seg i with
  | nil => exact ⟨none, rfl, nofun, nofun⟩
  | cons p post =>
    have hp : p ∈ seg i := hseg ▸ List.mem_cons_self
    obtain ⟨before, behind, hself, -⟩ := h.exists_around hp
    have hpath := h.ring.path
    have hnodup := h.nodup_flat
    rw [hself, hseg] at hnodup
    rw [hself, hseg, List.cons_append, nodes, List.map_append, List.map_cons,
      List.map_append] at hpath
    rw [List.isEmpty_cons, if_neg (by simp)]
    rw [hseg] at hlive hsize
    refine findPairFrom_finds (Ring.Path.append.1 hpath).2 rfl ?_ hlive hsize
    exact (List.nodup_append.1 (List.nodup_append.1 hnodup).2.1).1

end

end Jansson
