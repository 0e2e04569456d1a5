/-
  Loading a dump gives the value back.

  The order of the members is that of the dump; `json_equal` does not see it.
-/
import IotLib.Jansson.Text

namespace Jansson

section
variable {R : Type}

/-! ## The order of a dump -/

theorem byKeys_keys (ms : List (Bytes × Json R)) :
    (byKeys ms).map Prod.fst = sortKeys (ms.map Prod.fst) := by
  have hkeys : ∀ keys : List Bytes, (∀ key ∈ keys, key ∈ ms.map Prod.fst) →
      (keys.filterMap fun key => (objectGet key ms).map (key, ·)).map Prod.fst = keys := by
    intro keys hkeys
    induction keys with
    | nil => rfl
    | cons key keys ih =>
      obtain ⟨hkey, hkeys⟩ := List.forall_mem_cons.1 hkeys
      obtain ⟨v, hv⟩ := exists_objectGet hkey
      rw [List.filterMap_cons, hv, Option.map_some, List.map_cons, ih hkeys]
  exact hkeys _ fun key hkey => List.mem_mergeSort.1 hkey

theorem byKeys_keys_perm (ms : List (Bytes × Json R)) :
    ((byKeys ms).map Prod.fst).Perm (ms.map Prod.fst) := by
  rw [byKeys_keys]
  exact List.mergeSort_perm _ _

variable {ms : List (Bytes × Json R)}

theorem mem_byKeys {m : Bytes × Json R} (h : m ∈ byKeys ms) :
    m ∈ ms := by
  obtain ⟨key, -, hm⟩ := List.mem_filterMap.1 h
  obtain ⟨v, hv, rfl⟩ := Option.map_eq_some_iff.1 hm
  exact mem_of_objectGet hv

/-- Sorting the members does not change what a key is bound to. -/
theorem objectGet_byKeys (key : Bytes) (ms : List (Bytes × Json R))
    (h : (ms.map Prod.fst).Nodup) : objectGet key (byKeys ms) = objectGet key ms := by
  have hnodup : ((byKeys ms).map Prod.fst).Nodup := (byKeys_keys_perm ms).nodup_iff.2 h
  cases hget : objectGet key (byKeys ms) with
  | none =>
    rw [objectGet_eq_none_iff, (byKeys_keys_perm ms).mem_iff] at hget
    exact (objectGet_eq_none_iff.2 hget).symm
  | some v => exact (objectGet_of_mem h (mem_byKeys (mem_of_objectGet hget))).symm

theorem orderMembers_keys (sort : Bool) (ms : List (Bytes × Json R)) :
    (orderMembers sort ms).map Prod.fst = ms.map Prod.fst := by
  rw [orderMembers_eq, List.map_map]
  rfl

/-- The members of an object in the order of the dump. -/
def sorted (sort : Bool) (ms : List (Bytes × Json R)) : List (Bytes × Json R) :=
  if sort then byKeys (orderMembers sort ms) else orderMembers sort ms

theorem order_object (sort : Bool) (ms : List (Bytes × Json R)) :
    (Json.object ms).order sort = .object (sorted sort ms) := rfl

theorem sorted_keys_perm (sort : Bool) (ms : List (Bytes × Json R)) :
    ((sorted sort ms).map Prod.fst).Perm (ms.map Prod.fst) := by
  unfold sorted
  split_ifs
  · rw [← orderMembers_keys sort ms]
    exact byKeys_keys_perm _
  · rw [orderMembers_keys]

theorem mem_sorted {sort : Bool} {m : Bytes × Json R}
    (h : m ∈ sorted sort ms) : ∃ m' ∈ ms, m = (m'.1, m'.2.order sort) := by
  have hmem : m ∈ orderMembers sort ms := by
    unfold sorted at h
    split_ifs at h
    · exact mem_byKeys h
    · exact h
  rw [orderMembers_eq] at hmem
  obtain ⟨m', hm', rfl⟩ := List.mem_map.1 hmem
  exact ⟨m', hm', rfl⟩

theorem objectGet_sorted (sort : Bool) (key : Bytes)
    (h : (ms.map Prod.fst).Nodup) :
    objectGet key (sorted sort ms) = (objectGet key ms).map (Json.order sort) := by
  have hnodup : ((orderMembers sort ms).map Prod.fst).Nodup := by
    rw [orderMembers_keys]
    exact h
  rw [← objectGet_map (Json.order sort) key ms, ← orderMembers_eq]
  unfold sorted
  split_ifs
  · exact objectGet_byKeys key _ hnodup
  · rfl

/-! ## What the order keeps -/

theorem order_atom (sort : Bool) {v : Json R} (h : ¬v.IsContainer) : v.order sort = v := by
  cases v with
  | object ms => exact absurd trivial h
  | array vs => exact absurd trivial h
  | _ => rfl

theorem order_array (sort : Bool) (vs : List (Json R)) :
    (Json.array vs).order sort = .array (vs.map (Json.order sort)) := by
  rw [Json.order, orderElems_eq]

theorem order_every {A : Json R → Prop} {K : Bytes → Prop} (sort : Bool) {v : Json R}
    (h : v.Every A K) : (v.order sort).Every A K := by
  induction v using Json.induction with
  | hobject ms ih =>
    rw [order_object]
    refine everyMember_iff.2 fun m hm => ?_
    obtain ⟨m', hm', rfl⟩ := mem_sorted hm
    obtain ⟨hkey, hv⟩ := everyMember_iff.1 h m' hm'
    exact ⟨hkey, ih m' hm' hv⟩
  | harray vs ih =>
    rw [order_array]
    refine everyElem_iff.2 fun v hv => ?_
    obtain ⟨v', hv', rfl⟩ := List.mem_map.1 hv
    exact ih v' hv' (everyElem_iff.1 h v' hv')
  | hatom v hv => rwa [order_atom sort hv]

theorem every_of_order {A : Json R → Prop} {K : Bytes → Prop} (sort : Bool) {v : Json R}
    (hdistinct : v.Distinct) (h : (v.order sort).Every A K) : v.Every A K := by
  induction v using Json.induction with
  | hobject ms ih =>
    rw [Json.Distinct] at hdistinct
    rw [order_object] at h
    refine everyMember_iff.2 fun m hm => ?_
    have hget := objectGet_sorted sort m.1 hdistinct.1
    rw [objectGet_of_mem hdistinct.1 hm] at hget
    obtain ⟨hkey, hv⟩ := everyMember_iff.1 h _ (mem_of_objectGet hget)
    exact ⟨hkey, ih m hm (distinctMembers_iff.1 hdistinct.2 m hm) hv⟩
  | harray vs ih =>
    rw [Json.Distinct] at hdistinct
    rw [order_array] at h
    refine everyElem_iff.2 fun v hv => ?_
    exact ih v hv (distinctElems_iff.1 hdistinct v hv)
      (everyElem_iff.1 h _ (List.mem_map_of_mem hv))
  | hatom v hv => rwa [order_atom sort hv] at h

theorem order_distinct (sort : Bool) {v : Json R} (h : v.Distinct) : (v.order sort).Distinct := by
  induction v using Json.induction with
  | hobject ms ih =>
    rw [Json.Distinct] at h
    rw [order_object, Json.Distinct]
    refine ⟨(sorted_keys_perm sort ms).nodup_iff.2 h.1, distinctMembers_iff.2 fun m hm => ?_⟩
    obtain ⟨m', hm', rfl⟩ := mem_sorted hm
    exact ih m' hm' (distinctMembers_iff.1 h.2 m' hm')
  | harray vs ih =>
    rw [Json.Distinct] at h
    rw [order_array, Json.Distinct]
    refine distinctElems_iff.2 fun v hv => ?_
    obtain ⟨v', hv', rfl⟩ := List.mem_map.1 hv
    exact ih v' hv' (distinctElems_iff.1 h v' hv')
  | hatom v hv => rwa [order_atom sort hv]

theorem order_nest_le (sort : Bool) (v : Json R) : (v.order sort).nest ≤ v.nest := by
  induction v using Json.induction with
  | hobject ms ih =>
    refine Nat.succ_le_succ (nestMembers_le_iff.2 fun m hm => ?_)
    obtain ⟨m', hm', rfl⟩ := mem_sorted hm
    exact (ih m' hm').trans (nest_mem_members hm')
  | harray vs ih =>
    rw [order_array]
    refine Nat.succ_le_succ (nestElems_le_iff.2 fun v hv => ?_)
    obtain ⟨v', hv', rfl⟩ := List.mem_map.1 hv
    exact (ih v' hv').trans (nest_mem_elems hv')
  | hatom v hv => rw [order_atom sort hv]

theorem order_false (v : Json R) : v.order false = v := by
  induction v using Json.induction with
  | hobject ms ih =>
    rw [order_object, sorted, if_neg Bool.false_ne_true, orderMembers_eq]
    refine congrArg Json.object ((List.map_congr_left fun m hm => ?_).trans (List.map_id ms))
    rw [ih m hm]
    rfl
  | harray vs ih =>
    rw [order_array]
    exact congrArg Json.array ((List.map_congr_left ih).trans (List.map_id vs))
  | hatom v hv => exact order_atom false hv

/-- The order of a dump does not change what is equal to it. -/
theorem order_order (sort : Bool) {v : Json R} (h : v.Distinct) :
    (v.order sort).order true = v.order true := by
  induction v using Json.induction with
  | hobject ms ih =>
    rw [Json.Distinct] at h
    rw [order_object, order_object, order_object]
    have hnodup : ((sorted sort ms).map Prod.fst).Nodup := (sorted_keys_perm sort ms).nodup_iff.2 h.1
    have hperm : ((orderMembers true (sorted sort ms)).map Prod.fst).Perm
        ((orderMembers true ms).map Prod.fst) := by
      rw [orderMembers_keys, orderMembers_keys]
      exact sorted_keys_perm sort ms
    refine congrArg Json.object (byKeys_congr hperm fun key _ => ?_)
    rw [orderMembers_eq, orderMembers_eq, objectGet_map, objectGet_map, objectGet_sorted sort key h.1]
    cases hget : objectGet key ms with
    | none => rfl
    | some v =>
      have hm := mem_of_objectGet hget
      rw [Option.map_some, Option.map_some, Option.map_some, ih _ hm (distinctMembers_iff.1 h.2 _ hm)]
  | harray vs ih =>
    rw [Json.Distinct] at h
    rw [order_array, order_array, order_array, List.map_map]
    refine congrArg Json.array (List.map_congr_left fun v hv => ?_)
    exact ih v hv (distinctElems_iff.1 h v hv)
  | hatom v hv => rw [order_atom sort hv]

/-! ## Equality -/

variable {heap : Heap R} {realEq : R → R → Bool}

theorem forall₂_mem_right {α β : Type} {A : α → β → Prop} {xs : List α} {ys : List β}
    (h : List.Forall₂ A xs ys) {y : β} (hy : y ∈ ys) : ∃ x ∈ xs, A x y := by
  induction h with
  | nil => cases hy
  | @cons x _ _ _ hx _ ih =>
    rcases List.mem_cons.1 hy with rfl | hy
    · exact ⟨x, List.mem_cons_self .., hx⟩
    · obtain ⟨x', hx', hA⟩ := ih hy
      exact ⟨x', List.mem_cons_of_mem _ hx', hA⟩

/-- The keys of the objects of a tree in memory are distinct. -/
theorem Reads.distinct (hok : heap.Ok) : ∀ {n : Nat} {p : Ref} {v : Json R}, Reads heap n p v →
    v.Distinct
  | 0, _, _, h => h.elim
  | n + 1, p, v, h => by
    rcases h.cases with ⟨-, rfl⟩ | ⟨-, rfl⟩ | ⟨-, rfl⟩ | ⟨i, -, hi⟩
    · trivial
    · trivial
    · trivial
    rcases hi with ⟨s, -, rfl⟩ | ⟨k, -, rfl⟩ | ⟨r, -, rfl⟩ | ⟨refs, vs, -, rfl, hvs⟩ |
      ⟨ms, vs, hi, rfl, hvs⟩
    · trivial
    · trivial
    · trivial
    · rw [Json.Distinct]
      refine distinctElems_iff.2 fun v hv => ?_
      obtain ⟨p, -, hp⟩ := forall₂_mem_right hvs hv
      exact hp.distinct hok
    · rw [Json.Distinct, ← hvs.keys]
      refine ⟨hok.nodup hi, distinctMembers_iff.2 fun m hm => ?_⟩
      obtain ⟨m', -, -, hm'⟩ := forall₂_mem_right hvs hm
      exact hm'.distinct hok

theorem objectEqual_of_forall {equal : Ref → Ref → Option Bool} {other : List (Bytes × Ref)} :
    ∀ {ms : List (Bytes × Ref)},
      (∀ m ∈ ms, ∃ q, objectGet m.1 other = some q ∧ equal m.2 q = some true) →
      objectEqual equal other ms = some true
  | [], _ => rfl
  | (key, p) :: ms, h => by
    obtain ⟨⟨q, hq, hpq⟩, h⟩ := List.forall_mem_cons.1 h
    rw [objectEqual, hq]
    dsimp only
    rw [hpq, Option.bind_some, if_pos rfl]
    exact objectEqual_of_forall h

theorem arrayEqual_of_forall {equal : Ref → Ref → Option Bool} {ps qs : List Ref}
    (h : List.Forall₂ (fun p q => equal p q = some true) ps qs) :
    arrayEqual equal ps qs = some true := by
  induction h with
  | nil => rfl
  | cons hpq _ ih => rw [arrayEqual, hpq, Option.bind_some, if_pos rfl, ih]

/-- `json_equal` on two nodes of one kind. -/
theorem jsonEqual_node {n i j : Nat} {a b : Node R} (hi : heap[i]? = some a) (hj : heap[j]? = some b)
    (h : match a, b with
      | .object ms, .object ns => ms.length = ns.length ∧
          objectEqual (jsonEqual heap realEq n) ns ms = some true
      | .array ps, .array qs => ps.length = qs.length ∧
          arrayEqual (jsonEqual heap realEq n) ps qs = some true
      | .string s, .string t => s = t
      | .integer k, .integer l => k = l
      | .real r, .real q => realEq r q = true
      | _, _ => False) :
    jsonEqual heap realEq (n + 1) (.node i) (.node j) = some true := by
  rw [jsonEqual.eq_def]
  by_cases hij : Ref.node i = .node j
  · have hj' := hj
    rw [← Ref.node.inj hij, hi] at hj'
    dsimp only
    rw [if_neg, if_pos hij]
    simp [jsonTypeof, hi, hj, Option.some.inj hj']
  cases a with
  | object ms =>
    cases b with
    | object ns => simp [jsonTypeof, hi, hj, hij, h.1, h.2]
    | _ => exact h.elim
  | array ps =>
    cases b with
    | array qs => simp [jsonTypeof, hi, hj, hij, h.1, h.2]
    | _ => exact h.elim
  | string s =>
    cases b with
    | string t => simp [jsonTypeof, hi, hj, hij, show s = t from h]
    | _ => exact h.elim
  | integer k =>
    cases b with
    | integer l => simp [jsonTypeof, hi, hj, hij, show k = l from h]
    | _ => exact h.elim
  | real r =>
    cases b with
    | real q => simp [jsonTypeof, hi, hj, hij, show realEq r q = true from h]
    | _ => exact h.elim

/-- What stands in memory for a tree. -/
def Stored (heap : Heap R) (n : Nat) (p : Ref) : Json R → Prop
  | .true => p = .true
  | .false => p = .false
  | .null => p = .null
  | .string s => ∃ i, p = .node i ∧ heap[i]? = some (.string s)
  | .integer k => ∃ i, p = .node i ∧ heap[i]? = some (.integer k)
  | .real r => ∃ i, p = .node i ∧ heap[i]? = some (.real r)
  | .array vs => ∃ i ps, p = .node i ∧ heap[i]? = some (.array ps) ∧ List.Forall₂ (Reads heap n) ps vs
  | .object vs =>
    ∃ i ms, p = .node i ∧ heap[i]? = some (.object ms) ∧ SameKeys (Reads heap n) ms vs

theorem Reads.stored {n : Nat} {p : Ref} {v : Json R} (h : Reads heap (n + 1) p v) :
    Stored heap n p v := by
  rcases h.cases with ⟨rfl, rfl⟩ | ⟨rfl, rfl⟩ | ⟨rfl, rfl⟩ | ⟨i, rfl, hi⟩
  · exact rfl
  · exact rfl
  · exact rfl
  rcases hi with ⟨_, hi, rfl⟩ | ⟨_, hi, rfl⟩ | ⟨_, hi, rfl⟩ | ⟨ps, _, hi, rfl, hvs⟩ |
    ⟨ms, _, hi, rfl, hvs⟩
  · exact ⟨i, rfl, hi⟩
  · exact ⟨i, rfl, hi⟩
  · exact ⟨i, rfl, hi⟩
  · exact ⟨i, ps, rfl, hi, hvs⟩
  · exact ⟨i, ms, rfl, hi, hvs⟩

/-- The reals of a tree are equal to themselves. -/
def Json.SelfEqual (realEq : R → R → Bool) (v : Json R) : Prop :=
  v.Every (fun a => ∀ r, a = .real r → realEq r r = Bool.true) fun _ => True

/-- Two references to one atom. -/
theorem jsonEqual_atom {n m k : Nat} {p q : Ref} {v : Json R} (hp : Stored heap m p v)
    (hq : Stored heap k q v) (hv : ¬v.IsContainer)
    (hreal : ∀ r, v = .real r → realEq r r = true) :
    jsonEqual heap realEq (n + 1) p q = some true := by
  cases v with
  | object ms => exact absurd trivial hv
  | array vs => exact absurd trivial hv
  | real r =>
    obtain ⟨i, rfl, hi⟩ := hp
    obtain ⟨j, rfl, hj⟩ := hq
    exact jsonEqual_node hi hj (hreal r rfl)
  | string s =>
    obtain ⟨i, rfl, hi⟩ := hp
    obtain ⟨j, rfl, hj⟩ := hq
    exact jsonEqual_node hi hj rfl
  | integer c =>
    obtain ⟨i, rfl, hi⟩ := hp
    obtain ⟨j, rfl, hj⟩ := hq
    exact jsonEqual_node hi hj rfl
  | _ =>
    rw [show p = _ from hp, show q = _ from hq]
    rfl

/-- Trees of one order are of one kind. -/
theorem order_eq_cases {a b : Json R} (h : a.order true = b.order true) :
    (∃ vs ws, a = .object vs ∧ b = .object ws ∧ sorted true vs = sorted true ws) ∨
      (∃ vs ws, a = .array vs ∧ b = .array ws ∧
        vs.map (Json.order true) = ws.map (Json.order true)) ∨
      (¬a.IsContainer ∧ a = b) := by
  have hkind : a.IsContainer ↔ b.IsContainer := by
    rw [← order_isContainer true a, h, order_isContainer]
  cases a with
  | object vs =>
    cases b with
    | object ws => exact Or.inl ⟨vs, ws, rfl, rfl, Json.object.inj h⟩
    | array ws => cases h
    | _ => exact absurd (hkind.1 trivial) id
  | array vs =>
    cases b with
    | object ws => cases h
    | array ws =>
      rw [order_array, order_array] at h
      exact Or.inr (Or.inl ⟨vs, ws, rfl, rfl, Json.array.inj h⟩)
    | _ => exact absurd (hkind.1 trivial) id
  | _ =>
    refine Or.inr (Or.inr ⟨id, ?_⟩)
    rwa [order_atom true (by exact id), order_atom true (mt hkind.2 (by exact id))] at h

/-- **Trees that are dumped in one order are equal.** -/
theorem jsonEqual_of_order_eq : ∀ (n : Nat) {m : Nat} {p q : Ref} {a b : Json R},
    Reads heap n p a → Reads heap m q b → a.Distinct → b.Distinct → a.SelfEqual realEq →
    a.order true = b.order true → jsonEqual heap realEq n p q = some true
  | 0, _, _, _, _, _, h, _, _, _, _, _ => h.elim
  | _ + 1, 0, _, _, _, _, _, h, _, _, _, _ => h.elim
  | n + 1, m + 1, p, q, a, b, ha, hb, hda, hdb, hreal, heq => by
    have ih : ∀ {p q : Ref} {a b : Json R}, Reads heap n p a → Reads heap m q b → a.Distinct →
        b.Distinct → a.SelfEqual realEq → a.order true = b.order true →
        jsonEqual heap realEq n p q = some true := jsonEqual_of_order_eq n
    rcases order_eq_cases heq with ⟨vs, ws, rfl, rfl, hsort⟩ | ⟨vs, ws, rfl, rfl, hmap⟩ |
      ⟨hatom, rfl⟩
    · obtain ⟨i, ms, rfl, hi, hvs⟩ := ha.stored
      obtain ⟨j, ns, rfl, hj, hws⟩ := hb.stored
      rw [Json.Distinct] at hda hdb
      have hlen : ms.length = ns.length := by
        have hv := (sorted_keys_perm true vs).length_eq
        have hw := (sorted_keys_perm true ws).length_eq
        rw [hsort] at hv
        have := hv.symm.trans hw
        rw [← hvs.keys, ← hws.keys, List.length_map, List.length_map] at this
        exact this
      refine jsonEqual_node hi hj ⟨hlen, objectEqual_of_forall fun m hm => ?_⟩
      have hnodup : (ms.map Prod.fst).Nodup := hvs.keys ▸ hda.1
      obtain ⟨v, hv, hpv⟩ := hvs.get_some (objectGet_of_mem hnodup hm)
      -- the key is bound in the other object too, to a tree of the same order
      have hget := objectGet_sorted true m.1 hda.1
      rw [hsort, objectGet_sorted true m.1 hdb.1, hv] at hget
      obtain ⟨w, hw, hvw⟩ := Option.map_eq_some_iff.1 hget
      have hrel := hws.get m.1
      rw [hw] at hrel
      cases hq : objectGet m.1 ns with
      | none =>
        rw [hq] at hrel
        cases hrel
      | some q =>
        rw [hq] at hrel
        cases hrel with
        | some hqw =>
          exact ⟨q, rfl, ih hpv hqw (distinctMembers_iff.1 hda.2 _ (mem_of_objectGet hv))
            (distinctMembers_iff.1 hdb.2 _ (mem_of_objectGet hw))
            (everyMember_iff.1 hreal _ (mem_of_objectGet hv)).2 hvw.symm⟩
    · obtain ⟨i, ps, rfl, hi, hvs⟩ := ha.stored
      obtain ⟨j, qs, rfl, hj, hws⟩ := hb.stored
      rw [Json.Distinct, distinctElems_iff] at hda hdb
      replace hreal := everyElem_iff.1 hreal
      have hpq : List.Forall₂ (fun p q => jsonEqual heap realEq n p q = some true) ps qs := by
        clear hi hj ha hb heq
        induction hvs generalizing qs ws with
        | nil =>
          cases ws with
          | nil =>
            cases hws
            exact .nil
          | cons => cases hmap
        | cons hv _ ihl =>
          cases ws with
          | nil => cases hmap
          | cons w ws =>
            cases hws with
            | cons hw hws =>
              obtain ⟨hvw, hmap⟩ := List.cons.inj hmap
              obtain ⟨hdv, hda⟩ := List.forall_mem_cons.1 hda
              obtain ⟨hdw, hdb⟩ := List.forall_mem_cons.1 hdb
              obtain ⟨hrv, hreal⟩ := List.forall_mem_cons.1 hreal
              exact .cons (ih hv hw hdv hdw hrv hvw) (ihl _ hda hmap hdb _ hws hreal)
      exact jsonEqual_node hi hj ⟨hpq.length_eq, arrayEqual_of_forall hpq⟩
    · refine jsonEqual_atom ha.stored hb.stored hatom fun r hr => ?_
      subst hr
      exact hreal r rfl

/-! ## Trees in a larger memory -/

/-- A tree is in another memory too that has its nodes, those of a set that is closed. -/
theorem Reads.transfer {heap' : Heap R} {S : Ref → Prop}
    (hS : ∀ i node, S (.node i) → heap[i]? = some node →
      heap'[i]? = some node ∧ ∀ q ∈ node.children, S q) :
    ∀ {n m : Nat} {p : Ref} {v : Json R}, n ≤ m → S p → Reads heap n p v → Reads heap' m p v
  | 0, _, _, _, _, _, h => h.elim
  | _ + 1, 0, _, _, hn, _, _ => absurd hn (Nat.not_succ_le_zero _)
  | n + 1, m + 1, p, v, hn, hp, h => by
    have ih : ∀ p v, S p → Reads heap n p v → Reads heap' m p v :=
      fun p v => Reads.transfer hS (Nat.le_of_succ_le_succ hn)
    rcases h.cases with ⟨rfl, rfl⟩ | ⟨rfl, rfl⟩ | ⟨rfl, rfl⟩ | ⟨i, rfl, hi⟩
    · exact rfl
    · exact rfl
    · exact rfl
    rcases hi with ⟨_, hi, rfl⟩ | ⟨_, hi, rfl⟩ | ⟨_, hi, rfl⟩ | ⟨ps, vs, hi, rfl, hvs⟩ |
      ⟨ms, vs, hi, rfl, hvs⟩ <;> obtain ⟨hi', hchildren⟩ := hS i _ hp hi <;> rw [Reads, hi']
    · refine ⟨vs, rfl, List.Forall₂.flip (forall₂_imp_mem hvs.flip fun w q hq h => ?_)⟩
      exact ih q w (hchildren q hq) h
    · refine ⟨vs, rfl, List.Forall₂.flip (forall₂_imp_mem hvs.flip fun w q hq h => ⟨h.1, ?_⟩)⟩
      exact ih q.2 w.2 (hchildren q.2 (List.mem_map_of_mem hq)) h.2

theorem Reads.mono {heap' : Heap R} (hpre : heap <+: heap') {n m : Nat} {p : Ref} {v : Json R}
    (hn : n ≤ m) (h : Reads heap n p v) : Reads heap' m p v := by
  refine h.transfer (S := fun _ => True) (fun i node _ hi => ⟨?_, fun _ _ => trivial⟩) hn trivial
  obtain ⟨t, rfl⟩ := hpre
  rw [List.getElem?_append_left (List.getElem?_eq_some_iff.1 hi).1, hi]

/-- Every tree can be stored. -/
theorem exists_reads (v : Json R) : ∀ heap : Heap R,
    ∃ heap' p n, heap <+: heap' ∧ Reads heap' n p v := by
  induction v using Json.induction with
  | hobject ms ih =>
    intro heap
    have hms : ∀ heap : Heap R, ∃ heap' refs n, heap <+: heap' ∧ SameKeys (Reads heap' n) refs ms := by
      induction ms with
      | nil => exact fun heap => ⟨heap, [], 0, List.prefix_refl _, .nil⟩
      | cons m ms ihl =>
        intro heap
        obtain ⟨hm, hms⟩ := List.forall_mem_cons.1 ih
        obtain ⟨heap₁, p, n, hpre₁, hp⟩ := hm heap
        obtain ⟨heap₂, refs, k, hpre₂, hrefs⟩ := ihl hms heap₁
        exact ⟨heap₂, (m.1, p) :: refs, max n k, hpre₁.trans hpre₂,
          .cons ⟨rfl, hp.mono hpre₂ (Nat.le_max_left _ _)⟩
            (hrefs.imp fun _ _ h => ⟨h.1, h.2.mono (List.prefix_refl _) (Nat.le_max_right _ _)⟩)⟩
    obtain ⟨heap', refs, n, hpre, hrefs⟩ := hms heap
    have hlast : (heap' ++ [.object refs])[heap'.length]? = some (.object refs) := by simp
    refine ⟨heap' ++ [.object refs], .node heap'.length, n + 1,
      hpre.trans (List.prefix_append _ _), ?_⟩
    rw [Reads, hlast]
    exact ⟨ms, rfl, hrefs.imp fun _ _ h => ⟨h.1, h.2.mono (List.prefix_append _ _) le_rfl⟩⟩
  | harray vs ih =>
    intro heap
    have hvs : ∀ heap : Heap R, ∃ heap' refs n, heap <+: heap' ∧
        List.Forall₂ (Reads heap' n) refs vs := by
      induction vs with
      | nil => exact fun heap => ⟨heap, [], 0, List.prefix_refl _, .nil⟩
      | cons v vs ihl =>
        intro heap
        obtain ⟨hv, hvs⟩ := List.forall_mem_cons.1 ih
        obtain ⟨heap₁, p, n, hpre₁, hp⟩ := hv heap
        obtain ⟨heap₂, refs, k, hpre₂, hrefs⟩ := ihl hvs heap₁
        exact ⟨heap₂, p :: refs, max n k, hpre₁.trans hpre₂,
          .cons (hp.mono hpre₂ (Nat.le_max_left _ _))
            (hrefs.imp fun _ _ h => h.mono (List.prefix_refl _) (Nat.le_max_right _ _))⟩
    obtain ⟨heap', refs, n, hpre, hrefs⟩ := hvs heap
    have hlast : (heap' ++ [.array refs])[heap'.length]? = some (.array refs) := by simp
    refine ⟨heap' ++ [.array refs], .node heap'.length, n + 1,
      hpre.trans (List.prefix_append _ _), ?_⟩
    rw [Reads, hlast]
    exact ⟨vs, rfl, hrefs.imp fun _ _ h => h.mono (List.prefix_append _ _) le_rfl⟩
  | hatom v hv =>
    intro heap
    have hlast : ∀ node : Node R, (heap ++ [node])[heap.length]? = some node := by simp
    have hnode : ∀ node : Node R, Reads (heap ++ [node]) 1 (.node heap.length) v →
        ∃ heap' p n, heap <+: heap' ∧ Reads heap' n p v :=
      fun node h => ⟨_, _, 1, List.prefix_append _ _, h⟩
    cases v with
    | object ms => exact absurd trivial hv
    | array vs => exact absurd trivial hv
    | string s => exact hnode (.string s) (by rw [Reads, hlast])
    | integer k => exact hnode (.integer k) (by rw [Reads, hlast])
    | real r => exact hnode (.real r) (by rw [Reads, hlast])
    | true => exact ⟨heap, .true, 1, List.prefix_refl _, rfl⟩
    | false => exact ⟨heap, .false, 1, List.prefix_refl _, rfl⟩
    | null => exact ⟨heap, .null, 1, List.prefix_refl _, rfl⟩

/-! ## The round trip -/

theorem runChunks_strbuffer (chunks : List Bytes) (s : Bytes) :
    runChunks dumpToStrbuffer chunks s = (true, s ++ chunks.flatten) := by
  induction chunks generalizing s with
  | nil => rw [runChunks, List.flatten_nil, List.append_nil]
  | cons c chunks ih =>
    rw [runChunks, dumpToStrbuffer]
    dsimp only
    rw [if_pos rfl, ih, List.flatten_cons, List.append_assoc]

/-- The buffer takes everything. -/
theorem run_strbuffer {steps : List Step} (h : AllSound False steps) (s : Bytes) :
    run dumpToStrbuffer steps s = (true, s ++ stepsText steps) := by
  induction steps generalizing s with
  | nil => rw [run, stepsText, List.flatMap_nil, List.append_nil]
  | cons x steps ih =>
    obtain ⟨hx, hsteps⟩ := List.forall_mem_cons.1 h
    rw [stepsText, List.flatMap_cons, ← List.append_assoc]
    cases x with
    | write c =>
      rw [run, dumpToStrbuffer]
      exact ih hsteps _
    | key chunks closed =>
      rw [run, runChunks_strbuffer]
      exact ih hsteps _
    | fail => exact hx.elim

theorem mapReals_id (v : Json R) : v.mapReals id = v := by
  induction v using Json.induction with
  | hobject ms ih =>
    rw [Json.mapReals, mapMembers_eq]
    refine congrArg Json.object ((List.map_congr_left fun m hm => ?_).trans (List.map_id ms))
    rw [ih m hm]
    rfl
  | harray vs ih =>
    rw [Json.mapReals, mapElems_eq]
    exact congrArg Json.array ((List.map_congr_left ih).trans (List.map_id vs))
  | hatom v hv =>
    cases v with
    | object ms => exact absurd trivial hv
    | array vs => exact absurd trivial hv
    | _ => rfl

/-- A value without reals whose strings are valid, and whose keys are valid and have no 0. -/
def Json.Clean (v : Json R) : Prop :=
  v.Every (fun a => (∀ r, a ≠ .real r) ∧ ∀ s, a = .string s → Valid s)
    (fun key => Valid key ∧ 0 ∉ key)

theorem Json.Every.mono {A B : Json R → Prop} {K L : Bytes → Prop} (hA : ∀ a, A a → B a)
    (hK : ∀ key, K key → L key) {v : Json R} (h : v.Every A K) : v.Every B L := by
  induction v using Json.induction with
  | hobject ms ih =>
    refine everyMember_iff.2 fun m hm => ?_
    obtain ⟨hkey, hv⟩ := everyMember_iff.1 h m hm
    exact ⟨hK _ hkey, ih m hm hv⟩
  | harray vs ih => exact everyElem_iff.2 fun v hv => ih v hv (everyElem_iff.1 h v hv)
  | hatom v hv =>
    cases v with
    | object ms => exact absurd trivial hv
    | array vs => exact absurd trivial hv
    | _ => exact hA _ h

theorem selfEqual_of_refl {realEq : R → R → Bool} (h : ∀ r, realEq r r = true) (v : Json R) :
    v.SelfEqual realEq := by
  induction v using Json.induction with
  | hobject ms ih => exact everyMember_iff.2 fun m hm => ⟨trivial, ih m hm⟩
  | harray vs ih => exact everyElem_iff.2 ih
  | hatom v hv =>
    cases v with
    | object ms => exact absurd trivial hv
    | array vs => exact absurd trivial hv
    | _ => exact fun r _ => h r

theorem Json.NoReals.selfEqual {v : Json R} (h : v.NoReals) (realEq : R → R → Bool) :
    v.SelfEqual realEq :=
  h.mono (fun _ ha r hr => absurd hr (ha r)) fun _ => id

variable {dtostr : Nat → R → Option Bytes} {strtod : Bytes → Option R} {flags : DumpFlags}

theorem Json.Clean.dumpable {v : Json R} (h : v.Clean) (precision : Nat) :
    v.Every (Dumpable dtostr strtod id precision)
      (fun key => Valid key ∧ (Bool.false = Bool.true ∨ 0 ∉ key)) := by
  refine h.mono (fun a ha => ?_) fun key hkey => ⟨hkey.1, Or.inr hkey.2⟩
  cases a with
  | string s => exact ha.2 s rfl
  | real r => exact absurd rfl (ha.1 r)
  | _ => trivial

theorem Json.Clean.writable {v : Json R} (h : v.Clean) (precision : Nat) :
    v.Every (Writable False dtostr precision) Valid := by
  refine h.mono (fun a ha => ?_) fun key hkey => hkey.1
  cases a with
  | string s => exact Or.inr (ha.2 s rfl)
  | real r => exact absurd rfl (ha.1 r)
  | _ => trivial

theorem Json.Clean.noReals {v : Json R} (h : v.Clean) : v.NoReals :=
  h.mono (fun _ ha => ha.1) fun _ _ => trivial

/-- The text of a dump. -/
theorem jsonDumps_text {p : Ref} {v : Json R} (hv : Denotes heap p v) (hclean : v.Clean)
    (hdistinct : v.Distinct) (hnest : v.nest ≤ jsonParserMaxDepth) (hembed : flags.embed = false)
    (hany : flags.encodeAny = true ∨ v.IsContainer) :
    ∃ text, jsonDumps heap dtostr flags p = some text ∧ 0 ∉ text ∧
      Value false strtod { decodeAny := true, allowNul := true } jsonParserMaxDepth
        (v.order flags.sortKeys) text [] := by
  have hclean' : (v.order flags.sortKeys).Clean := order_every flags.sortKeys hclean
  obtain ⟨hs, hr⟩ := jsonDumpCallback_sim dumpToStrbuffer dtostr hv hany []
  rw [run_strbuffer ((script_allSound_iff flags.embed 0 _).2 (hclean'.writable _))] at hs hr
  rw [hembed] at hs
  have hvalue := @script_value R Bool.false { flags with embed := false } R dtostr strtod id
    { decodeAny := true, allowNul := true } rfl rfl jsonParserMaxDepth _ 0
    ((order_nest_le flags.sortKeys v).trans hnest) (order_distinct flags.sortKeys hdistinct)
    (hclean'.dumpable _) []
  rw [List.append_nil, mapReals_id] at hvalue
  have h0 := Value.prepends prepends_nul _ hvalue List.not_mem_nil
  refine ⟨_, ?_, h0, hvalue⟩
  unfold jsonDumps
  dsimp only
  rw [if_pos (hr.2 rfl), hs, List.nil_append, List.takeWhile_eq_self_iff.2]
  intro b hb
  exact decide_eq_true fun hb0 => h0 (hb0 ▸ hb)

/-- **Loading a dump.** -/
theorem jsonLoads_jsonDumps (hok : heap.Ok) {p : Ref} {v : Json R} (hv : Denotes heap p v)
    (hclean : v.Clean) (hnest : v.nest ≤ jsonParserMaxDepth) (hembed : flags.embed = false)
    (hany : flags.encodeAny = true ∨ v.IsContainer) :
    ∃ text w, jsonDumps heap dtostr flags p = some text ∧
      jsonLoads strtod { decodeAny := true, allowNul := true } text = some w ∧
      (∃ heap' q, heap <+: heap' ∧ Denotes heap' q w) ∧
      (∀ heap' q, heap <+: heap' → Denotes heap' q w →
        ∃ n, jsonEqual heap' realEq n q p = some true) ∧
      (flags.sortKeys = false → w = v) := by
  have hdistinct : v.Distinct := hv.choose_spec.distinct hok
  obtain ⟨text, htext, h0, hvalue⟩ := @jsonDumps_text R heap dtostr strtod flags p v hv hclean
    hdistinct hnest hembed hany
  refine ⟨text, v.order flags.sortKeys, htext, ?_, ?_, ?_, ?_⟩
  · exact (load_eq_some_iff (gives_stringGet h0) h0 rfl).2
      ⟨Or.inl rfl, text, [], ws_refl _, hvalue, ws_refl _⟩
  · obtain ⟨heap', q, n, hpre, hq⟩ := exists_reads (v.order flags.sortKeys) heap
    exact ⟨heap', q, hpre, n, hq⟩
  · rintro heap' q hpre ⟨n, hq⟩
    obtain ⟨m, hp⟩ := hv
    exact ⟨n, jsonEqual_of_order_eq n hq (hp.mono hpre le_rfl) (order_distinct _ hdistinct) hdistinct
      (order_every flags.sortKeys (hclean.noReals.selfEqual realEq)) (order_order _ hdistinct)⟩
  · intro hsort
    rw [hsort, order_false]

end

/-- An object with a string that has a 0 and a character of two bytes. -/
def withNul : Heap Unit :=
  [.object [(ascii "k", .node 1), (ascii "a", .true)], .array [.node 2, .node 3],
    .string [0x00, 0xC3, 0xA9], .integer (-1)]

def withNulTree : Json Unit :=
  .object [(ascii "k", .array [.string [0x00, 0xC3, 0xA9], .integer (-1)]), (ascii "a", .true)]

theorem jsonLoads_jsonDumps_withNul :
    ∃ text w, jsonDumps withNul (fun _ _ => none) { indent := 2, ensureAscii := true } (.node 0) =
        some text ∧
      jsonLoads (fun _ => none) { decodeAny := true, allowNul := true } text = some w ∧
      w = withNulTree := by
  have hbuilt : Built (objectSet (ascii "a") .true (objectSet (ascii "k") (Ref.node 1) [])) :=
    Built.set (Built.set Built.empty)
  have hok : withNul.Ok := by
    intro ms hms
    simp only [withNul, List.mem_cons, Node.object.injEq, List.not_mem_nil, reduceCtorEq,
      or_false] at hms
    rw [hms]
    exact hbuilt
  have hv : Denotes withNul (.node 0) withNulTree :=
    ⟨3, _, rfl, .cons ⟨rfl, _, rfl, .cons rfl (.cons rfl .nil)⟩ (.cons ⟨rfl, rfl⟩ .nil)⟩
  have hstring : Valid [0x00, 0xC3, 0xA9] :=
    Valid.ascii (by decide) (@Valid.cons 0xE9 _ (by decide) .nil)
  have hkey : ∀ c : UInt8, c.toNat < 0x80 → Valid [c] := fun c hc => Valid.nil.ascii hc
  have hclean : withNulTree.Clean := by
    refine ⟨⟨hkey 0x6B (by decide), by decide⟩, ⟨⟨?_, ?_⟩, ?_, trivial⟩,
      ⟨hkey 0x61 (by decide), by decide⟩, ?_, trivial⟩
    · exact fun _ h => by cases h
    · rintro s hs
      rw [← Json.string.inj hs]
      exact hstring
    · exact ⟨fun _ h => (by cases h), fun _ h => (by cases h)⟩
    · exact ⟨fun _ h => (by cases h), fun _ h => (by cases h)⟩
  obtain ⟨text, w, htext, hw, -, -, hsort⟩ := @jsonLoads_jsonDumps Unit withNul (fun _ _ => false)
    (fun _ _ => none) (fun _ => none) { indent := 2, ensureAscii := true } hok _ _ hv hclean
    (by decide) rfl (Or.inr trivial)
  exact ⟨text, w, htext, hw, hsort rfl⟩

/-- A number is not dumped on its own. -/
theorem jsonDumps_scalar :
    Denotes [Node.integer 1] (.node 0) (Json.integer 1 : Json Unit) ∧
      (Json.integer 1 : Json Unit).Clean ∧ (Json.integer 1 : Json Unit).nest ≤ jsonParserMaxDepth ∧
      jsonDumps [(Node.integer 1 : Node Unit)] (fun _ _ => none) {} (.node 0) = none := by
  refine ⟨⟨1, rfl⟩, ?_, by decide, by decide⟩
  exact ⟨fun _ h => (by cases h), fun _ h => (by cases h)⟩

end Jansson
