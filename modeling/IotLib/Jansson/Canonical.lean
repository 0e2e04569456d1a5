/-
  Dumps with `JSON_SORT_KEYS` are canonical: what is equal for `json_equal` is dumped to
  the same bytes.

  `compare_keys` orders keys as lists of bytes, so that the order of the dump depends only
  on the set of the keys.
-/
import IotLib.Jansson.Grammar
import IotLib.Jansson.Script

namespace Jansson

/-! ## The order of keys -/

theorem compareKeys_nil_left (k : Bytes) : compareKeys [] k = -(k.length : Int) := by
  unfold compareKeys
  have h : ∀ n, memcmp n [] k = 0 := by
    intro n
    cases n <;> rfl
  simp [h]

theorem compareKeys_nil_right (k : Bytes) : compareKeys k [] = k.length := by
  unfold compareKeys
  have h : ∀ n, memcmp n k [] = 0 := by
    intro n
    cases n <;> cases k <;> rfl
  simp [h]

theorem compareKeys_cons (a b : UInt8) (k₁ k₂ : Bytes) :
    compareKeys (a :: k₁) (b :: k₂) =
      if a = b then compareKeys k₁ k₂ else (a.toNat : Int) - b.toNat := by
  have hmin : (if (a :: k₁).length < (b :: k₂).length then (a :: k₁).length
      else (b :: k₂).length) =
      (if k₁.length < k₂.length then k₁.length else k₂.length) + 1 := by
    simp only [List.length_cons]
    split_ifs <;> omega
  unfold compareKeys
  simp only [hmin, memcmp]
  by_cases hab : a = b
  · simp only [if_pos hab, List.length_cons]
    split_ifs <;> omega
  · have hne : (a.toNat : Int) - b.toNat ≠ 0 := by
      intro h
      exact hab (UInt8.toNat.inj (by omega))
    simp only [if_neg hab]
    rw [if_pos hne]

/-- `compare_keys` is the lexicographic order of the bytes. -/
theorem compareKeys_le_iff (k₁ k₂ : Bytes) : compareKeys k₁ k₂ ≤ 0 ↔ k₁ ≤ k₂ := by
  induction k₁ generalizing k₂ with
  | nil =>
    rw [compareKeys_nil_left]
    exact iff_of_true (by omega) (List.nil_le k₂)
  | cons a k₁ ih =>
    cases k₂ with
    | nil =>
      rw [compareKeys_nil_right, List.length_cons]
      exact iff_of_false (by omega) (fun h => h (List.nil_lt_cons a k₁))
    | cons b k₂ =>
      rw [compareKeys_cons, List.cons_le_cons_iff]
      by_cases hab : a = b
      · rw [if_pos hab, ih]
        constructor
        · exact fun h => Or.inr ⟨hab, h⟩
        · rintro (h | h)
          · rw [hab] at h
            exact absurd h (UInt8.lt_irrefl b)
          · exact h.2
      · rw [if_neg hab]
        have hne : a.toNat ≠ b.toNat := fun h => hab (UInt8.toNat.inj h)
        constructor
        · intro h
          exact Or.inl (UInt8.lt_iff_toNat_lt.2 (by omega))
        · rintro (h | h)
          · have := UInt8.lt_iff_toNat_lt.1 h
            omega
          · exact absurd h.1 hab

theorem sortKeys_pairwise (keys : List Bytes) : (sortKeys keys).Pairwise (· ≤ ·) := by
  have h := @List.pairwise_mergeSort _ (fun k₁ k₂ : Bytes => decide (compareKeys k₁ k₂ ≤ 0))
    (by simpa only [decide_eq_true_eq, compareKeys_le_iff] using fun a b c => List.le_trans)
    (by simpa only [Bool.or_eq_true, decide_eq_true_eq, compareKeys_le_iff] using List.le_total)
    keys
  exact h.imp fun hk => (compareKeys_le_iff _ _).1 (of_decide_eq_true hk)

/-- The order of the dump depends only on which keys there are. -/
theorem sortKeys_congr {keys keys' : List Bytes} (h : keys.Perm keys') :
    sortKeys keys = sortKeys keys' := by
  have hperm : (sortKeys keys).Perm (sortKeys keys') :=
    ((List.mergeSort_perm keys _).trans h).trans (List.mergeSort_perm keys' _).symm
  exact hperm.eq_of_pairwise (fun a b _ _ => List.le_antisymm) (sortKeys_pairwise _)
    (sortKeys_pairwise _)

/-! ## Equal trees -/

section
variable {R : Type} {heap : Heap R} {equal : Ref → Ref → Option Bool}

mutual

/-- Every value of the tree that holds no other has `A`, and every key has `K`. -/
def Json.Every (A : Json R → Prop) (K : Bytes → Prop) : Json R → Prop
  | .object ms => everyMember A K ms
  | .array vs => everyElem A K vs
  | .string s => A (.string s)
  | .integer i => A (.integer i)
  | .real r => A (.real r)
  | .true => A .true
  | .false => A .false
  | .null => A .null

def everyElem (A : Json R → Prop) (K : Bytes → Prop) : List (Json R) → Prop
  | [] => True
  | v :: vs => v.Every A K ∧ everyElem A K vs

def everyMember (A : Json R → Prop) (K : Bytes → Prop) : List (Bytes × Json R) → Prop
  | [] => True
  | (key, v) :: ms => K key ∧ v.Every A K ∧ everyMember A K ms

end

theorem everyElem_iff {A : Json R → Prop} {K : Bytes → Prop} {vs : List (Json R)} :
    everyElem A K vs ↔ ∀ v ∈ vs, v.Every A K := by
  induction vs with
  | nil => simp [everyElem]
  | cons v vs ih => rw [everyElem, ih, List.forall_mem_cons]

theorem everyMember_iff {A : Json R → Prop} {K : Bytes → Prop} {ms : List (Bytes × Json R)} :
    everyMember A K ms ↔ ∀ m ∈ ms, K m.1 ∧ m.2.Every A K := by
  induction ms with
  | nil => simp [everyMember]
  | cons m ms ih => rw [everyMember, ih, List.forall_mem_cons, and_assoc]

/-- The tree has no reals. -/
def Json.NoReals (v : Json R) : Prop := v.Every (fun a => ∀ r, a ≠ .real r) fun _ => True

theorem arrayEqual_eq_true : ∀ {ps qs : List Ref}, arrayEqual equal ps qs = some true →
    ps.length = qs.length → List.Forall₂ (fun p q => equal p q = some true) ps qs
  | [], [], _, _ => .nil
  | p :: ps, q :: qs, h, hlen => by
    rw [arrayEqual] at h
    obtain ⟨b, hb, h⟩ := Option.bind_eq_some_iff.1 h
    cases b with
    | false => simp at h
    | true =>
      rw [if_pos rfl] at h
      exact .cons hb (arrayEqual_eq_true h (Nat.succ.inj hlen))

theorem objectEqual_eq_true {other : List (Bytes × Ref)} : ∀ {ms : List (Bytes × Ref)},
    objectEqual equal other ms = some true →
    ∀ m ∈ ms, ∃ q, objectGet m.1 other = some q ∧ equal m.2 q = some true
  | [], _ => fun _ hm => by cases hm
  | (key, p) :: ms, h => by
    rw [objectEqual] at h
    cases hq : objectGet key other with
    | none => simp [hq] at h
    | some q =>
      simp only [hq] at h
      obtain ⟨b, hb, h⟩ := Option.bind_eq_some_iff.1 h
      cases b with
      | false => simp at h
      | true =>
        rw [if_pos rfl] at h
        exact List.forall_mem_cons.2 ⟨⟨q, hq, hb⟩, objectEqual_eq_true h⟩

theorem exists_objectGet {α : Type} {key : Bytes} {ms : List (Bytes × α)}
    (h : key ∈ ms.map Prod.fst) : ∃ x, objectGet key ms = some x :=
  Option.ne_none_iff_exists'.1 fun hnone => objectGet_eq_none_iff.1 hnone h

/-- The members that have a key in two objects that are read. -/
theorem SameKeys.get_some {α β : Type} {A : α → β → Prop} {ms : List (Bytes × α)}
    {vs : List (Bytes × β)} (h : SameKeys A ms vs) {key : Bytes} {x : α}
    (hx : objectGet key ms = some x) : ∃ y, objectGet key vs = some y ∧ A x y := by
  have hget := h.get key
  rw [hx] at hget
  cases hy : objectGet key vs with
  | none =>
    rw [hy] at hget
    cases hget
  | some y =>
    rw [hy] at hget
    cases hget with
    | some hxy => exact ⟨y, rfl, hxy⟩

theorem byKeys_congr {vs ws : List (Bytes × Json R)}
    (hperm : (vs.map Prod.fst).Perm (ws.map Prod.fst))
    (h : ∀ key ∈ vs.map Prod.fst, objectGet key vs = objectGet key ws) :
    byKeys vs = byKeys ws := by
  unfold byKeys
  rw [← sortKeys_congr hperm]
  refine List.filterMap_congr fun key hkey => ?_
  rw [h key (List.mem_mergeSort.1 hkey)]

/-- The objects of the heap have distinct keys. -/
theorem Heap.Ok.nodup (hok : heap.Ok) {i : Nat} {ms : List (Bytes × Ref)}
    (hi : heap[i]? = some (.object ms)) : (ms.map Prod.fst).Nodup :=
  (hok ms (List.mem_of_getElem? hi)).nodup

/-- Two objects, each key of the first one in the second one. -/
theorem perm_of_keys {ms ns : List (Bytes × Ref)} (hnodup : (ms.map Prod.fst).Nodup)
    (hlen : ms.length = ns.length) (h : ∀ m ∈ ms, ∃ q, objectGet m.1 ns = some q) :
    (ms.map Prod.fst).Perm (ns.map Prod.fst) := by
  have hsub : ms.map Prod.fst ⊆ ns.map Prod.fst := by
    intro key hkey
    obtain ⟨m, hm, rfl⟩ := List.mem_map.1 hkey
    obtain ⟨q, hq⟩ := h m hm
    exact List.mem_map.2 ⟨_, mem_of_objectGet hq, rfl⟩
  refine (hnodup.subperm hsub).perm_of_length_le ?_
  rw [List.length_map, List.length_map, hlen]

/-- How two values come to be equal. -/
theorem jsonEqual_cases {realEq : R → R → Bool} {n : Nat} {p q : Ref}
    (h : jsonEqual heap realEq (n + 1) p q = some true) :
    p = q ∨ ∃ i j, p = .node i ∧ q = .node j ∧
      ((∃ ms ns, heap[i]? = some (.object ms) ∧ heap[j]? = some (.object ns) ∧
          ms.length = ns.length ∧ objectEqual (jsonEqual heap realEq n) ns ms = some true) ∨
        (∃ ps qs, heap[i]? = some (.array ps) ∧ heap[j]? = some (.array qs) ∧
          ps.length = qs.length ∧ arrayEqual (jsonEqual heap realEq n) ps qs = some true) ∨
        (∃ s, heap[i]? = some (.string s) ∧ heap[j]? = some (.string s)) ∨
        (∃ k, heap[i]? = some (.integer k) ∧ heap[j]? = some (.integer k)) ∨
        ∃ r, heap[i]? = some (.real r)) := by
  rw [jsonEqual.eq_def] at h
  dsimp only at h
  split_ifs at h with htype hpq
  · simp at h
  · exact Or.inl hpq
  refine Or.inr ?_
  cases p with
  | true => simp at h
  | false => simp at h
  | null => simp at h
  | node i =>
    cases q with
    | true => simp at h
    | false => simp at h
    | null => simp at h
    | node j =>
      refine ⟨i, j, rfl, rfl, ?_⟩
      dsimp only at h
      split at h
      · rename_i ms ns hi hj
        split_ifs at h with hlen
        · simp at h
        · exact Or.inl ⟨ms, ns, hi, hj, not_not.1 hlen, h⟩
      · rename_i ps qs hi hj
        split_ifs at h with hlen
        · simp at h
        · exact Or.inr (Or.inl ⟨ps, qs, hi, hj, not_not.1 hlen, h⟩)
      · rename_i s t hi hj
        obtain rfl : s = t := by simpa using h
        exact Or.inr (Or.inr (Or.inl ⟨s, hi, hj⟩))
      · rename_i a b hi hj
        obtain rfl : a = b := by simpa using h
        exact Or.inr (Or.inr (Or.inr (Or.inl ⟨a, hi, hj⟩)))
      · rename_i a b hi hj
        exact Or.inr (Or.inr (Or.inr (Or.inr ⟨a, hi⟩)))
      · simp at h

variable {v : Json R}

theorem Reads.array {m i : Nat} {ps : List Ref} (h : Reads heap (m + 1) (.node i) v)
    (hi : heap[i]? = some (.array ps)) : ∃ vs, v = .array vs ∧ List.Forall₂ (Reads heap m) ps vs := by
  rw [Reads, hi] at h
  exact h

theorem Reads.object {m i : Nat} {ms : List (Bytes × Ref)}
    (h : Reads heap (m + 1) (.node i) v) (hi : heap[i]? = some (.object ms)) :
    ∃ vs, v = .object vs ∧ SameKeys (Reads heap m) ms vs := by
  rw [Reads, hi] at h
  exact h

/-- **Equal trees are dumped in one order.** -/
theorem order_eq_of_jsonEqual (hok : heap.Ok) {realEq : R → R → Bool} :
    ∀ (n : Nat) {m k : Nat} {p q : Ref} {a b : Json R}, jsonEqual heap realEq n p q = some true →
      Reads heap m p a → Reads heap k q b → a.NoReals → a.order true = b.order true
  | 0, _, _, _, _, _, _, h, _, _, _ => by cases h
  | _ + 1, 0, _, _, _, _, _, _, ha, _, _ => ha.elim
  | _ + 1, _ + 1, 0, _, _, _, _, _, _, hb, _ => hb.elim
  | n + 1, m + 1, k + 1, p, q, a, b, h, ha, hb, hreal => by
    have ih : ∀ {p q : Ref} {a b : Json R}, jsonEqual heap realEq n p q = some true →
        Reads heap m p a → Reads heap k q b → a.NoReals → a.order true = b.order true :=
      order_eq_of_jsonEqual hok n
    rcases jsonEqual_cases h with rfl | ⟨i, j, rfl, rfl, hnode⟩
    · rw [ha.unique hb]
    rcases hnode with ⟨ms, ns, hi, hj, hlen, heq⟩ | ⟨ps, qs, hi, hj, hlen, heq⟩ | ⟨s, hi, hj⟩ |
      ⟨c, hi, hj⟩ | ⟨r, hi⟩
    · obtain ⟨vs, rfl, hvs⟩ := ha.object hi
      obtain ⟨ws, rfl, hws⟩ := hb.object hj
      have hget := objectEqual_eq_true heq
      have hperm := perm_of_keys (hok.nodup hi) hlen fun m hm =>
        (hget m hm).imp fun _ hq => hq.1
      rw [hvs.keys, hws.keys] at hperm
      have hkeys : ∀ us : List (Bytes × Json R),
          (us.map fun u => (u.1, u.2.order true)).map Prod.fst = us.map Prod.fst := by
        intro us
        rw [List.map_map]
        rfl
      rw [Json.order, Json.order, if_pos rfl, if_pos rfl, orderMembers_eq, orderMembers_eq]
      refine congrArg Json.object (byKeys_congr ?_ ?_)
      · rw [hkeys, hkeys]
        exact hperm
      · intro key hkey
        rw [hkeys, ← hvs.keys] at hkey
        obtain ⟨p, hp⟩ := exists_objectGet hkey
        obtain ⟨q, hq, hpq⟩ := hget _ (mem_of_objectGet hp)
        obtain ⟨v, hv, hpv⟩ := hvs.get_some hp
        obtain ⟨w, hw, hqw⟩ := hws.get_some hq
        have hvreal := (everyMember_iff.1 hreal _ (mem_of_objectGet hv)).2
        rw [objectGet_map, objectGet_map, hv, hw, Option.map_some, Option.map_some,
          ih hpq hpv hqw hvreal]
    · obtain ⟨vs, rfl, hvs⟩ := ha.array hi
      obtain ⟨ws, rfl, hws⟩ := hb.array hj
      have hpq := arrayEqual_eq_true heq hlen
      rw [Json.order, Json.order, orderElems_eq, orderElems_eq]
      have hvreal := everyElem_iff.1 hreal
      clear heq hlen hreal h ha hb hi hj
      congr 1
      induction hpq generalizing vs ws with
      | nil =>
        cases hvs
        cases hws
        rfl
      | cons hpq _ ihl =>
        cases hvs with
        | cons hv hvs =>
          cases hws with
          | cons hw hws =>
            obtain ⟨hreal, hvreal⟩ := List.forall_mem_cons.1 hvreal
            rw [List.map_cons, List.map_cons, ih hpq hv hw hreal, ihl _ hvs _ hws hvreal]
    · rw [Reads, hi] at ha
      rw [Reads, hj] at hb
      rw [show a = .string s from ha, show b = .string s from hb]
    · rw [Reads, hi] at ha
      rw [Reads, hj] at hb
      rw [show a = .integer c from ha, show b = .integer c from hb]
    · rw [Reads, hi] at ha
      rw [show a = .real r from ha] at hreal
      exact absurd rfl (hreal r)

/-! ## Equal dumps -/

variable {dtostr : Nat → R → Option Bytes} {flags : DumpFlags}

theorem parents_nil (d : Nat) : Parents heap [] d where
  nodup := List.nodup_nil
  mem := fun _ hq => by cases hq
  deep := fun _ hq => by cases hq

/-- The kind of a tree is seen in memory. -/
theorem isContainer_iff {p : Ref} (h : Denotes heap p v) :
    isContainer heap p = true ↔ v.IsContainer := by
  obtain ⟨_ | n, h⟩ := h
  · exact h.elim
  rcases h.cases with ⟨rfl, rfl⟩ | ⟨rfl, rfl⟩ | ⟨rfl, rfl⟩ | ⟨i, rfl, hi⟩
  · exact iff_of_false (by simp [isContainer, jsonTypeof]) id
  · exact iff_of_false (by simp [isContainer, jsonTypeof]) id
  · exact iff_of_false (by simp [isContainer, jsonTypeof]) id
  · rcases hi with ⟨s, hi, rfl⟩ | ⟨k, hi, rfl⟩ | ⟨r, hi, rfl⟩ | ⟨refs, vs, hi, rfl, -⟩ |
      ⟨ms, vs, hi, rfl, -⟩
    · exact iff_of_false (by simp [isContainer, jsonTypeof, hi]) id
    · exact iff_of_false (by simp [isContainer, jsonTypeof, hi]) id
    · exact iff_of_false (by simp [isContainer, jsonTypeof, hi]) id
    · exact iff_of_true (by simp [isContainer, jsonTypeof, hi]) trivial
    · exact iff_of_true (by simp [isContainer, jsonTypeof, hi]) trivial

/-- The steps of `json_dump_callback`. -/
theorem jsonDumpCallback_sim {σ : Type} (dump : Callback σ) (dtostr : Nat → R → Option Bytes) {p : Ref}
    (h : Denotes heap p v) (hany : flags.encodeAny = true ∨ v.IsContainer) :
    Sim dump (jsonDumpCallback heap dtostr dump flags p)
      (script dtostr { flags with embed := false } flags.embed 0 (v.order flags.sortKeys)) := by
  have hno : ¬(!flags.encodeAny && !isContainer heap p) = true := by
    rw [← isContainer_iff h] at hany
    rcases hany with hany | hany <;> simp [hany]
  obtain ⟨m, hm⟩ := h
  rw [jsonDumpCallback, if_neg hno]
  exact doDump_sim dtostr m hm (parents_nil _) (by simp)

/-- A value that is not dumped. -/
theorem jsonDumpCallback_scalar {σ : Type} {dump : Callback σ} {p : Ref}
    (h : Denotes heap p v) (hany : ¬(flags.encodeAny = true ∨ v.IsContainer)) :
    jsonDumpCallback heap dtostr dump flags p = giveBack (-1) := by
  rw [← isContainer_iff h, not_or] at hany
  rw [jsonDumpCallback, if_pos (by simp [hany])]

theorem order_isContainer (sort : Bool) (v : Json R) :
    (v.order sort).IsContainer ↔ v.IsContainer := by
  cases v <;> rw [Json.order] <;> exact Iff.rfl

theorem jsonDumps_congr {p q : Ref} {a b : Json R} (ha : Denotes heap p a) (hb : Denotes heap q b)
    (h : a.order flags.sortKeys = b.order flags.sortKeys) :
    jsonDumps heap dtostr flags p = jsonDumps heap dtostr flags q := by
  have hcont : a.IsContainer ↔ b.IsContainer := by
    rw [← order_isContainer flags.sortKeys a, h, order_isContainer]
  unfold jsonDumps
  by_cases hany : flags.encodeAny = true ∨ a.IsContainer
  · obtain ⟨ha₁, ha₂⟩ := jsonDumpCallback_sim dumpToStrbuffer dtostr ha hany []
    rw [hcont] at hany
    obtain ⟨hb₁, hb₂⟩ := jsonDumpCallback_sim dumpToStrbuffer dtostr hb hany []
    rw [h, ← hb₂] at ha₂
    rw [h, ← hb₁] at ha₁
    dsimp only
    rw [ha₁]
    simp only [ha₂]
  · rw [jsonDumpCallback_scalar ha hany, jsonDumpCallback_scalar hb (by rwa [hcont] at hany)]

/-- **Canonical dumps.** -/
theorem jsonDumps_canonical (hok : heap.Ok) {realEq : R → R → Bool} {n : Nat} {p q : Ref}
    {a b : Json R} (ha : Denotes heap p a) (hb : Denotes heap q b) (hreal : a.NoReals)
    (heq : jsonEqual heap realEq n p q = some true) (hsort : flags.sortKeys = true) :
    jsonDumps heap dtostr flags p = jsonDumps heap dtostr flags q := by
  refine jsonDumps_congr ha hb ?_
  obtain ⟨m, ha⟩ := ha
  obtain ⟨k, hb⟩ := hb
  rw [hsort]
  exact order_eq_of_jsonEqual hok n heq ha hb hreal

/-- Two objects with the keys `a` and `b`, inserted in either order. -/
def twoOrders : Heap Unit :=
  [.object [(ascii "a", .node 2), (ascii "b", .true)],
    .object [(ascii "b", .true), (ascii "a", .node 2)], .integer 1]

theorem jsonDumps_canonical_twoOrders :
    jsonDumps twoOrders (fun _ _ => none) { sortKeys := true } (.node 0) =
      jsonDumps twoOrders (fun _ _ => none) { sortKeys := true } (.node 1) := by
  have hok : twoOrders.Ok := by
    intro ms hms
    have h₁ : Built (objectSet (ascii "b") .true (objectSet (ascii "a") (Ref.node 2) [])) :=
      Built.set (Built.set Built.empty)
    have h₂ : Built (objectSet (ascii "a") (.node 2) (objectSet (ascii "b") Ref.true [])) :=
      Built.set (Built.set Built.empty)
    simp only [twoOrders, List.mem_cons, Node.object.injEq, List.not_mem_nil, reduceCtorEq,
      or_false] at hms
    rcases hms with rfl | rfl
    · exact h₁
    · exact h₂
  have ha : Denotes twoOrders (.node 0)
      (.object [(ascii "a", .integer 1), (ascii "b", .true)]) :=
    ⟨2, _, rfl, .cons ⟨rfl, rfl⟩ (.cons ⟨rfl, rfl⟩ .nil)⟩
  have hb : Denotes twoOrders (.node 1)
      (.object [(ascii "b", .true), (ascii "a", .integer 1)]) :=
    ⟨2, _, rfl, .cons ⟨rfl, rfl⟩ (.cons ⟨rfl, rfl⟩ .nil)⟩
  have hreal : Json.NoReals (R := Unit) (.object [(ascii "a", .integer 1), (ascii "b", .true)]) := by
    simp [Json.NoReals, Json.Every, everyMember]
  have heq : jsonEqual twoOrders (fun _ _ => false) 2 (.node 0) (.node 1) = some true := by decide
  exact jsonDumps_canonical hok ha hb hreal heq rfl

end

end Jansson
