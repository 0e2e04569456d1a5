/-
  `json_deep_copy`. The copies are new nodes behind those of the heap. Allocation succeeds; what
  `json_decref` frees after a failure stays as a node that nothing refers to.
-/
import IotLib.Jansson.DumpLoop

namespace Jansson

section
variable {R : Type}

/-! ## Copying -/

/-- What a copy works on -/
structure CopyState (R : Type) where
  parents : LoopSet
  heap : Heap R

/-- A new node -/
def CopyState.alloc (s : CopyState R) (node : Node R) : Ref × CopyState R :=
  (.node s.heap.length, { s with heap := s.heap ++ [node] })

/-- `json_array_append_new`, none for -1 -/
def jsonArrayAppendNew (heap : Heap R) (json : ℕ) (value : Option Ref) : Option (Heap R) := do
  let value ← value
  match heap[json]? with
  | some (.array elems) =>
    if value = .node json then none else some (heap.set json (.array (elems ++ [value])))
  | _ => none

/-- `json_object_setn_new_nocheck`, none for -1 -/
def jsonObjectSetNew (heap : Heap R) (json : ℕ) (key : Bytes) (value : Option Ref) :
    Option (Heap R) := do
  let value ← value
  match heap[json]? with
  | some (.object members) =>
    if value = .node json then none
    else some (heap.set json (.object (objectSet key value members)))
  | _ => none

/-- The loops over elements and over members: each copy is put into the result, `false` after a
    failure. -/
def copyInto {α : Type} (put : Heap R → α → Option Ref → Option (Heap R)) (value : α → Ref)
    (copy : Ref → CopyState R → Option (Option Ref × CopyState R)) :
    List α → CopyState R → Option (Bool × CopyState R)
  | [], s => some (true, s)
  | x :: xs, s => do
    let (result, s) ← copy (value x) s
    match put s.heap x result with
    | none => return (false, s)
    | some heap => copyInto put value copy xs { s with heap }

variable (address : ℕ → UInt64)

/-- `json_array_deep_copy` and `json_object_deep_copy`: the check, the new container, its
    elements or members, and the release on each way out behind the check -/
def deepCopyContainer {α : Type} (i : ℕ) (empty : Node R)
    (put : ℕ → Heap R → α → Option Ref → Option (Heap R)) (value : α → Ref)
    (copy : Ref → CopyState R → Option (Option Ref × CopyState R)) (items : List α)
    (s : CopyState R) : Option (Option Ref × CopyState R) :=
  let key := pointerText (address i)
  match jsonpLoopCheck s.parents key with
  | none => some (none, s)
  | some parents => do
    let result := s.heap.length
    let (done, s) ← copyInto (put result) value copy items
      { parents, heap := s.heap ++ [empty] }
    return (if done then some (.node result) else none,
      { s with parents := objectDel key s.parents })

/-- `do_deep_copy`, with at most `n` nested calls; none when they do not suffice, and `some none`
    for `NULL`. -/
def doDeepCopy : ℕ → Ref → CopyState R → Option (Option Ref × CopyState R)
  | 0, _, _ => none
  | n + 1, json, s =>
    match json with
    | .node i =>
      match s.heap[i]? with
      | none => some (none, s)
      | some (.object members) =>
        deepCopyContainer address i (.object [])
          (fun result heap m => jsonObjectSetNew heap result m.1) Prod.snd (doDeepCopy n) members s
      | some (.array elems) =>
        deepCopyContainer address i (.array []) (fun result heap _ => jsonArrayAppendNew heap result)
          id (doDeepCopy n) elems s
      | some (.string value) =>
        let (json, s) := s.alloc (.string value)
        some (some json, s)
      | some (.integer value) =>
        let (json, s) := s.alloc (.integer value)
        some (some json, s)
      | some (.real value) =>
        let (json, s) := s.alloc (.real value)
        some (some json, s)
    | json => some (some json, s)

/-- `json_deep_copy`, with the heap after it -/
def jsonDeepCopy (n : ℕ) (heap : Heap R) (json : Ref) : Option (Option Ref × Heap R) := do
  let (result, s) ← doDeepCopy address n json ⟨[], heap⟩
  return (result, s.heap)

end

/-! ## Copies -/

section
variable {R : Type} {heap base heap₁ heap₂ : Heap R} {L r : ℕ}

/-- A singleton, or a node from `L` on -/
def Ref.From (L : ℕ) : Ref → Prop
  | .node i => L ≤ i
  | _ => True

theorem Ref.From.mono {L' : ℕ} {q : Ref} (h : q.From L) (hle : L' ≤ L) : q.From L' := by
  cases q with
  | node i => exact hle.trans h
  | _ => trivial

/-- The nodes from `L` on refer to such. -/
def Heap.FreshFrom (heap : Heap R) (L : ℕ) : Prop :=
  ∀ i node, L ≤ i → heap[i]? = some node → ∀ q ∈ node.children, q.From L

/-- A reference to a new tree, which is that of another reference -/
def CopyOf (heap heap' : Heap R) (L : ℕ) (p q : Ref) : Prop :=
  q.From L ∧ ∃ n v, Reads heap n p v ∧ Reads heap' n q v

/-- A copy stays one as long as its nodes stay. -/
theorem CopyOf.transfer {p q : Ref} (h : CopyOf heap heap₁ L p q) (hfresh : heap₁.FreshFrom L)
    (hsame : ∀ i node, L ≤ i → heap₁[i]? = some node → heap₂[i]? = some node) :
    CopyOf heap heap₂ L p q := by
  obtain ⟨hq, n, v, hp, hv⟩ := h
  refine ⟨hq, n, v, hp, hv.transfer (S := Ref.From L) (fun i node hi hnode => ?_) le_rfl hq⟩
  exact ⟨hsame i node hi hnode, hfresh i node hi hnode⟩

theorem getElem?_of_prefix (h : heap₁ <+: heap₂) {i : ℕ} {node : Node R}
    (hi : heap₁[i]? = some node) : heap₂[i]? = some node := by
  obtain ⟨rest, rfl⟩ := h
  rw [List.getElem?_append_left (List.getElem?_eq_some_iff.1 hi).1, hi]

theorem prefix_set (h : base <+: heap₁) (hr : base.length ≤ r) (node : Node R) :
    base <+: heap₁.set r node := by
  rw [List.prefix_iff_eq_take] at h ⊢
  rw [List.take_set_of_le hr, ← h]

/-- What a call behind the containers of a path does: it fails when a cycle is below, and else
    gives a copy. -/
def CopySpec (heap : Heap R) (parents : LoopSet) (path : List Ref)
    (copy : CopyState R → Option (Option Ref × CopyState R)) (p : Ref) : Prop :=
  ∀ s, s.parents = parents → heap <+: s.heap →
    ∃ result s', copy s = some (result, s') ∧ s'.parents = parents ∧ s.heap <+: s'.heap ∧
      (result = none → Descent.Blocked heap.Child path p) ∧
      ∀ q, result = some q → ¬Descent.Blocked heap.Child path p ∧
        s'.heap.FreshFrom s.heap.length ∧ CopyOf heap s'.heap s.heap.length p q

/-- The copies of the first items are put into the node `r`, one after the other. -/
structure Puts {α : Type} (put : Heap R → α → Option Ref → Option (Heap R)) (r : ℕ)
    (mk : List α → List Ref → Node R) (items : List α) : Prop where
  fail : ∀ h x, put h x none = none
  put : ∀ h before x rest qs q, before ++ x :: rest = items → before.length = qs.length →
    h[r]? = some (mk before qs) → q ≠ .node r →
    put h x (some q) = some (h.set r (mk (before ++ [x]) (qs ++ [q])))

theorem copyInto_copies {α : Type} {put : Heap R → α → Option Ref → Option (Heap R)}
    {value : α → Ref} {copy : Ref → CopyState R → Option (Option Ref × CopyState R)}
    {mk : List α → List Ref → Node R} {items : List α} {parents : LoopSet} {path : List Ref}
    (hput : Puts put r mk items)
    (hcopy : ∀ x ∈ items, CopySpec heap parents path (copy (value x)) (value x))
    (hheap : heap <+: base)
    (hr : base.length = r) :
    ∀ {rest before : List α} {qs : List Ref} {s : CopyState R}, before ++ rest = items →
    s.parents = parents → base <+: s.heap → s.heap[r]? = some (mk before qs) →
    s.heap.FreshFrom (r + 1) →
    List.Forall₂ (fun x q => CopyOf heap s.heap (r + 1) (value x) q) before qs →
    ∃ done s', copyInto put value copy rest s = some (done, s') ∧ s'.parents = parents ∧
      base <+: s'.heap ∧
      (done = false → ∃ x ∈ items, Descent.Blocked heap.Child path (value x)) ∧
      (done = true → (∀ x ∈ rest, ¬Descent.Blocked heap.Child path (value x)) ∧
        s'.heap.FreshFrom (r + 1) ∧ ∃ qs', s'.heap[r]? = some (mk items qs') ∧
          List.Forall₂ (fun x q => CopyOf heap s'.heap (r + 1) (value x) q) items qs')
  | [], before, qs, s, hall, hparents, hbase, hnode, hfresh, hqs => by
    rw [List.append_nil] at hall
    subst hall
    exact ⟨true, s, rfl, hparents, hbase, nofun, fun _ => ⟨nofun, hfresh, qs, hnode, hqs⟩⟩
  | x :: rest, before, qs, s, hall, hparents, hbase, hnode, hfresh, hqs => by
    have hx : x ∈ items := hall ▸ List.mem_append_right before List.mem_cons_self
    have hrs : r + 1 ≤ s.heap.length := (List.getElem?_eq_some_iff.1 hnode).1
    obtain ⟨result, s₁, hcall, hparents₁, hpre, hfail, hok⟩ :=
      hcopy x hx s hparents (hheap.trans hbase)
    rw [copyInto, hcall]
    cases result with
    | none =>
      refine ⟨false, s₁, ?_, hparents₁, hbase.trans hpre, fun _ => ⟨x, hx, hfail rfl⟩, nofun⟩
      simp only [Option.bind_eq_bind, Option.bind_some, hput.fail]
      rfl
    | some q =>
      obtain ⟨hfree, hfresh₁, hcopy₁⟩ := hok q rfl
      have hnode₁ := getElem?_of_prefix hpre hnode
      have hq : q ≠ .node r := by
        rintro rfl
        have hle : s.heap.length ≤ r := hcopy₁.1
        omega
      have hset := hput.put s₁.heap before x rest qs q hall hqs.length_eq hnode₁ hq
      -- the nodes behind the result, before and after the copy is put into it
      have hfresh₂ : s₁.heap.FreshFrom (r + 1) := by
        intro i node hi hi' c hc
        by_cases hlt : i < s.heap.length
        · refine hfresh i node hi ?_ c hc
          obtain ⟨more, hmore⟩ := hpre
          rw [← hi', ← hmore, List.getElem?_append_left hlt]
        · exact (hfresh₁ i node (by omega) hi' c hc).mono hrs
      have hkeep : ∀ i node, r + 1 ≤ i → s₁.heap[i]? = some node →
          (s₁.heap.set r (mk (before ++ [x]) (qs ++ [q])))[i]? = some node := by
        intro i node hi hi'
        rw [List.getElem?_set_ne (by omega), hi']
      have hqs₁ : List.Forall₂ (fun y c => CopyOf heap
          (s₁.heap.set r (mk (before ++ [x]) (qs ++ [q]))) (r + 1) (value y) c)
          (before ++ [x]) (qs ++ [q]) := by
        refine List.rel_append ?_ (.cons ?_ .nil)
        · refine hqs.imp fun y c h => ?_
          exact (h.transfer hfresh fun i node _ => getElem?_of_prefix hpre).transfer hfresh₂ hkeep
        · have hcopy₂ : CopyOf heap s₁.heap (r + 1) (value x) q := ⟨hcopy₁.1.mono hrs, hcopy₁.2⟩
          exact hcopy₂.transfer hfresh₂ hkeep
      have hlen₁ : r < s₁.heap.length := (List.getElem?_eq_some_iff.1 hnode₁).1
      obtain ⟨done, s', hloop, hparents', hbase', hfail', hok'⟩ :=
        copyInto_copies (s := { s₁ with heap := s₁.heap.set r (mk (before ++ [x]) (qs ++ [q])) })
          hput hcopy hheap hr ((List.append_cons before x rest).symm.trans hall) hparents₁
          (prefix_set (hbase.trans hpre) hr.le _) (List.getElem?_set_self hlen₁)
          (fun i node hi hi' => hfresh₂ i node hi (by rwa [List.getElem?_set_ne (by omega)] at hi'))
          hqs₁
      refine ⟨done, s', ?_, hparents', hbase', hfail', fun hdone => ?_⟩
      · simp only [Option.bind_eq_bind, Option.bind_some, hset]
        exact hloop
      · obtain ⟨hfree', hrest⟩ := hok' hdone
        exact ⟨List.forall_mem_cons.2 ⟨hfree, hfree'⟩, hrest⟩

/-- The trees of copies -/
theorem exists_copied {α : Type} {value : α → Ref} {items : List α} {qs : List Ref}
    (h : List.Forall₂ (fun x q => CopyOf heap heap₁ L (value x) q) items qs) :
    ∃ n vs, List.Forall₂ (fun x v => Reads heap n (value x) v) items vs ∧
      List.Forall₂ (Reads heap₁ n) qs vs := by
  induction h with
  | nil => exact ⟨0, [], .nil, .nil⟩
  | cons hx _ ih =>
    obtain ⟨-, n, v, hp, hq⟩ := hx
    obtain ⟨m, vs, hvs, hws⟩ := ih
    refine ⟨max n m, v :: vs, .cons ?_ (hvs.imp fun _ _ h => ?_),
      .cons ?_ (hws.imp fun _ _ h => ?_)⟩
    · exact hp.mono (List.prefix_refl _) (Nat.le_max_left _ _)
    · exact h.mono (List.prefix_refl _) (Nat.le_max_right _ _)
    · exact hq.mono (List.prefix_refl _) (Nat.le_max_left _ _)
    · exact h.mono (List.prefix_refl _) (Nat.le_max_right _ _)

variable {address : ℕ → UInt64} {parents : LoopSet} {path : List Ref} {i : ℕ}

/-- How a container of the heap is copied: its items are what it refers to, and the node that
    has their copies stands for the same tree. -/
structure Copies {α : Type} (heap : Heap R) (i : ℕ) (empty : Node R)
    (put : ℕ → Heap R → α → Option Ref → Option (Heap R)) (value : α → Ref)
    (mk : List α → List Ref → Node R) (items : List α) : Prop where
  child : ∀ q, heap.Child (.node i) q ↔ ∃ x ∈ items, value x = q
  empty : mk [] [] = empty
  puts : ∀ r, Puts (put r) r mk items
  children : ∀ qs, items.length = qs.length → ∀ q ∈ (mk items qs).children, q ∈ qs
  reads : ∀ (heap' : Heap R) r qs n vs, heap'[r]? = some (mk items qs) →
    List.Forall₂ (fun x v => Reads heap n (value x) v) items vs →
    List.Forall₂ (Reads heap' n) qs vs →
    ∃ v, Reads heap (n + 1) (.node i) v ∧ Reads heap' (n + 1) (.node r) v

theorem deepCopyContainer_copies {α : Type} {empty : Node R}
    {put : ℕ → Heap R → α → Option Ref → Option (Heap R)} {value : α → Ref}
    {copy : Ref → CopyState R → Option (Option Ref × CopyState R)}
    {mk : List α → List Ref → Node R} {items : List α} (h : Ancestors address heap parents path)
    (hinj : ∀ i < heap.length, ∀ j < heap.length, address i = address j → i = j)
    (hi : i < heap.length) (hcontainer : isContainer heap (.node i) = true)
    (hcopies : Copies heap i empty put value mk items)
    (hcopy : ∀ parents', Ancestors address heap parents' (.node i :: path) → .node i ∉ path →
      ∀ x ∈ items, CopySpec heap parents' (.node i :: path) (copy (value x)) (value x)) :
    CopySpec heap parents path (deepCopyContainer address i empty put value copy items)
      (.node i) := by
  intro s hs hheap
  rw [deepCopyContainer, hs]
  by_cases hmem : Ref.node i ∈ path
  · rw [h.check_mem hi hmem]
    exact ⟨none, s, rfl, hs, List.prefix_refl _, fun _ => Descent.blocked_of_mem hmem, nofun⟩
  obtain ⟨parents', hcheck, h'⟩ := h.check_new hinj hi hcontainer hmem
  have hfresh : (s.heap ++ [empty]).FreshFrom (s.heap.length + 1) := by
    intro j node hj hj'
    rw [List.getElem?_eq_none (by simpa using hj)] at hj'
    cases hj'
  have hnode : (s.heap ++ [empty])[s.heap.length]? = some (mk [] []) := by
    rw [List.getElem?_concat_length, hcopies.empty]
  obtain ⟨done, s', hloop, hparents, hbase, hfail, hok⟩ :=
    copyInto_copies (s := ⟨parents', s.heap ++ [empty]⟩) (hcopies.puts s.heap.length)
      (hcopy parents' h' hmem) hheap rfl (List.nil_append items) rfl (List.prefix_append _ _) hnode
      hfresh .nil
  have hrun : deepCopyContainer address i empty put value copy items s =
      some (if done then some (.node s.heap.length) else none,
        { s' with parents := objectDel (pointerText (address i)) s'.parents }) := by
    rw [deepCopyContainer, hs, hcheck]
    simp only [Option.bind_eq_bind, hloop, Option.bind_some]
    rfl
  rw [deepCopyContainer, hs] at hrun
  refine ⟨_, _, hrun, ?_, hbase, fun hnone => ?_, fun q hq => ?_⟩
  · show objectDel _ s'.parents = parents
    rw [hparents, objectDel_loopCheck hcheck]
  · cases done with
    | true => cases hnone
    | false =>
      obtain ⟨x, hx, hblocked⟩ := hfail rfl
      exact (Descent.blocked_iff hmem).2 ⟨value x, (hcopies.child _).2 ⟨x, hx, rfl⟩, hblocked⟩
  · cases done with
    | false => cases hq
    | true =>
      obtain rfl := Option.some.inj hq
      obtain ⟨hfree, hfresh', qs, hnode', hqs⟩ := hok rfl
      refine ⟨?_, ?_, le_rfl, ?_⟩
      · rw [Descent.blocked_iff hmem]
        rintro ⟨c, hc, hblocked⟩
        obtain ⟨x, hx, rfl⟩ := (hcopies.child c).1 hc
        exact hfree x hx hblocked
      · intro j node hj hj' c hc
        rcases Nat.eq_or_lt_of_le hj with rfl | hlt
        · obtain rfl := Option.some.inj (hnode'.symm.trans hj')
          have hmem' := hcopies.children qs hqs.length_eq c hc
          obtain ⟨x, -, hcopy'⟩ := forall₂_mem_right hqs hmem'
          exact hcopy'.1.mono (Nat.le_succ _)
        · exact (hfresh' j node hlt hj' c hc).mono (Nat.le_succ _)
      · obtain ⟨n, vs, hvs, hws⟩ := exists_copied hqs
        obtain ⟨v, hv, hw⟩ := hcopies.reads s'.heap s.heap.length qs n vs hnode' hvs hws
        exact ⟨n + 1, v, hv, hw⟩

/-- `json_array_deep_copy` -/
theorem copies_array {ps : List Ref} (hi : heap[i]? = some (.array ps)) :
    Copies heap i (.array []) (fun result heap _ => jsonArrayAppendNew heap result) id
      (fun _ qs => .array qs) ps where
  child := by
    intro q
    simp [Heap.Child, hi, Node.children]
  empty := rfl
  puts r := by
    refine ⟨fun _ _ => rfl, fun h before x rest qs q _ _ hnode hq => ?_⟩
    simp only [jsonArrayAppendNew, Option.bind_eq_bind, Option.bind_some, hnode]
    rw [if_neg hq]
  children := fun _ _ _ => id
  reads := by
    intro heap' r qs n vs hnode hps hqs
    refine ⟨.array vs, ?_, ?_⟩
    · rw [Reads, hi]
      exact ⟨vs, rfl, hps⟩
    · rw [Reads, hnode]
      exact ⟨vs, rfl, hqs⟩

/-- The members with other values -/
def withValues {α β : Type} : List (Bytes × α) → List β → List (Bytes × β)
  | m :: ms, v :: vs => (m.1, v) :: withValues ms vs
  | _, _ => []

theorem withValues_keys {α β : Type} : ∀ {ms : List (Bytes × α)} {vs : List β},
    ms.length = vs.length → (withValues ms vs).map Prod.fst = ms.map Prod.fst
  | [], _, _ => rfl
  | m :: _, _ :: _, h => congrArg (m.1 :: ·) (withValues_keys (Nat.succ.inj h))

theorem withValues_values {α β : Type} : ∀ {ms : List (Bytes × α)} {vs : List β},
    ms.length = vs.length → (withValues ms vs).map Prod.snd = vs
  | [], [], _ => rfl
  | _ :: _, v :: _, h => congrArg (v :: ·) (withValues_values (Nat.succ.inj h))

theorem withValues_append {α β : Type} {m : Bytes × α} {v : β} :
    ∀ {ms : List (Bytes × α)} {vs : List β}, ms.length = vs.length →
      withValues (ms ++ [m]) (vs ++ [v]) = withValues ms vs ++ [(m.1, v)]
  | [], [], _ => rfl
  | m' :: _, v' :: _, h => congrArg ((m'.1, v') :: ·) (withValues_append (Nat.succ.inj h))

theorem sameKeys_withValues {α β : Type} {A : α → β → Prop} {ms : List (Bytes × α)} {vs : List β}
    (h : List.Forall₂ (fun m v => A m.2 v) ms vs) : SameKeys A ms (withValues ms vs) := by
  induction h with
  | nil => exact .nil
  | cons hm _ ih => exact .cons ⟨rfl, hm⟩ ih

theorem withValues_sameKeys {α β γ : Type} {A : β → γ → Prop} {vs : List β} {ws : List γ}
    (h : List.Forall₂ A vs ws) (ms : List (Bytes × α)) :
    SameKeys A (withValues ms vs) (withValues ms ws) := by
  induction h generalizing ms with
  | nil => cases ms <;> exact .nil
  | cons hv _ ih =>
    cases ms with
    | nil => exact .nil
    | cons m ms => exact .cons ⟨rfl, hv⟩ (ih ms)

/-- `json_object_deep_copy` -/
theorem copies_object {ms : List (Bytes × Ref)} (hi : heap[i]? = some (.object ms))
    (hnodup : (ms.map Prod.fst).Nodup) :
    Copies heap i (.object []) (fun result heap m => jsonObjectSetNew heap result m.1) Prod.snd
      (fun ms qs => .object (withValues ms qs)) ms where
  child := by
    intro q
    simp [Heap.Child, hi, Node.children]
  empty := rfl
  puts r := by
    refine ⟨fun _ _ => rfl, fun h before x rest qs q hall hlen hnode hq => ?_⟩
    have hfresh : x.1 ∉ (withValues before qs).map Prod.fst := by
      rw [withValues_keys hlen]
      rw [← hall, List.map_append, List.map_cons] at hnodup
      exact fun hmem => (List.nodup_append.1 hnodup).2.2 x.1 hmem x.1 List.mem_cons_self rfl
    simp only [jsonObjectSetNew, Option.bind_eq_bind, Option.bind_some, hnode]
    rw [if_neg hq, objectSet_fresh hfresh, withValues_append hlen]
  children := by
    intro qs hlen q hq
    rw [Node.children, withValues_values hlen] at hq
    exact hq
  reads := by
    intro heap' r qs n vs hnode hps hqs
    refine ⟨.object (withValues ms vs), ?_, ?_⟩
    · rw [Reads, hi]
      exact ⟨_, rfl, sameKeys_withValues hps⟩
    · rw [Reads, hnode]
      exact ⟨_, rfl, withValues_sameKeys hqs ms⟩

theorem isContainer_of_child {p q : Ref} (h : heap.Child p q) : isContainer heap p = true := by
  obtain ⟨i, node, rfl, hi, hq⟩ := h
  cases node with
  | object ms => simp [isContainer, jsonTypeof, hi]
  | array ps => simp [isContainer, jsonTypeof, hi]
  | _ => cases hq

/-- What is no container is not blocked. -/
theorem not_blocked_of_atom (h : Above heap path) {p : Ref} (hp : isContainer heap p = false) :
    ¬Descent.Blocked heap.Child path p := by
  refine Descent.not_blocked_of_leaf (fun hmem => ?_) fun q hq => ?_
  · obtain ⟨i, -, -, hcontainer⟩ := h.containers p hmem
    rw [hp] at hcontainer
    cases hcontainer
  · rw [isContainer_of_child hq] at hp
    cases hp

theorem CopySpec.congr {f g : CopyState R → Option (Option Ref × CopyState R)} {p : Ref}
    (h : CopySpec heap parents path f p) (heq : ∀ s, heap <+: s.heap → g s = f s) :
    CopySpec heap parents path g p := by
  intro s hs hheap
  rw [heq s hheap]
  exact h s hs hheap

/-- A singleton is its own copy. -/
theorem copySpec_singleton (h : Above heap path) {p : Ref} (hp : isContainer heap p = false)
    (hfrom : ∀ L, p.From L) (hreads : ∃ v, ∀ heap' : Heap R, Reads heap' 1 p v) :
    CopySpec heap parents path (fun s => some (some p, s)) p := by
  intro s hs hheap
  refine ⟨_, _, rfl, hs, List.prefix_refl _, nofun, ?_⟩
  rintro q ⟨⟩
  obtain ⟨v, hv⟩ := hreads
  refine ⟨not_blocked_of_atom h hp, fun j node hj hj' => ?_, hfrom _, 1, v, hv _, hv _⟩
  rw [List.getElem?_eq_none hj] at hj'
  cases hj'

/-- A string or a number is copied to a new node. -/
theorem copySpec_alloc (h : Above heap path) {node : Node R} (hi : heap[i]? = some node)
    (hatom : isContainer heap (.node i) = false)
    (hreads : ∀ (heap' : Heap R) j, heap'[j]? = some node →
      ∃ v, Reads heap 1 (.node i) v ∧ Reads heap' 1 (.node j) v) :
    CopySpec heap parents path (fun s => some (some (s.alloc node).1, (s.alloc node).2))
      (.node i) := by
  intro s hs hheap
  refine ⟨_, _, rfl, hs, List.prefix_append _ _, nofun, ?_⟩
  rintro q ⟨⟩
  have hnode : (s.heap ++ [node])[s.heap.length]? = some node := List.getElem?_concat_length
  refine ⟨not_blocked_of_atom h hatom, fun j node' hj hj' c hc => ?_, le_rfl, 1,
    hreads _ _ hnode⟩
  -- the new node refers to nothing
  have hleaf : ∀ c, c ∉ node.children := fun c hc => by
    have hchild := isContainer_of_child ⟨i, node, rfl, hi, hc⟩
    rw [hatom] at hchild
    cases hchild
  rcases Nat.eq_or_lt_of_le hj with rfl | hlt
  · obtain rfl := Option.some.inj (hnode.symm.trans hj')
    exact absurd hc (hleaf c)
  · change (s.heap ++ [node])[j]? = some node' at hj'
    rw [List.getElem?_eq_none (by simpa using hlt)] at hj'
    cases hj'

/-- **`do_deep_copy`** fails when a cycle is below or a container that it is in, and else gives
    a copy; it leaves the set as it was. -/
theorem doDeepCopy_copies (hok : heap.Ok) (hclosed : heap.Closed)
    (hinj : ∀ i < heap.length, ∀ j < heap.length, address i = address j → i = j) :
    ∀ {n : ℕ} {parents : LoopSet} {path : List Ref} {p : Ref},
    Ancestors address heap parents path → heap.length < n + path.length → heap.Valid p →
    CopySpec heap parents path (doDeepCopy address n p) p
  | 0, _, path, _, h, hn, _ => by
    have hle := h.length_le
    omega
  | n + 1, parents, path, p, h, hn, hp => by
    have hinside : ∀ {i : ℕ} {parents' : LoopSet},
        Ancestors address heap parents' (.node i :: path) →
        ∀ q, heap.Child (.node i) q →
          CopySpec heap parents' (.node i :: path) (doDeepCopy address n q) q := by
      intro i parents' h' q hq
      refine doDeepCopy_copies hok hclosed hinj h' ?_ (hclosed _ q hq)
      rw [List.length_cons]
      omega
    cases p with
    | true => exact copySpec_singleton h.toAbove rfl (fun _ => trivial) ⟨.true, fun _ => rfl⟩
    | false => exact copySpec_singleton h.toAbove rfl (fun _ => trivial) ⟨.false, fun _ => rfl⟩
    | null => exact copySpec_singleton h.toAbove rfl (fun _ => trivial) ⟨.null, fun _ => rfl⟩
    | node i =>
      have hi : i < heap.length := hp
      have hnode : heap[i]? = some heap[i] := List.getElem?_eq_getElem hi
      generalize heap[i] = node at hnode
      have hsame : ∀ s : CopyState R, heap <+: s.heap → s.heap[i]? = some node :=
        fun s hs => getElem?_of_prefix hs hnode
      cases node with
      | string value =>
        refine (copySpec_alloc h.toAbove hnode (by simp [isContainer, jsonTypeof, hnode])
          fun heap' j hj => ⟨.string value, ?_, ?_⟩).congr fun s hs => ?_
        · rw [Reads, hnode]
        · rw [Reads, hj]
        · rw [doDeepCopy]
          simp only [hsame s hs]
      | integer value =>
        refine (copySpec_alloc h.toAbove hnode (by simp [isContainer, jsonTypeof, hnode])
          fun heap' j hj => ⟨.integer value, ?_, ?_⟩).congr fun s hs => ?_
        · rw [Reads, hnode]
        · rw [Reads, hj]
        · rw [doDeepCopy]
          simp only [hsame s hs]
      | real value =>
        refine (copySpec_alloc h.toAbove hnode (by simp [isContainer, jsonTypeof, hnode])
          fun heap' j hj => ⟨.real value, ?_, ?_⟩).congr fun s hs => ?_
        · rw [Reads, hnode]
        · rw [Reads, hj]
        · rw [doDeepCopy]
          simp only [hsame s hs]
      | array ps =>
        have hcopies := copies_array hnode
        refine (deepCopyContainer_copies h hinj hi (by simp [isContainer, jsonTypeof, hnode]) hcopies
          fun parents' h' _ x hx => hinside h' x ((hcopies.child x).2 ⟨x, hx, rfl⟩)).congr
          fun s hs => ?_
        rw [doDeepCopy]
        simp only [hsame s hs]
      | object ms =>
        have hcopies := copies_object hnode (hok.nodup hnode)
        refine (deepCopyContainer_copies h hinj hi (by simp [isContainer, jsonTypeof, hnode]) hcopies
          fun parents' h' _ m hm => hinside h' m.2 ((hcopies.child m.2).2 ⟨m, hm, rfl⟩)).congr
          fun s hs => ?_
        rw [doDeepCopy]
        simp only [hsame s hs]

end

/-! ## Rounds -/

section
variable {R : Type} {address : ℕ → UInt64}
  {copy copy' : Ref → CopyState R → Option (Option Ref × CopyState R)}

theorem copyInto_mono {α : Type} {put : Heap R → α → Option Ref → Option (Heap R)}
    {value : α → Ref} (h : ∀ p s r, copy p s = some r → copy' p s = some r) :
    ∀ {xs : List α} {s : CopyState R} {r : Bool × CopyState R},
    copyInto put value copy xs s = some r → copyInto put value copy' xs s = some r
  | [], _, _, hr => hr
  | x :: xs, s, r, hr => by
    rw [copyInto] at hr ⊢
    obtain ⟨⟨result, s₁⟩, hcall, hr⟩ := Option.bind_eq_some_iff.1 hr
    rw [h _ _ _ hcall, Option.bind_eq_bind, Option.bind_some]
    dsimp only at hr ⊢
    cases hput : put s₁.heap x result with
    | none => rwa [hput] at hr
    | some heap =>
      rw [hput] at hr
      exact copyInto_mono h hr

theorem deepCopyContainer_mono {α : Type} {i : ℕ} {empty : Node R}
    {put : ℕ → Heap R → α → Option Ref → Option (Heap R)} {value : α → Ref} {items : List α}
    {s : CopyState R} {r : Option Ref × CopyState R}
    (h : ∀ p s r, copy p s = some r → copy' p s = some r)
    (hr : deepCopyContainer address i empty put value copy items s = some r) :
    deepCopyContainer address i empty put value copy' items s = some r := by
  rw [deepCopyContainer] at hr ⊢
  dsimp only at hr ⊢
  cases hcheck : jsonpLoopCheck s.parents (pointerText (address i)) with
  | none => rwa [hcheck] at hr
  | some parents =>
    rw [hcheck] at hr
    obtain ⟨result, hloop, hr⟩ := Option.bind_eq_some_iff.1 hr
    dsimp only
    rw [copyInto_mono h hloop]
    exact hr

/-- More rounds do not change what is given. -/
theorem doDeepCopy_mono : ∀ {n m : ℕ} {p : Ref} {s : CopyState R} {r : Option Ref × CopyState R},
    n ≤ m → doDeepCopy address n p s = some r → doDeepCopy address m p s = some r
  | 0, _, _, _, _, _, h => by cases h
  | _ + 1, 0, _, _, _, hle, _ => absurd hle (Nat.not_succ_le_zero _)
  | n + 1, m + 1, p, s, r, hle, h => by
    have ih : ∀ p s r, doDeepCopy address n p s = some r → doDeepCopy address m p s = some r :=
      fun p s r => doDeepCopy_mono (Nat.le_of_succ_le_succ hle)
    cases p with
    | node i =>
      rw [doDeepCopy] at h ⊢
      cases hi : s.heap[i]? with
      | none => rwa [hi] at h
      | some node =>
        rw [hi] at h
        cases node with
        | object ms => exact deepCopyContainer_mono ih h
        | array ps => exact deepCopyContainer_mono ih h
        | _ => exact h
    | _ => exact h

end

/-! ## Cycles -/

section
variable {R : Type} {heap : Heap R}

/-- What is reached in a larger heap from a value of the heap is one of its values. -/
theorem Heap.Closed.reaches (hclosed : heap.Closed) {heap' : Heap R} (hpre : heap <+: heap')
    {p q : Ref} (h : heap'.Reaches p q) (hp : heap.Valid p) : heap.Valid q := by
  induction h with
  | refl => exact hp
  | @tail p' q' _ hstep ih =>
    obtain ⟨i, node, rfl, hi, hq⟩ := hstep
    have hi' : i < heap.length := ih
    refine hclosed _ _ ⟨i, heap[i], rfl, List.getElem?_eq_getElem hi', ?_⟩
    have hnode := getElem?_of_prefix hpre (List.getElem?_eq_getElem hi')
    rwa [← Option.some.inj (hnode.symm.trans hi)] at hq

/-- What is reached from a new value is new. -/
theorem Heap.FreshFrom.reaches {L : ℕ} (hfresh : heap.FreshFrom L) {p q : Ref}
    (h : heap.Reaches p q) (hp : p.From L) : q.From L := by
  induction h with
  | refl => exact hp
  | tail _ hstep ih =>
    obtain ⟨i, node, rfl, hi, hq⟩ := hstep
    exact hfresh i node ih hi _ hq

/-- A tree of a memory is equal to any other that stands for it. -/
theorem jsonEqual_of_reads {realEq : R → R → Bool} (hreal : ∀ r, realEq r r = true) {n m : ℕ}
    {p q : Ref} {v : Json R} (hp : Reads heap n p v) (hq : Reads heap m q v) (hv : v.Distinct) :
    jsonEqual heap realEq n p q = some true :=
  jsonEqual_of_order_eq n hp hq hv hv (selfEqual_of_refl hreal v) rfl

/-- **Cycles are safe.** For every graph of values `json_dump_callback` returns, and so does
    `json_deep_copy`, with `NULL` for the graphs with a cycle that is reached; else the copy is
    equal and shares no node with the original. -/
theorem cycles_safe (address : ℕ → UInt64) (hok : heap.Ok) (hclosed : heap.Closed)
    (hinj : ∀ i < heap.length, ∀ j < heap.length, address i = address j → i = j) (root : Ref)
    (hroot : heap.Valid root) (realEq : R → R → Bool) (hreal : ∀ r, realEq r r = true) :
    (∀ {σ : Type} (dtostr : Nat → R → Option Bytes) (dump : Callback σ) (flags : DumpFlags)
        (state : σ), ∃ result : Int × σ, ∀ n > heap.length,
      let w := walkDumpCallback address heap dtostr dump n flags root ⟨[], false, state⟩
      w.2.exhausted = false ∧ (w.1, w.2.state) = result) ∧
    ∃ copy heap', (∀ n > heap.length, jsonDeepCopy address n heap root = some (copy, heap')) ∧
      heap <+: heap' ∧ (copy = none ↔ heap.CycleFrom root) ∧
      ∀ q, copy = some q → (∃ n, jsonEqual heap' realEq n root q = some true) ∧
        ∀ i, heap'.Reaches root (.node i) → ¬heap'.Reaches q (.node i) := by
  refine ⟨fun dtostr dump flags state => ⟨_, fun n hn =>
    walkDumpCallback_returns hinj hn flags root state⟩, ?_⟩
  have hrounds : heap.length < heap.length + 1 + ([] : List Ref).length := Nat.lt_succ_self _
  have hspec : CopySpec heap [] [] (doDeepCopy address (heap.length + 1) root) root :=
    doDeepCopy_copies hok hclosed hinj .nil hrounds hroot
  obtain ⟨copy, s', hcopy, -, hpre, hnull, hok'⟩ := hspec ⟨[], heap⟩ rfl (List.prefix_refl heap)
  refine ⟨copy, s'.heap, fun n hn => ?_, hpre, ⟨fun h => ?_, fun hcycle => ?_⟩, fun q hq => ?_⟩
  · rw [jsonDeepCopy, doDeepCopy_mono hn hcopy]
    rfl
  · exact Descent.blocked_nil.1 (hnull h)
  · cases copy with
    | none => rfl
    | some q => exact absurd (Descent.blocked_nil.2 hcycle) (hok' q rfl).1
  · obtain ⟨-, hfresh, hnew, n, v, hv, hw⟩ := hok' q hq
    refine ⟨⟨n, ?_⟩, fun i hi hi' => ?_⟩
    · exact jsonEqual_of_reads hreal (hv.mono hpre le_rfl) hw (hv.distinct hok)
    · have hlt : i < heap.length := hclosed.reaches hpre hi hroot
      have hle : heap.length ≤ i := hfresh.reaches hi' hnew
      omega

end

/-- An array that has an object twice, and an array that has itself -/
def sharedAndCircular : Heap Unit :=
  [.array [.node 1, .node 1], .object [(ascii "k", .true)], .array [.node 2]]

theorem cycles_safe_sharedAndCircular :
    ∃ copy heap', (∀ n > 3, jsonDeepCopy (fun i => .ofNat (i + 1)) n sharedAndCircular (.node 0) =
        some (copy, heap')) ∧
      (copy = none ↔ sharedAndCircular.CycleFrom (.node 0)) := by
  have hok : sharedAndCircular.Ok := by
    intro ms hms
    have hbuilt : Built (objectSet (ascii "k") Ref.true []) := .set .empty
    simp only [sharedAndCircular, List.mem_cons, reduceCtorEq, Node.object.injEq, List.not_mem_nil,
      false_or, or_false] at hms
    exact hms ▸ hbuilt
  have hclosed : sharedAndCircular.Closed := by
    rintro _ q ⟨i, node, rfl, hi, hq⟩
    rcases i with _ | _ | _ | i
    · obtain rfl := Option.some.inj hi
      simp only [Node.children, List.mem_cons, List.not_mem_nil, or_false, or_self] at hq
      exact hq ▸ (by decide : 1 < 3)
    · obtain rfl := Option.some.inj hi
      simp only [Node.children, List.map_cons, List.map_nil, List.mem_singleton] at hq
      exact hq ▸ trivial
    · obtain rfl := Option.some.inj hi
      simp only [Node.children, List.mem_singleton] at hq
      exact hq ▸ (by decide : 2 < 3)
    · cases hi
  obtain ⟨-, copy, heap', hcopy, -, hnull, -⟩ :=
    cycles_safe (fun i => .ofNat (i + 1)) hok hclosed (by decide) (.node 0)
      (by decide : 0 < 3) (fun _ _ => true) fun _ => rfl
  exact ⟨copy, heap', hcopy, hnull⟩

end Jansson
