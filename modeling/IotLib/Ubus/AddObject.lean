/-
  `UBUS_MSG_ADD_OBJECT` (`ubusd_handle_add_object`, `ubusd_obj.c`, `ubusd_id.c`): the ids that are
  given out, the type from a signature, and what is left when the handler fails.

  A type that cannot be found or created is a null pointer, and the object is then created without a
  type. The bytes of a signature behind its last whole attribute are ignored.
-/
import IotLib.Blobmsg.Check
import IotLib.Ubus.Graph

namespace Ubus

open Blobmsg (Bytes ATTR_SIZE HDR_SIZE pad4 bytesAt blobmsgCheckAttr forEachAttr)
open Returns

/-! ## Ids -/

/-- The loop ends at the first word that is not in the tree. -/
theorem ubusAllocIdLoop_eq_some {used rnd : List UInt32} {id : UInt32} :
    (ubusAllocIdLoop used rnd).1 = some id ↔
      ∃ pre post, rnd = pre ++ id :: post ∧ (∀ w ∈ pre, w ∈ used) ∧ id ∉ used := by
  induction rnd with
  | nil => simp [ubusAllocIdLoop]
  | cons w rnd ih =>
    rw [ubusAllocIdLoop]
    split_ifs with hw
    · rw [ih]
      constructor
      · rintro ⟨pre, post, rfl, hpre, hid⟩
        exact ⟨w :: pre, post, rfl, List.forall_mem_cons.2 ⟨hw, hpre⟩, hid⟩
      · rintro ⟨pre, post, heq, hpre, hid⟩
        cases pre with
        | nil =>
          obtain ⟨rfl, -⟩ := List.cons.inj heq
          exact absurd hw hid
        | cons v pre =>
          obtain ⟨-, rfl⟩ := List.cons.inj heq
          exact ⟨pre, post, rfl, (List.forall_mem_cons.1 hpre).2, hid⟩
    · constructor
      · intro h
        obtain rfl := Option.some.inj h
        exact ⟨[], rnd, rfl, fun _ h => absurd h List.not_mem_nil, hw⟩
      · rintro ⟨pre, post, heq, hpre, hid⟩
        cases pre with
        | nil =>
          obtain ⟨rfl, -⟩ := List.cons.inj heq
          rfl
        | cons v pre =>
          obtain ⟨rfl, -⟩ := List.cons.inj heq
          exact absurd (hpre w List.mem_cons_self) hw

/-- **Dynamic ids.** The ids that `ubus_alloc_id` gives out for a stream of random words are above
    the reserved ones and new exactly if the first of the words that is not in the tree is not a
    reserved id. -/
theorem ubusAllocId_dynamic_iff (used : List UInt32) (s : St) :
    (∀ id, (ubusAllocId used 0 s).1 = some id → ubusSystemObjectMax ≤ id ∧ id ∉ used) ↔
      ∀ pre w post, s.rnd = pre ++ w :: post → (∀ v ∈ pre, v ∈ used) → w ∉ used →
        ubusSystemObjectMax ≤ w := by
  have hloop : ∀ id, (ubusAllocId used 0 s).1 = some id ↔
      ∃ pre post, s.rnd = pre ++ id :: post ∧ (∀ w ∈ pre, w ∈ used) ∧ id ∉ used := by
    intro id
    rw [ubusAllocId, if_neg (by simp)]
    exact ubusAllocIdLoop_eq_some
  constructor
  · intro h pre w post heq hpre hw
    exact (h w ((hloop w).2 ⟨pre, post, heq, hpre, hw⟩)).1
  · intro h id hid
    obtain ⟨pre, post, heq, hpre, hw⟩ := (hloop id).1 hid
    exact ⟨h pre id post heq hpre hw, hw⟩

/-- The word 5 is given out as an id. -/
theorem ubusAllocId_reserved :
    (ubusAllocId [] 0 { rnd := [5] }).1 = some 5 ∧ (5 : UInt32) < ubusSystemObjectMax := by
  decide

/-! ## Signatures -/

/-- `blobmsg_name` of the attribute at an address. -/
def nameAt (sig : Bytes) (pos : ℕ) : Str := (sig.drop (pos + ATTR_SIZE + HDR_SIZE)).takeWhile (· ≠ 0)

/-- What `ubus_create_obj_type` sees of the attribute at an address: the method that
    `ubus_create_obj_method` copies, if it is a valid one. -/
def sigAttrAt (sig : Bytes) (pos : ℕ) : Option SigAttr :=
  (blobmsgCheckAttr sig pos true).bind fun ok =>
    if ¬ ok then some ⟨⟨[], []⟩, false⟩
    else
      (Blobmsg.blobRawLen sig pos).bind fun len =>
        (bytesAt sig pos len).bind fun data => some ⟨⟨nameAt sig pos, data⟩, true⟩

/-- The attributes that the loop of `ubus_create_obj_type` visits, up to the first invalid one. -/
def signatureAttrs (sig : Bytes) : Option (List SigAttr) :=
  forEachAttr sig (fun _ => true) (fun attrs pos _ =>
    (sigAttrAt sig pos).bind fun a =>
      some (if a.valid then .inl (attrs ++ [a]) else .inr (attrs ++ [a])))
    (sig.length + 1) [] 0 sig.length

/-- The signature consists, from an address on, of the attributes of these methods. -/
inductive Signature (sig : Bytes) : ℕ → List Method → Prop
  | done : Signature sig sig.length []
  | attr {pos len data ms} : Blobmsg.blobRawLen sig pos = some len → ATTR_SIZE ≤ len →
      pos + pad4 len ≤ sig.length → blobmsgCheckAttr sig pos true = some true →
      bytesAt sig pos len = some data → Signature sig (pos + pad4 len) ms →
      Signature sig pos (⟨nameAt sig pos, data⟩ :: ms)

section
variable {sig : Bytes}

/-- An attribute can be checked without leaving the signature. -/
theorem sigAttrAt_returns {pos x : ℕ} (hx : Blobmsg.idLen sig pos = some x)
    (hle : pos + pad4 (x % 2 ^ 24) ≤ sig.length) : ∃ a, sigAttrAt sig pos = some a := by
  have hpad := Blobmsg.pad4_ge (x % 2 ^ 24)
  have hraw := Blobmsg.blobRawLen_eq hx
  obtain ⟨ok, hok, -⟩ := @Blobmsg.blobmsgCheckAttrLen_returns sig pos (x % 2 ^ 24) (by omega) true
  unfold sigAttrAt blobmsgCheckAttr
  rw [hraw, Option.bind_some, hok, Option.bind_some]
  cases ok with
  | false => exact ⟨_, rfl⟩
  | true =>
    rw [if_neg (by simp), Option.bind_some, Blobmsg.bytesAt_returns (by omega)]
    exact ⟨_, rfl⟩

/-- The loop ends, whatever the bytes are. -/
theorem signatureLoop_returns {fuel pos rem : ℕ} (hfuel : rem < fuel)
    (hrem : pos + rem = sig.length) (acc : List SigAttr) :
    ∃ attrs, forEachAttr sig (fun _ => true) (fun attrs pos _ =>
      (sigAttrAt sig pos).bind fun a =>
        some (if a.valid then .inl (attrs ++ [a]) else .inr (attrs ++ [a]))) fuel acc pos rem =
      some attrs := by
  induction fuel generalizing pos rem acc with
  | zero => omega
  | succ fuel ih =>
    rw [forEachAttr]
    by_cases hsize : rem < ATTR_SIZE
    · exact ⟨acc, if_pos (.inl hsize)⟩
    obtain ⟨x, hx⟩ := @Blobmsg.idLen_returns sig pos (by omega)
    rw [if_neg (by simpa using hsize), Blobmsg.blobPadLen_eq hx, Option.bind_some]
    by_cases hpad : pad4 (x % 2 ^ 24) ≤ rem ∧ ATTR_SIZE ≤ pad4 (x % 2 ^ 24)
    · obtain ⟨a, ha⟩ := sigAttrAt_returns hx (by omega)
      rw [if_pos hpad, ha, Option.bind_some, Option.bind_some]
      by_cases hvalid : a.valid = true
      · rw [if_pos hvalid]
        simp only [ATTR_SIZE] at hpad
        exact ih (by omega) (by omega) _
      · rw [if_neg hvalid]
        exact ⟨_, rfl⟩
    · exact ⟨acc, if_neg hpad⟩

theorem signatureAttrs_returns (sig : Bytes) : ∃ attrs, signatureAttrs sig = some attrs :=
  signatureLoop_returns (Nat.lt_succ_self _) (Nat.zero_add _) []

/-- The attributes of a well-formed signature are all visited. -/
theorem signatureLoop_eq {pos : ℕ} {ms : List Method} (h : Signature sig pos ms) {fuel rem : ℕ}
    (hfuel : rem < fuel) (hrem : pos + rem = sig.length) (acc : List SigAttr) :
    forEachAttr sig (fun _ => true) (fun attrs pos _ =>
      (sigAttrAt sig pos).bind fun a =>
        some (if a.valid then .inl (attrs ++ [a]) else .inr (attrs ++ [a]))) fuel acc pos rem =
      some (acc ++ ms.map fun m => ⟨m, true⟩) := by
  induction h generalizing fuel rem acc with
  | done =>
    obtain ⟨fuel, rfl⟩ : ∃ f, fuel = f + 1 := ⟨fuel - 1, by omega⟩
    rw [forEachAttr, if_pos (.inl (by simp only [ATTR_SIZE]; omega)), List.map_nil, List.append_nil]
  | @attr pos len data ms hlen hmin hle hcheck hdata _ ih =>
    obtain ⟨fuel, rfl⟩ : ∃ f, fuel = f + 1 := ⟨fuel - 1, by omega⟩
    have hpad := Blobmsg.pad4_ge len
    obtain ⟨x, hx⟩ := @Blobmsg.idLen_returns sig pos (by omega)
    have hlen' : x % 2 ^ 24 = len := by
      rw [Blobmsg.blobRawLen_eq hx] at hlen
      exact Option.some.inj hlen
    have ha : sigAttrAt sig pos = some ⟨⟨nameAt sig pos, data⟩, true⟩ := by
      rw [sigAttrAt, hcheck, Option.bind_some, if_neg (by simp), hlen, Option.bind_some, hdata,
        Option.bind_some]
    rw [forEachAttr, if_neg (by simp only [ATTR_SIZE] at *; simp; omega), Blobmsg.blobPadLen_eq hx,
      Option.bind_some, hlen', if_pos ⟨by omega, by omega⟩, ha, Option.bind_some, if_pos rfl,
      Option.bind_some]
    dsimp only
    rw [ih (by simp only [ATTR_SIZE] at *; omega) (by omega), List.append_assoc, List.map_cons]
    rfl

theorem signatureAttrs_eq {ms : List Method} (h : Signature sig 0 ms) :
    signatureAttrs sig = some (ms.map fun m => ⟨m, true⟩) :=
  signatureLoop_eq h (Nat.lt_succ_self _) (Nat.zero_add _) []

end

/-! ## Types -/

/-- The registered types are the same. -/
def SameTypes (g g' : Graph) : Prop :=
  g'.objTypes = g.objTypes ∧ ∀ t ∈ g.objTypes, g'.typ t = g.typ t

/-- The types of `g` with one more reference, to `x`: a type that was there, or a new one. -/
def TypesWith (x : Option Ptr) (g g' : Graph) : Prop :=
  match x with
  | none => SameTypes g g'
  | some t =>
    t ∈ g.objTypes ∧ g'.objTypes = g.objTypes ∧
        g'.typ t = { g.typ t with refcount := (g.typ t).refcount + 1 } ∧
        (∀ u ∈ g.objTypes, u ≠ t → g'.typ u = g.typ u) ∨
      t ∉ g.objTypes ∧ g'.objTypes = t :: g.objTypes ∧ (g'.typ t).refcount = 1 ∧
        ∀ u ∈ g.objTypes, g'.typ u = g.typ u

section
variable {x : Option Ptr} {g g' : Graph}

/-- Without the reference, the types are as before. -/
theorem TypesWith.unref (h : TypesWith x g g') (hpos : ∀ t ∈ g.objTypes, 0 < (g.typ t).refcount) :
    SameTypes g (unrefType x g') := by
  cases x with
  | none => exact h
  | some t =>
    have htyp : ∀ u, ((g'.modTyp t fun y => { y with refcount := y.refcount - 1 }).typ u) =
        if u = t then { g'.typ t with refcount := (g'.typ t).refcount - 1 } else g'.typ u := by
      intro u
      simp only [Graph.modTyp, Function.update_apply]
    rcases h with ⟨ht, hlist, hself, hother⟩ | ⟨ht, hlist, hself, hother⟩
    · have hcount : (g'.typ t).refcount - 1 = (g.typ t).refcount := by
        rw [hself]
        simp
      have hkeep : unrefType (some t) g' = g'.modTyp t fun y => { y with refcount := y.refcount - 1 } := by
        unfold unrefType ubusUnrefObjectType
        dsimp only
        rw [if_pos]
        rw [htyp, if_pos rfl]
        exact hcount ▸ hpos t ht
      rw [hkeep]
      refine ⟨hlist, fun u hu => ?_⟩
      rw [htyp]
      split_ifs with hut
      · rw [hut, hcount, hself]
      · exact hother u hu hut
    · have hdrop : unrefType (some t) g' =
          { g'.modTyp t (fun y => { y with refcount := y.refcount - 1 }) with
            objTypes := g'.objTypes.erase t } := by
        unfold unrefType ubusUnrefObjectType
        dsimp only
        rw [if_neg]
        · rfl
        · rw [htyp, if_pos rfl, hself]
          show ¬ ((1 : Int) - 1 > 0)
          decide
      rw [hdrop]
      refine ⟨?_, fun u hu => ?_⟩
      · show g'.objTypes.erase t = g.objTypes
        rw [hlist, List.erase_cons_head]
      · show ((g'.modTyp t fun y => { y with refcount := y.refcount - 1 }).typ u) = g.typ u
        rw [htyp, if_neg (ne_of_mem_of_not_mem hu ht)]
        exact hother u hu

theorem TypesWith.of_typ {g'' : Graph} (h : TypesWith x g g') (hlist : g''.objTypes = g'.objTypes)
    (htyp : g''.typ = g'.typ) : TypesWith x g g'' := by
  unfold TypesWith SameTypes at *
  rw [hlist, htyp]
  exact h

/-- A reference that is taken and given back. -/
theorem unrefType_refType (hpos : ∀ t, x = some t → 0 < (g.typ t).refcount) :
    unrefType x (refType x g) = g := by
  cases x with
  | none => rfl
  | some t =>
    have hself : Function.update (Function.update g.typ t
        { g.typ t with refcount := (g.typ t).refcount + 1 }) t (g.typ t) = g.typ := by
      rw [Function.update_idem, Function.update_eq_self]
    simp only [unrefType, refType, ubusUnrefObjectType, Graph.modTyp, Function.update_self,
      add_sub_cancel_right]
    rw [if_pos (hpos t rfl), hself]

theorem TypesWith.pos (h : TypesWith x g g') (hpos : ∀ t ∈ g.objTypes, 0 < (g.typ t).refcount)
    {t : Ptr} (hx : x = some t) : 0 < (g'.typ t).refcount := by
  subst hx
  rcases h with ⟨ht, -, hself, -⟩ | ⟨-, -, hself, -⟩
  · rw [hself]
    have := hpos t ht
    show 0 < (g.typ t).refcount + 1
    omega
  · rw [hself]
    decide

end

/-! ## Allocation -/

/-- The next allocations succeed. -/
def Allocates (n : ℕ) (mem : List Bool) : Prop := false ∉ mem.take n

instance (n : ℕ) (mem : List Bool) : Decidable (Allocates n mem) :=
  inferInstanceAs (Decidable (_ ∉ _))

theorem malloc_eq (s : St) :
    malloc s = (decide (s.mem.head? ≠ some false), { s with mem := s.mem.tail }) := by
  unfold malloc
  cases hm : s.mem with
  | nil => rfl
  | cons b mem =>
    cases b with
    | false => rfl
    | true => rfl

theorem allocates_succ {n : ℕ} {mem : List Bool} :
    Allocates (n + 1) mem ↔ mem.head? ≠ some false ∧ Allocates n mem.tail := by
  unfold Allocates
  cases mem with
  | nil => simp
  | cons b mem =>
    rw [List.take_succ_cons, List.mem_cons, not_or, List.head?_cons, List.tail_cons, ne_eq,
      Option.some_inj, eq_comm]

/-- The loop over the methods of a signature. -/
theorem createMethods_eq (ms : List Method) (s : St) :
    (createMethods (ms.map fun m => ⟨m, true⟩) s).1 =
      if Allocates ms.length s.mem then some ms else none := by
  induction ms generalizing s with
  | nil => simp [createMethods, Allocates]
  | cons m ms ih =>
    rw [List.map_cons, createMethods, if_pos rfl, malloc_eq, List.length_cons]
    simp only [decide_eq_true_eq]
    by_cases hhead : s.mem.head? = some false
    · rw [if_neg (not_not.2 hhead), if_neg fun h => (allocates_succ.1 h).1 hhead]
    · rw [if_pos hhead, ih]
      by_cases hrest : Allocates ms.length s.mem.tail
      · rw [if_pos hrest, if_pos (allocates_succ.2 ⟨hhead, hrest⟩)]
        rfl
      · rw [if_neg hrest, if_neg fun h => hrest (allocates_succ.1 h).2]
        rfl

theorem ubusAllocIdLoop_isSome {used rnd : List UInt32} :
    (ubusAllocIdLoop used rnd).1 = none ↔ ∀ w ∈ rnd, w ∈ used := by
  induction rnd with
  | nil => simp [ubusAllocIdLoop]
  | cons w rnd ih =>
    rw [ubusAllocIdLoop, List.forall_mem_cons]
    split_ifs with hw
    · rw [ih]
      exact (and_iff_right hw).symm
    · exact iff_of_false (by simp) fun h => hw h.1

/-- Everything but the types and the free addresses is the same. -/
structure SameObjs (g g' : Graph) : Prop where
  rest : g' = { g with typ := g'.typ, objTypes := g'.objTypes, next := g'.next }
  next : g.next ≤ g'.next

/-! ## The type of a new object -/

/-- A new type and its methods, or the types as they were. -/
theorem ubusCreateObjType_spec {s : St} (h : Inv none s.graph) (sig : List SigAttr) :
    let r := ubusCreateObjType sig s
    SameObjs s.graph r.2.graph ∧
      (r.1 = none ∧ SameTypes s.graph r.2.graph ∨
        ∃ t id ms, r.1 = some t ∧ t ∉ s.graph.objTypes ∧
          r.2.graph.objTypes = t :: s.graph.objTypes ∧ r.2.graph.typ t = ⟨id, 1, ms⟩ ∧
          (∀ u ∈ s.graph.objTypes, r.2.graph.typ u = s.graph.typ u) ∧
          ∃ s', (createMethods sig s').1 = some ms) := by
  have hnot : s.graph.next ∉ s.graph.objTypes := fun hm =>
    absurd (h.typ.fresh _ hm) (Nat.lt_irrefl _)
  have hne : ∀ u ∈ s.graph.objTypes, u ≠ s.graph.next := fun u hu => ne_of_mem_of_not_mem hu hnot
  simp only [ubusCreateObjType]
  rcases hc : calloc s with ⟨r, s'⟩
  have hcase := calloc_cases s
  rw [hc] at hcase
  rcases hcase with ⟨h1, h2⟩ | ⟨h1, h2⟩ <;> simp only at h1 h2 <;> subst h1 <;> simp only
  · rw [h2]
    exact ⟨⟨rfl, le_rfl⟩, .inl ⟨trivial, rfl, fun _ _ => rfl⟩⟩
  · set a := ubusAllocId (s'.graph.objTypes.map fun t => (s'.graph.typ t).id) 0 s' with ha
    have hag : a.2.graph = { s.graph with next := s.graph.next + 1 } := by
      rw [ha, ubusAllocId_graph, h2]
    rcases a with ⟨id, s1⟩
    simp only at hag ⊢
    cases id with
    | none =>
      simp only
      rw [hag]
      exact ⟨⟨rfl, Nat.le_succ _⟩, .inl ⟨trivial, rfl, fun _ _ => rfl⟩⟩
    | some id =>
      simp only
      set s2 : St := { s1 with graph := { s1.graph with
        typ := Function.update s1.graph.typ s.graph.next ⟨id, 1, []⟩
        objTypes := s.graph.next :: s1.graph.objTypes } } with hs2
      have hg2 : s2.graph = { s.graph with next := s.graph.next + 1 }.newType s.graph.next id := by
        rw [hs2]
        simp only [hag]
        rfl
      have hm : (createMethods sig s2).2.graph = s2.graph := createMethods_graph _ _
      cases hms : (createMethods sig s2).1 with
      | none =>
        simp only [hm]
        have hwith : TypesWith (some s.graph.next) s.graph s2.graph := by
          refine .inr ⟨hnot, by rw [hg2]; rfl, ?_, fun u hu => ?_⟩
          · rw [hg2]
            simp [Graph.newType]
          · rw [hg2]
            exact Function.update_of_ne (hne u hu) _ _
        have hpos : ∀ t ∈ s.graph.objTypes, 0 < (s.graph.typ t).refcount := by
          intro t ht
          rw [h.typ.count t ht]
          have := (h.typ.mem t).1 ht
          omega
        refine ⟨⟨?_, ?_⟩, .inl ⟨trivial, hwith.unref hpos⟩⟩
        · rw [ubusUnrefObjectType_keeps, hg2]
          rfl
        · rw [ubusUnrefObjectType_keeps, hg2]
          exact Nat.le_succ _
      | some ms =>
        simp only [hm]
        refine ⟨⟨?_, ?_⟩, .inr ⟨s.graph.next, id, ms, rfl, hnot, ?_, ?_, fun u hu => ?_, s2, hms⟩⟩
        · rw [hg2]
          rfl
        · rw [hg2]
          exact Nat.le_succ _
        · rw [hg2]
          rfl
        · rw [hg2]
          simp [Graph.modTyp, Graph.newType]
        · rw [hg2]
          simp [Graph.modTyp, Graph.newType, Function.update_of_ne (hne u hu)]

/-- The type of a well-formed signature is created unless an allocation fails. -/
theorem ubusCreateObjType_isSome (ms : List Method) (s : St) :
    (ubusCreateObjType (ms.map fun m => ⟨m, true⟩) s).1 ≠ none ↔
      Allocates (ms.length + 1) s.mem ∧
        ∃ w ∈ s.rnd, w ∉ s.graph.objTypes.map fun t => (s.graph.typ t).id := by
  unfold ubusCreateObjType calloc
  rw [malloc_eq, allocates_succ]
  dsimp only
  by_cases hhead : s.mem.head? = some false
  · rw [if_neg (by simpa using hhead)]
    exact iff_of_false (by simp) fun h => h.1.1 hhead
  rw [if_pos (decide_eq_true hhead)]
  dsimp only
  rw [ubusAllocId, if_neg (by simp)]
  dsimp only
  cases hid : (ubusAllocIdLoop (s.graph.objTypes.map fun t => (s.graph.typ t).id) s.rnd).1 with
  | none =>
    refine iff_of_false (by simp) ?_
    rintro ⟨-, w, hw, hnew⟩
    exact hnew (ubusAllocIdLoop_isSome.1 hid w hw)
  | some id =>
    have hword : ∃ w ∈ s.rnd, w ∉ s.graph.objTypes.map fun t => (s.graph.typ t).id := by
      obtain ⟨pre, post, heq, -, hnew⟩ := ubusAllocIdLoop_eq_some.1 hid
      exact ⟨id, by rw [heq]; simp, hnew⟩
    dsimp only
    rw [createMethods_eq]
    dsimp only
    by_cases hrest : Allocates ms.length s.mem.tail
    · rw [if_pos hrest]
      exact iff_of_true (by simp) ⟨⟨hhead, hrest⟩, hword⟩
    · rw [if_neg hrest]
      exact iff_of_false (by simp) fun h => hrest h.1.2

/-- What the type of a new object is. -/
theorem createType_spec {s : St} (h : Inv none s.graph) (attr : AddAttr) :
    let r := createType attr s
    SameObjs s.graph r.2.graph ∧ TypesWith r.1 s.graph r.2.graph := by
  unfold createType
  split
  · rename_i id _ _
    unfold ubusGetObjType
    split
    · exact ⟨⟨rfl, le_rfl⟩, rfl, fun _ _ => rfl⟩
    · rename_i t hfind
      refine ⟨⟨rfl, le_rfl⟩, .inl ⟨List.mem_of_find?_eq_some hfind, rfl, ?_, fun u _ hu => ?_⟩⟩
      · exact Function.update_self _ _ _
      · exact Function.update_of_ne hu _ _
  · rename_i sig _ _
    obtain ⟨hsame, ⟨hnone, htypes⟩ | ⟨t, id, ms, hsome, hnot, hlist, hself, hother, -⟩⟩ :=
      ubusCreateObjType_spec h sig
    · refine ⟨hsame, ?_⟩
      rw [hnone]
      exact htypes
    · refine ⟨hsame, ?_⟩
      rw [hsome]
      exact .inr ⟨hnot, hlist, by rw [hself], hother⟩
  · exact ⟨⟨rfl, le_rfl⟩, rfl, fun _ _ => rfl⟩

/-! ## The new object -/

/-- The registry is as before. -/
structure Untouched (g g' : Graph) : Prop where
  objects : g'.objects = g.objects
  path : g'.path = g.path
  types : SameTypes g g'
  owned : ∀ c, (g'.cli c).objects = (g.cli c).objects
  obj : ∀ o ∈ g.objects, g'.obj o = g.obj o

/-- The object cannot be created: there is no memory or no id for it, or its path is refused. -/
def Refused (acls : Acls) (cl : Ptr) (attr : AddAttr) (s : St) : Prop :=
  let s' := (createType attr s).2
  ¬ Allocates 1 s'.mem ∨ (∀ w ∈ s'.rnd, w ∈ s.graph.objects.map fun o => (s.graph.obj o).id) ∨
    ∃ path, attr.objpath = some path ∧
      (s.graph.allowed acls (some cl) (some path) .publish = false ∨ ¬ Allocates 2 s'.mem ∨
        ∃ x ∈ s.graph.path, (s.graph.obj x).pathKey = some path)

theorem allocates_one {mem : List Bool} : Allocates 1 mem ↔ mem.head? ≠ some false := by
  rw [allocates_succ]
  exact and_iff_left (by simp [Allocates])

/-- `ubusd_create_object_internal` for an object with a dynamic id. -/
theorem ubusdCreateObjectInternal_spec (type : Option Ptr) (s : St) :
    let r := ubusdCreateObjectInternal type 0 s
    (r.1 = none ∧ r.2.graph = { s.graph with next := r.2.graph.next } ∧
        s.graph.next ≤ r.2.graph.next ∧
        (¬ Allocates 1 s.mem ∨ ∀ w ∈ s.rnd, w ∈ s.graph.objects.map fun o => (s.graph.obj o).id)) ∨
      ∃ id, (id ∉ s.graph.objects.map fun o => (s.graph.obj o).id) ∧ r.1 = some s.graph.next ∧
        Allocates 1 s.mem ∧ r.2.mem = s.mem.tail ∧
        (¬ ∀ w ∈ s.rnd, w ∈ s.graph.objects.map fun o => (s.graph.obj o).id) ∧
        r.2.graph = refType type ({ s.graph with next := s.graph.next + 1 }.newObj s.graph.next id type) := by
  unfold ubusdCreateObjectInternal calloc
  rw [malloc_eq, allocates_one]
  dsimp only
  by_cases hhead : s.mem.head? = some false
  · rw [if_neg (by simpa using hhead)]
    exact .inl ⟨rfl, rfl, le_rfl, .inl (not_not.2 hhead)⟩
  rw [if_pos (decide_eq_true hhead)]
  dsimp only
  rw [ubusAllocId, if_neg (by simp)]
  dsimp only
  cases hid : (ubusAllocIdLoop (s.graph.objects.map fun o => (s.graph.obj o).id) s.rnd).1 with
  | none => exact .inl ⟨rfl, rfl, Nat.le_succ _, .inr (ubusAllocIdLoop_isSome.1 hid)⟩
  | some id =>
    refine .inr ⟨id, ubusAllocIdLoop_not_mem hid, rfl, hhead, rfl, fun hall => ?_, rfl⟩
    rw [ubusAllocIdLoop_isSome.2 hall] at hid
    cases hid

section
variable {acls : Acls} {x : Option Ptr} {g g₁ : Graph} {id : UInt32}

/-- A new object, without path and owner, that is freed again. -/
theorem untouched_freed {s : St} (h : Inv none g) (hsame : SameObjs g g₁) (htypes : TypesWith x g g₁)
    (hs : s.graph = { g₁ with next := g₁.next + 1 }.newObj g₁.next id x) (hinv : Inv none s.graph) :
    Untouched g (ubusdFreeObject acls s g₁.next).graph := by
  have hobjs : g₁.objects = g.objects := by rw [hsame.rest]
  have hpath : g₁.path = g.path := by rw [hsame.rest]
  have hcli : g₁.cli = g.cli := by rw [hsame.rest]
  have hobj : g₁.obj = g.obj := by rw [hsame.rest]
  have hfresh : ∀ o ∈ g.objects, o ≠ g₁.next := fun o ho =>
    Nat.ne_of_lt ((h.obj.fresh o ho).trans_le hsame.next)
  have hself := newObj_obj_self { g₁ with next := g₁.next + 1 } g₁.next id x
  have hdetach : s.graph.detach g₁.next = s.graph := by
    rw [hs]
    simp [Graph.detach, hself]
  have hpos : ∀ t ∈ g.objTypes, 0 < (g.typ t).refcount := by
    intro t ht
    rw [h.typ.count t ht]
    have := (h.typ.mem t).1 ht
    omega
  have htype : (s.graph.obj g₁.next).type = x := by rw [hs, hself]
  rw [ubusdFreeObject_graph hinv, hdetach, htype]
  have htypes' : TypesWith x g (s.graph.unregister g₁.next) :=
    htypes.of_typ (by rw [hs]; rfl) (by rw [hs]; rfl)
  have hkeep := unrefType_keeps x (s.graph.unregister g₁.next)
  refine ⟨?_, ?_, htypes'.unref hpos, fun c => ?_, fun o ho => ?_⟩
  · rw [hkeep, hs]
    show (g₁.next :: g₁.objects).erase g₁.next = g.objects
    rw [List.erase_cons_head, hobjs]
  · rw [hkeep, hs]
    show g₁.path.erase g₁.next = g.path
    rw [hpath]
    exact List.erase_of_not_mem fun hm => hfresh _ ((h.obj.path_mem _).1 hm).1 rfl
  · rw [hkeep, hs]
    show (g₁.cli c).objects.erase g₁.next = _
    rw [hcli]
    exact List.erase_of_not_mem fun hm => hfresh _ (h.own.listed c _ hm).1 rfl
  · rw [hkeep, hs]
    show ({ g₁ with next := g₁.next + 1 }.newObj g₁.next id x).obj o = g.obj o
    rw [newObj_obj id x (hfresh o ho)]
    exact congrFun hobj o

/-- A registered object, and the types that were there when it was created. -/
structure Registered (attr : AddAttr) (cl : Ptr) (x : Option Ptr) (g g₁ : Graph) (o : Ptr)
    (g' : Graph) : Prop where
  new : o ∉ g.objects
  objects : g'.objects = o :: g.objects
  path : (g'.obj o).pathKey = attr.objpath
  listed : o ∈ g'.path ↔ attr.objpath ≠ none
  type : (g'.obj o).type = x
  owner : (g'.obj o).client = some cl ∧ o ∈ (g'.cli cl).objects
  types : g'.objTypes = g₁.objTypes ∧ g'.typ = g₁.typ

/-- The path of the object is refused. -/
def PathRefused (acls : Acls) (cl : Ptr) (attr : AddAttr) (mem : List Bool) (g : Graph) : Prop :=
  ∃ path, attr.objpath = some path ∧
    (g.allowed acls (some cl) (some path) .publish = false ∨ ¬ Allocates 1 mem ∨
      ∃ y ∈ g.path, (g.obj y).pathKey = some path)

theorem Registered.of_own {attr : AddAttr} {cl o : Ptr} {g₂ : Graph} (hnew : o ∉ g.objects)
    (hobjs : g₂.objects = o :: g.objects)
    (hkey : (g₂.obj o).pathKey = attr.objpath) (htype : (g₂.obj o).type = x)
    (hpath : o ∈ g₂.path ↔ attr.objpath ≠ none)
    (htypes : g₂.objTypes = g₁.objTypes ∧ g₂.typ = g₁.typ) :
    Registered attr cl x g g₁ o (g₂.own o cl) where
  new := hnew
  objects := hobjs
  path := by rw [own_obj, if_pos rfl, hkey]
  listed := hpath
  type := by rw [own_obj, if_pos rfl, htype]
  owner := by
    refine ⟨by rw [own_obj, if_pos rfl], ?_⟩
    rw [own_cli, if_pos rfl]
    exact List.mem_cons_self
  types := htypes

/-- The new object is placed, or the registry is as before. -/
theorem placeObject_cases (acls : Acls) {s : St} (h : Inv none g) (hsame : SameObjs g g₁)
    (htypes : TypesWith x g g₁)
    (hs : s.graph = { g₁ with next := g₁.next + 1 }.newObj g₁.next id x) (hinv : Inv none s.graph)
    (attr : AddAttr) (cl : Ptr) :
    let r := placeObject acls cl attr g₁.next s
    (r.1 = none ∧ PathRefused acls cl attr s.mem g ∧ Untouched g r.2.graph) ∨
      (r.1 = some g₁.next ∧ ¬ PathRefused acls cl attr s.mem g ∧
        Registered attr cl x g g₁ g₁.next r.2.graph) := by
  have hobjs : s.graph.objects = g₁.next :: g.objects := by
    rw [hs, hsame.rest]
    rfl
  have hpath : s.graph.path = g.path := by
    rw [hs, hsame.rest]
    rfl
  have hcli : s.graph.cli = g.cli := by
    rw [hs, hsame.rest]
    rfl
  have htyp : s.graph.objTypes = g₁.objTypes ∧ s.graph.typ = g₁.typ := by
    rw [hs]
    exact ⟨rfl, rfl⟩
  have hfresh : ∀ o ∈ g.objects, o ≠ g₁.next := fun o ho =>
    Nat.ne_of_lt ((h.obj.fresh o ho).trans_le hsame.next)
  have hobj : ∀ o ∈ g.objects, s.graph.obj o = g.obj o := by
    intro o ho
    rw [hs, newObj_obj id x (hfresh o ho), hsame.rest]
  have hnew : g₁.next ∉ g.objects := fun hm => hfresh _ hm rfl
  have hnotpath : g₁.next ∉ g.path := fun hm => hnew ((h.obj.path_mem _).1 hm).1
  have hself : s.graph.obj g₁.next = { id := id, type := x } := by
    rw [hs]
    exact newObj_obj_self _ _ _ _
  have hfree : ∀ s' : St, s'.graph = s.graph → Untouched g (ubusdFreeObject acls s' g₁.next).graph :=
    fun s' hs' => untouched_freed h hsame htypes (hs'.trans hs) (hs' ▸ hinv)
  unfold placeObject PathRefused
  cases hattr : attr.objpath with
  | none =>
    refine .inr ⟨rfl, by simp, Registered.of_own hnew hobjs ?_ ?_ ?_ htyp⟩
    · rw [hself, hattr]
    · rw [hself]
    · rw [hpath, hattr]
      exact iff_of_false hnotpath (by simp)
  | some path =>
    have hallowed : s.graph.allowed acls (some cl) (some path) .publish =
        g.allowed acls (some cl) (some path) .publish := by
      unfold Graph.allowed
      rw [hcli]
    have htaken : (∃ y ∈ s.graph.path, (s.graph.obj y).pathKey = some path) ↔
        ∃ y ∈ g.path, (g.obj y).pathKey = some path := by
      rw [hpath]
      refine exists_congr fun y => and_congr_right fun hy => ?_
      rw [hobj y ((h.obj.path_mem y).1 hy).1]
    dsimp only
    rw [hallowed, malloc_eq, allocates_one]
    by_cases hacl : g.allowed acls (some cl) (some path) .publish = false
    · rw [if_pos hacl]
      exact .inl ⟨rfl, ⟨path, rfl, .inl hacl⟩, hfree s rfl⟩
    rw [if_neg hacl]
    by_cases hmem : s.mem.head? = some false
    · rw [if_pos (by simpa using hmem)]
      exact .inl ⟨rfl, ⟨path, rfl, .inr (.inl (not_not.2 hmem))⟩, hfree _ rfl⟩
    rw [if_neg (by simpa using hmem)]
    dsimp only
    cases hins : s.graph.insertPath g₁.next path with
    | none =>
      have hex : ∃ y ∈ g.path, (g.obj y).pathKey = some path := by
        rw [← htaken]
        by_contra hex
        unfold Graph.insertPath at hins
        rw [if_neg hex] at hins
        cases hins
      exact .inl ⟨rfl, ⟨path, rfl, .inr (.inr hex)⟩, hfree _ rfl⟩
    | some g₂ =>
      obtain ⟨hfreepath, rfl⟩ := insertPath_eq hins
      refine .inr ⟨rfl, ?_, ?_⟩
      · rintro ⟨p, hp, hor⟩
        obtain rfl := Option.some.inj hp
        rcases hor with h₁ | h₁ | h₁
        · exact hacl h₁
        · exact h₁ hmem
        · obtain ⟨y, hy, hkey⟩ := htaken.2 h₁
          exact hfreepath y hy hkey
      · dsimp only
        rw [ubusdSendObjEvent_graph]
        refine Registered.of_own hnew hobjs ?_ ?_ ?_ htyp
        · dsimp only
          rw [modObj_obj, if_pos rfl, hattr]
        · dsimp only
          rw [modObj_obj, if_pos rfl, hself]
        · rw [hattr]
          exact iff_of_true ((Prefix.mem_insertKey _ _ _ _).2 (.inl rfl)) (by simp)

end

theorem refcount_pos {g : Graph} (h : Inv none g) : ∀ t ∈ g.objTypes, 0 < (g.typ t).refcount := by
  intro t ht
  rw [h.typ.count t ht]
  have := (h.typ.mem t).1 ht
  omega

/-- **`ubusd_create_object`** registers a new object with the type that was found or created, or
    leaves the registry as it was. -/
theorem ubusdCreateObject_cases (acls : Acls) {s : St} (h : Inv none s.graph) (cl : Ptr)
    (attr : AddAttr) :
    let r := ubusdCreateObject acls cl attr s
    (r.1 = none ∧ Refused acls cl attr s ∧ Untouched s.graph r.2.graph) ∨
      ∃ o, r.1 = some o ∧ ¬ Refused acls cl attr s ∧
        Registered attr cl (createType attr s).1 s.graph (createType attr s).2.graph o r.2.graph := by
  have hsteps := createType_steps (F := fun _ => True) acls h attr
  obtain ⟨hsame, htypes⟩ := createType_spec h attr
  unfold ubusdCreateObject Refused
  dsimp only at hsteps ⊢
  set t := createType attr s with ht
  have hobjs : t.2.graph.objects = s.graph.objects := by rw [hsame.rest]
  have hobj : t.2.graph.obj = s.graph.obj := by rw [hsame.rest]
  have hpos := refcount_pos h
  rcases ubusdCreateObjectInternal_spec t.1 t.2 with
    ⟨hnone, hgraph, -, hwhy⟩ | ⟨id, hid, hsome, hmem, htail, hword, hgraph⟩
  · rw [hobjs, hobj] at hwhy
    rw [hnone]
    refine .inl ⟨rfl, hwhy.imp_right .inl, ?_⟩
    have hkeep := unrefType_keeps t.1 (ubusdCreateObjectInternal t.1 0 t.2).2.graph
    refine ⟨?_, ?_, ?_, fun c => ?_, fun o _ => ?_⟩
    · rw [hkeep, hgraph]
      exact hobjs
    · rw [hkeep, hgraph, hsame.rest]
    · refine TypesWith.unref (htypes.of_typ ?_ ?_) hpos
      · rw [hgraph]
      · rw [hgraph]
    · rw [hkeep, hgraph, hsame.rest]
    · rw [hkeep, hgraph]
      exact congrFun hobj o
  · rw [hsome]
    have hback : unrefType t.1 (ubusdCreateObjectInternal t.1 0 t.2).2.graph =
        { t.2.graph with next := t.2.graph.next + 1 }.newObj t.2.graph.next id t.1 := by
      rw [hgraph]
      exact unrefType_refType fun u hu => htypes.pos hpos hu
    have hinv : Inv none (unrefType t.1 (ubusdCreateObjectInternal t.1 0 t.2).2.graph) := by
      rw [hgraph]
      exact ((hsteps.1.trans (GStep.newObj hid).steps).unrefType).inv h
    dsimp only
    set s' : St := { (ubusdCreateObjectInternal t.1 0 t.2).2 with
      graph := unrefType t.1 (ubusdCreateObjectInternal t.1 0 t.2).2.graph } with hs'
    rw [hobjs, hobj] at hword
    have hrefused : PathRefused acls cl attr s'.mem s.graph ↔
        ¬ Allocates 1 t.2.mem ∨ (∀ w ∈ t.2.rnd, w ∈ s.graph.objects.map fun o => (s.graph.obj o).id) ∨
          ∃ path, attr.objpath = some path ∧
            (s.graph.allowed acls (some cl) (some path) .publish = false ∨ ¬ Allocates 2 t.2.mem ∨
              ∃ x ∈ s.graph.path, (s.graph.obj x).pathKey = some path) := by
      have hmem' : Allocates 2 t.2.mem ↔ Allocates 1 s'.mem := by
        rw [allocates_succ, show s'.mem = t.2.mem.tail from htail]
        exact and_iff_right (allocates_one.1 hmem)
      rw [or_iff_right (not_not.2 hmem), or_iff_right hword, hmem']
      rfl
    rcases placeObject_cases acls h hsame htypes (s := s') hback hinv attr cl with
      ⟨hnone, hwhy, hsame'⟩ | ⟨hplaced, hwhy, hreg⟩
    · exact .inl ⟨hnone, hrefused.1 hwhy, hsame'⟩
    · exact .inr ⟨_, hplaced, fun hr => hwhy (hrefused.2 hr), hreg⟩

/-! ## The message -/

/-- The attributes of an `UBUS_MSG_ADD_OBJECT` message, with the payload of the signature. -/
structure AddMsg where
  objtype : Option UInt32
  signature : Option Bytes
  objpath : Option Str

/-- What the handler sees of the attributes. -/
def AddMsg.decode (m : AddMsg) : Option AddAttr :=
  match m.signature with
  | none => some ⟨m.objtype, none, m.objpath⟩
  | some sig => (signatureAttrs sig).map fun attrs => ⟨m.objtype, some attrs, m.objpath⟩

theorem AddMsg.exists_decode (m : AddMsg) : ∃ attr, m.decode = some attr := by
  unfold AddMsg.decode
  split
  · exact ⟨_, rfl⟩
  · rename_i sig _
    obtain ⟨attrs, hattrs⟩ := signatureAttrs_returns sig
    rw [hattrs]
    exact ⟨_, rfl⟩

theorem AddMsg.decode_eq {m : AddMsg} {attr : AddAttr} (h : m.decode = some attr) :
    attr.objtype = m.objtype ∧ attr.objpath = m.objpath ∧
      attr.signature = m.signature.bind signatureAttrs := by
  unfold AddMsg.decode at h
  cases hsig : m.signature with
  | none =>
    rw [hsig] at h
    obtain rfl := Option.some.inj h
    exact ⟨rfl, rfl, rfl⟩
  | some sig =>
    rw [hsig] at h
    obtain ⟨attrs, hattrs, rfl⟩ := Option.map_eq_some_iff.1 h
    exact ⟨rfl, rfl, hattrs.symm⟩

/-- `ubusd_handle_add_object` on a message. -/
def handleAddObject (acls : Acls) (cl : Ptr) (m : AddMsg) (s : St) : Option (Status × St) :=
  m.decode.map fun attr => ubusdHandleAddObject acls cl attr s

/-- The type is the one that the message asks for: the type with this id, or a new one whose methods
    are all the attributes of the signature. -/
def TypeAsked (m : AddMsg) (g g' : Graph) (type : Option Ptr) : Prop :=
  match m.objtype, m.signature with
  | some id, _ => ∃ t ∈ g.objTypes, (g.typ t).id = id ∧ type = some t ∧ t ∈ g'.objTypes
  | none, some sig => ∃ t ∉ g.objTypes, type = some t ∧ t ∈ g'.objTypes ∧
      Signature sig 0 (g'.typ t).methods
  | none, none => type = none

/-- There is a new object with the path and the type of the message. -/
def Added (m : AddMsg) (g g' : Graph) : Prop :=
  ∃ o ∉ g.objects, o ∈ g'.objects ∧ (g'.obj o).pathKey = m.objpath ∧
    (o ∈ g'.path ↔ m.objpath ≠ none) ∧ TypeAsked m g g' (g'.obj o).type

/-- A failure leaves the registry as it was, and success adds the object. -/
def AllOrNothing (acls : Acls) (cl : Ptr) (m : AddMsg) (s : St) : Prop :=
  ∃ r, handleAddObject acls cl m s = some r ∧ (r.1 ≠ .ok → Untouched s.graph r.2.graph) ∧
    (r.1 = .ok → Added m s.graph r.2.graph)

/-- The type that the message asks for exists, or its signature is well formed and there is memory
    and an id for a new type. -/
def TypeGiven (m : AddMsg) (s : St) : Prop :=
  match m.objtype, m.signature with
  | some id, _ => ∃ t ∈ s.graph.objTypes, (s.graph.typ t).id = id
  | none, some sig => ∃ ms, Signature sig 0 ms ∧ Allocates (ms.length + 1) s.mem ∧
      ∃ w ∈ s.rnd, w ∉ s.graph.objTypes.map fun t => (s.graph.typ t).id
  | none, none => True

section
variable {acls : Acls} {cl : Ptr} {m : AddMsg} {attr : AddAttr} {s : St}

/-- The type of the new object is the one that was asked for exactly if that can be given. -/
theorem typeAsked_iff (h : Inv none s.graph) (hattr : m.decode = some attr) {g' : Graph}
    (htypes : g'.objTypes = (createType attr s).2.graph.objTypes ∧
      g'.typ = (createType attr s).2.graph.typ) :
    TypeAsked m s.graph g' (createType attr s).1 ↔ TypeGiven m s := by
  obtain ⟨hobjtype, -, hsig⟩ := AddMsg.decode_eq hattr
  unfold TypeAsked TypeGiven
  unfold createType at htypes ⊢
  rw [hobjtype, hsig] at htypes ⊢
  cases hid : m.objtype with
  | some id =>
    rw [hid] at htypes
    dsimp only at htypes ⊢
    refine ⟨fun ⟨t, ht, hid, _⟩ => ⟨t, ht, hid⟩, fun ⟨t, ht, hid⟩ => ?_⟩
    obtain ⟨u, hu⟩ : ∃ u, s.graph.objTypes.find? (fun t => (s.graph.typ t).id = id) = some u :=
      Option.isSome_iff_exists.1 (List.find?_isSome.2 ⟨t, ht, by simpa using hid⟩)
    have hget : ubusGetObjType id s = (some u, { s with
        graph := s.graph.modTyp u fun x => { x with refcount := x.refcount + 1 } }) := by
      unfold ubusGetObjType
      rw [hu]
    have hmem := List.mem_of_find?_eq_some hu
    refine ⟨u, hmem, by simpa using List.find?_some hu, by rw [hget], ?_⟩
    rw [htypes.1, hget]
    exact hmem
  | none =>
    rw [hid] at htypes
    cases hbytes : m.signature with
    | none =>
      rw [hbytes] at htypes
      exact iff_of_true rfl trivial
    | some sig =>
      rw [hbytes] at htypes
      obtain ⟨attrs, hattrs⟩ := signatureAttrs_returns sig
      rw [Option.bind_some, hattrs] at htypes ⊢
      dsimp only at htypes ⊢
      constructor
      · rintro ⟨t, -, hsome, -, hsigma⟩
        have hms := signatureAttrs_eq hsigma
        obtain rfl := Option.some.inj (hattrs.symm.trans hms)
        refine ⟨_, hsigma, (ubusCreateObjType_isSome _ s).1 ?_⟩
        rw [hsome]
        simp
      · rintro ⟨ms, hsigma, halloc⟩
        obtain rfl := Option.some.inj (hattrs.symm.trans (signatureAttrs_eq hsigma))
        have hne := (ubusCreateObjType_isSome ms s).2 halloc
        obtain ⟨-, ⟨hnone, -⟩ | ⟨t, id, ms', hsome, hnot, hlist, hself, -, s', hmethods⟩⟩ :=
          ubusCreateObjType_spec h (ms.map fun m => ⟨m, true⟩)
        · exact absurd hnone hne
        · rw [createMethods_eq] at hmethods
          split_ifs at hmethods
          obtain rfl := Option.some.inj hmethods
          refine ⟨t, hnot, hsome, ?_, ?_⟩
          · rw [htypes.1, hlist]
            exact List.mem_cons_self
          · rw [htypes.2, hself]
            exact hsigma

/-- **`ADD_OBJECT` is all or nothing**, in every state of ubusd, exactly if the type that the message
    asks for can be given, or the object is refused for another reason. -/
theorem addObject_allOrNothing_iff (acls : Acls) (mem₀ : List Bool) (steps : List Step) {s : St}
    (hs : s.graph = (Run.run (step acls) (ubusdObjInit mem₀) steps).graph) (cl : Ptr) (m : AddMsg) :
    AllOrNothing acls cl m s ↔
      TypeGiven m s ∨ ∀ attr, m.decode = some attr → Refused acls cl attr s := by
  have h : Inv none s.graph := by
    rw [hs]
    exact (reachable_induct acls (P := fun _ => True) trivial (fun _ _ _ => trivial) mem₀ steps).1
  obtain ⟨attr, hattr⟩ := m.exists_decode
  have hrefused : (∀ attr, m.decode = some attr → Refused acls cl attr s) ↔ Refused acls cl attr s := by
    rw [hattr]
    exact ⟨fun hall => hall attr rfl, fun hr attr' heq => Option.some.inj heq ▸ hr⟩
  have hpath := (AddMsg.decode_eq hattr).2.1
  rw [hrefused]
  unfold AllOrNothing handleAddObject ubusdHandleAddObject
  rw [hattr, Option.map_some]
  dsimp only
  rcases ubusdCreateObject_cases acls h cl attr with
    ⟨hnone, hwhy, hsame⟩ | ⟨o, hsome, hwhy, hreg⟩
  · rw [hnone]
    refine iff_of_true ⟨_, rfl, fun _ => hsame, fun hok => by cases hok⟩ (.inr hwhy)
  · rw [hsome, or_iff_left hwhy]
    have hasked := typeAsked_iff h hattr hreg.types
    dsimp only
    constructor
    · rintro ⟨r, hr, -, hadded⟩
      obtain rfl := Option.some.inj hr
      obtain ⟨o', hnew, hmem, -, -, htype⟩ := hadded rfl
      rw [send_graph, hreg.objects] at hmem
      obtain rfl : o' = o := (List.mem_cons.1 hmem).resolve_right hnew
      rw [send_graph, hreg.type] at htype
      exact hasked.1 htype
    · intro hgiven
      refine ⟨_, rfl, fun hne => absurd rfl hne, fun _ => ⟨o, hreg.new, ?_, ?_, ?_, ?_⟩⟩
      · rw [send_graph, hreg.objects]
        exact List.mem_cons_self
      · rw [send_graph, hreg.path, hpath]
      · rw [send_graph, hreg.listed, hpath]
      · rw [send_graph, hreg.type]
        exact hasked.2 hgiven

end

/-- The signature of one method without arguments. -/
def oneMethod : Bytes := [0x82, 0, 0, 8, 0, 1, 109, 0]

/-- ubusd with a client. -/
def oneClient : St := Run.run (step Acls.empty) (ubusdObjInit [])
  [⟨.connect (some ⟨0, 0, [], []⟩), [], [2000]⟩]

/-- An object with a method. -/
theorem addObject_oneMethod :
    let m : AddMsg := ⟨none, some oneMethod, some [97]⟩
    let s := { oneClient with rnd := [3000, 4000] }
    TypeGiven m s ∧ AllOrNothing Acls.empty 3 m s := by
  intro m s
  have hsig : Signature oneMethod 0 [⟨[109], oneMethod⟩] := by
    have hend : Signature oneMethod 8 [] := .done
    have hlen : Blobmsg.blobRawLen oneMethod 0 = some 8 := by decide +kernel
    exact .attr hlen (by decide) (by decide) (by decide +kernel) (by decide +kernel) hend
  have hgiven : TypeGiven m s := ⟨_, hsig, by decide +kernel, 3000, by decide +kernel, by decide +kernel⟩
  exact ⟨hgiven, (addObject_allOrNothing_iff Acls.empty []
    [⟨.connect (some ⟨0, 0, [], []⟩), [], [2000]⟩] (s := s) rfl 3 m).2 (.inl hgiven)⟩

/-- A message with an unknown type registers an object without a type. -/
theorem addObject_unknownType :
    let m : AddMsg := ⟨some 77, none, some [97]⟩
    let s := { oneClient with rnd := [3000] }
    (handleAddObject Acls.empty 3 m s).map (·.1) = some .ok ∧ ¬ AllOrNothing Acls.empty 3 m s := by
  intro m s
  have hok : (handleAddObject Acls.empty 3 m s).map (·.1) = some .ok := by decide +kernel
  refine ⟨hok, ?_⟩
  rintro ⟨r, hr, -, hadded⟩
  rw [hr, Option.map_some] at hok
  obtain ⟨o, -, -, -, -, t, ht, -⟩ := hadded (Option.some.inj hok)
  have hnone : s.graph.objTypes = [] := by decide +kernel
  rw [hnone] at ht
  cases ht

end Ubus
