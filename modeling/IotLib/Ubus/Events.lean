/-
  The delivery of events: the tree of patterns stays sorted and the sequence numbers that mark the
  objects stay behind, so that an event is sent once to each object with a matching pattern.
-/
import IotLib.Ubus.EventAcl

namespace Ubus

/-! ## The tree of patterns -/

def PatternsSorted (g : Graph) : Prop :=
  g.patterns.Pairwise fun a b => (g.ev a).key ≤ (g.ev b).key

section
variable {acls : Acls} {F : Ptr → Prop} {x y : Option Ptr} {g g' : Graph}

theorem PatternsSorted.congr (h : PatternsSorted g) (hpat : g'.patterns.Sublist g.patterns)
    (hev : g'.ev = g.ev) : PatternsSorted g' := by
  unfold PatternsSorted
  rw [hev]
  exact h.sublist hpat

theorem PatternsSorted.addEvent (h : PatternsSorted g) (hi : Inv x g) (o : Ptr) (key : Str)
    (part : Bool) : PatternsSorted ({ g with next := g.next + 1 }.addEvent g.next o key part) := by
  set g₁ := { g with ev := Function.update g.ev g.next ⟨o, key, part⟩ } with hg₁
  have hold : ∀ e ∈ g.patterns, (g₁.ev e).key = (g.ev e).key := by
    intro e he
    have hne : e ≠ g.next := (hi.ev.fresh e he).ne
    simp only [hg₁, Function.update_of_ne hne]
  have hsorted : g.patterns.Pairwise fun a b => (g₁.ev a).key ≤ (g₁.ev b).key := by
    refine h.imp_of_mem fun ha hb hab => ?_
    rw [hold _ ha, hold _ hb]
    exact hab
  exact @Prefix.insertKey_sorted _ _ _ _ _ _ _ _ (fun e => (g₁.ev e).key) g.next _ hsorted

theorem PatternsSorted.step (hs : GStep acls F x g y g') (hi : Inv x g) (h : PatternsSorted g) :
    PatternsSorted g' := by
  cases hs with
  | next | addSub | delSub | newType | setMethods | getType | giveTo | unregister | newClient
  | delClient => exact h
  | addEvent key part ho _ _ => exact h.addEvent hi _ key part
  | delEvent e => exact h.congr List.erase_sublist rfl
  | unref =>
    rw [ubusUnrefObjectType_keeps]
    exact h
  | newObj =>
    rw [refType_keeps]
    exact h
  | insertPath ho hk hg =>
    obtain ⟨-, rfl⟩ := insertPath_eq hg
    exact h

end

/-! ## The sequence numbers -/

/-- No object is marked with a number that comes later. -/
def St.Seen (s : St) : Prop := ∀ o, s.eventSeen o ≤ s.objEventSeq

section
variable {s : St} (acls : Acls)

theorem St.Seen.malloc (h : s.Seen) : (malloc s).2.Seen := by
  unfold Ubus.malloc
  split <;> exact h

theorem St.Seen.calloc (h : s.Seen) : (calloc s).2.Seen := by
  unfold Ubus.calloc
  dsimp only
  split_ifs <;> exact h.malloc

theorem St.Seen.allocId (h : s.Seen) (used : List UInt32) (val : UInt32) :
    (ubusAllocId used val s).2.Seen := by
  unfold ubusAllocId
  split_ifs <;> exact h

theorem St.Seen.foldl {f : St → Ptr → St} (hf : ∀ s p, s.Seen → (f s p).Seen) :
    ∀ (ps : List Ptr) {s : St}, s.Seen → (ps.foldl f s).Seen
  | [], _, h => h
  | p :: ps, s, h => St.Seen.foldl hf ps (hf s p h)

theorem St.Seen.sendEventMsg (h : s.Seen) (cl : Option Ptr) (o : Ptr) (id : Str) :
    (ubusdSendEventMsg cl o id s).Seen := by
  unfold ubusdSendEventMsg
  split_ifs
  · exact h
  · exact h
  · intro p
    change Function.update s.eventSeen o s.objEventSeq p ≤ s.objEventSeq
    rw [Function.update_apply]
    split_ifs
    · exact le_rfl
    · exact h p

theorem St.Seen.sendEvent (h : s.Seen) (cl : Option Ptr) (id : Str) :
    (ubusdSendEvent acls cl id s).2.Seen := by
  unfold ubusdSendEvent
  split_ifs
  · have hnext : St.Seen { s with objEventSeq := s.objEventSeq + 1 } :=
      fun o => (h o).trans (Nat.le_succ _)
    exact St.Seen.foldl (fun s e hs => hs.sendEventMsg cl _ id) _ hnext
  · exact h

theorem St.Seen.notify (h : s.Seen) (o : Ptr) : (ubusNotifySubscription o s).Seen := by
  unfold ubusNotifySubscription
  split_ifs <;> exact h.malloc

theorem St.Seen.subscribe (h : s.Seen) (o target : Ptr) : (ubusSubscribe o target s).Seen := by
  have hc := h.calloc
  unfold ubusSubscribe
  generalize Ubus.calloc s = r at hc ⊢
  rcases r with ⟨_ | p, s'⟩
  · exact hc
  · dsimp only
    split_ifs
    · exact St.Seen.notify (s := { s' with graph := s'.graph.addSub p o target }) hc target
    · exact hc

theorem St.Seen.unsubscribe (h : s.Seen) (p : Ptr) : (ubusUnsubscribe s p).Seen := by
  unfold ubusUnsubscribe
  dsimp only
  split_ifs
  · exact St.Seen.notify (s := { s with graph := s.graph.delSub p }) h _
  · exact h

theorem St.Seen.notifyUnsubscribe (h : s.Seen) (p : Ptr) : (ubusNotifyUnsubscribe s p).Seen := by
  unfold ubusNotifyUnsubscribe
  refine St.Seen.unsubscribe ?_ p
  split_ifs <;> exact h.malloc

theorem St.Seen.createMethods : ∀ (sig : List SigAttr) {s : St}, s.Seen →
    (createMethods sig s).2.Seen
  | [], _, h => h
  | a :: sig, s, h => by
    rw [Ubus.createMethods]
    split_ifs
    · exact St.Seen.createMethods sig h.malloc
    · exact h.malloc
    · exact h

theorem St.Seen.createObjType (h : s.Seen) (sig : List SigAttr) :
    (ubusCreateObjType sig s).2.Seen := by
  have hc := h.calloc
  unfold ubusCreateObjType
  generalize Ubus.calloc s = r at hc ⊢
  rcases r with ⟨_ | t, s'⟩
  · exact hc
  · dsimp only
    have ha := St.Seen.allocId hc (s'.graph.objTypes.map fun t => (s'.graph.typ t).id) 0
    generalize ubusAllocId (s'.graph.objTypes.map fun t => (s'.graph.typ t).id) 0 s' = r at ha ⊢
    rcases r with ⟨_ | id, s₁⟩
    · exact ha
    · dsimp only
      split
      · exact St.Seen.createMethods sig (s := { s₁ with graph := _ }) ha
      · exact St.Seen.createMethods sig (s := { s₁ with graph := _ }) ha

theorem St.Seen.createType (h : s.Seen) (attr : AddAttr) : (createType attr s).2.Seen := by
  unfold Ubus.createType ubusGetObjType
  split
  · split <;> exact h
  · exact h.createObjType _
  · exact h

theorem St.Seen.createInternal (h : s.Seen) (type : Option Ptr) (id : UInt32) :
    (ubusdCreateObjectInternal type id s).2.Seen := by
  have hc := h.calloc
  unfold ubusdCreateObjectInternal
  generalize Ubus.calloc s = r at hc ⊢
  rcases r with ⟨_ | o, s'⟩
  · exact hc
  · dsimp only
    have ha := St.Seen.allocId hc (s'.graph.objects.map fun o => (s'.graph.obj o).id) id
    generalize ubusAllocId (s'.graph.objects.map fun o => (s'.graph.obj o).id) id s' = r at ha ⊢
    rcases r with ⟨_ | i, s₁⟩
    · exact ha
    · intro p
      change Function.update s₁.eventSeen o 0 p ≤ s₁.objEventSeq
      rw [Function.update_apply]
      split_ifs
      · exact Nat.zero_le _
      · exact ha p

theorem St.Seen.freeObject (h : s.Seen) (o : Ptr) : (ubusdFreeObject acls s o).Seen := by
  have hclean : ∀ t : St, t.Seen → (ubusdEventCleanupObject o t).Seen := fun t ht =>
    St.Seen.foldl (f := ubusdDeleteEventSource) (fun _ _ hs => hs) (t.graph.obj o).events ht
  have hpath : ∀ t : St, t.Seen → St.Seen (if (t.graph.obj o).pathKey ≠ none then
      { ubusdSendObjEvent acls false t with
        graph := { (ubusdSendObjEvent acls false t).graph with
          path := (ubusdSendObjEvent acls false t).graph.path.erase o } }
      else t) := by
    intro t ht
    split_ifs
    · exact St.Seen.sendEvent acls ht none (objEventId false)
    · exact ht
  exact hpath _ (hclean _ (St.Seen.foldl (fun _ p hs => hs.notifyUnsubscribe p) _
    (St.Seen.foldl (fun _ p hs => hs.unsubscribe p) (s.graph.obj o).targetList h)))

theorem St.Seen.createObject (h : s.Seen) (cl : Ptr) (attr : AddAttr) :
    (ubusdCreateObject acls cl attr s).2.Seen := by
  have hi := (h.createType attr).createInternal (Ubus.createType attr s).1 0
  unfold ubusdCreateObject
  dsimp only
  split
  · exact hi
  · rename_i o _
    set s₁ : St := { (ubusdCreateObjectInternal (Ubus.createType attr s).1 0
      (Ubus.createType attr s).2).2 with graph := _ }
    have hs₁ : s₁.Seen := hi
    unfold placeObject
    split
    · exact hs₁
    · split_ifs
      · exact hs₁.freeObject acls o
      · exact hs₁.malloc.freeObject acls o
      · dsimp only
        split
        · exact hs₁.malloc.freeObject acls o
        · rename_i g _
          exact St.Seen.sendEvent acls (s := { (Ubus.malloc s₁).2 with graph := g }) hs₁.malloc none
            (objEventId true)

theorem St.Seen.newClient (h : s.Seen) (cred : Option Cred) : (ubusdProtoNewClient cred s).Seen := by
  have hc := h.calloc
  unfold ubusdProtoNewClient
  generalize Ubus.calloc s = r at hc ⊢
  rcases r with ⟨_ | c, s'⟩
  · exact hc
  · dsimp only
    cases cred with
    | none => exact hc
    | some cred =>
      have ha := St.Seen.allocId hc (s'.graph.clients.map fun c => (s'.graph.cli c).id) 0
      generalize ubusAllocId (s'.graph.clients.map fun c => (s'.graph.cli c).id) 0 s' = r at ha ⊢
      rcases r with ⟨_ | id, s₁⟩
      · exact ha
      · dsimp only
        set s₂ : St := { s₁ with graph := _ }
        have hs₂ : s₂.Seen := ha
        split_ifs
        · exact hs₂.malloc
        · exact hs₂.malloc.malloc
        · exact hs₂.malloc.malloc

theorem St.Seen.disconnect (h : s.Seen) (c : Ptr) : (handleClientDisconnect acls c s).Seen :=
  St.Seen.foldl (fun _ o hs => hs.freeObject acls o) (s.graph.cli c).objects h

theorem St.Seen.register (h : s.Seen) (cl : Ptr) (reg : EvReg) :
    (ubusdAllocEventPattern acls cl reg s).2.Seen := by
  have hc := h.calloc
  unfold ubusdAllocEventPattern
  split
  · split_ifs
    · exact h
    · split
      · exact h
      · split_ifs
        · exact h
        · dsimp only
          split_ifs
          · exact h
          · generalize Ubus.calloc s = r at hc ⊢
            rcases r with ⟨_ | e, s'⟩ <;> exact hc
  · exact h

theorem St.Seen.addWatch (h : s.Seen) (cl : Ptr) (objid target : Option UInt32) :
    (ubusdHandleAddWatch acls cl objid target s).2.Seen := by
  unfold ubusdHandleAddWatch
  split
  · split
    · exact h
    · split_ifs
      · exact h
      · split
        · exact h
        · split_ifs
          · exact h
          · exact h
          · exact h.subscribe _ _
          · exact h
  · exact h

theorem St.Seen.removeWatch (h : s.Seen) (cl : Ptr) (objid target : Option UInt32) :
    (ubusdHandleRemoveWatch cl objid target s).2.Seen := by
  unfold ubusdHandleRemoveWatch
  split
  · split
    · exact h
    · split_ifs
      · exact h
      · split
        · exact h
        · exact h.unsubscribe _
  · exact h

theorem St.Seen.addObject (h : s.Seen) (cl : Ptr) (attr : AddAttr) :
    (ubusdHandleAddObject acls cl attr s).2.Seen := by
  have hc := h.createObject acls cl attr
  unfold ubusdHandleAddObject
  dsimp only
  split <;> exact hc

theorem St.Seen.removeObject (h : s.Seen) (cl : Ptr) (objid : Option UInt32) :
    (ubusdHandleRemoveObject acls cl objid s).2.Seen := by
  unfold ubusdHandleRemoveObject
  split
  · exact h
  · split
    · exact h
    · split_ifs
      · exact h
      · exact St.Seen.freeObject acls (s := s.send _ _) h _

theorem St.Seen.receive (h : s.Seen) (cl : Ptr) (req : Req) :
    (ubusdProtoReceiveMessage acls cl req s).Seen := by
  cases req with
  | addObject attr => exact h.addObject acls cl attr
  | removeObject objid => exact h.removeObject acls cl objid
  | subscribe objid target => exact h.addWatch acls cl objid target
  | unsubscribe objid target => exact h.removeWatch cl objid target
  | register reg => exact h.register acls cl reg
  | event id =>
    change (ubusdForwardEvent acls cl id s).2.Seen
    unfold ubusdForwardEvent
    split
    · exact h
    · split_ifs
      · exact h
      · exact h.sendEvent acls _ _

theorem St.Seen.step (h : s.Seen) (st : Step) : (step acls s st).Seen := by
  have hs : St.Seen { s with mem := st.mem, rnd := st.rnd } := h
  unfold Ubus.step
  dsimp only
  split
  · exact hs.newClient _
  · split_ifs
    · exact hs.receive acls _ _
    · exact hs
  · split_ifs
    · exact hs.disconnect acls _
    · exact hs

theorem seen_reachable (mem : List Bool) (steps : List Step) :
    (Run.run (Ubus.step acls) (ubusdObjInit mem) steps).Seen := by
  have hadm : Run.Admits (Ubus.step acls) (fun _ _ => True) (ubusdObjInit mem) steps :=
    Run.Admits.of_forall fun _ _ => trivial
  refine hadm.invariant (fun s st _ hs => hs.step acls st) ?_
  have h0 : St.Seen { mem := mem } := fun _ => Nat.zero_le _
  exact ((h0.createInternal none 1).createInternal none 2).createInternal none 3

end

/-! ## Deliveries -/

/-- The messages for the objects `os`, numbered from `seq`. -/
def deliveries (g : Graph) (id : Str) (seq : Nat) (os : List Ptr) : List (Option Ptr × Out) :=
  os.mapIdx fun i o => ((g.obj o).client, .event (g.obj o).id id (seq + 1 + i))

theorem deliveries_cons (g : Graph) (id : Str) (seq : Nat) (o : Ptr) (os : List Ptr) :
    deliveries g id seq (o :: os) =
      ((g.obj o).client, .event (g.obj o).id id (seq + 1)) :: deliveries g id (seq + 1) os := by
  simp only [deliveries, List.mapIdx_cons, List.cons.injEq, true_and, Nat.add_zero]
  congr 1
  funext i o
  rw [show seq + 1 + (i + 1) = seq + 1 + 1 + i by omega]

/-- The event goes once to each object that is not marked yet. -/
theorem sendEventMsgs_out (cl : Option Ptr) (id : Str) : ∀ (es : List Ptr) (s : St),
    ∃ os : List Ptr, os.Nodup ∧
      (∀ o, o ∈ os ↔ (∃ e ∈ es, (s.graph.ev e).obj = o) ∧ (s.graph.obj o).client ≠ cl ∧
        s.eventSeen o ≠ s.objEventSeq) ∧
      (es.foldl (fun s e => ubusdSendEventMsg cl (s.graph.ev e).obj id s) s).out =
        s.out ++ deliveries s.graph id s.eventSeq os
  | [], s => ⟨[], List.nodup_nil, by simp, by simp [deliveries]⟩
  | e :: es, s => by
    set o := (s.graph.ev e).obj with ho
    rw [List.foldl_cons]
    by_cases hskip : (s.graph.obj o).client = cl ∨ s.eventSeen o = s.objEventSeq
    · have hsame : ubusdSendEventMsg cl o id s = s := by
        unfold ubusdSendEventMsg
        split_ifs with h1 h2
        · rfl
        · rfl
        · exact absurd hskip (not_or.2 ⟨h1, h2⟩)
      rw [hsame]
      obtain ⟨os, hnd, hmem, hout⟩ := sendEventMsgs_out cl id es s
      refine ⟨os, hnd, fun p => ?_, hout⟩
      rw [hmem]
      constructor
      · rintro ⟨⟨e', he', hp⟩, hrest⟩
        exact ⟨⟨e', List.mem_cons_of_mem e he', hp⟩, hrest⟩
      · rintro ⟨⟨e', he', rfl⟩, hrest⟩
        rcases List.mem_cons.1 he' with rfl | he'
        · exact absurd hskip (not_or.2 hrest)
        · exact ⟨⟨e', he', rfl⟩, hrest⟩
    · obtain ⟨hcl, hseen⟩ := not_or.1 hskip
      set s' := ubusdSendEventMsg cl o id s with hs'
      have hsent : s' = { s with
          eventSeen := Function.update s.eventSeen o s.objEventSeq
          eventSeq := s.eventSeq + 1
          out := s.out ++ [((s.graph.obj o).client, .event (s.graph.obj o).id id (s.eventSeq + 1))] } := by
        rw [hs', ubusdSendEventMsg, if_neg hcl, if_neg hseen]
        rfl
      obtain ⟨os, hnd, hmem, hout⟩ := sendEventMsgs_out cl id es s'
      have hnot : o ∉ os := by
        intro hin
        refine ((hmem o).1 hin).2.2 ?_
        rw [hsent]
        exact Function.update_self o _ _
      refine ⟨o :: os, List.nodup_cons.2 ⟨hnot, hnd⟩, fun p => ?_, ?_⟩
      · rw [List.mem_cons, hmem, hsent]
        dsimp only
        rw [Function.update_apply]
        constructor
        · rintro (rfl | ⟨⟨e', he', hp⟩, hc, hne⟩)
          · exact ⟨⟨e, List.mem_cons_self, rfl⟩, hcl, hseen⟩
          · refine ⟨⟨e', List.mem_cons_of_mem e he', hp⟩, hc, ?_⟩
            split_ifs at hne with heq
            · exact absurd rfl hne
            · exact hne
        · rintro ⟨⟨e', he', hp⟩, hc, hne⟩
          by_cases heq : p = o
          · exact Or.inl heq
          · rw [if_neg heq]
            rcases List.mem_cons.1 he' with rfl | he'
            · exact absurd hp.symm heq
            · exact Or.inr ⟨⟨e', he', hp⟩, hc, hne⟩
      · rw [hout, deliveries_cons, hsent, List.append_assoc]
        rfl

/-- **Events are delivered exactly**: once to each object which has a matching
    pattern and does not belong to the sender. -/
theorem event_delivery_exact (acls : Acls) (mem : List Bool) (steps : List Step)
    (sender : Option Ptr) (id : Str) (s : St) (hs : s = Run.run (step acls) (ubusdObjInit mem) steps)
    (hsend : s.graph.allowed acls sender (some id) .send = true) :
    ∃ os : List Ptr, os.Nodup ∧
      (∀ o, o ∈ os ↔ (∃ e ∈ s.graph.patterns, (s.graph.ev e).obj = o ∧
        ((s.graph.ev e).key = id ∨ (s.graph.ev e).part = true ∧ (s.graph.ev e).key <+: id)) ∧
        (s.graph.obj o).client ≠ sender) ∧
      (ubusdSendEvent acls sender id s).2.out = s.out ++ deliveries s.graph id s.eventSeq os := by
  have hsorted : PatternsSorted s.graph := by
    rw [hs]
    exact (reachable_induct acls List.Pairwise.nil (fun hst hi h => h.step hst hi) mem steps).2
  have hseen : s.Seen := by
    rw [hs]
    exact seen_reachable acls mem steps
  obtain ⟨os, hnd, hmem, hout⟩ := sendEventMsgs_out sender id (s.graph.matching id)
    { s with objEventSeq := s.objEventSeq + 1 }
  refine ⟨os, hnd, fun o => ?_, ?_⟩
  · have hfresh : s.eventSeen o ≠ s.objEventSeq + 1 := (Nat.lt_succ_of_le (hseen o)).ne
    rw [hmem]
    dsimp only
    simp only [Graph.matching, mem_matchLoop _ _ hsorted]
    constructor
    · rintro ⟨⟨e, ⟨he, hcov⟩, heo⟩, hc, -⟩
      exact ⟨⟨e, he, heo, hcov⟩, hc⟩
    · rintro ⟨⟨e, he, heo, hcov⟩, hc⟩
      exact ⟨⟨e, ⟨he, hcov⟩, heo⟩, hc, hfresh⟩
  · unfold ubusdSendEvent
    rw [if_pos hsend]
    exact hout

/-- The object with the pattern "xy*" gets the event "xyz" of root. -/
theorem event_delivery_exact_xyz :
    let acls := Acls.empty.insert
      { key := [120], part := true, user := some [117], group := none, listen := true }
    let s := Run.run (step acls) (ubusdObjInit []) (listenSteps [120, 121, 42])
    ∃ os : List Ptr, os.Nodup ∧
      (∀ o, o ∈ os ↔ (∃ e ∈ s.graph.patterns, (s.graph.ev e).obj = o ∧
        ((s.graph.ev e).key = [120, 121, 122] ∨
          (s.graph.ev e).part = true ∧ (s.graph.ev e).key <+: [120, 121, 122])) ∧
        (s.graph.obj o).client ≠ some 3) ∧
      (ubusdSendEvent acls (some 3) [120, 121, 122] s).2.out =
        s.out ++ deliveries s.graph [120, 121, 122] s.eventSeq os := by
  intro acls s
  exact event_delivery_exact acls [] (listenSteps [120, 121, 42]) (some 3) [120, 121, 122] s rfl
    (by decide +kernel)

end Ubus
