/-
  What the handlers of ubusd do to the object graph: every one of them is a
  sequence of elementary changes (`GStep`), each of which keeps the invariant.
-/
import IotLib.Ubus.GraphInv

namespace Ubus

/-! ## Elementary changes -/

/-- An elementary change of the graph, and of the type to which the handler holds a reference. Only
    objects in `F` are unregistered. -/
inductive GStep (acls : Acls) (F : Ptr → Prop) : Option Ptr → Graph → Option Ptr → Graph → Prop
  | next {x g} : GStep acls F x g x { g with next := g.next + 1 }
  | addSub {x g o t} : o ∈ g.objects → t ∈ g.objects →
      GStep acls F x g x ({ g with next := g.next + 1 }.addSub g.next o t)
  | delSub {x g} (p) : GStep acls F x g x (g.delSub p)
  | addEvent {x g o c} (key part) : o ∈ g.objects → (g.obj o).client = some c →
      (key = [] ∨ g.allowed acls (some c) (some key) .listen = true) →
      GStep acls F x g x ({ g with next := g.next + 1 }.addEvent g.next o key part)
  | delEvent {x g} (e) : GStep acls F x g x (g.delEvent e)
  | newType {g} (id) :
      GStep acls F none g (some g.next) ({ g with next := g.next + 1 }.newType g.next id)
  | setMethods {g t} (ms) : g.uses t = 0 →
      GStep acls F (some t) g (some t) (g.modTyp t fun ty => { ty with methods := ms })
  | getType {g t} : t ∈ g.objTypes →
      GStep acls F none g (some t) (g.modTyp t fun ty => { ty with refcount := ty.refcount + 1 })
  | unref {g t} : GStep acls F (some t) g none (ubusUnrefObjectType t g)
  | newObj {x g id} : (id ∉ g.objects.map fun o => (g.obj o).id) →
      GStep acls F x g x (refType x ({ g with next := g.next + 1 }.newObj g.next id x))
  | insertPath {x g g' o path} : o ∈ g.objects → (g.obj o).pathKey = none →
      g.insertPath o path = some g' → GStep acls F x g x g'
  | giveTo {x g o c} : o ∈ g.objects → (g.obj o).client = none → c ∈ g.connected →
      GStep acls F x g x (g.own o c)
  | unregister {g o} : F o → o ∈ g.objects → (g.obj o).events = [] → (g.obj o).subscribers = [] →
      (g.obj o).targetList = [] → GStep acls F none g (g.obj o).type (g.unregister o)
  | newClient {x g} (id cred clients) {connected} :
      (connected = g.connected ∨ connected = g.next :: g.connected) →
      GStep acls F x g x { g with
        cli := Function.update g.cli g.next ⟨id, cred, []⟩
        clients := clients
        connected := connected
        next := g.next + 1 }
  | delClient {x g c} : (g.cli c).objects = [] →
      GStep acls F x g x
        { g with clients := g.clients.erase c, connected := g.connected.erase c }

variable {x y : Option Ptr}

/-- **One change keeps the invariant.** -/
theorem GStep.inv {acls : Acls} {F : Ptr → Prop} {g g' : Graph}
    (hs : GStep acls F x g y g')
    (h : Inv x g) : Inv y g' := by
  cases hs with
  | next => exact h.next
  | addSub ho ht => exact h.addSub ho ht
  | delSub p => exact h.delSub p
  | addEvent key part ho _ _ => exact h.addEvent ho key part
  | delEvent e => exact h.delEvent e
  | newType id => exact h.newType id
  | setMethods ms _ => exact h.setMethods _ ms
  | getType ht => exact h.getType ht
  | unref => exact h.unref
  | newObj hid => exact h.newObj hid
  | insertPath ho hk hg => exact h.insertPath ho hk hg
  | giveTo ho hn hc => exact h.giveTo ho hn hc
  | unregister _ ho hev hsub htl => exact h.unregister ho hev hsub htl
  | newClient id cred clients hc => exact h.newClient id cred clients hc
  | delClient hc => exact h.delClient hc

/-- A sequence of changes. -/
inductive GSteps (acls : Acls) (F : Ptr → Prop) :
    Option Ptr → Graph → Option Ptr → Graph → Prop
  | refl {x g} : GSteps acls F x g x g
  | tail {x g y g' z g''} : GSteps acls F x g y g' → GStep acls F y g' z g'' →
      GSteps acls F x g z g''

section
variable {acls : Acls} {F : Ptr → Prop} {x y z : Option Ptr} {g g' g'' : Graph}

/-- A property that every change keeps, given the invariant, is kept by a sequence of changes. -/
theorem GSteps.induct {P : Graph → Prop}
    (hstep : ∀ {x y g g'}, GStep acls F x g y g' → Inv x g → P g → P g')
    (hs : GSteps acls F x g y g') (h : Inv x g) (hP : P g) : Inv y g' ∧ P g' := by
  induction hs with
  | refl => exact ⟨h, hP⟩
  | tail _ hstep' ih =>
    obtain ⟨hi, hp⟩ := ih
    exact ⟨hstep'.inv hi, hstep hstep' hi hp⟩

theorem GSteps.inv (hs : GSteps acls F x g y g') (h : Inv x g) : Inv y g' :=
  (hs.induct (P := fun _ => True) (fun _ _ _ => trivial) h trivial).1

theorem GSteps.trans (h : GSteps acls F x g y g') (h' : GSteps acls F y g' z g'') :
    GSteps acls F x g z g'' := by
  induction h' with
  | refl => exact h
  | tail _ hstep ih => exact ih.tail hstep

theorem GStep.steps (h : GStep acls F x g y g') : GSteps acls F x g y g' := GSteps.refl.tail h

end

/-! ## Freeing an object -/

theorem foldl_delSub_target {o : Ptr} : ∀ {ps : List Ptr} {g : Graph}, SubInv g → o ∈ g.objects →
    (g.obj o).targetList = ps → ((ps.foldl Graph.delSub g).obj o).targetList = []
  | [], g, _, _, hps => hps
  | p :: ps, g, h, ho, hps => by
    rw [List.foldl_cons]
    refine foldl_delSub_target (h.del p) ho ?_
    have hsrc := (h.source o ho p (by rw [hps]; simp)).1
    rw [delSub_targetList, if_pos hsrc.symm, hps, List.erase_cons_head]

theorem foldl_delSub_subscribers {o : Ptr} : ∀ {ps : List Ptr} {g : Graph}, SubInv g →
    o ∈ g.objects → (g.obj o).subscribers = ps →
    ((ps.foldl Graph.delSub g).obj o).subscribers = []
  | [], g, _, _, hps => hps
  | p :: ps, g, h, ho, hps => by
    rw [List.foldl_cons]
    refine foldl_delSub_subscribers (h.del p) ho ?_
    have htgt := (h.target o ho p (by rw [hps]; simp)).1
    rw [delSub_subscribers, if_pos htgt.symm, hps, List.erase_cons_head]

/-- Removing subscriptions does not fill an empty list. -/
theorem foldl_delSub_target_nil {o : Ptr} : ∀ {ps : List Ptr} {g : Graph},
    (g.obj o).targetList = [] → ((ps.foldl Graph.delSub g).obj o).targetList = []
  | [], g, h => h
  | p :: ps, g, h => by
    rw [List.foldl_cons]
    refine foldl_delSub_target_nil ?_
    rw [delSub_targetList, h]
    split_ifs <;> rfl

theorem foldl_delEvent_events {o : Ptr} : ∀ {es : List Ptr} {g : Graph}, EvInv g →
    o ∈ g.objects → (g.obj o).events = es →
    ((es.foldl Graph.delEvent g).obj o).events = []
  | [], g, _, _, hes => hes
  | e :: es, g, h, ho, hes => by
    rw [List.foldl_cons]
    refine foldl_delEvent_events (h.del e) ho ?_
    have hown := (h.listed o ho e (by rw [hes]; simp)).2
    rw [delEvent_obj]
    simp only [hown, if_true, hes, List.erase_cons_head]

/-- What removing subscriptions and event sources leaves alone. -/
structure SameObjects (g g' : Graph) : Prop where
  objects : g'.objects = g.objects
  path : g'.path = g.path
  cli : g'.cli = g.cli
  typ : g'.typ = g.typ
  next : g'.next = g.next
  ident : ∀ o, (g'.obj o).pathKey = (g.obj o).pathKey ∧ (g'.obj o).type = (g.obj o).type ∧
    (g'.obj o).client = (g.obj o).client

theorem SameObjects.refl (g : Graph) : SameObjects g g :=
  ⟨rfl, rfl, rfl, rfl, rfl, fun _ => ⟨rfl, rfl, rfl⟩⟩

theorem SameObjects.trans {g g' g'' : Graph} (h : SameObjects g g') (h' : SameObjects g' g'') :
    SameObjects g g'' :=
  ⟨h'.objects.trans h.objects, h'.path.trans h.path, h'.cli.trans h.cli, h'.typ.trans h.typ,
    h'.next.trans h.next, fun o => ⟨(h'.ident o).1.trans (h.ident o).1,
      (h'.ident o).2.1.trans (h.ident o).2.1, (h'.ident o).2.2.trans (h.ident o).2.2⟩⟩

theorem SameObjects.delSub (g : Graph) (p : Ptr) : SameObjects g (g.delSub p) :=
  ⟨rfl, rfl, rfl, rfl, rfl, fun o => by rw [delSub_obj]; exact ⟨rfl, rfl, rfl⟩⟩

theorem SameObjects.delEvent (g : Graph) (e : Ptr) : SameObjects g (g.delEvent e) :=
  ⟨rfl, rfl, rfl, rfl, rfl, fun o => by rw [delEvent_obj]; exact ⟨rfl, rfl, rfl⟩⟩

theorem SameObjects.foldl {f : Graph → Ptr → Graph} (hf : ∀ g p, SameObjects g (f g p)) :
    ∀ (ps : List Ptr) (g : Graph), SameObjects g (ps.foldl f g)
  | [], g => .refl g
  | p :: ps, g => (hf g p).trans (SameObjects.foldl hf ps (f g p))

/-- The subscriptions and the event sources of an object are removed. -/
def Graph.detach (g : Graph) (o : Ptr) : Graph :=
  let g := (g.obj o).targetList.foldl Graph.delSub g
  let g := (g.obj o).subscribers.foldl Graph.delSub g
  (g.obj o).events.foldl Graph.delEvent g

theorem SameObjects.detach (g : Graph) (o : Ptr) : SameObjects g (g.detach o) :=
  ((SameObjects.foldl SameObjects.delSub _ _).trans
    (SameObjects.foldl SameObjects.delSub _ _)).trans (SameObjects.foldl SameObjects.delEvent _ _)

theorem foldl_delEvent_subs {o : Ptr} : ∀ (es : List Ptr) (g : Graph),
    ((es.foldl Graph.delEvent g).obj o).subscribers = (g.obj o).subscribers ∧
      ((es.foldl Graph.delEvent g).obj o).targetList = (g.obj o).targetList
  | [], g => ⟨rfl, rfl⟩
  | e :: es, g => by
    obtain ⟨h1, h2⟩ := foldl_delEvent_subs (o := o) es (g.delEvent e)
    rw [delEvent_obj] at h1 h2
    exact ⟨h1, h2⟩

theorem GSteps.foldl {acls : Acls} {F : Ptr → Prop} {x : Option Ptr} {f : Graph → Ptr → Graph}
    (hf : ∀ g p, GStep acls F x g x (f g p)) :
    ∀ (ps : List Ptr) (g : Graph), GSteps acls F x g x (ps.foldl f g)
  | [], _ => .refl
  | p :: ps, g => (hf g p).steps.trans (GSteps.foldl hf ps (f g p))

theorem GSteps.detach (acls : Acls) (F : Ptr → Prop) (x : Option Ptr) (g : Graph) (o : Ptr) :
    GSteps acls F x g x (g.detach o) :=
  ((GSteps.foldl (fun _ => GStep.delSub) _ _).trans
    (GSteps.foldl (fun _ => GStep.delSub) _ _)).trans (GSteps.foldl (fun _ => GStep.delEvent) _ _)

/-- Nothing refers to a detached object any more. -/
theorem detach_empty {x : Option Ptr} {g : Graph} (h : Inv x g) {o : Ptr} (ho : o ∈ g.objects) :
    ((g.detach o).obj o).events = [] ∧ ((g.detach o).obj o).subscribers = [] ∧
      ((g.detach o).obj o).targetList = [] := by
  set g1 := (g.obj o).targetList.foldl Graph.delSub g with hg1
  set g2 := (g1.obj o).subscribers.foldl Graph.delSub g1 with hg2
  have hdel : ∀ g p, GStep Acls.empty (fun _ => False) x g x (g.delSub p) := fun _ => GStep.delSub
  have h1 : Inv x g1 := (GSteps.foldl hdel _ _).inv h
  have h2 : Inv x g2 := (GSteps.foldl hdel _ _).inv h1
  have ho1 : o ∈ g1.objects := by
    rw [(SameObjects.foldl SameObjects.delSub (g.obj o).targetList g).objects]
    exact ho
  have ho2 : o ∈ g2.objects := by
    rw [(SameObjects.foldl SameObjects.delSub (g1.obj o).subscribers g1).objects]
    exact ho1
  have ht1 : (g1.obj o).targetList = [] := foldl_delSub_target h.sub ho rfl
  have ht2 : (g2.obj o).targetList = [] := foldl_delSub_target_nil ht1
  have hs2 : (g2.obj o).subscribers = [] := foldl_delSub_subscribers h1.sub ho1 rfl
  obtain ⟨h3, h4⟩ := foldl_delEvent_subs (o := o) (g2.obj o).events g2
  exact ⟨foldl_delEvent_events h2.ev ho2 rfl, h3.trans hs2, h4.trans ht2⟩

theorem foldl_graph {f : St → Ptr → St} {f' : Graph → Ptr → Graph}
    (hf : ∀ s p, (f s p).graph = f' s.graph p) :
    ∀ (ps : List Ptr) (s : St), (ps.foldl f s).graph = ps.foldl f' s.graph
  | [], _ => rfl
  | p :: ps, s => by rw [List.foldl_cons, List.foldl_cons, foldl_graph hf ps, hf]

section
variable {acls : Acls} {F : Ptr → Prop} {s : St}

/-- `ubusd_free_object` detaches the object, unregisters it and gives back its
    reference to the type. -/
theorem ubusdFreeObject_graph (h : Inv none s.graph) (o : Ptr) :
    (ubusdFreeObject acls s o).graph =
      unrefType (s.graph.obj o).type ((s.graph.detach o).unregister o) := by
  have hdet : (ubusdEventCleanupObject o
      (((((s.graph.obj o).targetList.foldl ubusUnsubscribe s).graph.obj o).subscribers).foldl
        ubusNotifyUnsubscribe ((s.graph.obj o).targetList.foldl ubusUnsubscribe s))).graph =
      s.graph.detach o := by
    simp only [ubusdEventCleanupObject, Graph.detach,
      foldl_graph ubusdDeleteEventSource_graph, foldl_graph ubusNotifyUnsubscribe_graph,
      foldl_graph ubusUnsubscribe_graph]
  have hsame := SameObjects.detach s.graph o
  have hinv := (GSteps.detach acls (fun _ => False) none s.graph o).inv h
  simp only [ubusdFreeObject]
  split_ifs with hk
  · simp only [ubusdSendObjEvent_graph]
    rw [hdet]
    show unrefType ((s.graph.detach o).obj o).type _ = _
    rw [(hsame.ident o).2.1]
    rfl
  · -- an object without a path is not in the path tree
    rw [hdet] at hk ⊢
    have hpath : o ∉ (s.graph.detach o).path := fun hm => ((hinv.obj.path_mem o).1 hm).2 (by
      simpa using hk)
    show unrefType ((s.graph.detach o).obj o).type _ = _
    rw [(hsame.ident o).2.1, Graph.unregister, List.erase_of_not_mem hpath]
    rfl

theorem ubusdFreeObject_steps (h : Inv none s.graph) {o : Ptr}
    (ho : o ∈ s.graph.objects) (hF : F o) :
    GSteps acls F none s.graph none (ubusdFreeObject acls s o).graph := by
  have hsame := SameObjects.detach s.graph o
  have hobj : o ∈ (s.graph.detach o).objects := hsame.objects ▸ ho
  obtain ⟨h1, h2, h3⟩ := detach_empty h ho
  have hun : GSteps acls F none s.graph (s.graph.obj o).type ((s.graph.detach o).unregister o) := by
    rw [← (hsame.ident o).2.1]
    exact (GSteps.detach acls F none s.graph o).tail (.unregister hF hobj h1 h2 h3)
  rw [ubusdFreeObject_graph h o]
  cases hty : (s.graph.obj o).type with
  | none =>
    rw [hty] at hun
    exact hun
  | some t =>
    rw [hty] at hun
    exact hun.tail .unref

theorem ubusUnrefObjectType_keeps (t : Ptr) (g : Graph) :
    ubusUnrefObjectType t g = { g with
      typ := (ubusUnrefObjectType t g).typ
      objTypes := (ubusUnrefObjectType t g).objTypes } := by
  simp only [ubusUnrefObjectType]
  split_ifs <;> rfl

theorem unrefType_keeps (x : Option Ptr) (g : Graph) :
    unrefType x g = { g with
      typ := (unrefType x g).typ
      objTypes := (unrefType x g).objTypes } := by
  cases x with
  | none => rfl
  | some t => exact ubusUnrefObjectType_keeps t g

theorem ubusdFreeObject_cli (h : Inv none s.graph) (o c : Ptr) :
    ((ubusdFreeObject acls s o).graph.cli c).objects =
      (s.graph.cli c).objects.erase o := by
  rw [ubusdFreeObject_graph h o, unrefType_keeps]
  show (((s.graph.detach o).cli c).objects).erase o = _
  rw [(SameObjects.detach s.graph o).cli]

/-! ## Creating an object -/

/-- A new type, or the failure to create one. -/
theorem ubusCreateObjType_steps (acls : Acls) (h : Inv none s.graph) (sig : List SigAttr) :
    let r := ubusCreateObjType sig s
    GSteps acls F none s.graph r.1 r.2.graph ∧ r.2.graph.connected = s.graph.connected := by
  simp only [ubusCreateObjType]
  rcases hc : calloc s with ⟨r, s'⟩
  have hcase := calloc_cases s
  rw [hc] at hcase
  rcases hcase with ⟨h1, h2⟩ | ⟨h1, h2⟩ <;> simp only at h1 h2 <;> subst h1 <;> simp only
  · rw [h2]; exact ⟨.refl, rfl⟩
  · set a := ubusAllocId (s'.graph.objTypes.map fun t => (s'.graph.typ t).id) 0 s' with ha
    have hag : a.2.graph = { s.graph with next := s.graph.next + 1 } := by
      rw [ha, ubusAllocId_graph, h2]
    rcases a with ⟨id, s1⟩
    simp only at hag ⊢
    cases id with
    | none =>
      simp only
      rw [hag]; exact ⟨GStep.next.steps, rfl⟩
    | some id =>
      simp only
      set s2 : St := { s1 with graph := { s1.graph with
        typ := Function.update s1.graph.typ s.graph.next ⟨id, 1, []⟩
        objTypes := s.graph.next :: s1.graph.objTypes } } with hs2
      have hg2 : s2.graph = { s.graph with next := s.graph.next + 1 }.newType s.graph.next id := by
        rw [hs2]
        simp only [hag]
        rfl
      have hnew : GSteps acls F none s.graph (some s.graph.next) s2.graph := by
        rw [hg2]; exact (GStep.newType id).steps
      have hcon : s2.graph.connected = s.graph.connected := by rw [hg2]; rfl
      have hm : (createMethods sig s2).2.graph = s2.graph := createMethods_graph _ _
      cases hms : (createMethods sig s2).1 with
      | none =>
        simp only [hm]
        exact ⟨hnew.tail .unref, by rw [ubusUnrefObjectType_keeps]; exact hcon⟩
      | some ms =>
        simp only [hm]
        refine ⟨hnew.tail (.setMethods ms ?_), hcon⟩
        -- no object can refer to a type that did not exist
        have hnot : s.graph.next ∉ s.graph.objTypes := fun hmem =>
          absurd (h.typ.fresh _ hmem) (Nat.lt_irrefl _)
        have := (h.typ.mem s.graph.next).not.1 hnot
        rw [held_none] at this
        rw [hg2]
        show s.graph.uses s.graph.next = 0
        omega

theorem createType_steps (acls : Acls) (h : Inv none s.graph) (attr : AddAttr) :
    let r := createType attr s
    GSteps acls F none s.graph r.1 r.2.graph ∧ r.2.graph.connected = s.graph.connected := by
  simp only [createType]
  split
  · unfold ubusGetObjType
    split
    · exact ⟨.refl, rfl⟩
    · rename_i t hfind
      exact ⟨(GStep.getType (List.mem_of_find?_eq_some hfind)).steps, rfl⟩
  · exact ubusCreateObjType_steps acls h _
  · exact ⟨.refl, rfl⟩

/-- What `ubusd_create_object_internal` returns: nothing, or a new object. -/
theorem ubusdCreateObjectInternal_cases (acls : Acls) (type : Option Ptr) (id : UInt32) (s : St) :
    let r := ubusdCreateObjectInternal type id s
    (r.1 = none ∧ GSteps acls F type s.graph type r.2.graph) ∨
      ∃ id', (id' ∉ s.graph.objects.map fun o => (s.graph.obj o).id) ∧ r.1 = some s.graph.next ∧
        r.2.graph = refType type
          ({ s.graph with next := s.graph.next + 1 }.newObj s.graph.next id' type) := by
  simp only [ubusdCreateObjectInternal]
  rcases hc : calloc s with ⟨r, s'⟩
  have hcase := calloc_cases s
  rw [hc] at hcase
  rcases hcase with ⟨h1, h2⟩ | ⟨h1, h2⟩ <;> simp only at h1 h2 <;> subst h1 <;> simp only
  · exact Or.inl ⟨trivial, by rw [h2]; exact .refl⟩
  · set a := ubusAllocId (s'.graph.objects.map fun o => (s'.graph.obj o).id) id s' with ha
    have hnm : ∀ id', a.1 = some id' → id' ∉ s'.graph.objects.map fun o => (s'.graph.obj o).id :=
      fun id' he => ubusAllocId_not_mem he
    have hag : a.2.graph = { s.graph with next := s.graph.next + 1 } := by
      rw [ha, ubusAllocId_graph, h2]
    rcases a with ⟨id', s1⟩
    simp only at hag hnm ⊢
    cases id' with
    | none => exact Or.inl ⟨rfl, by simp only; rw [hag]; exact GStep.next.steps⟩
    | some id' =>
      refine Or.inr ⟨id', ?_, rfl, ?_⟩
      · have := hnm id' rfl
        rw [h2] at this
        exact this
      · simp only [hag]
        rfl

theorem refType_keeps (x : Option Ptr) (g : Graph) :
    refType x g = { g with typ := (refType x g).typ } := by
  cases x <;> rfl

theorem GStep.next_le {g g' : Graph} (h : GStep acls F x g y g') :
    g.next ≤ g'.next := by
  cases h with
  | insertPath _ _ hg =>
    obtain ⟨-, rfl⟩ := insertPath_eq hg
    exact le_rfl
  | unref =>
    rw [ubusUnrefObjectType_keeps]
  | newObj hid =>
    rw [refType_keeps]
    exact Nat.le_succ _
  | next | addSub | addEvent | newType | newClient => exact Nat.le_succ _
  | _ => exact le_rfl

theorem GSteps.next_le {g g' : Graph} (h : GSteps acls F x g y g') :
    g.next ≤ g'.next := by
  induction h with
  | refl => exact le_rfl
  | tail _ hs ih => exact ih.trans hs.next_le

theorem GSteps.unrefType {g g' : Graph} (h : GSteps acls F x g y g') :
    GSteps acls F x g none (unrefType y g') := by
  cases y with
  | none => exact h
  | some t => exact h.tail .unref

/-- The object is placed, or freed again. -/
theorem placeObject_steps (h : Inv none s.graph) {cl o : Ptr} (hF : F o) (attr : AddAttr)
    (ho : o ∈ s.graph.objects) (hk : (s.graph.obj o).pathKey = none)
    (hn : (s.graph.obj o).client = none) (hc : cl ∈ s.graph.connected) :
    GSteps acls F none s.graph none (placeObject acls cl attr o s).2.graph := by
  have hfree : ∀ s' : St, s'.graph = s.graph →
      GSteps acls F none s.graph none (ubusdFreeObject acls s' o).graph := by
    intro s' hs'
    rw [← hs'] at h ho ⊢
    exact ubusdFreeObject_steps h ho hF
  unfold placeObject
  split
  · exact (GStep.giveTo ho hn hc).steps
  · rename_i path _
    split_ifs
    · exact hfree s rfl
    · exact hfree _ (malloc_graph s)
    · simp only [malloc_graph]
      split
      · exact hfree _ (malloc_graph s)
      · rename_i g' hg'
        simp only [ubusdSendObjEvent_graph]
        obtain ⟨-, hgeq⟩ := insertPath_eq hg'
        refine (GStep.insertPath ho hk hg').steps.tail (.giveTo ?_ ?_ ?_)
        · rw [hgeq]; exact ho
        · rw [hgeq]
          exact (modObj_proj s.graph o (f := fun x => { x with pathKey := some path })
            (π := Object.client) (fun _ => rfl) o).trans hn
        · rw [hgeq]; exact hc

theorem ubusdCreateObject_steps (h : Inv none s.graph) {cl : Ptr} (attr : AddAttr)
    (hc : cl ∈ s.graph.connected) (hF : ∀ o, s.graph.next ≤ o → F o) :
    GSteps acls F none s.graph none (ubusdCreateObject acls cl attr s).2.graph := by
  have htype : GSteps acls F none s.graph (createType attr s).1 (createType attr s).2.graph ∧ _ :=
    createType_steps acls h attr
  obtain ⟨ht, hcon⟩ := htype
  set t := createType attr s with htdef
  have hi := ht.inv h
  simp only [ubusdCreateObject, ← htdef]
  rcases ubusdCreateObjectInternal_cases acls t.1 0 t.2 with ⟨h1, h2⟩ | ⟨id, hid, h1, h2⟩
  · rw [h1]
    exact (ht.trans h2).unrefType
  · rw [h1]
    have hnew := ht.trans (GStep.newObj hid).steps
    rw [← h2] at hnew
    set r := ubusdCreateObjectInternal t.1 0 t.2 with hr
    have hkeep := unrefType_keeps t.1 r.2.graph
    have hobj : (unrefType t.1 r.2.graph).obj t.2.graph.next = { id := id, type := t.1 } := by
      rw [hkeep, h2, refType_keeps]
      exact newObj_obj_self _ _ _ _
    have hu := hnew.unrefType
    refine hu.trans ?_
    refine placeObject_steps (s := { r.2 with graph := unrefType t.1 r.2.graph })
      (hu.inv h) (hF _ ht.next_le) attr ?_ ?_ ?_ ?_
    · show t.2.graph.next ∈ (unrefType t.1 r.2.graph).objects
      rw [hkeep, h2, refType_keeps]
      exact List.mem_cons_self
    · exact congrArg Object.pathKey hobj
    · exact congrArg Object.client hobj
    · show cl ∈ (unrefType t.1 r.2.graph).connected
      rw [hkeep, h2, refType_keeps]
      exact hcon ▸ hc

/-! ## Subscriptions, event sources, clients -/

theorem ubusSubscribe_steps (acls : Acls) {o t : Ptr} (ho : o ∈ s.graph.objects)
    (ht : t ∈ s.graph.objects) :
    GSteps acls F none s.graph none (ubusSubscribe o t s).graph := by
  simp only [ubusSubscribe]
  rcases hc : calloc s with ⟨r, s'⟩
  have hcase := calloc_cases s
  rw [hc] at hcase
  rcases hcase with ⟨h1, h2⟩ | ⟨h1, h2⟩ <;> simp only at h1 h2 <;> subst h1 <;> simp only
  · rw [h2]; exact .refl
  · have hadd : GSteps acls F none s.graph none (s'.graph.addSub s.graph.next o t) := by
      rw [h2]; exact (GStep.addSub ho ht).steps
    split_ifs
    · simpa using hadd
    · exact hadd

theorem mem_of_ubusdFindObject {g : Graph} {id : UInt32} {o : Ptr}
    (h : ubusdFindObject g id = some o) : o ∈ g.objects := List.mem_of_find?_eq_some h

theorem ubusdAllocEventPattern_steps (cl : Ptr) (reg : EvReg) (s : St) :
    GSteps acls F none s.graph none (ubusdAllocEventPattern acls cl reg s).2.graph := by
  unfold ubusdAllocEventPattern
  split
  · rename_i id pattern _ _
    split_ifs
    · exact .refl
    · split
      · exact .refl
      · rename_i o hfind
        simp only
        split_ifs with hcl hperm
        · exact .refl
        · exact .refl
        · rcases hc : calloc s with ⟨r, s'⟩
          have hcase := calloc_cases s
          rw [hc] at hcase
          rcases hcase with ⟨h1, h2⟩ | ⟨h1, h2⟩ <;> simp only at h1 h2 <;> subst h1 <;> simp only
          · rw [h2]; exact .refl
          · rw [h2]
            refine (GStep.addEvent _ _ (mem_of_ubusdFindObject hfind) (not_not.1 hcl) ?_).steps
            by_cases hnil : (splitPattern reg.before pattern).2 = []
            · exact Or.inl hnil
            · exact Or.inr (by simpa [hnil] using hperm)
  · exact .refl

theorem ubusdProtoNewClient_steps (cred : Option Cred) (s : St) :
    GSteps acls F none s.graph none (ubusdProtoNewClient cred s).graph := by
  unfold ubusdProtoNewClient
  rcases hc : calloc s with ⟨r, s'⟩
  have hcase := calloc_cases s
  rw [hc] at hcase
  rcases hcase with ⟨h1, h2⟩ | ⟨h1, h2⟩ <;> simp only at h1 h2 <;> subst h1 <;> simp only
  · rw [h2]; exact .refl
  · cases cred with
    | none => simp only; rw [h2]; exact GStep.next.steps
    | some cred =>
      simp only
      set a := ubusAllocId (s'.graph.clients.map fun c => (s'.graph.cli c).id) 0 s' with ha
      have hag : a.2.graph = { s.graph with next := s.graph.next + 1 } := by
        rw [ha, ubusAllocId_graph, h2]
      rcases a with ⟨id, s1⟩
      simp only at hag ⊢
      cases id with
      | none => simp only; rw [hag]; exact GStep.next.steps
      | some id =>
        simp only
        split_ifs
        · simp only [malloc_graph, hag]
          exact (GStep.newClient id cred _ (Or.inl rfl)).steps
        · simp only [malloc_graph, hag]
          exact (GStep.newClient id cred _ (Or.inl rfl)).steps
        · simp only [send_graph, malloc_graph, hag]
          exact (GStep.newClient id cred _ (Or.inr rfl)).steps

/-- Freeing the objects of a client one after the other. -/
theorem foldl_ubusdFreeObject_steps {c : Ptr} : ∀ {os : List Ptr} {s : St}, Inv none s.graph →
    (s.graph.cli c).objects = os → (∀ o ∈ os, F o) →
    GSteps acls F none s.graph none (os.foldl (ubusdFreeObject acls) s).graph ∧
      ((os.foldl (ubusdFreeObject acls) s).graph.cli c).objects = []
  | [], s, _, hos, _ => ⟨.refl, hos⟩
  | o :: os, s, h, hos, hF => by
    have ho : o ∈ s.graph.objects := (h.own.listed c o (by rw [hos]; simp)).1
    have hfree : GSteps acls F none s.graph none (ubusdFreeObject acls s o).graph :=
      ubusdFreeObject_steps h ho (hF o (by simp))
    have hcli : ((ubusdFreeObject acls s o).graph.cli c).objects = os := by
      rw [ubusdFreeObject_cli h, hos, List.erase_cons_head]
    obtain ⟨h1, h2⟩ := foldl_ubusdFreeObject_steps (hfree.inv h) hcli
      fun x hx => hF x (by simp [hx])
    exact ⟨hfree.trans h1, h2⟩

theorem handleClientDisconnect_steps (h : Inv none s.graph) (c : Ptr)
    (hF : ∀ o ∈ (s.graph.cli c).objects, F o) :
    GSteps acls F none s.graph none (handleClientDisconnect acls c s).graph := by
  have hfree : GSteps acls F none s.graph none
      ((s.graph.cli c).objects.foldl (ubusdFreeObject acls) s).graph ∧ _ :=
    foldl_ubusdFreeObject_steps h rfl hF
  exact hfree.1.tail (.delClient hfree.2)

/-- The client is no longer served. -/
theorem handleClientDisconnect_gone (acls : Acls) (h : Inv none s.graph) (c : Ptr) :
    c ∉ (handleClientDisconnect acls c s).graph.connected := by
  have hfree : GSteps acls (fun _ => True) none s.graph none
      ((s.graph.cli c).objects.foldl (ubusdFreeObject acls) s).graph ∧ _ :=
    foldl_ubusdFreeObject_steps h rfl fun _ _ => trivial
  exact (hfree.1.inv h).own.connected_nodup.not_mem_erase

/-! ## Reachable states -/

/-- The action frees the object: its owner removes it or disconnects. -/
def Frees (g : Graph) (o : Ptr) : Act → Prop
  | .message cl (.removeObject (some id)) =>
    ubusdFindObject g id = some o ∧ (g.obj o).client = some cl
  | .disconnect cl => o ∈ (g.cli cl).objects
  | _ => False

theorem ubusdProtoReceiveMessage_steps (h : Inv none s.graph) {cl : Ptr}
    (hc : cl ∈ s.graph.connected) (req : Req)
    (hF : ∀ o, Frees s.graph o (.message cl req) ∨ s.graph.next ≤ o → F o) :
    GSteps acls F none s.graph none (ubusdProtoReceiveMessage acls cl req s).graph := by
  simp only [ubusdProtoReceiveMessage, send_graph]
  cases req with
  | addObject attr =>
    have hcreate : GSteps acls F none s.graph none (ubusdCreateObject acls cl attr s).2.graph :=
      ubusdCreateObject_steps h attr hc fun o ho => hF o (Or.inr ho)
    simp only [ubusdHandleAddObject]
    split <;> exact hcreate
  | removeObject objid =>
    simp only [ubusdHandleRemoveObject]
    split
    · exact .refl
    · split
      · exact .refl
      · rename_i o hfind
        split_ifs with hcl
        · exact .refl
        · exact ubusdFreeObject_steps (s := s.send (some cl) _) h (mem_of_ubusdFindObject hfind)
            (hF o (Or.inl ⟨hfind, not_not.1 hcl⟩))
  | subscribe objid target =>
    simp only [ubusdHandleAddWatch]
    split
    · split
      · exact .refl
      · rename_i o hfind
        split_ifs
        · exact .refl
        · split
          · exact .refl
          · rename_i t hfind'
            split_ifs
            · exact .refl
            · exact .refl
            · exact ubusSubscribe_steps acls (mem_of_ubusdFindObject hfind)
                (mem_of_ubusdFindObject hfind')
            · exact .refl
    · exact .refl
  | unsubscribe objid target =>
    simp only [ubusdHandleRemoveWatch]
    split
    · split
      · exact .refl
      · split_ifs
        · exact .refl
        · split
          · exact .refl
          · simp only [ubusUnsubscribe_graph]
            exact (GStep.delSub _).steps
    · exact .refl
  | register reg => exact ubusdAllocEventPattern_steps cl reg s
  | event id =>
    simp only [ubusdForwardEvent]
    split
    · exact .refl
    · split_ifs
      · exact .refl
      · simp only [ubusdSendEvent_graph]
        exact .refl

/-- **What a step does to the graph**: a sequence of changes that unregisters
    only objects which the step frees, or which it has created. -/
theorem step_steps (h : Inv none s.graph) (st : Step)
    (hF : ∀ o, Frees s.graph o st.act ∨ s.graph.next ≤ o → F o) :
    GSteps acls F none s.graph none (step acls s st).graph := by
  simp only [step]
  cases hact : st.act with
  | connect cred =>
    exact ubusdProtoNewClient_steps cred { s with mem := st.mem, rnd := st.rnd }
  | message cl req =>
    simp only
    split_ifs with hc
    · exact ubusdProtoReceiveMessage_steps (s := { s with mem := st.mem, rnd := st.rnd }) h hc req
        fun o ho => hF o (hact ▸ ho)
    · exact .refl
  | disconnect cl =>
    simp only
    split_ifs with hc
    · exact handleClientDisconnect_steps (s := { s with mem := st.mem, rnd := st.rnd }) h cl
        fun o ho => hF o (Or.inl (hact ▸ ho))
    · exact .refl

theorem Inv.init : Inv none {} where
  obj := ⟨by simp, by simp, by simp, by simp⟩
  own := ⟨by simp, by simp, by simp, by simp, by simp⟩
  sub := ⟨by simp, by simp, by simp, by simp⟩
  ev := ⟨by simp, by simp, by simp, by simp, by simp⟩
  typ := ⟨by simp [Graph.uses, held], by simp, by simp, by simp⟩

theorem ubusdCreateObjectInternal_steps (acls : Acls) (id : UInt32) (s : St) :
    GSteps acls F none s.graph none (ubusdCreateObjectInternal none id s).2.graph := by
  rcases ubusdCreateObjectInternal_cases acls none id s with ⟨-, h⟩ | ⟨id', hid, -, h⟩
  · exact h
  · rw [h]
    exact (GStep.newObj hid).steps

theorem ubusdObjInit_steps (acls : Acls) (mem : List Bool) :
    GSteps acls F none {} none (ubusdObjInit mem).graph :=
  ((ubusdCreateObjectInternal_steps acls 1 { mem := mem }).trans
    (ubusdCreateObjectInternal_steps acls 2 _)).trans (ubusdCreateObjectInternal_steps acls 3 _)

/-- A property of graphs that holds initially and that every change keeps holds
    in every reachable state, as does the invariant. -/
theorem reachable_induct (acls : Acls) {P : Graph → Prop} (h0 : P {})
    (hstep : ∀ {x y g g'}, GStep acls (fun _ => True) x g y g' → Inv x g → P g → P g')
    (mem : List Bool)
    (steps : List Step) :
    Inv none (Run.run (step acls) (ubusdObjInit mem) steps).graph ∧
      P (Run.run (step acls) (ubusdObjInit mem) steps).graph := by
  have hinit := (ubusdObjInit_steps acls mem).induct hstep Inv.init h0
  have hadm : Run.Admits (step acls) (fun _ _ => True) (ubusdObjInit mem) steps :=
    Run.Admits.of_forall fun _ _ => trivial
  exact hadm.invariant (I := fun s => Inv none s.graph ∧ P s.graph)
    (fun s a _ hs => (step_steps hs.1 a fun _ _ => trivial).induct hstep hs.1 hs.2) hinit

/-- The agreement of the linked structures of ubusd. -/
structure GraphOk (g : Graph) : Prop where
  /-- object ids are pairwise distinct -/
  ids : (g.objects.map fun o => (g.obj o).id).Nodup
  /-- the path tree holds the objects that have a path, under distinct paths -/
  path : (∀ o, o ∈ g.path ↔ o ∈ g.objects ∧ (g.obj o).pathKey ≠ none) ∧
    (g.path.map fun o => (g.obj o).pathKey).Nodup
  /-- a client-owned object is on its owner's list only, and the owner is connected -/
  owned : ∀ o ∈ g.objects, ∀ c, (g.obj o).client = some c → c ∈ g.connected ∧
    ∀ d, (g.cli d).objects.count o = if d = c then 1 else 0
  /-- a subscription is on both of its lists or on none, between registered objects -/
  subscriptions : ∀ p,
    (p ∈ (g.obj (g.sub p).target).subscribers ∧ (g.sub p).target ∈ g.objects ↔
      p ∈ (g.obj (g.sub p).subscriber).targetList ∧ (g.sub p).subscriber ∈ g.objects) ∧
    ∀ o ∈ g.objects, (p ∈ (g.obj o).subscribers → o = (g.sub p).target) ∧
      (p ∈ (g.obj o).targetList → o = (g.sub p).subscriber)
  /-- an event source belongs to a registered object -/
  events : ∀ e ∈ g.patterns, (g.ev e).obj ∈ g.objects
  /-- the reference counts are those of the registered objects -/
  types : ∀ t, (t ∈ g.objTypes ↔ 0 < g.uses t) ∧
    (t ∈ g.objTypes → (g.typ t).refcount = g.uses t)

theorem Inv.graphOk {g : Graph} (h : Inv none g) : GraphOk g where
  ids := h.obj.ids
  path := by
    refine ⟨h.obj.path_mem, ?_⟩
    rw [List.Nodup, List.pairwise_map]
    refine h.obj.path_sorted.imp fun {a b} hlt he => ?_
    have : g.key a = g.key b := congrArg (Option.getD · []) he
    exact List.lt_irrefl _ (this ▸ hlt)
  owned := by
    intro o ho c hc
    obtain ⟨h1, h2⟩ := h.own.owner o ho c hc
    refine ⟨h1, fun d => ?_⟩
    split_ifs with hd
    · exact List.count_eq_one_of_mem (h.own.nodup d) (hd ▸ h2)
    · rw [List.count_eq_zero]
      intro hm
      rw [(h.own.listed d o hm).2] at hc
      exact hd (Option.some.inj hc)
  subscriptions := by
    refine fun p => ⟨⟨fun hp => ?_, fun hp => ?_⟩, fun o ho => ⟨fun hp => ?_, fun hp => ?_⟩⟩
    · exact ⟨(h.sub.target _ hp.2 p hp.1).2.2, (h.sub.target _ hp.2 p hp.1).2.1⟩
    · exact ⟨(h.sub.source _ hp.2 p hp.1).2.2, (h.sub.source _ hp.2 p hp.1).2.1⟩
    · exact (h.sub.target o ho p hp).1.symm
    · exact (h.sub.source o ho p hp).1.symm
  events := fun e he => (h.ev.owner e he).1
  types := fun t => ⟨h.typ.mem t, fun ht => by simpa [held_none] using h.typ.count t ht⟩

/-- **The object graph.** After every sequence of connects, messages and disconnects, with any
    failures of the allocator and of the random source, the structures of ubusd agree. -/
theorem graph_ok (acls : Acls) (mem : List Bool) (steps : List Step) :
    GraphOk (Run.run (step acls) (ubusdObjInit mem) steps).graph :=
  (reachable_induct acls (P := fun _ => True) trivial (fun _ _ _ => trivial) mem steps).1.graphOk

end

end Ubus
