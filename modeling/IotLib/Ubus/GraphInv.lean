/-
  The object graph of ubusd: in every reachable state the registry, the path
  tree, the object lists of the clients, the subscriptions, the event sources
  and the reference counts of the types agree with each other.
-/
import IotLib.Lib.Run
import IotLib.Ubus.Registry

namespace Ubus

/-! ## The invariant -/

/-- The number of registered objects of a type. -/
def Graph.uses (g : Graph) (t : Ptr) : Nat :=
  g.objects.countP fun o => decide ((g.obj o).type = some t)

/-- The reference that a handler holds while it creates or frees an object. -/
def held (x : Option Ptr) (t : Ptr) : Nat := if x = some t then 1 else 0

/-- The objects, their ids and their paths. -/
structure ObjInv (g : Graph) : Prop where
  ids : (g.objects.map fun o => (g.obj o).id).Nodup
  fresh : ∀ o ∈ g.objects, o < g.next
  path_mem : ∀ o, o ∈ g.path ↔ o ∈ g.objects ∧ (g.obj o).pathKey ≠ none
  path_sorted : g.path.Pairwise fun a b => g.key a < g.key b

/-- The objects of the clients. -/
structure OwnInv (g : Graph) : Prop where
  owner : ∀ o ∈ g.objects, ∀ c, (g.obj o).client = some c →
    c ∈ g.connected ∧ o ∈ (g.cli c).objects
  listed : ∀ c, ∀ o ∈ (g.cli c).objects, o ∈ g.objects ∧ (g.obj o).client = some c
  nodup : ∀ c, (g.cli c).objects.Nodup
  fresh : ∀ c ∈ g.connected, c < g.next
  connected_nodup : g.connected.Nodup

/-- The subscriptions. -/
structure SubInv (g : Graph) : Prop where
  target : ∀ o ∈ g.objects, ∀ p ∈ (g.obj o).subscribers, (g.sub p).target = o ∧
    (g.sub p).subscriber ∈ g.objects ∧ p ∈ (g.obj (g.sub p).subscriber).targetList
  source : ∀ o ∈ g.objects, ∀ p ∈ (g.obj o).targetList, (g.sub p).subscriber = o ∧
    (g.sub p).target ∈ g.objects ∧ p ∈ (g.obj (g.sub p).target).subscribers
  nodup : ∀ o ∈ g.objects, (g.obj o).subscribers.Nodup ∧ (g.obj o).targetList.Nodup
  fresh : ∀ o ∈ g.objects, ∀ p ∈ (g.obj o).subscribers, p < g.next

/-- The event sources. -/
structure EvInv (g : Graph) : Prop where
  owner : ∀ e ∈ g.patterns, (g.ev e).obj ∈ g.objects ∧ e ∈ (g.obj (g.ev e).obj).events
  listed : ∀ o ∈ g.objects, ∀ e ∈ (g.obj o).events, e ∈ g.patterns ∧ (g.ev e).obj = o
  nodup : g.patterns.Nodup
  events_nodup : ∀ o ∈ g.objects, (g.obj o).events.Nodup
  fresh : ∀ e ∈ g.patterns, e < g.next

/-- The object types; the handler holds a reference to `x`. -/
structure TypInv (x : Option Ptr) (g : Graph) : Prop where
  mem : ∀ t, t ∈ g.objTypes ↔ 0 < g.uses t + held x t
  count : ∀ t ∈ g.objTypes, (g.typ t).refcount = g.uses t + held x t
  nodup : g.objTypes.Nodup
  fresh : ∀ t ∈ g.objTypes, t < g.next

structure Inv (x : Option Ptr) (g : Graph) : Prop where
  obj : ObjInv g
  own : OwnInv g
  sub : SubInv g
  ev : EvInv g
  typ : TypInv x g

variable {g : Graph} {x : Option Ptr}

theorem TypInv.mem_of_use (h : TypInv x g) {o t : Ptr}
    (ho : o ∈ g.objects) (ht : (g.obj o).type = some t) : t ∈ g.objTypes := by
  rw [h.mem]
  have : 0 < g.uses t := List.countP_pos_iff.2 ⟨o, ho, by simpa using ht⟩
  omega

theorem ObjInv.nodup (h : ObjInv g) : g.objects.Nodup := h.ids.of_map

theorem ObjInv.path_nodup (h : ObjInv g) : g.path.Nodup := by
  refine h.path_sorted.imp fun {a b} hlt => ?_
  rintro rfl
  exact List.lt_irrefl _ hlt

/-! ## What each part depends on -/

section
variable {g g' : Graph}

theorem ObjInv.congr (h : ObjInv g) (ho : g'.objects = g.objects) (hp : g'.path = g.path)
    (hn : g.next ≤ g'.next) (hid : ∀ o, (g'.obj o).id = (g.obj o).id)
    (hk : ∀ o, (g'.obj o).pathKey = (g.obj o).pathKey) : ObjInv g' := by
  have hkey : ∀ o, g'.key o = g.key o := fun o => congrArg (Option.getD · []) (hk o)
  constructor
  · simpa only [ho, hid] using h.ids
  · exact fun o hm => (h.fresh o (ho ▸ hm)).trans_le hn
  · intro o
    rw [hp, ho, hk]
    exact h.path_mem o
  · simpa only [hp, hkey] using h.path_sorted

theorem OwnInv.congr (h : OwnInv g) (ho : g'.objects = g.objects)
    (hc : g'.connected = g.connected) (hn : g.next ≤ g'.next)
    (hl : ∀ c, (g'.cli c).objects = (g.cli c).objects)
    (hcl : ∀ o, (g'.obj o).client = (g.obj o).client) : OwnInv g' := by
  constructor
  · simpa only [ho, hcl, hc, hl] using h.owner
  · simpa only [ho, hcl, hl] using h.listed
  · simpa only [hl] using h.nodup
  · exact fun c hm => (h.fresh c (hc ▸ hm)).trans_le hn
  · exact hc ▸ h.connected_nodup

theorem SubInv.congr (h : SubInv g) (ho : g'.objects = g.objects) (hs : g'.sub = g.sub)
    (hn : g.next ≤ g'.next) (hsub : ∀ o, (g'.obj o).subscribers = (g.obj o).subscribers)
    (htl : ∀ o, (g'.obj o).targetList = (g.obj o).targetList) : SubInv g' := by
  constructor
  · simpa only [ho, hs, hsub, htl] using h.target
  · simpa only [ho, hs, hsub, htl] using h.source
  · simpa only [ho, hsub, htl] using h.nodup
  · intro o hm p hp
    exact (h.fresh o (ho ▸ hm) p (hsub o ▸ hp)).trans_le hn

theorem EvInv.congr (h : EvInv g) (ho : g'.objects = g.objects) (hp : g'.patterns = g.patterns)
    (he : g'.ev = g.ev) (hn : g.next ≤ g'.next)
    (hev : ∀ o, (g'.obj o).events = (g.obj o).events) : EvInv g' := by
  constructor
  · simpa only [ho, hp, he, hev] using h.owner
  · simpa only [ho, hp, he, hev] using h.listed
  · simpa only [hp] using h.nodup
  · simpa only [ho, hev] using h.events_nodup
  · exact fun e hm => (h.fresh e (hp ▸ hm)).trans_le hn

theorem TypInv.congr (h : TypInv x g) (ho : g'.objects = g.objects)
    (ht : g'.objTypes = g.objTypes)
    (htyp : ∀ t, (g'.typ t).refcount = (g.typ t).refcount) (hn : g.next ≤ g'.next)
    (hty : ∀ o, (g'.obj o).type = (g.obj o).type) : TypInv x g' := by
  have hu : ∀ t, g'.uses t = g.uses t := fun t => by simp only [Graph.uses, ho, hty]
  constructor
  · simpa only [ht, hu] using h.mem
  · simpa only [ht, htyp, hu] using h.count
  · simpa only [ht] using h.nodup
  · exact fun t hm => (h.fresh t (ht ▸ hm)).trans_le hn

end

/-! ## Allocation -/

theorem Inv.next (h : Inv x g) :
    Inv x { g with next := g.next + 1 } where
  obj := h.obj.congr rfl rfl (Nat.le_succ _) (fun _ => rfl) fun _ => rfl
  own := h.own.congr rfl rfl (Nat.le_succ _) (fun _ => rfl) fun _ => rfl
  sub := h.sub.congr rfl rfl (Nat.le_succ _) (fun _ => rfl) fun _ => rfl
  ev := h.ev.congr rfl rfl rfl (Nat.le_succ _) fun _ => rfl
  typ := h.typ.congr rfl rfl (fun _ => rfl) (Nat.le_succ _) fun _ => rfl

@[simp] theorem malloc_graph (s : St) : (malloc s).2.graph = s.graph := by
  unfold malloc
  split <;> rfl

@[simp] theorem send_graph (s : St) (cl : Option Ptr) (m : Out) : (s.send cl m).graph = s.graph :=
  rfl

@[simp] theorem ubusAllocId_graph (used : List UInt32) (val : UInt32) (s : St) :
    (ubusAllocId used val s).2.graph = s.graph := by
  unfold ubusAllocId
  split_ifs <;> rfl

theorem ubusAllocIdLoop_not_mem {used rnd : List UInt32} {id : UInt32}
    (h : (ubusAllocIdLoop used rnd).1 = some id) : id ∉ used := by
  induction rnd with
  | nil => simp [ubusAllocIdLoop] at h
  | cons r rnd ih =>
    rw [ubusAllocIdLoop] at h
    split_ifs at h with hr
    · exact ih h
    · simpa using (Option.some.inj h) ▸ hr

/-- An allocated id is a new one. -/
theorem ubusAllocId_not_mem {used : List UInt32} {val id : UInt32} {s : St}
    (h : (ubusAllocId used val s).1 = some id) : id ∉ used := by
  unfold ubusAllocId at h
  split_ifs at h with h1 h2
  · simpa using (Option.some.inj h) ▸ h2
  · exact ubusAllocIdLoop_not_mem h

/-- The two ways in which `calloc` ends. -/
theorem calloc_cases (s : St) :
    ((calloc s).1 = none ∧ (calloc s).2.graph = s.graph) ∨
      ((calloc s).1 = some s.graph.next ∧
        (calloc s).2.graph = { s.graph with next := s.graph.next + 1 }) := by
  unfold calloc
  split_ifs
  · exact Or.inr ⟨by simp, by simp⟩
  · exact Or.inl ⟨rfl, malloc_graph s⟩

/-! ## Messages that leave the registry alone -/

@[simp] theorem ubusdSendEventMsg_graph (cl : Option Ptr) (o : Ptr) (id : Str) (s : St) :
    (ubusdSendEventMsg cl o id s).graph = s.graph := by
  unfold ubusdSendEventMsg
  split_ifs <;> rfl

@[simp] theorem ubusdSendEvent_graph (acls : Acls) (cl : Option Ptr) (id : Str) (s : St) :
    (ubusdSendEvent acls cl id s).2.graph = s.graph := by
  have hfold : ∀ (es : List Ptr) (s : St),
      (es.foldl (fun s e => ubusdSendEventMsg cl (s.graph.ev e).obj id s) s).graph = s.graph := by
    intro es
    induction es with
    | nil => exact fun s => rfl
    | cons e es ih => exact fun s => (ih _).trans (ubusdSendEventMsg_graph _ _ _ _)
  unfold ubusdSendEvent
  split_ifs
  · exact hfold _ _
  · rfl

@[simp] theorem ubusdSendObjEvent_graph (acls : Acls) (add : Bool) (s : St) :
    (ubusdSendObjEvent acls add s).graph = s.graph := ubusdSendEvent_graph _ _ _ _

@[simp] theorem ubusNotifySubscription_graph (o : Ptr) (s : St) :
    (ubusNotifySubscription o s).graph = s.graph := by
  unfold ubusNotifySubscription
  split_ifs <;> simp

@[simp] theorem ubusUnsubscribe_graph (s : St) (p : Ptr) :
    (ubusUnsubscribe s p).graph = s.graph.delSub p := by
  simp only [ubusUnsubscribe]
  split_ifs <;> simp

@[simp] theorem ubusNotifyUnsubscribe_graph (s : St) (p : Ptr) :
    (ubusNotifyUnsubscribe s p).graph = s.graph.delSub p := by
  simp only [ubusNotifyUnsubscribe, ubusUnsubscribe_graph]
  split_ifs <;> simp

@[simp] theorem createMethods_graph : ∀ (sig : List SigAttr) (s : St),
    (createMethods sig s).2.graph = s.graph
  | [], s => rfl
  | a :: sig, s => by
    rw [createMethods]
    split_ifs
    · exact (createMethods_graph sig _).trans (malloc_graph s)
    · exact malloc_graph s
    · rfl

/-! ## Subscriptions -/

theorem addSub_obj (g : Graph) (p o t x : Ptr) :
    (g.addSub p o t).obj x =
      { g.obj x with
        subscribers := if x = t then p :: (g.obj x).subscribers else (g.obj x).subscribers
        targetList := if x = o then p :: (g.obj x).targetList else (g.obj x).targetList } := by
  simp only [Graph.addSub, Graph.modObj, Function.update_apply]
  split_ifs <;> simp_all

theorem delSub_obj (g : Graph) (p x : Ptr) :
    (g.delSub p).obj x =
      { g.obj x with
        subscribers := if x = (g.sub p).target then (g.obj x).subscribers.erase p
          else (g.obj x).subscribers
        targetList := if x = (g.sub p).subscriber then (g.obj x).targetList.erase p
          else (g.obj x).targetList } := by
  simp only [Graph.delSub, Graph.modObj, Function.update_apply]
  split_ifs <;> simp_all

theorem addSub_subscribers (g : Graph) (p o t x : Ptr) :
    ((g.addSub p o t).obj x).subscribers =
      if x = t then p :: (g.obj x).subscribers else (g.obj x).subscribers := by rw [addSub_obj]

theorem addSub_targetList (g : Graph) (p o t x : Ptr) :
    ((g.addSub p o t).obj x).targetList =
      if x = o then p :: (g.obj x).targetList else (g.obj x).targetList := by rw [addSub_obj]

theorem delSub_subscribers (g : Graph) (p x : Ptr) :
    ((g.delSub p).obj x).subscribers =
      if x = (g.sub p).target then (g.obj x).subscribers.erase p
      else (g.obj x).subscribers := by rw [delSub_obj]

theorem delSub_targetList (g : Graph) (p x : Ptr) :
    ((g.delSub p).obj x).targetList =
      if x = (g.sub p).subscriber then (g.obj x).targetList.erase p
      else (g.obj x).targetList := by rw [delSub_obj]

/-- A new subscription is put on both lists. -/
theorem SubInv.add (h : SubInv g) {p o t : Ptr} (hp : p < g.next)
    (hnew : ∀ x ∈ g.objects, p ∉ (g.obj x).subscribers) (ho : o ∈ g.objects) (ht : t ∈ g.objects) :
    SubInv (g.addSub p o t) := by
  have hnew' : ∀ x ∈ g.objects, p ∉ (g.obj x).targetList := fun x hx hm =>
    hnew _ (h.source x hx p hm).2.1 (h.source x hx p hm).2.2
  have hsub : ∀ q, (g.addSub p o t).sub q = if q = p then ⟨o, t⟩ else g.sub q := fun q =>
    Function.update_apply _ _ _ _
  have hmem1 : ∀ x q, q ∈ ((g.addSub p o t).obj x).subscribers ↔
      (x = t ∧ q = p) ∨ q ∈ (g.obj x).subscribers := by
    intro x q
    rw [addSub_subscribers]
    split_ifs with hx <;> simp [hx]
  have hmem2 : ∀ x q, q ∈ ((g.addSub p o t).obj x).targetList ↔
      (x = o ∧ q = p) ∨ q ∈ (g.obj x).targetList := by
    intro x q
    rw [addSub_targetList]
    split_ifs with hx <;> simp [hx]
  constructor
  · intro x hx q hq
    rw [hmem2, hsub]
    rcases (hmem1 x q).1 hq with ⟨rfl, rfl⟩ | hq
    · rw [if_pos rfl]
      exact ⟨rfl, ho, Or.inl ⟨rfl, rfl⟩⟩
    · have hqp : q ≠ p := fun he => hnew x hx (he ▸ hq)
      obtain ⟨h1, h2, h3⟩ := h.target x hx q hq
      simpa [hqp] using ⟨h1, h2, h3⟩
  · intro x hx q hq
    rw [hmem1, hsub]
    rcases (hmem2 x q).1 hq with ⟨rfl, rfl⟩ | hq
    · rw [if_pos rfl]
      exact ⟨rfl, ht, Or.inl ⟨rfl, rfl⟩⟩
    · have hqp : q ≠ p := fun he => hnew' x hx (he ▸ hq)
      obtain ⟨h1, h2, h3⟩ := h.source x hx q hq
      simpa [hqp] using ⟨h1, h2, h3⟩
  · intro x hx
    have hd := h.nodup x hx
    rw [addSub_subscribers, addSub_targetList]
    constructor
    · split_ifs
      · exact List.nodup_cons.2 ⟨hnew x hx, hd.1⟩
      · exact hd.1
    · split_ifs
      · exact List.nodup_cons.2 ⟨hnew' x hx, hd.2⟩
      · exact hd.2
  · intro x hx q hq
    rcases (hmem1 x q).1 hq with ⟨-, rfl⟩ | hq
    · exact hp
    · exact h.fresh x hx q hq

/-- A subscription is taken from both lists. -/
theorem SubInv.del (h : SubInv g) (p : Ptr) : SubInv (g.delSub p) := by
  have hmem1 : ∀ x ∈ g.objects, ∀ q, q ∈ ((g.delSub p).obj x).subscribers ↔
      q ≠ p ∧ q ∈ (g.obj x).subscribers := by
    intro x hx q
    rw [delSub_subscribers]
    split_ifs with hxt
    · exact (h.nodup x hx).1.mem_erase_iff
    · refine ⟨fun hq => ⟨?_, hq⟩, fun hq => hq.2⟩
      rintro rfl
      exact hxt (h.target x hx q hq).1.symm
  have hmem2 : ∀ x ∈ g.objects, ∀ q, q ∈ ((g.delSub p).obj x).targetList ↔
      q ≠ p ∧ q ∈ (g.obj x).targetList := by
    intro x hx q
    rw [delSub_targetList]
    split_ifs with hxt
    · exact (h.nodup x hx).2.mem_erase_iff
    · refine ⟨fun hq => ⟨?_, hq⟩, fun hq => hq.2⟩
      rintro rfl
      exact hxt (h.source x hx q hq).1.symm
  constructor
  · intro x hx q hq
    obtain ⟨hqp, hq⟩ := (hmem1 x hx q).1 hq
    obtain ⟨h1, h2, h3⟩ := h.target x hx q hq
    exact ⟨h1, h2, (hmem2 _ h2 q).2 ⟨hqp, h3⟩⟩
  · intro x hx q hq
    obtain ⟨hqp, hq⟩ := (hmem2 x hx q).1 hq
    obtain ⟨h1, h2, h3⟩ := h.source x hx q hq
    exact ⟨h1, h2, (hmem1 _ h2 q).2 ⟨hqp, h3⟩⟩
  · intro x hx
    have hd := h.nodup x hx
    rw [delSub_subscribers, delSub_targetList]
    constructor
    · split_ifs
      · exact hd.1.erase p
      · exact hd.1
    · split_ifs
      · exact hd.2.erase p
      · exact hd.2
  · exact fun x hx q hq => h.fresh x hx q ((hmem1 x hx q).1 hq).2

theorem Inv.addSub (h : Inv x g) {o t : Ptr} (ho : o ∈ g.objects)
    (ht : t ∈ g.objects) :
    Inv x ({ g with next := g.next + 1 }.addSub g.next o t) where
  obj := h.next.obj.congr rfl rfl le_rfl (fun _ => by rw [addSub_obj]) fun _ => by rw [addSub_obj]
  own := h.next.own.congr rfl rfl le_rfl (fun _ => rfl) fun _ => by rw [addSub_obj]
  sub := h.next.sub.add (Nat.lt_succ_self _)
    (fun y hy hm => absurd (h.sub.fresh y hy _ hm) (Nat.lt_irrefl _)) ho ht
  ev := h.next.ev.congr rfl rfl rfl le_rfl fun _ => by rw [addSub_obj]
  typ := h.next.typ.congr rfl rfl (fun _ => rfl) le_rfl fun _ => by rw [addSub_obj]

theorem Inv.delSub (h : Inv x g) (p : Ptr) : Inv x (g.delSub p) where
  obj := h.obj.congr rfl rfl le_rfl (fun _ => by rw [delSub_obj]) fun _ => by rw [delSub_obj]
  own := h.own.congr rfl rfl le_rfl (fun _ => rfl) fun _ => by rw [delSub_obj]
  sub := h.sub.del p
  ev := h.ev.congr rfl rfl rfl le_rfl fun _ => by rw [delSub_obj]
  typ := h.typ.congr rfl rfl (fun _ => rfl) le_rfl fun _ => by rw [delSub_obj]

/-! ## Event sources -/

/-- The event source `e` is taken from its object and from the pattern tree. -/
def Graph.delEvent (g : Graph) (e : Ptr) : Graph :=
  { g.modObj (g.ev e).obj fun o => { o with events := o.events.erase e } with
    patterns := g.patterns.erase e }

@[simp] theorem ubusdDeleteEventSource_graph (s : St) (e : Ptr) :
    (ubusdDeleteEventSource s e).graph = s.graph.delEvent e := rfl

theorem addEvent_obj (g : Graph) (p o : Ptr) (key : Str) (part : Bool) (x : Ptr) :
    (g.addEvent p o key part).obj x =
      { g.obj x with
        events := if x = o then p :: (g.obj x).events else (g.obj x).events } := by
  simp only [Graph.addEvent, Graph.modObj, Function.update_apply]
  split_ifs <;> simp_all

theorem delEvent_obj (g : Graph) (e x : Ptr) :
    (g.delEvent e).obj x =
      { g.obj x with
        events := if x = (g.ev e).obj then (g.obj x).events.erase e else (g.obj x).events } := by
  simp only [Graph.delEvent, Graph.modObj, Function.update_apply]
  split_ifs <;> simp_all

theorem addEvent_ev (g : Graph) (p o : Ptr) (key : Str) (part : Bool) (e : Ptr) :
    (g.addEvent p o key part).ev e = if e = p then ⟨o, key, part⟩ else g.ev e :=
  Function.update_apply _ _ _ _

theorem mem_addEvent_patterns (g : Graph) (p o : Ptr) (key : Str) (part : Bool) (e : Ptr) :
    e ∈ (g.addEvent p o key part).patterns ↔ e = p ∨ e ∈ g.patterns :=
  Prefix.mem_insertKey _ _ _ _

theorem EvInv.add (h : EvInv g) {p o : Ptr} (key : Str) (part : Bool)
    (hp : p < g.next) (hnew : p ∉ g.patterns) (ho : o ∈ g.objects) :
    EvInv (g.addEvent p o key part) := by
  have hnew' : ∀ x ∈ g.objects, p ∉ (g.obj x).events := fun x hx hm =>
    hnew (h.listed x hx p hm).1
  have hmem : ∀ x e, e ∈ ((g.addEvent p o key part).obj x).events ↔
      (x = o ∧ e = p) ∨ e ∈ (g.obj x).events := by
    intro x e
    rw [addEvent_obj]
    show e ∈ (if x = o then _ else _ : List Ptr) ↔ _
    split_ifs with hx <;> simp [hx]
  constructor
  · intro e he
    rw [hmem, addEvent_ev]
    rcases (mem_addEvent_patterns g p o key part e).1 he with rfl | he
    · rw [if_pos rfl]
      exact ⟨ho, Or.inl ⟨rfl, rfl⟩⟩
    · rw [if_neg (show e ≠ p from fun heq => hnew (heq ▸ he))]
      exact ⟨(h.owner e he).1, Or.inr (h.owner e he).2⟩
  · intro x hx e he
    rw [mem_addEvent_patterns, addEvent_ev]
    rcases (hmem x e).1 he with ⟨rfl, rfl⟩ | he
    · simp
    · rw [if_neg (show e ≠ p from fun heq => hnew' x hx (heq ▸ he))]
      exact ⟨Or.inr (h.listed x hx e he).1, (h.listed x hx e he).2⟩
  · exact (Prefix.insertKey_perm _ _ _).nodup_iff.2 (List.nodup_cons.2 ⟨hnew, h.nodup⟩)
  · intro x hx
    rw [addEvent_obj]
    show (if x = o then _ else _ : List Ptr).Nodup
    split_ifs
    · exact List.nodup_cons.2 ⟨hnew' x hx, h.events_nodup x hx⟩
    · exact h.events_nodup x hx
  · intro e he
    rcases (mem_addEvent_patterns g p o key part e).1 he with rfl | he
    · exact hp
    · exact h.fresh e he

theorem EvInv.del (h : EvInv g) (e : Ptr) : EvInv (g.delEvent e) := by
  have hmem : ∀ x ∈ g.objects, ∀ q, q ∈ ((g.delEvent e).obj x).events ↔
      q ≠ e ∧ q ∈ (g.obj x).events := by
    intro x hx q
    rw [delEvent_obj]
    show q ∈ (if x = (g.ev e).obj then _ else _ : List Ptr) ↔ _
    split_ifs with hxo
    · exact (h.events_nodup x hx).mem_erase_iff
    · refine ⟨fun hq => ⟨?_, hq⟩, fun hq => hq.2⟩
      rintro rfl
      exact hxo (h.listed x hx q hq).2.symm
  have hpat : ∀ q, q ∈ (g.delEvent e).patterns ↔ q ≠ e ∧ q ∈ g.patterns := fun q =>
    h.nodup.mem_erase_iff
  constructor
  · intro q hq
    obtain ⟨hqe, hq⟩ := (hpat q).1 hq
    obtain ⟨h1, h2⟩ := h.owner q hq
    exact ⟨h1, (hmem _ h1 q).2 ⟨hqe, h2⟩⟩
  · intro x hx q hq
    obtain ⟨hqe, hq⟩ := (hmem x hx q).1 hq
    obtain ⟨h1, h2⟩ := h.listed x hx q hq
    exact ⟨(hpat q).2 ⟨hqe, h1⟩, h2⟩
  · exact h.nodup.erase e
  · intro x hx
    rw [delEvent_obj]
    show (if x = (g.ev e).obj then _ else _ : List Ptr).Nodup
    split_ifs
    · exact (h.events_nodup x hx).erase e
    · exact h.events_nodup x hx
  · exact fun q hq => h.fresh q ((hpat q).1 hq).2

theorem Inv.addEvent (h : Inv x g) {o : Ptr} (ho : o ∈ g.objects)
    (key : Str) (part : Bool) :
    Inv x ({ g with next := g.next + 1 }.addEvent g.next o key part) where
  obj := h.next.obj.congr rfl rfl le_rfl (fun _ => by rw [addEvent_obj]) fun _ => by
    rw [addEvent_obj]
  own := h.next.own.congr rfl rfl le_rfl (fun _ => rfl) fun _ => by rw [addEvent_obj]
  sub := h.next.sub.congr rfl rfl le_rfl (fun _ => by rw [addEvent_obj]) fun _ => by
    rw [addEvent_obj]
  ev := h.next.ev.add key part (Nat.lt_succ_self _)
    (fun hm => absurd (h.ev.fresh _ hm) (Nat.lt_irrefl _)) ho
  typ := h.next.typ.congr rfl rfl (fun _ => rfl) le_rfl fun _ => by rw [addEvent_obj]

theorem Inv.delEvent (h : Inv x g) (e : Ptr) :
    Inv x (g.delEvent e) where
  obj := h.obj.congr rfl rfl le_rfl (fun _ => by rw [delEvent_obj]) fun _ => by rw [delEvent_obj]
  own := h.own.congr rfl rfl le_rfl (fun _ => rfl) fun _ => by rw [delEvent_obj]
  sub := h.sub.congr rfl rfl le_rfl (fun _ => by rw [delEvent_obj]) fun _ => by rw [delEvent_obj]
  ev := h.ev.del e
  typ := h.typ.congr rfl rfl (fun _ => rfl) le_rfl fun _ => by rw [delEvent_obj]

/-! ## Object types -/

/-- A new type, to which the handler holds the only reference. -/
def Graph.newType (g : Graph) (t : Ptr) (id : UInt32) : Graph :=
  { g with typ := Function.update g.typ t ⟨id, 1, []⟩, objTypes := t :: g.objTypes }

theorem held_self (t : Ptr) : held (some t) t = 1 := if_pos rfl

theorem held_of_ne {t u : Ptr} (h : u ≠ t) : held (some t) u = 0 :=
  if_neg fun he => h (Option.some.inj he).symm

theorem held_none (t : Ptr) : held none t = 0 := rfl

theorem TypInv.new (h : TypInv none g) {t : Ptr} (id : UInt32) (ht : t < g.next)
    (hnew : t ∉ g.objTypes) : TypInv (some t) (g.newType t id) := by
  have huses : ∀ u, (g.newType t id).uses u = g.uses u := fun _ => rfl
  have hzero : g.uses t = 0 := by
    have := (h.mem t).not.1 hnew
    rw [held_none] at this
    omega
  constructor
  · intro u
    rw [huses]
    by_cases hu : u = t
    · subst hu
      simp [held_self, Graph.newType]
    · rw [held_of_ne hu]
      simpa [hu, held_none, Graph.newType] using h.mem u
  · intro u hm
    rw [huses]
    by_cases hu : u = t
    · subst hu
      simp [held_self, Graph.newType, hzero]
    · have hm' : u ∈ g.objTypes := by simpa [Graph.newType, hu] using hm
      rw [held_of_ne hu]
      simpa [Graph.newType, Function.update_of_ne hu, held_none] using h.count u hm'
  · exact List.nodup_cons.2 ⟨hnew, h.nodup⟩
  · intro u hm
    rcases List.mem_cons.1 hm with rfl | hm
    · exact ht
    · exact h.fresh u hm

/-- Changing the number of references to a type changes nothing else. -/
theorem Inv.of_typ {x y : Option Ptr} {g g' : Graph} (h : Inv x g) (hty : TypInv y g')
    (hg : g' = { g with typ := g'.typ, objTypes := g'.objTypes }) : Inv y g' := by
  refine ⟨?_, ?_, ?_, ?_, hty⟩
  · rw [hg]; exact h.obj.congr rfl rfl le_rfl (fun _ => rfl) fun _ => rfl
  · rw [hg]; exact h.own.congr rfl rfl le_rfl (fun _ => rfl) fun _ => rfl
  · rw [hg]; exact h.sub.congr rfl rfl le_rfl (fun _ => rfl) fun _ => rfl
  · rw [hg]; exact h.ev.congr rfl rfl rfl le_rfl fun _ => rfl

theorem Inv.newType (h : Inv none g) (id : UInt32) :
    Inv (some g.next) ({ g with next := g.next + 1 }.newType g.next id) :=
  h.next.of_typ (h.next.typ.new id (Nat.lt_succ_self _)
    fun hm => absurd (h.typ.fresh _ hm) (Nat.lt_irrefl _)) rfl

theorem modTyp_refcount (g : Graph) (t : Ptr) (f : ObjType → ObjType) (u : Ptr) :
    ((g.modTyp t f).typ u).refcount = if u = t then (f (g.typ t)).refcount
      else (g.typ u).refcount := by
  simp only [Graph.modTyp, Function.update_apply]
  split_ifs <;> rfl

theorem Inv.setMethods (h : Inv x g) (t : Ptr) (ms : List Method) :
    Inv x (g.modTyp t fun ty => { ty with methods := ms }) := by
  refine h.of_typ (h.typ.congr rfl rfl (fun u => ?_) le_rfl fun _ => rfl) rfl
  rw [modTyp_refcount]
  split_ifs with hu
  · rw [hu]
  · rfl

/-- One more reference, held by the handler. -/
theorem Inv.getType (h : Inv none g) {t : Ptr} (ht : t ∈ g.objTypes) :
    Inv (some t) (g.modTyp t fun ty => { ty with refcount := ty.refcount + 1 }) := by
  refine h.of_typ ⟨fun u => ?_, fun u hu => ?_, h.typ.nodup, h.typ.fresh⟩ rfl
  · have hm := h.typ.mem u
    rw [held_none] at hm
    by_cases hut : u = t
    · subst hut
      rw [held_self]
      exact ⟨fun _ => Nat.succ_pos _, fun _ => ht⟩
    · rw [held_of_ne hut]
      exact hm
  · have hc := h.typ.count u hu
    rw [held_none] at hc
    rw [modTyp_refcount]
    split_ifs with hut
    · subst hut
      rw [held_self]
      simp only [hc]
      rfl
    · rw [held_of_ne hut]
      exact hc

/-- The handler gives its reference back. -/
theorem Inv.unref {t : Ptr} (h : Inv (some t) g) : Inv none (ubusUnrefObjectType t g) := by
  have hmem : t ∈ g.objTypes := (h.typ.mem t).2 (by rw [held_self]; omega)
  have hcount : (g.typ t).refcount - 1 = g.uses t := by
    rw [h.typ.count t hmem, held_self]
    omega
  have hother : ∀ u, u ≠ t → (u ∈ g.objTypes ↔ 0 < g.uses u) ∧
      (u ∈ g.objTypes → (g.typ u).refcount = g.uses u) := by
    intro u hu
    have h1 := h.typ.mem u
    have h2 := h.typ.count u
    rw [held_of_ne hu] at h1 h2
    exact ⟨h1, fun hm => by simpa using h2 hm⟩
  unfold ubusUnrefObjectType
  simp only [modTyp_refcount, if_true, hcount]
  split_ifs with hpos
  · refine h.of_typ ⟨fun u => ?_, fun u hu => ?_, h.typ.nodup, h.typ.fresh⟩ rfl
    · by_cases hut : u = t
      · subst hut
        exact ⟨fun _ => show 0 < g.uses u by omega, fun _ => hmem⟩
      · exact (hother u hut).1
    · rw [modTyp_refcount]
      split_ifs with hut
      · subst hut
        exact hcount
      · exact (hother u hut).2 hu
  · have hz : g.uses t = 0 := by omega
    refine h.of_typ ⟨fun u => ?_, fun u hu => ?_, h.typ.nodup.erase t,
      fun u hu => h.typ.fresh u (List.mem_of_mem_erase hu)⟩ rfl
    · show u ∈ g.objTypes.erase t ↔ 0 < g.uses u + 0
      rw [h.typ.nodup.mem_erase_iff]
      by_cases hut : u = t
      · subst hut
        simp [hz]
      · simpa [hut] using (hother u hut).1
    · have hu' : u ≠ t ∧ u ∈ g.objTypes := h.typ.nodup.mem_erase_iff.1 hu
      have hr := modTyp_refcount g t (fun ty => { ty with refcount := ty.refcount - 1 }) u
      rw [if_neg hu'.1, (hother u hu'.1).2 hu'.2] at hr
      exact hr

/-! ## Objects -/

/-- A new object, which has neither a path nor an owner. -/
def Graph.newObj (g : Graph) (o : Ptr) (id : UInt32) (type : Option Ptr) : Graph :=
  { g with obj := Function.update g.obj o { id := id, type := type }, objects := o :: g.objects }

theorem newObj_obj_self (g : Graph) (o : Ptr) (id : UInt32) (type : Option Ptr) :
    (g.newObj o id type).obj o = { id := id, type := type } := Function.update_self _ _ _

theorem newObj_obj {o x : Ptr} (id : UInt32) (type : Option Ptr) (h : x ≠ o) :
    (g.newObj o id type).obj x = g.obj x := Function.update_of_ne h _ _

section
variable {g : Graph} {o : Ptr} (id : UInt32) (type : Option Ptr) (hnew : o ∉ g.objects)
include hnew

theorem newObj_obj_of_mem {x : Ptr} (hx : x ∈ g.objects) :
    (g.newObj o id type).obj x = g.obj x :=
  newObj_obj id type fun he => hnew (he ▸ hx)

theorem ObjInv.new (h : ObjInv g) (ho : o < g.next)
    (hid : id ∉ g.objects.map fun x => (g.obj x).id) : ObjInv (g.newObj o id type) := by
  have hpath : o ∉ g.path := fun hm => hnew ((h.path_mem o).1 hm).1
  have hkey : ∀ x ∈ g.path, (g.newObj o id type).key x = g.key x := fun x hx => by
    rw [Graph.key, newObj_obj_of_mem id type hnew ((h.path_mem x).1 hx).1, Graph.key]
  constructor
  · have hmap : g.objects.map (fun x => ((g.newObj o id type).obj x).id) =
        g.objects.map fun x => (g.obj x).id :=
      List.map_congr_left fun x hx => by rw [newObj_obj_of_mem id type hnew hx]
    show ((o :: g.objects).map _).Nodup
    rw [List.map_cons, hmap, newObj_obj_self]
    exact List.nodup_cons.2 ⟨hid, h.ids⟩
  · intro x hx
    rcases List.mem_cons.1 hx with rfl | hx
    · exact ho
    · exact h.fresh x hx
  · intro x
    show x ∈ g.path ↔ x ∈ o :: g.objects ∧ _
    by_cases hx : x = o
    · subst hx
      simp [newObj_obj_self, hpath]
    · rw [newObj_obj id type hx, List.mem_cons, h.path_mem x]
      simp [hx]
  · refine h.path_sorted.imp_of_mem fun {a b} ha hb hlt => ?_
    rwa [hkey a ha, hkey b hb]

theorem OwnInv.new (h : OwnInv g) : OwnInv (g.newObj o id type) := by
  refine ⟨fun x hx c hc => ?_, fun c x hx => ?_, h.nodup, h.fresh, h.connected_nodup⟩
  · rcases List.mem_cons.1 hx with rfl | hx
    · simp [newObj_obj_self] at hc
    · rw [newObj_obj_of_mem id type hnew hx] at hc
      exact h.owner x hx c hc
  · obtain ⟨h1, h2⟩ := h.listed c x hx
    rw [newObj_obj_of_mem id type hnew h1]
    exact ⟨List.mem_cons_of_mem o h1, h2⟩

theorem SubInv.new (h : SubInv g) : SubInv (g.newObj o id type) := by
  refine ⟨fun x hx p hp => ?_, fun x hx p hp => ?_, fun x hx => ?_, fun x hx p hp => ?_⟩
  · rcases List.mem_cons.1 hx with rfl | hx
    · simp [newObj_obj_self] at hp
    · rw [newObj_obj_of_mem id type hnew hx] at hp
      obtain ⟨h1, h2, h3⟩ := h.target x hx p hp
      refine ⟨h1, List.mem_cons_of_mem o h2, ?_⟩
      rw [← newObj_obj_of_mem id type hnew h2] at h3
      exact h3
  · rcases List.mem_cons.1 hx with rfl | hx
    · simp [newObj_obj_self] at hp
    · rw [newObj_obj_of_mem id type hnew hx] at hp
      obtain ⟨h1, h2, h3⟩ := h.source x hx p hp
      refine ⟨h1, List.mem_cons_of_mem o h2, ?_⟩
      rw [← newObj_obj_of_mem id type hnew h2] at h3
      exact h3
  · rcases List.mem_cons.1 hx with rfl | hx
    · simp [newObj_obj_self]
    · rw [newObj_obj_of_mem id type hnew hx]
      exact h.nodup x hx
  · rcases List.mem_cons.1 hx with rfl | hx
    · simp [newObj_obj_self] at hp
    · rw [newObj_obj_of_mem id type hnew hx] at hp
      exact h.fresh x hx p hp

theorem EvInv.new (h : EvInv g) : EvInv (g.newObj o id type) := by
  refine ⟨fun e he => ?_, fun x hx e he => ?_, h.nodup, fun x hx => ?_, h.fresh⟩
  · obtain ⟨h1, h2⟩ := h.owner e he
    refine ⟨List.mem_cons_of_mem o h1, ?_⟩
    rw [← newObj_obj_of_mem id type hnew h1] at h2
    exact h2
  · rcases List.mem_cons.1 hx with rfl | hx
    · simp [newObj_obj_self] at he
    · rw [newObj_obj_of_mem id type hnew hx] at he
      exact h.listed x hx e he
  · rcases List.mem_cons.1 hx with rfl | hx
    · simp [newObj_obj_self]
    · rw [newObj_obj_of_mem id type hnew hx]
      exact h.events_nodup x hx

theorem newObj_uses (t : Ptr) : (g.newObj o id type).uses t = g.uses t + held type t := by
  have hcongr : g.objects.countP (fun x => decide (((g.newObj o id type).obj x).type = some t)) =
      g.uses t :=
    List.countP_congr fun x hx => by rw [newObj_obj_of_mem id type hnew hx]
  show (o :: g.objects).countP _ = _
  rw [List.countP_cons, hcongr, newObj_obj_self]
  simp [held]

/-- The new object takes a reference to its type, besides that of the handler. -/
theorem TypInv.newObj (h : TypInv type g) : TypInv type (refType type (g.newObj o id type)) := by
  cases type with
  | none =>
    have hu : ∀ t, (g.newObj o id none).uses t = g.uses t := fun t =>
      (newObj_uses id none hnew t).trans (Nat.add_zero _)
    exact ⟨fun t => by rw [refType, hu]; exact h.mem t, fun t ht => by rw [refType, hu]; exact h.count t ht,
      h.nodup, h.fresh⟩
  | some u =>
    have hu : ∀ t, (refType (some u) (g.newObj o id (some u))).uses t = g.uses t + held (some u) t :=
      newObj_uses id (some u) hnew
    refine ⟨fun t => ?_, fun t ht => ?_, h.nodup, h.fresh⟩
    · rw [hu]
      show t ∈ g.objTypes ↔ _
      rw [h.mem t]
      omega
    · rw [hu, refType, modTyp_refcount]
      have hc := h.count t ht
      split_ifs with htu
      · subst htu
        show (g.typ t).refcount + 1 = _
        rw [hc, held_self]
        push_cast
        ring
      · rw [held_of_ne htu] at hc ⊢
        exact hc

end

theorem Inv.newObj {type : Option Ptr} (h : Inv type g) {id : UInt32}
    (hid : id ∉ g.objects.map fun x => (g.obj x).id) :
    Inv type (refType type ({ g with next := g.next + 1 }.newObj g.next id type)) := by
  have hnew : g.next ∉ ({ g with next := g.next + 1 } : Graph).objects := fun hm =>
    absurd (h.obj.fresh _ hm) (Nat.lt_irrefl _)
  have hn := h.next
  have h1 := ObjInv.new id type hnew hn.obj (Nat.lt_succ_self _) hid
  have h2 := OwnInv.new id type hnew hn.own
  have h3 := SubInv.new id type hnew hn.sub
  have h4 := EvInv.new id type hnew hn.ev
  have h5 : TypInv type (refType type ({ g with next := g.next + 1 }.newObj g.next id type)) :=
    TypInv.newObj id type hnew hn.typ
  cases type with
  | none => exact ⟨h1, h2, h3, h4, h5⟩
  | some t =>
    exact ⟨h1.congr rfl rfl le_rfl (fun _ => rfl) fun _ => rfl,
      h2.congr rfl rfl le_rfl (fun _ => rfl) fun _ => rfl,
      h3.congr rfl rfl le_rfl (fun _ => rfl) fun _ => rfl,
      h4.congr rfl rfl rfl le_rfl fun _ => rfl, h5⟩

theorem modObj_obj (g : Graph) (o : Ptr) (f : Object → Object) (x : Ptr) :
    (g.modObj o f).obj x = if x = o then f (g.obj x) else g.obj x := by
  simp only [Graph.modObj, Function.update_apply]
  split_ifs with hx
  · rw [hx]
  · rfl

/-- A projection that an update of an object keeps. -/
theorem modObj_proj {β : Type} (g : Graph) (o : Ptr) {f : Object → Object} {π : Object → β}
    (hf : ∀ y, π (f y) = π y) (x : Ptr) : π ((g.modObj o f).obj x) = π (g.obj x) := by
  rw [modObj_obj]
  split_ifs
  · exact hf _
  · rfl

theorem insertPath_eq {g g' : Graph} {o : Ptr} {path : Str} (h : g.insertPath o path = some g') :
    (∀ x ∈ g.path, (g.obj x).pathKey ≠ some path) ∧
      g' = { g.modObj o fun x => { x with pathKey := some path } with
        path := Prefix.insertKey (g.modObj o fun x => { x with pathKey := some path }).key o
          g.path } := by
  unfold Graph.insertPath at h
  split_ifs at h with hex
  · refine ⟨fun x hx he => hex ⟨x, hx, he⟩, ?_⟩
    exact (Option.some.inj h).symm

/-- An object without a path gets one that is not in use. -/
theorem Inv.insertPath {g g' : Graph} (h : Inv x g) {o : Ptr} {path : Str}
    (ho : o ∈ g.objects) (hk : (g.obj o).pathKey = none) (hg : g.insertPath o path = some g') :
    Inv x g' := by
  obtain ⟨hfree, rfl⟩ := insertPath_eq hg
  set f : Object → Object := fun x => { x with pathKey := some path } with hf
  have hop : o ∉ g.path := fun hm => ((h.obj.path_mem o).1 hm).2 hk
  have hself : (g.modObj o f).key o = path := by simp [Graph.key, modObj_obj, hf]
  have hkey : ∀ y ∈ g.path, (g.modObj o f).key y = g.key y := fun y hy => by
    have : y ≠ o := fun he => hop (he ▸ hy)
    simp [Graph.key, modObj_obj, this]
  refine ⟨⟨?_, h.obj.fresh, fun y => ?_, ?_⟩, ?_, ?_, ?_, ?_⟩
  · show (g.objects.map fun y => ((g.modObj o f).obj y).id).Nodup
    simpa only [modObj_proj g o (f := f) (π := Object.id) (fun _ => rfl)] using h.obj.ids
  · show y ∈ Prefix.insertKey _ o g.path ↔ y ∈ g.objects ∧ ((g.modObj o f).obj y).pathKey ≠ none
    rw [Prefix.mem_insertKey, h.obj.path_mem y, modObj_obj]
    by_cases hy : y = o
    · subst hy
      simpa [hf] using ho
    · simp [hy]
  · refine Prefix.insertKey_strict (h.obj.path_sorted.imp_of_mem fun {a b} ha hb hlt => ?_)
      fun y hy he => ?_
    · show (g.modObj o f).key a < (g.modObj o f).key b
      rwa [hkey a ha, hkey b hb]
    · have hyk : (g.obj y).pathKey ≠ none := ((h.obj.path_mem y).1 hy).2
      obtain ⟨k, hyk⟩ := Option.ne_none_iff_exists'.1 hyk
      have : g.key y = path := by rw [← hkey y hy, ← hself]; exact he
      exact hfree y hy (by rw [hyk, ← this, Graph.key, hyk]; rfl)
  · exact h.own.congr rfl rfl le_rfl (fun _ => rfl)
      (modObj_proj g o (π := Object.client) fun _ => rfl)
  · exact h.sub.congr rfl rfl le_rfl (modObj_proj g o (π := Object.subscribers) fun _ => rfl)
      (modObj_proj g o (π := Object.targetList) fun _ => rfl)
  · exact h.ev.congr rfl rfl rfl le_rfl (modObj_proj g o (π := Object.events) fun _ => rfl)
  · exact h.typ.congr rfl rfl (fun _ => rfl) le_rfl
      (modObj_proj g o (π := Object.type) fun _ => rfl)

theorem own_cli (g : Graph) (o c d : Ptr) : ((g.own o c).cli d).objects =
    if d = c then o :: (g.cli d).objects else (g.cli d).objects := by
  simp only [Graph.own, Graph.modObj, Function.update_apply]
  split_ifs with hd
  · rw [hd]
  · rfl

theorem own_obj (g : Graph) (o c x : Ptr) : (g.own o c).obj x =
    if x = o then { g.obj x with client := some c } else g.obj x :=
  modObj_obj g o (fun y => { y with client := some c }) x

theorem own_proj {β : Type} (g : Graph) (o c : Ptr) {π : Object → β}
    (hf : ∀ y : Object, π { y with client := some c } = π y) (x : Ptr) :
    π ((g.own o c).obj x) = π (g.obj x) :=
  modObj_proj g o (f := fun y => { y with client := some c }) hf x

/-- An object without an owner is given to a client. -/
theorem Inv.giveTo (h : Inv x g) {o c : Ptr} (ho : o ∈ g.objects)
    (hn : (g.obj o).client = none) (hc : c ∈ g.connected) : Inv x (g.own o c) := by
  have hunlisted : ∀ d, o ∉ (g.cli d).objects := fun d hm => by
    simp [(h.own.listed d o hm).2] at hn
  have hcli : ∀ d y, y ∈ ((g.own o c).cli d).objects ↔ (d = c ∧ y = o) ∨ y ∈ (g.cli d).objects := by
    intro d y
    rw [own_cli]
    split_ifs with hd <;> simp [hd]
  refine ⟨?_, ⟨fun y hy d hd => ?_, fun d y hy => ?_, fun d => ?_, h.own.fresh,
    h.own.connected_nodup⟩, ?_, ?_, ?_⟩
  · exact h.obj.congr rfl rfl le_rfl (own_proj g o c (π := Object.id) fun _ => rfl)
      (own_proj g o c (π := Object.pathKey) fun _ => rfl)
  · rw [hcli]
    by_cases hyo : y = o
    · subst hyo
      have : c = d := by simpa [own_obj] using hd
      exact ⟨this ▸ hc, Or.inl ⟨this.symm, rfl⟩⟩
    · rw [own_obj, if_neg hyo] at hd
      exact ⟨(h.own.owner y hy d hd).1, Or.inr (h.own.owner y hy d hd).2⟩
  · rcases (hcli d y).1 hy with ⟨rfl, rfl⟩ | hy
    · exact ⟨ho, by simp [own_obj]⟩
    · have hyo : y ≠ o := fun he => hunlisted d (he ▸ hy)
      rw [own_obj, if_neg hyo]
      exact h.own.listed d y hy
  · rw [own_cli]
    split_ifs
    · exact List.nodup_cons.2 ⟨hunlisted d, h.own.nodup d⟩
    · exact h.own.nodup d
  · exact h.sub.congr rfl rfl le_rfl (own_proj g o c (π := Object.subscribers) fun _ => rfl)
      (own_proj g o c (π := Object.targetList) fun _ => rfl)
  · exact h.ev.congr rfl rfl rfl le_rfl (own_proj g o c (π := Object.events) fun _ => rfl)
  · exact h.typ.congr rfl rfl (fun _ => rfl) le_rfl
      (own_proj g o c (π := Object.type) fun _ => rfl)

/-- The object leaves the path tree, the list of its owner and the registry. -/
def Graph.unregister (g : Graph) (o : Ptr) : Graph :=
  { g.unlist o with path := g.path.erase o, objects := g.objects.erase o }

theorem unregister_uses {o : Ptr} (ho : o ∈ g.objects) (t : Ptr) :
    (g.unregister o).uses t + held (g.obj o).type t = g.uses t := by
  have hperm : g.uses t = (o :: g.objects.erase o).countP _ :=
    (List.perm_cons_erase ho).countP_eq _
  rw [hperm, List.countP_cons]
  refine congrArg₂ (· + ·) rfl ?_
  simp [held]

/-- An object that no subscription and no event source refers to is
    unregistered; the handler then holds its reference to the type. -/
theorem Inv.unregister (h : Inv none g) {o : Ptr} (ho : o ∈ g.objects)
    (hev : (g.obj o).events = []) (hsub : (g.obj o).subscribers = [])
    (htl : (g.obj o).targetList = []) : Inv (g.obj o).type (g.unregister o) := by
  have hmem : ∀ y, y ∈ (g.unregister o).objects ↔ y ≠ o ∧ y ∈ g.objects := fun y =>
    h.obj.nodup.mem_erase_iff
  have hcli : ∀ c y, y ∈ ((g.unregister o).cli c).objects ↔ y ≠ o ∧ y ∈ (g.cli c).objects :=
    fun c y => (h.own.nodup c).mem_erase_iff
  refine ⟨⟨?_, fun y hy => h.obj.fresh y ((hmem y).1 hy).2, fun y => ?_, ?_⟩,
    ⟨fun y hy c hc => ?_, fun c y hy => ?_, fun c => (h.own.nodup c).erase o, h.own.fresh,
      h.own.connected_nodup⟩,
    ⟨fun y hy p hp => ?_, fun y hy p hp => ?_, fun y hy => h.sub.nodup y ((hmem y).1 hy).2,
      fun y hy => h.sub.fresh y ((hmem y).1 hy).2⟩,
    ⟨fun e he => ?_, fun y hy => h.ev.listed y ((hmem y).1 hy).2, h.ev.nodup,
      fun y hy => h.ev.events_nodup y ((hmem y).1 hy).2, h.ev.fresh⟩,
    ⟨fun t => ?_, fun t ht => ?_, h.typ.nodup, h.typ.fresh⟩⟩
  · exact h.obj.ids.sublist (List.erase_sublist.map _)
  · rw [hmem]
    show y ∈ g.path.erase o ↔ (y ≠ o ∧ y ∈ g.objects) ∧ (g.obj y).pathKey ≠ none
    rw [h.obj.path_nodup.mem_erase_iff, h.obj.path_mem y, and_assoc]
  · exact h.obj.path_sorted.sublist List.erase_sublist
  · obtain ⟨hyo, hy⟩ := (hmem y).1 hy
    obtain ⟨h1, h2⟩ := h.own.owner y hy c hc
    exact ⟨h1, (hcli c y).2 ⟨hyo, h2⟩⟩
  · obtain ⟨hyo, hy⟩ := (hcli c y).1 hy
    obtain ⟨h1, h2⟩ := h.own.listed c y hy
    exact ⟨(hmem y).2 ⟨hyo, h1⟩, h2⟩
  · obtain ⟨h1, h2, h3⟩ := h.sub.target y ((hmem y).1 hy).2 p hp
    refine ⟨h1, (hmem _).2 ⟨fun he => ?_, h2⟩, h3⟩
    rw [show (g.sub p).subscriber = o from he, htl] at h3
    exact List.not_mem_nil h3
  · obtain ⟨h1, h2, h3⟩ := h.sub.source y ((hmem y).1 hy).2 p hp
    refine ⟨h1, (hmem _).2 ⟨fun he => ?_, h2⟩, h3⟩
    rw [show (g.sub p).target = o from he, hsub] at h3
    exact List.not_mem_nil h3
  · obtain ⟨h1, h2⟩ := h.ev.owner e he
    refine ⟨(hmem _).2 ⟨fun hoe => ?_, h1⟩, h2⟩
    rw [show (g.ev e).obj = o from hoe, hev] at h2
    exact List.not_mem_nil h2
  · rw [unregister_uses ho]
    exact h.typ.mem t
  · have := h.typ.count t ht
    rw [held_none] at this
    rw [← Nat.cast_add, unregister_uses ho]
    exact this

/-! ## Clients -/

/-- A new client, whose socket may turn out not to be served. -/
theorem Inv.newClient (h : Inv x g) (id : UInt32) (cred : Cred)
    (clients : List Ptr) {connected : List Ptr}
    (hc : connected = g.connected ∨ connected = g.next :: g.connected) :
    Inv x { g with
      cli := Function.update g.cli g.next ⟨id, cred, []⟩
      clients := clients
      connected := connected
      next := g.next + 1 } := by
  have hsub : g.connected ⊆ connected := by
    rcases hc with rfl | rfl
    · exact List.Subset.refl _
    · exact List.subset_cons_self _ _
  refine ⟨h.next.obj.congr rfl rfl le_rfl (fun _ => rfl) fun _ => rfl,
    ⟨fun o ho c hcl => ?_, fun c o ho => ?_, fun c => ?_, fun c hm => ?_, ?_⟩,
    h.next.sub.congr rfl rfl le_rfl (fun _ => rfl) fun _ => rfl,
    h.next.ev.congr rfl rfl rfl le_rfl fun _ => rfl,
    h.next.typ.congr rfl rfl (fun _ => rfl) le_rfl fun _ => rfl⟩
  · obtain ⟨h1, h2⟩ := h.own.owner o ho c hcl
    refine ⟨hsub h1, ?_⟩
    show o ∈ (Function.update g.cli g.next ⟨id, cred, []⟩ c).objects
    rw [Function.update_of_ne (h.own.fresh c h1).ne]
    exact h2
  · change o ∈ (Function.update g.cli g.next ⟨id, cred, []⟩ c).objects at ho
    by_cases he : c = g.next
    · rw [he, Function.update_self] at ho
      exact absurd ho List.not_mem_nil
    · rw [Function.update_of_ne he] at ho
      exact h.own.listed c o ho
  · show (Function.update g.cli g.next ⟨id, cred, []⟩ c).objects.Nodup
    by_cases he : c = g.next
    · rw [he, Function.update_self]
      exact List.nodup_nil
    · rw [Function.update_of_ne he]
      exact h.own.nodup c
  · rcases hc with rfl | rfl
    · exact (h.own.fresh c hm).trans (Nat.lt_succ_self _)
    · rcases List.mem_cons.1 hm with rfl | hm
      · exact Nat.lt_succ_self _
      · exact (h.own.fresh c hm).trans (Nat.lt_succ_self _)
  · rcases hc with rfl | rfl
    · exact h.own.connected_nodup
    · exact List.nodup_cons.2 ⟨fun hm => (h.own.fresh _ hm).false, h.own.connected_nodup⟩

/-- A client without objects goes. -/
theorem Inv.delClient (h : Inv x g) {c : Ptr}
    (hc : (g.cli c).objects = []) :
    Inv x { g with clients := g.clients.erase c, connected := g.connected.erase c } := by
  refine ⟨h.obj.congr rfl rfl le_rfl (fun _ => rfl) fun _ => rfl,
    ⟨fun o ho d hd => ?_, h.own.listed, h.own.nodup,
      fun d hd => h.own.fresh d (List.mem_of_mem_erase hd), h.own.connected_nodup.erase c⟩,
    h.sub.congr rfl rfl le_rfl (fun _ => rfl) fun _ => rfl,
    h.ev.congr rfl rfl rfl le_rfl fun _ => rfl,
    h.typ.congr rfl rfl (fun _ => rfl) le_rfl fun _ => rfl⟩
  obtain ⟨h1, h2⟩ := h.own.owner o ho d hd
  refine ⟨(List.mem_erase_of_ne fun he => ?_).2 h1, h2⟩
  rw [he, hc] at h2
  exact List.not_mem_nil h2

end Ubus
