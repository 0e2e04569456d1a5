/-
  A paused lookup: between the slices other clients add and remove objects. As long as nobody frees
  the object at which the command has stopped, every object that stays registered is sent exactly
  once. `ubusd_free_object` does not look for such commands: when the object goes, the command keeps
  a dangling pointer.
-/
import IotLib.Ubus.Graph
import IotLib.Ubus.Lookup

namespace Ubus

/-! ## How the path tree changes -/

/-- What a sequence of changes that unregisters only objects in `F` leaves as it was. -/
structure Evolves (F : Ptr → Prop) (g g' : Graph) : Prop where
  next : g.next ≤ g'.next
  key : ∀ o < g.next, (g.obj o).pathKey ≠ none → (g'.obj o).pathKey = (g.obj o).pathKey
  stay : ∀ o ∈ g.path, ¬ F o → o ∈ g'.path
  back : ∀ o < g.next, (g.obj o).pathKey ≠ none → o ∈ g'.path → o ∈ g.path
  type : ∀ o < g.next, (g'.obj o).type = (g.obj o).type
  methods : ∀ o ∈ g.path, o ∈ g'.path → ∀ t, (g.obj o).type = some t →
    (g'.typ t).methods = (g.typ t).methods
  cred : ∀ c < g.next, (g'.cli c).cred = (g.cli c).cred
  conn : ∀ c < g.next, c ∈ g'.connected → c ∈ g.connected

section
variable {acls : Acls} {F : Ptr → Prop} {x y : Option Ptr} {g g' g'' : Graph}

section
-- the equations of these definitions, which the lemmas below rewrite with
attribute [local simp] lstep ubusdHandleLookupFrom clientCb Graph.pathFrom ubusdSendObj
end

theorem Evolves.refl (F : Ptr → Prop) (g : Graph) : Evolves F g g :=
  ⟨le_rfl, fun _ _ _ => rfl, fun _ ho _ => ho, fun _ _ _ ho => ho, fun _ _ => rfl,
    fun _ _ _ _ _ => rfl, fun _ _ => rfl, fun _ _ hc => hc⟩

theorem Evolves.trans (h : Evolves F g g') (h' : Evolves F g' g'') (hi : Inv x g) :
    Evolves F g g'' where
  next := h.next.trans h'.next
  key := fun o ho hk => by
    rw [h'.key o (ho.trans_le h.next) (by rwa [h.key o ho hk]), h.key o ho hk]
  stay := fun o ho hF => h'.stay o (h.stay o ho hF) hF
  back := fun o ho hk hm =>
    h.back o ho hk (h'.back o (ho.trans_le h.next) (by rwa [h.key o ho hk]) hm)
  type := fun o ho => (h'.type o (ho.trans_le h.next)).trans (h.type o ho)
  methods := fun o ho hm t ht => by
    have hlt := hi.obj.fresh o ((hi.obj.path_mem o).1 ho).1
    have hk := ((hi.obj.path_mem o).1 ho).2
    have hm' : o ∈ g'.path := h'.back o (hlt.trans_le h.next) (by rwa [h.key o hlt hk]) hm
    rw [h'.methods o hm' hm t ((h.type o hlt).trans ht), h.methods o ho hm' t ht]
  cred := fun c hc => (h'.cred c (hc.trans_le h.next)).trans (h.cred c hc)
  conn := fun c hc hm => h.conn c hc (h'.conn c (hc.trans_le h.next) hm)

/-- A change that leaves the path tree and the objects' paths and types alone. -/
theorem Evolves.of_same (hn : g.next ≤ g'.next) (hp : g'.path = g.path)
    (hk : ∀ o < g.next, (g'.obj o).pathKey = (g.obj o).pathKey)
    (ht : ∀ o < g.next, (g'.obj o).type = (g.obj o).type)
    (hm : ∀ t < g.next, 0 < g.uses t → (g'.typ t).methods = (g.typ t).methods)
    (hc : ∀ c < g.next, (g'.cli c).cred = (g.cli c).cred)
    (hl : ∀ c < g.next, c ∈ g'.connected → c ∈ g.connected) (hi : Inv x g) : Evolves F g g' where
  next := hn
  key := fun o ho _ => hk o ho
  stay := fun o ho _ => hp ▸ ho
  back := fun o _ _ ho => hp ▸ ho
  type := ht
  methods := fun o ho _ t hty => by
    have hobj := ((hi.obj.path_mem o).1 ho).1
    exact hm t (hi.typ.fresh t (hi.typ.mem_of_use hobj hty))
      (List.countP_pos_iff.2 ⟨o, hobj, by simpa using hty⟩)
  cred := hc
  conn := hl

theorem modTyp_methods (g : Graph) (t u : Ptr) {f : ObjType → ObjType}
    (hf : ∀ ty, (f ty).methods = ty.methods) :
    ((g.modTyp t f).typ u).methods = (g.typ u).methods := by
  simp only [Graph.modTyp, Function.update_apply]
  split_ifs with hu
  · rw [hf, hu]
  · rfl

theorem GStep.evolves (hs : GStep acls F x g y g') (hi : Inv x g) : Evolves F g g' := by
  cases hs with
  | next =>
    exact .of_same (Nat.le_succ _) rfl (fun _ _ => rfl) (fun _ _ => rfl) (fun _ _ _ => rfl)
      (fun _ _ => rfl) (fun _ _ hc => hc) hi
  | addSub =>
    exact .of_same (Nat.le_succ _) rfl (fun _ _ => by rw [addSub_obj])
      (fun _ _ => by rw [addSub_obj]) (fun _ _ _ => rfl) (fun _ _ => rfl) (fun _ _ hc => hc) hi
  | delSub p =>
    exact .of_same le_rfl rfl (fun _ _ => by rw [delSub_obj]) (fun _ _ => by rw [delSub_obj])
      (fun _ _ _ => rfl) (fun _ _ => rfl) (fun _ _ hc => hc) hi
  | addEvent key part =>
    exact .of_same (Nat.le_succ _) rfl (fun _ _ => by rw [addEvent_obj])
      (fun _ _ => by rw [addEvent_obj]) (fun _ _ _ => rfl) (fun _ _ => rfl) (fun _ _ hc => hc) hi
  | delEvent e =>
    exact .of_same le_rfl rfl (fun _ _ => by rw [delEvent_obj])
      (fun _ _ => by rw [delEvent_obj]) (fun _ _ _ => rfl) (fun _ _ => rfl) (fun _ _ hc => hc) hi
  | newType id =>
    refine .of_same (Nat.le_succ _) rfl (fun _ _ => rfl) (fun _ _ => rfl) (fun t ht _ => ?_)
      (fun _ _ => rfl) (fun _ _ hc => hc) hi
    exact congrArg ObjType.methods (Function.update_of_ne ht.ne _ _)
  | @setMethods _ t ms hu =>
    refine .of_same le_rfl rfl (fun _ _ => rfl) (fun _ _ => rfl) (fun u _ hpos => ?_)
      (fun _ _ => rfl) (fun _ _ hc => hc) hi
    have hne : u ≠ t := fun he => by rw [he, hu] at hpos; exact absurd hpos (lt_irrefl 0)
    exact congrArg ObjType.methods (Function.update_of_ne hne _ _)
  | getType =>
    exact .of_same le_rfl rfl (fun _ _ => rfl) (fun _ _ => rfl)
      (fun u _ _ => modTyp_methods g _ u fun _ => rfl) (fun _ _ => rfl) (fun _ _ hc => hc) hi
  | unref =>
    rename_i t
    have hm : ∀ u, ((ubusUnrefObjectType t g).typ u).methods = (g.typ u).methods := by
      intro u
      have := modTyp_methods g t u (f := fun ty => { ty with refcount := ty.refcount - 1 })
        fun _ => rfl
      simp only [ubusUnrefObjectType]
      split_ifs <;> exact this
    rw [ubusUnrefObjectType_keeps]
    exact .of_same le_rfl rfl (fun _ _ => rfl) (fun _ _ => rfl) (fun u _ _ => hm u)
      (fun _ _ => rfl) (fun _ _ hc => hc) hi
  | @newObj _ _ id hid =>
    have hobj : ∀ o < g.next, (({ g with next := g.next + 1 }.newObj g.next id x).obj o) =
        g.obj o := fun o ho => newObj_obj id x ho.ne
    have hm : ∀ u, ((refType x ({ g with next := g.next + 1 }.newObj g.next id x)).typ u).methods =
        (g.typ u).methods := by
      intro u
      cases x with
      | none => rfl
      | some t =>
        exact modTyp_methods ({ g with next := g.next + 1 }.newObj g.next id (some t)) t u
          (f := fun ty => { ty with refcount := ty.refcount + 1 }) fun _ => rfl
    rw [refType_keeps]
    exact .of_same (Nat.le_succ _) rfl (fun o ho => congrArg Object.pathKey (hobj o ho))
      (fun o ho => congrArg Object.type (hobj o ho)) (fun u _ _ => hm u) (fun _ _ => rfl) (fun _ _ hc => hc) hi
  | @insertPath _ _ _ o path ho hk hg =>
    obtain ⟨-, rfl⟩ := insertPath_eq hg
    set f : Object → Object := fun x => { x with pathKey := some path } with hf
    have hmem : ∀ y, y ∈ Prefix.insertKey (g.modObj o f).key o g.path ↔ y = o ∨ y ∈ g.path :=
      fun y => Prefix.mem_insertKey _ _ _ _
    refine ⟨le_rfl, fun y _ hy => ?_, fun y hy _ => (hmem y).2 (Or.inr hy), fun y _ hy hm => ?_,
      fun y _ => modObj_proj g o (f := f) (π := Object.type) (fun _ => rfl) y,
      fun _ _ _ _ _ => rfl, fun _ _ => rfl, fun _ _ hc => hc⟩
    · show ((g.modObj o f).obj y).pathKey = _
      rw [modObj_obj, if_neg (show y ≠ o from fun he => hy (he ▸ hk))]
    · exact ((hmem y).1 hm).resolve_left fun he => hy (he ▸ hk)
  | @giveTo _ _ o c ho hn hc =>
    refine .of_same le_rfl rfl (fun y _ => own_proj g o c (π := Object.pathKey) (fun _ => rfl) y)
      (fun y _ => own_proj g o c (π := Object.type) (fun _ => rfl) y) (fun _ _ _ => rfl)
      (fun d _ => ?_) (fun _ _ hc => hc) hi
    simp only [Graph.own, Graph.modObj, Function.update_apply]
    split_ifs with hd
    · rw [hd]
    · rfl
  | @unregister _ o hF ho =>
    refine ⟨le_rfl, fun _ _ _ => rfl, fun y hy hnF => ?_,
      fun y _ _ hm => List.mem_of_mem_erase hm, fun _ _ => rfl, fun _ _ _ _ _ => rfl,
      fun _ _ => rfl, fun _ _ hc => hc⟩
    exact (List.mem_erase_of_ne (show y ≠ o from fun he => hnF (he ▸ hF))).2 hy
  | newClient id cred clients hconn =>
    refine .of_same (Nat.le_succ _) rfl (fun _ _ => rfl) (fun _ _ => rfl) (fun _ _ _ => rfl)
      (fun c hc => ?_) (fun c hc hm => ?_) hi
    · exact congrArg Client.cred (Function.update_of_ne hc.ne _ _)
    · rcases hconn with rfl | rfl
      · exact hm
      · exact (List.mem_cons.1 hm).resolve_left hc.ne
  | delClient =>
    exact .of_same le_rfl rfl (fun _ _ => rfl) (fun _ _ => rfl) (fun _ _ _ => rfl)
      (fun _ _ => rfl) (fun _ _ hc => List.mem_of_mem_erase hc) hi

theorem GSteps.evolves (hs : GSteps acls F x g y g') (hi : Inv x g) : Evolves F g g' := by
  induction hs with
  | refl => exact .refl F _
  | tail hss hs ih => exact ih.trans (hs.evolves (hss.inv hi)) hi

end

/-! ## What has been sent for a lookup -/

/-- The objects sent for the lookup `k`. -/
def sentTo (k : Nat) (log : List Sent) : List Ptr :=
  log.filterMap fun
    | .data k' o => if k' = k then some o else none
    | .status _ _ => none

/-- All that was sent for the lookup `k`. -/
def entries (k : Nat) (log : List Sent) : List Sent := log.filter fun e => decide (e.token = k)

theorem sentTo_append (k : Nat) (log es : List Sent) :
    sentTo k (log ++ es) = sentTo k log ++ sentTo k es := List.filterMap_append

theorem entries_append (k : Nat) (log es : List Sent) :
    entries k (log ++ es) = entries k log ++ entries k es := List.filter_append _ _

theorem sentTo_data (k : Nat) (os : List Ptr) : sentTo k (os.map (.data k)) = os := by
  induction os with
  | nil => rfl
  | cons o os ih => simp [sentTo]

theorem entries_data (k : Nat) (os : List Ptr) :
    entries k (os.map (.data k)) = os.map (.data k) := by
  simp [entries, Sent.token]

/-- What is sent for one lookup is nothing to another. -/
theorem sentTo_other {k j : Nat} (hne : j ≠ k) {es : List Sent} (h : ∀ e ∈ es, e.token = j) :
    sentTo k es = [] ∧ entries k es = [] := by
  constructor
  · rw [sentTo, List.filterMap_eq_nil_iff]
    intro e he
    have := h e he
    cases e with
    | data k' o => simp only [Sent.token] at this; simp [this, hne]
    | status => rfl
  · rw [entries, List.filter_eq_nil_iff]
    intro e he
    simp [h e he, hne]

section
variable (acls : Acls) (cl : Ptr)

/-- The objects below a limit that were there at the start and still are have been sent. -/
def Complete (g : Graph) (a : Arrival) (log : List Sent) (k : Nat) (Below : Ptr → Prop) : Prop :=
  ∀ o ∈ a.start, o ∈ g.path → visible acls cl g o = true → Below o → o ∈ sentTo k log

/-- The objects before the cursor of a command. -/
def below (g : Graph) : Option Ptr → Ptr → Prop
  | none, _ => False
  | some c, o => g.key o < g.key c

/-- A lookup without a path that has not ended: what was sent lies below the
    limit, and is all there is. -/
structure Running (g : Graph) (a : Arrival) (log : List Sent) (k : Nat) (Below : Ptr → Prop) :
    Prop where
  nodup : (sentTo k log).Nodup
  known : ∀ o ∈ sentTo k log, o < g.next ∧ (g.obj o).pathKey ≠ none
  pure : entries k log = (sentTo k log).map (.data k)
  sent : ∀ o ∈ sentTo k log, Below o
  complete : Complete acls cl g a log k Below

/-- A lookup without a path. -/
structure TokInv (g : Graph) (q : List Cmd) (log : List Sent) (k : Nat) (a : Arrival) : Prop where
  nodup : (sentTo k log).Nodup
  known : ∀ o ∈ sentTo k log, o < g.next ∧ (g.obj o).pathKey ≠ none
  shape : ∃ ret : Option Status,
    entries k log = (sentTo k log).map (.data k) ++ (ret.map (.status k)).toList
  ended : ∀ ret, Sent.status k ret ∈ log → (a.mem = true → ret = .ok) ∧
    (ret = .ok → Complete acls cl g a log k fun _ => True)
  queued : ∀ cmd ∈ q, cmd.token = k → Running acls cl g a log k (below g cmd.obj)

/-- The lookups of the client, of which `q` are queued. -/
structure LInv (q : List Cmd) (s : LSt) : Prop where
  reg : Inv none s.reg.graph
  client : s.arrived ≠ [] → cl < s.reg.graph.next
  start : ∀ a ∈ s.arrived, ∀ o ∈ a.start,
    o < s.reg.graph.next ∧ (s.reg.graph.obj o).pathKey ≠ none
  logged : ∀ e ∈ s.log, e.token < s.arrived.length
  tokens : (q.map Cmd.token).Nodup
  msgs : ∀ cmd ∈ q, ∃ a, s.arrived[cmd.token]? = some a ∧ a.msg = cmd.msg
  cursors : ∀ cmd ∈ q, ∀ c, cmd.obj = some c → c ∈ s.reg.graph.path
  toks : ∀ k a, s.arrived[k]? = some a → a.msg.objpath = none →
    TokInv acls cl s.reg.graph q s.log k a

/-- No lookup is lost: each one is queued or has got its status. -/
def Live (q : List Cmd) (s : LSt) : Prop :=
  ∀ k < s.arrived.length, (∃ cmd ∈ q, cmd.token = k) ∨ ∃ ret, Sent.status k ret ∈ s.log

end

section
variable {acls : Acls} {cl : Ptr} {g g' : Graph} {a : Arrival} {log es : List Sent} {k : Nat}
  {q q' : List Cmd} {cmd : Cmd} {Below : Ptr → Prop} {s s' : LSt}

/-! ## One lookup -/

theorem mem_entries {e : Sent} (he : e.token = k) : e ∈ entries k log ↔ e ∈ log := by
  simp [entries, he]

theorem Running.no_status (h : Running acls cl g a log k Below) (ret : Status) :
    Sent.status k ret ∉ log := by
  intro hm
  rw [← mem_entries (k := k) rfl, h.pure] at hm
  simp at hm

theorem Running.congr {Below' : Ptr → Prop} (h : Running acls cl g a log k Below)
    (hb : ∀ o, Below o ↔ Below' o) : Running acls cl g a log k Below' :=
  (funext fun o => propext (hb o) : Below = Below') ▸ h

/-- The lookup is the only one in the queue with its token. -/
theorem Running.tokInv_queued (h : Running acls cl g a log k (below g cmd.obj))
    (hk : cmd.token = k)
    (hq : ((cmd :: q).map Cmd.token).Nodup) : TokInv acls cl g (cmd :: q) log k a where
  nodup := h.nodup
  known := h.known
  shape := ⟨none, by simpa using h.pure⟩
  ended := fun ret hm => absurd hm (h.no_status ret)
  queued := by
    intro cmd' hm hk'
    rcases List.mem_cons.1 hm with rfl | hm
    · exact h
    · have hn : cmd.token ∉ q.map Cmd.token := (List.nodup_cons.1 hq).1
      exact absurd (List.mem_map.2 ⟨cmd', hm, hk'.trans hk.symm⟩) hn

theorem sentTo_status (ret : Status) : sentTo k (log ++ [.status k ret]) = sentTo k log := by
  simp [sentTo]

/-- The status ends the lookup. -/
theorem Running.tokInv_status (h : Running acls cl g a log k Below) {ret : Status}
    (hq : ∀ c ∈ q, c.token ≠ k) (hmem : a.mem = true → ret = .ok)
    (hb : ret = .ok → ∀ o, Below o) : TokInv acls cl g q (log ++ [.status k ret]) k a where
  nodup := (sentTo_status ret).symm ▸ h.nodup
  known := (sentTo_status ret).symm ▸ h.known
  shape := by
    refine ⟨some ret, ?_⟩
    rw [sentTo_status, entries_append, h.pure]
    simp [entries, Sent.token]
  ended := by
    intro ret' hm
    have heq : ret' = ret := by
      rcases List.mem_append.1 hm with hm | hm
      · exact absurd hm (h.no_status ret')
      · simpa using hm
    subst heq
    refine ⟨hmem, fun hret o ho hp hv _ => ?_⟩
    rw [sentTo_status]
    exact h.complete o ho hp hv (hb hret o)
  queued := fun c hc hk => absurd hk (hq c hc)

/-- What is sent for another lookup. -/
theorem TokInv.other {j : Nat} (h : TokInv acls cl g q log k a) (hne : j ≠ k)
    (hes : ∀ e ∈ es, e.token = j) (hq : ∀ c ∈ q', c.token = k → c ∈ q) :
    TokInv acls cl g q' (log ++ es) k a := by
  obtain ⟨h1, h2⟩ := sentTo_other hne hes
  have hsent : sentTo k (log ++ es) = sentTo k log := by rw [sentTo_append, h1, List.append_nil]
  have hent : entries k (log ++ es) = entries k log := by rw [entries_append, h2, List.append_nil]
  refine ⟨hsent ▸ h.nodup, hsent ▸ h.known, by rw [hsent, hent]; exact h.shape,
    fun ret hm => ?_, fun c hc hk => ?_⟩
  · have hold : Sent.status k ret ∈ log := by
      rw [← mem_entries (k := k) rfl, hent] at hm
      exact (mem_entries rfl).1 hm
    obtain ⟨h3, h4⟩ := h.ended ret hold
    exact ⟨h3, fun hret o ho hp hv hb => hsent ▸ h4 hret o ho hp hv hb⟩
  · have h4 := h.queued c (hq c hc hk) hk
    exact ⟨hsent ▸ h4.nodup, hsent ▸ h4.known, by rw [hsent, hent]; exact h4.pure,
      hsent ▸ h4.sent, fun o ho hp hv hb => hsent ▸ h4.complete o ho hp hv hb⟩

/-- The path tree around one of its objects. -/
theorem ObjInv.split (hi : ObjInv g) {c : Ptr} (hc : c ∈ g.path) : ∃ l r,
    g.path = l ++ c :: r ∧ (∀ o ∈ l, g.key o < g.key c) ∧ ∀ o ∈ r, g.key c < g.key o := by
  obtain ⟨l, r, hp⟩ := List.append_of_mem hc
  have hs := hi.path_sorted
  rw [hp, List.pairwise_append, List.pairwise_cons] at hs
  exact ⟨l, r, hp, fun o ho => hs.2.2 o ho c (by simp), hs.2.1.1⟩

/-- The objects from the cursor on are those that are not below it. -/
theorem mem_pathFrom (hi : ObjInv g) {c : Option Ptr} (hc : ∀ x, c = some x → x ∈ g.path)
    {o : Ptr} : o ∈ g.pathFrom c ↔ o ∈ g.path ∧ ¬ below g c o := by
  cases c with
  | none => simp [Graph.pathFrom, below]
  | some c =>
    obtain ⟨l, r, hp, hl, hr⟩ := hi.split (hc c rfl)
    have hne : ∀ x ∈ l, decide (x ≠ c) = true := fun x hx => by
      simpa using fun he : x = c => List.lt_irrefl _ (he ▸ hl x hx)
    have hfrom : g.pathFrom (some c) = c :: r := by
      rw [Graph.pathFrom, hp, List.dropWhile_append_of_pos hne]
      simp
    rw [hfrom, hp]
    refine ⟨fun ho => ⟨List.mem_append_right _ ho, fun hb => ?_⟩, fun ⟨ho, hb⟩ => ?_⟩
    · rcases List.mem_cons.1 ho with rfl | ho
      · exact List.lt_irrefl _ hb
      · exact List.lt_irrefl _ (List.lt_trans hb (hr o ho))
    · exact (List.mem_append.1 ho).resolve_left fun ho => hb (hl o ho)

theorem pathFrom_sorted (hi : ObjInv g) (c : Option Ptr) :
    (g.pathFrom c).Pairwise fun a b => g.key a < g.key b := by
  cases c with
  | none => exact hi.path_sorted
  | some c => exact hi.path_sorted.sublist (List.dropWhile_sublist _)

/-- The objects before the first one that is left. -/
def beforeHead (g : Graph) (rest : List Ptr) (o : Ptr) : Prop :=
  ∀ c, rest.head? = some c → g.key o < g.key c

/-- **A slice** of a lookup: from the cursor on the objects `done` are sent, up
    to the first one of `rest`. -/
theorem Running.slice (hi : ObjInv g) {cur : Option Ptr} (hc : ∀ x, cur = some x → x ∈ g.path)
    (h : Running acls cl g a log k (below g cur)) {done rest : List Ptr}
    (hsplit : g.pathFrom cur = done ++ rest) :
    Running acls cl g a (log ++ (done.filter (visible acls cl g)).map (.data k)) k
      (beforeHead g rest) := by
  have hsorted := pathFrom_sorted hi cur
  rw [hsplit, List.pairwise_append] at hsorted
  have hfrom : ∀ o, o ∈ done ∨ o ∈ rest ↔ o ∈ g.path ∧ ¬ below g cur o := fun o => by
    rw [← mem_pathFrom hi hc, hsplit, List.mem_append]
  have hdone : ∀ o ∈ done.filter (visible acls cl g), o ∈ done := fun o ho =>
    (List.mem_filter.1 ho).1
  have hsent : sentTo k (log ++ (done.filter (visible acls cl g)).map (.data k)) =
      sentTo k log ++ done.filter (visible acls cl g) := by
    rw [sentTo_append, sentTo_data]
  have hrest : ∀ c, rest.head? = some c → c ∈ rest := fun c => List.mem_of_head?
  refine ⟨?_, ?_, ?_, ?_, ?_⟩
  · rw [hsent, List.nodup_append]
    refine ⟨h.nodup, List.Nodup.filter _ (hsorted.1.imp fun {x y} hlt => ?_), ?_⟩
    · rintro rfl
      exact List.lt_irrefl _ hlt
    · rintro x hx y hy rfl
      exact ((hfrom x).1 (Or.inl (hdone x hy))).2 (h.sent x hx)
  · rw [hsent]
    intro o ho
    rcases List.mem_append.1 ho with ho | ho
    · exact h.known o ho
    · have hp := (hi.path_mem o).1 ((hfrom o).1 (Or.inl (hdone o ho))).1
      exact ⟨hi.fresh o hp.1, hp.2⟩
  · rw [hsent, entries_append, entries_data, h.pure, List.map_append]
  · rw [hsent]
    intro o ho c hhead
    rcases List.mem_append.1 ho with ho | ho
    · have hb := h.sent o ho
      cases cur with
      | none => exact absurd hb id
      | some x =>
        -- the cursor is not above the first object that is left
        have hx : ¬ g.key c < g.key x := ((hfrom c).1 (Or.inr (hrest c hhead))).2
        exact not_not.1 fun hn => hx (List.lt_of_le_of_lt (List.not_lt.1 hn) hb)
    · exact hsorted.2.2 o (hdone o ho) c (hrest c hhead)
  · intro o ho hp hv hb
    rw [hsent, List.mem_append]
    by_cases hbelow : below g cur o
    · exact Or.inl (h.complete o ho hp hv hbelow)
    · rcases (hfrom o).2 ⟨hp, hbelow⟩ with hd | hr
      · exact Or.inr (List.mem_filter.2 ⟨hd, hv⟩)
      · -- an object that is left is not below the first one that is left
        exfalso
        cases rest with
        | nil => exact absurd hr (by simp)
        | cons c rest =>
          have hlt := hb c rfl
          rcases List.mem_cons.1 hr with rfl | hr
          · exact List.lt_irrefl _ hlt
          · exact List.lt_irrefl _ (List.lt_trans hlt ((List.pairwise_cons.1 hsorted.2.1).1 o hr))

/-! ## The slices of the code -/

/-- All that a slice changes, apart from the transmit side. -/
structure Appends (s s' : LSt) (es : List Sent) : Prop where
  reg : s'.reg = s.reg
  arrived : s'.arrived = s.arrived
  cmdQueue : s'.cmdQueue = s.cmdQueue
  log : s'.log = s.log ++ es

theorem Appends.refl (s : LSt) : Appends s s [] :=
  ⟨rfl, rfl, rfl, (List.append_nil _).symm⟩

theorem Appends.trans {s'' : LSt} {es' : List Sent} (h : Appends s s' es)
    (h' : Appends s' s'' es') : Appends s s'' (es ++ es') :=
  ⟨h'.reg.trans h.reg, h'.arrived.trans h.arrived, h'.cmdQueue.trans h.cmdQueue, by
    rw [h'.log, h.log, List.append_assoc]⟩

theorem sendStatus_appends (msg : LookupMsg) (k : Nat) (ret : Status) (s : LSt) :
    Appends s (sendStatus msg k ret s) [.status k ret] := ⟨rfl, rfl, rfl, rfl⟩

theorem ubusdSendObj_appends (msg : LookupMsg) (k : Nat) (o : Ptr) (s : LSt) :
    Appends s (ubusdSendObj acls cl msg k o s)
      (([o].filter (visible acls cl s.reg.graph)).map (.data k)) := by
  unfold ubusdSendObj
  split
  · rename_i htype
    have hv : visible acls cl s.reg.graph o = false := by simp [visible, htype]
    simpa [hv] using Appends.refl s
  · split_ifs with hv
    · simp only [List.filter_cons, hv, List.filter_nil, if_true, List.map_cons, List.map_nil]
      exact ⟨rfl, rfl, rfl, rfl⟩
    · simpa [hv] using Appends.refl s

theorem sendObjs_spec (acls : Acls) (cl : Ptr) (msg : LookupMsg) (k : Nat) : ∀ (os : List Ptr) (s : LSt),
    ∃ done rest, os = done ++ rest ∧ (sendObjs acls cl msg k os s).1 = rest.head? ∧
      Appends s (sendObjs acls cl msg k os s).2
        ((done.filter (visible acls cl s.reg.graph)).map (.data k)) ∧
      (rest ≠ [] → (sendObjs acls cl msg k os s).2.tx.txQueue ≠ [])
  | [], s => ⟨[], [], rfl, rfl, Appends.refl s, fun h => absurd rfl h⟩
  | o :: os, s => by
    unfold sendObjs
    split_ifs with hq
    · have hone : Appends s (ubusdSendObj acls cl msg k o s) _ := ubusdSendObj_appends msg k o s
      obtain ⟨done, rest, h1, h2, h3, h4⟩ :=
        sendObjs_spec acls cl msg k os (ubusdSendObj acls cl msg k o s)
      refine ⟨o :: done, rest, by rw [h1, List.cons_append], h2, ?_, h4⟩
      rw [hone.reg] at h3
      have := hone.trans h3
      rwa [← List.map_append, ← List.filter_append] at this
    · exact ⟨[], o :: os, rfl, rfl, Appends.refl s, fun _ => hq⟩

theorem foldl_ubusdSendObj_appends (msg : LookupMsg) (k : Nat) : ∀ (os : List Ptr) (s : LSt),
    ∃ es, (∀ e ∈ es, e.token = k) ∧
      Appends s (os.foldl (fun s o => ubusdSendObj acls cl msg k o s) s) es
  | [], s => ⟨[], by simp, Appends.refl s⟩
  | o :: os, s => by
    obtain ⟨es, h1, h2⟩ := foldl_ubusdSendObj_appends msg k os (ubusdSendObj acls cl msg k o s)
    refine ⟨_, ?_, (ubusdSendObj_appends msg k o s).trans h2⟩
    intro e he
    rcases List.mem_append.1 he with he | he
    · obtain ⟨x, -, rfl⟩ := List.mem_map.1 he
      rfl
    · exact h1 e he

theorem lookupPath_appends (acls : Acls) (cl : Ptr) (msg : LookupMsg) (k : Nat) (path : Str) (s : LSt) :
    ∃ es, (∀ e ∈ es, e.token = k) ∧ Appends s (lookupPath acls cl msg k path s).2 es := by
  have hnone : ∃ es : List Sent, (∀ e ∈ es, e.token = k) ∧ Appends s s es :=
    ⟨[], by simp, Appends.refl s⟩
  simp only [lookupPath]
  split_ifs
  · exact hnone
  · exact foldl_ubusdSendObj_appends msg k _ s
  · split
    · exact hnone
    · exact foldl_ubusdSendObj_appends msg k _ s

/-- The first command of the queue goes on, or leaves the queue. -/
theorem LInv.replace (h : LInv acls cl (cmd :: q) s) (hs : Appends s s' es)
    (hes : ∀ e ∈ es, e.token = cmd.token) (hq : (q'.map Cmd.token).Nodup)
    (hmem : ∀ c ∈ q', c ∈ q ∨ c.token = cmd.token ∧ c.msg = cmd.msg)
    (hcur : ∀ c ∈ q', ∀ o, c.obj = some o → o ∈ s.reg.graph.path)
    (htok : ∀ a, s.arrived[cmd.token]? = some a → a.msg.objpath = none →
      TokInv acls cl s.reg.graph q' (s.log ++ es) cmd.token a) : LInv acls cl q' s' where
  reg := by rw [hs.reg]; exact h.reg
  client := by rw [hs.reg, hs.arrived]; exact h.client
  start := by rw [hs.reg, hs.arrived]; exact h.start
  logged := by
    rw [hs.log, hs.arrived]
    intro e he
    rcases List.mem_append.1 he with he | he
    · exact h.logged e he
    · obtain ⟨a, ha, -⟩ := h.msgs cmd (by simp)
      rw [hes e he]
      exact (List.getElem?_eq_some_iff.1 ha).1
  tokens := hq
  msgs := by
    rw [hs.arrived]
    intro c hc
    rcases hmem c hc with hc | ⟨h1, h2⟩
    · exact h.msgs c (by simp [hc])
    · rw [h1, h2]
      exact h.msgs cmd (by simp)
  cursors := by rw [hs.reg]; exact hcur
  toks := by
    rw [hs.reg, hs.arrived, hs.log]
    intro k a ha hpath
    by_cases hk : k = cmd.token
    · subst hk
      exact htok a ha hpath
    · refine (h.toks k a ha hpath).other (Ne.symm hk) hes fun c hc hck => ?_
      rcases hmem c hc with hc | ⟨h1, -⟩
      · simp [hc]
      · exact absurd (hck.symm.trans h1) hk

theorem Live.replace (h : Live (cmd :: q) s) (hs : Appends s s' es)
    (hq : ∀ c ∈ q, c ∈ q') (hcmd : (∃ c ∈ q', c.token = cmd.token) ∨
      ∃ ret, Sent.status cmd.token ret ∈ es) : Live q' s' := by
  intro k hk
  rw [hs.arrived] at hk
  rw [hs.log]
  rcases h k hk with ⟨c, hc, rfl⟩ | ⟨ret, hret⟩
  · rcases List.mem_cons.1 hc with rfl | hc
    · exact hcmd.imp_right fun ⟨ret, hret⟩ => ⟨ret, List.mem_append_right _ hret⟩
    · exact Or.inl ⟨c, hq c hc, rfl⟩
  · exact Or.inr ⟨ret, List.mem_append_left _ hret⟩

theorem LInv.token_ne (h : LInv acls cl (cmd :: q) s) : ∀ c ∈ q, c.token ≠ cmd.token :=
  fun c hc he => (List.nodup_cons.1 h.tokens).1 (List.mem_map.2 ⟨c, hc, he⟩)

/-- The first command of the queue ends with a status. -/
theorem LInv.finish (h : LInv acls cl (cmd :: q) s) (hs : Appends s s' es)
    (hes : ∀ e ∈ es, e.token = cmd.token) (ret : Status)
    (htok : ∀ a, s.arrived[cmd.token]? = some a → a.msg.objpath = none →
      TokInv acls cl s.reg.graph q (s.log ++ es ++ [.status cmd.token ret]) cmd.token a) :
    LInv acls cl q (sendStatus cmd.msg cmd.token ret s') ∧
      (Live (cmd :: q) s → Live q (sendStatus cmd.msg cmd.token ret s')) := by
  have hend := hs.trans (sendStatus_appends cmd.msg cmd.token ret s')
  have hmem : Sent.status cmd.token ret ∈ es ++ [.status cmd.token ret] := by simp
  refine ⟨h.replace hend ?_ (List.nodup_cons.1 h.tokens).2 (fun c hc => Or.inl hc)
    (fun c hc => h.cursors c (by simp [hc])) ?_,
    fun hl => hl.replace hend (fun c hc => hc) (Or.inr ⟨ret, hmem⟩)⟩
  · intro e he
    rcases List.mem_append.1 he with he | he
    · exact hes e he
    · rw [List.mem_singleton.1 he]
      rfl
  · intro a ha hpath
    rw [← List.append_assoc]
    exact htok a ha hpath

/-- The first command of the queue stays with a new cursor. -/
theorem LInv.pause (h : LInv acls cl (cmd :: q) s) (hs : Appends s s' es)
    (hes : ∀ e ∈ es, e.token = cmd.token) {cur : Option Ptr}
    (hcur : ∀ o, cur = some o → o ∈ s.reg.graph.path)
    (htok : ∀ a, s.arrived[cmd.token]? = some a → a.msg.objpath = none →
      TokInv acls cl s.reg.graph ({ cmd with obj := cur } :: q) (s.log ++ es) cmd.token a) :
    LInv acls cl ({ cmd with obj := cur } :: q) s' ∧
      (Live (cmd :: q) s → Live ({ cmd with obj := cur } :: q) s') := by
  refine ⟨h.replace hs hes h.tokens (fun c hc => ?_) (fun c hc => ?_) htok,
    fun hl => hl.replace hs (fun c hc => by simp [hc]) (Or.inl ⟨_, List.mem_cons_self, rfl⟩)⟩
  · rcases List.mem_cons.1 hc with rfl | hc
    · exact Or.inr ⟨rfl, rfl⟩
    · exact Or.inl hc
  · rcases List.mem_cons.1 hc with rfl | hc
    · exact hcur
    · exact h.cursors c (by simp [hc])

/-- **One slice** of the first command of the queue: it ends, or stays. -/
theorem LInv.handleLookupFrom (h : LInv acls cl (cmd :: q) s) :
    ∃ r s', ubusdHandleLookupFrom acls cl cmd.msg cmd.token cmd.obj s = (r, s') ∧
      s'.arrived = s.arrived ∧ s'.cmdQueue = s.cmdQueue ∧
      (∀ ret, r = .inl ret → LInv acls cl q (sendStatus cmd.msg cmd.token ret s') ∧
        (Live (cmd :: q) s → Live q (sendStatus cmd.msg cmd.token ret s'))) ∧
      ∀ o, r = .inr o → s'.tx.txQueue ≠ [] ∧ LInv acls cl ({ cmd with obj := some o } :: q) s' ∧
        (Live (cmd :: q) s → Live ({ cmd with obj := some o } :: q) s') := by
  obtain ⟨a, ha, hmsg⟩ := h.msgs cmd (by simp)
  unfold ubusdHandleLookupFrom
  cases hpath : cmd.msg.objpath with
  | some path =>
    obtain ⟨es, hes, happ⟩ := lookupPath_appends acls cl cmd.msg cmd.token path s
    refine ⟨_, _, rfl, happ.arrived, happ.cmdQueue, fun ret _ => h.finish happ hes ret ?_, by simp⟩
    intro a' ha' hpath'
    rw [ha] at ha'
    cases ha'
    rw [hmsg, hpath] at hpath'
    cases hpath'
  | none =>
    have hc := h.cursors cmd (by simp)
    have hrun := (h.toks _ a ha (by rw [hmsg, hpath])).queued cmd (by simp) rfl
    obtain ⟨done, rest, hsplit, hhead, happ, htx⟩ :=
      sendObjs_spec acls cl cmd.msg cmd.token (s.reg.graph.pathFrom cmd.obj) s
    have hslice := hrun.slice h.reg.obj hc hsplit
    have hes : ∀ e ∈ (done.filter (visible acls cl s.reg.graph)).map (Sent.data cmd.token),
        e.token = cmd.token := by
      intro e he
      obtain ⟨o, -, rfl⟩ := List.mem_map.1 he
      rfl
    obtain ⟨r, s', hr⟩ : ∃ r s', sendObjs acls cl cmd.msg cmd.token
      (s.reg.graph.pathFrom cmd.obj) s = (r, s') := ⟨_, _, rfl⟩
    rw [hr] at hhead happ htx
    simp only [hr]
    cases rest with
    | nil =>
      cases hhead
      refine ⟨_, _, rfl, happ.arrived, happ.cmdQueue, fun ret hret => ?_, by simp⟩
      cases hret
      refine h.finish happ hes .ok fun a' ha' _ => ?_
      rw [ha] at ha'
      cases ha'
      exact hslice.tokInv_status h.token_ne (fun _ => rfl) fun _ o c hc => by simp at hc
    | cons o rest =>
      cases hhead
      refine ⟨_, _, rfl, happ.arrived, happ.cmdQueue, by simp, fun o' ho' => ?_⟩
      cases ho'
      refine ⟨htx (by simp), h.pause happ hes (fun c hcur => ?_) fun a' ha' _ => ?_⟩
      · cases hcur
        exact ((mem_pathFrom h.reg.obj hc).1 (by rw [hsplit]; simp)).1
      · rw [ha] at ha'
        cases ha'
        refine (hslice.congr fun x => ?_).tokInv_queued rfl h.tokens
        simp [beforeHead, below]

/-- **The queue goes on** until it is empty, or the transmit queue is not. -/
theorem LInv.cmdQueueProcess : ∀ {q : List Cmd} {s : LSt}, LInv acls cl q s →
    let s' := ubusClientCmdQueueProcess acls cl q s
    LInv acls cl s'.cmdQueue s' ∧ (Live q s → Live s'.cmdQueue s') ∧
      (s'.cmdQueue = [] ∨ s'.tx.txQueue ≠ [])
  | [], s, h => ⟨⟨h.reg, h.client, h.start, h.logged, h.tokens, h.msgs, h.cursors, h.toks⟩,
      fun hl => hl,
      Or.inl rfl⟩
  | cmd :: q, s, h => by
    obtain ⟨r, s', hr, -, -, hend, hstay⟩ := h.handleLookupFrom
    unfold ubusClientCmdQueueProcess
    rw [hr]
    cases r with
    | inl ret =>
      obtain ⟨h1, h2⟩ := hend ret rfl
      obtain ⟨h3, h4, h5⟩ := h1.cmdQueueProcess
      exact ⟨h3, fun hl => h4 (h2 hl), h5⟩
    | inr o =>
      obtain ⟨h1, h2, h3⟩ := hstay o rfl
      exact ⟨⟨h2.reg, h2.client, h2.start, h2.logged, h2.tokens, h2.msgs, h2.cursors, h2.toks⟩, h3,
        Or.inr h1⟩

/-! ## A new lookup -/

/-- The order of the queue does not matter. -/
theorem LInv.perm (h : LInv acls cl q s) (hp : q.Perm q') : LInv acls cl q' s where
  reg := h.reg
  client := h.client
  start := h.start
  logged := h.logged
  tokens := (hp.map _).nodup h.tokens
  msgs := fun c hc => h.msgs c (hp.mem_iff.2 hc)
  cursors := fun c hc => h.cursors c (hp.mem_iff.2 hc)
  toks := fun k a ha hpath =>
    let ht := h.toks k a ha hpath
    ⟨ht.nodup, ht.known, ht.shape, ht.ended, fun c hc => ht.queued c (hp.mem_iff.2 hc)⟩

theorem Live.perm (h : Live q s) (hp : q.Perm q') : Live q' s := fun k hk =>
  (h k hk).imp_left fun ⟨c, hc, hck⟩ => ⟨c, hp.mem_iff.1 hc, hck⟩

/-- The state in which a lookup is handled. -/
def LSt.arrive (s : LSt) (msg : LookupMsg) (mem : Bool) (answers : List Answer) : LSt :=
  { s with answers := answers, arrived := s.arrived ++ [⟨msg, mem, s.reg.graph.path⟩] }

theorem Running.init (hlog : ∀ e ∈ log, e.token ≠ k) :
    Running acls cl g a log k (below g none) := by
  have hent : entries k log = [] := by
    rw [entries, List.filter_eq_nil_iff]
    intro e he
    simpa using hlog e he
  have hsent : sentTo k log = [] := by
    rw [sentTo, List.filterMap_eq_nil_iff]
    intro e he
    have := hlog e he
    cases e with
    | data k' o => simp only [Sent.token] at this; simp [this]
    | status => rfl
  refine ⟨by simp [hsent], by simp [hsent], by simp [hsent, hent], by simp [hsent], ?_⟩
  intro o _ _ _ hb
  exact absurd hb id

theorem LInv.arrive (h : LInv acls cl q s) (hcl : cl < s.reg.graph.next) (msg : LookupMsg)
    (mem : Bool) (answers : List Answer) :
    LInv acls cl (⟨s.arrived.length, msg, none⟩ :: q) (s.arrive msg mem answers) := by
  have hlt : ∀ c ∈ q, c.token < s.arrived.length := fun c hc => by
    obtain ⟨a, ha, -⟩ := h.msgs c hc
    exact (List.getElem?_eq_some_iff.1 ha).1
  have htokens : ((⟨s.arrived.length, msg, none⟩ :: q).map Cmd.token).Nodup := by
    refine List.nodup_cons.2 ⟨fun hm => ?_, h.tokens⟩
    obtain ⟨c, hc, he⟩ := List.mem_map.1 hm
    exact absurd he (hlt c hc).ne
  have hlast : (s.arrive msg mem answers).arrived[s.arrived.length]? =
      some ⟨msg, mem, s.reg.graph.path⟩ := by
    simp [LSt.arrive]
  have hold : ∀ k < s.arrived.length,
      (s.arrive msg mem answers).arrived[k]? = s.arrived[k]? := fun k hk =>
    List.getElem?_append_left hk
  refine ⟨h.reg, fun _ => hcl, fun a ha o ho => ?_, fun e he => ?_, htokens, fun c hc => ?_,
    fun c hc => ?_, fun k a ha hpath => ?_⟩
  · rcases List.mem_append.1 ha with ha | ha
    · exact h.start a ha o ho
    · rw [List.mem_singleton.1 ha] at ho
      have hp := (h.reg.obj.path_mem o).1 ho
      exact ⟨h.reg.obj.fresh o hp.1, hp.2⟩
  · have := h.logged e he
    simp only [LSt.arrive, List.length_append]
    omega
  · rcases List.mem_cons.1 hc with rfl | hc
    · exact ⟨_, hlast, rfl⟩
    · rw [hold _ (hlt c hc)]
      exact h.msgs c hc
  · rcases List.mem_cons.1 hc with rfl | hc
    · simp
    · exact h.cursors c hc
  · by_cases hk : k < s.arrived.length
    · rw [hold k hk] at ha
      have ht := h.toks k a ha hpath
      refine ⟨ht.nodup, ht.known, ht.shape, ht.ended, fun c hc hck => ?_⟩
      rcases List.mem_cons.1 hc with rfl | hc
      · exact absurd hck.symm hk.ne
      · exact ht.queued c hc hck
    · have hkl : k = s.arrived.length := by
        have := (List.getElem?_eq_some_iff.1 ha).1
        simp only [LSt.arrive, List.length_append, List.length_singleton] at this
        omega
      subst hkl
      exact Running.tokInv_queued (Running.init fun e he => (h.logged e he).ne) rfl htokens

theorem Live.arrive (h : Live q s) (msg : LookupMsg) (mem : Bool) (answers : List Answer) :
    Live (⟨s.arrived.length, msg, none⟩ :: q) (s.arrive msg mem answers) := by
  intro k hk
  by_cases hlt : k < s.arrived.length
  · exact (h k hlt).imp_left fun ⟨c, hc, hck⟩ => ⟨c, by simp [hc], hck⟩
  · have : k = s.arrived.length := by
      simp only [LSt.arrive, List.length_append, List.length_singleton] at hk
      omega
    exact Or.inl ⟨_, List.mem_cons_self, this.symm⟩

/-- A new command goes to the end of the queue, or ends with an error. -/
theorem LInv.cmdQueueAdd {mem : Bool} (h : LInv acls cl (cmd :: s.cmdQueue) s)
    (hmem : ∀ a, s.arrived[cmd.token]? = some a → a.mem = mem) :
    let s' := ubusClientCmdQueueAdd mem cmd.msg cmd.token cmd.obj s
    LInv acls cl s'.cmdQueue s' ∧ (Live (cmd :: s.cmdQueue) s → Live s'.cmdQueue s') := by
  have hperm : (cmd :: s.cmdQueue).Perm (s.cmdQueue ++ [cmd]) :=
    (List.perm_append_singleton cmd _).symm
  cases mem with
  | true =>
    have h' := h.perm hperm
    exact ⟨⟨h'.reg, h'.client, h'.start, h'.logged, h'.tokens, h'.msgs, h'.cursors, h'.toks⟩,
      fun hl => hl.perm hperm⟩
  | false =>
    refine h.finish (Appends.refl s) (by simp) .unknownError fun a ha hpath => ?_
    rw [List.append_nil]
    have hrun := (h.toks _ a ha hpath).queued cmd (by simp) rfl
    refine hrun.tokInv_status h.token_ne (fun ht => ?_) (by simp)
    rw [hmem a ha] at ht
    cases ht

/-! ## Other steps -/

variable {F : Ptr → Prop}

theorem Evolves.key_eq (he : Evolves F g g') {o : Ptr} (ho : o < g.next)
    (hk : (g.obj o).pathKey ≠ none) : g'.key o = g.key o :=
  congrArg (Option.getD · []) (he.key o ho hk)

theorem Evolves.visible_eq (he : Evolves F g g') {o : Ptr} (ho : o < g.next)
    (hk : (g.obj o).pathKey ≠ none) (hp : o ∈ g.path) (hp' : o ∈ g'.path) (hcl : cl < g.next) :
    visible acls cl g' o = visible acls cl g o := by
  simp only [visible, he.type o ho]
  cases ht : (g.obj o).type with
  | none => rfl
  | some t =>
    have hm := he.methods o hp hp' t ht
    have hacc : accessible acls cl g' o (g'.typ t).methods =
        accessible acls cl g o (g.typ t).methods := by
      simp only [accessible, hm, he.cred cl hcl, he.key o ho hk]
    exact decide_eq_decide.2 (by rw [hacc, hm])

theorem Complete.evolves {Below' : Ptr → Prop} (h : Complete acls cl g a log k Below)
    (he : Evolves F g g') (hcl : cl < g.next)
    (hstart : ∀ o ∈ a.start, o < g.next ∧ (g.obj o).pathKey ≠ none)
    (hb : ∀ o ∈ a.start, Below' o → Below o) : Complete acls cl g' a log k Below' := by
  intro o ho hp hv hbelow
  obtain ⟨hlt, hk⟩ := hstart o ho
  have hold := he.back o hlt hk hp
  rw [he.visible_eq hlt hk hold hp hcl] at hv
  exact h o ho hold hv (hb o ho hbelow)

theorem TokInv.evolves (h : TokInv acls cl g q log k a) (he : Evolves F g g')
    (hi : ObjInv g) (hcl : cl < g.next)
    (hstart : ∀ o ∈ a.start, o < g.next ∧ (g.obj o).pathKey ≠ none)
    (hcur : ∀ cmd ∈ q, ∀ o, cmd.obj = some o → o ∈ g.path) : TokInv acls cl g' q log k a := by
  have hknown : ∀ o ∈ sentTo k log, o < g'.next ∧ (g'.obj o).pathKey ≠ none := by
    intro o ho
    obtain ⟨hlt, hk⟩ := h.known o ho
    exact ⟨hlt.trans_le he.next, by rwa [he.key o hlt hk]⟩
  refine ⟨h.nodup, hknown, h.shape, fun ret hm => ?_, fun cmd hc hk => ?_⟩
  · obtain ⟨h1, h2⟩ := h.ended ret hm
    exact ⟨h1, fun hret => (h2 hret).evolves he hcl hstart fun _ _ _ => trivial⟩
  · have hrun := h.queued cmd hc hk
    have hbelow : ∀ o < g.next, (g.obj o).pathKey ≠ none →
        (below g' cmd.obj o ↔ below g cmd.obj o) := by
      intro o ho hko
      cases hobj : cmd.obj with
      | none => rfl
      | some c =>
        have hp := (hi.path_mem c).1 (hcur cmd hc c hobj)
        simp only [below, he.key_eq ho hko, he.key_eq (hi.fresh c hp.1) hp.2]
    refine ⟨hrun.nodup, hknown, hrun.pure, fun o ho => ?_,
      hrun.complete.evolves he hcl hstart fun o ho => ?_⟩
    · exact (hbelow o (h.known o ho).1 (h.known o ho).2).2 (hrun.sent o ho)
    · exact (hbelow o (hstart o ho).1 (hstart o ho).2).1

/-- The registry changes; no cursor is lost. -/
theorem LInv.evolves (h : LInv acls cl q s) (he : Evolves F s.reg.graph s'.reg.graph)
    (hreg : Inv none s'.reg.graph) (harr : s'.arrived = s.arrived) (hlog : s'.log = s.log)
    (hF : ∀ cmd ∈ q, ∀ o, cmd.obj = some o → ¬ F o) : LInv acls cl q s' where
  reg := hreg
  client := fun hne => (h.client (harr ▸ hne)).trans_le he.next
  start := by
    rw [harr]
    intro a ha o ho
    obtain ⟨hlt, hk⟩ := h.start a ha o ho
    exact ⟨hlt.trans_le he.next, by rwa [he.key o hlt hk]⟩
  logged := by rw [harr, hlog]; exact h.logged
  tokens := h.tokens
  msgs := by rw [harr]; exact h.msgs
  cursors := fun cmd hc o ho => he.stay o (h.cursors cmd hc o ho) (hF cmd hc o ho)
  toks := by
    rw [harr, hlog]
    intro k a ha hpath
    have hmem := List.mem_of_getElem? ha
    exact (h.toks k a ha hpath).evolves he h.reg.obj (h.client (List.ne_nil_of_mem hmem))
      (h.start a hmem) h.cursors

/-- The commands are freed. -/
theorem LInv.drop (h : LInv acls cl q s) : LInv acls cl [] s where
  reg := h.reg
  client := h.client
  start := h.start
  logged := h.logged
  tokens := List.nodup_nil
  msgs := by simp
  cursors := by simp
  toks := fun k a ha hpath =>
    let ht := h.toks k a ha hpath
    ⟨ht.nodup, ht.known, ht.shape, ht.ended, by simp⟩

/-- A change of the transmit side and of the queue. -/
theorem LInv.congr (h : LInv acls cl q s) (hreg : s'.reg = s.reg) (harr : s'.arrived = s.arrived)
    (hlog : s'.log = s.log) : LInv acls cl q s' := by
  refine h.evolves (F := fun _ => False) ?_ ?_ harr hlog fun _ _ _ _ => id
  · rw [hreg]
    exact .refl _ _
  · rw [hreg]
    exact h.reg

end

/-! ## Runs -/

section
variable (acls : Acls) (cl : Ptr)

/-- The step frees no object at which a command of the client has stopped,
    unless the client itself goes. -/
def KeepsCursors (s : LSt) : LStep → Prop
  | .other st _ => st.act = .disconnect cl ∨
      ∀ cmd ∈ s.cmdQueue, ∀ o, cmd.obj = some o → ¬ Frees s.reg.graph o st.act
  | .lookup _ _ _ | .poll _ _ _ => True

/-- The state between two steps. -/
structure Good (s : LSt) : Prop where
  inv : LInv acls cl s.cmdQueue s
  live : s.alive cl → Live s.cmdQueue s

end

section
variable {acls : Acls} {cl : Ptr} {s : LSt}

theorem Good.lookup (h : Good acls cl s) (halive : s.alive cl) (msg : LookupMsg) (mem : Bool)
    (answers : List Answer) : Good acls cl (ubusdHandleLookup acls cl mem msg s.arrived.length
      (s.arrive msg mem answers)) := by
  have hcl := h.inv.reg.own.fresh cl halive.2
  have hinv := h.inv.arrive hcl msg mem answers
  have hlive := (h.live halive).arrive msg mem answers
  have hmem : ∀ a, (s.arrive msg mem answers).arrived[s.arrived.length]? = some a →
      a.mem = mem := by
    simp [LSt.arrive]
  unfold ubusdHandleLookup
  split_ifs with htx
  · obtain ⟨r, s', hr, harr, hqueue, hend, hstay⟩ := hinv.handleLookupFrom
    rw [hr]
    cases r with
    | inl ret =>
      obtain ⟨h1, h2⟩ := hend ret rfl
      have hq : (sendStatus msg s.arrived.length ret s').cmdQueue = s.cmdQueue := hqueue
      exact ⟨hq ▸ h1, fun _ => hq ▸ h2 hlive⟩
    | inr o =>
      obtain ⟨-, h2, h3⟩ := hstay o rfl
      have hq : s'.cmdQueue = s.cmdQueue := hqueue
      have hlive' := h3 hlive
      rw [← hq] at h2 hlive'
      have hadd := h2.cmdQueueAdd fun a ha => hmem a (harr ▸ ha)
      exact ⟨hadd.1, fun _ => hadd.2 hlive'⟩
  · have hinv' : LInv acls cl (⟨s.arrived.length, msg, none⟩ :: (s.arrive msg mem answers).cmdQueue)
        (s.arrive msg mem answers) := hinv
    have hadd := hinv'.cmdQueueAdd hmem
    exact ⟨hadd.1, fun _ => hadd.2 hlive⟩

theorem Good.poll (h : Good acls cl s) (halive : s.alive cl) (pending : List Answer)
    (write : Bool) (answers : List Answer) :
    Good acls cl (clientCb acls cl pending write { s with answers := answers }) := by
  unfold clientCb
  simp only
  split_ifs with hclosed hproc
  · have hsteps : GSteps acls (fun _ => True) none s.reg.graph none
        (handleClientDisconnect acls cl s.reg).graph :=
      handleClientDisconnect_steps h.inv.reg cl fun _ _ => trivial
    have hinv : LInv acls cl [] { s with reg := handleClientDisconnect acls cl s.reg } :=
      h.inv.drop.evolves (hsteps.evolves h.inv.reg) (hsteps.inv h.inv.reg) rfl rfl (by simp)
    exact ⟨hinv.congr rfl rfl rfl, fun ha => absurd (ha.1.symm.trans hclosed) (by simp)⟩
  · have hinv : LInv acls cl s.cmdQueue
        { s with answers := answers, tx := txMore s.tx.txQueue pending s.tx } :=
      h.inv.congr rfl rfl rfl
    obtain ⟨h1, h2, -⟩ := hinv.cmdQueueProcess
    exact ⟨h1, fun _ => h2 (h.live halive)⟩
  · exact ⟨h.inv.congr rfl rfl rfl, fun _ => h.live halive⟩

theorem Good.other (h : Good acls cl s) (st : Step) (sends : List (MsgBuf × Answer))
    (hk : KeepsCursors cl s (.other st sends)) :
    Good acls cl (lstep acls cl s (.other st sends)) := by
  set s' := lstep acls cl s (.other st sends) with hs'
  set F : Ptr → Prop := fun o => Frees s.reg.graph o st.act ∨ s.reg.graph.next ≤ o with hF
  have hsteps : GSteps acls F none s.reg.graph none s'.reg.graph :=
    step_steps h.inv.reg st fun o ho => ho
  have hev := hsteps.evolves h.inv.reg
  have hreg := hsteps.inv h.inv.reg
  by_cases hconn : cl ∈ s'.reg.graph.connected
  · have hqueue : s'.cmdQueue = s.cmdQueue := if_pos hconn
    -- the client is still there, so the step was not its disconnect
    have hcur : ∀ cmd ∈ s.cmdQueue, ∀ o, cmd.obj = some o → ¬ Frees s.reg.graph o st.act := by
      rcases hk with hact | hk
      · refine absurd hconn ?_
        simp only [hs', lstep, step, hact]
        split_ifs with hc
        · exact handleClientDisconnect_gone acls (s := { s.reg with mem := st.mem, rnd := st.rnd })
            h.inv.reg cl
        · exact hc
      · exact hk
    have hinv : LInv acls cl s.cmdQueue s' := by
      refine h.inv.evolves hev hreg rfl rfl fun cmd hc o ho => ?_
      rintro (hf | hn)
      · exact hcur cmd hc o ho hf
      · have hp := (h.inv.reg.obj.path_mem o).1 (h.inv.cursors cmd hc o ho)
        exact absurd (h.inv.reg.obj.fresh o hp.1) (not_lt.2 hn)
    refine ⟨hqueue ▸ hinv, fun ha k hklt => ?_⟩
    rw [hqueue]
    have hlt : cl < s.reg.graph.next := h.inv.client (List.ne_nil_of_length_pos (by
      have : k < s.arrived.length := hklt
      omega))
    have halive : s.alive cl := by
      refine ⟨?_, hev.conn cl hlt hconn⟩
      by_contra hclosed
      have htx : s'.tx = s.tx := if_neg fun h => hclosed h.1
      exact hclosed (htx ▸ ha.1)
    exact h.live halive k hklt
  · have hqueue : s'.cmdQueue = [] := if_neg hconn
    have hinv : LInv acls cl [] s' := h.inv.drop.evolves hev hreg rfl rfl (by simp)
    exact ⟨hqueue ▸ hinv, fun ha => absurd ha.2 hconn⟩

/-- **One step keeps what is known about the lookups.** -/
theorem Good.lstep (h : Good acls cl s) (st : LStep) (hk : KeepsCursors cl s st) :
    Good acls cl (lstep acls cl s st) := by
  cases st with
  | other st sends => exact h.other st sends hk
  | lookup msg mem answers =>
    simp only [Ubus.lstep]
    split_ifs with halive
    · exact h.lookup halive msg mem answers
    · exact h
  | poll pending write answers =>
    simp only [Ubus.lstep]
    split_ifs with halive
    · exact h.poll halive pending write answers
    · exact h

theorem Good.init (acls : Acls) (cl : Ptr) (mem : List Bool) :
    Good acls cl { reg := ubusdObjInit mem } := by
  have hsteps : GSteps acls (fun _ => True) none {} none (ubusdObjInit mem).graph :=
    ubusdObjInit_steps acls mem
  refine ⟨⟨hsteps.inv Inv.init, ?_, ?_, ?_, List.nodup_nil, ?_, ?_, ?_⟩, fun _ k hk => ?_⟩
  all_goals simp at *

end

/-! ## The lookup of a client -/

/-- What the client gets for its lookup `k`, which arrived in the state `s₀`, up
    to the state `s`. -/
structure Served (acls : Acls) (cl : Ptr) (k : Nat) (s₀ s : LSt) : Prop where
  /-- a cursor points to a registered object -/
  cursor : ∀ cmd ∈ s.cmdQueue, ∀ o, cmd.obj = some o → o ∈ s.reg.graph.path
  /-- no object is sent twice -/
  once : ∀ o, (sentTo k s.log).count o ≤ 1
  /-- at most one status is sent, after all objects -/
  shape : ∃ ret : Option Status,
    entries k s.log = (sentTo k s.log).map (.data k) ++ (ret.map (.status k)).toList
  /-- the lookup is queued, or has ended -/
  pending : s.alive cl → (∃ cmd ∈ s.cmdQueue, cmd.token = k) ∨ ∃ ret, Sent.status k ret ∈ s.log
  /-- in the end, each visible object that has stayed is sent exactly once -/
  all : ∀ ret, Sent.status k ret ∈ s.log → ret = .ok ∧
    ∀ o ∈ s₀.reg.graph.path, o ∈ s.reg.graph.path → visible acls cl s.reg.graph o = true →
      (sentTo k s.log).count o = 1
  /-- a writable socket ends the lookup, unless data is buffered again -/
  progress : ∀ pending answers, let s' := lstep acls cl s (.poll pending true answers)
    s'.alive cl → s'.tx.txQueue = [] → s.alive cl → ∃ ret, Sent.status k ret ∈ s'.log

section
variable {acls : Acls} {cl : Ptr} {s : LSt}

theorem ubusdHandleLookupFrom_arrived (msg : LookupMsg) (k : Nat) (cur : Option Ptr) (s : LSt) :
    (ubusdHandleLookupFrom acls cl msg k cur s).2.arrived = s.arrived := by
  unfold ubusdHandleLookupFrom
  cases msg.objpath with
  | some path =>
    obtain ⟨es, -, happ⟩ := lookupPath_appends acls cl msg k path s
    exact happ.arrived
  | none =>
    obtain ⟨_, _, -, -, happ, -⟩ := sendObjs_spec acls cl msg k (s.reg.graph.pathFrom cur) s
    simp only
    split <;> rename_i hr <;> rw [hr] at happ <;> exact happ.arrived

theorem ubusClientCmdQueueProcess_arrived : ∀ (q : List Cmd) (s : LSt),
    (ubusClientCmdQueueProcess acls cl q s).arrived = s.arrived
  | [], _ => rfl
  | cmd :: q, s => by
    have h : (ubusdHandleLookupFrom acls cl cmd.msg cmd.token cmd.obj s).2.arrived = s.arrived :=
      ubusdHandleLookupFrom_arrived cmd.msg cmd.token cmd.obj s
    unfold ubusClientCmdQueueProcess
    split <;> rename_i hr <;> rw [hr] at h
    · exact h
    · exact (ubusClientCmdQueueProcess_arrived q _).trans h

theorem ubusdHandleLookup_arrived (mem : Bool) (msg : LookupMsg) (k : Nat) (s : LSt) :
    (ubusdHandleLookup acls cl mem msg k s).arrived = s.arrived := by
  have hadd : ∀ (obj : Option Ptr) (s : LSt),
      (ubusClientCmdQueueAdd mem msg k obj s).arrived = s.arrived := fun obj s => by
    unfold ubusClientCmdQueueAdd
    split <;> rfl
  have h : (ubusdHandleLookupFrom acls cl msg k none s).2.arrived = s.arrived :=
    ubusdHandleLookupFrom_arrived msg k none s
  unfold ubusdHandleLookup
  split_ifs
  · split <;> rename_i hr <;> rw [hr] at h
    · exact h
    · rw [hadd]
      exact h
  · exact hadd none s

/-- The history grows. -/
theorem arrived_prefix_lstep (s : LSt) (st : LStep) :
    s.arrived <+: (lstep acls cl s st).arrived := by
  cases st with
  | other st sends => exact List.prefix_rfl
  | lookup msg mem answers =>
    simp only [lstep]
    split_ifs
    · rw [ubusdHandleLookup_arrived]
      exact List.prefix_append _ _
    · exact List.prefix_rfl
  | poll pending write answers =>
    simp only [lstep, clientCb]
    split_ifs
    · exact List.prefix_rfl
    · rw [ubusClientCmdQueueProcess_arrived]
    · exact List.prefix_rfl
    · exact List.prefix_rfl

theorem Good.progress (h : Good acls cl s) {k : Nat} (hk : k < s.arrived.length)
    (pending answers : List Answer) (halive : s.alive cl) :
    let s' := Ubus.lstep acls cl s (.poll pending true answers)
    s'.alive cl → s'.tx.txQueue = [] → ∃ ret, Sent.status k ret ∈ s'.log := by
  simp only [Ubus.lstep, if_pos halive, clientCb]
  split_ifs with hclosed htx
  · intro ha
    exact absurd (ha.1.symm.trans hclosed) (by simp)
  · intro _ hempty
    have hinv : LInv acls cl s.cmdQueue
        { s with answers := answers, tx := txMore s.tx.txQueue pending s.tx } :=
      h.inv.congr rfl rfl rfl
    obtain ⟨-, hlive, hqueue⟩ := hinv.cmdQueueProcess
    have hnil := hqueue.resolve_right fun hne => hne hempty
    have hk' := hlive (h.live halive) k (by rw [ubusClientCmdQueueProcess_arrived]; exact hk)
    rw [hnil] at hk'
    simpa using hk'
  · intro _ hempty
    exact absurd ⟨hempty, trivial⟩ htx

theorem Good.served {s₀ : LSt} {k : Nat} {msg : LookupMsg} (h : Good acls cl s)
    (ha : s.arrived[k]? = some ⟨msg, true, s₀.reg.graph.path⟩) (hmsg : msg.objpath = none) :
    Served acls cl k s₀ s := by
  have ht := h.inv.toks k _ ha hmsg
  have hk := (List.getElem?_eq_some_iff.1 ha).1
  refine ⟨h.inv.cursors, List.nodup_iff_count_le_one.1 ht.nodup, ht.shape,
    fun halive => h.live halive k hk, fun ret hret => ?_,
    fun pending answers ha' htx halive => h.progress hk pending answers halive ha' htx⟩
  obtain ⟨h1, h2⟩ := ht.ended ret hret
  refine ⟨h1 rfl, fun o ho hp hv => ?_⟩
  exact List.count_eq_one_of_mem ht.nodup (h2 (h1 rfl) o ho hp hv trivial)

/-- **A paused lookup.** A `LOOKUP` without a path is served in full as long as no step frees an
    object at which a command of the client has stopped. -/
theorem lookup_served (acls : Acls) (cl : Ptr) (mem : List Bool) (pre mid : List LStep)
    (msg : LookupMsg) (answers : List Answer) (hmsg : msg.objpath = none)
    (hpre : Run.Admits (lstep acls cl) (KeepsCursors cl) { reg := ubusdObjInit mem } pre)
    (halive : (Run.run (lstep acls cl) { reg := ubusdObjInit mem } pre).alive cl) :
    let s₀ := Run.run (lstep acls cl) { reg := ubusdObjInit mem } pre
    let s₁ := lstep acls cl s₀ (.lookup msg true answers)
    Run.Admits (lstep acls cl) (KeepsCursors cl) s₁ mid →
      Served acls cl s₀.arrived.length s₀ (Run.run (lstep acls cl) s₁ mid) := by
  intro s₀ s₁ hmid
  have h₀ : Good acls cl s₀ :=
    hpre.invariant (fun s st hk hs => Good.lstep hs st hk) (Good.init acls cl mem)
  have h₁ : Good acls cl s₁ := h₀.lstep _ trivial
  have harr : s₁.arrived = s₀.arrived ++ [⟨msg, true, s₀.reg.graph.path⟩] := by
    show (lstep acls cl s₀ (.lookup msg true answers)).arrived = _
    rw [lstep, if_pos halive, ubusdHandleLookup_arrived]
  obtain ⟨h, hp⟩ := hmid.invariant (I := fun s => Good acls cl s ∧ s₁.arrived <+: s.arrived)
    (fun s st hk hs => ⟨Good.lstep hs.1 st hk, hs.2.trans (arrived_prefix_lstep s st)⟩)
    ⟨h₁, List.prefix_rfl⟩
  refine h.served ?_ hmsg
  obtain ⟨later, hlater⟩ := hp
  rw [← hlater, harr]
  simp

end

/-- Two clients, of which the second one has the objects "a" and "b". -/
def twoObjects : List LStep :=
  [.other ⟨.connect (some ⟨0, 0, [], []⟩), [], [2000]⟩ [],
    .other ⟨.connect (some ⟨0, 0, [], []⟩), [], [2001]⟩ [],
    .other ⟨.message 4 (.addObject { signature := some [], objpath := some [97] }), [],
      [6000, 5000]⟩ [],
    .other ⟨.message 4 (.addObject { signature := some [], objpath := some [98] }), [],
      [6001, 5001]⟩ []]

/-- The first client looks them up; the first message is queued. -/
def pausedLookup : LSt :=
  lstep Acls.empty 3 (Run.run (lstep Acls.empty 3) { reg := ubusdObjInit [] } twoObjects)
    (.lookup ⟨1, 2, none⟩ true [.eagain])

/-- The lookup stops at "b"; "a" is removed, and then the lookup goes on. -/
theorem lookup_served_resumed :
    let mid : List LStep := [.other ⟨.message 4 (.removeObject (some 5000)), [], []⟩ [],
      .poll [.wrote 100] true [.wrote 100, .wrote 100]]
    let s₀ := Run.run (lstep Acls.empty 3) { reg := ubusdObjInit [] } twoObjects
    let s := Run.run (lstep Acls.empty 3) pausedLookup mid
    pausedLookup.cmdQueue.map Cmd.obj = [some 8] ∧ s.log = [.data 0 6, .data 0 8, .status 0 .ok] ∧
      Served Acls.empty 3 0 s₀ s := by
  intro mid s₀ s
  have hqueue : pausedLookup.cmdQueue.map Cmd.obj = [some 8] := by decide +kernel
  have hfind : ubusdFindObject pausedLookup.reg.graph 5000 = some 6 := by decide +kernel
  have halive : s₀.alive 3 := by decide +kernel
  refine ⟨hqueue, by decide +kernel, lookup_served Acls.empty 3 [] twoObjects mid ⟨1, 2, none⟩
    [.eagain] rfl ?_ halive ?_⟩
  · exact ⟨Or.inr fun _ _ _ _ => id, Or.inr fun _ _ _ _ => id, Or.inr fun _ _ _ _ => id,
      Or.inr fun _ _ _ _ => id, trivial⟩
  · refine ⟨Or.inr ?_, trivial, trivial⟩
    rintro cmd hcmd o ho ⟨hf, -⟩
    have hobj : some o ∈ pausedLookup.cmdQueue.map Cmd.obj := ho ▸ List.mem_map_of_mem hcmd
    have h8 : o = 8 := by
      rw [hqueue] at hobj
      simpa using hobj
    have h6 : some 6 = some o := hfind.symm.trans hf
    exact absurd (Option.some.inj h6) (by rw [h8]; decide)

/-- The object "b" is removed while the lookup has stopped there. -/
theorem cursor_dangles :
    let s := lstep Acls.empty 3 pausedLookup
      (.other ⟨.message 4 (.removeObject (some 5001)), [], []⟩ [])
    s.alive 3 ∧ s.cmdQueue.map Cmd.obj = [some 8] ∧ 8 ∉ s.reg.graph.path := by
  decide +kernel

end Ubus
