/-
  Where replies come from: a reply that ubusd forwards names an object of its sender, and a
  request on an object gets replies of the object's owner or of ubusd only.
-/
import IotLib.Ubus.Proto

namespace Ubus

/-! ## Messages -/

/-- The message is a reply. -/
def Msg.IsReply (m : Msg) : Prop := m.hdr.type = .status ∨ m.hdr.type = .data

/-- A reply that was forwarded names an object that its sender owned. -/
def Authentic (m : Posted) : Prop := m.msg.IsReply → m.sender.isSome → m.owned = true

/-- All messages that were sent, and those on their way. -/
structure BusOk (b : Bus) : Prop where
  sent : ∀ m ∈ b.sent, Authentic m
  chan : ∀ cl, ∀ m ∈ b.chan cl, Authentic m

section
variable {b : Bus}

theorem BusOk.post (h : BusOk b) {cl : Ptr} {ub : Msg} {sender : Option Ptr}
    (hm : ub.IsReply → ∀ c, sender = some c → b.reg.graph.owns c ub.hdr.peer = true) :
    BusOk (b.post cl ub sender) := by
  have hnew : Authentic ⟨cl, ub, sender, sender.any fun c => b.reg.graph.owns c ub.hdr.peer⟩ := by
    intro hreply hsome
    obtain ⟨c, rfl⟩ := Option.isSome_iff_exists.1 hsome
    exact hm hreply c rfl
  refine ⟨fun m hmem => ?_, fun cl' m hmem => ?_⟩
  · rcases List.mem_append.1 hmem with hmem | hmem
    · exact h.sent m hmem
    · rw [List.mem_singleton.1 hmem]
      exact hnew
  · unfold Bus.post at hmem
    dsimp only at hmem
    by_cases hcl : cl' = cl
    · subst hcl
      rw [Function.update_self] at hmem
      rcases List.mem_append.1 hmem with hmem | hmem
      · exact h.chan cl' m hmem
      · rw [List.mem_singleton.1 hmem]
        exact hnew
    · rw [Function.update_of_ne hcl] at hmem
      exact h.chan cl' m hmem

/-- Messages of ubusd itself. -/
theorem BusOk.postOwn (h : BusOk b) (cl : Ptr) (ub : Msg) : BusOk (b.post cl ub none) :=
  h.post fun _ c hc => by cases hc

theorem BusOk.setReg (h : BusOk b) (reg : St) : BusOk { b with reg := reg } := ⟨h.sent, h.chan⟩

theorem BusOk.setCmdQueue (h : BusOk b) (q : Ptr → List (Msg × Option Ptr)) :
    BusOk { b with cmdQueue := q } := ⟨h.sent, h.chan⟩

/-- A client has fewer messages on their way. -/
theorem BusOk.setChan (h : BusOk b) (cl : Ptr) {ms : List Posted} (hms : ∀ m ∈ ms, m ∈ b.chan cl) :
    BusOk { b with chan := Function.update b.chan cl ms } := by
  refine ⟨h.sent, fun cl' m hm => ?_⟩
  dsimp only at hm
  by_cases hcl : cl' = cl
  · subst hcl
    rw [Function.update_self] at hm
    exact h.chan cl' m (hms m hm)
  · rw [Function.update_of_ne hcl] at hm
    exact h.chan cl' m hm

theorem BusOk.registry (h : BusOk b) (hdr : MsgHdr) (reg : St) : BusOk (b.registry hdr reg) := by
  unfold Bus.registry
  refine List.foldlRecOn _ _ (h.setReg reg) fun b hb out _ => ?_
  obtain ⟨cl, out⟩ := out
  cases cl with
  | none => exact hb
  | some cl => exact hb.postOwn cl _

end

/-! ## Handlers -/

section
variable {acls : Acls} {parsers : Parsers} {cl : Ptr} {ub : Msg} {b : Bus}

theorem forwardInvoke_ok (h : BusOk b) (o : Ptr) (method : Str) (noReply : Option Bool) :
    BusOk (ubusdForwardInvoke cl ub o method b noReply) := by
  unfold ubusdForwardInvoke
  dsimp only
  split
  · exact h
  · refine h.post fun hreply => ?_
    rcases hreply with hreply | hreply <;> cases hreply

theorem recvMsg_ok (h : BusOk b) (id : UInt32) (method : Str) :
    BusOk (recvMsg acls parsers cl ub id method b).2 := by
  unfold recvMsg
  dsimp only
  split_ifs
  · exact h.registry _ _
  · exact h.registry _ _
  · exact h
  · split
    · exact h
    · split
      · exact h
      · exact h.postOwn _ _
  · exact h
  · exact h
  · exact h
  · exact h

theorem handleInvoke_ok (h : BusOk b) : BusOk (ubusdHandleInvoke acls parsers cl ub b).2 := by
  unfold ubusdHandleInvoke
  dsimp only
  split
  · split
    · exact h
    · split_ifs
      · exact h
      · exact recvMsg_ok h _ _
      · exact forwardInvoke_ok h _ _ _
  · exact h

theorem handleNotify_ok (h : BusOk b) : BusOk (ubusdHandleNotify cl ub b).2 := by
  unfold ubusdHandleNotify
  dsimp only
  split
  · split
    · exact h
    · split_ifs
      · exact h
      all_goals
        refine List.foldlRecOn (motive := BusOk) _ _ ?_ fun b hb s _ => forwardInvoke_ok hb _ _ _
        first
        | exact h
        | exact h.postOwn _ _
  · exact h

/-- The ownership check lets a client answer for its own objects only. -/
theorem handleResponse_ok (h : BusOk b) : BusOk (ubusdHandleResponse cl ub b) := by
  unfold ubusdHandleResponse
  dsimp only
  split
  · exact h
  · rename_i objid _
    split_ifs
    · exact h
    · exact h
    · split
      · exact h
      · rename_i obj hfind
        split_ifs with howner
        · exact h
        · split
          · exact h
          · refine h.post fun _ c hc => ?_
            cases hc
            refine List.any_eq_true.2 ⟨obj, List.mem_of_find?_eq_some hfind, ?_⟩
            have hid := List.find?_some hfind
            rw [Bool.and_eq_true]
            exact ⟨hid, decide_eq_true (not_not.1 howner).symm⟩

theorem sendObj_ok (h : BusOk b) (o : Ptr) : BusOk (sendObj acls cl ub o b) := by
  unfold sendObj
  dsimp only
  split
  · exact h
  · split_ifs
    · exact h.postOwn _ _
    · exact h

theorem sendLoop_ok (h : BusOk b) (os : List Ptr) (room : List Bool) :
    BusOk (sendLoop acls cl ub os room b).2 := by
  induction os generalizing room b with
  | nil => exact h
  | cons o os ih =>
    unfold sendLoop
    split_ifs
    · exact ih (sendObj_ok h o) _
    · exact h

theorem handleLookupFrom_ok (h : BusOk b) (room : List Bool) (cursor : Option Ptr) :
    BusOk (handleLookupFrom acls cl ub room cursor b).2 := by
  unfold handleLookupFrom
  split
  · have hloop := @sendLoop_ok acls cl ub b h (b.reg.graph.pathFrom cursor) room
    split
    · rename_i heq
      rw [heq] at hloop
      exact hloop
    · rename_i heq
      rw [heq] at hloop
      exact hloop
  · split
    · exact h
    · exact List.foldlRecOn (motive := BusOk) _ _ h fun b hb o _ => sendObj_ok hb o

theorem handleLookup_ok (h : BusOk b) (room : List Bool) :
    BusOk (handleLookup acls cl ub room b).2 := by
  unfold handleLookup
  have hfrom := @handleLookupFrom_ok acls cl ub b h room none
  dsimp only
  split_ifs
  · split
    · rename_i heq
      rw [heq] at hfrom
      exact hfrom
    · rename_i heq
      rw [heq] at hfrom
      exact hfrom.setCmdQueue _
  · exact h.setCmdQueue _

theorem status_ok (h : BusOk b) (ret : ℕ) : BusOk (b.status cl ub ret) := h.postOwn _ _

theorem cmdQueueProcess_ok (h : BusOk b) (room : List Bool) (cmds : List (Msg × Option Ptr)) :
    BusOk (cmdQueueProcess acls cl room cmds b) := by
  induction cmds generalizing b with
  | nil => exact h.setCmdQueue _
  | cons cmd cmds ih =>
    obtain ⟨ub, o⟩ := cmd
    have hfrom := @handleLookupFrom_ok acls cl ub b h room o
    unfold cmdQueueProcess
    split
    · rename_i heq
      rw [heq] at hfrom
      exact hfrom.setCmdQueue _
    · rename_i heq
      rw [heq] at hfrom
      exact ih (status_ok hfrom _)

theorem handlers_ok (h : BusOk b) (room : List Bool) :
    BusOk (handlers acls parsers cl ub room b).2 := by
  unfold handlers
  split
  · exact h.postOwn _ _
  · exact h.registry _ _
  · exact h.registry _ _
  · exact handleLookup_ok h room
  · exact handleInvoke_ok h
  · exact handleResponse_ok h
  · exact handleResponse_ok h
  · exact h.registry _ _
  · exact h.registry _ _
  · exact handleNotify_ok h
  all_goals exact h

theorem receiveMessage_ok (h : BusOk b) (room : List Bool) :
    BusOk (receiveMessage acls parsers cl ub room b) := by
  have hall := @handlers_ok acls parsers cl ub b h room
  unfold receiveMessage
  split
  · rename_i heq
    rw [heq] at hall
    exact hall
  · rename_i heq
    rw [heq] at hall
    exact status_ok hall _

end

/-! ## Requests -/

/-- The message is a reply that a request with this target may get. -/
structure Answers (target : UInt32) (notify : Bool) (m : Posted) : Prop where
  authentic : Authentic m
  reply : m.msg.IsReply
  peer : notify = false → m.msg.hdr.peer = target

/-- The requests of a context wait for their targets, and the data they keep fits them. -/
structure CtxOk (ctx : Context) : Prop where
  peer : ∀ req ∈ ctx.reqs, req.notify = false → req.peer = req.target
  pending : ∀ req ∈ ctx.reqs, ∀ m ∈ req.pending, Answers req.target req.notify m
  frames : ∀ f ∈ ctx.frames, ∀ todo, f.todo = some todo → ∀ req, ctx.reqs[f.req]? = some req →
    ∀ m ∈ todo, Answers req.target req.notify m
  bound : ∀ f ∈ ctx.frames, f.req < ctx.reqs.length

/-- What a request got. -/
def EventOk (e : ReqEvent) : Prop := Answers e.target e.notify e.cause

section
variable {ctx : Context} {r : ℕ} {f : Request → Request}

/-- A change of a request that keeps its target. -/
structure Keeps (f : Request → Request) (req : Request) : Prop where
  target : (f req).target = req.target
  notify : (f req).notify = req.notify
  peer : (f req).notify = false → (f req).peer = (f req).target
  pending : ∀ m ∈ (f req).pending, Answers req.target req.notify m

theorem mem_modify {reqs : List Request} {req' : Request} (h : req' ∈ reqs.modify r f) :
    req' ∈ reqs ∨ ∃ req, reqs[r]? = some req ∧ req' = f req := by
  obtain ⟨i, hi⟩ := List.mem_iff_getElem?.1 h
  rw [List.getElem?_modify] at hi
  obtain ⟨req, hreq, rfl⟩ := Option.map_eq_some_iff.1 hi
  split_ifs with hir
  · exact .inr ⟨req, hir ▸ hreq, rfl⟩
  · exact .inl (List.mem_of_getElem? hreq)

theorem CtxOk.modReq (h : CtxOk ctx) (hf : ∀ req, ctx.reqs[r]? = some req → Keeps f req) :
    CtxOk (ctx.modReq r f) where
  peer req' hreq' := by
    rcases mem_modify hreq' with hold | ⟨req, hreq, rfl⟩
    · exact h.peer req' hold
    · exact (hf req hreq).peer
  pending req' hreq' := by
    rcases mem_modify hreq' with hold | ⟨req, hreq, rfl⟩
    · exact h.pending req' hold
    · rw [(hf req hreq).target, (hf req hreq).notify]
      exact (hf req hreq).pending
  frames g hg todo htodo req' hreq' m hm := by
    unfold Context.modReq at hreq'
    dsimp only at hreq'
    rw [List.getElem?_modify] at hreq'
    obtain ⟨req, hreq, rfl⟩ := Option.map_eq_some_iff.1 hreq'
    have hfits := h.frames g hg todo htodo req hreq m hm
    split_ifs with hr
    · rw [(hf req (hr ▸ hreq)).target, (hf req (hr ▸ hreq)).notify]
      exact hfits
    · exact hfits
  bound g hg := by
    unfold Context.modReq
    dsimp only
    rw [List.length_modify]
    exact h.bound g hg

theorem CtxOk.setRequests (h : CtxOk ctx) (requests : List ℕ) :
    CtxOk { ctx with requests := requests } := ⟨h.peer, h.pending, h.frames, h.bound⟩

/-- Changes of the flags and of the status. -/
theorem CtxOk.keep (h : CtxOk ctx) (r : ℕ) (f : Request → Request)
    (htarget : ∀ req, (f req).target = req.target)
    (hnotify : ∀ req, (f req).notify = req.notify) (hpeer : ∀ req, (f req).peer = req.peer)
    (hpending : ∀ req, ∀ m ∈ (f req).pending, m ∈ req.pending) : CtxOk (ctx.modReq r f) := by
  refine h.modReq fun req hreq => ⟨htarget req, hnotify req, fun hn => ?_, fun m hm => ?_⟩
  · rw [hpeer, htarget]
    exact h.peer req (List.mem_of_getElem? hreq) ((hnotify req).symm.trans hn)
  · exact h.pending req (List.mem_of_getElem? hreq) m (hpending req m hm)

theorem CtxOk.setReqStatus (h : CtxOk ctx) (ret : UInt32) : CtxOk (ubusSetReqStatus ctx r ret) :=
  (h.keep r (fun req => { req with statusMsg := some ret }) (fun _ => rfl) (fun _ => rfl)
    (fun _ => rfl) fun _ _ => id).setRequests _

theorem CtxOk.setFrames (h : CtxOk ctx) {frames : List Frame}
    (hframes : ∀ g ∈ frames, g ∈ ctx.frames ∨ g.req < ctx.reqs.length ∧
      ∀ todo, g.todo = some todo → ∀ req, ctx.reqs[g.req]? = some req →
        ∀ m ∈ todo, Answers req.target req.notify m) : CtxOk { ctx with frames := frames } := by
  refine ⟨h.peer, h.pending, fun g hg => ?_, fun g hg => ?_⟩
  · rcases hframes g hg with hold | ⟨-, hnew⟩
    · exact h.frames g hold
    · exact hnew
  · rcases hframes g hg with hold | ⟨hlt, -⟩
    · exact h.bound g hold
    · exact hlt

/-- What `ubus_find_request` finds matches. -/
theorem matches_of_find {seq : UInt16} {peer : UInt32} {req : Request}
    (hfind : ubusFindRequest ctx seq peer = some r) (hreq : ctx.reqs[r]? = some req) :
    req.matches seq peer = true := by
  have hany := List.find?_some hfind
  rw [hreq] at hany
  exact hany

theorem peer_of_matches {seq : UInt16} {peer : UInt32} {req : Request}
    (h : req.matches seq peer = true) (hn : req.notify = false) : peer = req.peer := by
  unfold Request.matches at h
  rw [hn, Bool.and_eq_true] at h
  simpa using h.2

theorem processReqMsg_ok (h : CtxOk ctx) {m : Posted} (hm : Authentic m) :
    CtxOk (ubusProcessReqMsg ctx m).1 ∧ ∀ e ∈ (ubusProcessReqMsg ctx m).2, EventOk e := by
  unfold ubusProcessReqMsg
  dsimp only
  cases hfind : ubusFindRequest ctx m.msg.hdr.seq m.msg.hdr.peer with
  | none => exact ⟨h, fun e he => by cases he⟩
  | some r =>
    dsimp only
    cases hreq : ctx.reqs[r]? with
    | none => exact ⟨h, fun e he => by cases he⟩
    | some req =>
      have hmatch := matches_of_find hfind hreq
      have hpeer : req.notify = false → m.msg.hdr.peer = req.target := fun hn =>
        (peer_of_matches hmatch hn).trans (h.peer req (List.mem_of_getElem? hreq) hn)
      have hone : m.msg.IsReply → ∀ e ∈ [(⟨req.target, req.notify, m⟩ : ReqEvent)], EventOk e := by
        intro hreply e he
        rw [List.mem_singleton.1 he]
        exact ⟨hm, hreply, hpeer⟩
      dsimp only
      split
      · rename_i htype
        split
        · rename_i id _
          refine ⟨?_, hone (.inl htype)⟩
          have hmod := h.keep r (fun req' => { req' with waiting := notifyWaiting req id m.msg })
            (fun _ => rfl) (fun _ => rfl) (fun _ => rfl) fun _ _ hm' => hm'
          split_ifs
          · exact hmod.setReqStatus 0
          · exact hmod
        · refine ⟨CtxOk.setReqStatus (h.modReq fun req' hreq' => ?_) _, hone (.inl htype)⟩
          obtain rfl : req = req' := Option.some.inj (hreq.symm.trans hreq')
          exact ⟨rfl, rfl, hpeer, h.pending req (List.mem_of_getElem? hreq)⟩
      · rename_i htype
        split_ifs
        · exact ⟨h, fun e he => by cases he⟩
        · refine ⟨h.modReq fun req' hreq' => ?_, fun e he => by cases he⟩
          obtain rfl : req = req' := Option.some.inj (hreq.symm.trans hreq')
          refine ⟨rfl, rfl, h.peer req (List.mem_of_getElem? hreq), fun m' hm' => ?_⟩
          rcases List.mem_cons.1 hm' with rfl | hm'
          · exact ⟨hm, .inr htype, hpeer⟩
          · exact h.pending req (List.mem_of_getElem? hreq) m' hm'
        · refine ⟨?_, hone (.inr htype)⟩
          have hmod := h.keep r (fun req' => { req' with blocked := true })
            (fun _ => rfl) (fun _ => rfl) (fun _ => rfl) fun _ _ hm' => hm'
          refine hmod.setFrames fun g hg => ?_
          rcases List.mem_cons.1 hg with rfl | hg
          · refine .inr ⟨?_, fun todo htodo => by cases htodo⟩
            unfold Context.modReq
            dsimp only
            rw [List.length_modify]
            exact (List.getElem?_eq_some_iff.1 hreq).1
          · exact .inl hg
      · exact ⟨h, fun e he => by cases he⟩

theorem processReqData_ok (h : CtxOk ctx) (hr : r < ctx.reqs.length) {todo : List Posted}
    (htodo : ∀ req, ctx.reqs[r]? = some req → ∀ m ∈ todo, Answers req.target req.notify m) :
    CtxOk (processReqData r todo ctx).1 ∧ ∀ e ∈ (processReqData r todo ctx).2, EventOk e := by
  induction todo generalizing ctx with
  | nil =>
    have hmod := h.keep r (fun req => { req with blocked := false }) (fun _ => rfl) (fun _ => rfl)
      (fun _ => rfl) fun _ _ hm => hm
    exact ⟨hmod.setFrames fun g hg => .inl (List.mem_of_mem_tail hg), fun e he => by cases he⟩
  | cons m todo ih =>
    unfold processReqData
    have hmod : CtxOk (ctx.modReq r fun req => { req with pending := req.pending.erase m }) :=
      h.keep r _ (fun _ => rfl) (fun _ => rfl) (fun _ => rfl) fun _ _ hm => List.mem_of_mem_erase hm
    have hget : (ctx.modReq r fun req => { req with pending := req.pending.erase m }).reqs[r]? =
        (ctx.reqs[r]?).map fun req => { req with pending := req.pending.erase m } := by
      unfold Context.modReq
      dsimp only
      rw [List.getElem?_modify]
      simp
    obtain ⟨req, hreq⟩ : ∃ req, ctx.reqs[r]? = some req := ⟨_, List.getElem?_eq_getElem hr⟩
    rw [hreq, Option.map_some] at hget
    have hrest : ∀ req', (ctx.modReq r fun req => { req with pending := req.pending.erase m }).reqs[r]?
        = some req' → ∀ m' ∈ todo, Answers req'.target req'.notify m' := by
      intro req' hreq' m' hm'
      obtain rfl := Option.some.inj (hget.symm.trans hreq')
      exact htodo req hreq m' (List.mem_cons_of_mem _ hm')
    have hlen : r < (ctx.modReq r fun req => { req with pending := req.pending.erase m }).reqs.length := by
      unfold Context.modReq
      dsimp only
      rw [List.length_modify]
      exact hr
    dsimp only
    rw [hget]
    dsimp only
    split_ifs
    · exact ih hmod hlen hrest
    · refine ⟨hmod.setFrames fun g hg => ?_, fun e he => ?_⟩
      · rcases List.mem_cons.1 hg with rfl | hg
        · refine .inr ⟨hlen, fun todo' htodo' => ?_⟩
          obtain rfl := Option.some.inj htodo'
          exact hrest
        · exact .inl (List.mem_of_mem_tail hg)
      · rw [List.mem_singleton.1 he]
        exact htodo req hreq m List.mem_cons_self

theorem dataCbReturn_ok (h : CtxOk ctx) :
    CtxOk (dataCbReturn ctx).1 ∧ ∀ e ∈ (dataCbReturn ctx).2, EventOk e := by
  unfold dataCbReturn
  cases hframes : ctx.frames with
  | nil => exact ⟨h, fun e he => by cases he⟩
  | cons f rest =>
    have hf : f ∈ ctx.frames := hframes ▸ List.mem_cons_self
    refine processReqData_ok h (h.bound f hf) fun req hreq m hm => ?_
    cases htodo : f.todo with
    | none =>
      rw [htodo, hreq] at hm
      exact h.pending req (List.mem_of_getElem? hreq) m hm
    | some todo =>
      rw [htodo] at hm
      exact h.frames f hf todo htodo req hreq m hm

theorem startRequest_ok (h : CtxOk ctx) (target : UInt32) (notify dataCb : Bool) :
    CtxOk (ubusStartRequest ctx target notify dataCb) := by
  unfold ubusStartRequest
  refine ⟨fun req hreq hn => ?_, fun req hreq => ?_, fun g hg todo htodo req hreq => ?_,
    fun g hg => ?_⟩
  · rcases List.mem_append.1 hreq with hreq | hreq
    · exact h.peer req hreq hn
    · rw [List.mem_singleton.1 hreq]
  · rcases List.mem_append.1 hreq with hreq | hreq
    · exact h.pending req hreq
    · rw [List.mem_singleton.1 hreq]
      exact fun m hm => by cases hm
  · dsimp only at hreq
    rw [List.getElem?_append_left (h.bound g hg)] at hreq
    exact h.frames g hg todo htodo req hreq
  · dsimp only
    rw [List.length_append]
    exact Nat.lt_add_right _ (h.bound g hg)

theorem act_ok (h : CtxOk ctx) (act : CtxAct) : CtxOk (ctx.act act) := by
  cases act with
  | attach cl => exact ⟨h.peer, h.pending, h.frames, h.bound⟩
  | start target notify dataCb => exact startRequest_ok h target notify dataCb
  | completeAsync r =>
    unfold Context.act ubusCompleteRequestAsync
    dsimp only
    split_ifs
    · exact h
    · exact h.setRequests _
  | abort r =>
    unfold Context.act ubusAbortRequest
    dsimp only
    split_ifs
    · have hmod := h.keep r (fun req => { req with cancelled := true, pending := [] })
        (fun _ => rfl) (fun _ => rfl) (fun _ => rfl) fun _ m hm => by cases hm
      exact hmod.setRequests _
    · exact h
  | setStatus r ret => exact h.setReqStatus ret

end

/-! ## Runs -/

/-- What holds along every run. -/
structure NetOk (n : Net) : Prop where
  bus : BusOk n.bus
  ctx : ∀ i, CtxOk (n.ctx i)
  served : ∀ e ∈ n.served, EventOk e

theorem NetOk.setBus {n : Net} (h : NetOk n) {b : Bus} (hb : BusOk b) : NetOk { n with bus := b } :=
  ⟨hb, h.ctx, h.served⟩

theorem NetOk.setCtx {n : Net} (h : NetOk n) (i : ℕ) {r : Context × List ReqEvent}
    (hctx : CtxOk r.1) (hserved : ∀ e ∈ r.2, EventOk e) : NetOk (n.setCtx i r) := by
  refine ⟨h.bus, fun j => ?_, fun e he => ?_⟩
  · unfold Net.setCtx
    dsimp only
    by_cases hj : j = i
    · subst hj
      rw [Function.update_self]
      exact hctx
    · rw [Function.update_of_ne hj]
      exact h.ctx j
  · rcases List.mem_append.1 he with he | he
    · exact h.served e he
    · exact hserved e he

theorem netStep_ok {acls : Acls} {parsers : Parsers} {n : Net} (h : NetOk n) (a : NetStep) :
    NetOk (netStep acls parsers n a) := by
  cases a with
  | connect cred mem rnd => exact h.setBus (h.bus.registry _ _)
  | disconnect cl mem =>
    refine h.setBus (BusOk.setCmdQueue (BusOk.setChan (h.bus.registry _ _) cl ?_) _)
    exact fun m hm => by cases hm
  | message cl ub room mem rnd =>
    unfold netStep
    dsimp only
    split_ifs
    · exact h.setBus (receiveMessage_ok (h.bus.setReg _) room)
    · exact h
  | drain cl room => exact h.setBus (cmdQueueProcess_ok h.bus room _)
  | lose cl i => exact h.setBus (h.bus.setChan cl fun m hm => List.mem_of_mem_eraseIdx hm)
  | «local» i act => exact h.setCtx i (act_ok (h.ctx i) act) fun e he => by cases he
  | receive i =>
    unfold netStep
    dsimp only
    split
    · exact h
    · rename_i cl _
      cases hchan : n.bus.chan cl with
      | nil => exact h
      | cons m rest =>
        have hm : Authentic m := h.bus.chan cl m (hchan ▸ List.mem_cons_self)
        have hbus := h.setBus (@BusOk.setChan _ h.bus cl rest fun m' hm' =>
          hchan ▸ List.mem_cons_of_mem _ hm')
        obtain ⟨hctx, hserved⟩ := processReqMsg_ok (h.ctx i) hm
        exact hbus.setCtx i hctx hserved
  | cbReturn i =>
    obtain ⟨hctx, hserved⟩ := dataCbReturn_ok (h.ctx i)
    exact h.setCtx i hctx hserved

theorem netInit_ok (mem : List Bool) : NetOk (netInit mem) := by
  refine ⟨⟨?_, ?_⟩, fun i => ⟨?_, ?_, ?_, ?_⟩, ?_⟩
  · intro m hm
    cases hm
  · intro cl m hm
    cases hm
  · intro req hreq
    cases hreq
  · intro req hreq
    cases hreq
  · intro f hf
    cases hf
  · intro f hf
    cases hf
  · intro e he
    cases he

/-- **Replies are authentic**: in every run, a status or data message that ubusd forwards has
    as its peer the id of an object that the sender owns at that time, and a request that is no
    notification gets data, or is completed, by messages of ubusd and by messages of clients
    that own its object. -/
theorem replies_authentic (acls : Acls) (parsers : Parsers) (mem : List Bool)
    (steps : List NetStep) :
    (∀ m ∈ (Run.run (netStep acls parsers) (netInit mem) steps).bus.sent, m.msg.IsReply →
      ∀ s, m.sender = some s → m.owned = true) ∧
    ∀ e ∈ (Run.run (netStep acls parsers) (netInit mem) steps).served, e.notify = false →
      e.cause.sender = none ∨ e.cause.msg.hdr.peer = e.target ∧ e.cause.owned = true := by
  have hok : NetOk (Run.run (netStep acls parsers) (netInit mem) steps) :=
    (@Run.Admits.of_forall _ _ _ (fun _ _ => True) _ _ fun _ _ => trivial).invariant
      (fun _ a _ hn => netStep_ok hn a) (netInit_ok mem)
  refine ⟨fun m hm hreply s hs => hok.bus.sent m hm hreply (by rw [hs]; rfl), fun e he hn => ?_⟩
  have hfits := hok.served e he
  cases hsender : e.cause.sender with
  | none => exact .inl rfl
  | some s => exact .inr ⟨hfits.peer hn, hfits.authentic hfits.reply (by rw [hsender]; rfl)⟩

end Ubus
