/-
  The data of a request in libubus (`libubus-req.c`), with callbacks that process further messages:
  those that come for a request whose callback is running are kept on its list `pending`, and the
  completion waits for the end of it.

  `ubus_process_req_data` puts a message at the head of that list, and `__ubus_process_req_data`
  does not come back to the head.
-/
import IotLib.Lib.Run
import IotLib.Ubus.Proto

namespace Ubus.ReqData

open Run

/-! ## Requests -/

/-- What `complete_cb` is: a callback of the user, or `ubus_sync_req_cb`. -/
inductive CompleteCb where
  | user | sync
deriving DecidableEq, Repr

/-- A callback of the user is called. -/
inductive Event where
  | data (m : Msg)
  | complete (ret : UInt32)
deriving DecidableEq, Repr

/-- `struct ubus_request` with `struct ubus_notify_request`. The callbacks for data and for the
    status of a notification are there or not; `completes` tells whether the user gave a
    `complete_cb`. `arrived` and `events` keep the history: the data messages that the callbacks are
    for, and the calls. -/
structure Req where
  peer : UInt32 := 0
  seq : UInt16 := 0
  notify : Bool := false
  rawDataCb : Bool := false
  dataCb : Bool := false
  statusCb : Bool := false
  completes : Bool := false
  completeCb : Option CompleteCb := none
  statusMsg : Bool := false
  statusCode : UInt32 := 0
  blocked : Bool := false
  cancelled : Bool := false
  pending : List Msg := []
  waiting : List (ℕ × UInt32) := []
  arrived : List Msg := []
  events : List Event := []

/-- `req_data_cb` calls a callback for this message. -/
def Req.sees (q : Req) (m : Msg) : Bool := q.rawDataCb || (q.dataCb && m.attrs.data.isSome)

/-- A function on the stack that waits for user code to return: `req_data_cb` for a message, with
    the part of the list that `__ubus_process_req_data` has still to go through once it has begun;
    `status_cb` of a notification; or the loop of `ubus_complete_request`, with the callback that it
    puts back. -/
inductive Kind where
  | data (todo : Option (List Msg))
  | status
  | sync (cb : Option CompleteCb)

structure Frame where
  req : ℕ
  kind : Kind

/-- `struct ubus_context`: the requests that were started, those on the list, and the stack.
    `freed` is set when a message is accessed that `ubus_abort_request` has freed. -/
structure Ctx where
  count : ℕ := 0
  req : ℕ → Req := fun _ => {}
  requestSeq : UInt16 := 0
  requests : List ℕ := []
  frames : List Frame := []
  freed : Bool := false

def Ctx.mod (c : Ctx) (r : ℕ) (f : Req → Req) : Ctx :=
  { c with req := Function.update c.req r (f (c.req r)) }

def Ctx.push (c : Ctx) (r : ℕ) (k : Kind) : Ctx := { c with frames := ⟨r, k⟩ :: c.frames }

/-- `list_del_init(&req->list)` -/
def Ctx.unlist (c : Ctx) (r : ℕ) : Ctx := { c with requests := c.requests.filter (· ≠ r) }

/-! ## Completion -/

/-- The callback is called. -/
def callComplete (cb : CompleteCb) (r : ℕ) (ret : UInt32) (c : Ctx) : Ctx :=
  match cb with
  | .user => c.mod r fun q => { q with events := q.events ++ [.complete ret] }
  | .sync => c.mod r fun q => { q with statusMsg := true, statusCode := ret }

/-- `ubus_req_complete_cb` -/
def ubusReqCompleteCb (r : ℕ) (c : Ctx) : Ctx :=
  match (c.req r).completeCb with
  | none => c
  | some cb => callComplete cb r (c.req r).statusCode (c.mod r fun q => { q with completeCb := none })

/-- `ubus_set_req_status` -/
def ubusSetReqStatus (r : ℕ) (ret : UInt32) (c : Ctx) : Ctx :=
  let c := (c.unlist r).mod r fun q => { q with statusMsg := true, statusCode := ret }
  if (c.req r).blocked then c else ubusReqCompleteCb r c

/-! ## Data -/

/-- `req_data_cb`, which has a callback to call. -/
def reqDataCb (r : ℕ) (m : Msg) (todo : Option (List Msg)) (c : Ctx) : Ctx :=
  (c.mod r fun q => { q with events := q.events ++ [.data m] }).push r (.data todo)

/-- `__ubus_process_req_data` from an element of the list on, up to the next callback, and then the
    end of `ubus_process_req_data`. The rest of the list must not have been freed. -/
def processReqData (r : ℕ) : List Msg → Ctx → Ctx
  | [], c =>
    let c := c.mod r fun q => { q with blocked := false }
    if (c.req r).statusMsg then ubusReqCompleteCb r c else c
  | m :: todo, c =>
    let q := c.req r
    if ¬ (m :: todo) <:+ q.pending then { c with freed := true }
    else
      let c := c.mod r fun q =>
        { q with pending := q.pending.take (q.pending.length - (todo.length + 1)) ++ todo }
      if ¬ q.cancelled ∧ q.sees m then reqDataCb r m (some todo) c else processReqData r todo c

/-- `ubus_process_req_data`, where `alloc` tells whether there is memory to keep the message. -/
def ubusProcessReqData (alloc : Bool) (r : ℕ) (m : Msg) (c : Ctx) : Ctx :=
  let q := c.req r
  let c := c.mod r fun q => { q with arrived := q.arrived ++ if q.sees m then [m] else [] }
  if ¬ q.blocked then
    let c := c.mod r fun q => { q with blocked := true }
    if q.sees m then reqDataCb r m none c else processReqData r q.pending c
  else if alloc then c.mod r fun q => { q with pending := m :: q.pending }
  else c

/-! ## Messages -/

/-- What `ubus_find_request` looks for. -/
def Req.matches (q : Req) (seq : UInt16) (peer : UInt32) : Bool :=
  seq = q.seq && if q.notify then (ubusFindNotifyId q.waiting peer).isSome else peer = q.peer

/-- `ubus_find_request` -/
def ubusFindRequest (c : Ctx) (hdr : MsgHdr) : Option ℕ :=
  c.requests.find? fun r => (c.req r).matches hdr.seq hdr.peer

/-- The end of `ubus_process_notify_status`. -/
def notifyDone (r : ℕ) (c : Ctx) : Ctx :=
  if (c.req r).waiting = [] then ubusSetReqStatus r 0 c else c

/-- `ubus_process_notify_status` -/
def ubusProcessNotifyStatus (r id : ℕ) (m : Msg) (c : Ctx) : Ctx :=
  let new :=
    if id = 0 then
      ((m.attrs.subscribers.getD []).take ubusMaxNotifyPeers).zipIdx.map fun s => (s.2 + 1, s.1)
    else []
  let c := c.mod r fun q => { q with waiting := q.waiting.filter (·.1 ≠ id) ++ new }
  if id ≠ 0 ∧ (c.req r).statusCb then c.push r .status else notifyDone r c

/-- `UBUS_STATUS_INVALID_ARGUMENT` -/
def invalidArgument : UInt32 := 2

/-- `ubus_process_req_status` -/
def ubusProcessReqStatus (r : ℕ) (m : Msg) (c : Ctx) : Ctx :=
  ubusSetReqStatus r (m.attrs.status.getD invalidArgument)
    (c.mod r fun q => { q with peer := m.hdr.peer })

/-- `ubus_process_req_msg` -/
def ubusProcessReqMsg (alloc : Bool) (m : Msg) (c : Ctx) : Ctx :=
  match ubusFindRequest c m.hdr with
  | none => c
  | some r =>
    let q := c.req r
    match m.hdr.type with
    | .status =>
      match if q.notify then ubusFindNotifyId q.waiting m.hdr.peer else none with
      | some id => ubusProcessNotifyStatus r id m c
      | none => ubusProcessReqStatus r m c
    | .data => if q.dataCb || q.rawDataCb then ubusProcessReqData alloc r m c else c
    | _ => c

/-! ## The user -/

/-- What a request is started with. -/
structure Start where
  peer : UInt32
  notify : Bool
  rawDataCb : Bool
  dataCb : Bool
  statusCb : Bool
  completes : Bool

/-- `__ubus_start_request`; a notification waits for the status of ubusd first. -/
def ubusStartRequest (p : Start) (c : Ctx) : Ctx :=
  let q : Req :=
    { peer := p.peer, seq := c.requestSeq + 1, notify := p.notify, rawDataCb := p.rawDataCb
      dataCb := p.dataCb, statusCb := p.statusCb, completes := p.completes
      completeCb := if p.completes then some .user else none
      waiting := if p.notify then [(0, p.peer)] else [] }
  { c with
    count := c.count + 1
    req := Function.update c.req c.count q
    requestSeq := c.requestSeq + 1 }

/-- `ubus_complete_request_async` -/
def ubusCompleteRequestAsync (r : ℕ) (c : Ctx) : Ctx :=
  if r ∈ c.requests then c else { c with requests := r :: c.requests }

/-- `ubus_complete_request`, up to its loop. -/
def ubusCompleteRequest (r : ℕ) (c : Ctx) : Ctx :=
  ((ubusCompleteRequestAsync r c).push r (.sync (c.req r).completeCb)).mod r fun q =>
    { q with completeCb := some .sync }

/-- The end of `ubus_complete_request`: the callback is put back, and called. -/
def completeRequestDone (r : ℕ) (cb : Option CompleteCb) (c : Ctx) : Ctx :=
  let c := c.mod r fun q => { q with completeCb := cb }
  match cb with
  | none => c
  | some cb => callComplete cb r (c.req r).statusCode c

/-- `ubus_abort_request`; `__ubus_process_req_data` frees all that is kept. -/
def ubusAbortRequest (r : ℕ) (c : Ctx) : Ctx :=
  if r ∈ c.requests then
    (c.mod r fun q => { q with cancelled := true, pending := [] }).unlist r
  else c

/-- The user code returns to the function on top of the stack, or the loop of
    `ubus_complete_request` finds a status. -/
def ret (c : Ctx) : Ctx :=
  match c.frames with
  | [] => c
  | f :: frames =>
    let c' := { c with frames := frames }
    match f.kind with
    | .data todo => processReqData f.req (todo.getD (c.req f.req).pending) c'
    | .status => notifyDone f.req c'
    | .sync cb => if (c.req f.req).statusMsg then completeRequestDone f.req cb c' else c

/-- The loop of `ubus_complete_request` ends with a timeout, or as the connection is lost. -/
def timeout (status : UInt32) (c : Ctx) : Ctx :=
  match c.frames with
  | ⟨r, .sync cb⟩ :: frames =>
    if (c.req r).statusMsg then c
    else completeRequestDone r cb (ubusSetReqStatus r status { c with frames := frames })
  | _ => c

/-- What happens next, in whatever callback is running. -/
inductive Step where
  | start (p : Start)
  | completeAsync (r : ℕ)
  | complete (r : ℕ)
  | abort (r : ℕ)
  | msg (m : Msg) (alloc : Bool)
  | timeout (status : UInt32)
  | ret

/-- A step; there is none after freed memory was accessed. -/
def step (c : Ctx) (s : Step) : Ctx :=
  if c.freed then c
  else
    match s with
    | .start p => ubusStartRequest p c
    | .completeAsync r => if r < c.count then ubusCompleteRequestAsync r c else c
    | .complete r => if r < c.count then ubusCompleteRequest r c else c
    | .abort r => ubusAbortRequest r c
    | .msg m alloc => ubusProcessReqMsg alloc m c
    | .timeout status => timeout status c
    | .ret => ret c

/-! ## What is promised -/

/-- The data that was given out. -/
def Req.sent (q : Req) : List Msg :=
  q.events.filterMap fun
    | .data m => some m
    | .complete _ => none

/-- The request was completed. -/
def Req.Done (q : Req) : Prop := ∃ ret, Event.complete ret ∈ q.events

/-- The functions of a request on the stack. -/
def Ctx.kinds (c : Ctx) (r : ℕ) : List Kind :=
  c.frames.filterMap fun f => if f.req = r then some f.kind else none

/-- The callbacks that the loops of `ubus_complete_request` will put back. -/
def saves (ks : List Kind) : List (Option CompleteCb) :=
  ks.filterMap fun
    | .sync cb => some cb
    | _ => none

/-- The data of a request is given out in the order in which it arrived, all of it before the
    completion and whenever no callback is running; the completion comes last, and does come once
    there is a status and nobody waits for it in `ubus_complete_request`. -/
structure Ordered (q : Req) (ks : List Kind) : Prop where
  order : q.sent <+: q.arrived
  last : q.events = q.sent.map .data ∨ ∃ ret, q.events = q.sent.map .data ++ [.complete ret]
  all : q.cancelled = false → (q.blocked = false ∨ q.Done) → q.sent = q.arrived
  once : q.completes = true → q.statusMsg = true → q.blocked = false → saves ks = [] → q.Done

/-- A step keeps the order: a message that comes while data is given out is kept in memory, at most
    one is, and it comes before the list is gone through. A request is not aborted while its list is
    gone through, is not put on the list of requests when it has its status or was aborted, and
    `ubus_complete_request` is not called for it in one of its own callbacks. -/
def Fits (c : Ctx) : Step → Prop
  | .msg m alloc => m.hdr.type = .data → ∀ r, ubusFindRequest c m.hdr = some r →
      (c.req r).blocked = true → (c.req r).sees m = true →
        alloc = true ∧ (∀ todo, Kind.data (some todo) ∉ c.kinds r) ∧
          ∀ m' ∈ (c.req r).pending, (c.req r).sees m' = false
  | .abort r => ∀ todo, Kind.data (some todo) ∈ c.kinds r → todo = []
  | .completeAsync r => (c.req r).statusMsg = false ∧ (c.req r).cancelled = false
  | .complete r => (c.req r).statusMsg = false ∧ (c.req r).cancelled = false ∧
      ∀ k ∈ c.kinds r, ∃ cb, k = .sync cb
  | _ => True

/-! ## The invariant -/

/-- The data callbacks that run. -/
def todos (ks : List Kind) : List (Option (List Msg)) :=
  ks.filterMap fun
    | .data todo => some todo
    | _ => none

/-- The messages that the callbacks are for. -/
def Req.seen (q : Req) (ms : List Msg) : List Msg := ms.filter q.sees

/-- Nothing but other loops is below a loop of `ubus_complete_request`. -/
def Clean : List Kind → Prop
  | [] => True
  | k :: ks => ((∃ cb, k = .sync cb) → ∀ k' ∈ ks, ∃ cb, k' = .sync cb) ∧ Clean ks

/-- The list is gone through, from `todo` on. -/
structure Draining (q : Req) (todo : List Msg) : Prop where
  blocked : q.blocked = true
  split : ∃ pre, q.pending = pre ++ todo ∧ q.seen pre = []
  one : (q.seen todo).length ≤ 1
  all : q.cancelled = false → q.sent ++ q.seen todo = q.arrived

/-- No data callback runs. -/
structure Idle (q : Req) : Prop where
  blocked : q.blocked = false
  pending : q.seen q.pending = []
  all : q.cancelled = false → q.sent = q.arrived

/-- How far a request is with its data. -/
def Phase (q : Req) : List (Option (List Msg)) → Prop
  | [] => Idle q
  | [none] => Draining q q.pending
  | [some todo] => Draining q todo ∧ q.seen todo = []
  | _ => False

/-- The completion comes at the end, and the callback for it is not lost: it is in the request or
    will be put back by the outermost loop. -/
structure Completion (q : Req) (listed : Prop) (ks : List Kind) : Prop where
  order : q.sent <+: q.arrived
  last : ¬ q.Done ∧ q.events = q.sent.map .data ∨
    ∃ ret, q.events = q.sent.map .data ++ [.complete ret]
  listed : listed → q.statusMsg = false ∧ q.cancelled = false
  done : q.Done → q.statusMsg = true ∧ q.blocked = false ∧
    (ks = [] ∨ some .user ∉ q.completeCb :: saves ks)
  saved : ∀ x ∈ (q.completeCb :: saves ks).dropLast, x ≠ some .user
  user : ¬ q.Done → (q.completeCb :: saves ks).getLast? =
    some (if q.completes then some .user else none)
  clean : Clean ks

/-- Once there is a status, and no callback runs, the completion has come or is waited for. -/
def Timely (q : Req) (ks : List Kind) : Prop :=
  q.statusMsg = true → q.blocked = false → ¬ q.Done → q.completes = true → saves ks ≠ []

structure ReqOk (q : Req) (listed : Prop) (ks : List Kind) : Prop where
  completion : Completion q listed ks
  timely : Timely q ks
  phase : Phase q (todos ks)

structure Inv (c : Ctx) : Prop where
  live : c.freed = false
  fresh : ∀ r, c.count ≤ r → r ∉ c.requests ∧ c.kinds r = []
  req : ∀ r, ReqOk (c.req r) (r ∈ c.requests) (c.kinds r)

section
variable {q : Req} {listed : Prop} {ks : List Kind}

theorem sent_data (q : Req) (m : Msg) :
    Req.sent { q with events := q.events ++ [.data m] } = q.sent ++ [m] := List.filterMap_append

theorem sent_complete (q : Req) (ret : UInt32) :
    Req.sent { q with events := q.events ++ [.complete ret] } = q.sent := by
  unfold Req.sent
  rw [List.filterMap_append]
  exact List.append_nil _

theorem Completion.not_done_of_blocked (h : Completion q listed ks) (hb : q.blocked = true) :
    ¬ q.Done := fun hd => by
  rw [(h.done hd).2.1] at hb
  cases hb

theorem Completion.not_done_of_listed (h : Completion q listed ks) (hl : listed) : ¬ q.Done :=
  fun hd => by
    have := (h.done hd).1
    rw [(h.listed hl).1] at this
    cases this

theorem Completion.events_eq (h : Completion q listed ks) (hd : ¬ q.Done) :
    q.events = q.sent.map .data := by
  rcases h.last with ⟨-, heq⟩ | ⟨ret, heq⟩
  · exact heq
  · refine absurd ⟨ret, ?_⟩ hd
    rw [heq]
    exact List.mem_append_right _ (List.mem_singleton_self _)

/-- What is promised follows. -/
theorem ReqOk.ordered (h : ReqOk q listed ks) : Ordered q ks where
  order := h.completion.order
  last := h.completion.last.imp And.right id
  all := by
    rintro hc hidle
    have hb : q.blocked = false := hidle.elim id fun hd => (h.completion.done hd).2.1
    have hphase := h.phase
    unfold Phase at hphase
    split at hphase
    · exact hphase.all hc
    · exact absurd hphase.blocked (by simp [hb])
    · exact absurd hphase.1.blocked (by simp [hb])
    · exact hphase.elim
  once := fun hcb hs hb hnone => by
    by_contra hd
    exact h.timely hs hb hd hcb hnone

end

/-! ## What the functions do to a request -/

/-- `callComplete` -/
def CompleteCb.call (cb : CompleteCb) (ret : UInt32) (q : Req) : Req :=
  match cb with
  | .user => { q with events := q.events ++ [.complete ret] }
  | .sync => { q with statusMsg := true, statusCode := ret }

/-- `ubus_req_complete_cb` -/
def Req.reqComplete (q : Req) : Req :=
  match q.completeCb with
  | none => q
  | some cb => cb.call q.statusCode { q with completeCb := none }

/-- `ubus_set_req_status` -/
def Req.setStatus (ret : UInt32) (q : Req) : Req :=
  let q := { q with statusMsg := true, statusCode := ret }
  if q.blocked then q else q.reqComplete

/-- The end of `ubus_complete_request`. -/
def Req.syncDone (cb : Option CompleteCb) (q : Req) : Req :=
  match cb with
  | none => { q with completeCb := none }
  | some cb => cb.call q.statusCode { q with completeCb := some cb }

section
variable {c : Ctx} {r : ℕ}

theorem mod_mod (f g : Req → Req) : (c.mod r f).mod r g = c.mod r fun q => g (f q) := by
  unfold Ctx.mod
  simp

@[simp] theorem mod_req (f : Req → Req) : (c.mod r f).req r = f (c.req r) := Function.update_self ..

theorem mod_id : (c.mod r fun q => q) = c := by
  unfold Ctx.mod
  rw [Function.update_eq_self]

theorem mod_congr {f g : Req → Req} (h : f (c.req r) = g (c.req r)) : c.mod r f = c.mod r g := by
  unfold Ctx.mod
  rw [h]

theorem callComplete_eq (cb : CompleteCb) (ret : UInt32) :
    callComplete cb r ret c = c.mod r (cb.call ret) := by cases cb <;> rfl

theorem ubusReqCompleteCb_eq : ubusReqCompleteCb r c = c.mod r Req.reqComplete := by
  unfold ubusReqCompleteCb
  cases h : (c.req r).completeCb with
  | none =>
    have hid : (c.req r).reqComplete = c.req r := by
      unfold Req.reqComplete
      rw [h]
    exact mod_id.symm.trans (mod_congr hid.symm)
  | some cb =>
    dsimp only
    rw [callComplete_eq, mod_mod]
    refine mod_congr ?_
    unfold Req.reqComplete
    rw [h]

theorem ubusSetReqStatus_eq (ret : UInt32) :
    ubusSetReqStatus r ret c = (c.unlist r).mod r (Req.setStatus ret) := by
  unfold ubusSetReqStatus
  dsimp only
  rw [mod_req, ubusReqCompleteCb_eq, mod_mod, ← apply_ite (fun f => (c.unlist r).mod r f)]
  refine mod_congr ?_
  unfold Req.setStatus
  dsimp only
  split_ifs with hb
  · rfl
  · rfl

theorem completeRequestDone_eq (cb : Option CompleteCb) :
    completeRequestDone r cb c = c.mod r (Req.syncDone cb) := by
  unfold completeRequestDone
  cases cb with
  | none => rfl
  | some cb =>
    dsimp only
    rw [callComplete_eq, mod_mod, mod_req]
    rfl

end

/-! ## Completing a request -/

section
variable {q : Req} {listed : Prop} {ks : List Kind}

theorem getLast?_cons_of_ne {α : Type} {x y : α} {xs : List α} (h : xs ≠ []) :
    (x :: xs).getLast? = (y :: xs).getLast? := by
  obtain ⟨z, zs, rfl⟩ := List.exists_cons_of_ne_nil h
  rw [List.getLast?_cons_cons, List.getLast?_cons_cons]

theorem mem_dropLast_cons {α : Type} {x y z : α} {xs : List α} (h : z ∈ (x :: xs).dropLast) :
    z = x ∨ z ∈ (y :: xs).dropLast := by
  cases xs with
  | nil => cases h
  | cons w ws =>
    rw [List.dropLast_cons_cons] at h ⊢
    exact (List.mem_cons.1 h).imp_right (List.mem_cons_of_mem y)

theorem done_congr {q' : Req} (h : q'.events = q.events) : q'.Done ↔ q.Done := by
  unfold Req.Done
  rw [h]

/-- The requests are equally far with their data. -/
structure SameData (q q' : Req) : Prop where
  sent : q'.sent = q.sent
  arrived : q'.arrived = q.arrived
  blocked : q'.blocked = q.blocked
  cancelled : q'.cancelled = q.cancelled
  pending : q'.pending = q.pending
  sees : q'.sees = q.sees

theorem SameData.draining {q' : Req} (h : SameData q q') {todo : List Msg} (hd : Draining q todo) :
    Draining q' todo := by
  obtain ⟨pre, hpre, hseen⟩ := hd.split
  have hs : q'.seen = q.seen := by
    unfold Req.seen
    rw [h.sees]
  refine ⟨h.blocked.trans hd.blocked, ⟨pre, h.pending.trans hpre, by rw [hs, hseen]⟩, ?_, fun hc => ?_⟩
  · rw [hs]
    exact hd.one
  · rw [hs, h.sent, h.arrived]
    exact hd.all (h.cancelled ▸ hc)

theorem SameData.phase {q' : Req} (h : SameData q q') {ts : List (Option (List Msg))}
    (hp : Phase q ts) : Phase q' ts := by
  have hs : q'.seen = q.seen := by
    unfold Req.seen
    rw [h.sees]
  unfold Phase at hp ⊢
  split at hp
  · refine ⟨h.blocked.trans hp.blocked, ?_, fun hc => ?_⟩
    · rw [hs, h.pending]
      exact hp.pending
    · rw [h.sent, h.arrived]
      exact hp.all (h.cancelled ▸ hc)
  · rw [h.pending]
    exact h.draining hp
  · rw [hs]
    exact ⟨h.draining hp.1, hp.2⟩
  · exact hp.elim

/-- The callback for the completion is called. -/
theorem Completion.complete (h : Completion q listed ks) (hl : ¬ listed) (hs : q.statusMsg = true)
    (hb : q.blocked = false) (hd : ¬ q.Done) {ks' : List Kind} (hclean : Clean ks')
    (hphase : Phase q (todos ks')) (hsaves : saves ks' = []) {cb : Option CompleteCb}
    (hcb : ks' = [] ∨ cb ≠ some .user) (ret : UInt32) :
    ReqOk { q with completeCb := cb, events := q.events ++ [.complete ret] } listed ks' := by
  have hsent : Req.sent { q with completeCb := cb, events := q.events ++ [.complete ret] } = q.sent :=
    sent_complete q ret
  have hdone : Req.Done { q with completeCb := cb, events := q.events ++ [.complete ret] } :=
    ⟨ret, List.mem_append_right _ (List.mem_singleton_self _)⟩
  refine ⟨⟨?_, .inr ⟨ret, ?_⟩, fun h => absurd h hl, fun _ => ⟨hs, hb, ?_⟩, ?_,
    fun hnot => absurd hdone hnot, hclean⟩, fun _ _ hnot => absurd hdone hnot, ?_⟩
  · rw [hsent]
    exact h.order
  · rw [hsent, ← h.events_eq hd]
  · rw [hsaves]
    refine hcb.imp_right fun hne hmem => hne ?_
    exact (List.mem_singleton.1 hmem).symm
  · rw [hsaves]
    rintro x ⟨⟩
  · exact SameData.phase ⟨hsent, rfl, rfl, rfl, rfl, rfl⟩ hphase

/-- `ubus_req_complete_cb` for a request with a status that is not on the list, when no data callback
    runs; a request that is complete has no callback left. -/
theorem Completion.reqComplete (h : Completion q listed ks) (hl : ¬ listed) (hs : q.statusMsg = true)
    (hb : q.blocked = false) (hdone : q.Done → some .user ∉ q.completeCb :: saves ks)
    (hphase : Phase q (todos ks)) : ReqOk q.reqComplete listed ks := by
  unfold Req.reqComplete
  cases hcb : q.completeCb with
  | none =>
    refine ⟨h, fun _ _ hd hcompletes hnil => ?_, hphase⟩
    have := h.user hd
    rw [hcb, hnil, hcompletes] at this
    cases this
  | some cb =>
    cases cb with
    | user =>
      have hd : ¬ q.Done := fun hd => hdone hd (hcb ▸ List.mem_cons_self)
      have hsaves : saves ks = [] := by
        by_contra hne
        refine h.saved (some .user) ?_ rfl
        rw [hcb, List.dropLast_cons_of_ne_nil hne]
        exact List.mem_cons_self
      exact h.complete hl hs hb hd h.clean hphase hsaves (.inr (by simp)) q.statusCode
    | sync =>
      set q' : Req := { q with completeCb := none, statusMsg := true, statusCode := q.statusCode }
        with hq'
      have hsame : SameData q q' := ⟨rfl, rfl, rfl, rfl, rfl, rfl⟩
      have hne : ¬ q.Done → saves ks ≠ [] := by
        intro hd hnil
        have := h.user hd
        rw [hcb, hnil] at this
        split_ifs at this
        · cases this
        · cases this
      show ReqOk q' listed ks
      refine ⟨⟨h.order, h.last, fun h => absurd h hl, fun hd => ⟨rfl, hb, .inr ?_⟩, fun x hx => ?_,
        fun hd => ?_, h.clean⟩, fun _ _ hd _ => hne hd, hsame.phase hphase⟩
      · have := hdone hd
        rw [hcb, List.mem_cons, not_or] at this
        rw [List.mem_cons, not_or]
        exact ⟨by simp, this.2⟩
      · rcases mem_dropLast_cons (y := q.completeCb) hx with rfl | hx
        · simp
        · exact h.saved x hx
      · rw [getLast?_cons_of_ne (y := q.completeCb) (hne hd)]
        exact h.user hd

/-- `ubus_set_req_status` -/
theorem ReqOk.setStatus (h : ReqOk q listed ks)
    (hdone : q.Done → some .user ∉ q.completeCb :: saves ks) (ret : UInt32) :
    ReqOk (q.setStatus ret) False ks ∧ (q.setStatus ret).statusMsg = true := by
  have hc := h.completion
  have hc' : Completion { q with statusMsg := true, statusCode := ret } False ks :=
    ⟨hc.order, hc.last, False.elim, fun hd => ⟨rfl, (hc.done hd).2⟩, hc.saved, hc.user, hc.clean⟩
  have hsame : SameData q { q with statusMsg := true, statusCode := ret } :=
    ⟨rfl, rfl, rfl, rfl, rfl, rfl⟩
  unfold Req.setStatus
  dsimp only
  split_ifs with hb
  · exact ⟨⟨hc', fun _ hb' => absurd (hb'.symm.trans hb) (by decide), hsame.phase h.phase⟩, rfl⟩
  · refine ⟨hc'.reqComplete id rfl (Bool.eq_false_iff.2 hb) hdone (hsame.phase h.phase), ?_⟩
    unfold Req.reqComplete
    dsimp only
    split
    · rfl
    · rename_i cb _
      cases cb <;> rfl

theorem clean_sync {cb : Option CompleteCb} (h : Clean (.sync cb :: ks)) :
    todos ks = [] ∧ (saves ks = [] → ks = []) := by
  have hsync := h.1 ⟨cb, rfl⟩
  refine ⟨List.filterMap_eq_nil_iff.2 fun k hk => ?_, fun hnil => List.eq_nil_iff_forall_not_mem.2
    fun k hk => ?_⟩
  · obtain ⟨cb', rfl⟩ := hsync k hk
    rfl
  · obtain ⟨cb', rfl⟩ := hsync k hk
    have := List.filterMap_eq_nil_iff.1 hnil _ hk
    cases this

/-- The end of `ubus_complete_request`. -/
theorem ReqOk.syncDone {cb : Option CompleteCb} (h : ReqOk q listed (.sync cb :: ks))
    (hs : q.statusMsg = true) : ReqOk (q.syncDone cb) listed ks := by
  have hc := h.completion
  have hl : ¬ listed := fun hl => by
    rw [(hc.listed hl).1] at hs
    cases hs
  obtain ⟨htodos, hbottom⟩ := clean_sync hc.clean
  have hphase : Phase q (todos ks) := by
    have := h.phase
    rwa [show todos (.sync cb :: ks) = todos ks from rfl] at this
  have hb : q.blocked = false := by
    rw [htodos] at hphase
    exact hphase.blocked
  have hsaves : saves (.sync cb :: ks) = cb :: saves ks := rfl
  have hdrop : (q.completeCb :: cb :: saves ks).dropLast = q.completeCb :: (cb :: saves ks).dropLast :=
    List.dropLast_cons_cons
  have hdone := hc.done
  have hsaved := hc.saved
  have huser := hc.user
  rw [hsaves] at hdone hsaved huser
  rw [hdrop] at hsaved
  rw [List.getLast?_cons_cons] at huser
  have hnot : q.Done → some .user ∉ q.completeCb :: cb :: saves ks := fun hd =>
    (hdone hd).2.2.resolve_left (List.cons_ne_nil _ _)
  -- unless the user's callback is put back, it is farther out
  have hkeep : ∀ q' : Req, q'.completeCb = cb → SameData q q' → q'.events = q.events →
      q'.statusMsg = true → q'.completes = q.completes → cb ≠ some .user → ReqOk q' listed ks := by
    intro q' hcb' hsame hevents hs' hcompletes hne
    have hd' : q'.Done ↔ q.Done := done_congr hevents
    refine ⟨⟨?_, ?_, fun h => absurd h hl, fun hd => ⟨hs', hsame.blocked.trans hb, .inr ?_⟩, ?_, ?_,
      hc.clean.2⟩, fun _ _ hd hcomp hnil => ?_, hsame.phase hphase⟩
    · rw [hsame.sent, hsame.arrived]
      exact hc.order
    · rw [hd', hevents, hsame.sent]
      exact hc.last
    · rw [hcb']
      exact fun hmem => hnot (hd'.1 hd) (List.mem_cons_of_mem _ hmem)
    · rw [hcb']
      exact fun x hx => hsaved x (List.mem_cons_of_mem _ hx)
    · intro hd
      rw [hcb', hcompletes]
      exact huser (fun h => hd (hd'.2 h))
    · have := huser fun h => hd (hd'.2 h)
      rw [hnil, ← hcompletes, hcomp] at this
      exact hne (Option.some.inj this)
  unfold Req.syncDone
  cases cb with
  | none => exact hkeep _ rfl ⟨rfl, rfl, rfl, rfl, rfl, rfl⟩ rfl hs rfl (by simp)
  | some cb =>
    cases cb with
    | sync => exact hkeep _ rfl ⟨rfl, rfl, rfl, rfl, rfl, rfl⟩ rfl rfl rfl (by simp)
    | user =>
      have hd : ¬ q.Done := fun hd =>
        hnot hd (List.mem_cons_of_mem _ List.mem_cons_self)
      have hnil : saves ks = [] := by
        by_contra hne
        refine hsaved (some .user) (List.mem_cons_of_mem _ ?_) rfl
        rw [List.dropLast_cons_of_ne_nil hne]
        exact List.mem_cons_self
      exact hc.complete hl hs hb hd hc.clean.2 hphase hnil (.inl (hbottom hnil)) q.statusCode

end

/-! ## One request at a time -/

/-- Nothing but the request `r` is changed. -/
structure Touches (r : ℕ) (c c' : Ctx) : Prop where
  count : c'.count = c.count
  req : ∀ r', r' ≠ r → c'.req r' = c.req r'
  requests : ∀ r', r' ≠ r → (r' ∈ c'.requests ↔ r' ∈ c.requests)
  kinds : ∀ r', r' ≠ r → c'.kinds r' = c.kinds r'

section
variable {c c' c'' : Ctx} {r : ℕ}

theorem Touches.trans (h : Touches r c c') (h' : Touches r c' c'') : Touches r c c'' where
  count := h'.count.trans h.count
  req := fun r' hr' => (h'.req r' hr').trans (h.req r' hr')
  requests := fun r' hr' => (h'.requests r' hr').trans (h.requests r' hr')
  kinds := fun r' hr' => (h'.kinds r' hr').trans (h.kinds r' hr')

theorem touches_mod (f : Req → Req) : Touches r c (c.mod r f) :=
  ⟨rfl, fun _ hr' => Function.update_of_ne hr' .., fun _ _ => Iff.rfl, fun _ _ => rfl⟩

theorem touches_push (k : Kind) : Touches r c (c.push r k) :=
  ⟨rfl, fun _ _ => rfl, fun _ _ => Iff.rfl, fun r' hr' => by simp [Ctx.kinds, Ctx.push, hr'.symm]⟩

theorem touches_pop {k : Kind} {frames : List Frame} (h : c.frames = ⟨r, k⟩ :: frames) :
    Touches r c { c with frames := frames } :=
  ⟨rfl, fun _ _ => rfl, fun _ _ => Iff.rfl, fun r' hr' => by simp [Ctx.kinds, h, hr'.symm]⟩

theorem touches_unlist : Touches r c (c.unlist r) :=
  ⟨rfl, fun _ _ => rfl, fun r' hr' => by
    unfold Ctx.unlist
    rw [List.mem_filter]
    exact ⟨And.left, fun h => ⟨h, decide_eq_true hr'⟩⟩, fun _ _ => rfl⟩

theorem not_mem_unlist : r ∉ (c.unlist r).requests := fun h =>
  of_decide_eq_true (List.mem_filter.1 h).2 rfl

@[simp] theorem kinds_push (k : Kind) : (c.push r k).kinds r = k :: c.kinds r := by
  simp [Ctx.kinds, Ctx.push]

theorem kinds_pop {k : Kind} {frames : List Frame} (h : c.frames = ⟨r, k⟩ :: frames) :
    c.kinds r = k :: Ctx.kinds { c with frames := frames } r := by
  simp [Ctx.kinds, h]

@[simp] theorem push_req (k : Kind) : (c.push r k).req = c.req := rfl

@[simp] theorem push_requests (k : Kind) : (c.push r k).requests = c.requests := rfl

@[simp] theorem mod_requests (f : Req → Req) : (c.mod r f).requests = c.requests := rfl

@[simp] theorem unlist_req : (c.unlist r).req = c.req := rfl

@[simp] theorem kinds_unlist : (c.unlist r).kinds = c.kinds := rfl

@[simp] theorem kinds_mod (r' : ℕ) (f : Req → Req) : (c.mod r' f).kinds r = c.kinds r := rfl

/-- One request was changed, and it is well again. -/
theorem Inv.touches (h : Inv c) (ht : Touches r c c') (hlive : c'.freed = false) (hr : r < c.count)
    (hok : ReqOk (c'.req r) (r ∈ c'.requests) (c'.kinds r)) : Inv c' where
  live := hlive
  fresh := fun r' hr' => by
    rw [ht.count] at hr'
    rw [ht.requests r' (by omega), ht.kinds r' (by omega)]
    exact h.fresh r' hr'
  req := fun r' => by
    by_cases heq : r' = r
    · exact heq ▸ hok
    · rw [ht.req r' heq, ht.kinds r' heq, propext (ht.requests r' heq)]
      exact h.req r'

theorem Inv.lt_of_listed (h : Inv c) (hr : r ∈ c.requests) : r < c.count := by
  by_contra hge
  exact (h.fresh r (not_lt.1 hge)).1 hr

theorem Inv.lt_of_top (h : Inv c) {k : Kind} {frames : List Frame} (hf : c.frames = ⟨r, k⟩ :: frames) :
    r < c.count := by
  by_contra hge
  have := (h.fresh r (not_lt.1 hge)).2
  rw [kinds_pop hf] at this
  cases this

end

/-! ## Giving out data -/

section
variable {q : Req} {listed : Prop} {ks : List Kind} {m : Msg}

theorem seen_cons_pos (h : q.sees m = true) (ms : List Msg) : q.seen (m :: ms) = m :: q.seen ms :=
  List.filter_cons_of_pos h

theorem seen_cons_neg (h : ¬ q.sees m = true) (ms : List Msg) : q.seen (m :: ms) = q.seen ms :=
  List.filter_cons_of_neg h

theorem Completion.dataCb (h : Completion q listed ks) (hb : q.blocked = true)
    (horder : q.sent ++ [m] <+: q.arrived) (todo : Option (List Msg)) :
    Completion { q with events := q.events ++ [.data m] } listed (.data todo :: ks) := by
  have hd := h.not_done_of_blocked hb
  have hd' : ¬ Req.Done { q with events := q.events ++ [.data m] } := by
    rintro ⟨ret, hret⟩
    rcases List.mem_append.1 hret with hret | hret
    · exact hd ⟨ret, hret⟩
    · cases List.mem_singleton.1 hret
  have hsent := sent_data q m
  refine ⟨?_, .inl ⟨hd', ?_⟩, h.listed, fun hd => absurd hd hd', h.saved, fun _ => h.user hd,
    fun ⟨_, hk⟩ => ?_, h.clean⟩
  · rw [hsent]
    exact horder
  · rw [hsent, List.map_append, ← h.events_eq hd]
    rfl
  · cases hk

end

section
variable {c : Ctx} {r : ℕ}

/-- The list is gone through up to the next callback, or to its end. -/
theorem processReqData_ok {todo : List Msg} (hlive : c.freed = false)
    (hc : Completion (c.req r) (r ∈ c.requests) (c.kinds r)) (htodos : todos (c.kinds r) = [])
    (hd : Draining (c.req r) todo) :
    let c' := processReqData r todo c
    Touches r c c' ∧ c'.freed = false ∧ ReqOk (c'.req r) (r ∈ c'.requests) (c'.kinds r) := by
  induction todo generalizing c with
  | nil =>
    have hnot := hc.not_done_of_blocked hd.blocked
    obtain ⟨pre, hpre, hseen⟩ := hd.split
    rw [List.append_nil] at hpre
    set q := { c.req r with blocked := false } with hq
    have hidle : Idle q := by
      refine ⟨rfl, ?_, fun hcancel => ?_⟩
      · rw [hq]
        dsimp only
        rw [hpre]
        exact hseen
      · have := hd.all hcancel
        rwa [show (c.req r).seen [] = [] from rfl, List.append_nil] at this
    have hphase : Phase q (todos (c.kinds r)) := by
      rw [htodos]
      exact hidle
    have hc' : Completion q (r ∈ c.requests) (c.kinds r) :=
      ⟨hc.order, hc.last, hc.listed, fun hdone => absurd hdone hnot, hc.saved, hc.user, hc.clean⟩
    unfold processReqData
    dsimp only
    rw [mod_req]
    split_ifs with hs
    · rw [ubusReqCompleteCb_eq, mod_mod]
      refine ⟨touches_mod _, hlive, ?_⟩
      rw [mod_req, kinds_mod]
      refine hc'.reqComplete (fun hl => ?_) hs rfl (fun hdone => absurd hdone hnot) hphase
      have := (hc.listed hl).1
      rw [hs] at this
      cases this
    · refine ⟨touches_mod _, hlive, ?_⟩
      rw [mod_req, kinds_mod]
      exact ⟨hc', fun hs' => absurd hs' hs, hphase⟩
  | cons m todo ih =>
    obtain ⟨pre, hpre, hseen⟩ := hd.split
    have hnext : (c.req r).pending.take ((c.req r).pending.length - (todo.length + 1)) ++ todo =
        pre ++ todo := by
      rw [hpre]
      simp
    unfold processReqData
    dsimp only
    rw [if_neg (not_not.2 ⟨pre, hpre.symm⟩)]
    obtain ⟨c₁, hc₁⟩ : ∃ c₁, c₁ = c.mod r fun q =>
      { q with pending := q.pending.take (q.pending.length - (todo.length + 1)) ++ todo } := ⟨_, rfl⟩
    have hq : c₁.req r = { c.req r with pending := pre ++ todo } := by rw [hc₁, mod_req, hnext]
    have ht₁ : Touches r c c₁ := hc₁ ▸ touches_mod _
    have hlive₁ : c₁.freed = false := hc₁ ▸ hlive
    have hc' : Completion (c₁.req r) (r ∈ c₁.requests) (c₁.kinds r) := by
      rw [hq, hc₁]
      exact ⟨hc.order, hc.last, hc.listed, hc.done, hc.saved, hc.user, hc.clean⟩
    have htodos₁ : todos (c₁.kinds r) = [] := hc₁ ▸ htodos
    rw [← hc₁]
    split_ifs with hcall
    · obtain ⟨hcancel, hsees⟩ := hcall
      have hall := hd.all (Bool.eq_false_iff.2 hcancel)
      have hone := hd.one
      rw [seen_cons_pos hsees] at hall hone
      have hrest : (c.req r).seen todo = [] := List.eq_nil_of_length_eq_zero (by simpa using hone)
      rw [hrest] at hall
      unfold reqDataCb
      refine ⟨ht₁.trans ((touches_mod _).trans (touches_push _)), hlive₁, ?_⟩
      rw [kinds_push, kinds_mod, push_req, push_requests, mod_req, mod_requests]
      have hb : (c₁.req r).blocked = true := by
        rw [hq]
        exact hd.blocked
      have horder : (c₁.req r).sent ++ [m] <+: (c₁.req r).arrived := by
        rw [hq]
        exact ⟨[], by rw [List.append_nil]; exact hall⟩
      refine ⟨hc'.dataCb hb horder _, fun _ hb' => absurd (hb'.symm.trans hb) (by decide), ?_⟩
      show Phase _ (some todo :: todos (c₁.kinds r))
      rw [htodos₁, hq]
      refine ⟨⟨hd.blocked, ⟨pre, rfl, hseen⟩, ?_, fun _ => ?_⟩, hrest⟩
      · show ((c.req r).seen todo).length ≤ 1
        rw [hrest]
        exact Nat.zero_le _
      · show Req.sent { (c.req r) with events := (c.req r).events ++ [.data m] } ++
          (c.req r).seen todo = _
        rw [sent_data, hrest, List.append_nil]
        exact hall
    · have hskip : (c.req r).cancelled = false → (c.req r).seen (m :: todo) = (c.req r).seen todo :=
        fun hcancel => seen_cons_neg (fun hsees => hcall ⟨by rw [hcancel]; decide, hsees⟩) todo
      have hone : ((c.req r).seen todo).length ≤ 1 :=
        ((List.Sublist.filter _ (List.sublist_cons_self m todo)).length_le).trans hd.one
      have hd' : Draining (c₁.req r) todo := by
        rw [hq]
        refine ⟨hd.blocked, ⟨pre, rfl, hseen⟩, hone, fun hcancel => ?_⟩
        have := hd.all hcancel
        rwa [hskip hcancel] at this
      obtain ⟨ht, hfreed, hok⟩ := ih hlive₁ hc' htodos₁ hd'
      exact ⟨ht₁.trans ht, hfreed, hok⟩

/-- Data for a request on the list. -/
theorem Inv.processReqData (h : Inv c) (hr : r ∈ c.requests) {m : Msg} {alloc : Bool}
    (hfits : (c.req r).blocked = true → (c.req r).sees m = true →
      alloc = true ∧ (∀ todo, Kind.data (some todo) ∉ c.kinds r) ∧
        ∀ m' ∈ (c.req r).pending, (c.req r).sees m' = false) :
    Inv (ubusProcessReqData alloc r m c) := by
  obtain ⟨hc, htimely, hphase⟩ := h.req r
  obtain ⟨hstatus, hcancel⟩ := hc.listed hr
  have hnot := hc.not_done_of_listed hr
  have hlt := h.lt_of_listed hr
  set q := c.req r with hq
  -- the message has arrived
  obtain ⟨arrived, harrived⟩ : ∃ l, l = q.arrived ++ if q.sees m then [m] else [] := ⟨_, rfl⟩
  have horder : q.sent <+: arrived := harrived ▸ hc.order.trans (List.prefix_append _ _)
  have hcomp : ∀ pending b, Completion { q with arrived := arrived, pending := pending, blocked := b }
      (r ∈ c.requests) (c.kinds r) := fun pending b =>
    ⟨horder, hc.last, hc.listed, fun hd => absurd hd hnot, hc.saved, hc.user, hc.clean⟩
  unfold ubusProcessReqData
  dsimp only
  rw [← hq]
  cases hb : q.blocked with
  | false =>
    obtain ⟨htodos, hidle⟩ : todos (c.kinds r) = [] ∧ Idle q := by
      unfold Phase at hphase
      split at hphase
      · exact ⟨‹_›, hphase⟩
      · exact absurd (hb.symm.trans hphase.blocked) (by decide)
      · exact absurd (hb.symm.trans hphase.1.blocked) (by decide)
      · exact hphase.elim
    have hall := hidle.all hcancel
    rw [if_pos (by decide), mod_mod]
    set c₁ := c.mod r fun q => { q with
      arrived := q.arrived ++ (if q.sees m then [m] else []), blocked := true } with hc₁
    have hq₁ : c₁.req r = { q with arrived := arrived, blocked := true } := by
      rw [hc₁, mod_req, harrived]
    have hcomp₁ : Completion (c₁.req r) (r ∈ c₁.requests) (c₁.kinds r) := by
      rw [hq₁]
      exact hcomp q.pending true
    split_ifs with hsees
    · rw [if_pos hsees] at harrived
      unfold reqDataCb
      refine h.touches ((touches_mod _).trans ((touches_mod _).trans (touches_push _))) h.live hlt ?_
      rw [kinds_push, kinds_mod, push_req, push_requests, mod_req, mod_requests]
      have hb₁ : (c₁.req r).blocked = true := by rw [hq₁]
      have hsent : (c₁.req r).sent ++ [m] = (c₁.req r).arrived := by
        rw [hq₁]
        show q.sent ++ [m] = arrived
        rw [hall, harrived]
      refine ⟨hcomp₁.dataCb hb₁ ⟨[], by rw [List.append_nil, hsent]⟩ none,
        fun _ hb' => absurd (hb'.symm.trans hb₁) (by decide), ?_⟩
      show Phase _ (none :: todos (c.kinds r))
      rw [htodos]
      have hseen : (c₁.req r).seen (c₁.req r).pending = [] := by
        rw [hq₁]
        exact hidle.pending
      refine ⟨hb₁, ⟨[], rfl, rfl⟩, ?_, fun _ => ?_⟩
      · show ((c₁.req r).seen (c₁.req r).pending).length ≤ 1
        rw [hseen]
        exact Nat.zero_le _
      · show Req.sent { (c₁.req r) with events := (c₁.req r).events ++ [.data m] } ++
          (c₁.req r).seen (c₁.req r).pending = _
        rw [sent_data, hseen, List.append_nil, hsent]
    · rw [if_neg hsees, List.append_nil] at harrived
      have hd : Draining (c₁.req r) q.pending := by
        rw [hq₁]
        refine ⟨rfl, ⟨[], rfl, rfl⟩, ?_, fun _ => ?_⟩
        · show (q.seen q.pending).length ≤ 1
          rw [hidle.pending]
          exact Nat.zero_le _
        · show q.sent ++ q.seen q.pending = arrived
          rw [hidle.pending, List.append_nil, hall, harrived]
      obtain ⟨ht, hlive, hok⟩ := processReqData_ok (c := c₁) h.live hcomp₁ htodos hd
      exact h.touches ((touches_mod _).trans ht) hlive hlt hok
  | true =>
    rw [if_neg (by decide)]
    -- the message is added to the list, if there is memory
    have hkeep : ∀ pending, Phase { q with arrived := arrived, pending := pending } (todos (c.kinds r)) →
        ReqOk { q with arrived := arrived, pending := pending } (r ∈ c.requests) (c.kinds r) := by
      intro pending hph
      exact ⟨hcomp pending q.blocked, fun hs => absurd (hs.symm.trans hstatus) (by decide), hph⟩
    have hout : ∀ f : Req → Req, ∀ pending, f q = { q with arrived := arrived, pending := pending } →
        Phase { q with arrived := arrived, pending := pending } (todos (c.kinds r)) → Inv (c.mod r f) := by
      intro f pending hf hph
      refine h.touches (touches_mod _) h.live hlt ?_
      rw [mod_req, mod_requests, kinds_mod, ← hq, hf]
      exact hkeep pending hph
    by_cases hsees : q.sees m = true
    · obtain ⟨halloc, hfirst, hnone⟩ := hfits hb hsees
      rw [if_pos halloc, mod_mod]
      refine hout _ (m :: q.pending) (by rw [harrived]) ?_
      have hseen : q.seen q.pending = [] := List.filter_eq_nil_iff.2 fun m' hm' => by
        rw [hnone m' hm']
        decide
      rw [if_pos hsees] at harrived
      unfold Phase at hphase
      split at hphase
      · exact absurd (hb.symm.trans hphase.blocked) (by decide)
      · rename_i heq
        rw [heq]
        have hall := hphase.all hcancel
        rw [hseen, List.append_nil] at hall
        have hnew : q.seen (m :: q.pending) = [m] := by rw [seen_cons_pos hsees, hseen]
        refine ⟨hb, ⟨[], rfl, rfl⟩, ?_, fun _ => ?_⟩
        · show (q.seen (m :: q.pending)).length ≤ 1
          rw [hnew]
          exact le_rfl
        · show q.sent ++ q.seen (m :: q.pending) = arrived
          rw [hnew, hall, harrived]
      · rename_i todo heq
        refine absurd ?_ (hfirst todo)
        have hmem : some todo ∈ todos (c.kinds r) := heq ▸ List.mem_singleton_self _
        obtain ⟨k, hk, hk'⟩ := List.mem_filterMap.1 hmem
        cases k with
        | data t =>
          obtain rfl := Option.some.inj hk'
          exact hk
        | status => cases hk'
        | sync cb => cases hk'
      · exact hphase.elim
    · rw [if_neg hsees, List.append_nil] at harrived
      have hsame : Phase { q with arrived := arrived, pending := q.pending } (todos (c.kinds r)) := by
        rw [harrived]
        exact hphase
      have hadd : Phase { q with arrived := arrived, pending := m :: q.pending }
          (todos (c.kinds r)) := by
        rw [harrived]
        have hseen : q.seen (m :: q.pending) = q.seen q.pending := seen_cons_neg hsees _
        unfold Phase at hphase ⊢
        split at hphase
        · exact absurd (hb.symm.trans hphase.blocked) (by decide)
        · refine ⟨hb, ⟨[], rfl, rfl⟩, ?_, fun hcan => ?_⟩
          · show (q.seen (m :: q.pending)).length ≤ 1
            rw [hseen]
            exact hphase.one
          · show q.sent ++ q.seen (m :: q.pending) = q.arrived
            rw [hseen]
            exact hphase.all hcan
        · rename_i todo _
          obtain ⟨⟨-, ⟨pre, hpre, hpre'⟩, hone, hall⟩, hnil⟩ := hphase
          refine ⟨⟨hb, ⟨m :: pre, ?_, ?_⟩, hone, hall⟩, hnil⟩
          · show m :: q.pending = _
            rw [hpre, List.cons_append]
          · show q.seen (m :: pre) = []
            rw [seen_cons_neg hsees, hpre']
        · exact hphase.elim
      split_ifs
      · rw [mod_mod]
        exact hout _ _ (by rw [harrived]; simp [hsees]) hadd
      · exact hout _ _ (by rw [harrived]; simp [hsees]) hsame

/-- Fields that do not matter here. -/
theorem Inv.mod_peer (h : Inv c) (hr : r < c.count) (f : Req → UInt32) (g : Req → List (ℕ × UInt32)) :
    Inv (c.mod r fun q => { q with peer := f q, waiting := g q }) := by
  obtain ⟨hc, htimely, hphase⟩ := h.req r
  refine h.touches (touches_mod _) h.live hr ?_
  rw [mod_req, mod_requests, kinds_mod]
  have hsame : SameData (c.req r) { c.req r with peer := f (c.req r), waiting := g (c.req r) } :=
    ⟨rfl, rfl, rfl, rfl, rfl, rfl⟩
  exact ⟨⟨hc.order, hc.last, hc.listed, hc.done, hc.saved, hc.user, hc.clean⟩, htimely,
    hsame.phase hphase⟩

theorem Inv.setReqStatus (h : Inv c) (hr : r < c.count)
    (hdone : (c.req r).Done → some .user ∉ (c.req r).completeCb :: saves (c.kinds r)) (ret : UInt32) :
    Inv (ubusSetReqStatus r ret c) := by
  rw [ubusSetReqStatus_eq]
  refine h.touches (touches_unlist.trans (touches_mod _)) h.live hr ?_
  rw [mod_req, mod_requests, kinds_mod, eq_false not_mem_unlist]
  exact ((h.req r).setStatus hdone ret).1

theorem Inv.notifyDone (h : Inv c) (hr : r < c.count)
    (hdone : (c.req r).Done → some .user ∉ (c.req r).completeCb :: saves (c.kinds r)) :
    Inv (notifyDone r c) := by
  unfold ReqData.notifyDone
  split_ifs
  · exact h.setReqStatus hr hdone 0
  · exact h

theorem Inv.done_of_listed (h : Inv c) (hr : r ∈ c.requests) :
    (c.req r).Done → some .user ∉ (c.req r).completeCb :: saves (c.kinds r) := fun hd =>
  absurd hd ((h.req r).completion.not_done_of_listed hr)

/-! ## The steps -/

theorem Inv.start (h : Inv c) (p : Start) : Inv (ubusStartRequest p c) := by
  obtain ⟨hlisted, hkinds⟩ := h.fresh c.count le_rfl
  refine ⟨h.live, fun r hr => h.fresh r (Nat.le_of_succ_le hr), fun r => ?_⟩
  by_cases heq : r = c.count
  · subst heq
    show ReqOk (Function.update c.req c.count _ c.count) (c.count ∈ c.requests) (c.kinds c.count)
    rw [Function.update_self, hkinds]
    refine ⟨⟨List.prefix_rfl, .inl ⟨?_, rfl⟩, fun hl => absurd hl hlisted, ?_, ?_, fun _ => rfl, trivial⟩,
      fun hs => (by cases hs), rfl, rfl, fun _ => rfl⟩
    · rintro ⟨_, hret⟩
      cases hret
    · rintro ⟨_, hret⟩
      cases hret
    · rintro x ⟨⟩
  · show ReqOk (Function.update c.req c.count _ r) (r ∈ c.requests) (c.kinds r)
    rw [Function.update_of_ne heq]
    exact h.req r

theorem Inv.completeAsync (h : Inv c) (hr : r < c.count)
    (hfits : (c.req r).statusMsg = false ∧ (c.req r).cancelled = false) :
    Inv (ubusCompleteRequestAsync r c) := by
  unfold ubusCompleteRequestAsync
  split_ifs with hl
  · exact h
  · obtain ⟨hc, htimely, hphase⟩ := h.req r
    refine h.touches ⟨rfl, fun _ _ => rfl, fun r' hr' => ?_, fun _ _ => rfl⟩ h.live hr ?_
    · rw [List.mem_cons]
      exact ⟨fun h => h.resolve_left hr', .inr⟩
    · exact ⟨⟨hc.order, hc.last, fun _ => hfits, hc.done, hc.saved, hc.user, hc.clean⟩, htimely, hphase⟩

theorem Inv.completeRequest (h : Inv c) (hr : r < c.count)
    (hfits : (c.req r).statusMsg = false ∧ (c.req r).cancelled = false)
    (hsync : ∀ k ∈ c.kinds r, ∃ cb, k = .sync cb) : Inv (ubusCompleteRequest r c) := by
  have hsame : (ubusCompleteRequestAsync r c).req = c.req ∧
      (ubusCompleteRequestAsync r c).kinds r = c.kinds r ∧
      (ubusCompleteRequestAsync r c).count = c.count := by
    unfold ubusCompleteRequestAsync
    split_ifs <;> exact ⟨rfl, rfl, rfl⟩
  obtain ⟨hreq, hkinds, hcount⟩ := hsame
  have h₁ := h.completeAsync hr hfits
  unfold ubusCompleteRequest
  rw [← hreq]
  set c₁ := ubusCompleteRequestAsync r c
  obtain ⟨hc, htimely, hphase⟩ := h₁.req r
  have hs : (c₁.req r).statusMsg = false := hreq ▸ hfits.1
  have hnot : ¬ (c₁.req r).Done := fun hd => by
    have := (hc.done hd).1
    rw [hs] at this
    cases this
  refine h₁.touches ((touches_push _).trans (touches_mod _)) h₁.live (hcount ▸ hr) ?_
  rw [mod_req, mod_requests, kinds_mod, kinds_push, push_req, push_requests]
  have hsame : SameData (c₁.req r) { c₁.req r with completeCb := some .sync } :=
    ⟨rfl, rfl, rfl, rfl, rfl, rfl⟩
  refine ⟨⟨hc.order, hc.last, hc.listed, fun hd => absurd hd hnot, ?_, fun hd => ?_, ?_, hc.clean⟩,
    fun hs' => absurd (hs'.symm.trans hs) (by decide), hsame.phase hphase⟩
  · show ∀ x ∈ (some CompleteCb.sync :: (c₁.req r).completeCb :: saves (c₁.kinds r)).dropLast, _
    rw [List.dropLast_cons_cons]
    exact List.forall_mem_cons.2 ⟨by simp, hc.saved⟩
  · show (some CompleteCb.sync :: (c₁.req r).completeCb :: saves (c₁.kinds r)).getLast? = _
    rw [List.getLast?_cons_cons]
    exact hc.user hd
  · rw [hkinds]
    exact fun _ => hsync

theorem Inv.abort (h : Inv c) (hfits : ∀ todo, Kind.data (some todo) ∈ c.kinds r → todo = []) :
    Inv (ubusAbortRequest r c) := by
  unfold ubusAbortRequest
  split_ifs with hl
  · obtain ⟨hc, htimely, hphase⟩ := h.req r
    have hs := (hc.listed hl).1
    refine h.touches ((touches_mod _).trans touches_unlist) h.live (h.lt_of_listed hl) ?_
    rw [eq_false not_mem_unlist, unlist_req, mod_req, kinds_unlist, kinds_mod]
    refine ⟨⟨hc.order, hc.last, False.elim, hc.done, hc.saved, hc.user, hc.clean⟩,
      fun hs' => absurd (hs'.symm.trans hs) (by decide), ?_⟩
    unfold Phase at hphase ⊢
    split at hphase
    · exact ⟨hphase.blocked, rfl, fun hcancel => absurd hcancel (by simp)⟩
    · exact ⟨hphase.blocked, ⟨[], rfl, rfl⟩, Nat.zero_le _, fun hcancel => absurd hcancel (by simp)⟩
    · rename_i todo heq
      have hmem : some todo ∈ todos (c.kinds r) := heq ▸ List.mem_singleton_self _
      obtain ⟨k, hk, hk'⟩ := List.mem_filterMap.1 hmem
      obtain rfl : todo = [] := by
        cases k with
        | data t =>
          obtain rfl := Option.some.inj hk'
          exact hfits todo hk
        | status => cases hk'
        | sync cb => cases hk'
      exact ⟨⟨hphase.1.blocked, ⟨[], rfl, rfl⟩, Nat.zero_le _, fun hcancel => absurd hcancel (by simp)⟩,
        rfl⟩
    · exact hphase.elim
  · exact h

theorem Inv.processMsg (h : Inv c) {m : Msg} {alloc : Bool} (hfits : Fits c (.msg m alloc)) :
    Inv (ubusProcessReqMsg alloc m c) := by
  unfold ubusProcessReqMsg
  cases hfind : ubusFindRequest c m.hdr with
  | none => exact h
  | some r =>
    have hl : r ∈ c.requests := List.mem_of_find?_eq_some hfind
    have hr := h.lt_of_listed hl
    have hdone := h.done_of_listed hl
    dsimp only
    split
    · split
      · rename_i id _
        unfold ubusProcessNotifyStatus
        dsimp only
        have h₁ := h.mod_peer hr Req.peer fun q => q.waiting.filter (·.1 ≠ id) ++
          if id = 0 then ((m.attrs.subscribers.getD []).take ubusMaxNotifyPeers).zipIdx.map fun s =>
            (s.2 + 1, s.1)
          else []
        have hd₁ := h₁.done_of_listed (r := r) hl
        set c₁ := c.mod r _
        split_ifs
        · obtain ⟨hc, htimely, hphase⟩ := h₁.req r
          refine h₁.touches (touches_push _) h₁.live hr ?_
          rw [kinds_push, push_req, push_requests]
          exact ⟨⟨hc.order, hc.last, hc.listed, fun hd => absurd hd (hc.not_done_of_listed hl), hc.saved,
            hc.user, fun ⟨_, hk⟩ => (by cases hk), hc.clean⟩, htimely, hphase⟩
        · exact h₁.notifyDone hr hd₁
      · have h₁ := h.mod_peer hr (fun _ => m.hdr.peer) Req.waiting
        exact h₁.setReqStatus hr (h₁.done_of_listed (r := r) hl) _
    · rename_i htype
      split_ifs
      · exact h.processReqData hl (hfits htype r hfind)
      · exact h
    · exact h

theorem Inv.ret (h : Inv c) : Inv (ret c) := by
  unfold ReqData.ret
  cases hf : c.frames with
  | nil => exact h
  | cons f frames =>
    obtain ⟨r, k⟩ := f
    have hr := h.lt_of_top hf
    have hpop := touches_pop hf
    have hkinds := kinds_pop hf
    obtain ⟨hc, htimely, hphase⟩ := h.req r
    set c₁ : Ctx := { c with frames := frames }
    rw [hkinds] at hc htimely hphase
    dsimp only
    cases k with
    | data todo =>
      have hd : todos (c₁.kinds r) = [] ∧ Draining (c.req r) (todo.getD (c.req r).pending) := by
        rw [show todos (.data todo :: c₁.kinds r) = todo :: todos (c₁.kinds r) from rfl] at hphase
        cases ht : todos (c₁.kinds r) with
        | nil =>
          rw [ht] at hphase
          cases todo with
          | none => exact ⟨rfl, hphase⟩
          | some todo => exact ⟨rfl, hphase.1⟩
        | cons t ts =>
          rw [ht] at hphase
          cases todo <;> exact hphase.elim
      have hcomp : Completion (c₁.req r) (r ∈ c₁.requests) (c₁.kinds r) :=
        ⟨hc.order, hc.last, hc.listed, fun hdone => absurd hdone (hc.not_done_of_blocked hd.2.blocked),
          hc.saved, hc.user, hc.clean.2⟩
      obtain ⟨ht, hlive, hok⟩ := processReqData_ok (c := c₁) h.live hcomp hd.1 hd.2
      exact h.touches (hpop.trans ht) hlive hr hok
    | status =>
      have hdone : (c₁.req r).Done → some .user ∉ (c₁.req r).completeCb :: saves (c₁.kinds r) :=
        fun hd => (hc.done hd).2.2.resolve_left (List.cons_ne_nil _ _)
      have h₁ : Inv c₁ := h.touches hpop h.live hr
        ⟨⟨hc.order, hc.last, hc.listed, fun hd => ⟨(hc.done hd).1, (hc.done hd).2.1, .inr (hdone hd)⟩,
          hc.saved, hc.user, hc.clean.2⟩, htimely, hphase⟩
      exact h₁.notifyDone hr hdone
    | sync cb =>
      dsimp only
      split_ifs with hs
      · rw [completeRequestDone_eq]
        refine h.touches (hpop.trans (touches_mod _)) h.live hr ?_
        rw [mod_req, mod_requests, kinds_mod]
        exact ReqOk.syncDone ⟨hc, htimely, hphase⟩ hs
      · exact h

theorem Inv.timeout (h : Inv c) (status : UInt32) : Inv (timeout status c) := by
  unfold ReqData.timeout
  split
  · rename_i r cb frames hf
    have hr := h.lt_of_top hf
    have hok := h.req r
    rw [kinds_pop hf] at hok
    split_ifs with hs
    · exact h
    · have hdone : (c.req r).Done → some .user ∉ (c.req r).completeCb :: saves (c.kinds r) :=
        fun hd => absurd (hok.completion.done hd).1 hs
      obtain ⟨hset, hstatus⟩ := (h.req r).setStatus hdone status
      rw [kinds_pop hf] at hset
      rw [completeRequestDone_eq, ubusSetReqStatus_eq, mod_mod]
      refine h.touches ((touches_pop hf).trans (touches_unlist.trans (touches_mod _))) h.live hr ?_
      rw [mod_req, mod_requests, kinds_mod, eq_false not_mem_unlist]
      exact hset.syncDone hstatus
  · exact h

/-- A step that fits keeps the invariant. -/
theorem Inv.step (h : Inv c) {s : Step} (hfits : Fits c s) : Inv (step c s) := by
  unfold ReqData.step
  rw [if_neg (by rw [h.live]; decide)]
  cases s with
  | start p => exact h.start p
  | completeAsync r =>
    dsimp only
    split_ifs with hr
    · exact h.completeAsync hr hfits
    · exact h
  | complete r =>
    dsimp only
    split_ifs with hr
    · exact h.completeRequest hr ⟨hfits.1, hfits.2.1⟩ hfits.2.2
    · exact h
  | abort r => exact h.abort hfits
  | msg m alloc => exact h.processMsg hfits
  | timeout status => exact h.timeout status
  | ret => exact h.ret

theorem inv_init : Inv {} := by
  refine ⟨rfl, fun r _ => ⟨List.not_mem_nil, rfl⟩, fun r => ⟨⟨List.prefix_rfl, .inl ⟨?_, rfl⟩,
    fun hl => absurd hl List.not_mem_nil, ?_, ?_, fun _ => rfl, trivial⟩, fun hs => (by cases hs),
    rfl, rfl, fun _ => rfl⟩⟩
  · rintro ⟨_, hret⟩
    cases hret
  · rintro ⟨_, hret⟩
    cases hret
  · rintro x ⟨⟩

end

end Ubus.ReqData
