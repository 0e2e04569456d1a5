/-
  Messages between clients through ubusd (ubusd_proto.c), and the requests of libubus that wait for
  their replies (libubus-req.c).

  Clients may send any message at any time. A message on its way to a client is kept with the client
  it was forwarded from, if it was, and with whether the peer in its header was then an object of
  that client.
-/
import IotLib.Ubus.Lookup
import IotLib.Lib.Run

namespace Ubus

/-! ## Messages -/

/-- `enum ubus_msg_type`; other types have no handler. -/
inductive UbusMsgType where
  | hello | status | data | ping | lookup | invoke | addObject | removeObject | subscribe
  | unsubscribe | notify | monitor | other
deriving DecidableEq, Repr

/-- `struct ubus_msghdr` -/
structure MsgHdr where
  type : UbusMsgType
  seq : UInt16
  peer : UInt32
deriving DecidableEq, Repr

/-- The attributes of a message, as `ubus_parse_msg` finds them. -/
structure Attrs where
  status : Option UInt32 := none
  objpath : Option Str := none
  objid : Option UInt32 := none
  method : Option Str := none
  objtype : Option UInt32 := none
  signature : Option (List SigAttr) := none
  data : Option (List UInt8) := none
  target : Option UInt32 := none
  active : Option Bool := none
  noReply : Option Bool := none
  subscribers : Option (List UInt32) := none
  user : Option Str := none
  group : Option Str := none
deriving DecidableEq, Repr

structure Msg where
  hdr : MsgHdr
  attrs : Attrs
deriving DecidableEq, Repr

/-- A message that ubusd sends. `sender` is the client whose message it forwards, and `owned` tells
    whether the peer in the header is then an object of this client. -/
structure Posted where
  dest : Ptr
  msg : Msg
  sender : Option Ptr
  owned : Bool
deriving DecidableEq, Repr

/-- The client owns an object with this id. -/
def Graph.owns (g : Graph) (cl : Ptr) (id : UInt32) : Bool :=
  g.objects.any fun o => (g.obj o).id = id && (g.obj o).client = some cl

/-- ubusd, the lookups that clients wait for, the messages on their way to each client, and
    all that were sent. -/
structure Bus where
  reg : St
  cmdQueue : Ptr → List (Msg × Option Ptr) := fun _ => []
  chan : Ptr → List Posted := fun _ => []
  sent : List Posted := []

/-- `ubus_msg_send`, for a message of ubusd or one that it forwards. -/
def Bus.post (b : Bus) (cl : Ptr) (ub : Msg) (sender : Option Ptr) : Bus :=
  let m : Posted := ⟨cl, ub, sender, sender.any fun c => b.reg.graph.owns c ub.hdr.peer⟩
  { b with
    chan := Function.update b.chan cl (b.chan cl ++ [m])
    sent := b.sent ++ [m] }

/-- The messages of the registry; replies have the sequence number and the peer of the
    message that is answered. -/
def Out.msg (hdr : MsgHdr) : Out → Msg
  | .hello id => ⟨⟨.hello, 0, id⟩, {}⟩
  | .status ret => ⟨⟨.status, hdr.seq, hdr.peer⟩, { status := some (UInt32.ofNat ret) }⟩
  | .data objid objtype =>
    ⟨⟨.data, hdr.seq, hdr.peer⟩, { objid := some objid, objtype := objtype }⟩
  | .notify objid active seq =>
    ⟨⟨.notify, UInt16.ofNat seq, 0⟩, { objid := some objid, active := some active }⟩
  | .unsubscribe objid target seq =>
    ⟨⟨.unsubscribe, UInt16.ofNat seq, 0⟩, { objid := some objid, target := some target }⟩
  | .event objid id seq =>
    ⟨⟨.invoke, UInt16.ofNat seq, 0⟩, { objid := some objid, method := some id }⟩

/-- A change of the registry, with the messages that it sends. -/
def Bus.registry (b : Bus) (hdr : MsgHdr) (reg : St) : Bus :=
  (reg.out.drop b.reg.out.length).foldl (fun b out =>
    match out.1 with
    | none => b
    | some cl => b.post cl (out.2.msg hdr) none) { b with reg := reg }

/-- What the interfaces of ubusd itself read from the data of a message, and the reply of
    the access list interface. -/
structure Parsers where
  evReg : Option (List UInt8) → EvReg
  event : Option (List UInt8) → Option Str
  aclReply : Graph → Ptr → List UInt8

/-- `UBUS_STATUS_INVALID_COMMAND`, `UBUS_STATUS_METHOD_NOT_FOUND` -/
def invalidCommand : ℕ := 1
def methodNotFound : ℕ := 3

section
variable (acls : Acls) (parsers : Parsers) (cl : Ptr) (ub : Msg)

/-! ## The handlers -/

/-- `ubusd_forward_invoke` -/
def ubusdForwardInvoke (o : Ptr) (method : Str) (b : Bus) (noReply : Option Bool) : Bus :=
  let g := b.reg.graph
  match (g.obj o).client with
  | none => b
  | some c =>
    b.post c ⟨⟨.invoke, ub.hdr.seq, (g.cli cl).id⟩,
      { objid := some (g.obj o).id, method := some method, user := some (g.cli cl).cred.user,
        group := some (g.cli cl).cred.group, data := ub.attrs.data, noReply := noReply }⟩ (some cl)

/-- `recv_msg` of the objects of ubusd: events, access list and monitor. -/
def recvMsg (id : UInt32) (method : Str) (b : Bus) : Option ℕ × Bus :=
  if id = 1 then
    if method = "register".toUTF8.toList then
      let r := ubusdAllocEventPattern acls cl (parsers.evReg ub.attrs.data) b.reg
      (some r.1.code, b.registry ub.hdr r.2)
    else if method = "send".toUTF8.toList then
      let r := ubusdForwardEvent acls cl (parsers.event ub.attrs.data) b.reg
      (some r.1.code, b.registry ub.hdr r.2)
    else (some invalidCommand, b)
  else if id = 2 then
    if method = "query".toUTF8.toList then
      match ub.attrs.objid with
      | none => (some Status.invalidArgument.code, b)
      | some objid =>
        match ubusdFindObject b.reg.graph objid with
        | none => (some Status.notFound.code, b)
        | some o => (some 0, b.post cl ⟨⟨.data, ub.hdr.seq, ub.hdr.peer⟩,
            { objid := some (b.reg.graph.obj o).id,
              data := some (parsers.aclReply b.reg.graph cl) }⟩ none)
    else (some invalidCommand, b)
  else
    let cred := (b.reg.graph.cli cl).cred
    if cred.uid ≠ 0 ∨ cred.gid ≠ 0 then (some Status.permissionDenied.code, b)
    else if method = "add".toUTF8.toList ∨ method = "remove".toUTF8.toList then (some 0, b)
    else (some methodNotFound, b)

/-- `ubusd_handle_invoke`; there is no status when the message is forwarded. -/
def ubusdHandleInvoke (b : Bus) : Option ℕ × Bus :=
  match ub.attrs.method, ub.attrs.objid with
  | some method, some id =>
    let g := b.reg.graph
    match ubusdFindObject g id with
    | none => (some Status.notFound.code, b)
    | some o =>
      if ubusdAclCheck acls (some (g.cli cl).cred) (g.obj o).pathKey (some method) .access = false then
        (some Status.permissionDenied.code, b)
      else if (g.obj o).client = none then recvMsg acls parsers cl ub (g.obj o).id method b
      else (none, ubusdForwardInvoke cl ub o method b none)
  | _, _ => (some Status.invalidArgument.code, b)

/-- `ubusd_handle_notify` -/
def ubusdHandleNotify (b : Bus) : Option ℕ × Bus :=
  match ub.attrs.method, ub.attrs.objid with
  | some method, some id =>
    let g := b.reg.graph
    let noReply := ub.attrs.noReply = some true
    match ubusdFindObject g id with
    | none => (some Status.notFound.code, b)
    | some o =>
      if (g.obj o).client ≠ some cl then (some Status.permissionDenied.code, b)
      else
        let subscribers := (g.obj o).subscribers.map fun p => (g.sub p).subscriber
        let b :=
          if noReply then b
          else
            b.post cl ⟨⟨.status, ub.hdr.seq, ub.hdr.peer⟩,
              { objid := some (g.obj o).id, status := some 0,
                subscribers := some (subscribers.map fun s => (g.obj s).id) }⟩ none
        (none, subscribers.foldl (fun b s =>
          ubusdForwardInvoke cl ub s method b (if noReply then some true else none)) b)
  | _, _ => (some Status.invalidArgument.code, b)

/-- `ubusd_get_client_by_id` -/
def ubusdGetClientById (g : Graph) (id : UInt32) : Option Ptr :=
  g.clients.find? fun c => (g.cli c).id = id

/-- `ubusd_handle_response` -/
def ubusdHandleResponse (b : Bus) : Bus :=
  let g := b.reg.graph
  match ub.attrs.objid with
  | none => b
  | some objid =>
    if ub.hdr.type = .status ∧ ub.attrs.status = none then b
    else if ub.hdr.type = .data ∧ ub.attrs.data = none then b
    else
      match ubusdFindObject g objid with
      | none => b
      | some obj =>
        if some cl ≠ (g.obj obj).client then b
        else
          match ubusdGetClientById g ub.hdr.peer with
          | none => b
          | some dest => b.post dest { ub with hdr := { ub.hdr with peer := objid } } (some cl)

/-- `ubusd_send_obj` -/
def sendObj (o : Ptr) (b : Bus) : Bus :=
  let g := b.reg.graph
  match (g.obj o).type with
  | none => b
  | some t =>
    if visible acls cl g o then
      b.post cl ⟨⟨.data, ub.hdr.seq, ub.hdr.peer⟩,
        { objpath := (g.obj o).pathKey, objid := some (g.obj o).id, objtype := some (g.typ t).id,
          signature := some ((accessible acls cl g o (g.typ t).methods).map fun m => ⟨m, true⟩) }⟩ none
    else b

/-- The loop through all objects: it stops, at an object, when the transmit queue of the
    client is not empty, as `room` tells. -/
def sendLoop : List Ptr → List Bool → Bus → Option Ptr × Bus
  | [], _, b => (none, b)
  | o :: os, room, b =>
    if room.headD true then sendLoop os room.tail (sendObj acls cl ub o b) else (some o, b)

/-- The objects that a lookup of a path names. -/
def Graph.named (g : Graph) (path : Str) : List Ptr :=
  if path.getLast? = some star then
    (g.path.dropWhile fun o => decide (g.key o < path.dropLast)).takeWhile fun o =>
      decide (path.dropLast <+: g.key o)
  else (g.path.find? fun o => decide (g.key o = path)).toList

/-- `__ubusd_handle_lookup`: a status, or the object at which it goes on. -/
def handleLookupFrom (room : List Bool) (cursor : Option Ptr) (b : Bus) : (ℕ ⊕ Ptr) × Bus :=
  match ub.attrs.objpath with
  | none =>
    match sendLoop acls cl ub (b.reg.graph.pathFrom cursor) room b with
    | (none, b) => (.inl 0, b)
    | (some o, b) => (.inr o, b)
  | some path =>
    match b.reg.graph.named path with
    | [] => (.inl Status.notFound.code, b)
    | os => (.inl 0, os.foldl (fun b o => sendObj acls cl ub o b) b)

/-- The status message to the client. -/
def Bus.status (b : Bus) (ret : ℕ) : Bus :=
  b.post cl ⟨⟨.status, ub.hdr.seq, ub.hdr.peer⟩, { status := some (UInt32.ofNat ret) }⟩ none

/-- `ubusd_handle_lookup`; the command is queued when the client has messages waiting. -/
def handleLookup (room : List Bool) (b : Bus) : Option ℕ × Bus :=
  let queue := fun (b : Bus) (o : Option Ptr) =>
    { b with cmdQueue := Function.update b.cmdQueue cl (b.cmdQueue cl ++ [(ub, o)]) }
  if room.headD true then
    match handleLookupFrom acls cl ub room none b with
    | (.inl ret, b) => (some ret, b)
    | (.inr o, b) => (none, queue b (some o))
  else (none, queue b none)

/-- `ubus_client_cmd_queue_process` with `ubusd_cmd_lookup`. -/
def cmdQueueProcess (room : List Bool) : List (Msg × Option Ptr) → Bus → Bus
  | [], b => { b with cmdQueue := Function.update b.cmdQueue cl [] }
  | (ub, o) :: cmds, b =>
    match handleLookupFrom acls cl ub room o b with
    | (.inr o, b) => { b with cmdQueue := Function.update b.cmdQueue cl ((ub, some o) :: cmds) }
    | (.inl ret, b) => cmdQueueProcess room cmds (b.status cl ub ret)

/-- A handler of the registry. -/
def Bus.handle (b : Bus) (f : St → Status × St) : Option ℕ × Bus :=
  (some (f b.reg).1.code, b.registry ub.hdr (f b.reg).2)

/-- `handlers` -/
def handlers (room : List Bool) (b : Bus) : Option ℕ × Bus :=
  match ub.hdr.type with
  | .ping => (some 0, b.post cl { ub with hdr := { ub.hdr with type := .data } } none)
  | .addObject => b.handle ub (ubusdHandleAddObject acls cl
      ⟨ub.attrs.objtype, ub.attrs.signature, ub.attrs.objpath⟩)
  | .removeObject => b.handle ub (ubusdHandleRemoveObject acls cl ub.attrs.objid)
  | .lookup => handleLookup acls cl ub room b
  | .invoke => ubusdHandleInvoke acls parsers cl ub b
  | .status => (none, ubusdHandleResponse cl ub b)
  | .data => (none, ubusdHandleResponse cl ub b)
  | .subscribe => b.handle ub (ubusdHandleAddWatch acls cl ub.attrs.objid ub.attrs.target)
  | .unsubscribe => b.handle ub (ubusdHandleRemoveWatch cl ub.attrs.objid ub.attrs.target)
  | .notify => ubusdHandleNotify cl ub b
  | .hello | .monitor | .other => (some invalidCommand, b)

/-- `ubusd_proto_receive_message` -/
def receiveMessage (room : List Bool) (b : Bus) : Bus :=
  match handlers acls parsers cl ub room b with
  | (none, b) => b
  | (some ret, b) => b.status cl ub ret

end

/-! ## Requests of a client -/

/-- `struct ubus_request`, with `struct ubus_notify_request`. `target` is the peer that the request
    was started with; `dataCb` says that there is a callback for data. The ids that a notify request
    waits for are in `waiting`, with their numbers. -/
structure Request where
  target : UInt32
  peer : UInt32
  seq : UInt16
  notify : Bool
  dataCb : Bool
  statusMsg : Option UInt32 := none
  blocked : Bool := false
  cancelled : Bool := false
  pending : List Posted := []
  waiting : List (ℕ × UInt32) := []

/-- A data callback that runs, and the pending data that `__ubus_process_req_data` has
    still to go through, once it has begun. -/
structure Frame where
  req : ℕ
  todo : Option (List Posted)

/-- `struct ubus_context`: its connection, its requests by number, and those that are on the
    list. -/
structure Context where
  conn : Option Ptr := none
  requestSeq : UInt16 := 0
  reqs : List Request := []
  requests : List ℕ := []
  frames : List Frame := []

/-- A request was given the data of a message, or was completed by it. -/
structure ReqEvent where
  target : UInt32
  notify : Bool
  cause : Posted

/-- `ubus_find_notify_id` -/
def ubusFindNotifyId (waiting : List (ℕ × UInt32)) (objid : UInt32) : Option ℕ :=
  (waiting.find? fun w => w.2 = objid).map Prod.fst

/-- A request matches the sequence number and the peer. -/
def Request.matches (req : Request) (seq : UInt16) (peer : UInt32) : Bool :=
  seq = req.seq && if req.notify then (ubusFindNotifyId req.waiting peer).isSome else peer = req.peer

/-- `ubus_find_request` -/
def ubusFindRequest (ctx : Context) (seq : UInt16) (peer : UInt32) : Option ℕ :=
  ctx.requests.find? fun r => (ctx.reqs[r]?).any fun req => req.matches seq peer

def Context.modReq (ctx : Context) (r : ℕ) (f : Request → Request) : Context :=
  { ctx with reqs := ctx.reqs.modify r f }

/-- `ubus_set_req_status` -/
def ubusSetReqStatus (ctx : Context) (r : ℕ) (ret : UInt32) : Context :=
  { ctx.modReq r fun req => { req with statusMsg := some ret } with
    requests := ctx.requests.filter (· ≠ r) }

/-- `UBUS_MAX_NOTIFY_PEERS` -/
def ubusMaxNotifyPeers : ℕ := 16

/-- `ubus_process_notify_status`: the ids that are waited for next. -/
def notifyWaiting (req : Request) (id : ℕ) (m : Msg) : List (ℕ × UInt32) :=
  let rest := req.waiting.filter (·.1 ≠ id)
  if id = 0 then
    rest ++ ((m.attrs.subscribers.getD []).take ubusMaxNotifyPeers).zipIdx.map fun s => (s.2 + 1, s.1)
  else rest

/-- `ubus_process_req_msg` -/
def ubusProcessReqMsg (ctx : Context) (m : Posted) : Context × List ReqEvent :=
  let hdr := m.msg.hdr
  match ubusFindRequest ctx hdr.seq hdr.peer with
  | none => (ctx, [])
  | some r =>
    match ctx.reqs[r]? with
    | none => (ctx, [])
    | some req =>
      match hdr.type with
      | .status =>
        match if req.notify then ubusFindNotifyId req.waiting hdr.peer else none with
        | some id =>
          let waiting := notifyWaiting req id m.msg
          let ctx := ctx.modReq r fun req => { req with waiting := waiting }
          (if waiting = [] then ubusSetReqStatus ctx r 0 else ctx, [⟨req.target, req.notify, m⟩])
        | none =>
          let ctx := ctx.modReq r fun req => { req with peer := hdr.peer }
          (ubusSetReqStatus ctx r (m.msg.attrs.status.getD 2), [⟨req.target, req.notify, m⟩])
      | .data =>
        if !req.dataCb then (ctx, [])
        else if req.blocked then
          (ctx.modReq r fun req => { req with pending := m :: req.pending }, [])
        else
          let ctx := ctx.modReq r fun req => { req with blocked := true }
          ({ ctx with frames := ⟨r, none⟩ :: ctx.frames }, [⟨req.target, req.notify, m⟩])
      | _ => (ctx, [])

/-- The loop of `__ubus_process_req_data`, up to a callback. -/
def processReqData (r : ℕ) : List Posted → Context → Context × List ReqEvent
  | [], ctx => ({ ctx.modReq r fun req => { req with blocked := false } with
      frames := ctx.frames.tail }, [])
  | m :: todo, ctx =>
    let ctx := ctx.modReq r fun req => { req with pending := req.pending.erase m }
    match ctx.reqs[r]? with
    | none => (ctx, [])
    | some req =>
      if req.cancelled then processReqData r todo ctx
      else ({ ctx with frames := ⟨r, some todo⟩ :: ctx.frames.tail }, [⟨req.target, req.notify, m⟩])

/-- A data callback returns. -/
def dataCbReturn (ctx : Context) : Context × List ReqEvent :=
  match ctx.frames with
  | [] => (ctx, [])
  | f :: _ => processReqData f.req (f.todo.getD ((ctx.reqs[f.req]?).elim [] Request.pending)) ctx

/-- `__ubus_start_request`; a notify request waits for the status of ubusd first. -/
def ubusStartRequest (ctx : Context) (target : UInt32) (notify dataCb : Bool) : Context :=
  let req : Request :=
    { target := target, peer := target, seq := ctx.requestSeq + 1, notify := notify
      dataCb := dataCb, waiting := if notify then [(0, target)] else [] }
  { ctx with requestSeq := ctx.requestSeq + 1, reqs := ctx.reqs ++ [req] }

/-- `ubus_complete_request_async` -/
def ubusCompleteRequestAsync (ctx : Context) (r : ℕ) : Context :=
  if r ∈ ctx.requests ∨ ctx.reqs.length ≤ r then ctx
  else { ctx with requests := r :: ctx.requests }

/-- `ubus_abort_request` -/
def ubusAbortRequest (ctx : Context) (r : ℕ) : Context :=
  if r ∈ ctx.requests then
    { ctx.modReq r fun req => { req with cancelled := true, pending := [] } with
      requests := ctx.requests.filter (· ≠ r) }
  else ctx

/-! ## Runs -/

/-- The bus, the contexts of the clients that use libubus, and what their requests got. -/
structure Net where
  bus : Bus
  ctx : ℕ → Context := fun _ => {}
  served : List ReqEvent := []

/-- What a context does by itself. -/
inductive CtxAct where
  | attach (cl : Ptr)
  | start (target : UInt32) (notify dataCb : Bool)
  | completeAsync (r : ℕ)
  | abort (r : ℕ)
  /-- a timeout, or the loss of the connection -/
  | setStatus (r : ℕ) (ret : UInt32)

def Context.act (ctx : Context) : CtxAct → Context
  | .attach cl => { ctx with conn := some cl }
  | .start target notify dataCb => ubusStartRequest ctx target notify dataCb
  | .completeAsync r => ubusCompleteRequestAsync ctx r
  | .abort r => ubusAbortRequest ctx r
  | .setStatus r ret => ubusSetReqStatus ctx r ret

/-- What happens next. `room` tells when the transmit queue of the client is empty, `mem` and `rnd`
    are the answers of the allocator and of the random source. -/
inductive NetStep where
  | connect (cred : Option Cred) (mem : List Bool) (rnd : List UInt32)
  | disconnect (cl : Ptr) (mem : List Bool)
  | message (cl : Ptr) (ub : Msg) (room : List Bool) (mem : List Bool) (rnd : List UInt32)
  | drain (cl : Ptr) (room : List Bool)
  | lose (cl : Ptr) (i : ℕ)
  | local (i : ℕ) (act : CtxAct)
  | receive (i : ℕ)
  | cbReturn (i : ℕ)

/-- The context `i` goes on. -/
def Net.setCtx (n : Net) (i : ℕ) (r : Context × List ReqEvent) : Net :=
  { n with ctx := Function.update n.ctx i r.1, served := n.served ++ r.2 }

def netStep (acls : Acls) (parsers : Parsers) (n : Net) : NetStep → Net
  | .connect cred mem rnd =>
    { n with bus := n.bus.registry ⟨.hello, 0, 0⟩ (step acls n.bus.reg ⟨.connect cred, mem, rnd⟩) }
  | .disconnect cl mem =>
    let b := n.bus.registry ⟨.hello, 0, 0⟩ (step acls n.bus.reg ⟨.disconnect cl, mem, []⟩)
    { n with bus := { b with
        chan := Function.update b.chan cl []
        cmdQueue := Function.update b.cmdQueue cl [] } }
  | .message cl ub room mem rnd =>
    if cl ∈ n.bus.reg.graph.connected then
      let b := { n.bus with reg := { n.bus.reg with mem := mem, rnd := rnd } }
      { n with bus := receiveMessage acls parsers cl ub room b }
    else n
  | .drain cl room => { n with bus := cmdQueueProcess acls cl room (n.bus.cmdQueue cl) n.bus }
  | .lose cl i =>
    { n with bus := { n.bus with
        chan := Function.update n.bus.chan cl ((n.bus.chan cl).eraseIdx i) } }
  | .local i act => n.setCtx i ((n.ctx i).act act, [])
  | .receive i =>
    match (n.ctx i).conn with
    | none => n
    | some cl =>
      match n.bus.chan cl with
      | [] => n
      | m :: rest =>
        let n := { n with bus := { n.bus with chan := Function.update n.bus.chan cl rest } }
        n.setCtx i (ubusProcessReqMsg (n.ctx i) m)
  | .cbReturn i => n.setCtx i (dataCbReturn (n.ctx i))

/-- ubusd has started, and no client is connected. -/
def netInit (mem : List Bool) : Net := { bus := { reg := ubusdObjInit mem } }

end Ubus
