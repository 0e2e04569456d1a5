/-
  The file descriptors that ubusd receives with messages (`client_cb` in `ubusd_main.c`, `ubusd.c`,
  `ubusd_proto.c`): the buffers that carry them, their reference counts, and who closes them.

  The received descriptors are numbered in the order of their arrival, so that a number that the
  kernel gives out again is another descriptor. What the handlers decide is given with a message:
  the messages they send on the way, and what they return (`Handled`).
-/
import IotLib.Lib.Ledger
import IotLib.Ubus.Registry
import IotLib.Ubus.Transmit

namespace Ubus.Fd

open Ledger (Event)

/-! ## Buffers and clients -/

/-- `struct ubus_msg_buf`; a buffer that `USES_EXTERNAL_BUFFER` has no reference count. A buffer
    that was freed is the default one. -/
structure Buf where
  refcount : Option Nat := some 0
  len : Nat := 0
  fd : Option Nat := none

/-- `struct ubus_client`, the part that messages pass through. -/
structure Cli where
  txQueue : List Ptr := []
  txqOfs : Nat := 0
  txqLen : Nat := 0
  cmdQueue : List Ptr := []
  pendingMsgFd : Option Nat := none

/-- The buffers and the connected clients, with what happened to the descriptors. -/
structure St where
  buf : Ptr → Buf := fun _ => {}
  cli : Ptr → Cli := fun _ => {}
  clients : List Ptr := []
  next : Ptr := 0
  nextFd : Nat := 0
  log : List Event := []

def St.setBuf (s : St) (p : Ptr) (b : Buf) : St := { s with buf := Function.update s.buf p b }

def St.setCli (s : St) (c : Ptr) (cl : Cli) : St := { s with cli := Function.update s.cli c cl }

/-- `close`, of a descriptor that is not -1 -/
def St.close (s : St) : Option Nat → St
  | none => s
  | some fd => { s with log := s.log ++ [.release fd] }

/-! ## Messages -/

/-- `ubus_msg_new`; the buffer is at the address that was `next`. -/
def ubusMsgNew (len : Nat) (shared : Bool) (s : St) : St :=
  { s.setBuf s.next { refcount := if shared then none else some 1, len := len } with
    next := s.next + 1 }

/-- `ubus_msg_ref` -/
def ubusMsgRef (ub : Ptr) (s : St) : Ptr × St :=
  match (s.buf ub).refcount with
  | none =>
    let t := ubusMsgNew (s.buf ub).len false s
    (s.next, t.setBuf s.next { t.buf s.next with fd := (s.buf ub).fd })
  | some n => (ub, s.setBuf ub { s.buf ub with refcount := some (n + 1) })

/-- `ubus_msg_free` -/
def ubusMsgFree (ub : Ptr) (s : St) : St :=
  match (s.buf ub).refcount with
  | none | some 1 => (s.close (s.buf ub).fd).setBuf ub {}
  | some n => s.setBuf ub { s.buf ub with refcount := some (n - 1) }

/-- `ubus_msg_close_fd` -/
def ubusMsgCloseFd (ub : Ptr) (s : St) : St :=
  (s.close (s.buf ub).fd).setBuf ub { s.buf ub with fd := none }

/-- `ubus_msg_writev`: the descriptor goes with the first bytes. -/
def ubusMsgWritev (ub : Ptr) (offset : Nat) (s : St) : St :=
  match (s.buf ub).fd with
  | none => s
  | some fd => if offset = 0 then { s with log := s.log ++ [.use fd] } else s

/-- `ubus_msg_enqueue` -/
def ubusMsgEnqueue (c ub : Ptr) (s : St) : St :=
  let txqLen := u32 ((s.cli c).txqLen + (s.buf ub).len)
  if txqLen > ubusClientMaxTxqLen then s
  else
    let (msg, t) := ubusMsgRef ub s
    t.setCli c { s.cli c with txQueue := (s.cli c).txQueue ++ [msg], txqLen := txqLen }

/-- `ubus_msg_send`; `a` answers the direct write. -/
def ubusMsgSend (c ub : Ptr) (a : Answer) (s : St) : St :=
  if (s.cli c).txQueue = [] then
    let size := (s.buf ub).len + sizeofHdr
    let written := min a.count size
    let t := ubusMsgWritev ub 0 s
    if size ≤ written then t
    else
      ubusMsgEnqueue c ub
        (t.setCli c { s.cli c with txqOfs := u32 written, txqLen := u32 (-written) })
  else ubusMsgEnqueue c ub s

/-- A message that goes out: where to, the length of its blob, and what the socket answers. -/
structure Out where
  cl : Ptr
  len : Nat
  a : Answer

/-- `ubus_proto_send_msg_from_blob` -/
def ubusProtoSendMsgFromBlob (ub : Ptr) (o : Out) (s : St) : St :=
  let t := ubusMsgNew o.len true s
  let t := t.setBuf s.next { t.buf s.next with fd := (s.buf ub).fd }
  ubusMsgFree s.next (ubusMsgSend o.cl s.next o.a t)

/-- A message that ubusd makes itself: a return status, a notification, an event or
    a copy for a monitor. -/
def sendOwn (shared : Bool) (o : Out) (s : St) : St :=
  ubusMsgFree s.next (ubusMsgSend o.cl s.next o.a (ubusMsgNew o.len shared s))

/-! ## Handlers -/

/-- The types of messages; `other` are those without a handler. -/
inductive MsgType where
  | ping | addObject | removeObject | lookup | invoke | status | data | subscribe | unsubscribe
  | notify | other
deriving DecidableEq, Repr

/-- What a handler sends: the message it was given, an answer made with
    `ubus_proto_send_msg_from_blob`, or a message of its own. -/
inductive Send where
  | pass (o : Out)
  | reply (o : Out)
  | own (shared : Bool) (o : Out)

/-- What a handler returns: -2 when the message was queued, -1 when it is done, and
    else a status, which is sent. -/
inductive Ret where
  | queued
  | done
  | status (len : Nat) (a : Answer)

def Send.isOwn : Send → Bool
  | .own .. => true
  | _ => false

def Send.isReply : Send → Bool
  | .reply .. => true
  | _ => false

/-- What the handler of each type does for the client `c`, up to the messages of its own. -/
def handles (c : Ptr) (type : MsgType) (sends : List Send) (ret : Ret) : Bool :=
  match type, sends.filter fun x => !x.isOwn, ret with
  -- `ubusd_send_pong`
  | .ping, [.pass o], .status .. => o.cl = c
  -- `ubusd_handle_add_object`, `ubusd_handle_remove_object`
  | .addObject, [], .status .. | .removeObject, [], .status .. => true
  | .addObject, [.reply o], .status .. | .removeObject, [.reply o], .status .. => o.cl = c
  -- `ubusd_handle_lookup`
  | .lookup, replies, .status .. | .lookup, replies, .queued => replies.all Send.isReply
  -- `ubusd_handle_invoke`: rejected or taken by an object of ubusd, answered by one,
  -- and forwarded
  | .invoke, [], .status .. => true
  | .invoke, [.reply o], .status .. => o.cl = c
  | .invoke, [.reply _], .done => true
  -- `ubusd_handle_response`
  | .status, [], .done | .status, [.pass _], .done => true
  | .data, [], .done | .data, [.pass _], .done => true
  -- `ubusd_handle_add_watch`, `ubusd_handle_remove_watch`
  | .subscribe, [], .status .. | .unsubscribe, [], .status .. => true
  -- `ubusd_handle_notify`
  | .notify, [], .status .. => true
  | .notify, replies, .done => replies.all Send.isReply
  | .other, [], .status .. => true
  | _, _, _ => false

/-- A message of the client `c` with what its handler does. -/
structure Handled (c : Ptr) where
  type : MsgType
  sends : List Send
  ret : Ret
  ok : handles c type sends ret = true

def Out.reach (o : Out) (s : St) (f : St → St) : St := if o.cl ∈ s.clients then f s else s

/-- A message for a client that is not connected is not sent. -/
def Send.exec (ub : Ptr) (s : St) : Send → St
  | .pass o => o.reach s (ubusMsgSend o.cl ub o.a)
  | .reply o => o.reach s (ubusProtoSendMsgFromBlob ub o)
  | .own shared o => o.reach s (sendOwn shared o)

/-- `ubusd_proto_receive_message` -/
def ubusdProtoReceiveMessage (c ub : Ptr) (m : Handled c) (s : St) : St :=
  let s := if m.type ≠ .status ∧ m.type ≠ .invoke then ubusMsgCloseFd ub s else s
  let s := m.sends.foldl (Send.exec ub) s
  match m.ret with
  | .queued => s.setCli c { s.cli c with cmdQueue := (s.cli c).cmdQueue ++ [ub] }
  | .done => ubusMsgFree ub s
  | .status len a => sendOwn true ⟨c, len, a⟩ (ubusMsgFree ub s)

/-! ## Clients -/

/-- The head of the transmit queue is freed. -/
def ubusMsgListFree (c : Ptr) (s : St) : St :=
  match (s.cli c).txQueue with
  | [] => s
  | ub :: rest => ubusMsgFree ub (s.setCli c { s.cli c with txQueue := rest })

def freeQueue (c : Ptr) : Nat → St → St
  | 0, s => s
  | n + 1, s => freeQueue c n (ubusMsgListFree c s)

/-- `handle_client_disconnect`; `owns` are the events and notifications that
    `ubusd_free_object` sends for the objects of the client. -/
def handleClientDisconnect (c : Ptr) (owns : List (Bool × Out)) (s : St) : St :=
  let s := freeQueue c (s.cli c).txQueue.length s
  let s := owns.foldl (fun s x => Send.exec 0 s (.own x.1 x.2)) s
  { (s.close (s.cli c).pendingMsgFd).setCli c {} with clients := s.clients.erase c }

/-- The loop of `client_cb` that sends pending data; when no answer is left, the
    socket would block. -/
def txMore (c : Ptr) (owns : List (Bool × Out)) : List Answer → St → St
  | [], s => s
  | a :: as, s =>
    match (s.cli c).txQueue with
    | [] => s
    | ub :: _ =>
      let cl := s.cli c
      let t := ubusMsgWritev ub cl.txqOfs s
      match a with
      | .eagain => t
      | .error => handleClientDisconnect c owns t
      | .wrote n =>
        let size := (s.buf ub).len + sizeofHdr
        let written := min n (size - cl.txqOfs)
        let cl := { cl with
          txqOfs := u32 (cl.txqOfs + written), txqLen := u32 (cl.txqLen - written) }
        if cl.txqOfs < size then t.setCli c cl
        else txMore c owns as (ubusMsgListFree c (t.setCli c { cl with txqOfs := 0 }))

/-- `ubus_client_cmd_queue_process`; the queued commands are lookups, which may be queued again. -/
def ubusClientCmdQueueProcess (c : Ptr) : List { m : Handled c // m.type = .lookup } → St → St
  | [], s => s
  | m :: cmds, s =>
    match (s.cli c).cmdQueue with
    | [] => s
    | ub :: rest =>
      let t := m.1.sends.foldl (Send.exec ub) s
      match m.1.ret with
      | .queued | .done => t
      | .status len a =>
        let t := sendOwn true ⟨c, len, a⟩ t
        ubusClientCmdQueueProcess c cmds
          (ubusMsgFree ub (t.setCli c { t.cli c with cmdQueue := rest }))

/-- What can happen: a client connects, its socket can be written, its queued commands
    are processed, a descriptor arrives, a message is complete, it disconnects. -/
inductive Step where
  | connect (len : Nat) (a : Answer)
  | poll (c : Ptr) (owns : List (Bool × Out)) (as : List Answer)
  | process (c : Ptr) (cmds : List { m : Handled c // m.type = .lookup })
  | recvFd (c : Ptr)
  | message (c : Ptr) (len : Nat) (m : Handled c)
  | disconnect (c : Ptr) (owns : List (Bool × Out))

/-- The step of a client that is not connected does nothing. -/
def step (s : St) : Step → St
  | .connect len a =>
    let t := { s.setCli s.next {} with clients := s.next :: s.clients, next := s.next + 1 }
    sendOwn true ⟨s.next, len, a⟩ t
  | .poll c owns as => if c ∈ s.clients then txMore c owns as s else s
  | .process c cmds =>
    if c ∈ s.clients ∧ (s.cli c).txQueue = [] then ubusClientCmdQueueProcess c cmds s else s
  | .recvFd c =>
    if c ∈ s.clients ∧ (s.cli c).pendingMsgFd = none then
      { s.setCli c { s.cli c with pendingMsgFd := some s.nextFd } with
        nextFd := s.nextFd + 1, log := s.log ++ [.recv s.nextFd] }
    else s
  | .message c len m =>
    if c ∈ s.clients then
      let t := ubusMsgNew len false s
      let t := t.setBuf s.next { t.buf s.next with fd := (s.cli c).pendingMsgFd }
      ubusdProtoReceiveMessage c s.next m (t.setCli c { s.cli c with pendingMsgFd := none })
    else s
  | .disconnect c owns => if c ∈ s.clients then handleClientDisconnect c owns s else s

end Ubus.Fd
