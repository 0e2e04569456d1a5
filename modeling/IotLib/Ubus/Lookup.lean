/-
  `UBUS_MSG_LOOKUP` (`ubusd_proto.c`, `ubusd_main.c`): the objects are sent one by one as long as
  the transmit queue of the client is empty. Otherwise the command is queued with the object it has
  reached, and goes on from there when the queue has been sent.
-/
import IotLib.Ubus.Registry
import IotLib.Ubus.Transmit

namespace Ubus

/-! ## Messages -/

/-- A 32-bit value in big endian. -/
def be32 (x : UInt32) : List UInt8 :=
  [(x >>> 24).toUInt8, (x >>> 16).toUInt8, (x >>> 8).toUInt8, x.toUInt8]

/-- `blob_put`: an attribute with its header, padded to a multiple of four. -/
def blobPut (id : Nat) (data : List UInt8) : List UInt8 :=
  let len := data.length + 4
  be32 (UInt32.ofNat (len % 0x1000000 + id * 0x1000000)) ++ data ++
    List.replicate ((4 - len % 4) % 4) 0

/-- `blob_put_string` -/
def blobPutString (id : Nat) (s : Str) : List UInt8 := blobPut id (s ++ [0])

/-- `blob_put_int32` -/
def blobPutInt32 (id : Nat) (x : UInt32) : List UInt8 := blobPut id (be32 x)

/-- `UBUS_MSG_STATUS` and `UBUS_MSG_DATA` -/
def ubusMsgStatus : UInt8 := 1
def ubusMsgData : UInt8 := 2

/-- The ids of the attributes that are used here. -/
def ubusAttrStatus : Nat := 1
def ubusAttrObjpath : Nat := 2
def ubusAttrObjid : Nat := 3
def ubusAttrObjtype : Nat := 5
def ubusAttrSignature : Nat := 6

/-- A `LOOKUP` message. -/
structure LookupMsg where
  seq : UInt16
  peer : UInt32
  objpath : Option Str
deriving DecidableEq, Repr

/-- `struct ubus_client_cmd`; `token` tells which message it is. -/
structure Cmd where
  token : Nat
  msg : LookupMsg
  obj : Option Ptr
deriving DecidableEq, Repr

/-- What was passed to `ubus_msg_send` on behalf of a lookup. -/
inductive Sent where
  | data (token : Nat) (obj : Ptr)
  | status (token : Nat) (ret : Status)
deriving DecidableEq, Repr

def Sent.token : Sent → Nat
  | .data k _ | .status k _ => k

/-- A lookup that has arrived, whether it can be queued, and the objects in the
    path tree at that time. -/
structure Arrival where
  msg : LookupMsg
  mem : Bool
  start : List Ptr

/-- ubusd, the transmit side and the command queue of one of its clients, and what `sendmsg` will
    answer. `arrived` and `log` keep the history: a token is a position in `arrived`. -/
structure LSt where
  reg : St
  tx : Tx := {}
  cmdQueue : List Cmd := []
  answers : List Answer := []
  arrived : List Arrival := []
  log : List Sent := []

/-- `ubus_msg_send` to the client. -/
def LSt.send (s : LSt) (ub : MsgBuf) : LSt :=
  { s with
    tx := ubusMsgSend s.tx ub (s.answers.headD .eagain)
    answers := if s.tx.txQueue = [] then s.answers.tail else s.answers }

section
variable (acls : Acls) (cl : Ptr)

/-! ## Sending an object -/

/-- The methods of a type that the client may call on an object. -/
def accessible (g : Graph) (o : Ptr) (ms : List Method) : List Method :=
  ms.filter fun m =>
    ubusdAclCheck acls (some (g.cli cl).cred) (g.obj o).pathKey (some m.name) .access

/-- `ubusd_send_obj` sends the object: it has a type, and if this has methods
    the client may call one of them. -/
def visible (g : Graph) (o : Ptr) : Bool :=
  match (g.obj o).type with
  | none => false
  | some t =>
    accessible acls cl g o (g.typ t).methods ≠ [] ∨ (g.typ t).methods = []

/-- The message that describes an object. -/
def objMsg (g : Graph) (msg : LookupMsg) (o t : Ptr) : MsgBuf where
  hdr := ⟨0, ubusMsgData, msg.seq, msg.peer⟩
  data := blobPut 0 (blobPutString ubusAttrObjpath (g.key o) ++
    blobPutInt32 ubusAttrObjid (g.obj o).id ++ blobPutInt32 ubusAttrObjtype (g.typ t).id ++
    blobPut ubusAttrSignature ((accessible acls cl g o (g.typ t).methods).flatMap Method.data))

/-- `ubusd_send_obj` -/
def ubusdSendObj (msg : LookupMsg) (k : Nat) (o : Ptr) (s : LSt) : LSt :=
  match (s.reg.graph.obj o).type with
  | none => s
  | some t =>
    if visible acls cl s.reg.graph o then
      { s.send (objMsg acls cl s.reg.graph msg o t) with log := s.log ++ [.data k o] }
    else s

/-- The status message at the end of a lookup. -/
def sendStatus (msg : LookupMsg) (k : Nat) (ret : Status) (s : LSt) : LSt :=
  { s.send ⟨⟨0, ubusMsgStatus, msg.seq, msg.peer⟩,
      blobPut 0 (blobPutInt32 ubusAttrStatus (UInt32.ofNat ret.code))⟩ with
    log := s.log ++ [.status k ret] }

/-! ## The lookup -/

/-- The loop through the objects: it stops, at an object, when the transmit queue is not empty. -/
def sendObjs (msg : LookupMsg) (k : Nat) : List Ptr → LSt → Option Ptr × LSt
  | [], s => (none, s)
  | o :: os, s =>
    if s.tx.txQueue = [] then sendObjs msg k os (ubusdSendObj acls cl msg k o s)
    else (some o, s)

/-- The objects from the cursor on, or all of them. -/
def Graph.pathFrom (g : Graph) : Option Ptr → List Ptr
  | none => g.path
  | some o => g.path.dropWhile fun x => decide (x ≠ o)

/-- The loop of `__ubusd_handle_lookup` for a message with a path: the object
    with this path, or those with this prefix. -/
def lookupPath (msg : LookupMsg) (k : Nat) (path : Str) (s : LSt) : Status × LSt :=
  let g := s.reg.graph
  let sendAll := fun os => os.foldl (fun s o => ubusdSendObj acls cl msg k o s) s
  if path.getLast? = some star then
    let path := path.dropLast
    let found := (g.path.dropWhile fun o => decide (g.key o < path)).takeWhile fun o =>
      decide (path <+: g.key o)
    if found = [] then (.notFound, s) else (.ok, sendAll found)
  else
    match g.path.find? fun o => decide (g.key o = path) with
    | none => (.notFound, s)
    | some o => (.ok, sendAll [o])

/-- `__ubusd_handle_lookup`: a status, or the object at which it goes on. -/
def ubusdHandleLookupFrom (msg : LookupMsg) (k : Nat) (cursor : Option Ptr) (s : LSt) :
    (Status ⊕ Ptr) × LSt :=
  match msg.objpath with
  | none =>
    match sendObjs acls cl msg k (s.reg.graph.pathFrom cursor) s with
    | (none, s) => (.inl .ok, s)
    | (some o, s) => (.inr o, s)
  | some path => (.inl (lookupPath acls cl msg k path s).1, (lookupPath acls cl msg k path s).2)

/-- `ubus_client_cmd_queue_add`, which may fail to allocate the command. -/
def ubusClientCmdQueueAdd (mem : Bool) (msg : LookupMsg) (k : Nat) (obj : Option Ptr) (s : LSt) :
    LSt :=
  if mem then { s with cmdQueue := s.cmdQueue ++ [⟨k, msg, obj⟩] }
  else sendStatus msg k .unknownError s

/-- `ubusd_handle_lookup`, with the status that `ubusd_proto_receive_message` sends. -/
def ubusdHandleLookup (mem : Bool) (msg : LookupMsg) (k : Nat) (s : LSt) : LSt :=
  if s.tx.txQueue = [] then
    match ubusdHandleLookupFrom acls cl msg k none s with
    | (.inl ret, s) => sendStatus msg k ret s
    | (.inr o, s) => ubusClientCmdQueueAdd mem msg k (some o) s
  else ubusClientCmdQueueAdd mem msg k none s

/-- `ubus_client_cmd_queue_process` with `ubusd_cmd_lookup`. -/
def ubusClientCmdQueueProcess : List Cmd → LSt → LSt
  | [], s => { s with cmdQueue := [] }
  | cmd :: cmds, s =>
    match ubusdHandleLookupFrom acls cl cmd.msg cmd.token cmd.obj s with
    | (.inr o, s) => { s with cmdQueue := { cmd with obj := some o } :: cmds }
    | (.inl ret, s) => ubusClientCmdQueueProcess cmds (sendStatus cmd.msg cmd.token ret s)

/-! ## Steps -/

/-- What happens: a step of ubusd in which messages are sent to the client, a `LOOKUP` of the
    client, or its socket is polled (`write` if it is writable), with the answers of `sendmsg`. -/
inductive LStep where
  | other (st : Step) (sends : List (MsgBuf × Answer))
  | lookup (msg : LookupMsg) (mem : Bool) (answers : List Answer)
  | poll (pending : List Answer) (write : Bool) (answers : List Answer)

/-- The client is served. -/
def LSt.alive (s : LSt) : Prop := s.tx.closed = false ∧ cl ∈ s.reg.graph.connected

instance (s : LSt) : Decidable (s.alive cl) := inferInstanceAs (Decidable (_ ∧ _))

/-- `client_cb`: pending data is sent first; then the queued commands go on. -/
def clientCb (pending : List Answer) (write : Bool) (s : LSt) : LSt :=
  let s := { s with tx := txMore s.tx.txQueue pending s.tx }
  if s.tx.closed then { s with reg := handleClientDisconnect acls cl s.reg, cmdQueue := [] }
  else if s.tx.txQueue = [] ∧ write = true then
    ubusClientCmdQueueProcess acls cl s.cmdQueue s
  else s

/-- The queue goes with the client. -/
def lstep (s : LSt) : LStep → LSt
  | .other st sends =>
    let reg := step acls s.reg st
    { s with
      reg := reg
      tx := if s.alive cl then sends.foldl (fun tx m => ubusMsgSend tx m.1 m.2) s.tx else s.tx
      cmdQueue := if cl ∈ reg.graph.connected then s.cmdQueue else [] }
  | .lookup msg mem answers =>
    if s.alive cl then
      ubusdHandleLookup acls cl mem msg s.arrived.length
        { s with answers := answers, arrived := s.arrived ++ [⟨msg, mem, s.reg.graph.path⟩] }
    else s
  | .poll pending write answers =>
    if s.alive cl then clientCb acls cl pending write { s with answers := answers } else s

end

end Ubus
