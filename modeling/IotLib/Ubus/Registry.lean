/-
  The registry of ubusd: clients, objects, object types, subscriptions and event sources, with the
  operations of `ubusd_id.c`, `ubusd_obj.c`, `ubusd_event.c` and the message handlers of
  `ubusd_proto.c` that change it.

  The structures live at addresses and refer to each other by address, as in the source. A tree is
  the list of its nodes; those whose order is used (`path`, `patterns`) are sorted.
-/
import IotLib.Ubus.Acl

namespace Ubus

/-! ## The structures -/

/-- An address. -/
abbrev Ptr := Nat

/-- `struct ubus_method`; `data` is the attribute that describes it. -/
structure Method where
  name : Str
  data : List UInt8
deriving DecidableEq, Repr

/-- `struct ubus_object_type` -/
structure ObjType where
  id : UInt32 := 0
  refcount : Int := 0
  methods : List Method := []

/-- `struct ubus_object`, less its counters. `client` is set when the object is put on the list of
    its client. -/
structure Object where
  id : UInt32 := 0
  type : Option Ptr := none
  pathKey : Option Str := none
  client : Option Ptr := none
  events : List Ptr := []
  subscribers : List Ptr := []
  targetList : List Ptr := []

/-- `struct ubus_subscription` -/
structure Subscription where
  subscriber : Ptr := 0
  target : Ptr := 0

/-- `struct event_source` -/
structure EventSource where
  obj : Ptr := 0
  key : Str := []
  part : Bool := false

/-- `struct ubus_client`, the part that the registry uses. -/
structure Client where
  id : UInt32 := 0
  cred : Cred := ⟨0, 0, [], []⟩
  objects : List Ptr := []

/-- The structures and the trees. `connected` are the clients whose socket is served, `next` the
    lowest address that was never allocated. -/
structure Graph where
  obj : Ptr → Object := fun _ => {}
  sub : Ptr → Subscription := fun _ => {}
  ev : Ptr → EventSource := fun _ => {}
  typ : Ptr → ObjType := fun _ => {}
  cli : Ptr → Client := fun _ => {}
  objects : List Ptr := []
  path : List Ptr := []
  patterns : List Ptr := []
  objTypes : List Ptr := []
  clients : List Ptr := []
  connected : List Ptr := []
  next : Ptr := 0

/-- The key of an object in the path tree. -/
def Graph.key (g : Graph) (o : Ptr) : Str := (g.obj o).pathKey.getD []

def Graph.modObj (g : Graph) (o : Ptr) (f : Object → Object) : Graph :=
  { g with obj := Function.update g.obj o (f (g.obj o)) }

def Graph.modTyp (g : Graph) (t : Ptr) (f : ObjType → ObjType) : Graph :=
  { g with typ := Function.update g.typ t (f (g.typ t)) }

/-- A message that ubusd sends to a client. -/
inductive Out where
  | hello (id : UInt32)
  | status (ret : Nat)
  | data (objid : UInt32) (objtype : Option UInt32)
  | notify (objid : UInt32) (active : Bool) (seq : Nat)
  | unsubscribe (objid target : UInt32) (seq : Nat)
  | event (objid : UInt32) (id : Str) (seq : Nat)
deriving DecidableEq, Repr

/-- The state of ubusd: the registry, the counters, the messages sent so far, and what the allocator
    and the random source will answer (they fail on `false` and at the end of the list). -/
structure St where
  graph : Graph := {}
  eventSeen : Ptr → Nat := fun _ => 0
  invokeSeq : Ptr → Nat := fun _ => 0
  eventSeq : Nat := 0
  objEventSeq : Nat := 1
  out : List (Option Ptr × Out) := []
  mem : List Bool := []
  rnd : List UInt32 := []

/-! ## Memory, ids and messages -/

/-- An allocation whose address is not kept in the registry. -/
def malloc (s : St) : Bool × St :=
  match s.mem with
  | false :: mem => (false, { s with mem := mem })
  | _ => (true, { s with mem := s.mem.tail })

/-- `calloc` of a structure. -/
def calloc (s : St) : Option Ptr × St :=
  let s' := (malloc s).2
  if (malloc s).1 then
    (some s'.graph.next, { s' with graph := { s'.graph with next := s'.graph.next + 1 } })
  else (none, s')

/-- `UBUS_SYSTEM_OBJECT_MAX` -/
def ubusSystemObjectMax : UInt32 := 1024

/-- The loop of `ubus_alloc_id`. The `continue` for a small id jumps to the condition of the loop,
    so that such an id is inserted like any other. -/
def ubusAllocIdLoop (used : List UInt32) : List UInt32 → Option UInt32 × List UInt32
  | [] => (none, [])
  | id :: rnd => if id ∈ used then ubusAllocIdLoop used rnd else (some id, rnd)

/-- `ubus_alloc_id` in a tree that holds the ids `used`. -/
def ubusAllocId (used : List UInt32) (val : UInt32) (s : St) : Option UInt32 × St :=
  if val ≠ 0 then (if val ∈ used then none else some val, s)
  else
    ((ubusAllocIdLoop used s.rnd).1, { s with rnd := (ubusAllocIdLoop used s.rnd).2 })

/-- `ubus_msg_send` -/
def St.send (s : St) (cl : Option Ptr) (m : Out) : St := { s with out := s.out ++ [(cl, m)] }

/-- `ubusd_find_object` -/
def ubusdFindObject (g : Graph) (id : UInt32) : Option Ptr :=
  g.objects.find? fun o => (g.obj o).id = id

/-! ## Events -/

/-- `ubusd_send_event_msg` -/
def ubusdSendEventMsg (cl : Option Ptr) (o : Ptr) (id : Str) (s : St) : St :=
  if (s.graph.obj o).client = cl then s
  else if s.eventSeen o = s.objEventSeq then s
  else
    { s with
      eventSeen := Function.update s.eventSeen o s.objEventSeq
      eventSeq := s.eventSeq + 1 }.send (s.graph.obj o).client
      (.event (s.graph.obj o).id id (s.eventSeq + 1))

/-- The event sources that match an event. -/
def Graph.matching (g : Graph) (id : Str) : List Ptr :=
  matchLoop (fun e => (g.ev e).key) (fun e => (g.ev e).part) id 0 g.patterns

/-- The `UBUS_STATUS` codes that are used here. -/
inductive Status where
  | ok | invalidArgument | notFound | noData | permissionDenied | unknownError
deriving DecidableEq, Repr

/-- The codes of `enum ubus_msg_status`. -/
def Status.code : Status → Nat
  | .ok => 0 | .invalidArgument => 2 | .notFound => 4 | .noData => 5
  | .permissionDenied => 6 | .unknownError => 9

section
variable (acls : Acls)

/-- `ubusd_acl_check` for the client at an address; none is ubusd itself. -/
def Graph.allowed (g : Graph) (cl : Option Ptr) (obj : Option Str) (type : AclType) : Bool :=
  ubusdAclCheck acls (cl.map fun c => (g.cli c).cred) obj none type

/-- `ubusd_send_event` -/
def ubusdSendEvent (cl : Option Ptr) (id : Str) (s : St) : Status × St :=
  if s.graph.allowed acls cl (some id) .send then
    (.ok, (s.graph.matching id).foldl (fun s e => ubusdSendEventMsg cl (s.graph.ev e).obj id s)
      { s with objEventSeq := s.objEventSeq + 1 })
  else (.permissionDenied, s)

/-- The events "ubus.object.add" and "ubus.object.remove". -/
def objEventId (add : Bool) : Str :=
  (if add then "ubus.object.add" else "ubus.object.remove").toUTF8.toList

/-- `ubusd_send_obj_event` -/
def ubusdSendObjEvent (add : Bool) (s : St) : St := (ubusdSendEvent acls none (objEventId add) s).2

/-- `ubusd_delete_event_source` -/
def ubusdDeleteEventSource (s : St) (e : Ptr) : St :=
  let g := s.graph
  { s with graph := { g.modObj (g.ev e).obj fun o => { o with events := o.events.erase e } with
      patterns := g.patterns.erase e } }

/-- `ubusd_event_cleanup_object` -/
def ubusdEventCleanupObject (o : Ptr) (s : St) : St :=
  (s.graph.obj o).events.foldl ubusdDeleteEventSource s

/-- The arguments of an event registration; `before` is the byte that stands
    before the pattern in the message. -/
structure EvReg where
  object : Option UInt32
  pattern : Option Str
  before : UInt8

/-- The character `*`. -/
def star : UInt8 := 42

/-- Whether the pattern ends in `*` (read at `pattern[len - 1]`), and its text without it. -/
def splitPattern (before : UInt8) (pattern : Str) : Bool × Str :=
  if pattern.getLastD before = star then (true, pattern.dropLast) else (false, pattern)

/-- The new event source `p` of the object `o`. -/
def Graph.addEvent (g : Graph) (p o : Ptr) (key : Str) (part : Bool) : Graph :=
  let g := { g with ev := Function.update g.ev p ⟨o, key, part⟩ }
  let g := g.modObj o fun x => { x with events := p :: x.events }
  { g with patterns := Prefix.insertKey (fun e => (g.ev e).key) p g.patterns }

/-- `ubusd_alloc_event_pattern` -/
def ubusdAllocEventPattern (cl : Ptr) (reg : EvReg) (s : St) : Status × St :=
  match reg.object, reg.pattern with
  | some id, some pattern =>
    if id < ubusSystemObjectMax then (.permissionDenied, s)
    else
      match ubusdFindObject s.graph id with
      | none => (.notFound, s)
      | some o =>
        if (s.graph.obj o).client ≠ some cl then (.permissionDenied, s)
        else
          let p := splitPattern reg.before pattern
          if p.2 ≠ [] ∧ s.graph.allowed acls (some cl) (some p.2) .listen = false then
            (.permissionDenied, s)
          else
            match calloc s with
            | (none, s) => (.noData, s)
            | (some e, s) => (.ok, { s with graph := s.graph.addEvent e o p.2 p.1 })
  | _, _ => (.invalidArgument, s)

/-- `ubusd_forward_event`; events of ubusd itself cannot be sent. -/
def ubusdForwardEvent (cl : Ptr) (id : Option Str) (s : St) : Status × St :=
  match id with
  | none => (.invalidArgument, s)
  | some id =>
    if "ubus.".toUTF8.toList <+: id then (.permissionDenied, s)
    else ubusdSendEvent acls (some cl) id s

/-! ## Subscriptions -/

/-- `ubus_notify_subscription` -/
def ubusNotifySubscription (o : Ptr) (s : St) : St :=
  if (malloc s).1 then
    let s := (malloc s).2
    { s with invokeSeq := Function.update s.invokeSeq o (s.invokeSeq o + 1) }.send
      (s.graph.obj o).client
      (.notify (s.graph.obj o).id (decide ((s.graph.obj o).subscribers ≠ []))
        (s.invokeSeq o + 1))
  else (malloc s).2

/-- The new subscription `p` of the object `o` to `target`. -/
def Graph.addSub (g : Graph) (p o target : Ptr) : Graph :=
  let g := { g with sub := Function.update g.sub p ⟨o, target⟩ }
  let g := g.modObj target fun x => { x with subscribers := p :: x.subscribers }
  g.modObj o fun x => { x with targetList := p :: x.targetList }

/-- `ubus_subscribe` -/
def ubusSubscribe (o target : Ptr) (s : St) : St :=
  let first := (s.graph.obj target).subscribers = []
  match calloc s with
  | (none, s) => s
  | (some p, s) =>
    let s := { s with graph := s.graph.addSub p o target }
    if first then ubusNotifySubscription target s else s

/-- The subscription `p` is taken from both lists. -/
def Graph.delSub (g : Graph) (p : Ptr) : Graph :=
  let t := (g.sub p).target
  let o := (g.sub p).subscriber
  let g := g.modObj t fun x => { x with subscribers := x.subscribers.erase p }
  g.modObj o fun x => { x with targetList := x.targetList.erase p }

/-- `ubus_unsubscribe` -/
def ubusUnsubscribe (s : St) (p : Ptr) : St :=
  let o := (s.graph.sub p).target
  let s := { s with graph := s.graph.delSub p }
  if (s.graph.obj o).subscribers = [] then ubusNotifySubscription o s else s

/-- `ubus_notify_unsubscribe` -/
def ubusNotifyUnsubscribe (s : St) (p : Ptr) : St :=
  let o := (s.graph.sub p).subscriber
  let t := (s.graph.sub p).target
  let s' := (malloc s).2
  ubusUnsubscribe
    (if (malloc s).1 then
      { s' with invokeSeq := Function.update s'.invokeSeq o (s'.invokeSeq o + 1) }.send
        (s.graph.obj o).client
        (.unsubscribe (s.graph.obj o).id (s.graph.obj t).id (s'.invokeSeq o + 1))
    else s') p

/-! ## Object types and objects -/

/-- `ubus_unref_object_type` -/
def ubusUnrefObjectType (t : Ptr) (g : Graph) : Graph :=
  let g := g.modTyp t fun x => { x with refcount := x.refcount - 1 }
  if (g.typ t).refcount > 0 then g else { g with objTypes := g.objTypes.erase t }

/-- An attribute of a signature, and whether `blobmsg_check_attr` accepts it. -/
structure SigAttr where
  method : Method
  valid : Bool
deriving DecidableEq, Repr

/-- The loop of `ubus_create_obj_type`, with `ubus_create_obj_method`: the
    methods, unless it fails. -/
def createMethods : List SigAttr → St → Option (List Method) × St
  | [], s => (some [], s)
  | a :: sig, s =>
    if a.valid then
      if (malloc s).1 then
        let r := createMethods sig (malloc s).2
        (r.1.map (a.method :: ·), r.2)
      else (none, (malloc s).2)
    else (none, s)

/-- `ubus_create_obj_type` -/
def ubusCreateObjType (sig : List SigAttr) (s : St) : Option Ptr × St :=
  match calloc s with
  | (none, s) => (none, s)
  | (some t, s) =>
    let r := ubusAllocId (s.graph.objTypes.map fun t => (s.graph.typ t).id) 0 s
    match r.1 with
    | none => (none, r.2)
    | some id =>
      let g := r.2.graph
      let s := { r.2 with graph := { g with
        typ := Function.update g.typ t ⟨id, 1, []⟩
        objTypes := t :: g.objTypes } }
      let m := createMethods sig s
      match m.1 with
      | none => (none, { m.2 with graph := ubusUnrefObjectType t m.2.graph })
      | some ms => (some t, { m.2 with graph := m.2.graph.modTyp t fun x => { x with methods := ms } })

/-- `ubus_get_obj_type` -/
def ubusGetObjType (id : UInt32) (s : St) : Option Ptr × St :=
  match s.graph.objTypes.find? fun t => (s.graph.typ t).id = id with
  | none => (none, s)
  | some t =>
    (some t, { s with graph := s.graph.modTyp t fun x => { x with refcount := x.refcount + 1 } })

/-- The type gets a reference from an object. -/
def refType (type : Option Ptr) (g : Graph) : Graph :=
  match type with
  | none => g
  | some t => g.modTyp t fun x => { x with refcount := x.refcount + 1 }

/-- `ubus_unref_object_type`, if there is a type. -/
def unrefType (type : Option Ptr) (g : Graph) : Graph :=
  match type with
  | none => g
  | some t => ubusUnrefObjectType t g

/-- `ubusd_create_object_internal` -/
def ubusdCreateObjectInternal (type : Option Ptr) (id : UInt32) (s : St) : Option Ptr × St :=
  match calloc s with
  | (none, s) => (none, s)
  | (some o, s) =>
    let r := ubusAllocId (s.graph.objects.map fun o => (s.graph.obj o).id) id s
    match r.1 with
    | none => (none, r.2)
    | some id =>
      let g := r.2.graph
      (some o, { r.2 with
        graph := refType type { g with
          obj := Function.update g.obj o { id := id, type := type }
          objects := o :: g.objects }
        eventSeen := Function.update r.2.eventSeen o 0
        invokeSeq := Function.update r.2.invokeSeq o 0 })

/-- `list_del(&obj->list)`: the object leaves the list it is on. -/
def Graph.unlist (g : Graph) (o : Ptr) : Graph :=
  { g with cli := fun c => { g.cli c with objects := (g.cli c).objects.erase o } }

/-- `ubusd_free_object` -/
def ubusdFreeObject (s : St) (o : Ptr) : St :=
  let s := (s.graph.obj o).targetList.foldl ubusUnsubscribe s
  let s := (s.graph.obj o).subscribers.foldl ubusNotifyUnsubscribe s
  let s := ubusdEventCleanupObject o s
  let s :=
    if (s.graph.obj o).pathKey ≠ none then
      let s := ubusdSendObjEvent acls false s
      { s with graph := { s.graph with path := s.graph.path.erase o } }
    else s
  let g := s.graph.unlist o
  let g := { g with objects := g.objects.erase o }
  { s with graph := unrefType (g.obj o).type g }

/-- The attributes of an `UBUS_MSG_ADD_OBJECT` message. -/
structure AddAttr where
  objtype : Option UInt32 := none
  signature : Option (List SigAttr) := none
  objpath : Option Str := none
deriving DecidableEq, Repr

/-- `avl_insert` of the object into the path tree; it fails if the path is taken. -/
def Graph.insertPath (g : Graph) (o : Ptr) (path : Str) : Option Graph :=
  if ∃ x ∈ g.path, (g.obj x).pathKey = some path then none
  else
    let g := g.modObj o fun x => { x with pathKey := some path }
    some { g with path := Prefix.insertKey g.key o g.path }

/-- The object `o` is given to the client `cl`. -/
def Graph.own (g : Graph) (o cl : Ptr) : Graph :=
  let g := g.modObj o fun x => { x with client := some cl }
  let x := { g.cli cl with objects := o :: (g.cli cl).objects }
  { g with cli := Function.update g.cli cl x }

/-- The type of a new object: `OBJTYPE`, or else a new one for `SIGNATURE`. -/
def createType (attr : AddAttr) (s : St) : Option Ptr × St :=
  match attr.objtype, attr.signature with
  | some id, _ => ubusGetObjType id s
  | none, some sig => ubusCreateObjType sig s
  | none, none => (none, s)

/-- The part of `ubusd_create_object` after the object has been allocated. -/
def placeObject (cl : Ptr) (attr : AddAttr) (o : Ptr) (s : St) : Option Ptr × St :=
  match attr.objpath with
  | none => (some o, { s with graph := s.graph.own o cl })
  | some path =>
    if s.graph.allowed acls (some cl) (some path) .publish = false then
      (none, ubusdFreeObject acls s o)
    else if (malloc s).1 = false then (none, ubusdFreeObject acls (malloc s).2 o)
    else
      let s := (malloc s).2
      match s.graph.insertPath o path with
      | none => (none, ubusdFreeObject acls s o)
      | some g =>
        let s := ubusdSendObjEvent acls true { s with graph := g }
        (some o, { s with graph := s.graph.own o cl })

/-- `ubusd_create_object` -/
def ubusdCreateObject (cl : Ptr) (attr : AddAttr) (s : St) : Option Ptr × St :=
  let t := createType attr s
  let r := ubusdCreateObjectInternal t.1 0 t.2
  let s := { r.2 with graph := unrefType t.1 r.2.graph }
  match r.1 with
  | none => (none, s)
  | some o => placeObject acls cl attr o s

/-! ## Clients -/

/-- `ubusd_proto_new_client`; the credentials of the peer may be unknown. When the reply buffer
    cannot be allocated the id stays in the tree. -/
def ubusdProtoNewClient (cred : Option Cred) (s : St) : St :=
  match calloc s with
  | (none, s) => s
  | (some c, s) =>
    match cred with
    | none => s
    | some cred =>
      let r := ubusAllocId (s.graph.clients.map fun c => (s.graph.cli c).id) 0 s
      match r.1 with
      | none => r.2
      | some id =>
        let g := r.2.graph
        let g' := { g with cli := Function.update g.cli c ⟨id, cred, []⟩ }
        let m := malloc { r.2 with graph := { g' with clients := c :: g.clients } }
        let h := malloc m.2
        if m.1 = false then m.2
        else if h.1 = false then { h.2 with graph := { h.2.graph with clients := g.clients } }
        else
          { h.2 with graph := { h.2.graph with connected := c :: h.2.graph.connected } }.send
            (some c) (.hello id)

/-- `handle_client_disconnect` with `ubusd_proto_free_client` -/
def handleClientDisconnect (c : Ptr) (s : St) : St :=
  let s := (s.graph.cli c).objects.foldl (ubusdFreeObject acls) s
  { s with graph := { s.graph with
      clients := s.graph.clients.erase c
      connected := s.graph.connected.erase c } }

/-! ## Messages -/

/-- `ubusd_handle_add_object` -/
def ubusdHandleAddObject (cl : Ptr) (attr : AddAttr) (s : St) : Status × St :=
  let r := ubusdCreateObject acls cl attr s
  match r.1 with
  | none => (.invalidArgument, r.2)
  | some o =>
    let g := r.2.graph
    let type := if attr.signature.isSome then (g.obj o).type.map fun t => (g.typ t).id else none
    (.ok, r.2.send (some cl) (.data (g.obj o).id type))

/-- `ubusd_handle_remove_object` -/
def ubusdHandleRemoveObject (cl : Ptr) (objid : Option UInt32) (s : St) : Status × St :=
  match objid with
  | none => (.invalidArgument, s)
  | some id =>
    match ubusdFindObject s.graph id with
    | none => (.notFound, s)
    | some o =>
      if (s.graph.obj o).client ≠ some cl then (.permissionDenied, s)
      else
        let g := s.graph
        let type := ((g.obj o).type.filter fun t => (g.typ t).refcount = 1).map fun t => (g.typ t).id
        (.ok, ubusdFreeObject acls (s.send (some cl) (.data (g.obj o).id type)) o)

/-- The credentials let a client subscribe to an object: one without a path needs
    the same user or group. -/
def watchAllowed (cl target : Ptr) (g : Graph) : Bool :=
  match (g.obj target).pathKey with
  | none =>
    match (g.obj target).client with
    | none => false
    | some c => (g.cli c).cred.user = (g.cli cl).cred.user ||
        (g.cli c).cred.group = (g.cli cl).cred.group
  | some key => g.allowed acls (some cl) (some key) .subscribe

/-- `ubusd_handle_add_watch` -/
def ubusdHandleAddWatch (cl : Ptr) (objid target : Option UInt32) (s : St) : Status × St :=
  match objid, target with
  | some objid, some target =>
    match ubusdFindObject s.graph objid with
    | none => (.notFound, s)
    | some o =>
      if (s.graph.obj o).client ≠ some cl then (.invalidArgument, s)
      else
        match ubusdFindObject s.graph target with
        | none => (.notFound, s)
        | some t =>
          if (s.graph.obj t).client = none then (.notFound, s)
          else if (s.graph.obj t).client = some cl then (.invalidArgument, s)
          else if watchAllowed acls cl t s.graph then (.ok, ubusSubscribe o t s)
          else (.notFound, s)
  | _, _ => (.invalidArgument, s)

/-- `ubusd_handle_remove_watch` -/
def ubusdHandleRemoveWatch (cl : Ptr) (objid target : Option UInt32) (s : St) : Status × St :=
  match objid, target with
  | some objid, some target =>
    match ubusdFindObject s.graph objid with
    | none => (.notFound, s)
    | some o =>
      if (s.graph.obj o).client ≠ some cl then (.invalidArgument, s)
      else
        match (s.graph.obj o).targetList.find? fun p =>
            (s.graph.obj (s.graph.sub p).target).id = target with
        | none => (.notFound, s)
        | some p => (.ok, ubusUnsubscribe s p)
  | _, _ => (.invalidArgument, s)

/-- The requests that change the registry or use the event sources. -/
inductive Req where
  | addObject (attr : AddAttr)
  | removeObject (objid : Option UInt32)
  | subscribe (objid target : Option UInt32)
  | unsubscribe (objid target : Option UInt32)
  | register (reg : EvReg)
  | event (id : Option Str)

/-- `ubusd_proto_receive_message`: the handler, then the status. -/
def ubusdProtoReceiveMessage (cl : Ptr) (req : Req) (s : St) : St :=
  let r :=
    match req with
    | .addObject attr => ubusdHandleAddObject acls cl attr s
    | .removeObject objid => ubusdHandleRemoveObject acls cl objid s
    | .subscribe objid target => ubusdHandleAddWatch acls cl objid target s
    | .unsubscribe objid target => ubusdHandleRemoveWatch cl objid target s
    | .register reg => ubusdAllocEventPattern acls cl reg s
    | .event id => ubusdForwardEvent acls cl id s
  r.2.send (some cl) (.status r.1.code)

/-- What happens to ubusd. -/
inductive Act where
  | connect (cred : Option Cred)
  | message (cl : Ptr) (req : Req)
  | disconnect (cl : Ptr)

/-- A step, with the answers of the allocator and of the random source. -/
structure Step where
  act : Act
  mem : List Bool := []
  rnd : List UInt32 := []

def step (s : St) (st : Step) : St :=
  let s := { s with mem := st.mem, rnd := st.rnd }
  match st.act with
  | .connect cred => ubusdProtoNewClient cred s
  | .message cl req =>
    if cl ∈ s.graph.connected then ubusdProtoReceiveMessage acls cl req s else s
  | .disconnect cl => if cl ∈ s.graph.connected then handleClientDisconnect acls cl s else s

end

/-- `ubusd_obj_init`: the objects of the event, ACL and monitor interfaces. -/
def ubusdObjInit (mem : List Bool) : St :=
  let s := (ubusdCreateObjectInternal none 1 { mem := mem }).2
  let s := (ubusdCreateObjectInternal none 2 s).2
  (ubusdCreateObjectInternal none 3 s).2

end Ubus
