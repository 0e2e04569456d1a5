/-
  The handlers of ubusd on the bytes of the attributes (`ubusd_proto.c`, `ubusd_event.c`).

  A handler gets the payload of each attribute and nothing that stands around it, so that it fails
  if it accesses any other byte. `ubus_policy` has no entry for `TARGET` and `NO_REPLY`, whose
  payloads may therefore be too short, and the last character of an empty string is looked for
  before its first one.
-/
import IotLib.Ubus.AddObject
import IotLib.Ubus.LookupPath
import IotLib.Ubus.Proto

namespace Ubus.Raw

open Blobmsg (Bytes BlobmsgPolicy blobmsgParse)
open Returns

/-- An attribute of a message, with its payload only. -/
def attrOf (mem : Bytes) (attr : MsgAttr → Option ℕ) (x : MsgAttr) : Option Slice :=
  ((attr x).bind (payloadAt mem)).map (Slice.mk [])

/-- `blobmsg_data` of an attribute in a table. -/
def fieldOf (table : Slice) (a : ℕ) : Option Slice :=
  (blobmsgPayloadAt table.payload a).map (Slice.mk [])

/-- An attribute is read if it is there. -/
def readAttr {α : Type} (attr : Option Slice) (read : Slice → Option α) : Option (Option α) :=
  match attr with
  | none => some none
  | some s => (read s).map some

/-! ## The handlers -/

section
variable (acls : Acls) (cl : Ptr) (ub : Msg) (attr : MsgAttr → Option Slice)

/-- A handler of the registry. -/
def handle (f : St → Option (Status × St)) (b : Bus) : Option (Option ℕ × Bus) :=
  (f b.reg).map fun r => (some r.1.code, b.registry ub.hdr r.2)

/-- `ubusd_handle_add_object` -/
def ubusdHandleAddObject (s : St) : Option (Status × St) :=
  (readAttr (attr .objtype) Slice.getU32).bind fun objtype =>
    (readAttr (attr .objpath) Slice.str).bind fun objpath =>
      handleAddObject acls cl ⟨objtype, (attr .signature).map Slice.payload, objpath⟩ s

/-- `ubusd_handle_remove_object` -/
def ubusdHandleRemoveObject (s : St) : Option (Status × St) :=
  (readAttr (attr .objid) Slice.getU32).map fun objid => Ubus.ubusdHandleRemoveObject acls cl objid s

/-- `ubusd_handle_add_watch` -/
def ubusdHandleAddWatch (s : St) : Option (Status × St) :=
  match attr .objid, attr .target with
  | some objid, some target =>
    objid.getU32.bind fun objid =>
      match ubusdFindObject s.graph objid with
      | none => some (.notFound, s)
      | some o =>
        if (s.graph.obj o).client ≠ some cl then some (.invalidArgument, s)
        else
          target.getU32.map fun target =>
            match ubusdFindObject s.graph target with
            | none => (.notFound, s)
            | some t =>
              if (s.graph.obj t).client = none then (.notFound, s)
              else if (s.graph.obj t).client = some cl then (.invalidArgument, s)
              else if watchAllowed acls cl t s.graph then (.ok, ubusSubscribe o t s)
              else (.notFound, s)
  | _, _ => some (.invalidArgument, s)

/-- `ubusd_handle_remove_watch` -/
def ubusdHandleRemoveWatch (s : St) : Option (Status × St) :=
  match attr .objid, attr .target with
  | some objid, some target =>
    objid.getU32.bind fun objid =>
      match ubusdFindObject s.graph objid with
      | none => some (.notFound, s)
      | some o =>
        if (s.graph.obj o).client ≠ some cl then some (.invalidArgument, s)
        else
          target.getU32.map fun target =>
            match (s.graph.obj o).targetList.find? fun p =>
                (s.graph.obj (s.graph.sub p).target).id = target with
            | none => (.notFound, s)
            | some p => (.ok, ubusUnsubscribe s p)
  | _, _ => some (.invalidArgument, s)

/-- `__ubusd_handle_lookup`, from the cursor of a queued command if there is one: a status, or the
    object at which it goes on. -/
def handleLookup (t : Avl.Tree Ptr) (msg : LookupMsg) (k : ℕ) (cursor : Option Ptr) (s : LSt) :
    Option ((Status ⊕ Ptr) × LSt) :=
  match attr .objpath with
  | none =>
    match sendObjs acls cl msg k (s.reg.graph.pathFrom cursor) s with
    | (none, s) => some (.inl .ok, s)
    | (some o, s) => some (.inr o, s)
  | some objpath => (handleLookupPath acls cl msg k t objpath s).map fun r => (.inl r.1, r.2)

/-- `ubusd_handle_lookup`, with the status that `ubusd_proto_receive_message` sends. -/
def ubusdHandleLookup (t : Avl.Tree Ptr) (mem : Bool) (msg : LookupMsg) (k : ℕ) (s : LSt) :
    Option LSt :=
  if s.tx.txQueue = [] then
    (handleLookup acls cl attr t msg k none s).map fun
      | (.inl ret, s) => sendStatus msg k ret s
      | (.inr o, s) => ubusClientCmdQueueAdd mem msg k (some o) s
  else some (ubusClientCmdQueueAdd mem msg k none s)

/-- `evr_policy` -/
def evrPolicy : List BlobmsgPolicy :=
  [⟨some ⟨"pattern".toUTF8.toList, by decide +kernel⟩, .of .string⟩,
    ⟨some ⟨"object".toUTF8.toList, by decide +kernel⟩, .of .int32⟩]

/-- `ubusd_alloc_event_pattern` -/
def ubusdAllocEventPattern (msg : Option Slice) (s : St) : Option (Status × St) :=
  match msg with
  | none => some (.invalidArgument, s)
  | some msg =>
    (blobmsgParse msg.payload evrPolicy 0 msg.payload.length).bind fun r =>
      match r.2.getD 1 none, r.2.getD 0 none with
      | some object, some pattern =>
        (fieldOf msg object).bind fun object =>
          object.getU32.bind fun id =>
            if id < ubusSystemObjectMax then some (.permissionDenied, s)
            else
              match ubusdFindObject s.graph id with
              | none => some (.notFound, s)
              | some o =>
                if (s.graph.obj o).client ≠ some cl then some (.permissionDenied, s)
                else
                  (fieldOf msg pattern).bind fun pattern =>
                    pattern.cutStar.map fun (part, _, name) =>
                      if name ≠ [] ∧ s.graph.allowed acls (some cl) (some name) .listen = false then
                        (.permissionDenied, s)
                      else
                        match calloc s with
                        | (none, s) => (.noData, s)
                        | (some e, s) =>
                          (.ok, { s with graph := s.graph.addEvent e o name part })
      | _, _ => some (.invalidArgument, s)

/-- `ev_policy` -/
def evPolicy : List BlobmsgPolicy :=
  [⟨some ⟨"id".toUTF8.toList, by decide +kernel⟩, .of .string⟩,
    ⟨some ⟨"data".toUTF8.toList, by decide +kernel⟩, .of .table⟩]

/-- `ubusd_forward_event`; the data is copied to the messages that are sent. -/
def ubusdForwardEvent (msg : Option Slice) (s : St) : Option (Status × St) :=
  match msg with
  | none => some (.invalidArgument, s)
  | some msg =>
    (blobmsgParse msg.payload evPolicy 0 msg.payload.length).bind fun r =>
      match r.2.getD 0 none, r.2.getD 1 none with
      | some id, some data =>
        (fieldOf msg id).bind fun id =>
          id.str.bind fun id =>
            (fieldOf msg data).map fun _ => Ubus.ubusdForwardEvent acls cl (some id) s
      | _, _ => some (.invalidArgument, s)

/-- `recv_msg` of the objects of ubusd; those for the access list and the monitor read `OBJID`. -/
def recvMsg (parsers : Parsers) (id : UInt32) (method : Str) (b : Bus) : Option (Option ℕ × Bus) :=
  if id = 1 then
    if method = "register".toUTF8.toList then
      handle ub (ubusdAllocEventPattern acls cl (attr .data)) b
    else if method = "send".toUTF8.toList then
      handle ub (ubusdForwardEvent acls cl (attr .data)) b
    else some (some invalidCommand, b)
  else
    (readAttr (attr .objid) Slice.getU32).map fun objid =>
      Ubus.recvMsg acls parsers cl { ub with attrs := { objid := objid } } id method b

/-- `ubusd_handle_invoke` -/
def ubusdHandleInvoke (parsers : Parsers) (b : Bus) : Option (Option ℕ × Bus) :=
  match attr .method, attr .objid with
  | some method, some objid =>
    let g := b.reg.graph
    objid.getU32.bind fun id =>
      match ubusdFindObject g id with
      | none => some (some Status.notFound.code, b)
      | some o =>
        method.str.bind fun method =>
          if ubusdAclCheck acls (some (g.cli cl).cred) (g.obj o).pathKey (some method) .access =
              false then
            some (some Status.permissionDenied.code, b)
          else if (g.obj o).client = none then
            recvMsg acls cl ub attr parsers (g.obj o).id method b
          else
            let ub := { ub with attrs := { data := (attr .data).map Slice.payload } }
            some (none, ubusdForwardInvoke cl ub o method b none)
  | _, _ => some (some Status.invalidArgument.code, b)

/-- `ubusd_handle_notify` -/
def ubusdHandleNotify (b : Bus) : Option (Option ℕ × Bus) :=
  match attr .method, attr .objid with
  | some method, some objid =>
    (readAttr (attr .noReply) Slice.getInt8).bind fun noReply =>
      objid.getU32.bind fun objid =>
        method.str.map fun method =>
          Ubus.ubusdHandleNotify cl { ub with attrs :=
            { method := some method, objid := some objid, noReply := noReply.map (· ≠ 0)
              data := (attr .data).map Slice.payload } } b
  | _, _ => some (some Status.invalidArgument.code, b)

/-- `ubusd_handle_response`; the message goes on as it is. -/
def ubusdHandleResponse (b : Bus) : Option Bus :=
  let g := b.reg.graph
  match attr .objid with
  | none => some b
  | some objid =>
    if ub.hdr.type = .status ∧ attr .status = none then some b
    else if ub.hdr.type = .data ∧ attr .data = none then some b
    else
      objid.getU32.map fun objid =>
        match ubusdFindObject g objid with
        | none => b
        | some obj =>
          if some cl ≠ (g.obj obj).client then b
          else
            match ubusdGetClientById g ub.hdr.peer with
            | none => b
            | some dest => b.post dest { ub with hdr := { ub.hdr with peer := objid } } (some cl)

end

/-! ## Staying inside -/

/-- The handlers that take attributes; the cursor is that of a queued command. -/
inductive Handler where
  | addObject
  | removeObject
  | lookup
  | cmdLookup (cursor : Option Ptr)
  | invoke
  | notify
  | addWatch
  | removeWatch
  | response

/-- What a handler is called with besides the attributes. A lookup also has the tree of the paths,
    and whether its command can be queued. -/
structure Call where
  acls : Acls
  parsers : Parsers
  cl : Ptr
  ub : Msg
  bus : Bus
  lookups : LSt
  paths : Avl.Tree Ptr
  msg : LookupMsg
  token : ℕ
  mem : Bool

/-- The handler accesses no byte but those of the payloads. -/
def Inside (c : Call) (attr : MsgAttr → Option Slice) : Handler → Prop
  | .addObject => (ubusdHandleAddObject c.acls c.cl attr c.bus.reg).isSome
  | .removeObject => (ubusdHandleRemoveObject c.acls c.cl attr c.bus.reg).isSome
  | .lookup => (ubusdHandleLookup c.acls c.cl attr c.paths c.mem c.msg c.token c.lookups).isSome
  | .cmdLookup cursor =>
    (handleLookup c.acls c.cl attr c.paths c.msg c.token cursor c.lookups).isSome
  | .invoke => (ubusdHandleInvoke c.acls c.cl c.ub attr c.parsers c.bus).isSome
  | .notify => (ubusdHandleNotify c.cl c.ub attr c.bus).isSome
  | .addWatch => (ubusdHandleAddWatch c.acls c.cl attr c.bus.reg).isSome
  | .removeWatch => (ubusdHandleRemoveWatch c.cl attr c.bus.reg).isSome
  | .response => (ubusdHandleResponse c.cl c.ub attr c.bus).isSome

/-- `OBJID` is an object of the client, so that `TARGET` is read. -/
def Watches (cl : Ptr) (attr : MsgAttr → Option Slice) (g : Graph) (target : Slice) : Prop :=
  ∃ objid id o, attr .objid = some objid ∧ attr .target = some target ∧ objid.getU32 = some id ∧
    ubusdFindObject g id = some o ∧ (g.obj o).client = some cl

/-- The data registers a pattern for an object of the client, so that the pattern is read. -/
def Registers (cl : Ptr) (msg : Slice) (g : Graph) (pattern : Slice) : Prop :=
  ∃ r object p id o, blobmsgParse msg.payload evrPolicy 0 msg.payload.length = some r ∧
    r.2.getD 1 none = some object ∧ r.2.getD 0 none = some p ∧
    (fieldOf msg object).bind Slice.getU32 = some id ∧ fieldOf msg p = some pattern ∧
    ¬ id < ubusSystemObjectMax ∧ ubusdFindObject g id = some o ∧ (g.obj o).client = some cl

/-- `INVOKE` calls this method of an object of ubusd. -/
def Calls (acls : Acls) (cl : Ptr) (attr : MsgAttr → Option Slice) (g : Graph) (o : Ptr)
    (name : Str) : Prop :=
  ∃ objid id method, attr .objid = some objid ∧ objid.getU32 = some id ∧
    ubusdFindObject g id = some o ∧ attr .method = some method ∧ method.str = some name ∧
    ubusdAclCheck acls (some (g.cli cl).cred) (g.obj o).pathKey (some name) .access = true ∧
    (g.obj o).client = none

/-- Nothing is missing from the payloads: the attributes that `ubus_policy` leaves out are long
    enough where they are read, and no string is empty of which the last character is read. -/
def Suffices (c : Call) (attr : MsgAttr → Option Slice) : Handler → Prop
  | .addObject | .removeObject | .response => True
  | .lookup => c.lookups.tx.txQueue = [] → ∀ p, attr .objpath = some p → p.str ≠ some []
  | .cmdLookup _ => ∀ p, attr .objpath = some p → p.str ≠ some []
  | .invoke => ∀ o data pattern, Calls c.acls c.cl attr c.bus.reg.graph o "register".toUTF8.toList →
      (c.bus.reg.graph.obj o).id = 1 → attr .data = some data →
      Registers c.cl data c.bus.reg.graph pattern → pattern.str ≠ some []
  | .notify => attr .method ≠ none → attr .objid ≠ none →
      ∀ noReply, attr .noReply = some noReply → noReply.payload ≠ []
  | .addWatch | .removeWatch =>
    ∀ target, Watches c.cl attr c.bus.reg.graph target → 4 ≤ target.payload.length

/-! ## Reads -/

theorem getU32_isSome_iff {s : Slice} : s.getU32.isSome ↔ 4 ≤ s.payload.length := by
  unfold Slice.getU32
  split
  · rename_i heq
    rw [heq]
    simp
  · rename_i hne
    refine ⟨fun h => absurd h (by simp), fun h => ?_⟩
    obtain ⟨a, b, c, d, rest, heq⟩ : ∃ a b c d rest, s.payload = a :: b :: c :: d :: rest := by
      match s.payload, h with
      | a :: b :: c :: d :: rest, _ => exact ⟨a, b, c, d, rest, rfl⟩
    exact absurd heq (hne a b c d rest)

theorem getInt8_isSome_iff {s : Slice} : s.getInt8.isSome ↔ s.payload ≠ [] := by
  unfold Slice.getInt8
  rw [List.isSome_head?]

/-- Without the bytes before the payload, only a string with a last character can be looked at. -/
theorem cutStar_isSome_iff {s : Slice} {str : Str} (hbefore : s.before = []) (hstr : s.str = some str) :
    s.cutStar.isSome ↔ s.str ≠ some [] := by
  rw [hstr, Ne, Option.some_inj]
  by_cases hnil : str = []
  · subst hnil
    rw [Slice.cutStar_nil hstr, hbefore]
    simp
  · rw [Slice.cutStar_of_ne_nil hstr hnil]
    simp [hnil]

theorem readAttr_eq {α : Type} (attr : Option Slice) (read : Slice → Option α)
    (h : ∀ s, attr = some s → (read s).isSome) : ∃ r, readAttr attr read = some r := by
  cases attr with
  | none => exact ⟨none, rfl⟩
  | some s =>
    obtain ⟨x, hx⟩ := Option.isSome_iff_exists.1 (h s rfl)
    exact ⟨some x, by rw [readAttr, hx, Option.map_some]⟩

/-- The attributes have the types of the policy, and nothing stands before them. -/
def Typed (attr : MsgAttr → Option Slice) : Prop :=
  ∀ x s, attr x = some s → s.before = [] ∧ TypeOk (ubusPolicy x.id).type s.payload

/-- What `ubus_parse_msg` finds in a message. -/
theorem typed_attrOf {mem : Bytes} (hmem : Accepted mem) {attr : MsgAttr → Option ℕ}
    (hattr : ubusParseMsg mem = some attr) :
    Typed (attrOf mem attr) ∧
      ∀ x a, attr x = some a → ∃ p, payloadAt mem a = some p ∧ attrOf mem attr x = some ⟨[], p⟩ := by
  obtain ⟨_, hr, hparsed⟩ := ubusParseMsg_returns hmem
  obtain rfl := Option.some.inj (hattr.symm.trans hr)
  have hfound : ∀ x a, attr x = some a → ∃ p, payloadAt mem a = some p ∧
      attrOf mem attr x = some ⟨[], p⟩ ∧ TypeOk (ubusPolicy x.id).type p := by
    intro x a ha
    obtain ⟨-, p, hp, hok⟩ := hparsed x a ha
    exact ⟨p, hp, by rw [attrOf, ha, Option.bind_some, hp, Option.map_some], hok⟩
  refine ⟨fun x s hs => ?_, fun x a ha => ?_⟩
  · cases ha : attr x with
    | none =>
      rw [attrOf, ha] at hs
      cases hs
    | some a =>
      obtain ⟨p, -, heq, hok⟩ := hfound x a ha
      obtain rfl := Option.some.inj (heq.symm.trans hs)
      exact ⟨rfl, hok⟩
  · obtain ⟨p, hp, heq, -⟩ := hfound x a ha
    exact ⟨p, hp, heq⟩

section
variable {attr : MsgAttr → Option Slice} {s : Slice}

theorem Typed.u32 (h : Typed attr) {x : MsgAttr} (hx : (ubusPolicy x.id).type = .int32)
    (hs : attr x = some s) : s.getU32.isSome :=
  getU32_isSome_iff.2 ((h x s hs).2.1 hx).ge

theorem Typed.str (h : Typed attr) {x : MsgAttr} (hx : (ubusPolicy x.id).type = .string)
    (hs : attr x = some s) : ∃ str, s.str = some str :=
  Slice.exists_str ((h x s hs).2.2 hx)

end

/-- The fields of a parsed table have the types of their policies, and nothing stands before them. -/
theorem fieldOf_parsed {msg : Slice} {policy : List BlobmsgPolicy} {r : Int × List (Option ℕ)}
    (hr : blobmsgParse msg.payload policy 0 msg.payload.length = some r) {i a : ℕ} {p : BlobmsgPolicy}
    (hp : policy[i]? = some p) (ha : r.2.getD i none = some a) :
    ∃ s, fieldOf msg a = some s ∧ s.before = [] ∧ TypeOk (policyType p) s.payload := by
  obtain ⟨_, hr', hall⟩ := @blobmsgParse_conforms msg.payload _ _ (Nat.zero_add _).le policy
  obtain rfl := Option.some.inj (hr.symm.trans hr')
  have hget : r.2[i]? = some (some a) := by
    rw [List.getD_eq_getElem?_getD] at ha
    cases he : r.2[i]? with
    | none =>
      rw [he] at ha
      cases ha
    | some e =>
      rw [he, Option.getD_some] at ha
      rw [ha]
  obtain ⟨payload, hpay, hok⟩ := (List.forall₂_iff_get.1 hall).2 i
    (List.getElem?_eq_some_iff.1 hp).1 (List.getElem?_eq_some_iff.1 hget).1 a
    (by simpa using (List.getElem?_eq_some_iff.1 hget).2)
  refine ⟨⟨[], payload⟩, by rw [fieldOf, hpay, Option.map_some], rfl, ?_⟩
  have := (List.getElem?_eq_some_iff.1 hp).2
  rw [← this]
  exact hok

/-! ## The handlers stay inside -/

section
variable {acls : Acls} {cl : Ptr} {ub : Msg} {attr : MsgAttr → Option Slice}

theorem addObject_inside (h : Typed attr) (s : St) :
    (ubusdHandleAddObject acls cl attr s).isSome := by
  obtain ⟨objtype, htype⟩ := readAttr_eq (attr .objtype) Slice.getU32 fun _ => h.u32 rfl
  obtain ⟨objpath, hpath⟩ := readAttr_eq (attr .objpath) Slice.str fun _ hs =>
    Option.isSome_iff_exists.2 (h.str rfl hs)
  obtain ⟨a, ha⟩ := AddMsg.exists_decode ⟨objtype, (attr .signature).map Slice.payload, objpath⟩
  rw [ubusdHandleAddObject, htype, Option.bind_some, hpath, Option.bind_some, handleAddObject, ha]
  rfl

theorem removeObject_inside (h : Typed attr) (s : St) :
    (ubusdHandleRemoveObject acls cl attr s).isSome := by
  obtain ⟨objid, hid⟩ := readAttr_eq (attr .objid) Slice.getU32 fun _ => h.u32 rfl
  rw [ubusdHandleRemoveObject, hid]
  rfl

theorem response_inside (h : Typed attr) (b : Bus) : (ubusdHandleResponse cl ub attr b).isSome := by
  unfold ubusdHandleResponse
  dsimp only
  cases hid : attr .objid with
  | none => rfl
  | some objid =>
    dsimp only
    split_ifs
    · rfl
    · rfl
    · rw [Option.isSome_map]
      exact h.u32 rfl hid

/-- The target of a watch is read if the object is one of the client. -/
theorem watch_inside_iff (h : Typed attr) {g : Graph} {α : Type} {missing notFound foreign : α}
    {k : Ptr → UInt32 → α} :
    (match attr .objid, attr .target with
      | some objid, some target =>
        objid.getU32.bind fun objid =>
          match ubusdFindObject g objid with
          | none => some notFound
          | some o =>
            if (g.obj o).client ≠ some cl then some foreign else target.getU32.map (k o)
      | _, _ => some missing).isSome ↔
      ∀ target, Watches cl attr g target → 4 ≤ target.payload.length := by
  cases hid : attr .objid with
  | none =>
    refine ⟨fun _ _ hw => ?_, fun _ => rfl⟩
    obtain ⟨_, _, _, h', _⟩ := hw
    rw [hid] at h'
    cases h'
  | some objid =>
    cases htarget : attr .target with
    | none =>
      refine ⟨fun _ _ hw => ?_, fun _ => rfl⟩
      obtain ⟨_, _, _, _, h', _⟩ := hw
      rw [htarget] at h'
      cases h'
    | some target =>
      obtain ⟨id, hu32⟩ := Option.isSome_iff_exists.1 (h.u32 rfl hid)
      have hwatches : ∀ t, Watches cl attr g t ↔
          t = target ∧ ∃ o, ubusdFindObject g id = some o ∧ (g.obj o).client = some cl := by
        intro t
        constructor
        · rintro ⟨objid', id', o, h₁, h₂, h₃, h₄, h₅⟩
          obtain rfl := Option.some.inj (hid.symm.trans h₁)
          obtain rfl := Option.some.inj (hu32.symm.trans h₃)
          exact ⟨Option.some.inj (h₂.symm.trans htarget), o, h₄, h₅⟩
        · rintro ⟨rfl, o, h₄, h₅⟩
          exact ⟨objid, id, o, hid, htarget, hu32, h₄, h₅⟩
      simp only [hwatches, hu32, Option.bind_some]
      cases hfind : ubusdFindObject g id with
      | none => simp
      | some o =>
        dsimp only
        by_cases hcl : (g.obj o).client = some cl
        · rw [if_neg (not_not.2 hcl), Option.isSome_map, getU32_isSome_iff]
          exact ⟨fun hlen t ht => ht.1 ▸ hlen, fun hall => hall target ⟨rfl, o, rfl, hcl⟩⟩
        · rw [if_pos hcl]
          refine ⟨fun _ t ht => ?_, fun _ => rfl⟩
          obtain ⟨_, o', ho, hcl'⟩ := ht
          obtain rfl := Option.some.inj ho
          exact absurd hcl' hcl

theorem lookupPath_inside_iff (h : Typed attr) {p : Slice} (hp : attr .objpath = some p)
    {t : Avl.Tree Ptr} {msg : LookupMsg} {k : ℕ} {s : LSt} :
    (handleLookupPath acls cl msg k t p s).isSome ↔ p.str ≠ some [] := by
  obtain ⟨str, hstr⟩ := h.str rfl hp
  rw [← cutStar_isSome_iff (h .objpath p hp).1 hstr]
  unfold handleLookupPath
  cases hcut : p.cutStar with
  | none => simp
  | some c =>
    rw [Option.bind_some]
    refine ⟨fun _ => rfl, fun _ => ?_⟩
    dsimp only
    split
    · split <;> rfl
    · split <;> rfl

theorem lookup_inside_iff (h : Typed attr) {t : Avl.Tree Ptr} {msg : LookupMsg} {k : ℕ}
    {cursor : Option Ptr} {s : LSt} :
    (handleLookup acls cl attr t msg k cursor s).isSome ↔
      ∀ p, attr .objpath = some p → p.str ≠ some [] := by
  unfold handleLookup
  cases hp : attr .objpath with
  | none =>
    dsimp only
    refine ⟨fun _ p hp => absurd hp (by simp), fun _ => ?_⟩
    split <;> rfl
  | some p =>
    dsimp only
    rw [Option.isSome_map, lookupPath_inside_iff h hp]
    exact ⟨fun hne q hq => Option.some.inj hq ▸ hne, fun hall => hall p rfl⟩

theorem notify_inside_iff (h : Typed attr) (b : Bus) :
    (ubusdHandleNotify cl ub attr b).isSome ↔ (attr .method ≠ none → attr .objid ≠ none →
      ∀ noReply, attr .noReply = some noReply → noReply.payload ≠ []) := by
  unfold ubusdHandleNotify
  cases hmethod : attr .method with
  | none => simp
  | some method =>
    cases hid : attr .objid with
    | none => simp
    | some objid =>
      obtain ⟨id, hu32⟩ := Option.isSome_iff_exists.1 (h.u32 rfl hid)
      obtain ⟨str, hstr⟩ := h.str rfl hmethod
      simp only [hu32, hstr, Option.bind_some, Option.map_some]
      cases hreply : attr .noReply with
      | none => simp [readAttr]
      | some noReply =>
        simp only [readAttr, ne_eq, reduceCtorEq, not_false_eq_true, Option.some.injEq, forall_eq',
          forall_const]
        rw [← ne_eq, ← getInt8_isSome_iff]
        cases noReply.getInt8 <;> simp

/-- A registration reads the last character of its pattern. -/
theorem register_inside_iff (data : Option Slice) (s : St) :
    (ubusdAllocEventPattern acls cl data s).isSome ↔
      ∀ msg pattern, data = some msg → Registers cl msg s.graph pattern → pattern.str ≠ some [] := by
  cases data with
  | none =>
    refine ⟨fun _ _ _ h => ?_, fun _ => rfl⟩
    cases h
  | some msg =>
    obtain ⟨r, hr, -⟩ := @blobmsgParse_conforms msg.payload _ _ (Nat.zero_add _).le evrPolicy
    -- the pattern that is read, if there is one
    have hregisters : ∀ pattern, Registers cl msg s.graph pattern ↔
        ∃ object p id o, r.2.getD 1 none = some object ∧ r.2.getD 0 none = some p ∧
          (fieldOf msg object).bind Slice.getU32 = some id ∧ fieldOf msg p = some pattern ∧
          ¬ id < ubusSystemObjectMax ∧ ubusdFindObject s.graph id = some o ∧
          (s.graph.obj o).client = some cl := by
      intro pattern
      constructor
      · rintro ⟨r', object, p, id, o, hr', h⟩
        obtain rfl := Option.some.inj (hr.symm.trans hr')
        exact ⟨object, p, id, o, h⟩
      · rintro ⟨object, p, id, o, h⟩
        exact ⟨r, object, p, id, o, hr, h⟩
    have hmsg : (∀ msg' pattern, some msg = some msg' → Registers cl msg' s.graph pattern →
        pattern.str ≠ some []) ↔ ∀ pattern, Registers cl msg s.graph pattern →
        pattern.str ≠ some [] :=
      ⟨fun h pattern => h msg pattern rfl, fun h _ pattern heq => Option.some.inj heq ▸ h pattern⟩
    rw [hmsg]
    simp only [hregisters]
    unfold ubusdAllocEventPattern
    dsimp only
    rw [hr, Option.bind_some]
    cases hobject : r.2.getD 1 none with
    | none => simp
    | some object =>
      cases hpattern : r.2.getD 0 none with
      | none => simp
      | some p =>
        obtain ⟨so, hso, -, hint⟩ := fieldOf_parsed hr (i := 1) rfl hobject
        obtain ⟨sp, hsp, hbefore, hstring⟩ := fieldOf_parsed hr (i := 0) rfl hpattern
        obtain ⟨id, hid⟩ := Option.isSome_iff_exists.1 (getU32_isSome_iff.2 (hint.1 rfl).ge)
        obtain ⟨str, hstr⟩ := Slice.exists_str (hstring.2 rfl)
        simp only [hso, hsp, hid, Option.bind_some, Option.some.injEq, exists_and_left,
          exists_eq_left']
        by_cases hsys : id < ubusSystemObjectMax
        · simp [hsys]
        · cases hfind : ubusdFindObject s.graph id with
          | none => simp [hsys]
          | some o =>
            by_cases hcl : (s.graph.obj o).client = some cl
            · simp only [hsys, hcl, ne_eq, not_true_eq_false, not_false_eq_true, if_false,
                Option.isSome_map, Option.some.injEq, exists_eq_left', and_true, forall_eq']
              exact cutStar_isSome_iff hbefore hstr
            · simp [hsys, hcl]

theorem forwardEvent_inside (data : Option Slice) (s : St) :
    (ubusdForwardEvent acls cl data s).isSome := by
  cases data with
  | none => rfl
  | some msg =>
    obtain ⟨r, hr, -⟩ := @blobmsgParse_conforms msg.payload _ _ (Nat.zero_add _).le evPolicy
    unfold ubusdForwardEvent
    dsimp only
    rw [hr, Option.bind_some]
    cases hid : r.2.getD 0 none with
    | none => rfl
    | some id =>
      cases hdata : r.2.getD 1 none with
      | none => rfl
      | some d =>
        obtain ⟨sid, hsid, -, hstring⟩ := fieldOf_parsed hr (i := 0) rfl hid
        obtain ⟨sd, hsd, -⟩ := fieldOf_parsed hr (i := 1) rfl hdata
        obtain ⟨str, hstr⟩ := Slice.exists_str (hstring.2 rfl)
        dsimp only
        rw [hsid, Option.bind_some, hstr, Option.bind_some, hsd]
        rfl

theorem handle_isSome {f : St → Option (Status × St)} {b : Bus} :
    (handle ub f b).isSome ↔ (f b.reg).isSome := by rw [handle, Option.isSome_map]

theorem recvMsg_inside_iff (h : Typed attr) (parsers : Parsers) (id : UInt32) (method : Str) (b : Bus) :
    (recvMsg acls cl ub attr parsers id method b).isSome ↔
      (method = "register".toUTF8.toList → id = 1 → ∀ msg pattern, attr .data = some msg →
        Registers cl msg b.reg.graph pattern → pattern.str ≠ some []) := by
  unfold recvMsg
  by_cases hid : id = 1
  · rw [if_pos hid]
    by_cases hregister : method = "register".toUTF8.toList
    · rw [if_pos hregister, handle_isSome, register_inside_iff]
      exact ⟨fun hall _ _ => hall, fun hall => hall hregister hid⟩
    · rw [if_neg hregister]
      refine ⟨fun _ heq => absurd heq hregister, fun _ => ?_⟩
      split_ifs
      · exact handle_isSome.2 (forwardEvent_inside _ _)
      · rfl
  · rw [if_neg hid, Option.isSome_map]
    obtain ⟨objid, hobjid⟩ := readAttr_eq (attr .objid) Slice.getU32 fun _ => h.u32 rfl
    rw [hobjid]
    exact ⟨fun _ _ heq => absurd heq hid, fun _ => rfl⟩

theorem invoke_inside_iff (h : Typed attr) (parsers : Parsers) (b : Bus) :
    (ubusdHandleInvoke acls cl ub attr parsers b).isSome ↔
      ∀ o data pattern, Calls acls cl attr b.reg.graph o "register".toUTF8.toList →
        (b.reg.graph.obj o).id = 1 → attr .data = some data →
        Registers cl data b.reg.graph pattern → pattern.str ≠ some [] := by
  unfold ubusdHandleInvoke
  cases hmethod : attr .method with
  | none =>
    refine ⟨fun _ _ _ _ hcalls => ?_, fun _ => rfl⟩
    obtain ⟨_, _, _, -, -, -, h', -⟩ := hcalls
    rw [hmethod] at h'
    cases h'
  | some method =>
    cases hobjid : attr .objid with
    | none =>
      refine ⟨fun _ _ _ _ hcalls => ?_, fun _ => rfl⟩
      obtain ⟨_, _, _, h', -⟩ := hcalls
      rw [hobjid] at h'
      cases h'
    | some objid =>
      obtain ⟨id, hu32⟩ := Option.isSome_iff_exists.1 (h.u32 rfl hobjid)
      obtain ⟨name, hname⟩ := h.str rfl hmethod
      set g := b.reg.graph with hg
      have hcalls : ∀ o n, Calls acls cl attr g o n ↔ ubusdFindObject g id = some o ∧ name = n ∧
          ubusdAclCheck acls (some (g.cli cl).cred) (g.obj o).pathKey (some n) .access = true ∧
          (g.obj o).client = none := by
        intro o n
        constructor
        · rintro ⟨objid', id', method', h₁, h₂, h₃, h₄, h₅, h₆⟩
          obtain rfl := Option.some.inj (hobjid.symm.trans h₁)
          obtain rfl := Option.some.inj (hu32.symm.trans h₂)
          obtain rfl := Option.some.inj (hmethod.symm.trans h₄)
          exact ⟨h₃, Option.some.inj (hname.symm.trans h₅), h₆⟩
        · rintro ⟨h₃, rfl, h₆⟩
          exact ⟨objid, id, method, hobjid, hu32, h₃, hmethod, hname, h₆⟩
      simp only [hcalls]
      rw [hu32, Option.bind_some]
      cases hfind : ubusdFindObject g id with
      | none => simp
      | some o =>
        dsimp only
        rw [hname, Option.bind_some]
        split_ifs with hacl hclient
        · refine ⟨fun _ o' _ _ h' => ?_, fun _ => rfl⟩
          obtain ⟨ho, hn, hacl', _⟩ := h'
          obtain rfl := Option.some.inj ho
          rw [← hn, hacl] at hacl'
          cases hacl'
        · rw [recvMsg_inside_iff h]
          constructor
          · rintro hall o' data pattern ⟨ho, hn, -⟩ hone
            obtain rfl := Option.some.inj ho
            exact hall hn hone data pattern
          · intro hall hn hone data pattern
            refine hall o data pattern ⟨rfl, hn, ?_, hclient⟩ hone
            rw [← hn]
            simpa using hacl
        · refine ⟨fun _ o' _ _ h' => ?_, fun _ => rfl⟩
          obtain ⟨ho, _, _, hclient'⟩ := h'
          obtain rfl := Option.some.inj ho
          exact absurd hclient' hclient

end

/-- **Handlers stay inside of the attributes** that `ubus_parse_msg` finds in a message exactly if
    nothing is missing from the payloads that they read. -/
theorem handlers_inside_iff {mem : Bytes} (hmem : Accepted mem) {attr : MsgAttr → Option ℕ}
    (hattr : ubusParseMsg mem = some attr) (c : Call) (h : Handler) :
    (∀ x a, attr x = some a → ∃ p, payloadAt mem a = some p ∧ attrOf mem attr x = some ⟨[], p⟩) ∧
      (Inside c (attrOf mem attr) h ↔ Suffices c (attrOf mem attr) h) := by
  obtain ⟨htyped, hfound⟩ := typed_attrOf hmem hattr
  refine ⟨hfound, ?_⟩
  cases h with
  | addObject => exact ⟨fun _ => trivial, fun _ => addObject_inside htyped _⟩
  | removeObject => exact ⟨fun _ => trivial, fun _ => removeObject_inside htyped _⟩
  | lookup =>
    unfold Inside Suffices ubusdHandleLookup
    dsimp only
    split_ifs with htx
    · rw [Option.isSome_map, lookup_inside_iff htyped]
      exact ⟨fun hall _ => hall, fun hall => hall htx⟩
    · exact ⟨fun _ h => absurd h htx, fun _ => rfl⟩
  | cmdLookup cursor => exact lookup_inside_iff htyped
  | invoke => exact invoke_inside_iff htyped c.parsers c.bus
  | notify => exact notify_inside_iff htyped c.bus
  | addWatch => exact watch_inside_iff htyped
  | removeWatch => exact watch_inside_iff htyped
  | response => exact ⟨fun _ => trivial, fun _ => response_inside htyped _⟩

/-- A notification by a client, in a ubusd that has started. -/
def oneCall : Call where
  acls := Acls.empty
  parsers := ⟨fun _ => ⟨none, none, 0⟩, fun _ => none, fun _ _ => []⟩
  cl := 3
  ub := ⟨⟨.notify, 1, 0⟩, {}⟩
  bus := { reg := ubusdObjInit [] }
  lookups := { reg := ubusdObjInit [] }
  paths := .nil
  msg := ⟨1, 0, none⟩
  token := 0
  mem := true

/-- With a byte in `NO_REPLY`, a notification stays inside. -/
theorem inside_noReply :
    let mem : Bytes := [0, 0, 0, 28, 4, 0, 0, 6, 97, 0, 0, 0, 3, 0, 0, 8, 0, 0, 0, 1, 10, 0, 0, 5, 1, 0, 0, 0]
    Accepted mem ∧ ∃ attr, ubusParseMsg mem = some attr ∧ attr .noReply = some 20 ∧
      Inside oneCall (attrOf mem attr) .notify := by
  intro mem
  have hmem : Accepted mem := by
    unfold Accepted
    decide +kernel
  obtain ⟨attr, hattr, ha⟩ : ∃ attr, ubusParseMsg mem = some attr ∧ attr .noReply = some 20 := by
    have : (ubusParseMsg mem).map (fun attr => attr .noReply) = some (some 20) := by decide +kernel
    exact Option.map_eq_some_iff.1 this
  have hpay : payloadAt mem 20 = some [1] := by decide +kernel
  refine ⟨hmem, attr, hattr, ha, (handlers_inside_iff hmem hattr oneCall .notify).2.2 fun _ _ noReply h => ?_⟩
  rw [attrOf, ha, Option.bind_some, hpay] at h
  obtain rfl := Option.some.inj h
  simp

/-- An empty `NO_REPLY` is read beyond its end. -/
theorem notify_outside :
    ∃ (mem : Bytes) (attr : MsgAttr → Option ℕ), Accepted mem ∧ ubusParseMsg mem = some attr ∧
      ¬ Inside oneCall (attrOf mem attr) .notify := by
  let mem : Bytes := [0, 0, 0, 24, 4, 0, 0, 6, 97, 0, 0, 0, 3, 0, 0, 8, 0, 0, 0, 1, 10, 0, 0, 4]
  have hnone : (ubusParseMsg mem).map (fun attr =>
      (ubusdHandleNotify 3 ⟨⟨.notify, 1, 0⟩, {}⟩ (attrOf mem attr)
        { reg := ubusdObjInit [] }).isSome) = some false := by decide +kernel
  obtain ⟨attr, hattr, hfalse⟩ := Option.map_eq_some_iff.1 hnone
  refine ⟨mem, attr, ?_, hattr, fun h => ?_⟩
  · unfold Accepted
    decide +kernel
  · rw [Inside] at h
    exact absurd (hfalse.symm.trans h) (by decide)

end Ubus.Raw
