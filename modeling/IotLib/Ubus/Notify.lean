/-
  Notifications in libubus (`libubus-req.c`): the replies that are waited for are the bits of
  `pending`, over an array of ids that ubusd's status message fills.
-/
import IotLib.Lib.Run
import IotLib.Ubus.Proto

namespace Ubus.Notify

open Run List

/-! ## Requests -/

/-- `struct ubus_request` with `struct ubus_notify_request`: which callbacks the user gave, and what
    `status_msg` and `status_code` say. -/
structure Req where
  peer : UInt32 := 0
  seq : UInt16 := 0
  notify : Bool := false
  rawDataCb : Bool := false
  dataCb : Bool := false
  statusCb : Bool := false
  completeCb : Bool := false
  status : Option UInt32 := none
  pending : BitVec 32 := 0
  id : ℕ → UInt32 := fun _ => 0

/-- A callback of the user is called. -/
inductive Event where
  | data (m : Msg)
  | status (id : ℕ) (ret : UInt32)
  | complete (ret : UInt32)
deriving DecidableEq, Repr

/-- `struct ubus_context`: the requests that were started, those on the list, and the calls so far. -/
structure Ctx where
  count : ℕ := 0
  req : ℕ → Req := fun _ => {}
  requests : List ℕ := []
  events : List (ℕ × Event) := []

def Ctx.mod (c : Ctx) (r : ℕ) (f : Req → Req) : Ctx :=
  { c with req := Function.update c.req r (f (c.req r)) }

def Ctx.call (c : Ctx) (r : ℕ) (e : Event) : Ctx := { c with events := c.events ++ [(r, e)] }

/-- `ubus_req_complete_cb` -/
def ubusReqCompleteCb (r : ℕ) (c : Ctx) : Ctx :=
  let q := c.req r
  if q.completeCb then (c.mod r fun q => { q with completeCb := false }).call r (.complete (q.status.getD 0))
  else c

/-- `ubus_set_req_status` -/
def ubusSetReqStatus (r : ℕ) (ret : UInt32) (c : Ctx) : Ctx :=
  ubusReqCompleteCb r
    ({ c with requests := c.requests.filter (· ≠ r) }.mod r fun q => { q with status := some ret })

/-- The loop of `ubus_find_notify_id`. -/
def findLoop (id : ℕ → UInt32) (objid : UInt32) : ℕ → ℕ → BitVec 32 → Option ℕ
  | 0, _, _ => none
  | n + 1, i, pending =>
    if pending = 0 then none
    else if pending.getLsbD 0 = true ∧ id i = objid then some i
    else findLoop id objid n (i + 1) (pending >>> 1)

/-- `ubus_find_notify_id`; after 32 shifts no bit is left. -/
def ubusFindNotifyId (n : Req) (objid : UInt32) : Option ℕ := findLoop n.id objid 33 0 n.pending

/-- The body of the loop of `ubus_find_request`: whether this is the request. -/
def Req.found (q : Req) (seq : UInt16) (peer : UInt32) : Bool :=
  seq = q.seq &&
    if q.notify then q.pending ≠ 0 && (ubusFindNotifyId q peer).isSome else peer = q.peer

/-- `ubus_find_request` -/
def ubusFindRequest (c : Ctx) (hdr : MsgHdr) : Option ℕ :=
  c.requests.find? fun r => (c.req r).found hdr.seq hdr.peer

/-- The loop over the ids of ubusd's status message. -/
def addIds : List UInt32 → ℕ → Req → Req
  | [], _, q => q
  | cur :: ids, idx, q =>
    let q := { q with pending := q.pending ||| 1#32 <<< idx, id := Function.update q.id idx cur }
    if idx + 1 = ubusMaxNotifyPeers + 1 then q else addIds ids (idx + 1) q

/-- What `ubus_process_notify_status` does with ubusd's message, which comes first, or that of a
    subscriber. -/
def readNotifyStatus (r id : ℕ) (m : Msg) (c : Ctx) : Ctx :=
  if id = 0 then c.mod r (addIds (m.attrs.subscribers.getD []) 1)
  else if (c.req r).statusCb then c.call r (.status id (m.attrs.status.getD 0))
  else c

/-- `ubus_process_notify_status` -/
def ubusProcessNotifyStatus (r id : ℕ) (m : Msg) (c : Ctx) : Ctx :=
  let c := readNotifyStatus r id m
    (c.mod r fun q => { q with pending := q.pending &&& ~~~(1#32 <<< id) })
  if (c.req r).pending = 0 then ubusSetReqStatus r 0 c else c

/-- `UBUS_STATUS_INVALID_ARGUMENT` -/
def invalidArgument : UInt32 := 2

/-- `ubus_process_req_status` -/
def ubusProcessReqStatus (r : ℕ) (m : Msg) (c : Ctx) : Ctx :=
  ubusSetReqStatus r (m.attrs.status.getD invalidArgument)
    (c.mod r fun q => { q with peer := m.hdr.peer })

/-- `ubus_process_req_data`, for a request whose callbacks do not run. -/
def ubusProcessReqData (r : ℕ) (m : Msg) (c : Ctx) : Ctx :=
  if (c.req r).rawDataCb || ((c.req r).dataCb && m.attrs.data.isSome) then c.call r (.data m) else c

/-- `ubus_process_req_msg` -/
def ubusProcessReqMsg (m : Msg) (c : Ctx) : Ctx :=
  match ubusFindRequest c m.hdr with
  | none => c
  | some r =>
    match m.hdr.type with
    | .status =>
      match if (c.req r).notify then ubusFindNotifyId (c.req r) m.hdr.peer else none with
      | some id => ubusProcessNotifyStatus r id m c
      | none => ubusProcessReqStatus r m c
    | .data => ubusProcessReqData r m c
    | _ => c

/-! ## Starting requests -/

/-- `__ubus_notify_async`: the status of ubusd is waited for first. -/
def ubusNotifyAsync (obj : UInt32) (seq : UInt16) (dataCb statusCb completeCb : Bool) : Req where
  peer := obj
  seq := seq
  notify := true
  dataCb := dataCb
  statusCb := statusCb
  completeCb := completeCb
  pending := 1
  id := Function.update (fun _ => 0) 0 obj

/-- What happens: a message is processed, another request is started and put on the list
    (`ubus_complete_request_async`), or one is taken off it (`ubus_abort_request`, a timeout). -/
inductive Step where
  | msg (m : Msg)
  | start (q : Req)
  | drop (r : ℕ)

def step (c : Ctx) : Step → Ctx
  | .msg m => ubusProcessReqMsg m c
  | .start q =>
    { c with count := c.count + 1, req := Function.update c.req c.count q, requests := c.count :: c.requests }
  | .drop r => { c with requests := c.requests.filter (· ≠ r) }

/-- The calls for a request. -/
def Ctx.calls (c : Ctx) (r : ℕ) : List Event :=
  c.events.filterMap fun e => if e.1 = r then some e.2 else none

/-- A status message with the sequence number of the request, that no request before it on the list
    takes. -/
def Ctx.offers (c : Ctx) (r : ℕ) (m : Msg) : Bool :=
  m.hdr.type = .status && m.hdr.seq = (c.req r).seq && r ∈ c.requests &&
    (c.requests.takeWhile (· ≠ r)).all fun r' => !(c.req r').found m.hdr.seq m.hdr.peer

/-- The peer of a status message that is offered to the request. -/
def Ctx.offer (c : Ctx) (r : ℕ) : Step → List UInt32
  | .msg m => if c.offers r m then [m.hdr.peer] else []
  | _ => []

/-- The peers of the status messages that were offered to the request. -/
def offered (r : ℕ) : Ctx → List Step → List UInt32
  | _, [] => []
  | c, a :: as => c.offer r a ++ offered r (step c a) as

/-! ## The bits -/

section
variable {q : Req} {objid : UInt32} {i : ℕ}

/-- The numbers of the entries that are waited for. -/
def Req.open (q : Req) : List ℕ := (List.range 32).filter fun j => q.pending.getLsbD j

/-- The ids that are waited for. -/
def Req.openIds (q : Req) : List UInt32 := q.open.map q.id

section
-- the equations of these definitions, which the lemmas below rewrite with
attribute [local simp] Ctx.offers Req.found Req.open Req.openIds addIds findLoop readNotifyStatus
  ubusProcessNotifyStatus ubusProcessReqMsg ubusReqCompleteCb ubusSetReqStatus
end

theorem mem_open : i ∈ q.open ↔ q.pending.getLsbD i = true := by
  unfold Req.open
  rw [List.mem_filter, List.mem_range]
  refine ⟨fun h => h.2, fun h => ⟨?_, h⟩⟩
  by_contra hge
  rw [BitVec.getLsbD_of_ge _ _ (Nat.le_of_not_lt hge)] at h
  cases h

theorem open_nodup (q : Req) : q.open.Nodup := List.nodup_range.filter _

theorem open_eq_nil : q.open = [] ↔ q.pending = 0 := by
  rw [List.eq_nil_iff_forall_not_mem]
  constructor
  · intro h
    refine BitVec.eq_of_getLsbD_eq fun j _ => ?_
    rw [Bool.eq_false_iff.2 fun hj => h j (mem_open.2 hj), BitVec.ofNat_eq_ofNat, BitVec.getLsbD_zero]
  · intro h j hj
    have hbit := mem_open.1 hj
    rw [h, BitVec.ofNat_eq_ofNat, BitVec.getLsbD_zero] at hbit
    cases hbit

/-- The loop goes through the bits from the lowest on. -/
theorem findLoop_eq (id : ℕ → UInt32) (objid : UInt32) (pending : BitVec 32) (n i : ℕ)
    (hn : 33 ≤ n + i) : findLoop id objid n i (pending >>> i) =
      (List.range' i (32 - i)).find? fun j => pending.getLsbD j && id j = objid := by
  induction n generalizing i with
  | zero =>
    rw [findLoop, Nat.sub_eq_zero_of_le (by omega), List.range'_zero, List.find?_nil]
  | succ n ih =>
    rw [findLoop]
    by_cases hzero : pending >>> i = 0
    · rw [if_pos hzero, eq_comm, List.find?_eq_none]
      intro j hj
      have hle := (List.mem_range'_1.1 hj).1
      have hbit : (pending >>> i).getLsbD (j - i) = false := by
        rw [hzero, BitVec.ofNat_eq_ofNat, BitVec.getLsbD_zero]
      rw [BitVec.getLsbD_ushiftRight, Nat.add_sub_cancel' hle] at hbit
      rw [hbit, Bool.false_and]
      exact Bool.false_ne_true
    · have hi : i < 32 := by
        by_contra hge
        refine hzero (BitVec.eq_of_getLsbD_eq fun j _ => ?_)
        rw [BitVec.getLsbD_ushiftRight, BitVec.getLsbD_of_ge _ _ (by omega), BitVec.ofNat_eq_ofNat,
          BitVec.getLsbD_zero]
      have hbit : (pending >>> i).getLsbD 0 = pending.getLsbD i := by
        rw [BitVec.getLsbD_ushiftRight, Nat.add_zero]
      have hrange : List.range' i (32 - i) = i :: List.range' (i + 1) (32 - (i + 1)) := by
        rw [show 32 - i = (32 - (i + 1)) + 1 by omega, List.range'_succ]
      rw [if_neg hzero, hbit, hrange, List.find?_cons, ← BitVec.shiftRight_add, ih (i + 1) (by omega)]
      by_cases hp : pending.getLsbD i = true ∧ id i = objid
      · rw [if_pos hp, hp.1, decide_eq_true hp.2]
        rfl
      · rw [if_neg hp]
        have hfalse : (pending.getLsbD i && decide (id i = objid)) = false := by
          simpa using hp
        rw [hfalse]

/-- The first entry that is waited for with this id. -/
theorem ubusFindNotifyId_eq : ubusFindNotifyId q objid = q.open.find? fun j => q.id j = objid := by
  have h := findLoop_eq q.id objid q.pending 33 0 (by decide)
  rw [BitVec.ushiftRight_zero] at h
  unfold ubusFindNotifyId Req.open
  rw [h, List.find?_filter, List.range_eq_range']
  simp only [Nat.sub_zero, Bool.decide_and, Bool.decide_eq_true]

theorem found_id (h : ubusFindNotifyId q objid = some i) : i ∈ q.open ∧ q.id i = objid := by
  rw [ubusFindNotifyId_eq] at h
  exact ⟨List.mem_of_find?_eq_some h, by simpa using List.find?_some h⟩

theorem found_iff : (ubusFindNotifyId q objid).isSome ↔ objid ∈ q.openIds := by
  rw [ubusFindNotifyId_eq, List.find?_isSome, Req.openIds, List.mem_map]
  constructor
  · rintro ⟨j, hj, hid⟩
    exact ⟨j, hj, of_decide_eq_true hid⟩
  · rintro ⟨j, hj, hid⟩
    exact ⟨j, hj, decide_eq_true hid⟩

/-- When a notification is the request of a message. -/
theorem found_notify (h : q.notify = true) {seq : UInt16} :
    q.found seq objid = true ↔ seq = q.seq ∧ objid ∈ q.openIds := by
  unfold Req.found
  rw [Bool.and_eq_true, if_pos h, Bool.and_eq_true, decide_eq_true_eq, decide_eq_true_eq, found_iff]
  refine and_congr_right fun _ => and_iff_right_of_imp fun hmem hzero => ?_
  rw [Req.openIds, open_eq_nil.2 hzero] at hmem
  cases hmem

/-- The first element with a value is the one that `erase` removes from the values. -/
theorem map_erase_find {f : ℕ → UInt32} {l : List ℕ} (h : l.find? (fun j => f j = objid) = some i) :
    (l.erase i).map f = (l.map f).erase objid := by
  induction l with
  | nil => cases h
  | cons j l ih =>
    rw [List.find?_cons] at h
    by_cases hj : f j = objid
    · rw [decide_eq_true hj] at h
      obtain rfl := Option.some.inj h
      rw [List.erase_cons_head, List.map_cons, hj, List.erase_cons_head]
    · rw [decide_eq_false hj] at h
      have hne : j ≠ i := by
        rintro rfl
        exact hj (by simpa using List.find?_some h)
      rw [List.erase_cons_tail (by simpa using hne), List.map_cons, List.map_cons,
        List.erase_cons_tail (by simpa using hj), ih h]

theorem getLsbD_bit {j : ℕ} (hj : j < 32) : (1#32 <<< i).getLsbD j = decide (j = i) := by
  rw [BitVec.getLsbD_shiftLeft, BitVec.getLsbD_one, decide_eq_true hj, Bool.true_and]
  by_cases h : j < i
  · rw [decide_eq_true h, decide_eq_false (by omega : ¬ j = i)]
    rfl
  · rw [decide_eq_false h, Bool.not_false, Bool.true_and, decide_eq_true (by omega : 0 < 32),
      Bool.true_and]
    exact decide_eq_decide.2 (by omega)

/-- Clearing a bit. -/
theorem open_clear (q : Req) (i : ℕ) :
    ({ q with pending := q.pending &&& ~~~(1#32 <<< i) } : Req).open = q.open.erase i := by
  rw [(open_nodup q).erase_eq_filter]
  unfold Req.open
  rw [List.filter_filter]
  refine List.filter_congr fun j hj => ?_
  have hlt := List.mem_range.1 hj
  rw [BitVec.getLsbD_and, BitVec.getLsbD_not, getLsbD_bit hlt, decide_eq_true hlt, Bool.true_and,
    Bool.and_comm]
  congr 1

/-- The ids of a list get the bits from `idx` on, as far as there are bits. -/
theorem addIds_bits (ids : List UInt32) (idx : ℕ) (q : Req) (hidx : idx ≤ ubusMaxNotifyPeers) (j : ℕ)
    (hj : j < 32) : (addIds ids idx q).pending.getLsbD j = (q.pending.getLsbD j ||
      (idx ≤ j && j < idx + (ids.take (ubusMaxNotifyPeers + 1 - idx)).length)) := by
  induction ids generalizing idx q with
  | nil => simp [addIds]
  | cons cur ids ih =>
    rw [addIds, Nat.succ_sub hidx, List.take_succ_cons, List.length_cons]
    split_ifs with hlast
    · have hone : ubusMaxNotifyPeers - idx = 0 := by omega
      rw [BitVec.getLsbD_or, getLsbD_bit hj, hone, List.take_zero, List.length_nil]
      congr 1
      rw [← Bool.decide_and, decide_eq_decide]
      omega
    · rw [ih (idx + 1) _ (by omega), BitVec.getLsbD_or, getLsbD_bit hj, Bool.or_assoc]
      congr 1
      rw [← Bool.decide_and, ← Bool.decide_and, ← Bool.decide_or, decide_eq_decide,
        Nat.succ_sub_succ]
      omega

theorem addIds_id (ids : List UInt32) (idx : ℕ) (q : Req) (hidx : idx ≤ ubusMaxNotifyPeers) (j : ℕ) :
    (addIds ids idx q).id j =
      if j < idx then q.id j else ((ids.take (ubusMaxNotifyPeers + 1 - idx))[j - idx]?).getD (q.id j) := by
  induction ids generalizing idx q with
  | nil => simp [addIds]
  | cons cur ids ih =>
    rw [addIds, Nat.succ_sub hidx, List.take_succ_cons]
    by_cases hlast : idx + 1 = ubusMaxNotifyPeers + 1
    · have hone : ubusMaxNotifyPeers - idx = 0 := by omega
      rw [if_pos hlast, hone, List.take_zero]
      rcases Nat.lt_trichotomy j idx with h | rfl | h
      · rw [if_pos h]
        exact Function.update_of_ne (by omega) _ _
      · rw [if_neg (by omega), Nat.sub_self]
        exact Function.update_self _ _ _
      · rw [if_neg (by omega), show j - idx = j - (idx + 1) + 1 by omega]
        exact Function.update_of_ne (by omega) _ _
    · rw [if_neg hlast, ih (idx + 1) _ (by omega), Nat.succ_sub_succ]
      dsimp only
      rcases Nat.lt_trichotomy j idx with h | rfl | h
      · rw [if_pos (by omega), if_pos h, Function.update_of_ne (by omega)]
      · rw [if_pos (by omega), if_neg (by omega), Nat.sub_self, Function.update_self]
        rfl
      · rw [if_neg (by omega), if_neg (by omega), Function.update_of_ne (by omega),
          show j - idx = j - (idx + 1) + 1 by omega, List.getElem?_cons_succ]

/-- After ubusd's list the entries of the list are waited for. -/
theorem addIds_open (ids : List UInt32) (h : q.pending = 0) :
    (addIds ids 1 q).open ~ List.range' 1 (ids.take ubusMaxNotifyPeers).length := by
  have hlen : (ids.take ubusMaxNotifyPeers).length ≤ 16 := List.length_take_le _ _
  refine (List.perm_ext_iff_of_nodup (open_nodup _) List.nodup_range').2 fun j => ?_
  rw [mem_open, List.mem_range'_1]
  by_cases hj : j < 32
  · rw [addIds_bits ids 1 q (by decide) j hj, h, BitVec.ofNat_eq_ofNat, BitVec.getLsbD_zero,
      Bool.false_or, Bool.and_eq_true, decide_eq_true_eq, decide_eq_true_eq]
    exact Iff.rfl
  · rw [BitVec.getLsbD_of_ge _ _ (by omega)]
    simp only [Bool.false_eq_true, false_iff]
    omega

theorem addIds_map_id (ids : List UInt32) :
    (List.range' 1 (ids.take ubusMaxNotifyPeers).length).map (addIds ids 1 q).id =
      ids.take ubusMaxNotifyPeers := by
  refine List.ext_getElem? fun j => ?_
  rw [List.getElem?_map]
  by_cases hj : j < (ids.take ubusMaxNotifyPeers).length
  · rw [List.getElem?_range' hj, Option.map_some, addIds_id ids 1 q (by decide), if_neg (by omega),
      show ubusMaxNotifyPeers + 1 - 1 = ubusMaxNotifyPeers by rfl,
      show 1 + 1 * j - 1 = j by omega, List.getElem?_eq_getElem hj, Option.getD_some]
  · rw [List.getElem?_eq_none (by rw [List.length_range']; omega), Option.map_none,
      List.getElem?_eq_none (by omega)]

theorem addIds_same (ids : List UInt32) (idx : ℕ) (q : Req) :
    ∃ pending id, addIds ids idx q = { q with pending := pending, id := id } := by
  induction ids generalizing idx q with
  | nil => exact ⟨q.pending, q.id, rfl⟩
  | cons cur ids ih =>
    rw [addIds]
    split_ifs
    · exact ⟨_, _, rfl⟩
    · obtain ⟨pending, id, h⟩ := ih (idx + 1) _
      exact ⟨pending, id, h⟩

end

/-! ## Steps of other requests -/

section
variable {c c' c'' : Ctx} {r r' : ℕ} {e : Event} {m : Msg} {f : Req → Req}

/-- Nothing about the request `r` changes, and no request starts. -/
structure Same (r : ℕ) (c c' : Ctx) : Prop where
  count : c'.count = c.count
  req : c'.req r = c.req r
  calls : c'.calls r = c.calls r
  listed : r ∈ c'.requests ↔ r ∈ c.requests
  sub : c'.requests ⊆ c.requests

theorem Same.refl (r : ℕ) (c : Ctx) : Same r c c := ⟨rfl, rfl, rfl, Iff.rfl, fun _ h => h⟩

theorem Same.trans (h : Same r c c') (h' : Same r c' c'') : Same r c c'' :=
  ⟨h'.count.trans h.count, h'.req.trans h.req, h'.calls.trans h.calls, h'.listed.trans h.listed,
    fun _ hx => h.sub (h'.sub hx)⟩

theorem calls_call (c : Ctx) (r r' : ℕ) (e : Event) :
    (c.call r' e).calls r = c.calls r ++ if r' = r then [e] else [] := by
  unfold Ctx.calls Ctx.call
  rw [List.filterMap_append]
  congr 1
  rw [List.filterMap_cons, List.filterMap_nil]
  by_cases h : r' = r
  · rw [if_pos h, if_pos h]
  · rw [if_neg h, if_neg h]

theorem Same.mod (h : r ≠ r') : Same r c (c.mod r' f) :=
  ⟨rfl, Function.update_of_ne h _ _, rfl, Iff.rfl, fun _ h => h⟩

theorem Same.call (h : r ≠ r') : Same r c (c.call r' e) := by
  refine ⟨rfl, rfl, ?_, Iff.rfl, fun _ h => h⟩
  rw [calls_call, if_neg (Ne.symm h), List.append_nil]

theorem Same.filter (h : r ≠ r') : Same r c { c with requests := c.requests.filter (· ≠ r') } := by
  refine ⟨rfl, rfl, rfl, ?_, List.filter_sublist.subset⟩
  change r ∈ c.requests.filter _ ↔ _
  rw [List.mem_filter, decide_eq_true h]
  exact and_iff_left rfl

theorem Same.setReqStatus (h : r ≠ r') (ret : UInt32) : Same r c (ubusSetReqStatus r' ret c) := by
  unfold ubusSetReqStatus ubusReqCompleteCb
  dsimp only
  split_ifs
  · exact (((Same.filter h).trans (Same.mod h)).trans (Same.mod h)).trans (Same.call h)
  · exact (Same.filter h).trans (Same.mod h)

theorem Same.processNotifyStatus (h : r ≠ r') (id : ℕ) :
    Same r c (ubusProcessNotifyStatus r' id m c) := by
  have hread : ∀ c' : Ctx, Same r c' (readNotifyStatus r' id m c') := by
    intro c'
    unfold readNotifyStatus
    split_ifs
    · exact Same.mod h
    · exact Same.call h
    · exact Same.refl r c'
  unfold ubusProcessNotifyStatus
  dsimp only
  split_ifs
  · exact ((Same.mod h).trans (hread _)).trans (Same.setReqStatus h 0)
  · exact (Same.mod h).trans (hread _)

/-- A message that another request takes. -/
theorem Same.processReqMsg (h : ubusFindRequest c m.hdr ≠ some r) : Same r c (ubusProcessReqMsg m c) := by
  unfold ubusProcessReqMsg
  cases hfind : ubusFindRequest c m.hdr with
  | none => exact Same.refl r c
  | some r' =>
    have hne : r ≠ r' := fun heq => h (heq ▸ hfind)
    dsimp only
    split
    · split
      · exact Same.processNotifyStatus hne _
      · exact (Same.mod hne).trans (Same.setReqStatus hne _)
    · unfold ubusProcessReqData
      split_ifs
      · exact Same.call hne
      · exact Same.refl r c
    · exact Same.refl r c

end

/-! ## The replies of a notification -/

/-- The entries for which `status_cb` was called. -/
def entries (es : List Event) : List ℕ :=
  es.filterMap fun e => match e with
    | .status id _ => some id
    | _ => none

/-- The values that `complete_cb` was called with. -/
def completions (es : List Event) : List UInt32 :=
  es.filterMap fun e => match e with
    | .complete ret => some ret
    | _ => none

/-- The request `r` waits for the entries of `ids` whose status messages are not among those of the
    peers `off`, and `status_cb`, if the user gave it, was called for the others. -/
structure Base (s : Bool) (ids off : List UInt32) (r : ℕ) (c : Ctx) : Prop where
  lt : ∀ r' ∈ c.requests, r' < c.count
  count : r < c.count
  notify : (c.req r).notify = true
  statusCb : (c.req r).statusCb = s
  id : (List.range' 1 ids.length).map (c.req r).id = ids
  openSub : (c.req r).open ⊆ List.range' 1 ids.length
  openIds : (c.req r).openIds ~ ids.diff off
  called : entries (c.calls r) ++ (if s then (c.req r).open else []) ~
    if s then List.range' 1 ids.length else []

/-- With what happens when nothing is waited for. -/
structure Waits (s cb : Bool) (ids off : List UInt32) (r : ℕ) (c : Ctx) : Prop
    extends Base s ids off r c where
  listed : r ∈ c.requests ↔ (c.req r).pending ≠ 0
  status : (c.req r).status = if (c.req r).pending = 0 then some 0 else none
  completeCb : (c.req r).completeCb = (cb && (c.req r).pending ≠ 0)
  complete : completions (c.calls r) = if cb && (c.req r).pending = 0 then [0] else []

section
variable {c : Ctx} {r i : ℕ} {m : Msg} {s cb : Bool} {ids off : List UInt32}

theorem entries_append (es es' : List Event) : entries (es ++ es') = entries es ++ entries es' :=
  List.filterMap_append

theorem completions_append (es es' : List Event) :
    completions (es ++ es') = completions es ++ completions es' :=
  List.filterMap_append

theorem req_mod (c : Ctx) (r : ℕ) (f : Req → Req) : (c.mod r f).req r = f (c.req r) :=
  Function.update_self _ _ _

theorem req_call (c : Ctx) (r : ℕ) (e : Event) : (c.call r e).req = c.req := rfl

theorem calls_mod (c : Ctx) (r r' : ℕ) (f : Req → Req) : (c.mod r' f).calls r = c.calls r := rfl

theorem setReqStatus_req (c : Ctx) (r : ℕ) (ret : UInt32) : (ubusSetReqStatus r ret c).req r =
    { c.req r with status := some ret, completeCb := false } := by
  unfold ubusSetReqStatus ubusReqCompleteCb
  dsimp only
  rw [req_mod]
  by_cases hcb : (c.req r).completeCb = true
  · rw [if_pos hcb]
    rw [req_call, req_mod, req_mod]
  · rw [if_neg hcb, req_mod]
    rw [← Bool.eq_false_iff.2 hcb]

theorem setReqStatus_calls (c : Ctx) (r : ℕ) (ret : UInt32) : (ubusSetReqStatus r ret c).calls r =
    c.calls r ++ if (c.req r).completeCb then [.complete ret] else [] := by
  unfold ubusSetReqStatus ubusReqCompleteCb
  dsimp only
  rw [req_mod]
  by_cases hcb : (c.req r).completeCb = true
  · rw [if_pos hcb, if_pos hcb, calls_call, if_pos rfl]
    rfl
  · rw [if_neg hcb, if_neg hcb, List.append_nil]
    rfl

theorem setReqStatus_count (c : Ctx) (r : ℕ) (ret : UInt32) :
    (ubusSetReqStatus r ret c).count = c.count := by
  unfold ubusSetReqStatus ubusReqCompleteCb
  dsimp only
  split_ifs <;> rfl

theorem setReqStatus_requests (c : Ctx) (r : ℕ) (ret : UInt32) :
    (ubusSetReqStatus r ret c).requests = c.requests.filter (· ≠ r) := by
  unfold ubusSetReqStatus ubusReqCompleteCb
  dsimp only
  split_ifs <;> rfl

/-- The request completes as soon as nothing is waited for. -/
theorem Base.finish (h : Base s ids off r c) (hlisted : r ∈ c.requests) (hstatus : (c.req r).status = none)
    (hcb : (c.req r).completeCb = cb) (hcomplete : completions (c.calls r) = []) :
    Waits s cb ids off r (if (c.req r).pending = 0 then ubusSetReqStatus r 0 c else c) := by
  by_cases hp : (c.req r).pending = 0
  · have hnot : r ∉ c.requests.filter (· ≠ r) := fun hr => by
      simpa using (List.mem_filter.1 hr).2
    have hentries : entries (if (c.req r).completeCb then [.complete 0] else []) = [] := by
      split_ifs <;> rfl
    have hcalls : completions (if (c.req r).completeCb then [.complete 0] else []) =
        if cb then [0] else [] := by
      rw [hcb]
      split_ifs <;> rfl
    rw [if_pos hp]
    refine ⟨⟨fun r' hr' => ?_, ?_, ?_, ?_, ?_, ?_, ?_, ?_⟩, ?_, ?_, ?_, ?_⟩
    · rw [setReqStatus_requests] at hr'
      rw [setReqStatus_count]
      exact h.lt r' (List.mem_filter.1 hr').1
    · rw [setReqStatus_count]
      exact h.count
    · rw [setReqStatus_req]
      exact h.notify
    · rw [setReqStatus_req]
      exact h.statusCb
    · rw [setReqStatus_req]
      exact h.id
    · rw [setReqStatus_req]
      exact h.openSub
    · rw [setReqStatus_req]
      exact h.openIds
    · rw [setReqStatus_req, setReqStatus_calls, entries_append, hentries, List.append_nil]
      exact h.called
    · rw [setReqStatus_req, setReqStatus_requests]
      exact ⟨fun hr => absurd hr hnot, fun hne => absurd hp hne⟩
    · rw [setReqStatus_req]
      exact (if_pos hp).symm
    · rw [setReqStatus_req]
      dsimp only
      rw [decide_eq_false (not_not_intro hp), Bool.and_false]
    · rw [setReqStatus_req, setReqStatus_calls, completions_append, hcomplete, hcalls]
      dsimp only
      rw [decide_eq_true hp, Bool.and_true]
      rfl
  · rw [if_neg hp]
    refine ⟨h, ⟨fun _ => hp, fun _ => hlisted⟩, ?_, ?_, ?_⟩
    · rw [if_neg hp, hstatus]
    · rw [hcb, decide_eq_true hp, Bool.and_true]
    · rw [decide_eq_false hp, Bool.and_false, hcomplete]
      rfl

/-- A status message of a peer that is waited for. -/
theorem Waits.status_message (h : Waits s cb ids off r c) (hi : ubusFindNotifyId (c.req r) m.hdr.peer = some i) :
    Waits s cb ids (off ++ [m.hdr.peer]) r (ubusProcessNotifyStatus r i m c) := by
  obtain ⟨hopen, hid⟩ := found_id hi
  have hp : (c.req r).pending ≠ 0 := fun hzero => by
    rw [open_eq_nil.2 hzero] at hopen
    cases hopen
  have hne : i ≠ 0 := by
    have := (List.mem_range'_1.1 (h.openSub hopen)).1
    omega
  have herase := open_clear (c.req r) i
  have hfind : (c.req r).open.find? (fun j => (c.req r).id j = m.hdr.peer) = some i := by
    rw [← ubusFindNotifyId_eq, hi]
  have hread : ∃ c', readNotifyStatus r i m
      (c.mod r fun q => { q with pending := q.pending &&& ~~~(1#32 <<< i) }) = c' ∧
      c'.count = c.count ∧ c'.requests = c.requests ∧
      c'.req r = { c.req r with pending := (c.req r).pending &&& ~~~(1#32 <<< i) } ∧
      c'.calls r = c.calls r ++ if s then [.status i (m.attrs.status.getD 0)] else [] := by
    unfold readNotifyStatus
    rw [if_neg hne, req_mod]
    by_cases hs : s = true
    · rw [if_pos (h.statusCb.trans hs), if_pos hs]
      exact ⟨_, rfl, rfl, rfl, by rw [req_call, req_mod],
        by rw [calls_call, if_pos rfl, calls_mod]⟩
    · rw [if_neg fun hcb => hs (h.statusCb.symm.trans hcb), if_neg hs]
      exact ⟨_, rfl, rfl, rfl, by rw [req_mod], by rw [calls_mod, List.append_nil]⟩
  obtain ⟨c', hc', hcount, hreqs, hreq, hcalls⟩ := hread
  unfold ubusProcessNotifyStatus
  dsimp only
  rw [hc']
  have hcalled : entries (if s then [.status i (m.attrs.status.getD 0)] else []) =
      if s then [i] else [] := by
    split_ifs <;> rfl
  refine Base.finish ⟨?_, ?_, ?_, ?_, ?_, ?_, ?_, ?_⟩ ?_ ?_ ?_ ?_
  · rw [hcount, hreqs]
    exact h.lt
  · rw [hcount]
    exact h.count
  · rw [hreq]
    exact h.notify
  · rw [hreq]
    exact h.statusCb
  · rw [hreq]
    exact h.id
  · rw [hreq, herase]
    exact fun j hj => h.openSub (List.mem_of_mem_erase hj)
  · rw [hreq]
    unfold Req.openIds
    rw [herase, List.diff_append, List.diff_cons, List.diff_nil]
    dsimp only
    rw [map_erase_find hfind]
    exact h.openIds.erase _
  · rw [hreq, hcalls, entries_append, hcalled, herase]
    have hcalled' := h.called
    cases s with
    | false =>
      rw [if_neg Bool.false_ne_true, if_neg Bool.false_ne_true, List.append_nil]
      exact hcalled'
    | true =>
      refine Perm.trans ?_ hcalled'
      rw [if_pos rfl, if_pos rfl, if_pos rfl, List.append_assoc]
      exact Perm.append_left _ (List.perm_cons_erase hopen).symm
  · rw [hreqs]
    exact h.listed.2 hp
  · rw [hreq]
    exact h.status.trans (if_neg hp)
  · rw [hreq]
    exact h.completeCb.trans (by rw [decide_eq_true hp, Bool.and_true])
  · have hnone := h.complete
    rw [decide_eq_false hp, Bool.and_false] at hnone
    rw [hcalls, completions_append, hnone, if_neg Bool.false_ne_true, List.nil_append]
    split_ifs <;> rfl

/-- ubusd's list. -/
theorem waits_first {obj : UInt32} {seq : UInt16} {d : Bool} (hlt : ∀ r' ∈ c.requests, r' < c.count)
    (hr : r ∈ c.requests) (hreq : c.req r = ubusNotifyAsync obj seq d s cb) (hcalls : c.calls r = [])
    (hm : m.hdr.type = .status) (hfind : ubusFindRequest c m.hdr = some r) :
    Waits s cb ((m.attrs.subscribers.getD []).take ubusMaxNotifyPeers) [] r (ubusProcessReqMsg m c) := by
  have hfound : (c.req r).found m.hdr.seq m.hdr.peer = true := by
    simpa using List.find?_some hfind
  have hopen : (ubusNotifyAsync obj seq d s cb).open = [0] := by
    change (List.range 32).filter (fun j => (1#32).getLsbD j) = [0]
    decide
  have hid : ubusFindNotifyId (c.req r) m.hdr.peer = some 0 := by
    rw [hreq] at hfound ⊢
    unfold Req.found at hfound
    rw [Bool.and_eq_true, if_pos (by rfl), Bool.and_eq_true] at hfound
    obtain ⟨i, hi⟩ := Option.isSome_iff_exists.1 hfound.2.2
    have hi0 := (found_id hi).1
    rw [hopen, List.mem_singleton] at hi0
    rw [hi, hi0]
  unfold ubusProcessReqMsg
  rw [hfind, hm]
  dsimp only
  rw [if_pos (by rw [hreq]; rfl), hid]
  unfold ubusProcessNotifyStatus readNotifyStatus
  dsimp only
  rw [if_pos rfl]
  have hzero : ({ c.req r with pending := (c.req r).pending &&& ~~~(1#32 <<< 0) } : Req).pending = 0 := by
    rw [hreq]
    change 1#32 &&& ~~~(1#32 <<< 0) = 0
    decide
  obtain ⟨pending, id, hsame⟩ := addIds_same (m.attrs.subscribers.getD []) 1
    { c.req r with pending := (c.req r).pending &&& ~~~(1#32 <<< 0) }
  have hopens := addIds_open (m.attrs.subscribers.getD []) hzero
  have hids := @addIds_map_id { c.req r with pending := (c.req r).pending &&& ~~~(1#32 <<< 0) }
    (m.attrs.subscribers.getD [])
  rw [hsame] at hopens hids
  refine Base.finish ⟨hlt, hlt r hr, ?_, ?_, ?_, ?_, ?_, ?_⟩ hr ?_ ?_ ?_
  · rw [req_mod, req_mod, hsame]
    dsimp only
    rw [hreq]
    rfl
  · rw [req_mod, req_mod, hsame]
    dsimp only
    rw [hreq]
    rfl
  · rw [req_mod, req_mod, hsame]
    exact hids
  · rw [req_mod, req_mod, hsame]
    exact hopens.subset
  · rw [req_mod, req_mod, hsame]
    have hperm := hopens.map id
    rw [hids] at hperm
    exact hperm
  · rw [req_mod, req_mod, hsame, calls_mod, calls_mod, hcalls]
    cases s with
    | false => exact Perm.refl _
    | true => exact hopens
  · rw [req_mod, req_mod, hsame]
    dsimp only
    rw [hreq]
    rfl
  · rw [req_mod, req_mod, hsame]
    dsimp only
    rw [hreq]
    rfl
  · rw [calls_mod, calls_mod, hcalls]
    rfl

theorem Waits.same {c' : Ctx} (h : Waits s cb ids off r c) (hs : Same r c c') :
    Waits s cb ids off r c' := by
  refine ⟨⟨fun r' hr' => ?_, ?_, ?_, ?_, ?_, ?_, ?_, ?_⟩, ?_, ?_, ?_, ?_⟩
  · rw [hs.count]
    exact h.lt r' (hs.sub hr')
  · rw [hs.count]
    exact h.count
  · rw [hs.req]
    exact h.notify
  · rw [hs.req]
    exact h.statusCb
  · rw [hs.req]
    exact h.id
  · rw [hs.req]
    exact h.openSub
  · rw [hs.req]
    exact h.openIds
  · rw [hs.req, hs.calls]
    exact h.called
  · rw [hs.req, hs.listed]
    exact h.listed
  · rw [hs.req]
    exact h.status
  · rw [hs.req]
    exact h.completeCb
  · rw [hs.req, hs.calls]
    exact h.complete

theorem Waits.diff {off' : List UInt32} (h : Waits s cb ids off r c) (hoff : ids.diff off' ~ ids.diff off) :
    Waits s cb ids off' r c :=
  ⟨⟨h.lt, h.count, h.notify, h.statusCb, h.id, h.openSub, h.openIds.trans hoff.symm, h.called⟩, h.listed,
    h.status, h.completeCb, h.complete⟩

theorem takeWhile_first {l l' : List ℕ} (h : r ∉ l) : (l ++ r :: l').takeWhile (· ≠ r) = l := by
  have hne : ∀ x ∈ l, decide (x ≠ r) = true := by
    rintro x hx
    exact decide_eq_true fun heq => h (heq ▸ hx)
  rw [List.takeWhile_append_of_pos hne, List.takeWhile_cons_of_neg (by simp), List.append_nil]

/-- The status messages that are offered and taken are those that the request is found for. -/
theorem find_iff_offers (hm : m.hdr.type = .status) : ubusFindRequest c m.hdr = some r ↔
    c.offers r m = true ∧ (c.req r).found m.hdr.seq m.hdr.peer = true := by
  unfold ubusFindRequest Ctx.offers
  rw [List.find?_eq_some_iff_append]
  constructor
  · rintro ⟨hf, as, bs, hsplit, has⟩
    have hr : r ∉ as := fun hr => by
      have := has r hr
      rw [hf] at this
      cases this
    have hseq : m.hdr.seq = (c.req r).seq := by
      unfold Req.found at hf
      exact of_decide_eq_true (Bool.and_eq_true _ _ ▸ hf).1
    refine ⟨?_, hf⟩
    rw [hsplit, takeWhile_first hr, hm, hseq, decide_eq_true rfl, decide_eq_true rfl,
      decide_eq_true (List.mem_append_right _ (List.mem_cons_self ..)), Bool.and_self, Bool.true_and,
      Bool.true_and, ← hseq, List.all_eq_true]
    exact has
  · rintro ⟨h, hf⟩
    rw [Bool.and_eq_true, Bool.and_eq_true, Bool.and_eq_true, List.all_eq_true] at h
    obtain ⟨⟨⟨-, -⟩, hr⟩, hall⟩ := h
    obtain ⟨as, bs, hsplit, has⟩ := List.eq_append_cons_of_mem (of_decide_eq_true hr)
    rw [hsplit, takeWhile_first has] at hall
    exact ⟨hf, as, bs, hsplit, hall⟩

/-- A peer that is not waited for. -/
theorem diff_of_not_mem {peer : UInt32} (h : Waits s cb ids off r c) (hp : peer ∉ (c.req r).openIds) :
    ids.diff (off ++ [peer]) ~ ids.diff off := by
  rw [List.diff_append, List.diff_cons, List.diff_nil,
    List.erase_of_not_mem fun hmem => hp (h.openIds.symm.subset hmem)]

theorem Waits.processReqData (h : Waits s cb ids off r c) (m : Msg) :
    Waits s cb ids off r (ubusProcessReqData r m c) := by
  unfold ubusProcessReqData
  split_ifs
  · have hentries : entries ((c.call r (.data m)).calls r) = entries (c.calls r) := by
      rw [calls_call, if_pos rfl, entries_append]
      exact List.append_nil _
    have hcompletions : completions ((c.call r (.data m)).calls r) = completions (c.calls r) := by
      rw [calls_call, if_pos rfl, completions_append]
      exact List.append_nil _
    refine ⟨⟨h.lt, h.count, h.notify, h.statusCb, h.id, h.openSub, h.openIds, ?_⟩, h.listed, h.status,
      h.completeCb, ?_⟩
    · rw [hentries]
      exact h.called
    · rw [hcompletions]
      exact h.complete
  · exact h

/-- What a message does. -/
theorem Waits.message (h : Waits s cb ids off r c) (m : Msg) :
    Waits s cb ids (off ++ c.offer r (.msg m)) r (ubusProcessReqMsg m c) := by
  have hoffers : c.offers r m = true → m.hdr.type = .status ∧ m.hdr.seq = (c.req r).seq := by
    intro hoffers
    unfold Ctx.offers at hoffers
    simp only [Bool.and_eq_true, decide_eq_true_eq] at hoffers
    exact hoffers.1.1
  by_cases hfind : ubusFindRequest c m.hdr = some r
  · have hf : (c.req r).found m.hdr.seq m.hdr.peer = true := by
      simpa using List.find?_some hfind
    obtain ⟨i, hi⟩ := Option.isSome_iff_exists.1 (found_iff.2 ((found_notify h.notify).1 hf).2)
    by_cases hm : m.hdr.type = .status
    · have hoffer : c.offer r (.msg m) = [m.hdr.peer] := if_pos ((find_iff_offers hm).1 hfind).1
      unfold ubusProcessReqMsg
      rw [hoffer, hfind, hm]
      dsimp only
      rw [if_pos h.notify, hi]
      exact h.status_message hi
    · rw [show c.offer r (.msg m) = [] from if_neg fun ho => hm (hoffers ho).1, List.append_nil]
      unfold ubusProcessReqMsg
      rw [hfind]
      dsimp only
      split
      · contradiction
      · exact h.processReqData m
      · exact h
  · have hsame := h.same (Same.processReqMsg hfind)
    by_cases ho : c.offers r m = true
    · obtain ⟨hm, hseq⟩ := hoffers ho
      have hnot : m.hdr.peer ∉ (c.req r).openIds := fun hmem =>
        hfind ((find_iff_offers hm).2 ⟨ho, (found_notify h.notify).2 ⟨hseq, hmem⟩⟩)
      rw [show c.offer r (.msg m) = [m.hdr.peer] from if_pos ho]
      exact hsame.diff (diff_of_not_mem h hnot)
    · rw [show c.offer r (.msg m) = [] from if_neg ho, List.append_nil]
      exact hsame

/-- One step. -/
theorem Waits.step (h : Waits s cb ids off r c) {a : Step} (ha : a ≠ .drop r) :
    Waits s cb ids (off ++ c.offer r a) r (step c a) := by
  cases a with
  | msg m => exact h.message m
  | start q =>
    have hne : r ≠ c.count := Nat.ne_of_lt h.count
    have hreq : (Notify.step c (.start q)).req r = c.req r := Function.update_of_ne hne _ _
    rw [show c.offer r (.start q) = [] by rfl, List.append_nil]
    refine ⟨⟨?_, ?_, ?_, ?_, ?_, ?_, ?_, ?_⟩, ?_, ?_, ?_, ?_⟩
    · intro r' hr'
      rcases List.mem_cons.1 hr' with rfl | hr'
      · exact Nat.lt_succ_self _
      · exact Nat.lt_succ_of_lt (h.lt r' hr')
    · exact Nat.lt_succ_of_lt h.count
    · rw [hreq]
      exact h.notify
    · rw [hreq]
      exact h.statusCb
    · rw [hreq]
      exact h.id
    · rw [hreq]
      exact h.openSub
    · rw [hreq]
      exact h.openIds
    · rw [hreq]
      exact h.called
    · rw [hreq, ← h.listed]
      exact List.mem_cons.trans (or_iff_right hne)
    · rw [hreq]
      exact h.status
    · rw [hreq]
      exact h.completeCb
    · rw [hreq]
      exact h.complete
  | drop r' =>
    rw [show c.offer r (.drop r') = [] by rfl, List.append_nil]
    exact h.same (Same.filter fun heq => ha (heq ▸ rfl))

theorem Waits.run (h : Waits s cb ids off r c) {as : List Step} (has : Step.drop r ∉ as) :
    Waits s cb ids (off ++ offered r c as) r (Run.run Notify.step c as) := by
  induction as generalizing c off with
  | nil =>
    rw [offered, List.append_nil]
    exact h
  | cons a as ih =>
    obtain ⟨hne, hmem⟩ := not_or.1 (mt List.mem_cons.2 has)
    have hstep := ih (h.step (Ne.symm hne)) hmem
    rw [List.append_assoc] at hstep
    exact hstep

/-- A request that is not on the list is not changed any more. -/
theorem gone_run (hr : r ∉ c.requests) (hcount : r < c.count) (as : List Step) :
    (Run.run Notify.step c as).req r = c.req r ∧ (Run.run Notify.step c as).calls r = c.calls r := by
  induction as generalizing c with
  | nil => exact ⟨rfl, rfl⟩
  | cons a as ih =>
    have hsame : r ∉ (Notify.step c a).requests ∧ r < (Notify.step c a).count ∧
        (Notify.step c a).req r = c.req r ∧ (Notify.step c a).calls r = c.calls r := by
      cases a with
      | msg m =>
        have h : Same r c (ubusProcessReqMsg m c) :=
          Same.processReqMsg fun hfind => hr (List.mem_of_find?_eq_some hfind)
        exact ⟨mt h.listed.1 hr, h.count ▸ hcount, h.req, h.calls⟩
      | start q =>
        have hne : r ≠ c.count := Nat.ne_of_lt hcount
        exact ⟨fun hmem => (List.mem_cons.1 hmem).elim hne hr, Nat.lt_succ_of_lt hcount,
          Function.update_of_ne hne _ _, rfl⟩
      | drop r' => exact ⟨fun hmem => hr (List.mem_filter.1 hmem).1, hcount, rfl, rfl⟩
    obtain ⟨hreq, hcalls⟩ := ih hsame.1 hsame.2.1
    exact ⟨hreq.trans hsame.2.2.1, hcalls.trans hsame.2.2.2⟩

theorem Waits.done_iff (h : Waits s cb ids off r c) :
    (c.req r).status.isSome ↔ (c.req r).pending = 0 := by
  rw [h.status]
  split_ifs with hp
  · exact iff_of_true rfl hp
  · exact iff_of_false Bool.false_ne_true hp

/-- Nothing is waited for when there was a message for each id of the list. -/
theorem Waits.pending_iff (h : Waits s cb ids off r c) : (c.req r).pending = 0 ↔ ids <+~ off := by
  have hnil : (c.req r).pending = 0 ↔ ids.diff off = [] := by
    rw [← open_eq_nil, ← @List.map_eq_nil_iff _ _ (c.req r).id]
    have hperm := h.openIds
    unfold Req.openIds at hperm
    constructor
    · intro hn
      rw [hn] at hperm
      exact hperm.symm.eq_nil
    · intro hn
      rw [hn] at hperm
      exact hperm.eq_nil
  rw [hnil, List.subperm_ext_iff]
  constructor
  · intro hn x _
    have hcount := List.count_diff x ids off
    rw [hn, List.count_nil] at hcount
    omega
  · intro hle
    refine List.eq_nil_iff_forall_not_mem.2 fun x hx => ?_
    have hpos := List.count_pos_iff.2 hx
    rw [List.count_diff] at hpos
    have := hle x (List.count_pos_iff.1 (by omega))
    omega

theorem Waits.entries_spec (h : Waits true cb ids off r c) :
    (entries (c.calls r)).Nodup ∧ (∀ i ∈ entries (c.calls r), i - 1 < ids.length) ∧
      ((entries (c.calls r)).map fun i => ids.getD (i - 1) 0) ++ ids.diff off ~ ids := by
  have hperm : entries (c.calls r) ++ (c.req r).open ~ List.range' 1 ids.length := h.called
  have hrange : ∀ i ∈ entries (c.calls r), 1 ≤ i ∧ i < 1 + ids.length := fun i hi =>
    List.mem_range'_1.1 (hperm.subset (List.mem_append_left _ hi))
  have hids : ∀ i ∈ entries (c.calls r), ids.getD (i - 1) 0 = (c.req r).id i := by
    intro i hi
    obtain ⟨hpos, hlt⟩ := hrange i hi
    have hget : ids[i - 1]? = ((List.range' 1 ids.length).map (c.req r).id)[i - 1]? := by rw [h.id]
    rw [List.getD_eq_getElem?_getD, hget, List.getElem?_map, List.getElem?_range' (by omega),
      Option.map_some, Option.getD_some, show 1 + 1 * (i - 1) = i by omega]
  refine ⟨(List.nodup_append.1 (hperm.nodup_iff.2 List.nodup_range')).1, fun i hi => ?_, ?_⟩
  · have := hrange i hi
    omega
  · rw [List.map_congr_left hids]
    refine (h.openIds.symm.append_left _).trans ?_
    unfold Req.openIds
    have hmap := hperm.map (c.req r).id
    rwa [h.id, List.map_append] at hmap

end

/-! ## Completion -/

/-- **The replies of a notification**: the request completes when a status message was offered for
    each of the first `ubusMaxNotifyPeers` ids of ubusd's list, which counts an id as often as it is
    listed, and not before. `status_cb` is called once for each entry whose message came, and after
    the completion nothing reaches the request. -/
theorem notify_completes {c₀ : Ctx} {r : ℕ} {obj : UInt32} {seq : UInt16} {d s cb : Bool} {m₀ : Msg}
    {as : List Step} (hlt : ∀ r' ∈ c₀.requests, r' < c₀.count) (hr : r ∈ c₀.requests)
    (hreq : c₀.req r = ubusNotifyAsync obj seq d s cb) (hcalls : c₀.calls r = [])
    (hm : m₀.hdr.type = .status) (hfind : ubusFindRequest c₀ m₀.hdr = some r)
    (has : Step.drop r ∉ as) :
    let ids := (m₀.attrs.subscribers.getD []).take ubusMaxNotifyPeers
    let c₁ := step c₀ (.msg m₀)
    let c := run step c₁ as
    let done := (c.req r).status.isSome
    (done ↔ ids <+~ offered r c₁ as) ∧
      (completions (c.calls r) = if cb && done then [0] else []) ∧
      (s = false → entries (c.calls r) = []) ∧
      (s = true → (entries (c.calls r)).Nodup ∧ (∀ i ∈ entries (c.calls r), i - 1 < ids.length) ∧
        ((entries (c.calls r)).map fun i => ids.getD (i - 1) 0) ++ ids.diff (offered r c₁ as) ~ ids ∧
        (done → entries (c.calls r) ~ List.range' 1 ids.length)) ∧
      (r ∈ c.requests ↔ ¬ done) ∧
      (done → ∀ bs, (run step c bs).req r = c.req r ∧ (run step c bs).calls r = c.calls r) := by
  intro ids c₁ c done
  have hrun : Waits s cb ids ([] ++ offered r c₁ as) r c :=
    (waits_first hlt hr hreq hcalls hm hfind).run has
  rw [List.nil_append] at hrun
  have hdone : done ↔ (c.req r).pending = 0 := hrun.done_iff
  refine ⟨hdone.trans hrun.pending_iff, ?_, ?_, ?_, ?_, ?_⟩
  · rw [hrun.complete]
    by_cases hp : (c.req r).pending = 0
    · rw [decide_eq_true hp, hdone.2 hp]
    · rw [decide_eq_false hp, Bool.eq_false_iff.2 (mt hdone.1 hp)]
  · rintro rfl
    have hcalled := hrun.called
    rw [if_neg Bool.false_ne_true, List.append_nil, if_neg Bool.false_ne_true] at hcalled
    exact hcalled.eq_nil
  · rintro rfl
    obtain ⟨hnodup, hlen, hperm⟩ := hrun.entries_spec
    refine ⟨hnodup, hlen, hperm, fun hd => ?_⟩
    have hcalled := hrun.called
    rw [if_pos rfl, if_pos rfl, open_eq_nil.2 (hdone.1 hd), List.append_nil] at hcalled
    exact hcalled
  · rw [hrun.listed, hdone]
  · intro hd bs
    refine gone_run (fun hmem => ?_) hrun.count bs
    exact hrun.listed.1 hmem (hdone.1 hd)

/-- A notification of the object 5, on its own. -/
def notifyStart : Ctx :=
  { count := 1
    req := Function.update (fun _ => {}) 0 (ubusNotifyAsync 5 1 false true true)
    requests := [0] }

/-- ubusd's list has the subscriber 7 twice; its second message comes last. -/
theorem notify_completes_twice :
    let c := run step (step notifyStart (.msg ⟨⟨.status, 1, 5⟩, { subscribers := some [7, 9, 7] }⟩))
      [.msg ⟨⟨.status, 1, 7⟩, {}⟩, .msg ⟨⟨.status, 1, 9⟩, {}⟩, .msg ⟨⟨.status, 1, 9⟩, {}⟩,
        .msg ⟨⟨.status, 1, 7⟩, {}⟩]
    completions (c.calls 0) = [0] ∧ entries (c.calls 0) ~ [1, 2, 3] := by
  intro c
  have h := @notify_completes notifyStart 0 5 1 false true true
    ⟨⟨.status, 1, 5⟩, { subscribers := some [7, 9, 7] }⟩
    [.msg ⟨⟨.status, 1, 7⟩, {}⟩, .msg ⟨⟨.status, 1, 9⟩, {}⟩, .msg ⟨⟨.status, 1, 9⟩, {}⟩,
      .msg ⟨⟨.status, 1, 7⟩, {}⟩] (by decide) (by decide) rfl rfl rfl (by decide) (by simp)
  have hdone := h.1.2 (by decide)
  obtain ⟨-, hcomplete, -, hentries, -, -⟩ := h
  rw [hdone] at hcomplete
  exact ⟨hcomplete, (hentries rfl).2.2.2 hdone⟩

end Ubus.Notify
