/-
  The transmit side of a ubusd client (`ubusd.c`, `client_cb` in `ubusd_main.c`): messages are
  written directly while the transmit queue is empty and queued otherwise.

  The counters `txq_ofs` and `txq_len` are unsigned. On an empty queue `ubus_msg_send` sets
  `txq_len` to minus the number of bytes written, header included, and `ubus_msg_enqueue` adds the
  length of the blob alone: a short write that ends in the last bytes of a message wraps the
  counter, and the rest of the message is dropped.
-/
import IotLib.Lib.Run

namespace Ubus

/-! ## Messages -/

/-- The conversion of a signed value to `unsigned int`. -/
def u32 (x : Int) : Nat := (x % 4294967296).toNat

/-- `UBUS_MAX_MSGLEN` -/
def ubusMaxMsglen : Nat := 1048576

/-- `UBUS_CLIENT_MAX_TXQ_LEN` -/
def ubusClientMaxTxqLen : Nat := ubusMaxMsglen

/-- `struct ubus_msghdr` -/
structure Msghdr where
  version : UInt8
  type : UInt8
  seq : UInt16
  peer : UInt32
deriving DecidableEq, Repr

/-- The size of a message header. -/
def sizeofHdr : Nat := 8

/-- The header on the wire; `seq` and `peer` are big endian. -/
def Msghdr.encode (h : Msghdr) : List UInt8 :=
  [h.version, h.type, (h.seq >>> 8).toUInt8, h.seq.toUInt8,
    (h.peer >>> 24).toUInt8, (h.peer >>> 16).toUInt8, (h.peer >>> 8).toUInt8, h.peer.toUInt8]

/-- `struct ubus_msg_buf`; `len` is the length of `data`. -/
structure MsgBuf where
  hdr : Msghdr
  data : List UInt8
deriving DecidableEq, Repr

/-- A whole message: the header followed by the blob. -/
def MsgBuf.encode (ub : MsgBuf) : List UInt8 := ub.hdr.encode ++ ub.data

@[simp] theorem MsgBuf.length_encode (ub : MsgBuf) :
    ub.encode.length = ub.data.length + sizeofHdr := by
  simp [MsgBuf.encode, Msghdr.encode, sizeofHdr]

/-! ## Writing -/

/-- What `sendmsg` answers, once it is no longer interrupted: it took up to `n`
    bytes, would block, or failed. -/
inductive Answer where
  | wrote (n : Nat)
  | eagain
  | error
deriving DecidableEq, Repr

/-- The number of bytes that were taken. -/
def Answer.count : Answer → Nat
  | .wrote n => n
  | .eagain | .error => 0

/-- The bytes that `ubus_msg_writev` passes to `sendmsg`. -/
def MsgBuf.iov (ub : MsgBuf) (offset : Nat) : List UInt8 :=
  if offset < sizeofHdr then ub.hdr.encode.drop offset ++ ub.data
  else ub.data.drop (offset - sizeofHdr)

theorem MsgBuf.iov_eq (ub : MsgBuf) (offset : Nat) : ub.iov offset = ub.encode.drop offset := by
  have hlen : ub.hdr.encode.length = sizeofHdr := rfl
  unfold MsgBuf.iov MsgBuf.encode
  split_ifs with h
  · rw [List.drop_append_of_le_length (hlen ▸ h.le)]
  · have hd : ub.hdr.encode.drop offset = [] := List.drop_eq_nil_of_le (by omega)
    rw [List.drop_append, hlen, hd, List.nil_append]

/-- `ubus_msg_writev`: the bytes written, none if the answer is an error. -/
def ubusMsgWritev (ub : MsgBuf) (offset : Nat) : Answer → Option (List UInt8)
  | .wrote n => some ((ub.iov offset).take n)
  | .eagain | .error => none

/-- The transmit side of `struct ubus_client`, with what has been put on its
    socket and the messages that were passed to `ubus_msg_send`. -/
structure Tx where
  txQueue : List MsgBuf := []
  txqOfs : Nat := 0
  txqLen : Nat := 0
  closed : Bool := false
  sock : List UInt8 := []
  sent : List MsgBuf := []
deriving DecidableEq, Repr

/-- `ubus_msg_enqueue` -/
def ubusMsgEnqueue (cl : Tx) (ub : MsgBuf) : Tx :=
  if u32 (cl.txqLen + ub.data.length) > ubusClientMaxTxqLen then cl
  else
    { cl with
      txQueue := cl.txQueue ++ [ub]
      txqLen := u32 (cl.txqLen + ub.data.length) }

/-- `ubus_msg_send`; `a` answers the direct write. -/
def ubusMsgSend (cl : Tx) (ub : MsgBuf) (a : Answer) : Tx :=
  let cl := { cl with sent := cl.sent ++ [ub] }
  if cl.txQueue = [] then
    let bytes := (ubusMsgWritev ub 0 a).getD []
    let cl := { cl with sock := cl.sock ++ bytes }
    if ub.data.length + sizeofHdr ≤ bytes.length then cl
    else
      ubusMsgEnqueue
        { cl with txqOfs := u32 bytes.length, txqLen := u32 (-bytes.length) } ub
  else ubusMsgEnqueue cl ub

/-- The loop of `client_cb` that sends pending data; when no answer is left, the
    socket would block. -/
def txMore : List MsgBuf → List Answer → Tx → Tx
  | [], _, cl => cl
  | _ :: _, [], cl => cl
  | ub :: rest, a :: as, cl =>
    match ubusMsgWritev ub cl.txqOfs a with
    | none => { cl with closed := decide (a = .error) }
    | some bytes =>
      let cl :=
        { cl with
          sock := cl.sock ++ bytes
          txqOfs := u32 (cl.txqOfs + bytes.length)
          txqLen := u32 (cl.txqLen - bytes.length) }
      if cl.txqOfs < ub.data.length + sizeofHdr then cl
      else txMore rest as { cl with txqOfs := 0, txQueue := rest }

/-- What happens to a client: a message is sent to it, or it is polled. -/
inductive TxStep where
  | send (ub : MsgBuf) (a : Answer)
  | poll (as : List Answer)
deriving DecidableEq, Repr

/-- A client that was disconnected takes no further step. -/
def txStep (cl : Tx) (st : TxStep) : Tx :=
  if cl.closed then cl
  else
    match st with
    | .send ub a => ubusMsgSend cl ub a
    | .poll as => txMore cl.txQueue as cl

/-! ## Framing -/

/-- The bytes on the socket are a prefix of whole messages, which are a
    subsequence of the messages sent. -/
def Framed (cl : Tx) : Prop :=
  ∃ ms : List MsgBuf, ms.Sublist cl.sent ∧ cl.sock <+: ms.flatMap MsgBuf.encode

instance (cl : Tx) : Decidable (Framed cl) :=
  decidable_of_iff (∃ ms ∈ cl.sent.sublists, cl.sock <+: ms.flatMap MsgBuf.encode) <| by
    simp [Framed]

/-- The lengths of the messages that ubusd passes on. -/
def Sized : TxStep → Prop
  | .send ub _ => ub.data.length ≤ ubusMaxMsglen
  | .poll _ => True

/-- A message is written to an empty queue up to its last one to seven bytes. -/
def CutsLate (cl : Tx) : TxStep → Prop
  | .send ub a =>
    cl.txQueue = [] ∧ ub.data.length < a.count ∧ a.count < ub.data.length + sizeofHdr
  | .poll _ => False

/-- The messages written in full, and the bytes of the first queued one that have been written. -/
structure TxInv (cl : Tx) : Prop where
  bytes : ∃ done, cl.sock = done.flatMap MsgBuf.encode ++
      (cl.txQueue.head?.map fun ub => ub.encode.take cl.txqOfs).getD [] ∧
    (done ++ cl.txQueue).Sublist cl.sent
  sized : ∀ ub ∈ cl.txQueue, ub.data.length ≤ ubusMaxMsglen
  ofs : ∀ ub ∈ cl.txQueue.head?, cl.txqOfs < ub.data.length + sizeofHdr

theorem TxInv.init : TxInv {} := ⟨⟨[], by simp⟩, by simp, by simp⟩

theorem TxInv.framed {cl : Tx} (h : TxInv cl) : Framed cl := by
  obtain ⟨done, h1, h2⟩ := h.bytes
  refine ⟨done ++ cl.txQueue, h2, ?_⟩
  rw [h1, List.flatMap_append, List.prefix_append_right_inj]
  cases hq : cl.txQueue with
  | nil => simp
  | cons ub rest =>
    simp only [List.head?_cons, Option.map_some, Option.getD_some, List.flatMap_cons]
    exact (List.take_prefix _ _).trans (List.prefix_append _ _)

theorem u32_of_le {n : Nat} (h : n ≤ ubusMaxMsglen + sizeofHdr) : u32 n = n := by
  simp only [u32, ubusMaxMsglen, sizeofHdr] at *
  omega

/-- Only a message that follows a queued one is dropped as a whole. -/
theorem TxInv.enqueue {cl : Tx} (h : TxInv cl) (hq : cl.txQueue ≠ []) {ub : MsgBuf}
    (hub : ub.data.length ≤ ubusMaxMsglen) :
    TxInv (ubusMsgEnqueue { cl with sent := cl.sent ++ [ub] } ub) := by
  obtain ⟨done, h1, h2⟩ := h.bytes
  unfold ubusMsgEnqueue
  split_ifs
  · exact ⟨⟨done, h1, h2.trans (List.sublist_append_left _ _)⟩, h.sized, h.ofs⟩
  · have hh : (cl.txQueue ++ [ub]).head? = cl.txQueue.head? := by
      rw [List.head?_append_of_ne_nil _ hq]
    refine ⟨⟨done, ?_, ?_⟩, ?_, ?_⟩
    · simp only [hh]; exact h1
    · rw [← List.append_assoc]; exact h2.append (List.Sublist.refl _)
    · intro x hx
      rcases List.mem_append.1 hx with hx | hx
      · exact h.sized x hx
      · rw [List.mem_singleton.1 hx]; exact hub
    · simp only [hh]; exact h.ofs

theorem ubusMsgWritev_zero (ub : MsgBuf) (a : Answer) :
    (ubusMsgWritev ub 0 a).getD [] = ub.encode.take a.count := by
  cases a <;> simp [ubusMsgWritev, Answer.count, MsgBuf.iov_eq]

/-- A message is sent on an empty queue. -/
theorem TxInv.write {cl : Tx} (h : TxInv cl) (hq : cl.txQueue = []) {ub : MsgBuf} {a : Answer}
    (hub : ub.data.length ≤ ubusMaxMsglen) (hcut : ¬ CutsLate cl (.send ub a)) :
    TxInv (ubusMsgSend cl ub a) := by
  obtain ⟨done, h1, h2⟩ := h.bytes
  simp only [hq, List.head?_nil, Option.map_none, Option.getD_none, List.append_nil] at h1 h2
  have hlen : ub.encode.length = ub.data.length + sizeofHdr := ub.length_encode
  simp only [ubusMsgSend, hq, if_true, ubusMsgWritev_zero]
  set n := a.count with hn
  split_ifs with hall
  · -- the whole message was written
    have htake : ub.encode.take n = ub.encode := by
      rw [List.take_eq_self_iff]
      simp only [List.length_take] at hall
      omega
    refine ⟨⟨done ++ [ub], ?_, ?_⟩, by simp, by simp⟩
    · simp [h1, htake]
    · simpa using h2.append (List.Sublist.refl [ub])
  · simp only [List.length_take, hlen] at hall ⊢
    have hlt : n < ub.data.length + sizeofHdr := by omega
    have hle : n ≤ ub.data.length := by
      by_contra hgt
      exact hcut ⟨hq, by omega, hlt⟩
    have hmin : min n (ub.data.length + sizeofHdr) = n := by omega
    rw [hmin]
    -- the counter does not wrap: the blob is at least as long as what was written
    have henq : ¬ u32 (u32 (-(n : Int)) + ub.data.length) > ubusClientMaxTxqLen := by
      simp only [u32, ubusClientMaxTxqLen, ubusMaxMsglen, sizeofHdr] at *
      omega
    simp only [ubusMsgEnqueue, henq, if_false, List.nil_append]
    refine ⟨⟨done, ?_, h2.append (List.Sublist.refl [ub])⟩, ?_, ?_⟩
    · simp only [List.head?_cons, Option.map_some, Option.getD_some, h1]
      rw [u32_of_le (by omega)]
    · simpa using hub
    · simp only [List.head?_cons, Option.mem_some_iff, forall_eq']
      rw [u32_of_le (by omega)]
      exact hlt

theorem TxInv.send {cl : Tx} (h : TxInv cl) {ub : MsgBuf} {a : Answer}
    (hub : ub.data.length ≤ ubusMaxMsglen) (hcut : ¬ CutsLate cl (.send ub a)) :
    TxInv (ubusMsgSend cl ub a) := by
  by_cases hq : cl.txQueue = []
  · exact h.write hq hub hcut
  · simp only [ubusMsgSend, hq, if_false]
    exact h.enqueue hq hub

/-- A write continues the message where the last one has ended. -/
theorem ubusMsgWritev_some {ub : MsgBuf} {offset : Nat} {a : Answer} {bytes : List UInt8}
    (h : ubusMsgWritev ub offset a = some bytes) (ho : offset ≤ ub.data.length + sizeofHdr) :
    ub.encode.take offset ++ bytes = ub.encode.take (offset + bytes.length) ∧
      offset + bytes.length ≤ ub.data.length + sizeofHdr := by
  obtain ⟨n, rfl⟩ : ∃ n, bytes = (ub.encode.drop offset).take n := by
    cases a with
    | wrote n => exact ⟨n, by simpa [ubusMsgWritev, MsgBuf.iov_eq] using h.symm⟩
    | eagain | error => simp [ubusMsgWritev] at h
  have htake := List.prefix_iff_eq_take.1 (List.take_prefix n (ub.encode.drop offset))
  refine ⟨by rw [List.take_add, ← htake], ?_⟩
  rw [List.length_take, List.length_drop, MsgBuf.length_encode]
  omega

/-- Sending pending data. -/
theorem TxInv.more (as : List Answer) {cl : Tx} (h : TxInv cl) :
    TxInv (txMore cl.txQueue as cl) := by
  -- the queue of the client is what the loop still has to visit
  obtain ⟨q, hq⟩ : ∃ q, q = cl.txQueue := ⟨_, rfl⟩
  rw [← hq]
  induction q generalizing as cl with
  | nil => simpa only [txMore] using h
  | cons ub rest ih =>
    cases as with
    | nil => simpa only [txMore] using h
    | cons a as =>
      cases hw : ubusMsgWritev ub cl.txqOfs a with
      | none => simpa only [txMore, hw] using ⟨h.bytes, h.sized, h.ofs⟩
      | some bytes =>
        obtain ⟨done, h1, h2⟩ := h.bytes
        have hsize := h.sized
        rw [← hq] at h1 h2 hsize
        have hub := hsize ub (by simp)
        have hofs : cl.txqOfs < ub.data.length + sizeofHdr := h.ofs ub (by simp [← hq])
        obtain ⟨htake, hle⟩ := ubusMsgWritev_some hw hofs.le
        have hofs' : u32 (cl.txqOfs + bytes.length) = cl.txqOfs + bytes.length := by
          exact_mod_cast u32_of_le (show cl.txqOfs + bytes.length ≤ _ by omega)
        have hsock : cl.sock ++ bytes =
            done.flatMap MsgBuf.encode ++ ub.encode.take (cl.txqOfs + bytes.length) := by
          rw [← htake, ← List.append_assoc]
          exact congrArg (· ++ bytes) (by simpa using h1)
        simp only [txMore, hw, hofs']
        split_ifs with hlt
        · refine ⟨⟨done, ?_, ?_⟩, ?_, ?_⟩
          · simpa [← hq] using hsock
          · simpa [← hq] using h2
          · simpa [← hq] using hsize
          · simpa [← hq] using hlt
        · have hfull : ub.encode.take (cl.txqOfs + bytes.length) = ub.encode := by
            rw [List.take_eq_self_iff, MsgBuf.length_encode]
            omega
          rw [hfull] at hsock
          refine ih as ⟨⟨done ++ [ub], ?_, ?_⟩, ?_, ?_⟩ rfl
          · cases rest <;> simpa using hsock
          · simpa using h2
          · exact fun x hx => hsize x (by simp [hx])
          · exact fun x _ => Nat.add_pos_right _ (by decide)

theorem TxInv.step {cl : Tx} (h : TxInv cl) {st : TxStep} (hsize : Sized st)
    (hcut : ¬ CutsLate cl st) : TxInv (txStep cl st) := by
  unfold txStep
  split_ifs
  · exact h
  · cases st with
    | send ub a => exact h.send hsize hcut
    | poll as => exact h.more as

/-- **Framing.** In every run in which no message sent on an empty queue is written up to its last
    one to seven bytes, what is on the socket is a prefix of whole messages, a subsequence of those
    sent. -/
theorem tx_framed (steps : List TxStep) (hsize : ∀ st ∈ steps, Sized st)
    (hcut : Run.Admits txStep (fun cl st => ¬ CutsLate cl st) {} steps) :
    Framed (Run.run txStep {} steps) :=
  ((hcut.and_forall hsize).invariant (I := TxInv)
    (fun _ _ hok h => h.step hok.1 hok.2) TxInv.init).framed

/-- Two messages of four bytes each. -/
def msgPair : MsgBuf × MsgBuf :=
  (⟨⟨0, 2, 1, 5⟩, [0, 0, 0, 4]⟩, ⟨⟨0, 1, 1, 5⟩, [0, 0, 0, 4]⟩)

/-- The second message starts in a queue that the first one is still in. -/
theorem tx_framed_queued :
    let steps : List TxStep :=
      [.send msgPair.1 (.wrote 3), .send msgPair.2 .eagain, .poll [.wrote 9, .wrote 12]]
    (∀ st ∈ steps, Sized st) ∧
    Run.Admits txStep (fun cl st => ¬ CutsLate cl st) {} steps ∧
    Framed (Run.run txStep {} steps) ∧
    (Run.run txStep {} steps).sock = msgPair.1.encode ++ msgPair.2.encode := by
  intro steps
  have hsize : ∀ st ∈ steps, Sized st := by
    simp [steps, Sized, msgPair, ubusMaxMsglen]
  have hcut : Run.Admits txStep (fun cl st => ¬ CutsLate cl st) {} steps := by
    refine ⟨?_, ?_, ?_, trivial⟩
    · rintro ⟨-, h, -⟩
      exact absurd h (by decide)
    · rintro ⟨-, h, -⟩
      exact absurd h (by decide)
    · exact id
  exact ⟨hsize, hcut, tx_framed steps hsize hcut, by decide +kernel⟩

/-- Eleven of the twelve bytes of a message are written, the last one is dropped
    and the next message follows. -/
theorem tx_cut_not_framed :
    let steps : List TxStep := [.send msgPair.1 (.wrote 11), .send msgPair.2 (.wrote 12)]
    (∀ st ∈ steps, Sized st) ∧ ¬ Framed (Run.run txStep {} steps) := by
  intro steps
  refine ⟨by simp [steps, Sized, msgPair, ubusMaxMsglen], ?_⟩
  decide +kernel

end Ubus
