/-
  The receive side of a ubusd client (the loop of `client_cb` in `ubusd_main.c`): a message is put
  together from the results of `recvmsg` and `read`, whatever parts of the stream these return.
-/
import IotLib.Ubus.Transmit

namespace Ubus

/-! ## Headers -/

/-- `be16_to_cpu` -/
def be16ToCpu (a b : UInt8) : UInt16 := UInt16.ofNat (a.toNat * 256 + b.toNat)

/-- `be32_to_cpu` -/
def be32ToCpu (a b c d : UInt8) : UInt32 :=
  UInt32.ofNat (((a.toNat * 256 + b.toNat) * 256 + c.toNat) * 256 + d.toNat)

/-- The header at the beginning of the bytes. -/
def Msghdr.decode : List UInt8 → Msghdr
  | version :: type :: s₀ :: s₁ :: p₀ :: p₁ :: p₂ :: p₃ :: _ =>
    ⟨version, type, be16ToCpu s₀ s₁, be32ToCpu p₀ p₁ p₂ p₃⟩
  | _ => ⟨0, 0, 0, 0⟩

/-- `blob_raw_len`: the low 24 bits of `id_len`. -/
def blobRawLen : List UInt8 → Nat
  | _ :: a :: b :: c :: _ => (a.toNat * 256 + b.toNat) * 256 + c.toNat
  | _ => 0

/-- `blob_pad_len`, for an attribute of the raw length `len`. -/
def blobPadLen (len : Nat) : Nat := (len + 3) / 4 * 4

/-- The size of `struct blob_attr`. -/
def sizeofBlobAttr : Nat := 4

/-- The size of `hdrbuf`: a message header and that of a blob. -/
def sizeofHdrbuf : Nat := sizeofHdr + sizeofBlobAttr

/-- A declared length for which the client is disconnected. -/
def BadLen (len : Nat) : Prop := len < sizeofBlobAttr ∨ ubusMaxMsglen < blobPadLen len

instance (len : Nat) : Decidable (BadLen len) := inferInstanceAs (Decidable (_ ∨ _))

/-! ## The loop -/

/-- The receive side of `struct ubus_client`, with the messages that were passed to
    `ubusd_proto_receive_message`. -/
structure Rx where
  hdrbuf : List UInt8 := []
  pendingMsg : Option MsgBuf := none
  pendingMsgOffset : Nat := 0
  closed : Bool := false
  received : List MsgBuf := []

/-- What `recvmsg` or `read` returns: some bytes, or an error. -/
inductive Recv where
  | bytes (bs : List UInt8)
  | again

/-- How many bytes are asked for. -/
def Rx.want (cl : Rx) : Nat :=
  if cl.pendingMsgOffset < sizeofHdrbuf then sizeofHdrbuf - cl.pendingMsgOffset
  else
    match cl.pendingMsg with
    | some ub => blobRawLen ub.data - (cl.pendingMsgOffset - sizeofHdr)
    | none => 0

/-- The message is accepted. -/
def Rx.accept (cl : Rx) (ub : MsgBuf) : Rx :=
  { cl with pendingMsg := none, pendingMsgOffset := 0, received := cl.received ++ [ub] }

/-- `recvmsg` has returned bytes for `hdrbuf`; whether the loop goes on. A message without a payload
    is complete at once. -/
def Rx.header (cl : Rx) (bs : List UInt8) : Rx × Bool :=
  let cl := { cl with
    hdrbuf := cl.hdrbuf.take cl.pendingMsgOffset ++ bs
    pendingMsgOffset := cl.pendingMsgOffset + bs.length }
  if cl.pendingMsgOffset < sizeofHdrbuf then (cl, false)
  else
    let data := cl.hdrbuf.drop sizeofHdr
    if BadLen (blobRawLen data) then ({ cl with closed := true }, false)
    else
      let ub := ⟨Msghdr.decode cl.hdrbuf, data⟩
      let cl := { cl with pendingMsg := some ub }
      (if cl.want = 0 then cl.accept ub else cl, true)

/-- `read` has returned bytes for the pending message; whether the loop goes on. -/
def Rx.body (cl : Rx) (ub : MsgBuf) (bs : List UInt8) : Rx × Bool :=
  let offset := cl.pendingMsgOffset - sizeofHdr
  let len := blobRawLen ub.data - offset
  let ub := { ub with data := ub.data.take offset ++ bs }
  if bs.length < len then
    ({ cl with pendingMsg := some ub, pendingMsgOffset := cl.pendingMsgOffset + bs.length }, false)
  else (cl.accept ub, true)

/-- The loop from one system call to the next. -/
def Rx.recv (cl : Rx) : Recv → Rx × Bool
  | .again => (cl, false)
  | .bytes bs =>
    if cl.pendingMsgOffset < sizeofHdrbuf then cl.header bs
    else
      match cl.pendingMsg with
      | some ub => cl.body ub bs
      | none => (cl, false)

/-- The receive loop of `client_cb`: the client, and the results that are left for the next call. -/
def Rx.clientCb : Rx → List Recv → Rx × List Recv
  | cl, [] => (cl, [])
  | cl, r :: rs => if (cl.recv r).2 then Rx.clientCb (cl.recv r).1 rs else ((cl.recv r).1, rs)

/-- `client_cb` is called `n` times, unless the client is disconnected. -/
def serve : Nat → Rx → List Recv → Rx × List Recv
  | 0, cl, rs => (cl, rs)
  | n + 1, cl, rs =>
    if cl.closed then (cl, rs) else serve n (Rx.clientCb cl rs).1 (Rx.clientCb cl rs).2

/-! ## Frames -/

/-- The stream of which the results are parts. -/
def stream (rs : List Recv) : List UInt8 :=
  rs.flatMap fun
    | .bytes bs => bs
    | .again => []

/-- The results are some of the bytes that were asked for. -/
def Fits : Rx → List Recv → Prop
  | _, [] => True
  | cl, r :: rs => cl.closed = true ∨
      (∀ bs, r = .bytes bs → 0 < bs.length ∧ bs.length ≤ cl.want) ∧ Fits (cl.recv r).1 rs

/-- A stream is a sequence of messages, each a header and a blob of its own raw length; the second
    component says that the first frame after them has a bad length. -/
def frames (s : List UInt8) : List MsgBuf × Bool :=
  let len := blobRawLen (s.drop sizeofHdr)
  if s.length < sizeofHdrbuf then ([], false)
  else if BadLen len then ([], true)
  else if s.length < sizeofHdr + len then ([], false)
  else
    let rest := frames (s.drop (sizeofHdr + len))
    (⟨Msghdr.decode s, (s.drop sizeofHdr).take len⟩ :: rest.1, rest.2)
termination_by s.length
decreasing_by
  simp only [List.length_drop, sizeofHdr] at *
  omega

section
variable {s t : List UInt8}

theorem decode_append (h : sizeofHdr ≤ s.length) : Msghdr.decode (s ++ t) = Msghdr.decode s := by
  match s, h with
  | _ :: _ :: _ :: _ :: _ :: _ :: _ :: _ :: _, _ => rfl

theorem blobRawLen_append (h : sizeofBlobAttr ≤ s.length) : blobRawLen (s ++ t) = blobRawLen s := by
  match s, h with
  | _ :: _ :: _ :: _ :: _, _ => rfl

theorem frames_short (h : s.length < sizeofHdrbuf) : frames s = ([], false) := by
  rw [frames]
  exact if_pos h

theorem frames_bad (h : sizeofHdrbuf ≤ s.length) (hbad : BadLen (blobRawLen (s.drop sizeofHdr))) :
    frames s = ([], true) := by
  rw [frames]
  simp only [if_neg (Nat.not_lt.2 h), if_pos hbad]

theorem frames_incomplete (h : sizeofHdrbuf ≤ s.length)
    (hok : ¬ BadLen (blobRawLen (s.drop sizeofHdr)))
    (hlen : s.length < sizeofHdr + blobRawLen (s.drop sizeofHdr)) : frames s = ([], false) := by
  rw [frames]
  simp only [if_neg (Nat.not_lt.2 h), if_neg hok, if_pos hlen]

/-- A complete frame at the beginning. -/
theorem frames_append (h : sizeofHdrbuf ≤ s.length)
    (hok : ¬ BadLen (blobRawLen (s.drop sizeofHdr)))
    (hlen : s.length = sizeofHdr + blobRawLen (s.drop sizeofHdr)) :
    frames (s ++ t) = (⟨Msghdr.decode s, s.drop sizeofHdr⟩ :: (frames t).1, (frames t).2) := by
  have hhdr : sizeofHdr ≤ s.length := by
    unfold sizeofHdrbuf at h
    omega
  have hdrop : (s ++ t).drop sizeofHdr = s.drop sizeofHdr ++ t :=
    List.drop_append_of_le_length hhdr
  have hraw : blobRawLen ((s ++ t).drop sizeofHdr) = blobRawLen (s.drop sizeofHdr) := by
    rw [hdrop]
    refine blobRawLen_append ?_
    rw [List.length_drop]
    unfold sizeofHdrbuf at h
    omega
  have hdata : (s.drop sizeofHdr).length = blobRawLen (s.drop sizeofHdr) := by
    rw [List.length_drop]
    omega
  rw [frames, hraw]
  have h1 : ¬ (s ++ t).length < sizeofHdrbuf := by
    rw [List.length_append]
    omega
  have h2 : ¬ (s ++ t).length < sizeofHdr + blobRawLen (s.drop sizeofHdr) := by
    rw [List.length_append]
    omega
  have h3 : (s ++ t).drop (sizeofHdr + blobRawLen (s.drop sizeofHdr)) = t := by
    rw [← hlen, List.drop_left]
  have h4 : ((s ++ t).drop sizeofHdr).take (blobRawLen (s.drop sizeofHdr)) = s.drop sizeofHdr := by
    rw [hdrop, ← hdata, List.take_left]
  simp only [if_neg h1, if_neg hok, if_neg h2, h3, h4, decode_append hhdr]

end

/-! ## Reassembly -/

/-- The bytes of the frame that is being received. -/
def Rx.part (cl : Rx) : List UInt8 :=
  match cl.pendingMsg with
  | none => cl.hdrbuf.take cl.pendingMsgOffset
  | some ub => cl.hdrbuf.take sizeofHdr ++ ub.data

/-- A part of the header is in `hdrbuf`, or the header is complete and a part of the
    blob is in the pending message. -/
structure Rx.Ok (cl : Rx) : Prop where
  header : cl.pendingMsg = none →
    cl.pendingMsgOffset < sizeofHdrbuf ∧ cl.pendingMsgOffset ≤ cl.hdrbuf.length
  body : ∀ ub, cl.pendingMsg = some ub →
    sizeofHdr ≤ cl.hdrbuf.length ∧ sizeofHdrbuf ≤ cl.pendingMsgOffset ∧
    ub.hdr = Msghdr.decode (cl.hdrbuf.take sizeofHdr) ∧
    cl.pendingMsgOffset = sizeofHdr + ub.data.length ∧ ¬ BadLen (blobRawLen ub.data) ∧
    ub.data.length < blobRawLen ub.data

theorem Rx.part_accept (cl : Rx) (ub : MsgBuf) : (cl.accept ub).part = [] := rfl

theorem Rx.ok_accept (cl : Rx) (ub : MsgBuf) : (cl.accept ub).Ok :=
  ⟨fun _ => ⟨(by decide : 0 < sizeofHdrbuf), Nat.zero_le _⟩, fun _ h => by cases h⟩

/-- What one system call does to the frames of the stream: `ms` are the messages
    that it completes. -/
structure Rx.Step (cl cl' : Rx) (bs : List UInt8) (ms : List MsgBuf) : Prop where
  received : cl'.received = cl.received ++ ms
  going : cl'.closed = false → cl'.Ok ∧ ∀ t, frames (cl.part ++ (bs ++ t)) =
    (ms ++ (frames (cl'.part ++ t)).1, (frames (cl'.part ++ t)).2)
  stopped : cl'.closed = true → ∀ t, frames (cl.part ++ (bs ++ t)) = (ms, true)

section
variable {cl : Rx} {bs : List UInt8}

theorem Rx.part_length (h : cl.Ok) : cl.part.length = cl.pendingMsgOffset := by
  unfold Rx.part
  cases hp : cl.pendingMsg with
  | none =>
    rw [List.length_take]
    exact Nat.min_eq_left (h.header hp).2
  | some ub =>
    obtain ⟨h1, -, -, h2, -⟩ := h.body ub hp
    rw [List.length_append, List.length_take, h2, Nat.min_eq_left h1]

/-- The stream ends inside of a frame. -/
theorem Rx.frames_part (h : cl.Ok) : frames cl.part = ([], false) := by
  have hlen := Rx.part_length h
  cases hp : cl.pendingMsg with
  | none => exact frames_short (hlen ▸ (h.header hp).1)
  | some ub =>
    obtain ⟨h1, h2, -, h3, h4, h5⟩ := h.body ub hp
    have hdrop : cl.part.drop sizeofHdr = ub.data := by
      simp only [Rx.part, hp]
      rw [List.drop_append_of_le_length (by rw [List.length_take]; omega), List.drop_take]
      simp
    refine frames_incomplete (hlen ▸ h2) (by rw [hdrop]; exact h4) ?_
    rw [hdrop]
    omega

/-- The bytes of a header are appended to those that are there. -/
theorem Rx.header_step (h : cl.Ok) (hopen : cl.closed = false) (hp : cl.pendingMsg = none)
    (hbs : bs.length ≤ sizeofHdrbuf - cl.pendingMsgOffset) :
    ∃ ms, Rx.Step cl (cl.header bs).1 bs ms := by
  obtain ⟨h1, h2⟩ := h.header hp
  set buf := cl.hdrbuf.take cl.pendingMsgOffset ++ bs with hbuf
  have hpart : ∀ t, cl.part ++ (bs ++ t) = buf ++ t := by
    intro t
    rw [Rx.part, hp, hbuf, List.append_assoc]
  have hlen : buf.length = cl.pendingMsgOffset + bs.length := by
    rw [hbuf, List.length_append, List.length_take, Nat.min_eq_left h2]
  have hclosed : cl.closed ≠ true := by
    rw [hopen]
    decide
  unfold Rx.header
  simp only [← hbuf]
  by_cases hshort : cl.pendingMsgOffset + bs.length < sizeofHdrbuf
  · -- the header is not complete yet
    rw [if_pos hshort]
    refine ⟨[], by simp, fun _ => ⟨⟨fun _ => ⟨hshort, hlen.ge⟩, fun ub hub => ?_⟩, fun t => ?_⟩,
      fun hc => ?_⟩
    · rw [show cl.pendingMsg = some ub from hub] at hp
      cases hp
    · have hpart' : Rx.part { cl with hdrbuf := buf, pendingMsgOffset := cl.pendingMsgOffset + bs.length } =
          buf := by
        simp only [Rx.part, hp, ← hlen, List.take_length]
      rw [hpart, hpart']
      rfl
    · exact absurd hc hclosed
  rw [if_neg hshort]
  have hfull : buf.length = sizeofHdrbuf := by omega
  have hblob : (buf.drop sizeofHdr).length = sizeofBlobAttr := by
    rw [List.length_drop, hfull]
    rfl
  split_ifs with hbad hwant
  · refine ⟨[], by simp, fun hc => (by cases hc), fun _ t => ?_⟩
    rw [hpart]
    refine frames_bad (by rw [List.length_append]; omega) ?_
    rwa [List.drop_append_of_le_length (by rw [hfull]; decide), blobRawLen_append hblob.ge]
  · -- a message without a payload
    have hraw : blobRawLen (buf.drop sizeofHdr) = sizeofBlobAttr := by
      have hge : ¬ blobRawLen (buf.drop sizeofHdr) < sizeofBlobAttr := fun h => hbad (Or.inl h)
      simp only [Rx.want, if_neg hshort] at hwant
      rw [← hlen, hfull] at hwant
      unfold sizeofHdrbuf at hwant
      omega
    refine ⟨[⟨Msghdr.decode buf, buf.drop sizeofHdr⟩], rfl,
      fun _ => ⟨Rx.ok_accept _ _, fun t => ?_⟩, fun hc => ?_⟩
    · rw [hpart, Rx.part_accept, List.nil_append, frames_append hfull.ge hbad]
      · rfl
      · rw [hraw, hfull]
        rfl
    · exact absurd hc hclosed
  · refine ⟨[], by simp, fun _ => ⟨⟨fun hn => (by cases hn), fun ub hub => ?_⟩, fun t => ?_⟩,
      fun hc => ?_⟩
    · obtain rfl : ⟨Msghdr.decode buf, buf.drop sizeofHdr⟩ = ub := Option.some.inj hub
      refine ⟨by rw [hfull]; decide, Nat.not_lt.1 hshort, ?_, ?_, hbad, ?_⟩
      · change Msghdr.decode buf = Msghdr.decode (buf.take sizeofHdr)
        conv_lhs => rw [← List.take_append_drop sizeofHdr buf]
        exact decode_append (by rw [List.length_take, hfull]; decide)
      · change cl.pendingMsgOffset + bs.length = sizeofHdr + (buf.drop sizeofHdr).length
        rw [hblob, ← hlen, hfull]
        rfl
      · change (buf.drop sizeofHdr).length < blobRawLen (buf.drop sizeofHdr)
        simp only [Rx.want, if_neg hshort] at hwant
        rw [← hlen, hfull] at hwant
        unfold sizeofHdrbuf at hwant
        rw [hblob]
        omega
    · rw [hpart]
      simp only [Rx.part, List.take_append_drop, List.nil_append]
    · exact absurd hc hclosed

/-- The bytes of a blob are appended to those that are there. -/
theorem Rx.body_step (h : cl.Ok) (hopen : cl.closed = false) {ub : MsgBuf}
    (hp : cl.pendingMsg = some ub)
    (hbs : bs.length ≤ blobRawLen ub.data - (cl.pendingMsgOffset - sizeofHdr)) :
    ∃ ms, Rx.Step cl (cl.body ub bs).1 bs ms := by
  obtain ⟨h1, h2, h3, h4, h5, h6⟩ := h.body ub hp
  have hofs : cl.pendingMsgOffset - sizeofHdr = ub.data.length := by omega
  have hraw : ∀ t, blobRawLen (ub.data ++ t) = blobRawLen ub.data := by
    intro t
    refine blobRawLen_append ?_
    unfold sizeofHdrbuf at h2
    omega
  have hpart : ∀ t, cl.part ++ (bs ++ t) = cl.hdrbuf.take sizeofHdr ++ (ub.data ++ bs) ++ t := by
    intro t
    simp only [Rx.part, hp, List.append_assoc]
  have hclosed : cl.closed ≠ true := by
    rw [hopen]
    decide
  rw [hofs] at hbs
  unfold Rx.body
  simp only [hofs, List.take_length]
  split_ifs with hmore
  · refine ⟨[], by simp, fun _ => ⟨⟨fun hn => (by cases hn), fun ub' hub' => ?_⟩, fun t => ?_⟩,
      fun hc => ?_⟩
    · obtain rfl : { ub with data := ub.data ++ bs } = ub' := Option.some.inj hub'
      refine ⟨h1, ?_, h3, ?_, ?_, ?_⟩
      · exact Nat.le_add_right_of_le h2
      · change cl.pendingMsgOffset + bs.length = sizeofHdr + (ub.data ++ bs).length
        rw [List.length_append]
        omega
      · rwa [hraw]
      · rw [hraw, List.length_append]
        omega
    · rw [hpart]
      rfl
    · exact absurd hc hclosed
  · refine ⟨[⟨ub.hdr, ub.data ++ bs⟩], rfl, fun _ => ⟨Rx.ok_accept _ _, fun t => ?_⟩, fun hc => ?_⟩
    · have htake : (cl.hdrbuf.take sizeofHdr).length = sizeofHdr := by
        rw [List.length_take, Nat.min_eq_left h1]
      have hdrop : (cl.hdrbuf.take sizeofHdr ++ (ub.data ++ bs)).drop sizeofHdr = ub.data ++ bs := by
        rw [List.drop_append_of_le_length htake.ge, List.drop_of_length_le htake.le,
          List.nil_append]
      rw [hpart, Rx.part_accept, List.nil_append, frames_append, hdrop, decode_append htake.ge, ← h3]
      · rfl
      · rw [List.length_append, htake, List.length_append]
        unfold sizeofHdrbuf at *
        omega
      · rwa [hdrop, hraw]
      · rw [hdrop, hraw, List.length_append, htake, List.length_append]
        omega
    · exact absurd hc hclosed

/-- One system call. -/
theorem Rx.recv_step (h : cl.Ok) (hopen : cl.closed = false) (hbs : bs.length ≤ cl.want) :
    ∃ ms, Rx.Step cl (cl.recv (.bytes bs)).1 bs ms := by
  simp only [Rx.recv]
  cases hp : cl.pendingMsg with
  | none =>
    have hlt := (h.header hp).1
    rw [if_pos hlt]
    rw [Rx.want, if_pos hlt] at hbs
    exact Rx.header_step h hopen hp hbs
  | some ub =>
    have hge : ¬ cl.pendingMsgOffset < sizeofHdrbuf := Nat.not_lt.2 (h.body ub hp).2.1
    rw [if_neg hge]
    rw [Rx.want, if_neg hge, hp] at hbs
    exact Rx.body_step h hopen hp hbs

end

/-- The system calls one after the other, until the client is disconnected. -/
def Rx.feed : Rx → List Recv → Rx
  | cl, [] => cl
  | cl, r :: rs => if cl.closed then cl else (cl.recv r).1.feed rs

theorem Rx.feed_closed {cl : Rx} (h : cl.closed = true) (rs : List Recv) : cl.feed rs = cl := by
  cases rs with
  | nil => rfl
  | cons r rs => rw [Rx.feed, if_pos h]

/-- The messages received are the frames of the stream. -/
theorem Rx.feed_frames : ∀ {cl : Rx} {rs : List Recv}, cl.Ok → cl.closed = false → Fits cl rs →
    (cl.feed rs).received = cl.received ++ (frames (cl.part ++ stream rs)).1 ∧
      (cl.feed rs).closed = (frames (cl.part ++ stream rs)).2
  | cl, [], h, hopen, _ => by
    rw [show stream [] = [] from rfl, List.append_nil, Rx.frames_part h, List.append_nil]
    exact ⟨rfl, hopen⟩
  | cl, .again :: rs, h, hopen, hfits => by
    obtain ⟨-, hrest⟩ := hfits.resolve_left (by rw [hopen]; decide)
    rw [Rx.feed, if_neg (by rw [hopen]; decide)]
    exact Rx.feed_frames h hopen hrest
  | cl, .bytes bs :: rs, h, hopen, hfits => by
    obtain ⟨hbs, hrest⟩ := hfits.resolve_left (by rw [hopen]; decide)
    obtain ⟨ms, hrec, hgo, hstop⟩ := Rx.recv_step h hopen (hbs bs rfl).2
    have hstream : stream (.bytes bs :: rs) = bs ++ stream rs := rfl
    rw [Rx.feed, if_neg (by rw [hopen]; decide), hstream]
    cases hc : (cl.recv (.bytes bs)).1.closed with
    | true =>
      rw [Rx.feed_closed hc, hstop hc, hc, hrec]
      exact ⟨rfl, rfl⟩
    | false =>
      obtain ⟨hok, hframes⟩ := hgo hc
      obtain ⟨h1, h2⟩ := Rx.feed_frames hok hc hrest
      rw [hframes, h1, h2, hrec, List.append_assoc]
      exact ⟨rfl, rfl⟩

/-! ## Calls of `client_cb` -/

theorem Rx.recv_closed {cl : Rx} {r : Recv} (h : (cl.recv r).2 = true) (hopen : cl.closed = false) :
    (cl.recv r).1.closed = false := by
  cases r with
  | again => exact hopen
  | bytes bs =>
    simp only [Rx.recv] at h ⊢
    split_ifs at h ⊢ with hhdr
    · unfold Rx.header at h ⊢
      dsimp only at h ⊢
      split_ifs at h ⊢ <;> exact hopen
    · cases hp : cl.pendingMsg with
      | none => exact hopen
      | some ub =>
        unfold Rx.body
        dsimp only
        split_ifs <;> exact hopen

/-- A call takes results from the front, at least one if there are any. -/
theorem Rx.clientCb_feed : ∀ {cl : Rx} {rs : List Recv}, cl.closed = false →
    (Rx.clientCb cl rs).1.feed (Rx.clientCb cl rs).2 = cl.feed rs ∧
      ((Rx.clientCb cl rs).2.length < rs.length ∨ rs = [])
  | cl, [], _ => ⟨rfl, Or.inr rfl⟩
  | cl, r :: rs, hopen => by
    have hne : ¬ cl.closed = true := by
      rw [hopen]
      decide
    rw [Rx.clientCb, Rx.feed, if_neg hne]
    split_ifs with hgo
    · obtain ⟨h1, h2⟩ := @Rx.clientCb_feed _ rs (Rx.recv_closed hgo hopen)
      refine ⟨h1, Or.inl ?_⟩
      rcases h2 with h2 | rfl
      · exact h2.trans (Nat.lt_succ_self _)
      · exact Nat.succ_pos _
    · exact ⟨rfl, Or.inl (Nat.lt_succ_self _)⟩

theorem serve_feed : ∀ (n : Nat) {cl : Rx} {rs : List Recv}, rs.length ≤ n →
    (serve n cl rs).1 = cl.feed rs
  | 0, cl, rs, h => by
    rw [List.length_eq_zero_iff.1 (Nat.le_zero.1 h)]
    rfl
  | n + 1, cl, rs, h => by
    rw [serve]
    split_ifs with hc
    · exact (Rx.feed_closed hc rs).symm
    · obtain ⟨h1, h2⟩ := @Rx.clientCb_feed cl rs (by simpa using hc)
      rw [← h1]
      refine serve_feed n ?_
      rcases h2 with h2 | rfl
      · omega
      · exact Nat.zero_le _

/-- **Reassembly.** Whatever parts of the stream the system calls return, the messages that are
    handed on are the frames of the stream, and the client is disconnected at the first frame with a
    bad length. -/
theorem receive_reassembles (rs : List Recv) (hfits : Fits {} rs) (n : Nat) (hn : rs.length ≤ n) :
    (serve n {} rs).1.received = (frames (stream rs)).1 ∧
      (serve n {} rs).1.closed = (frames (stream rs)).2 := by
  rw [serve_feed n hn]
  exact @Rx.feed_frames {} rs ⟨fun _ => ⟨by decide, Nat.zero_le _⟩, fun _ h => by cases h⟩ rfl hfits

/-- A header in two parts, a blob of five bytes, and the header of a frame that is too short. -/
theorem receive_reassembles_parts :
    let rs : List Recv := [.bytes [0, 4, 1, 2, 0], .again, .bytes [0, 0, 7, 0, 0, 0, 5], .bytes [9],
      .bytes [0, 4, 0, 0, 0, 0, 0, 0, 0, 0, 0, 3]]
    (serve 5 {} rs).1.received = [⟨⟨0, 4, 258, 7⟩, [0, 0, 0, 5, 9]⟩] ∧
      (serve 5 {} rs).1.closed = true := by
  intro rs
  have hfits : Fits {} rs := by
    refine Or.inr ⟨?_, Or.inr ⟨?_, Or.inr ⟨?_, Or.inr ⟨?_, Or.inr ⟨?_, trivial⟩⟩⟩⟩⟩
    all_goals rintro bs ⟨⟩
    all_goals exact ⟨by decide, by decide⟩
  have h := receive_reassembles rs hfits 5 (by decide)
  have hframes : frames (stream rs) = ([⟨⟨0, 4, 258, 7⟩, [0, 0, 0, 5, 9]⟩], true) := by
    have hsplit : stream rs = [0, 4, 1, 2, 0, 0, 0, 7, 0, 0, 0, 5, 9] ++
        [0, 4, 0, 0, 0, 0, 0, 0, 0, 0, 0, 3] := rfl
    rw [hsplit, frames_append (by decide) (by decide) (by decide),
      frames_bad (by decide) (by decide)]
    rfl
  rw [hframes] at h
  exact h

end Ubus
