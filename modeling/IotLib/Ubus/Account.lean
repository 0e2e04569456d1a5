/-
  The accounting of the transmit queue (`ubusd.c`, `client_cb` in
  `ubusd_main.c`): `txq_len` is meant to be the number of unsent bytes.
-/
import IotLib.Ubus.Transmit

namespace Ubus

/-! ## The unsent bytes -/

/-- The bytes of the queued messages that are not yet written. -/
def Tx.unsent (cl : Tx) : Nat :=
  match cl.txQueue with
  | [] => 0
  | ub :: rest => ub.encode.length - cl.txqOfs + (rest.map fun ub => ub.encode.length).sum

/-- A message is dropped: it is neither written in full nor queued. -/
def Drops (cl : Tx) : TxStep → Prop
  | .send ub a =>
    (ubusMsgSend cl ub a).txQueue = cl.txQueue ∧
      ¬ (cl.txQueue = [] ∧ ub.encode.length ≤ a.count)
  | .poll _ => False

/-- The counter is the number of unsent bytes, and these stay below the limit up
    to a header for each message. -/
structure Counted (cl : Tx) : Prop where
  len : cl.txqLen = cl.unsent
  bound : cl.unsent ≤ ubusClientMaxTxqLen + sizeofHdr * cl.txQueue.length

/-- A message is only dropped if it does not fit, and the counter is right after the step. -/
structure CountedStep (cl : Tx) (st : TxStep) : Prop where
  drop : ∀ ub a, st = .send ub a → cl.closed = false → Drops cl st →
    ubusClientMaxTxqLen < cl.unsent + ub.encode.length
  after : Counted (txStep cl st)

/-- The length of a message is an `int`. -/
def IntLen : TxStep → Prop
  | .send ub _ => ub.data.length < 2 ^ 31
  | .poll _ => True

/-- A message is written in full at once, or none of it is and it is longer than
    the limit: none is ever queued. -/
def Direct : TxStep → Prop
  | .send ub a =>
    ub.encode.length ≤ a.count ∨ a.count = 0 ∧ ubusClientMaxTxqLen < ub.data.length
  | .poll _ => True

/-! ## Steps -/

/-- Nothing is queued, and the counter says so. -/
structure Idle (cl : Tx) : Prop where
  queue : cl.txQueue = []
  len : cl.txqLen = 0
  live : cl.closed = false

theorem Idle.init : Idle {} := ⟨rfl, rfl, rfl⟩

theorem Idle.counted {cl : Tx} (h : Idle cl) : Counted cl := by
  have hunsent : cl.unsent = 0 := by
    unfold Tx.unsent
    rw [h.queue]
  exact ⟨by rw [h.len, hunsent], by rw [hunsent]; exact Nat.zero_le _⟩

theorem Idle.poll {cl : Tx} (h : Idle cl) (as : List Answer) : txStep cl (.poll as) = cl := by
  unfold txStep
  rw [h.live, if_neg Bool.false_ne_true]
  dsimp only
  rw [h.queue, txMore]

section
variable {cl : Tx} {ub : MsgBuf} {a : Answer}

theorem Idle.send (h : Idle cl) : txStep cl (.send ub a) =
    if ub.data.length + sizeofHdr ≤ (ub.encode.take a.count).length then
      { cl with sent := cl.sent ++ [ub], sock := cl.sock ++ ub.encode.take a.count }
    else
      ubusMsgEnqueue { cl with
        sent := cl.sent ++ [ub], sock := cl.sock ++ ub.encode.take a.count
        txqOfs := u32 (ub.encode.take a.count).length
        txqLen := u32 (-(ub.encode.take a.count).length) } ub := by
  unfold txStep
  rw [if_neg (by rw [h.live]; exact Bool.false_ne_true)]
  dsimp only [ubusMsgSend]
  rw [if_pos h.queue, ubusMsgWritev_zero]

/-- A message that is written in full leaves no trace. -/
theorem Idle.send_whole (h : Idle cl) (hall : ub.encode.length ≤ a.count) :
    Idle (txStep cl (.send ub a)) := by
  rw [h.send, List.take_of_length_le hall, if_pos (by rw [MsgBuf.length_encode])]
  exact ⟨h.queue, h.len, h.live⟩

/-- What is left of a message after a short write is put into the queue, or is dropped. -/
theorem Idle.send_short (h : Idle cl) (hshort : a.count < ub.encode.length) :
    let cl' := txStep cl (.send ub a)
    if u32 (u32 (-a.count) + ub.data.length) > ubusClientMaxTxqLen then
      cl'.txQueue = [] ∧ cl'.txqLen = u32 (-a.count) ∧ cl'.closed = false
    else
      cl'.txQueue = [ub] ∧ cl'.txqLen = u32 (u32 (-a.count) + ub.data.length) ∧
        cl'.txqOfs = u32 a.count := by
  have hlen : (ub.encode.take a.count).length = a.count := by
    rw [List.length_take]
    omega
  have hrest : ¬ ub.data.length + sizeofHdr ≤ a.count := by
    rw [MsgBuf.length_encode] at hshort
    omega
  dsimp only
  rw [h.send, hlen, if_neg hrest]
  unfold ubusMsgEnqueue
  dsimp only
  split_ifs with hdrop
  · exact ⟨h.queue, rfl, h.live⟩
  · refine ⟨?_, rfl, rfl⟩
    rw [h.queue, List.nil_append]

/-- The part of a message that was written is not counted before the rest is queued. -/
theorem Idle.send_direct (h : Idle cl) (hdirect : Direct (.send ub a))
    (hint : IntLen (.send ub a)) : Idle (txStep cl (.send ub a)) := by
  rcases hdirect with hall | ⟨hnone, hlong⟩
  · exact h.send_whole hall
  · have hshort : a.count < ub.encode.length := by
      rw [hnone, MsgBuf.length_encode]
      exact Nat.add_pos_right _ (by decide)
    have hsend := h.send_short hshort
    have hdrop : u32 (u32 (-a.count) + ub.data.length) > ubusClientMaxTxqLen := by
      rw [hnone]
      simp only [IntLen, u32, ubusClientMaxTxqLen, ubusMaxMsglen] at *
      omega
    rw [if_pos hdrop] at hsend
    obtain ⟨hqueue, hlen, hopen⟩ := hsend
    refine ⟨hqueue, ?_, hopen⟩
    rw [hlen, hnone]
    rfl

/-- The counter is wrong after every other message. -/
theorem Idle.direct_of_counted (h : Idle cl) (hint : IntLen (.send ub a))
    (hcounted : Counted (txStep cl (.send ub a))) : Direct (.send ub a) := by
  by_contra hdirect
  obtain ⟨hall, hnone⟩ := not_or.1 hdirect
  have hsend := h.send_short (not_le.1 hall)
  have hlen := hcounted.len
  rw [MsgBuf.length_encode] at hall
  split_ifs at hsend with hdrop
  · obtain ⟨hqueue, htxq, -⟩ := hsend
    unfold Tx.unsent at hlen
    rw [hqueue, htxq] at hlen
    simp only [IntLen, u32, ubusClientMaxTxqLen, ubusMaxMsglen, sizeofHdr] at *
    omega
  · obtain ⟨hqueue, htxq, hofs⟩ := hsend
    unfold Tx.unsent at hlen
    rw [hqueue, htxq, hofs] at hlen
    simp only [IntLen, u32, MsgBuf.length_encode, sizeofHdr, List.map_nil, List.sum_nil] at *
    omega

end

/-- On an idle client, a step is counted exactly if it queues nothing. -/
theorem Idle.countedStep_iff {cl : Tx} (h : Idle cl) {st : TxStep} (hint : IntLen st) :
    CountedStep cl st ↔ Direct st := by
  cases st with
  | poll as =>
    refine iff_of_true ⟨?_, ?_⟩ trivial
    · rintro _ _ ⟨⟩
    · rw [h.poll]
      exact h.counted
  | send ub a =>
    refine ⟨fun hst => h.direct_of_counted hint hst.after, fun hdirect => ⟨?_, ?_⟩⟩
    · rintro _ _ ⟨⟩ - ⟨-, hnot⟩
      rcases hdirect with hall | ⟨-, hlong⟩
      · exact absurd ⟨h.queue, hall⟩ hnot
      · rw [MsgBuf.length_encode]
        omega
    · exact (h.send_direct hdirect hint).counted

theorem Idle.step {cl : Tx} (h : Idle cl) {st : TxStep} (hint : IntLen st) (hdirect : Direct st) :
    Idle (txStep cl st) := by
  cases st with
  | poll as =>
    rw [h.poll]
    exact h
  | send ub a => exact h.send_direct hdirect hint

/-! ## Runs -/

theorem Idle.admits_iff {cl : Tx} (h : Idle cl) {steps : List TxStep}
    (hint : ∀ st ∈ steps, IntLen st) :
    Run.Admits txStep CountedStep cl steps ↔ ∀ st ∈ steps, Direct st := by
  induction steps generalizing cl with
  | nil => exact iff_of_true trivial fun _ hst => absurd hst List.not_mem_nil
  | cons st steps ih =>
    obtain ⟨hst, hsteps⟩ := List.forall_mem_cons.1 hint
    rw [Run.Admits, List.forall_mem_cons, h.countedStep_iff hst]
    refine and_congr_right fun hdirect => ?_
    exact ih (h.step hst hdirect) hsteps

/-- **The accounting of the transmit queue.** In a run, `txq_len` is always the number of unsent
    bytes, messages are only dropped beyond the limit and the unsent bytes stay below it, exactly if
    no message is ever queued. -/
theorem txq_counted_iff (steps : List TxStep) (hint : ∀ st ∈ steps, IntLen st) :
    Counted {} ∧ Run.Admits txStep CountedStep {} steps ↔ ∀ st ∈ steps, Direct st := by
  rw [Idle.init.admits_iff hint]
  exact and_iff_right Idle.init.counted

/-- Two messages that are written in full. -/
theorem txq_counted_direct :
    let steps : List TxStep := [.send msgPair.1 (.wrote 12), .send msgPair.2 (.wrote 12), .poll []]
    (∀ st ∈ steps, IntLen st) ∧ Run.Admits txStep CountedStep {} steps := by
  intro steps
  have hint : ∀ st ∈ steps, IntLen st := by simp [steps, IntLen, msgPair]
  refine ⟨hint, ((txq_counted_iff steps hint).2 ?_).2⟩
  simp [steps, Direct, msgPair, Answer.count, sizeofHdr]

/-- Three of the twelve bytes of a message are written: nine are unsent, the counter is one. If
    eleven are written, the rest is dropped. -/
theorem txq_not_counted :
    let cl := txStep {} (.send msgPair.1 (.wrote 3))
    cl.txqLen = 1 ∧ cl.unsent = 9 ∧ ¬ Counted cl ∧
    Drops {} (.send msgPair.1 (.wrote 11)) ∧
    ¬ CountedStep {} (.send msgPair.1 (.wrote 11)) := by
  refine ⟨by decide, by decide, fun h => absurd h.len (by decide), ⟨by decide, by decide⟩, fun h => ?_⟩
  exact absurd (h.drop _ _ rfl rfl ⟨by decide, by decide⟩) (by decide)

end Ubus
