/-
  The owners of the received descriptors: a descriptor belongs to the client it
  came from until its message is complete, then to the buffer of the message, and
  the references to that buffer are the places where it is held or queued.
-/
import IotLib.Ubus.Descriptors

namespace Ubus.Fd

open Ledger (Event)

/-! ## The invariant -/

inductive Owner where
  | client (c : Ptr)
  | buffer (p : Ptr)
deriving DecidableEq

def St.own (s : St) : Owner → Option Nat
  | .client c => (s.cli c).pendingMsgFd
  | .buffer p => (s.buf p).fd

/-- How often a buffer is on a transmit queue. -/
def St.queued (s : St) (p : Ptr) : Nat := (s.clients.map fun c => (s.cli c).txQueue.count p).sum

/-- The references to a buffer with a descriptor are those on the transmit queues and
    those in `held`. -/
structure Inv (held : List Ptr) (s : St) : Prop where
  balanced : Ledger.Balanced s.own s.nextFd s.log
  refs : ∀ p, (s.buf p).fd ≠ none → 0 < s.queued p + held.count p ∧
    (s.buf p).refcount = some (s.queued p + held.count p)
  fresh : ∀ p, s.next ≤ p → (s.buf p).fd = none
  below : ∀ c, ∀ p ∈ (s.cli c).txQueue, p < s.next
  cmd : ∀ c, ∀ p ∈ (s.cli c).cmdQueue, p < s.next ∧ (s.buf p).fd = none
  nodup : s.clients.Nodup
  conn : ∀ c ∈ s.clients, c < s.next
  gone : ∀ c, c ∉ s.clients → (s.cli c).pendingMsgFd = none

theorem Inv.init : Inv [] {} where
  balanced := by
    have hown : St.own {} = fun _ => none := by
      funext o
      cases o <;> rfl
    rw [hown]
    exact Ledger.Balanced.init
  refs p h := absurd rfl h
  fresh _ _ := rfl
  below _ _ h := absurd h List.not_mem_nil
  cmd _ _ h := absurd h List.not_mem_nil
  nodup := List.nodup_nil
  conn _ h := absurd h List.not_mem_nil
  gone _ _ := rfl

/-! ## Queues -/

theorem sum_map_update {f : Ptr → Nat} {c : Ptr} {v : Nat} :
    ∀ {cs : List Ptr}, cs.Nodup → c ∈ cs →
      (cs.map (Function.update f c v)).sum + f c = (cs.map f).sum + v
  | [], _, hc => absurd hc List.not_mem_nil
  | d :: cs, hnd, hc => by
    obtain ⟨hd, hnd⟩ := List.nodup_cons.1 hnd
    simp only [List.map_cons, List.sum_cons]
    by_cases e : d = c
    · subst e
      have hrest : cs.map (Function.update f d v) = cs.map f := by
        refine List.map_congr_left fun x hx => Function.update_of_ne ?_ _ _
        rintro rfl
        exact hd hx
      rw [hrest, Function.update_self]
      omega
    · have ih := sum_map_update (f := f) (v := v) hnd ((List.mem_cons.1 hc).resolve_left (Ne.symm e))
      rw [Function.update_of_ne e]
      omega

section
variable {s : St} {held : List Ptr} {c ub p : Ptr} {cl : Cli} {b : Buf}

theorem queued_setCli (hnd : s.clients.Nodup) (hc : c ∈ s.clients) (cl : Cli) (p : Ptr) :
    (s.setCli c cl).queued p + (s.cli c).txQueue.count p = s.queued p + cl.txQueue.count p := by
  have hfun : (fun d => ((s.setCli c cl).cli d).txQueue.count p) =
      Function.update (fun d => (s.cli d).txQueue.count p) c (cl.txQueue.count p) := by
    funext d
    by_cases e : d = c
    · rw [e, Function.update_self]
      simp only [St.setCli, Function.update_self]
    · rw [Function.update_of_ne e]
      simp only [St.setCli, Function.update_of_ne e]
  unfold St.queued
  change (s.clients.map _).sum + _ = _
  rw [hfun]
  exact sum_map_update (f := fun d => (s.cli d).txQueue.count p) hnd hc

theorem queued_setCli_same (hq : cl.txQueue = (s.cli c).txQueue) (p : Ptr) :
    (s.setCli c cl).queued p = s.queued p := by
  unfold St.queued
  refine congrArg List.sum (List.map_congr_left fun d _ => ?_)
  by_cases e : d = c
  · rw [e]
    simp only [St.setCli, Function.update_self, hq]
  · simp only [St.setCli, Function.update_of_ne e]

theorem queued_pos (h : 0 < s.queued p) : ∃ c ∈ s.clients, p ∈ (s.cli c).txQueue := by
  by_contra hno
  push Not at hno
  refine absurd (List.sum_eq_zero fun x hx => ?_) h.ne'
  obtain ⟨c, hc, rfl⟩ := List.mem_map.1 hx
  exact List.count_eq_zero.2 (hno c hc)

theorem queued_eq_zero (h : ∀ c, p ∉ (s.cli c).txQueue) : s.queued p = 0 := by
  by_contra hne
  obtain ⟨c, -, hp⟩ := queued_pos (Nat.pos_of_ne_zero hne)
  exact h c hp

/-! ## The operations on one place -/

theorem own_setCli (hp : cl.pendingMsgFd = (s.cli c).pendingMsgFd) :
    (s.setCli c cl).own = s.own := by
  funext o
  cases o with
  | buffer p => rfl
  | client d =>
    by_cases e : d = c
    · rw [e]
      simp only [St.own, St.setCli, Function.update_self, hp]
    · simp only [St.own, St.setCli, Function.update_of_ne e]

theorem own_setBuf (hb : b.fd = (s.buf p).fd) : (s.setBuf p b).own = s.own := by
  funext o
  cases o with
  | client c => rfl
  | buffer q =>
    by_cases e : q = p
    · rw [e]
      simp only [St.own, St.setBuf, Function.update_self, hb]
    · simp only [St.own, St.setBuf, Function.update_of_ne e]

/-- Another record for a client, with the same descriptor; the queue may change by what is held. -/
theorem Inv.setCli {held' : List Ptr} (h : Inv held s)
    (hp : cl.pendingMsgFd = (s.cli c).pendingMsgFd)
    (hrefs : ∀ q, (s.buf q).fd ≠ none →
      (s.setCli c cl).queued q + held'.count q = s.queued q + held.count q)
    (hq : ∀ q ∈ cl.txQueue, q < s.next)
    (hcmd : ∀ q ∈ cl.cmdQueue, q < s.next ∧ (s.buf q).fd = none) : Inv held' (s.setCli c cl) where
  balanced := own_setCli hp ▸ h.balanced
  refs q hq := by
    rw [hrefs q hq]
    exact h.refs q hq
  fresh := h.fresh
  below d q hq' := by
    by_cases e : d = c
    · rw [e] at hq'
      simp only [St.setCli, Function.update_self] at hq'
      exact hq q hq'
    · simp only [St.setCli, Function.update_of_ne e] at hq'
      exact h.below d q hq'
  cmd d q hq' := by
    by_cases e : d = c
    · rw [e] at hq'
      simp only [St.setCli, Function.update_self] at hq'
      exact hcmd q hq'
    · simp only [St.setCli, Function.update_of_ne e] at hq'
      exact h.cmd d q hq'
  nodup := h.nodup
  conn := h.conn
  gone d hd := by
    by_cases e : d = c
    · rw [e] at hd ⊢
      simp only [St.setCli, Function.update_self, hp]
      exact h.gone c hd
    · simp only [St.setCli, Function.update_of_ne e]
      exact h.gone d hd

/-- Another record for a client, with the same queue. -/
theorem Inv.setCli_same (h : Inv held s) (hp : cl.pendingMsgFd = (s.cli c).pendingMsgFd)
    (hq : cl.txQueue = (s.cli c).txQueue) (hcmd : ∀ q ∈ cl.cmdQueue, q ∈ (s.cli c).cmdQueue) :
    Inv held (s.setCli c cl) := by
  refine h.setCli hp (fun q _ => ?_) (fun q hq' => ?_) (fun q hq' => h.cmd c q (hcmd q hq'))
  · rw [queued_setCli_same hq]
  · rw [hq] at hq'
    exact h.below c q hq'

theorem Inv.setCmd (h : Inv held s) {cmds : List Ptr}
    (hcmd : ∀ q ∈ cmds, q < s.next ∧ (s.buf q).fd = none) :
    Inv held (s.setCli c { s.cli c with cmdQueue := cmds }) := by
  refine h.setCli rfl (fun q _ => ?_) (fun q hq => h.below c q hq) hcmd
  have hsame : (s.setCli c { s.cli c with cmdQueue := cmds }).queued q = s.queued q :=
    queued_setCli_same (by rfl) q
  rw [hsame]

/-- A buffer whose descriptor does not change; one with a descriptor may be held once
    more or once less. -/
theorem Inv.setBuf {held' : List Ptr} (h : Inv held s) (hb : b.fd = (s.buf p).fd)
    (hother : ∀ q, q ≠ p → held'.count q = held.count q)
    (hrefs : b.fd ≠ none → 0 < s.queued p + held'.count p ∧
      b.refcount = some (s.queued p + held'.count p)) : Inv held' (s.setBuf p b) where
  balanced := own_setBuf hb ▸ h.balanced
  refs q hq := by
    change 0 < s.queued q + _ ∧ _ = some (s.queued q + _)
    by_cases e : q = p
    · rw [e] at hq ⊢
      simp only [St.setBuf, Function.update_self] at hq ⊢
      exact hrefs hq
    · simp only [St.setBuf, Function.update_of_ne e] at hq ⊢
      rw [hother q e]
      exact h.refs q hq
  fresh q hq := by
    by_cases e : q = p
    · rw [e] at hq ⊢
      simp only [St.setBuf, Function.update_self, hb]
      exact h.fresh p hq
    · simp only [St.setBuf, Function.update_of_ne e]
      exact h.fresh q hq
  below := h.below
  cmd c q hq := by
    obtain ⟨hlt, hfd⟩ := h.cmd c q hq
    refine ⟨hlt, ?_⟩
    by_cases e : q = p
    · rw [e] at hfd ⊢
      simp only [St.setBuf, Function.update_self, hb, hfd]
    · simp only [St.setBuf, Function.update_of_ne e]
      exact hfd
  nodup := h.nodup
  conn := h.conn
  gone := h.gone

theorem Inv.setLog (h : Inv held s) {log : List Event}
    (hlog : Ledger.Balanced s.own s.nextFd log) : Inv held { s with log := log } :=
  ⟨hlog, h.refs, h.fresh, h.below, h.cmd, h.nodup, h.conn, h.gone⟩

theorem Inv.bump (h : Inv held s) : Inv held { s with next := s.next + 1 } where
  balanced := h.balanced
  refs := h.refs
  fresh p hp := h.fresh p (Nat.le_of_succ_le hp)
  below c p hp := (h.below c p hp).trans (Nat.lt_succ_self _)
  cmd c p hp := ⟨(h.cmd c p hp).1.trans (Nat.lt_succ_self _), (h.cmd c p hp).2⟩
  nodup := h.nodup
  conn c hc := (h.conn c hc).trans (Nat.lt_succ_self _)
  gone := h.gone

/-- A buffer without a descriptor may be held or not. -/
theorem Inv.hold {held' : List Ptr} (h : Inv held s) (ub : Ptr) (hub : (s.buf ub).fd = none)
    (hother : ∀ q, q ≠ ub → held'.count q = held.count q) : Inv held' s where
  balanced := h.balanced
  refs q hq := by
    have hne : q ≠ ub := by
      rintro rfl
      exact hq hub
    rw [hother q hne]
    exact h.refs q hq
  fresh := h.fresh
  below := h.below
  cmd := h.cmd
  nodup := h.nodup
  conn := h.conn
  gone := h.gone

theorem count_cons_other {q : Ptr} (hne : q ≠ ub) : (ub :: held).count q = held.count q :=
  List.count_cons_of_ne hne.symm

/-- The descriptor of a buffer is closed. -/
theorem Inv.closeBuf {held' : List Ptr} (h : Inv held s) (hb : b.fd = none)
    (hother : ∀ q, q ≠ ub → held'.count q = held.count q) :
    Inv held' ((s.close (s.buf ub).fd).setBuf ub b) := by
  cases hfd : (s.buf ub).fd with
  | none => exact h.setBuf (by rw [hb, hfd]) hother fun hne => absurd hb hne
  | some r =>
    have hown : ((s.close (some r)).setBuf ub b).own =
        Function.update s.own (.buffer ub) none := by
      funext o
      cases o with
      | client c => rfl
      | buffer q =>
        by_cases e : q = ub
        · rw [e, Function.update_self]
          simp only [St.own, St.setBuf, Function.update_self, hb]
        · rw [Function.update_of_ne (by rintro ⟨⟩; exact e rfl)]
          simp only [St.own, St.setBuf, Function.update_of_ne e]
          rfl
    have hold : ∀ q, q ≠ ub → ((s.close (some r)).setBuf ub b).buf q = s.buf q :=
      fun q hq => Function.update_of_ne hq _ _
    have hnew : (((s.close (some r)).setBuf ub b).buf ub).fd = none := by
      simp only [St.setBuf, Function.update_self, hb]
    refine ⟨?_, ?_, ?_, h.below, ?_, h.nodup, h.conn, h.gone⟩
    · rw [hown]
      exact h.balanced.release (show s.own (.buffer ub) = some r from hfd)
    · intro q hq
      have hne : q ≠ ub := by
        rintro rfl
        exact hq hnew
      rw [hold q hne] at hq ⊢
      rw [hother q hne]
      exact h.refs q hq
    · intro q hq
      by_cases e : q = ub
      · rw [e, hnew]
      · rw [hold q e]
        exact h.fresh q hq
    · intro c q hq
      obtain ⟨hlt, hnone⟩ := h.cmd c q hq
      refine ⟨hlt, ?_⟩
      rw [hold q]
      · exact hnone
      · rintro rfl
        rw [hfd] at hnone
        cases hnone

/-! ## Messages -/

theorem Inv.new (h : Inv held s) (len : Nat) (shared : Bool) :
    Inv held (ubusMsgNew len shared s) :=
  (h.setBuf (p := s.next) (b := { refcount := if shared then none else some 1, len := len })
    (h.fresh _ le_rfl).symm (fun _ _ => rfl) fun hne => absurd rfl hne).bump

theorem new_fd (s : St) (len : Nat) (shared : Bool) :
    ((ubusMsgNew len shared s).buf s.next).fd = none := by
  simp only [ubusMsgNew, St.setBuf, Function.update_self]

theorem Inv.free (h : Inv (ub :: held) s) : Inv held (ubusMsgFree ub s) := by
  have hother : ∀ q, q ≠ ub → held.count q = (ub :: held).count q :=
    fun q hq => (count_cons_other hq).symm
  unfold ubusMsgFree
  split
  · exact h.closeBuf rfl hother
  · exact h.closeBuf rfl hother
  · rename_i n hn href
    refine h.setBuf rfl hother fun hfd => ?_
    obtain ⟨-, hcount⟩ := h.refs ub hfd
    rw [href, List.count_cons_self, Option.some.injEq] at hcount
    have hne : n ≠ 1 := hn
    exact ⟨by omega, congrArg some (by omega)⟩

theorem free_fd (hub : (s.buf ub).fd = none) (p : Ptr) :
    ((ubusMsgFree ub s).buf p).fd = (s.buf p).fd := by
  have hset : ∀ (t : St) (b : Buf), t.buf = s.buf → b.fd = none →
      ((t.setBuf ub b).buf p).fd = (s.buf p).fd := by
    intro t b ht hb
    by_cases e : p = ub
    · rw [e]
      simp only [St.setBuf, Function.update_self, hb, hub]
    · simp only [St.setBuf, Function.update_of_ne e, ht]
  unfold ubusMsgFree
  split
  · rw [hub]
    exact hset _ _ rfl rfl
  · rw [hub]
    exact hset _ _ rfl rfl
  · exact hset _ _ rfl hub

theorem free_frame (ub : Ptr) (s : St) : (ubusMsgFree ub s).clients = s.clients ∧
    (ubusMsgFree ub s).next = s.next ∧ (ubusMsgFree ub s).cli = s.cli := by
  have hclose : ∀ fd, (s.close fd).clients = s.clients ∧ (s.close fd).next = s.next ∧
      (s.close fd).cli = s.cli := by
    rintro (_ | fd) <;> exact ⟨rfl, rfl, rfl⟩
  unfold ubusMsgFree
  split
  · exact hclose _
  · exact hclose _
  · exact ⟨rfl, rfl, rfl⟩

theorem Inv.writev (h : Inv held s) (ub : Ptr) (ofs : Nat) : Inv held (ubusMsgWritev ub ofs s) := by
  unfold ubusMsgWritev
  split
  · exact h
  · rename_i fd hfd
    split_ifs
    · exact h.setLog (h.balanced.use (show s.own (.buffer ub) = some fd from hfd))
    · exact h

theorem writev_frame (s : St) (ub : Ptr) (ofs : Nat) :
    (ubusMsgWritev ub ofs s).clients = s.clients ∧ (ubusMsgWritev ub ofs s).next = s.next ∧
      (ubusMsgWritev ub ofs s).cli = s.cli ∧ (ubusMsgWritev ub ofs s).buf = s.buf := by
  unfold ubusMsgWritev
  split
  · exact ⟨rfl, rfl, rfl, rfl⟩
  · split_ifs <;> exact ⟨rfl, rfl, rfl, rfl⟩

end

/-- The descriptors of the buffers there were, and the clients, are the same. -/
structure Same (s t : St) : Prop where
  clients : t.clients = s.clients
  next : s.next ≤ t.next
  fd : ∀ p < s.next, (t.buf p).fd = (s.buf p).fd

theorem Same.refl (s : St) : Same s s := ⟨rfl, le_rfl, fun _ _ => rfl⟩

theorem Same.trans {s t u : St} (h : Same s t) (h' : Same t u) : Same s u :=
  ⟨h'.clients.trans h.clients, h.next.trans h'.next,
    fun p hp => (h'.fd p (hp.trans_le h.next)).trans (h.fd p hp)⟩

section
variable {s : St} {held : List Ptr} {c ub p : Ptr} {cl : Cli}

theorem Inv.newFdNone (h : Inv held s) (len : Nat) (shared : Bool) :
    Inv held ((ubusMsgNew len shared s).setBuf s.next
      { (ubusMsgNew len shared s).buf s.next with fd := none }) := by
  refine (h.new len shared).setBuf (new_fd s len shared).symm (fun _ _ => rfl) fun hne => ?_
  exact absurd rfl hne

/-- What `ubus_msg_ref` returns is held. -/
theorem Inv.ref (h : Inv held s) (hub : ub < s.next) :
    Inv ((ubusMsgRef ub s).1 :: held) (ubusMsgRef ub s).2 ∧
      (ubusMsgRef ub s).1 < (ubusMsgRef ub s).2.next ∧ (ubusMsgRef ub s).2.cli = s.cli ∧
      Same s (ubusMsgRef ub s).2 ∧
      ((ubusMsgRef ub s).2.buf (ubusMsgRef ub s).1).fd = (s.buf ub).fd := by
  unfold ubusMsgRef
  split
  · rename_i href
    -- a buffer with a descriptor has a reference count
    have hfd : (s.buf ub).fd = none := by
      by_contra hne
      have hrefs := (h.refs ub hne).2
      rw [href] at hrefs
      cases hrefs
    dsimp only
    rw [hfd]
    refine ⟨(h.newFdNone _ _).hold s.next ?_ fun q hq => count_cons_other hq,
      Nat.lt_succ_self _, rfl, ⟨rfl, Nat.le_succ _, ?_⟩, ?_⟩
    · simp only [St.setBuf, Function.update_self]
    · intro q hq
      simp only [St.setBuf, ubusMsgNew, Function.update_of_ne hq.ne]
    · simp only [St.setBuf, Function.update_self]
  · rename_i n href
    refine ⟨h.setBuf rfl (fun q hq => count_cons_other hq) fun hne => ?_, hub, rfl,
      ⟨rfl, le_rfl, ?_⟩, ?_⟩
    · obtain ⟨-, hcount⟩ := h.refs ub hne
      rw [href, Option.some.injEq] at hcount
      rw [List.count_cons_self]
      exact ⟨by omega, congrArg some (by omega)⟩
    · intro q _
      by_cases e : q = ub
      · rw [e]
        simp only [St.setBuf, Function.update_self]
      · simp only [St.setBuf, Function.update_of_ne e]
    · simp only [St.setBuf, Function.update_self]

/-- What is held goes to the end of a transmit queue. -/
theorem Inv.push (h : Inv (ub :: held) s) (hc : c ∈ s.clients) (hub : ub < s.next)
    (hq : cl.txQueue = (s.cli c).txQueue ++ [ub]) (hcmd : cl.cmdQueue = (s.cli c).cmdQueue)
    (hp : cl.pendingMsgFd = (s.cli c).pendingMsgFd) : Inv held (s.setCli c cl) := by
  refine h.setCli hp (fun q _ => ?_) (fun q hq' => ?_) (fun q hq' => h.cmd c q (hcmd ▸ hq'))
  · have hsum := queued_setCli h.nodup hc cl q
    rw [hq, List.count_append] at hsum
    by_cases e : ub = q
    · rw [e, List.count_cons_self]
      rw [e, List.count_singleton_self] at hsum
      omega
    · rw [List.count_cons_of_ne e]
      have hnone : [ub].count q = 0 := List.count_eq_zero.2 (by simpa using Ne.symm e)
      omega
  · rw [hq] at hq'
    rcases List.mem_append.1 hq' with hq' | hq'
    · exact h.below c q hq'
    · rw [List.mem_singleton.1 hq']
      exact hub

/-- The head of a transmit queue is held. -/
theorem Inv.pop (h : Inv held s) (hc : c ∈ s.clients) {rest : List Ptr}
    (hq : (s.cli c).txQueue = ub :: rest) :
    Inv (ub :: held) (s.setCli c { s.cli c with txQueue := rest }) := by
  refine h.setCli rfl (fun q _ => ?_) (fun q hq' => h.below c q ?_) (fun q hq' => h.cmd c q hq')
  · have hsum := queued_setCli h.nodup hc { s.cli c with txQueue := rest } q
    rw [hq] at hsum
    by_cases e : ub = q
    · rw [e, List.count_cons_self] at hsum ⊢
      change _ = s.queued q + rest.count q at hsum
      omega
    · rw [List.count_cons_of_ne e] at hsum ⊢
      change _ = s.queued q + rest.count q at hsum
      omega
  · rw [hq]
    exact List.mem_cons_of_mem _ hq'

/-- A queue gets only the message that is sent. -/
def Gets (fd : Option Nat) (s t : St) : Prop :=
  ∀ c, ∀ p ∈ (t.cli c).txQueue, p ∈ (s.cli c).txQueue ∨ (t.buf p).fd = fd

theorem Inv.enqueue (h : Inv held s) (hc : c ∈ s.clients) (hub : ub < s.next) :
    Inv held (ubusMsgEnqueue c ub s) ∧ Same s (ubusMsgEnqueue c ub s) ∧
      Gets (s.buf ub).fd s (ubusMsgEnqueue c ub s) := by
  unfold ubusMsgEnqueue
  dsimp only
  split_ifs
  · exact ⟨h, Same.refl s, fun _ _ hp => Or.inl hp⟩
  · obtain ⟨hinv, hlt, hcli, hsame, hmsg⟩ := h.ref hub
    generalize ubusMsgRef ub s = r at *
    obtain ⟨msg, t⟩ := r
    have hc' : c ∈ t.clients := hsame.clients ▸ hc
    refine ⟨hinv.push hc' hlt ?_ ?_ ?_, ⟨hsame.clients, hsame.next, hsame.fd⟩, ?_⟩
    · rw [hcli]
    · rw [hcli]
    · rw [hcli]
    · intro d p hp
      by_cases e : d = c
      · rw [e] at hp ⊢
        simp only [St.setCli, Function.update_self] at hp
        refine (List.mem_append.1 hp).imp_right fun hp => ?_
        rw [List.mem_singleton.1 hp]
        exact hmsg
      · simp only [St.setCli, Function.update_of_ne e] at hp
        exact Or.inl ((congrFun hcli d) ▸ hp)

theorem Inv.send (h : Inv held s) (hc : c ∈ s.clients) (hub : ub < s.next) (a : Answer) :
    Inv held (ubusMsgSend c ub a s) ∧ Same s (ubusMsgSend c ub a s) ∧
      Gets (s.buf ub).fd s (ubusMsgSend c ub a s) := by
  unfold ubusMsgSend
  split_ifs
  · dsimp only
    obtain ⟨hcl, hnext, hcli, hbuf⟩ := writev_frame s ub 0
    have hw := h.writev ub 0
    generalize ubusMsgWritev ub 0 s = t at *
    have hsame : Same s t := ⟨hcl, hnext.ge, fun p _ => by rw [hbuf]⟩
    split_ifs
    · exact ⟨hw, hsame, fun d p hp => Or.inl (hcli ▸ hp)⟩
    · have hq : ∀ x y, Inv held (t.setCli c { s.cli c with txqOfs := x, txqLen := y }) := by
        intro x y
        rw [← hcli]
        exact hw.setCli_same rfl rfl fun _ hq => hq
      obtain ⟨h1, h2, h3⟩ := (hq (u32 (min a.count ((s.buf ub).len + sizeofHdr) : Nat))
        (u32 (-(min a.count ((s.buf ub).len + sizeofHdr) : Nat)))).enqueue (c := c)
        (hcl ▸ hc) (hnext ▸ hub : ub < t.next)
      refine ⟨h1, hsame.trans ⟨h2.clients, h2.next, h2.fd⟩, fun d p hp => ?_⟩
      rcases h3 d p hp with hp' | hp'
      · left
        by_cases e : d = c
        · rw [e] at hp' ⊢
          simpa only [St.setCli, Function.update_self] using hp'
        · simpa only [St.setCli, Function.update_of_ne e, hcli] using hp'
      · right
        rw [hp', ← hbuf]
        rfl
  · exact h.enqueue hc hub

/-- A queue gets no descriptor from a message of ubusd itself. -/
theorem Inv.sendOwn (h : Inv held s) (shared : Bool) {o : Out} (hc : o.cl ∈ s.clients) :
    Inv held (sendOwn shared o s) ∧ Same s (sendOwn shared o s) ∧
      Gets none s (sendOwn shared o s) := by
  unfold Fd.sendOwn
  have hfd := new_fd s o.len shared
  obtain ⟨h1, h2, h3⟩ := (h.new o.len shared).send hc (Nat.lt_succ_self s.next) o.a
  rw [hfd] at h3
  have hfd' : ((ubusMsgSend o.cl s.next o.a (ubusMsgNew o.len shared s)).buf s.next).fd = none :=
    (h2.fd _ (Nat.lt_succ_self _)).trans hfd
  obtain ⟨hcl, hnext, hcli⟩ := free_frame s.next
    (ubusMsgSend o.cl s.next o.a (ubusMsgNew o.len shared s))
  refine ⟨(h1.hold _ hfd' fun q hq => count_cons_other hq).free, ⟨?_, ?_, fun p hp => ?_⟩,
    fun d p hp => ?_⟩
  · rw [hcl, h2.clients]
    rfl
  · rw [hnext]
    exact (Nat.le_succ _).trans h2.next
  · rw [free_fd hfd', h2.fd p (hp.trans (Nat.lt_succ_self _))]
    simp only [ubusMsgNew, St.setBuf, Function.update_of_ne hp.ne]
  · rw [hcli] at hp
    rw [free_fd hfd']
    exact h3 d p hp

theorem reply_of_fd_none (hfd : (s.buf ub).fd = none) (o : Out) :
    ubusProtoSendMsgFromBlob ub o s = sendOwn true o s := by
  have hset : (ubusMsgNew o.len true s).setBuf s.next
      { (ubusMsgNew o.len true s).buf s.next with fd := none } = ubusMsgNew o.len true s := by
    simp [ubusMsgNew, St.setBuf]
  unfold ubusProtoSendMsgFromBlob Fd.sendOwn
  dsimp only
  rw [hfd, hset]

end

/-! ## Handlers -/

section
variable {s : St} {held : List Ptr} {c ub : Ptr}

theorem Inv.reach (h : Inv held s) {o : Out} {f : St → St}
    (hf : o.cl ∈ s.clients → Inv held (f s) ∧ Same s (f s)) :
    Inv held (o.reach s f) ∧ Same s (o.reach s f) := by
  unfold Out.reach
  split_ifs with hc
  · exact hf hc
  · exact ⟨h, Same.refl s⟩

theorem Inv.exec (h : Inv held s) (hub : ub < s.next) (x : Send)
    (hfd : x.isReply = true → (s.buf ub).fd = none) :
    Inv held (x.exec ub s) ∧ Same s (x.exec ub s) := by
  cases x with
  | pass o =>
    refine h.reach fun hc => ?_
    obtain ⟨h1, h2, -⟩ := h.send hc hub o.a
    exact ⟨h1, h2⟩
  | reply o =>
    refine h.reach fun hc => ?_
    rw [reply_of_fd_none (hfd rfl)]
    obtain ⟨h1, h2, -⟩ := h.sendOwn true hc
    exact ⟨h1, h2⟩
  | own shared o =>
    refine h.reach fun hc => ?_
    obtain ⟨h1, h2, -⟩ := h.sendOwn shared hc
    exact ⟨h1, h2⟩

theorem Inv.sends : ∀ (xs : List Send) {s : St}, Inv held s → ub < s.next →
    ((∃ x ∈ xs, x.isReply = true) → (s.buf ub).fd = none) →
    Inv held (xs.foldl (Send.exec ub) s) ∧ Same s (xs.foldl (Send.exec ub) s)
  | [], s, h, _, _ => ⟨h, Same.refl s⟩
  | x :: xs, s, h, hub, hfd => by
    obtain ⟨h1, h2⟩ := h.exec hub x fun hx => hfd ⟨x, List.mem_cons_self, hx⟩
    obtain ⟨h3, h4⟩ := Inv.sends xs h1 (hub.trans_le h2.next) (by
      rintro ⟨y, hy, hr⟩
      rw [h2.fd ub hub]
      exact hfd ⟨y, List.mem_cons_of_mem _ hy, hr⟩)
    exact ⟨h3, h2.trans h4⟩

theorem handles_status {sends : List Send} {ret : Ret} (h : handles c .status sends ret = true) :
    ¬ ∃ x ∈ sends.filter fun x => !x.isOwn, x.isReply = true := by
  unfold handles at h
  generalize (sends.filter fun x => !x.isOwn) = xs at h ⊢
  rintro ⟨x, hx, hr⟩
  cases x with
  | pass o | own shared o => cases hr
  | reply o =>
    match xs, ret with
    | [], _ => exact absurd hx List.not_mem_nil
    | [.pass _], .done => simp at hx
    | [.reply _], _ | [.own _ _], _ | [.pass _], .queued | [.pass _], .status _ _
    | _ :: _ :: _, _ => simp at h

theorem handles_queued {type : MsgType} {sends : List Send}
    (h : handles c type sends .queued = true) : type = .lookup := by
  unfold handles at h
  generalize (sends.filter fun x => !x.isOwn) = xs at h
  cases type with
  | lookup => rfl
  | ping | addObject | removeObject | invoke | status | data | subscribe | unsubscribe | notify
  | other => simp at h

/-- The handlers of responses do not answer. -/
theorem Handled.noReply (m : Handled c) (ht : m.type = .status) :
    ¬ ∃ x ∈ m.sends, x.isReply = true := by
  rintro ⟨x, hx, hr⟩
  refine handles_status (ht ▸ m.ok) ⟨x, List.mem_filter.2 ⟨hx, ?_⟩, hr⟩
  cases x with
  | pass o | reply o => rfl
  | own shared o => cases hr

/-- The message that is handled is freed or queued. -/
theorem Inv.receiveMessage (h : Inv [ub] s) (hc : c ∈ s.clients) (hub : ub < s.next)
    (m : Handled c)
    (hok : m.type = .invoke → (s.buf ub).fd ≠ none → ∀ x ∈ m.sends, x.isReply = false) :
    Inv [] (ubusdProtoReceiveMessage c ub m s) := by
  unfold ubusdProtoReceiveMessage
  dsimp only
  -- a message that is answered or queued has no descriptor any more
  obtain ⟨t, ht, hinv, hcl, hnext, hreply, hqueued⟩ : ∃ t,
      (if m.type ≠ .status ∧ m.type ≠ .invoke then ubusMsgCloseFd ub s else s) = t ∧
        Inv [ub] t ∧ t.clients = s.clients ∧ t.next = s.next ∧
        ((∃ x ∈ m.sends, x.isReply = true) → (t.buf ub).fd = none) ∧
        (m.type = .lookup → (t.buf ub).fd = none) := by
    refine ⟨_, rfl, ?_⟩
    split_ifs with htype
    · have hfd : ((ubusMsgCloseFd ub s).buf ub).fd = none := by
        simp only [ubusMsgCloseFd, St.setBuf, Function.update_self]
      have hframe : (ubusMsgCloseFd ub s).clients = s.clients ∧
          (ubusMsgCloseFd ub s).next = s.next := by
        unfold ubusMsgCloseFd
        cases (s.buf ub).fd <;> exact ⟨rfl, rfl⟩
      exact ⟨h.closeBuf rfl fun _ _ => rfl, hframe.1, hframe.2, fun _ => hfd, fun _ => hfd⟩
    · refine ⟨h, rfl, rfl, ?_, ?_⟩
      · rintro ⟨x, hx, hr⟩
        by_contra hne
        by_cases hs : m.type = .status
        · exact m.noReply hs ⟨x, hx, hr⟩
        · have hi : m.type = .invoke := by
            by_contra hi
            exact htype ⟨hs, hi⟩
          rw [hok hi hne x hx] at hr
          cases hr
      · intro hl
        exact absurd ⟨by rw [hl]; decide, by rw [hl]; decide⟩ htype
  rw [ht]
  obtain ⟨h1, h2⟩ := Inv.sends m.sends hinv (hnext ▸ hub) hreply
  have hub₁ : ub < t.next := hnext ▸ hub
  have hub' := hub₁.trans_le h2.next
  cases hret : m.ret with
  | queued =>
    have hfd := (h2.fd ub hub₁).trans (hqueued (handles_queued (hret ▸ m.ok)))
    refine (h1.hold _ hfd fun q hq => (count_cons_other hq).symm).setCmd fun q hq => ?_
    rcases List.mem_append.1 hq with hq | hq
    · exact h1.cmd c q hq
    · rw [List.mem_singleton.1 hq]
      exact ⟨hub', hfd⟩
  | done => exact h1.free
  | status len a =>
    refine (h1.free.sendOwn true ?_).1
    rw [(free_frame _ _).1, h2.clients, hcl]
    exact hc

/-! ## Clients -/

theorem Inv.listFree (h : Inv held s) (hc : c ∈ s.clients) :
    Inv held (ubusMsgListFree c s) ∧ (ubusMsgListFree c s).clients = s.clients ∧
      ((ubusMsgListFree c s).cli c).txQueue = (s.cli c).txQueue.tail := by
  unfold ubusMsgListFree
  split
  · rename_i hq
    exact ⟨h, rfl, by rw [hq]; rfl⟩
  · rename_i p rest hq
    obtain ⟨hcl, -, hcli⟩ := free_frame p (s.setCli c { s.cli c with txQueue := rest })
    refine ⟨(h.pop hc hq).free, hcl, ?_⟩
    rw [hcli, hq]
    simp only [St.setCli, Function.update_self, List.tail_cons]

theorem Inv.freeQueue : ∀ (n : Nat) {s : St}, Inv held s → c ∈ s.clients →
    (s.cli c).txQueue.length ≤ n →
    Inv held (freeQueue c n s) ∧ (freeQueue c n s).clients = s.clients ∧
      ((freeQueue c n s).cli c).txQueue = []
  | 0, s, h, _, hn => ⟨h, rfl, List.length_eq_zero_iff.1 (Nat.le_zero.1 hn)⟩
  | n + 1, s, h, hc, hn => by
    obtain ⟨h1, h2, h3⟩ := h.listFree hc
    obtain ⟨h4, h5, h6⟩ := Inv.freeQueue n h1 (h2 ▸ hc) (by rw [h3, List.length_tail]; omega)
    exact ⟨h4, h5.trans h2, h6⟩

/-- The queue of `c` has no descriptor. -/
def Clean (c : Ptr) (s : St) : Prop := ∀ p ∈ (s.cli c).txQueue, (s.buf p).fd = none

theorem Inv.owns : ∀ (xs : List (Bool × Out)) {s : St}, Inv held s → Clean c s →
    Inv held (xs.foldl (fun s x => Send.exec 0 s (.own x.1 x.2)) s) ∧
      (xs.foldl (fun s x => Send.exec 0 s (.own x.1 x.2)) s).clients = s.clients ∧
      Clean c (xs.foldl (fun s x => Send.exec 0 s (.own x.1 x.2)) s)
  | [], s, h, hclean => ⟨h, rfl, hclean⟩
  | x :: xs, s, h, hclean => by
    obtain ⟨h1, h2, h3⟩ : Inv held (Send.exec 0 s (.own x.1 x.2)) ∧
        (Send.exec 0 s (.own x.1 x.2)).clients = s.clients ∧
        Clean c (Send.exec 0 s (.own x.1 x.2)) := by
      simp only [Send.exec, Out.reach]
      split_ifs with hc
      · obtain ⟨h1, h2, h3⟩ := h.sendOwn x.1 hc
        refine ⟨h1, h2.clients, fun p hp => ?_⟩
        rcases h3 c p hp with hp | hp
        · rw [h2.fd p (h.below c p hp)]
          exact hclean p hp
        · exact hp
      · exact ⟨h, rfl, hclean⟩
    obtain ⟨h4, h5, h6⟩ := Inv.owns xs h1 h3
    exact ⟨h4, h5.trans h2, h6⟩

/-- A client whose queue has no descriptor is gone. -/
theorem Inv.gone_client (h : Inv held s) (hc : c ∈ s.clients) (hclean : Clean c s) :
    Inv held { (s.close (s.cli c).pendingMsgFd).setCli c {} with
      clients := s.clients.erase c } := by
  set t := { (s.close (s.cli c).pendingMsgFd).setCli c {} with clients := s.clients.erase c } with ht
  have hother : ∀ d, d ≠ c → t.cli d = s.cli d := by
    intro d hd
    rw [ht]
    cases (s.cli c).pendingMsgFd <;> exact Function.update_of_ne hd _ _
  have hself : t.cli c = {} := Function.update_self _ _ _
  have hbuf : t.buf = s.buf := by
    rw [ht]
    cases (s.cli c).pendingMsgFd <;> rfl
  have hnext : t.next = s.next := by
    rw [ht]
    cases (s.cli c).pendingMsgFd <;> rfl
  have hown : t.own = Function.update s.own (.client c) none := by
    funext o
    cases o with
    | buffer p =>
      rw [Function.update_of_ne (by rintro ⟨⟩)]
      simp only [St.own, hbuf]
    | client d =>
      by_cases e : d = c
      · rw [e, Function.update_self]
        simp only [St.own, hself]
      · rw [Function.update_of_ne (by rintro ⟨⟩; exact e rfl)]
        simp only [St.own, hother d e]
  refine ⟨?_, ?_, ?_, ?_, ?_, h.nodup.erase c, ?_, ?_⟩
  · rw [hown]
    cases hp : (s.cli c).pendingMsgFd with
    | none =>
      have hsame : Function.update s.own (.client c) none = s.own :=
        Function.update_eq_self_iff.2 hp.symm
      rw [hsame, ht, hp]
      exact h.balanced
    | some r =>
      rw [ht, hp]
      exact h.balanced.release (show s.own (.client c) = some r from hp)
  · intro p hp
    rw [hbuf] at hp ⊢
    have hqueued : t.queued p = s.queued p := by
      have hsum := List.sum_map_erase (fun d => (s.cli d).txQueue.count p) hc
      have hnone : (s.cli c).txQueue.count p = 0 :=
        List.count_eq_zero.2 fun hmem => hp (hclean p hmem)
      rw [hnone, Nat.zero_add] at hsum
      unfold St.queued
      rw [← hsum]
      refine congrArg List.sum (List.map_congr_left fun d hd => ?_)
      rw [hother d (h.nodup.mem_erase_iff.1 hd).1]
    rw [hqueued]
    exact h.refs p hp
  · rw [hbuf, hnext]
    exact h.fresh
  · intro d p hp
    rw [hnext]
    by_cases e : d = c
    · rw [e, hself] at hp
      exact absurd hp List.not_mem_nil
    · rw [hother d e] at hp
      exact h.below d p hp
  · intro d p hp
    rw [hbuf, hnext]
    by_cases e : d = c
    · rw [e, hself] at hp
      exact absurd hp List.not_mem_nil
    · rw [hother d e] at hp
      exact h.cmd d p hp
  · intro d hd
    rw [hnext]
    exact h.conn d (List.mem_of_mem_erase hd)
  · intro d hd
    by_cases e : d = c
    · rw [e, hself]
    · rw [hother d e]
      exact h.gone d fun hmem => hd ((List.mem_erase_of_ne e).2 hmem)

theorem Inv.disconnect (h : Inv held s) (hc : c ∈ s.clients) (owns : List (Bool × Out)) :
    Inv held (handleClientDisconnect c owns s) := by
  obtain ⟨h1, h2, h3⟩ := h.freeQueue (s.cli c).txQueue.length hc le_rfl
  obtain ⟨h4, h5, h6⟩ := Inv.owns owns h1 (c := c) fun p hp => by
    rw [h3] at hp
    exact absurd hp List.not_mem_nil
  exact h4.gone_client (by rw [h5, h2]; exact hc) h6

theorem Inv.txMore (owns : List (Bool × Out)) : ∀ (as : List Answer) {s : St}, Inv held s →
    c ∈ s.clients → Inv held (txMore c owns as s)
  | [], _, h, _ => h
  | a :: as, s, h, hc => by
    rw [Fd.txMore]
    split
    · exact h
    · rename_i p rest hq
      dsimp only
      have hw := h.writev p (s.cli c).txqOfs
      obtain ⟨hcl, -, hcli, -⟩ := writev_frame s p (s.cli c).txqOfs
      obtain ⟨t, ht⟩ : ∃ t, t = ubusMsgWritev p (s.cli c).txqOfs s := ⟨_, rfl⟩
      rw [← ht] at hw hcl hcli ⊢
      rw [← hcli]
      have hc' : c ∈ t.clients := hcl ▸ hc
      cases a with
      | eagain => exact hw
      | error => exact hw.disconnect hc' owns
      | wrote n =>
        dsimp only
        split_ifs
        · exact hw.setCli_same rfl rfl fun _ hq => hq
        · have hset : ∀ x, Inv held (t.setCli c { t.cli c with txqOfs := 0, txqLen := x }) :=
            fun x => hw.setCli_same rfl rfl fun _ hq => hq
          obtain ⟨h1, h2, -⟩ := (hset (u32 _)).listFree hc'
          exact Inv.txMore owns as h1 (h2 ▸ hc')

theorem Inv.process : ∀ (cmds : List { m : Handled c // m.type = .lookup }) {s : St},
    Inv held s → c ∈ s.clients → Inv held (ubusClientCmdQueueProcess c cmds s)
  | [], _, h, _ => h
  | m :: cmds, s, h, hc => by
    rw [ubusClientCmdQueueProcess]
    split
    · exact h
    · rename_i p rest hq
      obtain ⟨hp, hfd⟩ := h.cmd c p (by rw [hq]; exact List.mem_cons_self)
      obtain ⟨h1, h2⟩ := Inv.sends m.1.sends h hp fun _ => hfd
      dsimp only
      split
      · exact h1
      · exact h1
      · obtain ⟨h3, h4, -⟩ := h1.sendOwn true (o := ⟨c, _, _⟩) (h2.clients ▸ hc)
        have hsame := h2.trans h4
        have hcmd : ∀ q ∈ (s.cli c).cmdQueue, q < _ ∧ _ = none := fun q hq' =>
          ⟨(h.cmd c q hq').1.trans_le hsame.next,
            (hsame.fd q (h.cmd c q hq').1).trans (h.cmd c q hq').2⟩
        have h5 := h3.setCmd (c := c) fun q hq' => hcmd q (hq ▸ List.mem_cons_of_mem _ hq')
        refine Inv.process cmds (h5.hold p ?_ fun q hq' => count_cons_other hq').free ?_
        · exact (hsame.fd p hp).trans hfd
        · rw [(free_frame _ _).1]
          exact hsame.clients ▸ hc

/-! ## Runs -/

/-- A complete message takes the descriptor that came with it. -/
theorem Inv.accept (h : Inv [] s) (len : Nat) :
    Inv [s.next] (((ubusMsgNew len false s).setBuf s.next
      { (ubusMsgNew len false s).buf s.next with fd := (s.cli c).pendingMsgFd }).setCli c
        { s.cli c with pendingMsgFd := none }) := by
  set t := ((ubusMsgNew len false s).setBuf s.next
    { (ubusMsgNew len false s).buf s.next with fd := (s.cli c).pendingMsgFd }).setCli c
      { s.cli c with pendingMsgFd := none } with ht
  have hnew : t.buf s.next = { refcount := some 1, len := len, fd := (s.cli c).pendingMsgFd } := by
    simp only [ht, St.setCli, St.setBuf, ubusMsgNew, Function.update_self]
    rfl
  have hold : ∀ p, p ≠ s.next → t.buf p = s.buf p := by
    intro p hp
    simp only [ht, St.setCli, St.setBuf, ubusMsgNew, Function.update_of_ne hp]
  have hself : t.cli c = { s.cli c with pendingMsgFd := none } := Function.update_self _ _ _
  have hother : ∀ d, d ≠ c → t.cli d = s.cli d := fun d hd => Function.update_of_ne hd _ _
  have hqueue : ∀ d, (t.cli d).txQueue = (s.cli d).txQueue := by
    intro d
    by_cases e : d = c
    · rw [e, hself]
    · rw [hother d e]
  have hqueued : ∀ p, t.queued p = s.queued p := by
    intro p
    refine congrArg List.sum (List.map_congr_left fun d _ => ?_)
    rw [hqueue]
  have hown : t.own = Function.update (Function.update s.own (.client c) none) (.buffer s.next)
      (s.own (.client c)) := by
    funext o
    cases o with
    | buffer p =>
      by_cases e : p = s.next
      · rw [e, Function.update_self]
        simp only [St.own, hnew]
      · rw [Function.update_of_ne (by rintro ⟨⟩; exact e rfl), Function.update_of_ne (by rintro ⟨⟩)]
        simp only [St.own, hold p e]
    | client d =>
      rw [Function.update_of_ne (by rintro ⟨⟩)]
      by_cases e : d = c
      · rw [e, Function.update_self]
        simp only [St.own, hself]
      · rw [Function.update_of_ne (by rintro ⟨⟩; exact e rfl)]
        simp only [St.own, hother d e]
  refine ⟨?_, ?_, ?_, ?_, ?_, h.nodup, ?_, ?_⟩
  · rw [hown]
    exact h.balanced.move (show s.own (.buffer s.next) = none from h.fresh _ le_rfl) (by rintro ⟨⟩)
  · intro p hp
    rw [hqueued]
    by_cases e : p = s.next
    · rw [e, hnew, List.count_singleton_self, queued_eq_zero fun d hd => ?_]
      · exact ⟨Nat.one_pos, rfl⟩
      · exact absurd (h.below d _ hd) (Nat.lt_irrefl _)
    · rw [hold p e] at hp ⊢
      rw [count_cons_other e]
      exact h.refs p hp
  · intro p hp
    have hp' : s.next < p := hp
    rw [hold p hp'.ne']
    exact h.fresh p hp'.le
  · intro d p hp
    rw [hqueue] at hp
    exact (h.below d p hp).trans (Nat.lt_succ_self _)
  · intro d p hp
    have hp' : p ∈ (s.cli d).cmdQueue := by
      by_cases e : d = c
      · rw [e, hself] at hp
        rw [e]
        exact hp
      · rwa [hother d e] at hp
    obtain ⟨hlt, hfd⟩ := h.cmd d p hp'
    rw [hold p hlt.ne]
    exact ⟨hlt.trans (Nat.lt_succ_self _), hfd⟩
  · exact fun d hd => (h.conn d hd).trans (Nat.lt_succ_self _)
  · intro d hd
    by_cases e : d = c
    · rw [e, hself]
    · rw [hother d e]
      exact h.gone d hd

theorem Inv.connect (h : Inv [] s) :
    Inv [] { s.setCli s.next {} with clients := s.next :: s.clients, next := s.next + 1 } := by
  set t := { s.setCli s.next {} with clients := s.next :: s.clients, next := s.next + 1 } with ht
  have hself : t.cli s.next = {} := Function.update_self _ _ _
  have hother : ∀ d, d ≠ s.next → t.cli d = s.cli d := fun d hd => Function.update_of_ne hd _ _
  have hnew : s.next ∉ s.clients := fun hmem => Nat.lt_irrefl _ (h.conn _ hmem)
  have hown : t.own = s.own := by
    funext o
    cases o with
    | buffer p => rfl
    | client d =>
      by_cases e : d = s.next
      · rw [e]
        simp only [St.own, hself, h.gone _ hnew]
      · simp only [St.own, hother d e]
  refine ⟨?_, ?_, ?_, ?_, ?_, List.nodup_cons.2 ⟨hnew, h.nodup⟩, ?_, ?_⟩
  · rw [hown]
    exact h.balanced
  · intro p hp
    have hqueued : t.queued p = s.queued p := by
      change ((t.cli s.next).txQueue.count p) + _ = _
      rw [hself, List.count_nil, Nat.zero_add]
      refine congrArg List.sum (List.map_congr_left fun d hd => ?_)
      rw [hother d (by rintro rfl; exact hnew hd)]
    rw [hqueued]
    exact h.refs p hp
  · exact fun p hp => h.fresh p (Nat.le_of_succ_le hp)
  · intro d p hp
    by_cases e : d = s.next
    · rw [e, hself] at hp
      exact absurd hp List.not_mem_nil
    · rw [hother d e] at hp
      exact (h.below d p hp).trans (Nat.lt_succ_self _)
  · intro d p hp
    by_cases e : d = s.next
    · rw [e, hself] at hp
      exact absurd hp List.not_mem_nil
    · rw [hother d e] at hp
      exact ⟨(h.cmd d p hp).1.trans (Nat.lt_succ_self _), (h.cmd d p hp).2⟩
  · intro d hd
    rcases List.mem_cons.1 hd with rfl | hd
    · exact Nat.lt_succ_self _
    · exact (h.conn d hd).trans (Nat.lt_succ_self _)
  · intro d hd
    rw [hother d (by rintro rfl; exact hd List.mem_cons_self)]
    exact h.gone d fun hmem => hd (List.mem_cons_of_mem _ hmem)

theorem Inv.recvFd (h : Inv [] s) (hc : c ∈ s.clients) (hp : (s.cli c).pendingMsgFd = none) :
    Inv [] { s.setCli c { s.cli c with pendingMsgFd := some s.nextFd } with
      nextFd := s.nextFd + 1, log := s.log ++ [Event.recv s.nextFd] } := by
  set t := { s.setCli c { s.cli c with pendingMsgFd := some s.nextFd } with
    nextFd := s.nextFd + 1, log := s.log ++ [Event.recv s.nextFd] } with ht
  have hself : t.cli c = { s.cli c with pendingMsgFd := some s.nextFd } :=
    Function.update_self _ _ _
  have hother : ∀ d, d ≠ c → t.cli d = s.cli d := fun d hd => Function.update_of_ne hd _ _
  have hqueue : ∀ d, (t.cli d).txQueue = (s.cli d).txQueue ∧
      (t.cli d).cmdQueue = (s.cli d).cmdQueue := by
    intro d
    by_cases e : d = c
    · rw [e, hself]
      exact ⟨rfl, rfl⟩
    · rw [hother d e]
      exact ⟨rfl, rfl⟩
  have hown : t.own = Function.update s.own (.client c) (some s.nextFd) := by
    funext o
    cases o with
    | buffer p =>
      rw [Function.update_of_ne (by rintro ⟨⟩)]
      rfl
    | client d =>
      by_cases e : d = c
      · rw [e, Function.update_self]
        simp only [St.own, hself]
      · rw [Function.update_of_ne (by rintro ⟨⟩; exact e rfl)]
        simp only [St.own, hother d e]
  refine ⟨?_, ?_, h.fresh, ?_, ?_, h.nodup, h.conn, ?_⟩
  · rw [hown]
    exact h.balanced.recv hp
  · intro p hfd
    have hqueued : t.queued p = s.queued p := by
      refine congrArg List.sum (List.map_congr_left fun d _ => ?_)
      rw [(hqueue d).1]
    rw [hqueued]
    exact h.refs p hfd
  · intro d p hp
    rw [(hqueue d).1] at hp
    exact h.below d p hp
  · intro d p hp
    rw [(hqueue d).2] at hp
    exact h.cmd d p hp
  · intro d hd
    rw [hother d (by rintro rfl; exact hd hc)]
    exact h.gone d hd

end

/-- `ubus_proto_send_msg_from_blob` is not called for an invocation that came with a
    descriptor: it is rejected, or an object of ubusd takes it without an answer. -/
def NotAnswered (s : St) : Step → Prop
  | .message c _ m => m.type = .invoke → (s.cli c).pendingMsgFd ≠ none →
      ∀ x ∈ m.sends, x.isReply = false
  | _ => True

theorem Inv.step {s : St} {a : Step} (hok : NotAnswered s a) (h : Inv [] s) :
    Inv [] (step s a) := by
  cases a with
  | connect len a => exact (h.connect.sendOwn true List.mem_cons_self).1
  | poll c owns as =>
    rw [Fd.step]
    split_ifs with hc
    · exact h.txMore owns as hc
    · exact h
  | process c cmds =>
    rw [Fd.step]
    split_ifs with hc
    · exact h.process cmds hc.1
    · exact h
  | recvFd c =>
    rw [Fd.step]
    split_ifs with hc
    · exact h.recvFd hc.1 hc.2
    · exact h
  | message c len m =>
    rw [Fd.step]
    split_ifs with hc
    · refine (h.accept len).receiveMessage hc (Nat.lt_succ_self _) m fun ht hne => hok ht ?_
      simpa only [St.setCli, St.setBuf, ubusMsgNew, Function.update_self] using hne
    · exact h
  | disconnect c owns =>
    rw [Fd.step]
    split_ifs with hc
    · exact h.disconnect hc owns
    · exact h

/-- A received descriptor that is not closed yet: its message is not complete, or on
    a transmit queue. -/
def St.Pending (s : St) (fd : Nat) : Prop :=
  ∃ c ∈ s.clients, (s.cli c).pendingMsgFd = some fd ∨ ∃ p ∈ (s.cli c).txQueue, (s.buf p).fd = some fd

/-- Each received descriptor was closed once or is pending, and none was passed on
    after it was closed. -/
def St.ClosedOnce (s : St) : Prop :=
  Ledger.Sound s.log ∧
    ∀ fd, Event.recv fd ∈ s.log → s.log.count (.release fd) = 1 ∨
      s.log.count (.release fd) = 0 ∧ s.Pending fd

theorem Inv.closedOnce {s : St} (h : Inv [] s) : s.ClosedOnce := by
  refine ⟨h.balanced.sound, fun fd hfd => ?_⟩
  refine (h.balanced.released fd ((h.balanced.received fd).1 hfd)).symm.imp_right ?_
  rintro ⟨o, ho⟩
  refine ⟨(h.balanced.held o fd ho).2, ?_⟩
  cases o with
  | client c =>
    refine ⟨c, ?_, Or.inl ho⟩
    by_contra hc
    have hnone : s.own (.client c) = none := h.gone c hc
    rw [ho] at hnone
    cases hnone
  | buffer p =>
    have hp : (s.buf p).fd = some fd := ho
    obtain ⟨hpos, -⟩ := h.refs p (by rw [hp]; exact Option.some_ne_none fd)
    rw [List.count_nil, Nat.add_zero] at hpos
    obtain ⟨c, hc, hmem⟩ := queued_pos hpos
    exact ⟨c, hc, Or.inr ⟨p, hmem, hp⟩⟩

/-- **Ownership of descriptors.** In a run where no invocation with a descriptor is answered or
    forwarded, each received descriptor is closed once, or still pending, and no message passes it
    on after it was closed; when no client is left, all are closed. -/
theorem descriptors_closed_once (as : List Step) (h : Run.Admits step NotAnswered {} as) :
    (Run.run step {} as).ClosedOnce ∧
      ((Run.run step {} as).clients = [] →
        ∀ fd, Event.recv fd ∈ (Run.run step {} as).log →
          (Run.run step {} as).log.count (.release fd) = 1) := by
  have hinv : Inv [] (Run.run step {} as) :=
    h.invariant (fun _ _ hok hi => Inv.step hok hi) Inv.init
  refine ⟨hinv.closedOnce, fun hnil fd hfd => (hinv.closedOnce.2 fd hfd).resolve_right ?_⟩
  rintro ⟨-, c, hc, -⟩
  rw [hnil] at hc
  exact absurd hc List.not_mem_nil

/-- Two clients connect, the first at 0, the second at 2; the first sends an
    invocation with a descriptor, which is forwarded to the second. -/
def forwarded (a : Answer) : List Step :=
  [.connect 4 (.wrote 12), .connect 4 (.wrote 12), .recvFd 0,
    .message 0 16 ⟨.invoke, [.reply ⟨2, 24, a⟩], .done, rfl⟩]

/-- The descriptor is closed twice; when the socket of the receiver is blocked, it is
    passed on afterwards. -/
theorem forwarded_closed_twice :
    ¬ (Run.run step {} (forwarded (.wrote 32))).ClosedOnce ∧
      ¬ Ledger.Sound (Run.run step {} (forwarded .eagain ++ [.poll 2 [] [.wrote 32]])).log := by
  have hlog : (Run.run step {} (forwarded (.wrote 32))).log =
      [.recv 0, .use 0, .release 0, .release 0] := by decide +kernel
  have hblocked : (Run.run step {} (forwarded .eagain ++ [.poll 2 [] [.wrote 32]])).log =
      [.recv 0, .use 0, .release 0, .release 0, .use 0, .release 0] := by decide +kernel
  refine ⟨fun h => ?_, fun h => ?_⟩
  · have hfd := h.2 0 (by rw [hlog]; exact List.mem_cons_self)
    rw [hlog] at hfd
    rcases hfd with hfd | ⟨hfd, -⟩
    · exact absurd hfd (by decide)
    · exact absurd hfd (by decide)
  · rw [hblocked] at h
    exact h [.recv 0, .use 0, .release 0, .release 0] [.release 0] 0 rfl (by decide)

/-- A response with a descriptor is passed on to a client whose socket is blocked;
    then both disconnect. -/
def passedOn : List Step :=
  [.connect 4 (.wrote 12), .connect 4 (.wrote 12), .recvFd 0,
    .message 0 16 ⟨.status, [.pass ⟨2, 16, .eagain⟩], .done, rfl⟩,
    .disconnect 0 [], .poll 2 [] [.wrote 24], .disconnect 2 []]

theorem descriptors_closed_once_passedOn :
    (Run.run step {} passedOn).log.count (.release 0) = 1 ∧
      (Run.run step {} passedOn).ClosedOnce := by
  have hadmits : Run.Admits step NotAnswered {} passedOn := by
    simp [Run.Admits, passedOn, NotAnswered]
  have h := descriptors_closed_once passedOn hadmits
  exact ⟨h.2 (by decide +kernel) 0 (by decide +kernel), h.1⟩

end Ubus.Fd
