/-
  Sending in libubus (`writev_retry` in `libubus-io.c`): a message is written with as many calls of
  `sendmsg` as it takes, and a descriptor goes along.

  The descriptor is forgotten when `len` is positive before a call is counted: after the second call,
  not after the first.
-/
import Mathlib

namespace Ubus.Send

/-- What `sendmsg` answers: it took up to `n` bytes, or failed. -/
inductive Answer where
  | wrote (n : ℕ)
  | eagain
  | eintr
  | error
deriving DecidableEq, Repr

/-- The conversion of a signed value to `int`. -/
def toInt (x : ℤ) : ℤ := x.bmod 4294967296

/-- The variables of `writev_retry`, with what went through the socket: the bytes, and for each call
    that took some the descriptor that was attached. -/
structure State where
  iov : List (List UInt8)
  sockFd : ℤ
  len : ℤ := 0
  sock : List UInt8 := []
  fds : List (Option ℤ) := []
deriving DecidableEq, Repr

/-- The inner loop: the vectors that are left, unless all were sent. -/
def advance : ℕ → List (List UInt8) → Option (List (List UInt8))
  | _, [] => none
  | cur, v :: iov =>
    if v.length ≤ cur then if iov = [] then none else advance (cur - v.length) iov
    else some (v.drop cur :: iov)

/-- How a turn of the loop ends. -/
inductive Turn where
  | ret (r : ℤ) (s : State)
  | again (s : State)

/-- A call has taken up to `n` bytes. -/
def State.wrote (s : State) (n : ℕ) : State :=
  let bytes := s.iov.flatten.take n
  { iov := (advance bytes.length s.iov).getD []
    sockFd := if 0 < s.len then -1 else s.sockFd
    len := toInt (s.len + bytes.length)
    sock := s.sock ++ bytes
    fds := s.fds ++ [if s.sockFd < 0 then none else some s.sockFd] }

/-- A turn of the loop. -/
def turn (s : State) : Answer → Turn
  | .error => .ret (-1) s
  | .eagain | .eintr => .again s
  | .wrote n =>
    if (advance (s.iov.flatten.take n).length s.iov).isNone then .ret (s.wrote n).len (s.wrote n)
    else .again (s.wrote n)

/-- The loop of `writev_retry`; when no answer is left, it still waits. -/
def sendLoop (s : State) : List Answer → Option (ℤ × State)
  | [] => none
  | a :: as =>
    match turn s a with
    | .ret r s => some (r, s)
    | .again s => sendLoop s as

/-- `writev_retry` -/
def writevRetry (iov : List (List UInt8)) (sockFd : ℤ) (as : List Answer) : Option (ℤ × State) :=
  sendLoop { iov := iov, sockFd := sockFd } as

/-- What a call that does not fail should have done. -/
structure Exact (iov : List (List UInt8)) (sockFd r : ℤ) (s : State) : Prop where
  sock : s.sock = iov.flatten
  len : r = iov.flatten.length
  fds : s.fds.reduceOption = if sockFd < 0 then [] else [sockFd]

/-- How much the first call of `sendmsg` that takes something takes. -/
def firstSend : List Answer → Option ℕ
  | [] => none
  | .wrote n :: _ => some n
  | _ :: as => firstSend as

/-! ## The bytes -/

section
variable {iov iov' : List (List UInt8)} {s s' : State} {as : List Answer} {r : ℤ}

theorem advance_eq (cur : ℕ) (hne : iov ≠ []) :
    (iov.flatten.length ≤ cur ∧ advance cur iov = none) ∨
      (cur < iov.flatten.length ∧ ∃ iov', iov' ≠ [] ∧ advance cur iov = some iov' ∧
        iov'.flatten = iov.flatten.drop cur) := by
  induction iov generalizing cur with
  | nil => exact (hne rfl).elim
  | cons v iov ih =>
    rw [advance, List.flatten_cons, List.length_append]
    by_cases hv : v.length ≤ cur
    · rw [if_pos hv]
      by_cases hnil : iov = []
      · subst hnil
        exact .inl ⟨by simpa using hv, rfl⟩
      · rw [if_neg hnil]
        rcases ih (cur - v.length) hnil with ⟨hle, hnone⟩ | ⟨hlt, iov', hne', hsome, hflat⟩
        · exact .inl ⟨by omega, hnone⟩
        · refine .inr ⟨by omega, iov', hne', hsome, ?_⟩
          rw [hflat, List.drop_append, List.drop_eq_nil_of_le hv, List.nil_append]
    · rw [if_neg hv]
      refine .inr ⟨by omega, _, List.cons_ne_nil _ _, rfl, ?_⟩
      rw [List.flatten_cons, List.drop_append_of_le_length (by omega)]

/-- A call that takes all bytes is the last one. -/
theorem turn_wrote (hne : s.iov ≠ []) (n : ℕ) :
    turn s (.wrote n) = if s.iov.flatten.length ≤ n then .ret (s.wrote n).len (s.wrote n)
      else .again (s.wrote n) := by
  have hlen : (s.iov.flatten.take n).length = min n s.iov.flatten.length := List.length_take
  rw [turn]
  rcases advance_eq (s.iov.flatten.take n).length hne with ⟨hle, hnone⟩ | ⟨hlt, iov', -, hsome, -⟩
  · rw [hnone, if_pos (show s.iov.flatten.length ≤ n by omega)]
    rfl
  · rw [hsome, if_neg (show ¬ s.iov.flatten.length ≤ n by omega)]
    rfl

/-- What was sent and what is left are the bytes of the vectors. -/
structure Inv (bytes : List UInt8) (s : State) : Prop where
  bytes : s.sock ++ s.iov.flatten = bytes
  len : s.len = toInt s.sock.length

theorem Inv.wrote {bytes : List UInt8} (h : Inv bytes s) (hne : s.iov ≠ []) (n : ℕ) :
    Inv bytes (s.wrote n) := by
  have hlen : (s.iov.flatten.take n).length = min n s.iov.flatten.length := List.length_take
  have hrest : (s.wrote n).iov.flatten = s.iov.flatten.drop n := by
    change ((advance (s.iov.flatten.take n).length s.iov).getD []).flatten = _
    rcases advance_eq (s.iov.flatten.take n).length hne with ⟨hle, hnone⟩ | ⟨hlt, iov', -, hsome, hflat⟩
    · rw [hnone, List.drop_eq_nil_of_le (show s.iov.flatten.length ≤ n by omega)]
      rfl
    · rw [hsome, Option.getD_some, hflat]
      congr 1
      omega
  constructor
  · rw [hrest, ← h.bytes]
    change s.sock ++ s.iov.flatten.take n ++ _ = _
    rw [List.append_assoc, List.take_append_drop]
  · change toInt (s.len + (s.iov.flatten.take n).length) =
      toInt ((s.sock ++ s.iov.flatten.take n).length : ℕ)
    rw [h.len, List.length_append, Nat.cast_add]
    exact Int.bmod_add_bmod

theorem wrote_iov (hne : s.iov ≠ []) {n : ℕ} (hn : ¬ s.iov.flatten.length ≤ n) :
    (s.wrote n).iov ≠ [] := by
  have hlen : (s.iov.flatten.take n).length = min n s.iov.flatten.length := List.length_take
  change (advance (s.iov.flatten.take n).length s.iov).getD [] ≠ []
  rcases advance_eq (s.iov.flatten.take n).length hne with ⟨hle, -⟩ | ⟨-, iov', hne', hsome, -⟩
  · omega
  · rw [hsome]
    exact hne'

/-- A property of the state where the loop returns without an error, by one lemma for the last call
    and one for a call that is not the last. -/
theorem sendLoop_induction (P Q : State → Prop)
    (hlast : ∀ s n, P s → s.iov ≠ [] → s.iov.flatten.length ≤ n → Q (s.wrote n))
    (hmore : ∀ s n, P s → s.iov ≠ [] → ¬ s.iov.flatten.length ≤ n → P (s.wrote n))
    (hP : P s) (hne : s.iov ≠ []) (h : sendLoop s as = some (r, s')) (hr : 0 ≤ r) :
    Q s' ∧ r = s'.len := by
  induction as generalizing s with
  | nil => cases h
  | cons a as ih =>
    cases a with
    | error =>
      obtain ⟨rfl, -⟩ := Prod.mk.inj (Option.some.inj h)
      exact absurd hr (by decide)
    | eagain => exact ih hP hne h
    | eintr => exact ih hP hne h
    | wrote n =>
      rw [sendLoop, turn_wrote hne] at h
      by_cases hn : s.iov.flatten.length ≤ n
      · rw [if_pos hn] at h
        obtain ⟨rfl, rfl⟩ := Prod.mk.inj (Option.some.inj h)
        exact ⟨hlast s n hP hne hn, rfl⟩
      · rw [if_neg hn] at h
        exact ih (hmore s n hP hne hn) (wrote_iov hne hn) h

/-- A run that does not fail begins with a first call. -/
theorem sendLoop_first (hne : s.iov ≠ []) (h : sendLoop s as = some (r, s')) (hr : 0 ≤ r) :
    ∃ n as', firstSend as = some n ∧
      ((s.iov.flatten.length ≤ n ∧ s' = s.wrote n) ∨
        (n < s.iov.flatten.length ∧ sendLoop (s.wrote n) as' = some (r, s'))) := by
  induction as with
  | nil => cases h
  | cons a as ih =>
    cases a with
    | error =>
      obtain ⟨rfl, -⟩ := Prod.mk.inj (Option.some.inj h)
      exact absurd hr (by decide)
    | eagain => exact ih h
    | eintr => exact ih h
    | wrote n =>
      rw [sendLoop, turn_wrote hne] at h
      refine ⟨n, as, rfl, ?_⟩
      by_cases hn : s.iov.flatten.length ≤ n
      · rw [if_pos hn] at h
        obtain ⟨-, rfl⟩ := Prod.mk.inj (Option.some.inj h)
        exact .inl ⟨hn, rfl⟩
      · rw [if_neg hn] at h
        exact .inr ⟨Nat.lt_of_not_le hn, h⟩

/-- The bytes are sent once and in order, and counted. -/
theorem sendLoop_bytes {bytes : List UInt8} (hinv : Inv bytes s) (hne : s.iov ≠ [])
    (h : sendLoop s as = some (r, s')) (hr : 0 ≤ r) :
    s'.sock = bytes ∧ r = toInt bytes.length := by
  have hlast : ∀ s n, Inv bytes s → s.iov ≠ [] → s.iov.flatten.length ≤ n →
      (s.wrote n).sock = bytes ∧ (s.wrote n).len = toInt bytes.length := by
    intro s n hs hne hn
    have hsock : (s.wrote n).sock = bytes := by
      rw [← hs.bytes]
      change s.sock ++ s.iov.flatten.take n = _
      rw [List.take_of_length_le hn]
    exact ⟨hsock, by rw [(hs.wrote hne n).len, hsock]⟩
  obtain ⟨⟨hsock, hlen⟩, rfl⟩ :=
    sendLoop_induction (Inv bytes) (fun s => s.sock = bytes ∧ s.len = toInt bytes.length) hlast
      (fun s n hs hne _ => hs.wrote hne n) hinv hne h hr
  exact ⟨hsock, hlen⟩

/-- Without a descriptor none is attached. -/
theorem sendLoop_none (hfd : s.sockFd < 0) (hfds : s.fds.reduceOption = []) (hne : s.iov ≠ [])
    (h : sendLoop s as = some (r, s')) (hr : 0 ≤ r) : s'.fds.reduceOption = [] := by
  have hstep : ∀ (s : State) n, s.sockFd < 0 ∧ s.fds.reduceOption = [] →
      (s.wrote n).sockFd < 0 ∧ (s.wrote n).fds.reduceOption = [] := by
    rintro s n ⟨hfd, hfds⟩
    constructor
    · change (if 0 < s.len then -1 else s.sockFd) < 0
      split_ifs
      · decide
      · exact hfd
    · change (s.fds ++ [if s.sockFd < 0 then none else some s.sockFd]).reduceOption = []
      rw [if_pos hfd, List.reduceOption_append, hfds]
      rfl
  exact (sendLoop_induction (fun s => s.sockFd < 0 ∧ s.fds.reduceOption = [])
    (fun s => s.fds.reduceOption = []) (fun s n hs _ _ => (hstep s n hs).2)
    (fun s n hs _ _ => hstep s n hs) ⟨hfd, hfds⟩ hne h hr).1

/-- What was attached stays attached. -/
theorem sendLoop_prefix {fds : List (Option ℤ)} (hfds : fds <+: s.fds) (hne : s.iov ≠ [])
    (h : sendLoop s as = some (r, s')) (hr : 0 ≤ r) : fds <+: s'.fds := by
  have hstep : ∀ (s : State) n, fds <+: s.fds → fds <+: (s.wrote n).fds :=
    fun s n hs => hs.trans (List.prefix_append _ _)
  exact (sendLoop_induction (fun s => fds <+: s.fds) (fun s => fds <+: s.fds)
    (fun s n hs _ _ => hstep s n hs) (fun s n hs _ _ => hstep s n hs) hfds hne h hr).1

/-- A descriptor that is still there goes with the next call. -/
theorem sendLoop_attach {fd : ℤ} (hfd : s.sockFd = fd) (hpos : 0 ≤ fd) (hne : s.iov ≠ [])
    (h : sendLoop s as = some (r, s')) (hr : 0 ≤ r) : s.fds ++ [some fd] <+: s'.fds := by
  obtain ⟨n, as', -, hrun⟩ := sendLoop_first hne h hr
  have hfds : (s.wrote n).fds = s.fds ++ [some fd] := by
    change s.fds ++ [if s.sockFd < 0 then none else some s.sockFd] = _
    rw [hfd, if_neg hpos.not_gt]
  rcases hrun with ⟨-, rfl⟩ | ⟨hlt, hrun⟩
  · rw [hfds]
  · refine sendLoop_prefix ?_ (wrote_iov hne hlt.not_ge) hrun hr
    rw [hfds]

end

theorem toInt_eq_iff {n : ℕ} (h : 0 ≤ toInt n) : toInt n = n ↔ n < 2147483648 := by
  unfold toInt at *
  constructor
  · intro heq
    have hlt := @Int.bmod_lt (n : ℤ) 4294967296 (by norm_num)
    rw [heq] at hlt
    have hbound : ((4294967296 : ℕ) + 1 : ℤ) / 2 = 2147483648 := by norm_num
    omega
  · intro hlt
    exact Int.bmod_eq_of_le (by omega) (by omega)

/-- **What `writev_retry` does when it does not fail**: the bytes are sent once and in order, whatever
    is interrupted; the length is right if it fits, and the descriptor goes along once if the first
    call takes all bytes. -/
theorem writevRetry_exact (iov : List (List UInt8)) (hne : iov ≠ []) (sockFd : ℤ) (as : List Answer)
    (r : ℤ) (s : State) (h : writevRetry iov sockFd as = some (r, s)) (hr : 0 ≤ r) :
    Exact iov sockFd r s ↔ iov.flatten.length < 2147483648 ∧
      (sockFd < 0 ∨ ∀ n ∈ firstSend as, iov.flatten.length ≤ n) := by
  set s₀ : State := { iov := iov, sockFd := sockFd }
  have hinv : Inv iov.flatten s₀ := ⟨List.nil_append _, Int.zero_bmod.symm⟩
  obtain ⟨hsock, hlen⟩ := sendLoop_bytes hinv hne h hr
  rw [hlen] at hr
  have hfit := toInt_eq_iff hr
  rw [← hlen] at hr hfit
  have hfds : (s.fds.reduceOption = if sockFd < 0 then [] else [sockFd]) ↔
      (sockFd < 0 ∨ ∀ n ∈ firstSend as, iov.flatten.length ≤ n) := by
    by_cases hfd : sockFd < 0
    · rw [if_pos hfd]
      exact iff_of_true (sendLoop_none hfd rfl hne h hr) (.inl hfd)
    · rw [if_neg hfd]
      obtain ⟨n, as', hfirst, hrun⟩ := sendLoop_first hne h hr
      rw [hfirst]
      have hfds₀ : (s₀.wrote n).fds = [some sockFd] := by
        change [if sockFd < 0 then none else some sockFd] = _
        rw [if_neg hfd]
      rcases hrun with ⟨hle, rfl⟩ | ⟨hlt, hrun⟩
      · rw [hfds₀]
        refine iff_of_true rfl (.inr ?_)
        rintro m ⟨⟩
        exact hle
      · -- the second call attaches the descriptor again
        have hagain := @sendLoop_attach (s₀.wrote n) _ _ _ _ rfl (not_lt.1 hfd)
          (wrote_iov hne hlt.not_ge) hrun hr
        refine iff_of_false ?_ ?_
        · intro heq
          rw [hfds₀] at hagain
          obtain ⟨more, hmore⟩ := hagain
          rw [← hmore, List.reduceOption_append] at heq
          cases heq
        · rintro (hneg | hall)
          · exact hfd hneg
          · exact absurd (hall n rfl) hlt.not_ge
  constructor
  · intro hexact
    exact ⟨hfit.1 hexact.len, hfds.1 hexact.fds⟩
  · rintro ⟨hlt, hfd⟩
    exact ⟨hsock, hfit.2 hlt, hfds.2 hfd⟩

theorem writevRetry_exact_whole :
    Exact [[1], [2]] 5 2 ⟨[], 5, 2, [1, 2], [some 5]⟩ ↔ [[(1 : UInt8)], [2]].flatten.length < 2147483648 ∧
      ((5 : ℤ) < 0 ∨ ∀ n ∈ firstSend [.eagain, .wrote 2], [[(1 : UInt8)], [2]].flatten.length ≤ n) :=
  writevRetry_exact [[1], [2]] (by decide) 5 [.eagain, .wrote 2] 2 _ (by decide +kernel) (by decide)

/-- A first call that is short: the descriptor goes along twice. -/
theorem descriptor_twice : ¬ ∀ (a b : List UInt8) (sockFd : ℤ) (as : List Answer) (r : ℤ) (s : State),
    a ≠ [] → b ≠ [] → (∀ n, .wrote n ∈ as → 0 < n) → writevRetry [a, b] sockFd as = some (r, s) →
      0 ≤ r → Exact [a, b] sockFd r s := by
  intro h
  have hexact := h [1] [2] 5 [.wrote 1, .wrote 1] 2 ⟨[], -1, 2, [1, 2], [some 5, some 5]⟩
    (by decide) (by decide) (by simp) (by decide +kernel) (by decide)
  exact absurd hexact.fds (by decide)

end Ubus.Send
