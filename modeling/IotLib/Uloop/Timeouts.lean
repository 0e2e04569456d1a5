/-
  The timers of the event loop (uloop.c): the order of the list, and which timers fire.

  A run is a sequence of calls, of clock ticks and of turns of a running `uloop_process_timeouts`.
  Its callbacks may use all calls, so such loops nest.
-/
import IotLib.Lib.Insert
import IotLib.Lib.Run

namespace Uloop.Timeouts

open Insert

/-- A `struct uloop_timeout`, by address. -/
abbrev TimerId := ℕ

/-- `struct timeval`. -/
structure Timeval where
  sec : ℤ
  usec : ℤ
deriving DecidableEq

/-- A time in microseconds. -/
def Timeval.micros (t : Timeval) : ℤ := t.sec * 1000000 + t.usec

/-- `struct uloop_timeout`; `cb` says that there is a callback. -/
structure Timer where
  time : Timeval
  pending : Bool
  cb : Bool

/-- A running `uloop_process_timeouts`: the time that it sampled, and whether a callback of it
    is running. -/
structure Frame where
  tv : Timeval
  running : Bool

/-- What has happened: a timer was set to a time, cancelled by the program, or taken from the
    list by a loop that sampled `tv` (and called, if there is a callback). -/
inductive Event where
  | set (t : TimerId) (time : Timeval)
  | cancel (t : TimerId)
  | fire (t : TimerId) (time tv : Timeval) (called : Bool)

/-- The state; the clock counts microseconds, and the trace has the latest event first. -/
structure State where
  timer : TimerId → Timer
  timeouts : List TimerId
  now : ℕ
  frames : List Frame
  trace : List Event

/-! ## The calls -/

/-- `tv_diff`, in milliseconds. -/
def tvDiff (t1 t2 : Timeval) : ℤ :=
  (t1.sec - t2.sec) * 1000 + (t1.usec - t2.usec).tdiv 1000

def State.setTimer (s : State) (t : TimerId) (f : Timer → Timer) : State :=
  { s with timer := fun u => if u = t then f (s.timer u) else s.timer u }

def State.log (s : State) (e : Event) : State := { s with trace := e :: s.trace }

/-- `uloop_timeout_add`, with `list_add_tail` in front of the first entry that is later. -/
def uloopTimeoutAdd (s : State) (t : TimerId) : State :=
  if (s.timer t).pending then s
  else
    let timeouts := insertBefore
      (fun tmp => tvDiff (s.timer tmp).time (s.timer t).time > 0) t s.timeouts
    { s with timeouts }.setTimer t fun timer => { timer with pending := true }

/-- `uloop_timeout_cancel` -/
def uloopTimeoutCancel (s : State) (t : TimerId) : State :=
  if (s.timer t).pending then
    { s with timeouts := s.timeouts.erase t }.setTimer t fun timer => { timer with pending := false }
  else s

/-- `uloop_gettime` -/
def uloopGettime (s : State) : Timeval := ⟨s.now / 1000000, s.now % 1000000⟩

/-- The time that `uloop_timeout_set` computes. -/
def timeAfter (time : Timeval) (msecs : ℤ) : Timeval :=
  let time := ⟨time.sec + msecs.tdiv 1000, time.usec + msecs.tmod 1000 * 1000⟩
  if time.usec > 1000000 then ⟨time.sec + 1, time.usec - 1000000⟩ else time

/-- `uloop_timeout_set` -/
def uloopTimeoutSet (s : State) (t : TimerId) (msecs : ℤ) : State :=
  let s := if (s.timer t).pending then uloopTimeoutCancel s t else s
  let time := timeAfter (uloopGettime s) msecs
  uloopTimeoutAdd (s.setTimer t fun timer => { timer with time }) t

/-- The start of `uloop_process_timeouts`, up to its loop. -/
def uloopProcessTimeouts (s : State) : State :=
  if s.timeouts = [] then s else { s with frames := ⟨uloopGettime s, false⟩ :: s.frames }

/-- The loop test of `uloop_process_timeouts`, and the call of a callback. -/
def processTurn (s : State) (f : Frame) (rest : List Frame) : State :=
  match s.timeouts with
  | [] => { s with frames := rest }
  | t :: _ =>
    let timer := s.timer t
    if tvDiff timer.time f.tv > 0 then { s with frames := rest }
    else
      { uloopTimeoutCancel s t with frames := ⟨f.tv, timer.cb⟩ :: rest }.log
        (.fire t timer.time f.tv timer.cb)

/-! ## Runs -/

/-- A step: the clock goes on, the program (or a callback) makes a call, the innermost
    `uloop_process_timeouts` goes on, or its callback returns. -/
inductive Step where
  | tick (usecs : ℕ)
  | setCb (t : TimerId) (cb : Bool)
  | set (t : TimerId) (msecs : ℕ)
  | cancel (t : TimerId)
  | process
  | turn
  | finish

/-- The program has control: outside of all loops, or in a callback. -/
def State.control (s : State) : Bool :=
  match s.frames with
  | [] => true
  | f :: _ => f.running

/-- A step; a step that cannot happen changes nothing. -/
def step (s : State) : Step → State
  | .tick usecs => { s with now := s.now + usecs }
  | .setCb t cb => if s.control then s.setTimer t fun timer => { timer with cb } else s
  | .set t msecs =>
    if s.control then
      let s := uloopTimeoutSet s t msecs
      s.log (.set t (s.timer t).time)
    else s
  | .cancel t => if s.control then (uloopTimeoutCancel s t).log (.cancel t) else s
  | .process => if s.control then uloopProcessTimeouts s else s
  | .turn =>
    match s.frames with
    | [] => s
    | f :: rest => if f.running then s else processTurn s f rest
  | .finish =>
    match s.frames with
    | [] => s
    | f :: rest => if f.running then { s with frames := { f with running := false } :: rest } else s

/-- No timer is pending at first. -/
def init (timer : TimerId → Timer) (now : ℕ) : State where
  timer t := { timer t with pending := false }
  timeouts := []
  now := now
  frames := []
  trace := []

/-! ## Differences of times -/

/-- `tv_diff` is off by less than a millisecond. -/
theorem tvDiff_bounds (a b : Timeval) :
    a.micros - b.micros - 1000 < 1000 * tvDiff a b ∧
      1000 * tvDiff a b < a.micros - b.micros + 1000 := by
  have hsplit := Int.mul_tdiv_add_tmod (a.usec - b.usec) 1000
  have hlt := Int.tmod_lt_of_pos (a.usec - b.usec) (show (0 : ℤ) < 1000 by norm_num)
  have hgt := Int.lt_tmod_of_pos (a.usec - b.usec) (show (0 : ℤ) < 1000 by norm_num)
  unfold tvDiff Timeval.micros
  constructor <;> omega

theorem lt_of_tvDiff_pos {a b : Timeval} (h : tvDiff a b > 0) : b.micros < a.micros := by
  have hb := (tvDiff_bounds a b).2
  omega

theorem lt_of_tvDiff_nonpos {a b : Timeval} (h : ¬ tvDiff a b > 0) :
    a.micros < b.micros + 1000 := by
  have hb := (tvDiff_bounds a b).1
  omega

/-! ## The list -/

/-- The order of the list: no timer is late by a millisecond or more for one behind it. -/
def InOrder (time : TimerId → Timeval) (l : List TimerId) : Prop :=
  l.Pairwise fun p q => (time p).micros < (time q).micros + 1000

/-- A timer is put where the order is kept. -/
theorem InOrder.insertBefore {time : TimerId → Timeval} {l : List TimerId} (h : InOrder time l)
    (t : TimerId) :
    InOrder time (insertBefore (fun tmp => tvDiff (time tmp) (time t) > 0) t l) := by
  refine pairwise_insertBefore h ?_ ?_
  · intro tmp _ hlate
    exact lt_of_tvDiff_nonpos (of_decide_eq_false hlate)
  · intro tmp _ hlate
    have hlt := lt_of_tvDiff_pos (of_decide_eq_true hlate)
    refine ⟨by omega, ?_⟩
    intro q _ hle
    omega

theorem InOrder.congr {time time' : TimerId → Timeval} {l : List TimerId} (h : InOrder time l)
    (heq : ∀ t ∈ l, time' t = time t) : InOrder time' l := by
  refine List.Pairwise.imp_of_mem ?_ h
  intro p q hp hq hlt
  rw [heq p hp, heq q hq]
  exact hlt

/-! ## The invariant -/

def Event.timer : Event → TimerId
  | .set t _ => t
  | .cancel t => t
  | .fire t _ _ _ => t

/-- The latest event of a timer. -/
def latest (t : TimerId) (trace : List Event) : Option Event := trace.find? fun e => e.timer = t

theorem latest_self (e : Event) (trace : List Event) : latest e.timer (e :: trace) = some e := by
  simp [latest]

theorem latest_other {t : TimerId} {e : Event} (h : e.timer ≠ t) (trace : List Event) :
    latest t (e :: trace) = latest t trace := by
  simp [latest, h]

/-- The time of a timer. -/
abbrev State.time (s : State) (t : TimerId) : Timeval := (s.timer t).time

/-- The list holds the pending timers in order. They are those whose latest event is that they were
    set. -/
structure Inv (s : State) : Prop where
  nodup : s.timeouts.Nodup
  pending : ∀ t, (s.timer t).pending = true ↔ t ∈ s.timeouts
  inOrder : InOrder s.time s.timeouts
  set_of_mem : ∀ t ∈ s.timeouts, latest t s.trace = some (.set t (s.time t))
  mem_of_set : ∀ t time, latest t s.trace = some (.set t time) → t ∈ s.timeouts

section
variable {s s' : State} {t : TimerId}

theorem Inv.congr (h : Inv s) (htimeouts : s'.timeouts = s.timeouts) (htrace : s'.trace = s.trace)
    (htime : ∀ t, s'.time t = s.time t)
    (hpending : ∀ t, (s'.timer t).pending = (s.timer t).pending) : Inv s' := by
  refine ⟨htimeouts ▸ h.nodup, ?_, ?_, ?_, ?_⟩
  · intro t
    rw [hpending, htimeouts]
    exact h.pending t
  · rw [htimeouts]
    exact h.inOrder.congr fun t _ => htime t
  · rw [htimeouts, htrace]
    intro t ht
    rw [htime]
    exact h.set_of_mem t ht
  · rw [htimeouts, htrace]
    exact h.mem_of_set

/-- What `uloop_timeout_cancel` does. -/
theorem uloopTimeoutCancel_spec (h : Inv s) (t : TimerId) :
    (uloopTimeoutCancel s t).timeouts = s.timeouts.erase t ∧
      (∀ u, (uloopTimeoutCancel s t).time u = s.time u) ∧
      (∀ u, ((uloopTimeoutCancel s t).timer u).pending = true ↔ u ∈ s.timeouts.erase t) ∧
      (uloopTimeoutCancel s t).trace = s.trace ∧ (uloopTimeoutCancel s t).now = s.now := by
  unfold uloopTimeoutCancel
  by_cases hp : (s.timer t).pending = true
  · rw [if_pos hp]
    refine ⟨rfl, ?_, ?_, rfl, rfl⟩
    · intro u
      simp only [State.setTimer, State.time]
      split <;> rfl
    · intro u
      rw [h.nodup.mem_erase_iff]
      simp only [State.setTimer]
      by_cases hu : u = t
      · simp [hu]
      · rw [if_neg hu, h.pending u]
        simp [hu]
  · rw [if_neg hp]
    have hmem : t ∉ s.timeouts := by rwa [← h.pending t]
    rw [List.erase_of_not_mem hmem]
    exact ⟨rfl, fun u => rfl, h.pending, rfl, rfl⟩

/-- A timer is taken from the list, with an event that says so. -/
theorem Inv.remove (h : Inv s) (t : TimerId) {e : Event} (he : e.timer = t)
    (hne : ∀ time, e ≠ .set t time) (htimeouts : s'.timeouts = s.timeouts.erase t)
    (htime : ∀ u, s'.time u = s.time u)
    (hpending : ∀ u, (s'.timer u).pending = true ↔ u ∈ s.timeouts.erase t)
    (htrace : s'.trace = e :: s.trace) : Inv s' := by
  subst he
  refine ⟨?_, ?_, ?_, ?_, ?_⟩
  · rw [htimeouts]
    exact h.nodup.erase e.timer
  · rw [htimeouts]
    exact hpending
  · rw [htimeouts]
    have hsub : InOrder s.time (s.timeouts.erase e.timer) := h.inOrder.sublist List.erase_sublist
    exact hsub.congr fun u _ => htime u
  · rw [htimeouts, htrace]
    intro u hu
    rw [h.nodup.mem_erase_iff] at hu
    rw [latest_other hu.1.symm, htime]
    exact h.set_of_mem u hu.2
  · rw [htimeouts, htrace]
    intro u time hu
    by_cases heq : e.timer = u
    · rw [← heq, latest_self] at hu
      exact absurd (Option.some.inj hu) (hne time)
    · rw [latest_other heq] at hu
      exact (h.nodup.mem_erase_iff).2 ⟨fun h' => heq h'.symm, h.mem_of_set u time hu⟩

/-- `uloop_timeout_cancel` by the program. -/
theorem Inv.cancel (h : Inv s) (t : TimerId) : Inv ((uloopTimeoutCancel s t).log (.cancel t)) := by
  obtain ⟨htimeouts, htime, hpending, htrace, -⟩ := uloopTimeoutCancel_spec h t
  exact h.remove t rfl (fun _ he => by cases he) htimeouts htime hpending (congrArg (List.cons _) htrace)

/-- What `uloop_timeout_add` does with a timer that is not pending. -/
theorem uloopTimeoutAdd_spec (s : State) (t : TimerId) (hp : (s.timer t).pending = false) :
    (uloopTimeoutAdd s t).timeouts =
        insertBefore (fun tmp => tvDiff (s.time tmp) (s.time t) > 0) t s.timeouts ∧
      (∀ u, (uloopTimeoutAdd s t).time u = s.time u) ∧
      (∀ u, ((uloopTimeoutAdd s t).timer u).pending = true ↔
        u = t ∨ (s.timer u).pending = true) ∧
      (uloopTimeoutAdd s t).trace = s.trace := by
  unfold uloopTimeoutAdd
  rw [if_neg (by rw [hp]; exact Bool.false_ne_true)]
  refine ⟨rfl, ?_, ?_, rfl⟩
  · intro u
    simp only [State.setTimer, State.time]
    split <;> rfl
  · intro u
    simp only [State.setTimer]
    by_cases hu : u = t
    · simp [hu]
    · simp [hu]

/-- `uloop_timeout_set` by the program. -/
theorem Inv.set (h : Inv s) (t : TimerId) (msecs : ℤ) :
    Inv ((uloopTimeoutSet s t msecs).log (.set t ((uloopTimeoutSet s t msecs).time t))) := by
  obtain ⟨htimeouts, htime, hpending, htrace, -⟩ := uloopTimeoutCancel_spec h t
  have hcancel : (if (s.timer t).pending then uloopTimeoutCancel s t else s) =
      uloopTimeoutCancel s t := by
    unfold uloopTimeoutCancel
    split <;> rfl
  unfold uloopTimeoutSet
  rw [hcancel]
  set s₁ := uloopTimeoutCancel s t with hs₁
  -- the timer is out of the list when its time changes
  have hnot : t ∉ s₁.timeouts := by
    rw [htimeouts, h.nodup.mem_erase_iff]
    exact fun hmem => hmem.1 rfl
  have hperm := fun late => insertBefore_perm late t s₁.timeouts
  set time := timeAfter (uloopGettime s₁) msecs
  set s₂ := s₁.setTimer t fun timer => { timer with time } with hs₂
  have htime₂ : ∀ u, u ≠ t → s₂.time u = s.time u := by
    intro u hu
    rw [← htime u]
    simp only [hs₂, State.setTimer, State.time, if_neg hu]
  have hpending₂ : ∀ u, (s₂.timer u).pending = true ↔ u ∈ s₁.timeouts := by
    intro u
    rw [htimeouts, ← hpending u]
    simp only [hs₂, State.setTimer]
    split <;> rfl
  have hp : (s₂.timer t).pending = false := by
    rw [← Bool.not_eq_true, hpending₂ t]
    exact hnot
  obtain ⟨hlist, htime₃, hpending₃, htrace₃⟩ := uloopTimeoutAdd_spec s₂ t hp
  have hsame : s₂.timeouts = s₁.timeouts := rfl
  rw [hsame] at hlist
  have hmem : ∀ u, u ∈ (uloopTimeoutAdd s₂ t).timeouts ↔ u = t ∨ u ∈ s₁.timeouts := by
    intro u
    rw [hlist, mem_insertBefore]
  have htrace' : (uloopTimeoutAdd s₂ t).trace = s.trace := htrace₃.trans htrace
  refine ⟨?_, ?_, ?_, ?_, ?_⟩
  · show (uloopTimeoutAdd s₂ t).timeouts.Nodup
    rw [hlist, (hperm _).nodup_iff, List.nodup_cons]
    refine ⟨hnot, ?_⟩
    rw [htimeouts]
    exact h.nodup.erase t
  · intro u
    refine (hpending₃ u).trans ?_
    rw [hpending₂ u]
    exact (hmem u).symm
  · show InOrder (uloopTimeoutAdd s₂ t).time (uloopTimeoutAdd s₂ t).timeouts
    have hsub : InOrder s.time s₁.timeouts := by
      rw [htimeouts]
      exact h.inOrder.sublist List.erase_sublist
    have hsub₂ : InOrder s₂.time s₁.timeouts :=
      hsub.congr fun u hu => htime₂ u (ne_of_mem_of_not_mem hu hnot)
    rw [hlist]
    exact (hsub₂.insertBefore t).congr fun u _ => htime₃ u
  · intro u hu
    by_cases heq : u = t
    · subst heq
      exact latest_self (.set u _) _
    · have hold := ((hmem u).1 hu).resolve_left heq
      rw [htimeouts, h.nodup.mem_erase_iff] at hold
      have hset := h.set_of_mem u hold.2
      refine (latest_other (Ne.symm heq) _).trans ?_
      rw [htrace', hset]
      congr 2
      exact (htime₂ u heq).symm.trans (htime₃ u).symm
  · intro u time' hu
    refine (hmem u).2 ?_
    by_cases heq : u = t
    · exact Or.inl heq
    · refine Or.inr ?_
      have hold := (latest_other (Ne.symm heq) _).symm.trans hu
      rw [htrace'] at hold
      rw [htimeouts, h.nodup.mem_erase_iff]
      exact ⟨heq, h.mem_of_set u time' hold⟩

/-- A turn of the loop of `uloop_process_timeouts`. -/
theorem Inv.processTurn (h : Inv s) (f : Frame) (rest : List Frame) :
    Inv (processTurn s f rest) := by
  unfold Timeouts.processTurn
  split
  · exact h.congr rfl rfl (fun _ => rfl) fun _ => rfl
  · rename_i t later hl
    dsimp only
    split
    · exact h.congr rfl rfl (fun _ => rfl) fun _ => rfl
    · obtain ⟨htimeouts, htime, hpending, htrace, -⟩ := uloopTimeoutCancel_spec h t
      exact h.remove t rfl (fun _ he => by cases he) htimeouts htime hpending
        (congrArg (List.cons _) htrace)

/-- **Every step** keeps the list in order. -/
theorem Inv.step (h : Inv s) (a : Step) : Inv (step s a) := by
  cases a with
  | tick usecs => exact h.congr rfl rfl (fun _ => rfl) fun _ => rfl
  | setCb t cb =>
    unfold Timeouts.step
    dsimp only
    split
    · refine h.congr rfl rfl (fun u => ?_) fun u => ?_
      · simp only [State.setTimer, State.time]
        split <;> rfl
      · simp only [State.setTimer]
        split <;> rfl
    · exact h
  | set t msecs =>
    unfold Timeouts.step
    dsimp only
    split
    · exact h.set t msecs
    · exact h
  | cancel t =>
    unfold Timeouts.step
    dsimp only
    split
    · exact h.cancel t
    · exact h
  | process =>
    unfold Timeouts.step uloopProcessTimeouts
    dsimp only
    split
    · split
      · exact h
      · exact h.congr rfl rfl (fun _ => rfl) fun _ => rfl
    · exact h
  | turn =>
    unfold Timeouts.step
    dsimp only
    split
    · exact h
    · split
      · exact h
      · exact h.processTurn _ _
  | finish =>
    unfold Timeouts.step
    dsimp only
    split
    · exact h
    · split
      · exact h.congr rfl rfl (fun _ => rfl) fun _ => rfl
      · exact h

theorem inv_init (timer : TimerId → Timer) (now : ℕ) : Inv (init timer now) where
  nodup := List.nodup_nil
  pending t := by simp [init]
  inOrder := List.Pairwise.nil
  set_of_mem t ht := by cases ht
  mem_of_set t time h := by cases h

theorem inv_run (timer : TimerId → Timer) (now : ℕ) (as : List Step) :
    Inv (Run.run step (init timer now) as) := by
  have hadmits : Run.Admits step (fun _ _ => True) (init timer now) as :=
    Run.Admits.of_forall fun _ _ => trivial
  exact hadmits.invariant (fun _ a _ h => h.step a) (inv_init timer now)

/-! ## What fires, and what stays -/

/-- A timer that fires had been set to its time, and neither fired nor was cancelled since; it was
    due within a millisecond of the sampled time. -/
def Right : Event → List Event → Prop
  | .fire t time tv _, before =>
    latest t before = some (.set t time) ∧ time.micros < tv.micros + 1000
  | _, _ => True

theorem uloopTimeoutCancel_trace (s : State) (t : TimerId) :
    (uloopTimeoutCancel s t).trace = s.trace := by
  unfold uloopTimeoutCancel
  split <;> rfl

theorem uloopTimeoutSet_trace (s : State) (t : TimerId) (msecs : ℤ) :
    (uloopTimeoutSet s t msecs).trace = s.trace := by
  have hadd : ∀ s t, (uloopTimeoutAdd s t).trace = s.trace := by
    intro s t
    unfold uloopTimeoutAdd
    split <;> rfl
  unfold uloopTimeoutSet
  refine (hadd _ t).trans ?_
  split
  · exact uloopTimeoutCancel_trace s t
  · rfl

/-- A turn of a loop either leaves the events alone or fires the first timer of the list. -/
theorem processTurn_trace (h : Inv s) (f : Frame) (rest : List Frame) :
    (processTurn s f rest).trace = s.trace ∨
      ∃ e, (processTurn s f rest).trace = e :: s.trace ∧ Right e s.trace := by
  unfold processTurn
  split
  · exact Or.inl rfl
  · rename_i t later hl
    dsimp only
    split
    · exact Or.inl rfl
    · rename_i hdue
      refine Or.inr ⟨_, congrArg (List.cons _) (uloopTimeoutCancel_trace s t), ?_, ?_⟩
      · refine h.set_of_mem t ?_
        rw [hl]
        exact List.mem_cons_self
      · exact lt_of_tvDiff_nonpos hdue

/-- A step adds at most one event, and it is right. -/
theorem step_trace (h : Inv s) (a : Step) :
    (step s a).trace = s.trace ∨ ∃ e, (step s a).trace = e :: s.trace ∧ Right e s.trace := by
  cases a with
  | tick usecs => exact Or.inl rfl
  | setCb t cb =>
    unfold step
    dsimp only
    split
    · exact Or.inl rfl
    · exact Or.inl rfl
  | set t msecs =>
    unfold step
    dsimp only
    split
    · exact Or.inr ⟨_, congrArg (List.cons _) (uloopTimeoutSet_trace s t msecs), trivial⟩
    · exact Or.inl rfl
  | cancel t =>
    unfold step
    dsimp only
    split
    · exact Or.inr ⟨_, congrArg (List.cons _) (uloopTimeoutCancel_trace s t), trivial⟩
    · exact Or.inl rfl
  | process =>
    unfold step uloopProcessTimeouts
    dsimp only
    split
    · split <;> exact Or.inl rfl
    · exact Or.inl rfl
  | turn =>
    unfold step
    dsimp only
    split
    · exact Or.inl rfl
    · split
      · exact Or.inl rfl
      · exact processTurn_trace h _ _
  | finish =>
    unfold step
    dsimp only
    split
    · exact Or.inl rfl
    · split <;> exact Or.inl rfl

/-- Every event is right for the events before it. -/
def AllRight (trace : List Event) : Prop := ∀ e before, e :: before <:+ trace → Right e before

theorem AllRight.step (hr : AllRight s.trace) (h : Inv s) (a : Step) :
    AllRight (step s a).trace := by
  rcases step_trace h a with heq | ⟨e, heq, he⟩
  · rw [heq]
    exact hr
  · rw [heq]
    intro e' before hsuffix
    rcases List.suffix_cons_iff.1 hsuffix with heq' | hsuffix
    · cases heq'
      exact he
    · exact hr e' before hsuffix

theorem allRight_run (timer : TimerId → Timer) (now : ℕ) (as : List Step) :
    AllRight (Run.run step (init timer now) as).trace := by
  have hadmits : Run.Admits step (fun _ _ => True) (init timer now) as :=
    Run.Admits.of_forall fun _ _ => trivial
  have hinit : Inv (init timer now) ∧ AllRight (init timer now).trace := by
    refine ⟨inv_init timer now, ?_⟩
    intro e before hsuffix
    cases List.suffix_nil.1 hsuffix
  exact (hadmits.invariant (I := fun s => Inv s ∧ AllRight s.trace)
    (fun _ a _ h => ⟨h.1.step a, h.2.step h.1 a⟩) hinit).2

/-- When the loop ends, no timer is left that was due a millisecond ago. -/
theorem processTurn_left (h : Inv s) {f : Frame} {rest : List Frame}
    (hends : (processTurn s f rest).frames = rest) {q : TimerId}
    (hq : ((processTurn s f rest).timer q).pending = true) :
    f.tv.micros - 1000 < ((processTurn s f rest).time q).micros := by
  unfold processTurn at hends hq ⊢
  split at hends
  · rename_i hnil
    rw [hnil] at hq
    have hmem := (h.pending q).1 hq
    rw [hnil] at hmem
    cases hmem
  · rename_i t later hl
    dsimp only at hends hq ⊢
    split at hends
    · rename_i hlate
      rw [hl] at hq ⊢
      simp only [if_pos hlate] at hq ⊢
      have hmem := (h.pending q).1 hq
      have hlt : f.tv.micros < (s.time t).micros := lt_of_tvDiff_pos hlate
      have horder := h.inOrder
      rw [hl] at hmem horder
      show f.tv.micros - 1000 < (s.time q).micros
      rcases List.mem_cons.1 hmem with rfl | hmem
      · omega
      · have hle := (List.pairwise_cons.1 horder).1 q hmem
        omega
    · exact absurd (congrArg List.length hends) (by simp [State.log])

/-- What holds whenever the program or a loop has control. -/
structure TimerOrder (s : State) : Prop where
  /-- The pending timers are those of the list. -/
  pending : ∀ t, (s.timer t).pending = true ↔ t ∈ s.timeouts
  /-- No timer is late by a millisecond for one behind it. -/
  order : s.timeouts.Pairwise fun p q => (s.time p).micros < (s.time q).micros + 1000
  /-- Before a timer fires, the latest that happened to it is that it was set, to a time that is
      at most a millisecond from the sampled one. -/
  fires : ∀ t time tv called before, .fire t time tv called :: before <:+ s.trace →
    latest t before = some (.set t time) ∧ time.micros < tv.micros + 1000
  /-- When the loop returns, no timer is pending that was due a millisecond before the sampled
      time. -/
  returns : ∀ f rest, s.frames = f :: rest → (step s .turn).frames = rest →
    ∀ q, ((step s .turn).timer q).pending = true →
      f.tv.micros - 1000 < ((step s .turn).time q).micros
  /-- The function returns at once if no timer is pending at all. -/
  returnsAtOnce : s.control = true → (step s .process).frames = s.frames →
    ∀ q, ((step s .process).timer q).pending = false

/-- **The timers** fire in order, once for each time that they are set. -/
theorem timer_order (timer : TimerId → Timer) (now : ℕ) (as : List Step) :
    TimerOrder (Run.run step (init timer now) as) := by
  have hinv := inv_run timer now as
  have hright := allRight_run timer now as
  set s := Run.run step (init timer now) as
  refine ⟨hinv.pending, hinv.inOrder, ?_, ?_, ?_⟩
  · intro t time tv called before hsuffix
    exact hright _ before hsuffix
  · intro f rest hframes hends q hq
    unfold step at hends hq ⊢
    simp only [hframes] at hends hq ⊢
    by_cases hrun : f.running = true
    · rw [if_pos hrun] at hends
      exact absurd (congrArg List.length (hframes.symm.trans hends)) (by simp)
    · rw [if_neg hrun] at hends hq ⊢
      exact processTurn_left hinv hends hq
  · intro hcontrol hframes q
    unfold step uloopProcessTimeouts at hframes ⊢
    simp only [hcontrol, if_true] at hframes ⊢
    by_cases hnil : s.timeouts = []
    · rw [if_pos hnil, ← Bool.not_eq_true, hinv.pending q, hnil]
      exact List.not_mem_nil
    · rw [if_neg hnil] at hframes
      exact absurd (congrArg List.length hframes) (by simp)

end

end Uloop.Timeouts
