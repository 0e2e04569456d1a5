/-
  The timer of a runqueue: a task that could be started waits only while the timer is set to start
  it.
-/
import IotLib.Ubox.Accounts

namespace Runqueue

variable {κ τ : Type} [DecidableEq κ] [DecidableEq τ]

/-- The queue has a task that could be started. -/
def Queue.Startable (q : Queue τ) : Prop :=
  q.stopped = false ∧ q.tasksInactive ≠ [] ∧
    (q.maxRunningTasks = 0 ∨ q.runningTasks < q.maxRunningTasks)

/-- The timer is set to start tasks. -/
def Queue.Armed (q : Queue τ) : Prop := q.timerPending = true ∧ q.timerCb = .startNext

/-- A frame that starts tasks, or sets the timer to do so. -/
def Frame.Restarts (q : κ) (f : Frame κ τ) : Prop := f = .startNext q ∨ f = .completed q

/-- A task that could be started is not forgotten. -/
def ArmedAt (s : State κ τ) (q : κ) : Prop :=
  (s.queue q).Startable → (s.queue q).Armed ∨ ∃ f ∈ s.stack, f.Restarts q

/-- A queue that is marked as empty is. -/
def EmptyOk (s : State κ τ) : Prop :=
  ∀ q, (s.queue q).empty = true → (s.queue q).tasksActive = [] ∧ (s.queue q).tasksInactive = []

structure Woken (s : State κ τ) : Prop where
  empty : EmptyOk s
  armed : ∀ q, ArmedAt s q

section
variable {s s' : State κ τ} {q q' : κ} {t : τ} {running first : Bool} {fs : List (Frame κ τ)}
  {f : Frame κ τ}

omit [DecidableEq τ] in
theorem breaks_iff (q : Queue τ) : q.Breaks ↔ ¬ q.Startable := by
  unfold Queue.Breaks Queue.Startable
  rw [not_and_or, not_and_or, not_or, not_not, not_lt, Bool.not_eq_false]

/-! ## Frames -/

omit [DecidableEq κ] in
theorem restarts_del (q : κ) (t : τ) (f : Frame κ τ) : (f.del t).Restarts q ↔ f.Restarts q := by
  cases f <;> simp [Frame.Restarts, Frame.del]

omit [DecidableEq τ] in
theorem restarts_add (q q' : κ) (l : Which) (t : τ) (first : Bool) (f : Frame κ τ) :
    (f.add q' l t first).Restarts q ↔ f.Restarts q := by
  cases f <;> simp [Frame.Restarts, Frame.add]

omit [DecidableEq κ] [DecidableEq τ] in
/-- The queue is as before, and no frame that restarts it is gone. -/
theorem ArmedAt.keep (h : ArmedAt s q) (hqueue : s'.queue q = s.queue q)
    (hstack : ∀ f ∈ s.stack, f.Restarts q → ∃ f' ∈ s'.stack, f'.Restarts q) : ArmedAt s' q := by
  unfold ArmedAt
  rw [hqueue]
  intro hs
  rcases h hs with harmed | ⟨f, hf, hr⟩
  · exact .inl harmed
  · exact .inr (hstack f hf hr)

omit [DecidableEq κ] [DecidableEq τ] in
theorem ArmedAt.of_frame (hf : f ∈ s.stack) (hr : f.Restarts q) : ArmedAt s q :=
  fun _ => .inr ⟨f, hf, hr⟩

omit [DecidableEq κ] [DecidableEq τ] in
/-- Frames are put on the stack. -/
theorem Woken.push (h : Woken s) (fs : List (Frame κ τ)) (hqueue : s'.queue = s.queue)
    (hstack : s'.stack = fs ++ s.stack) : Woken s' := by
  constructor
  · intro q
    rw [hqueue]
    exact h.empty q
  · intro q
    refine (h.armed q).keep (by rw [hqueue]) fun f hf hr => ⟨f, ?_, hr⟩
    rw [hstack]
    exact List.mem_append_right fs hf

omit [DecidableEq κ] [DecidableEq τ] in
/-- A frame that restarts nothing is taken from the stack. -/
theorem Woken.pop (h : Woken s) (hstack : s.stack = f :: fs) (hf : ∀ q, ¬ f.Restarts q) :
    Woken { s with stack := fs } := by
  refine ⟨h.empty, fun q => (h.armed q).keep rfl fun f' hf' hr => ⟨f', ?_, hr⟩⟩
  rw [hstack] at hf'
  rcases List.mem_cons.1 hf' with rfl | hf'
  · exact absurd hr (hf q)
  · exact hf'

/-! ## `runqueue_start_next` -/

omit [DecidableEq τ] in
theorem startNext_empty (h : EmptyOk s) (q : κ) : EmptyOk (runqueueStartNext q s) := by
  unfold runqueueStartNext
  split_ifs
  · exact h
  · intro q' he
    by_cases hq : q' = q
    · subst hq
      simpa using h q' (by simpa using he)
    · simpa [hq] using h q' (by simpa [hq] using he)

omit [DecidableEq τ] in
/-- The queue's timer is set, unless the queue is empty. -/
theorem startNext_armed (h : EmptyOk s) (q : κ) : ArmedAt (runqueueStartNext q s) q := by
  unfold runqueueStartNext
  split_ifs with he
  · exact fun hs => absurd (h q he).2 hs.2.1
  · exact fun _ => .inl ⟨by simp, by simp⟩

omit [DecidableEq τ] in
theorem startNext_other (h : ArmedAt s q') (hq : q' ≠ q) : ArmedAt (runqueueStartNext q s) q' := by
  refine h.keep ?_ fun f hf hr => ⟨f, by rwa [startNext_stack], hr⟩
  unfold runqueueStartNext
  split_ifs
  · rfl
  · rw [setQueue_queue, if_neg hq]

omit [DecidableEq τ] in
theorem startNext_woken (hempty : EmptyOk s) (h : ∀ q', q' ≠ q → ArmedAt s q') :
    Woken (runqueueStartNext q s) := by
  refine ⟨startNext_empty hempty q, fun q' => ?_⟩
  by_cases hq : q' = q
  · exact hq ▸ startNext_armed hempty q
  · exact startNext_other (h q' hq) hq

/-! ## Tasks that leave and enter -/

omit [DecidableEq κ] in
theorem Accounts.not_active (h : Accounts s) (hq : q ≠ (s.task t).q) :
    (s.queue q).del t = s.queue q := by
  have hactive : t ∉ (s.queue q).tasksActive := fun ht => hq ((h.active q t).1 ht).2.2.symm
  have hinactive : t ∉ (s.queue q).tasksInactive := fun ht => hq ((h.inactive q t).1 ht).2.2.symm
  unfold Queue.del
  rw [List.erase_of_not_mem hactive, List.erase_of_not_mem hinactive]

theorem dequeue_empty (h : EmptyOk s) (t : τ) : EmptyOk (dequeue t s) := by
  intro q he
  have he' : (s.queue q).empty = true := by
    unfold dequeue at he
    dsimp only at he
    split_ifs at he
    · by_cases hq : q = (s.task t).q
      · subst hq
        simpa [Queue.del] using he
      · simpa [Queue.del, hq] using he
    · simpa [Queue.del] using he
  obtain ⟨hactive, hinactive⟩ := h q he'
  unfold dequeue
  dsimp only
  split_ifs
  · by_cases hq : q = (s.task t).q
    · subst hq
      simp [Queue.del, hactive, hinactive]
    · simp [Queue.del, hq, hactive, hinactive]
  · simp [Queue.del, hactive, hinactive]

theorem dequeue_other (h : ArmedAt s q) (hacc : Accounts s) (hq : q ≠ (s.task t).q) :
    ArmedAt (dequeue t s) q := by
  refine h.keep ?_ fun f hf hr => ⟨f.del t, ?_, (restarts_del q t f).2 hr⟩
  · have hsame := hacc.not_active hq
    unfold dequeue
    dsimp only
    split_ifs
    · simp [hq, hsame]
    · simp [hsame]
  · rw [dequeue_stack]
    exact List.mem_map_of_mem hf

theorem runqueueTaskComplete_woken (h : Woken s) (hacc : Accounts s) (t : τ) :
    Woken (runqueueTaskComplete t s) := by
  have hempty := dequeue_empty h.empty t
  have hother : ∀ q, q ≠ (s.task t).q → ArmedAt (dequeue t s) q := fun q hq =>
    dequeue_other (h.armed q) hacc hq
  unfold runqueueTaskComplete
  dsimp only
  split_ifs
  · exact h
  · refine ⟨hempty, fun q => ?_⟩
    by_cases hq : q = (s.task t).q
    · refine .of_frame (f := .completed q) ?_ (.inr rfl)
      simp [hq]
    · refine (hother q hq).keep rfl fun f hf hr => ⟨f, ?_, hr⟩
      exact List.mem_cons_of_mem _ (List.mem_cons_of_mem _ hf)
  · exact startNext_woken hempty hother

theorem runqueueTaskCancel_woken (h : Woken s) (hacc : Accounts s) (t : τ) (type : ℤ) :
    Woken (runqueueTaskCancel t type s) := by
  unfold runqueueTaskCancel
  dsimp only
  split_ifs
  · exact h
  · exact runqueueTaskComplete_woken h hacc t
  · exact h.push [.callback] rfl rfl
  · exact h.push [] rfl rfl
  · exact h.push [.callback] rfl rfl
  · exact h.push [] rfl rfl

theorem runqueueTaskKill_woken (h : Woken s) (hacc : Accounts s) (t : τ) :
    Woken (runqueueTaskKill t s) := by
  unfold runqueueTaskKill
  dsimp only
  split_ifs
  · exact h
  · exact h.push [.callback, .killed t] rfl rfl
  · exact runqueueTaskComplete_woken h hacc t

theorem taskTimeout_woken (h : Woken s) (hacc : Accounts s) (t : τ) : Woken (taskTimeout t s) := by
  unfold taskTimeout
  split_ifs
  · exact runqueueTaskKill_woken h hacc t
  · exact runqueueTaskCancel_woken h hacc t _

theorem runqueueTaskAdd_woken (h : Woken s) (q : κ) (t : τ) (running first : Bool) :
    Woken (runqueueTaskAdd q t running first s) := by
  unfold runqueueTaskAdd
  split_ifs
  · exact h
  · exact h
  · refine startNext_woken (fun q' he => ?_) fun q' hq => ?_
    · unfold enqueue at he ⊢
      by_cases hq : q' = q
      · simp [hq] at he
      · cases running <;> simpa [hq] using h.empty q' (by simpa [hq] using he)
    · refine (h.armed q').keep ?_ fun f hf hr => ?_
      · unfold enqueue
        cases running <;> simp [hq]
      · refine ⟨f.add q (if running then .active else .inactive) t first, ?_,
          (restarts_add q' q _ t first f).2 hr⟩
        unfold enqueue
        cases running <;> exact List.mem_map_of_mem hf

/-! ## The loop that starts tasks -/

theorem startTask_woken {rest : List τ} (h : Woken s) (hacc : Accounts s)
    (hstack : .startNext q ∈ s.stack) (hfirst : (s.queue q).tasksInactive = t :: rest) :
    Woken (startTask q t s) := by
  have htq : (s.task t).q = q := ((hacc.inactive q t).1 (by rw [hfirst]; exact List.mem_cons_self)).2.2
  have hstack' : (startTask q t s).stack =
      .callback :: (s.stack.map (.del t)).map (.add q .active t false) := by
    unfold startTask
    dsimp only
    split_ifs <;> rfl
  have hqueue : ∀ q', q' ≠ q → (startTask q t s).queue q' = s.queue q' := by
    intro q' hq
    have hsame := hacc.not_active (htq ▸ hq)
    unfold startTask
    dsimp only
    split_ifs
    · simp [hq, hsame]
    · simp [hq, hsame]
  have hnotEmpty : (s.queue q).empty = false := by
    by_contra he
    have := (h.empty q (by simpa using he)).2
    rw [hfirst] at this
    cases this
  have hempty : ((startTask q t s).queue q).empty = (s.queue q).empty := by
    unfold startTask
    dsimp only
    split_ifs
    · simp [Queue.add, Queue.del]
    · simp [Queue.add, Queue.del]
  have hmem : ∀ f ∈ s.stack, (f.del t).add q .active t false ∈ (startTask q t s).stack := by
    intro f hf
    rw [hstack']
    exact List.mem_cons_of_mem _ (List.mem_map_of_mem (List.mem_map_of_mem hf))
  constructor
  · intro q' he
    by_cases hq : q' = q
    · rw [hq, hempty, hnotEmpty] at he
      cases he
    · rw [hqueue q' hq] at he ⊢
      exact h.empty q' he
  · intro q'
    by_cases hq : q' = q
    · exact .of_frame (hmem _ hstack) (.inl (by rw [hq]; rfl))
    · refine (h.armed q').keep (hqueue q' hq) fun f hf hr => ⟨_, hmem f hf, ?_⟩
      exact (restarts_add q' q _ t false _).2 ((restarts_del q' t f).2 hr)

omit [DecidableEq τ] in
/-- The loop ends when there is nothing to start. -/
theorem startNextEnd_woken (h : Woken s) (hstack : s.stack = .startNext q :: fs)
    (hbreaks : (s.queue q).Breaks) : Woken (startNextEnd q { s with stack := fs }) := by
  have hother : ∀ q', q' ≠ q → ArmedAt { s with stack := fs } q' := by
    intro q' hq
    refine (h.armed q').keep rfl fun f hf hr => ⟨f, ?_, hr⟩
    rw [hstack] at hf
    rcases List.mem_cons.1 hf with rfl | hf
    · rcases hr with heq | heq
      · injection heq with heq
        exact absurd heq.symm hq
      · cases heq
    · exact hf
  unfold startNextEnd
  dsimp only
  split_ifs with hnone
  · refine ⟨fun q' he => ?_, fun q' => ?_⟩
    · by_cases hq : q' = q
      · subst hq
        rw [setQueue_queue, if_pos rfl]
        split_ifs
        · exact hnone.2
        · exact hnone.2
      · simp only [setQueue_queue, if_neg hq] at he ⊢
        exact h.empty q' he
    · by_cases hq : q' = q
      · subst hq
        intro hs
        refine absurd ?_ hs.2.1
        rw [setQueue_queue, if_pos rfl]
        split_ifs
        · exact hnone.2.2
        · exact hnone.2.2
      · refine (hother q' hq).keep ?_ fun f hf hr => ⟨f, hf, hr⟩
        rw [setQueue_queue, if_neg hq]
  · refine ⟨h.empty, fun q' => ?_⟩
    by_cases hq : q' = q
    · subst hq
      exact fun hs => absurd hs ((breaks_iff _).1 hbreaks)
    · exact hother q' hq

/-! ## Steps -/

theorem call_woken {c : Call κ τ} (h : Woken s) (hacc : Accounts s) (hstep : call s c = some s') :
    Woken s' := by
  cases c with
  | add q t running first =>
    obtain rfl := Option.some.inj hstep
    exact runqueueTaskAdd_woken h q t running first
  | complete t =>
    obtain rfl := Option.some.inj hstep
    exact runqueueTaskComplete_woken h hacc t
  | cancelTask t type =>
    obtain rfl := Option.some.inj hstep
    exact runqueueTaskCancel_woken h hacc t type
  | killTask t =>
    obtain rfl := Option.some.inj hstep
    exact runqueueTaskKill_woken h hacc t
  | cancelActive q =>
    obtain rfl := Option.some.inj hstep
    exact h.push [_] rfl rfl
  | cancelPending q =>
    obtain rfl := Option.some.inj hstep
    exact h.push [_] rfl rfl
  | cancel q =>
    obtain rfl := Option.some.inj hstep
    exact h.push [_, _] rfl rfl
  | kill q =>
    obtain rfl := Option.some.inj hstep
    exact h.push [_] rfl rfl
  | stop q =>
    obtain rfl := Option.some.inj hstep
    refine ⟨fun q' he => ?_, fun q' => ?_⟩
    · by_cases hq : q' = q
      · simpa [hq] using h.empty q (by simpa [hq] using he)
      · simpa [hq] using h.empty q' (by simpa [hq] using he)
    · by_cases hq : q' = q
      · exact fun hs => by simp [hq, Queue.Startable] at hs
      · exact (h.armed q').keep (by simp [hq]) fun f hf hr => ⟨f, hf, hr⟩
  | resume q =>
    obtain rfl := Option.some.inj hstep
    refine startNext_woken (fun q' he => ?_) fun q' hq => ?_
    · by_cases hq : q' = q
      · simpa [hq] using h.empty q (by simpa [hq] using he)
      · simpa [hq] using h.empty q' (by simpa [hq] using he)
    · exact (h.armed q').keep (by simp [hq]) fun f hf hr => ⟨f, hf, hr⟩
  | timer q =>
    have hempty : EmptyOk (s.setQueue q fun r => { r with timerPending := false }) := by
      intro q' he
      by_cases hq : q' = q
      · simpa [hq] using h.empty q (by simpa [hq] using he)
      · simpa [hq] using h.empty q' (by simpa [hq] using he)
    simp only [call] at hstep
    split_ifs at hstep
    split at hstep
    · obtain rfl := Option.some.inj hstep
      refine ⟨hempty, fun q' => ?_⟩
      by_cases hq : q' = q
      · exact .of_frame (f := .startNext q) (by simp) (.inl (by rw [hq]))
      · exact (h.armed q').keep (by simp [hq]) fun f hf hr => ⟨f, List.mem_cons_of_mem _ hf, hr⟩
    · next hcb =>
      obtain rfl := Option.some.inj hstep
      refine ⟨hempty, fun q' => ?_⟩
      by_cases hq : q' = q
      · subst hq
        -- the timer was set for the empty queue, so a frame restarts it if anything does
        intro hs
        rcases h.armed q' (by simpa [Queue.Startable] using hs) with harmed | ⟨f, hf, hr⟩
        · have hcb' : (s.queue q').timerCb = .empty := by simpa using hcb
          rw [harmed.2] at hcb'
          cases hcb'
        · exact .inr ⟨f, List.mem_cons_of_mem _ hf, hr⟩
      · exact (h.armed q').keep (by simp [hq]) fun f hf hr => ⟨f, List.mem_cons_of_mem _ hf, hr⟩
  | taskTimer t =>
    simp only [call] at hstep
    split_ifs at hstep
    obtain rfl := Option.some.inj hstep
    have hwoken : Woken (s.setTask t fun x => { x with timerPending := false }) :=
      h.push [] rfl rfl
    refine taskTimeout_woken hwoken (hacc.same (.setTask ?_ ?_ ?_)) t
    · exact fun _ => rfl
    · exact fun _ => rfl
    · exact fun _ => rfl

/-- At the end of `runqueue_kill` no task could be started, or a frame below restarts the queue. -/
def Orderly (s : State κ τ) (a : Act κ τ) : Prop :=
  ∀ q fs, a = .go → s.stack = .killEnd q :: fs →
    (s.queue q).Breaks ∨ ∃ f ∈ fs, f.Restarts q

theorem resume_woken (h : Woken s) (hacc : Accounts s) (hstack : s.stack = f :: fs)
    (hkill : ∀ q, f = .killEnd q → (s.queue q).Breaks ∨ ∃ f ∈ fs, f.Restarts q)
    (hstep : resume s fs f = some s') : Woken s' := by
  have hacc' : Accounts { s with stack := fs } := hacc.same (.of_eq rfl rfl)
  cases f with
  | callback => cases hstep
  | startNext q =>
    simp only [resume] at hstep
    split at hstep
    · next hnil =>
      obtain rfl := Option.some.inj hstep
      exact startNextEnd_woken h hstack (.inr (.inl hnil))
    · next t rest hfirst =>
      split_ifs at hstep with hbreaks
      · obtain rfl := Option.some.inj hstep
        exact startNextEnd_woken h hstack hbreaks
      · obtain rfl := Option.some.inj hstep
        exact startTask_woken h hacc (by rw [hstack]; exact List.mem_cons_self) hfirst
  | completed q =>
    obtain rfl := Option.some.inj hstep
    refine startNext_woken h.empty fun q' hq => (h.armed q').keep rfl fun f hf hr => ⟨f, ?_, hr⟩
    rw [hstack] at hf
    rcases List.mem_cons.1 hf with rfl | hf
    · rcases hr with heq | heq
      · cases heq
      · injection heq with heq
        exact absurd heq.symm hq
    · exact hf
  | killed t =>
    obtain rfl := Option.some.inj hstep
    exact runqueueTaskComplete_woken (h.pop hstack (by simp [Frame.Restarts])) hacc' t
  | forEach q l rest =>
    have hpop := h.pop hstack (by simp [Frame.Restarts])
    cases rest with
    | nil =>
      obtain rfl := Option.some.inj hstep
      exact hpop
    | cons t rest =>
      obtain rfl := Option.some.inj hstep
      have hpush : Woken { s with stack := .forEach q l rest :: fs } :=
        hpop.push [.forEach q l rest] rfl rfl
      exact runqueueTaskCancel_woken hpush (hacc.same (.of_eq rfl rfl)) t 0
  | cancelActive q =>
    obtain rfl := Option.some.inj hstep
    exact (h.pop hstack (by simp [Frame.Restarts])).push [_] rfl rfl
  | killLoop q =>
    simp only [resume] at hstep
    split at hstep
    · obtain rfl := Option.some.inj hstep
      exact (h.pop hstack (by simp [Frame.Restarts])).push [_, _] rfl rfl
    · obtain rfl := Option.some.inj hstep
      exact runqueueTaskKill_woken h hacc _
  | killEnd q =>
    obtain rfl := Option.some.inj hstep
    have hpop := h.pop hstack (by simp [Frame.Restarts])
    refine ⟨fun q' he => ?_, fun q' => ?_⟩
    · by_cases hq : q' = q
      · simpa [hq] using h.empty q (by simpa [hq] using he)
      · simpa [hq] using h.empty q' (by simpa [hq] using he)
    · by_cases hq : q' = q
      · subst hq
        rcases hkill q' rfl with hbreaks | ⟨f, hf, hr⟩
        · intro hs
          refine absurd ?_ ((breaks_iff _).1 hbreaks)
          simpa [Queue.Startable] using hs
        · exact .of_frame hf hr
      · exact (hpop.armed q').keep (by simp [hq]) fun f hf hr => ⟨f, hf, hr⟩

theorem step_woken {a : Act κ τ} (h : Woken s) (hacc : Accounts s) (hok : Orderly s a)
    (hstep : step s a = some s') : Woken s' := by
  unfold step at hstep
  split at hstep
  · exact call_woken h hacc hstep
  · exact call_woken h hacc hstep
  · next hstack =>
    obtain rfl := Option.some.inj hstep
    exact h.pop hstack (by simp [Frame.Restarts])
  · next f fs hstack =>
    exact resume_woken h hacc hstack (fun q hf => hok q fs rfl (hf ▸ hstack)) hstep
  · cases hstep

omit [DecidableEq κ] [DecidableEq τ] in
theorem Initial.woken (h : Initial s) : Woken s :=
  ⟨fun q _ => ⟨(h.queues q).1, (h.queues q).2.1⟩, fun q hs => absurd (h.queues q).2.1 hs.2.1⟩

theorem Reaches.woken (h : Reaches Orderly s) : Woken s := by
  induction h with
  | init h => exact h.woken
  | step hreach hok hstep ih => exact step_woken ih hreach.accounts hok hstep

/-- At the end of a kill that the program calls outside of callbacks. -/
theorem killEnd_iff (hstack : s.stack = [.killEnd q]) (hstep : step s .go = some s') :
    ((s'.queue q).Startable → (s'.queue q).Armed) ↔ (s.queue q).Breaks := by
  unfold step at hstep
  rw [hstack] at hstep
  obtain rfl := Option.some.inj hstep
  rw [breaks_iff]
  simp [Queue.Armed, Queue.Startable]

end

/-- **Wakeup.** In every run in which `runqueue_kill` clears the timer only when no task could be
    started, or below a function that restarts the queue, a queue with a task that could be started
    has its timer set to start it, outside of all functions. Outside of callbacks this is exactly
    what a kill needs. -/
theorem runqueue_wakeup :
    (∀ s : State κ τ, Reaches Orderly s → s.stack = [] → ∀ q, (s.queue q).Startable →
      (s.queue q).Armed) ∧
    ∀ (s s' : State κ τ) q, s.stack = [.killEnd q] → step s .go = some s' →
      (((s'.queue q).Startable → (s'.queue q).Armed) ↔ (s.queue q).Breaks) := by
  refine ⟨fun s h hstack q hs => ?_, fun s s' q hstack hstep => killEnd_iff hstack hstep⟩
  rcases h.woken.armed q hs with harmed | ⟨f, hf, -⟩
  · exact harmed
  · rw [hstack] at hf
    cases hf

/-- A task is added, killed, and another one added. -/
theorem runqueue_wakeup_kill : ∃ s : State Unit ℕ, Reaches Orderly s ∧
    (s.queue ()).tasksInactive = [1] ∧ (s.queue ()).Armed := by
  have h₀ : Reaches Orderly (emptyState 0) := .init (emptyState_initial 0)
  have h₁ := h₀.step (a := .call (.add () 0 false false)) (fun _ _ ha => nomatch ha) rfl
  have h₂ := h₁.step (a := .call (.kill ())) (fun _ _ ha => nomatch ha) rfl
  have h₃ := h₂.step (a := .go) (fun _ _ _ hs => nomatch hs) rfl
  have h₄ := h₃.step (a := .go) (fun _ _ _ hs => nomatch hs) rfl
  have h₅ := h₄.step (a := .ret) (fun _ _ ha => nomatch ha) rfl
  have h₆ := h₅.step (a := .go) (fun _ _ _ hs => nomatch hs) rfl
  have h₇ := h₆.step (a := .go) (fun _ _ _ hs => nomatch hs) rfl
  have h₈ := h₇.step (a := .go) (fun _ _ _ _ => .inl (.inr (.inl rfl))) rfl
  have h₉ := h₈.step (a := .call (.add () 1 false false)) (fun _ _ ha => nomatch ha) rfl
  exact ⟨_, h₉, rfl, runqueue_wakeup.1 _ h₉ rfl () ⟨rfl, nofun, .inl rfl⟩⟩

/-- A task is added when the last one is completed by `runqueue_kill`: the timer is cleared. -/
theorem kill_forgets : ¬ ∀ s : State Unit ℕ, Reaches (fun _ _ => True) s → s.stack = [] →
    ∀ q, (s.queue q).Startable → (s.queue q).Armed := by
  intro h
  have hrun : (run [.call (.add () 0 false false), .call (.kill ()), .go, .go,
      .call (.add () 1 false false), .ret, .go, .go, .go] (emptyState 0)).map (fun s =>
        (s.stack, (s.queue ()).stopped, (s.queue ()).tasksInactive, (s.queue ()).maxRunningTasks,
          (s.queue ()).timerPending)) = some ([], false, [1], 0, false) := by
    decide
  obtain ⟨s, hs, heq⟩ := Option.map_eq_some_iff.1 hrun
  simp only [Prod.mk.injEq] at heq
  obtain ⟨hstack, hstopped, hinactive, hmax, hpending⟩ := heq
  have harmed := h s ((Reaches.init (emptyState_initial 0)).run hs) hstack ()
    ⟨hstopped, by simp [hinactive], .inl hmax⟩
  rw [harmed.1] at hpending
  cases hpending

end Runqueue
