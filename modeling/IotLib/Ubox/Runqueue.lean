/-
  The runqueue (runqueue.c): tasks that wait to be run, a limited number of them at a time.

  The callbacks of a task may call any function of the runqueue. A function that waits for a
  callback to return leaves a frame on the stack, and so does each callback that runs; between
  callbacks the functions run without interruption.
-/
import IotLib.Lib.Worklist

namespace Runqueue

open Worklist

variable {κ τ : Type} [DecidableEq κ] [DecidableEq τ]

/-- The callback of a queue's timer. -/
inductive TimerCb where
  | startNext
  | empty
  deriving DecidableEq, Repr

/-- `struct runqueue`. -/
structure Queue (τ : Type) where
  tasksActive : List τ
  tasksInactive : List τ
  timerPending : Bool
  timerCb : TimerCb
  runningTasks : ℤ
  maxRunningTasks : ℤ
  stopped : Bool
  empty : Bool
  hasEmptyCb : Bool

/-- `struct runqueue_task`, and which callbacks its type and itself have. The timer is set only when
    its callback is `__runqueue_task_timeout`. -/
structure Task (κ : Type) where
  q : κ
  hasRun : Bool
  hasCancel : Bool
  hasKill : Bool
  hasComplete : Bool
  timerPending : Bool
  runTimeout : ℤ
  cancelTimeout : ℤ
  cancelType : ℤ
  queued : Bool
  running : Bool
  cancelled : Bool

/-- The two lists of a queue. -/
inductive Which where
  | active
  | inactive
  deriving DecidableEq, Repr

def Queue.list (q : Queue τ) : Which → List τ
  | .active => q.tasksActive
  | .inactive => q.tasksInactive

/-- What is on the stack: callbacks, and functions that go on when the frames above return. -/
inductive Frame (κ τ : Type) where
  /-- A callback of the program. -/
  | callback
  /-- The loop of `__runqueue_start_next`. -/
  | startNext (q : κ)
  /-- `runqueue_task_complete` behind the callback. -/
  | completed (q : κ)
  /-- `runqueue_task_kill` behind the callback. -/
  | killed (t : τ)
  /-- `safe_list_for_each` with `__runqueue_cancel`, and what it has still to visit. -/
  | forEach (q : κ) (l : Which) (rest : List τ)
  /-- `runqueue_cancel` behind `runqueue_cancel_pending`. -/
  | cancelActive (q : κ)
  /-- The loop of `runqueue_kill`. -/
  | killLoop (q : κ)
  /-- `runqueue_kill` behind `runqueue_cancel_pending`. -/
  | killEnd (q : κ)
  deriving DecidableEq, Repr

/-- The calls of callbacks. -/
inductive Event (κ τ : Type) where
  | run (q : κ) (t : τ)
  | cancel (q : κ) (t : τ) (type : ℤ)
  | kill (q : κ) (t : τ)
  | complete (q : κ) (t : τ)
  | empty (q : κ)
  deriving DecidableEq, Repr

structure State (κ τ : Type) where
  queue : κ → Queue τ
  task : τ → Task κ
  stack : List (Frame κ τ)
  log : List (Event κ τ)

namespace State

variable (s : State κ τ)

def setQueue (q : κ) (f : Queue τ → Queue τ) : State κ τ :=
  { s with queue := Function.update s.queue q (f (s.queue q)) }

def setTask (t : τ) (f : Task κ → Task κ) : State κ τ :=
  { s with task := Function.update s.task t (f (s.task t)) }

def push (fs : List (Frame κ τ)) : State κ τ := { s with stack := fs ++ s.stack }

/-- A callback is called. -/
def call (e : Event κ τ) : State κ τ :=
  { s with stack := .callback :: s.stack, log := s.log ++ [e] }

end State

/-! ## Lists -/

/-- `safe_list_del`, for the list that an element is on: the iterations that come to it next move
    on. -/
def Queue.del (t : τ) (q : Queue τ) : Queue τ :=
  { q with tasksActive := q.tasksActive.erase t, tasksInactive := q.tasksInactive.erase t }

def Frame.del (t : τ) : Frame κ τ → Frame κ τ
  | .forEach q l rest => .forEach q l (rest.erase t)
  | f => f

def safeListDel (t : τ) (s : State κ τ) : State κ τ :=
  { s with queue := fun q => (s.queue q).del t, stack := s.stack.map (.del t) }

/-- `safe_list_add` and `safe_list_add_first`. -/
def addTo (c : List τ) (t : τ) (first : Bool) : List τ := if first then t :: c else c ++ [t]

def Queue.add (l : Which) (t : τ) (first : Bool) (q : Queue τ) : Queue τ :=
  match l with
  | .active => { q with tasksActive := addTo q.tasksActive t first }
  | .inactive => { q with tasksInactive := addTo q.tasksInactive t first }

def Frame.add (q : κ) (l : Which) (t : τ) (first : Bool) : Frame κ τ → Frame κ τ
  | .forEach q' l' rest =>
    .forEach q' l' (if q' = q ∧ l' = l ∧ first = false then grow rest t else rest)
  | f => f

def safeListAdd (q : κ) (l : Which) (t : τ) (first : Bool) (s : State κ τ) : State κ τ :=
  { s.setQueue q (.add l t first) with stack := s.stack.map (.add q l t first) }

/-! ## The functions of a queue -/

/-- `runqueue_start_next`. -/
def runqueueStartNext (q : κ) (s : State κ τ) : State κ τ :=
  if (s.queue q).empty then s
  else s.setQueue q fun r => { r with timerCb := .startNext, timerPending := true }

/-- The loop of `__runqueue_start_next` ends here. -/
def Queue.Breaks (q : Queue τ) : Prop :=
  q.stopped = true ∨ q.tasksInactive = [] ∨
    (q.maxRunningTasks ≠ 0 ∧ q.runningTasks ≥ q.maxRunningTasks)

instance (q : Queue τ) : Decidable q.Breaks := inferInstanceAs (Decidable (_ ∨ _ ∨ _))

/-- `__runqueue_start_next` behind the loop. -/
def startNextEnd (q : κ) (s : State κ τ) : State κ τ :=
  let r := s.queue q
  if r.empty = false ∧ r.tasksActive = [] ∧ r.tasksInactive = [] then
    s.setQueue q fun r =>
      if r.hasEmptyCb then { r with empty := true, timerCb := .empty, timerPending := true }
      else { r with empty := true }
  else s

/-- The body of the loop of `__runqueue_start_next`, up to the callback. -/
def startTask (q : κ) (t : τ) (s : State κ τ) : State κ τ :=
  let s := safeListAdd q .active t false (safeListDel t s)
  let s := s.setTask t fun x => { x with running := true }
  let s := s.setQueue q fun r => { r with runningTasks := r.runningTasks + 1 }
  let s := if (s.task t).runTimeout ≠ 0 then s.setTask t fun x => { x with timerPending := true }
    else s
  s.call (.run q t)

/-! ## The functions of a task -/

/-- `runqueue_task_complete`, up to the callback. -/
def dequeue (t : τ) (s : State κ τ) : State κ τ :=
  let s := if (s.task t).running then
      s.setQueue (s.task t).q fun r => { r with runningTasks := r.runningTasks - 1 }
    else s
  let s := s.setTask t fun x => { x with timerPending := false }
  let s := safeListDel t s
  s.setTask t fun x => { x with queued := false, running := false, cancelled := false }

/-- `runqueue_task_complete`. -/
def runqueueTaskComplete (t : τ) (s : State κ τ) : State κ τ :=
  let q := (s.task t).q
  if (s.task t).queued = false then s
  else
    let s := dequeue t s
    if (s.task t).hasComplete then (s.push [.completed q]).call (.complete q t)
    else runqueueStartNext q s

/-- `runqueue_task_cancel`. -/
def runqueueTaskCancel (t : τ) (type : ℤ) (s : State κ τ) : State κ τ :=
  if (s.task t).queued = false then s
  else if (s.task t).running = false then runqueueTaskComplete t s
  else
    let s := s.setTask t fun x => { x with cancelled := true }
    let s := if (s.task t).cancelTimeout ≠ 0 then
        s.setTask t fun x => { x with timerPending := true }
      else s
    if (s.task t).hasCancel then s.call (.cancel (s.task t).q t type) else s

/-- `runqueue_task_kill`. -/
def runqueueTaskKill (t : τ) (s : State κ τ) : State κ τ :=
  let q := (s.task t).q
  let running := (s.task t).running
  if (s.task t).queued = false then s
  else if running = true ∧ (s.task t).hasKill = true then (s.push [.killed t]).call (.kill q t)
  else runqueueTaskComplete t s

/-- `_runqueue_task_add`, behind its checks and up to `runqueue_start_next`. -/
def enqueue (q : κ) (t : τ) (running first : Bool) (s : State κ τ) : State κ τ :=
  let s := if running then s.setQueue q fun r => { r with runningTasks := r.runningTasks + 1 }
    else s
  let s := s.setTask t fun x => { x with q := q }
  let s := safeListAdd q (if running then .active else .inactive) t first s
  let s := s.setTask t fun x => { x with cancelled := false, queued := true, running := running }
  s.setQueue q fun r => { r with empty := false }

/-- `_runqueue_task_add`. -/
def runqueueTaskAdd (q : κ) (t : τ) (running first : Bool) (s : State κ τ) : State κ τ :=
  if (s.task t).queued then s
  else if (s.task t).hasRun = false ∧ running = false then s
  else runqueueStartNext q (enqueue q t running first s)

/-- `__runqueue_task_timeout`. -/
def taskTimeout (t : τ) (s : State κ τ) : State κ τ :=
  if (s.task t).cancelled then runqueueTaskKill t s
  else runqueueTaskCancel t (s.task t).cancelType s

/-! ## Steps -/

/-- A call that the program makes, or a timer that the event loop finds expired. -/
inductive Call (κ τ : Type) where
  | add (q : κ) (t : τ) (running first : Bool)
  | complete (t : τ)
  | cancelTask (t : τ) (type : ℤ)
  | killTask (t : τ)
  | cancelActive (q : κ)
  | cancelPending (q : κ)
  | cancel (q : κ)
  | kill (q : κ)
  | stop (q : κ)
  | resume (q : κ)
  | timer (q : κ)
  | taskTimer (t : τ)
  deriving DecidableEq, Repr

/-- `safe_list_for_each` with `__runqueue_cancel`. -/
def forEachCancel (q : κ) (l : Which) (s : State κ τ) : State κ τ :=
  s.push [.forEach q l ((s.queue q).list l)]

def call (s : State κ τ) : Call κ τ → Option (State κ τ)
  | .add q t running first => some (runqueueTaskAdd q t running first s)
  | .complete t => some (runqueueTaskComplete t s)
  | .cancelTask t type => some (runqueueTaskCancel t type s)
  | .killTask t => some (runqueueTaskKill t s)
  | .cancelActive q => some (forEachCancel q .active s)
  | .cancelPending q => some (forEachCancel q .inactive s)
  | .cancel q => some (forEachCancel q .inactive (s.push [.cancelActive q]))
  | .kill q => some (s.push [.killLoop q])
  | .stop q => some (s.setQueue q fun r => { r with stopped := true })
  | .resume q => some (runqueueStartNext q (s.setQueue q fun r => { r with stopped := false }))
  | .timer q =>
    if (s.queue q).timerPending = false then none
    else
      let s := s.setQueue q fun r => { r with timerPending := false }
      match (s.queue q).timerCb with
      | .startNext => some (s.push [.startNext q])
      | .empty => some (s.call (.empty q))
  | .taskTimer t =>
    if (s.task t).timerPending = false then none
    else some (taskTimeout t (s.setTask t fun x => { x with timerPending := false }))

/-- A function goes on; `fs` are the frames below its own. -/
def resume (s : State κ τ) (fs : List (Frame κ τ)) : Frame κ τ → Option (State κ τ)
  | .callback => none
  | .startNext q =>
    match (s.queue q).tasksInactive with
    | [] => some (startNextEnd q { s with stack := fs })
    | t :: _ =>
      if (s.queue q).Breaks then some (startNextEnd q { s with stack := fs })
      else some (startTask q t s)
  | .completed q => some (runqueueStartNext q { s with stack := fs })
  | .killed t => some (runqueueTaskComplete t { s with stack := fs })
  | .forEach q l rest =>
    match rest with
    | [] => some { s with stack := fs }
    | t :: rest => some (runqueueTaskCancel t 0 { s with stack := .forEach q l rest :: fs })
  | .cancelActive q => some (forEachCancel q .active { s with stack := fs })
  | .killLoop q =>
    match (s.queue q).tasksActive with
    | [] => some (forEachCancel q .inactive { s with stack := .killEnd q :: fs })
    | t :: _ => some (runqueueTaskKill t s)
  | .killEnd q =>
    some (({ s with stack := fs } : State κ τ).setQueue q fun r => { r with timerPending := false })

/-- What happens next: a call from the program or from one of its callbacks, the return of a
    callback, or that a function of the runqueue goes on. -/
inductive Act (κ τ : Type) where
  | call (c : Call κ τ)
  | ret
  | go
  deriving DecidableEq, Repr

def step (s : State κ τ) (a : Act κ τ) : Option (State κ τ) :=
  match s.stack, a with
  | [], .call c => call s c
  | .callback :: _, .call c => call s c
  | .callback :: fs, .ret => some { s with stack := fs }
  | f :: fs, .go => resume s fs f
  | _, _ => none

/-- Queues without tasks, and tasks that are on no queue. -/
structure Initial (s : State κ τ) : Prop where
  stack : s.stack = []
  log : s.log = []
  queues : ∀ q, (s.queue q).tasksActive = [] ∧ (s.queue q).tasksInactive = [] ∧
    (s.queue q).timerPending = false ∧ (s.queue q).runningTasks = 0
  tasks : ∀ t, (s.task t).queued = false ∧ (s.task t).running = false ∧
    (s.task t).timerPending = false

/-- The states of the runs whose steps meet the condition `ok` on the state before. -/
inductive Reaches (ok : State κ τ → Act κ τ → Prop) : State κ τ → Prop where
  | init {s : State κ τ} (h : Initial s) : Reaches ok s
  | step {s s' : State κ τ} {a : Act κ τ} (h : Reaches ok s) (hok : ok s a)
    (hstep : step s a = some s') : Reaches ok s'

/-! ## Fields after a change -/

section
variable (s : State κ τ) (q q' : κ) (t u : τ)

omit [DecidableEq τ] in
@[simp] theorem setQueue_queue (f : Queue τ → Queue τ) :
    (s.setQueue q f).queue q' = if q' = q then f (s.queue q') else s.queue q' := by
  by_cases h : q' = q
  · subst h
    simp [State.setQueue]
  · simp [State.setQueue, h]

omit [DecidableEq τ] in
@[simp] theorem setQueue_task (f : Queue τ → Queue τ) : (s.setQueue q f).task = s.task := rfl

omit [DecidableEq τ] in
@[simp] theorem setQueue_stack (f : Queue τ → Queue τ) : (s.setQueue q f).stack = s.stack := rfl

omit [DecidableEq τ] in
@[simp] theorem setQueue_log (f : Queue τ → Queue τ) : (s.setQueue q f).log = s.log := rfl

omit [DecidableEq κ] in
@[simp] theorem setTask_task (f : Task κ → Task κ) :
    (s.setTask t f).task u = if u = t then f (s.task u) else s.task u := by
  by_cases h : u = t
  · subst h
    simp [State.setTask]
  · simp [State.setTask, h]

omit [DecidableEq κ] in
@[simp] theorem setTask_queue (f : Task κ → Task κ) : (s.setTask t f).queue = s.queue := rfl

omit [DecidableEq κ] in
@[simp] theorem setTask_stack (f : Task κ → Task κ) : (s.setTask t f).stack = s.stack := rfl

omit [DecidableEq κ] in
@[simp] theorem setTask_log (f : Task κ → Task κ) : (s.setTask t f).log = s.log := rfl

omit [DecidableEq κ] in
@[simp] theorem safeListDel_queue : (safeListDel t s).queue q = (s.queue q).del t := rfl

omit [DecidableEq κ] in
@[simp] theorem safeListDel_task : (safeListDel t s).task = s.task := rfl

omit [DecidableEq κ] in
@[simp] theorem safeListDel_stack : (safeListDel t s).stack = s.stack.map (.del t) := rfl

omit [DecidableEq κ] in
@[simp] theorem safeListDel_log : (safeListDel t s).log = s.log := rfl

omit [DecidableEq τ] in
@[simp] theorem safeListAdd_queue (l : Which) (first : Bool) :
    (safeListAdd q l t first s).queue q' =
      if q' = q then (s.queue q').add l t first else s.queue q' :=
  setQueue_queue s q q' (.add l t first)

omit [DecidableEq τ] in
@[simp] theorem safeListAdd_task (l : Which) (first : Bool) :
    (safeListAdd q l t first s).task = s.task := rfl

omit [DecidableEq τ] in
@[simp] theorem safeListAdd_stack (l : Which) (first : Bool) :
    (safeListAdd q l t first s).stack = s.stack.map (.add q l t first) := rfl

omit [DecidableEq τ] in
@[simp] theorem safeListAdd_log (l : Which) (first : Bool) :
    (safeListAdd q l t first s).log = s.log := rfl

omit [DecidableEq κ] [DecidableEq τ]

@[simp] theorem push_queue (fs : List (Frame κ τ)) : (s.push fs).queue = s.queue := rfl

@[simp] theorem push_task (fs : List (Frame κ τ)) : (s.push fs).task = s.task := rfl

@[simp] theorem push_stack (fs : List (Frame κ τ)) : (s.push fs).stack = fs ++ s.stack := rfl

@[simp] theorem push_log (fs : List (Frame κ τ)) : (s.push fs).log = s.log := rfl

@[simp] theorem call_queue (e : Event κ τ) : (s.call e).queue = s.queue := rfl

@[simp] theorem call_task (e : Event κ τ) : (s.call e).task = s.task := rfl

@[simp] theorem call_stack (e : Event κ τ) : (s.call e).stack = .callback :: s.stack := rfl

@[simp] theorem call_log (e : Event κ τ) : (s.call e).log = s.log ++ [e] := rfl

end

/-! ## Runs on given steps -/

/-- The state after these steps. -/
def run : List (Act κ τ) → State κ τ → Option (State κ τ)
  | [], s => some s
  | a :: as, s => (step s a).bind (run as)

theorem Reaches.run {s s' : State κ τ} {as : List (Act κ τ)} (h : Reaches (fun _ _ => True) s)
    (heq : run as s = some s') : Reaches (fun _ _ => True) s' := by
  induction as generalizing s with
  | nil => exact Option.some.inj heq ▸ h
  | cons a as ih =>
    obtain ⟨s₁, hstep, heq⟩ := Option.bind_eq_some_iff.1 heq
    exact ih (h.step trivial hstep) heq

/-- A queue without tasks. -/
def emptyQueue (maxRunningTasks : ℤ) : Queue τ where
  tasksActive := []
  tasksInactive := []
  timerPending := false
  timerCb := .startNext
  runningTasks := 0
  maxRunningTasks := maxRunningTasks
  stopped := false
  empty := false
  hasEmptyCb := false

/-- A task with all callbacks that is on no queue. -/
def freeTask (q : κ) : Task κ where
  q := q
  hasRun := true
  hasCancel := true
  hasKill := true
  hasComplete := true
  timerPending := false
  runTimeout := 0
  cancelTimeout := 0
  cancelType := 0
  queued := false
  running := false
  cancelled := false

/-- One queue, and such tasks. -/
def emptyState (maxRunningTasks : ℤ) : State Unit ℕ :=
  ⟨fun _ => emptyQueue maxRunningTasks, fun _ => freeTask (), [], []⟩

theorem emptyState_initial (maxRunningTasks : ℤ) : Initial (emptyState maxRunningTasks) :=
  ⟨rfl, rfl, fun _ => ⟨rfl, rfl, rfl, rfl⟩, fun _ => ⟨rfl, rfl, rfl⟩⟩

end Runqueue
