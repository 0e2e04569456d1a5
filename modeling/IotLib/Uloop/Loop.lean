/-
  The descriptors of the event loop (uloop.c, uloop-epoll.c).

  A run is a sequence of calls: what the program does while it has control (in a callback, in a
  timer or outside of the loop), an iteration of some running `uloop_run_timeout`, and the return of
  the callback that runs. Loops nest, since an iteration may come while callbacks are running.
-/
import IotLib.Lib.Run

namespace Uloop

/-- A `struct uloop_fd`, by address. -/
abbrev FdId := ℕ

abbrev ULOOP_READ : UInt32 := 1
abbrev ULOOP_WRITE : UInt32 := 2
abbrev ULOOP_EDGE_TRIGGER : UInt32 := 4
abbrev ULOOP_EVENT_MASK : UInt32 := ULOOP_READ ||| ULOOP_WRITE
abbrev ULOOP_EVENT_BUFFERED : UInt32 := 16
abbrev ULOOP_ERROR_CB : UInt32 := 64

/-- `struct uloop_fd`; `cb` says that there is a callback. -/
structure UloopFd where
  cb : Bool
  eof : Bool
  error : Bool
  registered : Bool
  flags : UInt32

/-- `struct uloop_fd_stack`. -/
structure UloopFdStack where
  fd : Option FdId
  events : UInt32

/-- What `epoll_wait` reports; `err` stands for `EPOLLERR | EPOLLHUP`. -/
structure EpollEvent where
  fd : FdId
  err : Bool
  rdhup : Bool
  readable : Bool
  writable : Bool

/-- The state of the loop. `curFds` are the entries of `cur_fds` that are left, from `cur_fd` on;
    `polled` is the interest list of the kernel. The callbacks invoked so far are in `invoked`, each
    with whether its descriptor was one that the program had deleted and not added again, which
    `deleted` keeps. -/
structure Loop where
  fds : FdId → UloopFd
  polled : FdId → Bool
  curFds : List (Option FdId × UInt32)
  fdStack : List UloopFdStack
  deleted : FdId → Bool
  invoked : List (FdId × Bool)

/-- The loop of `uloop_fd_stack_event`: the innermost entry of `fd` is cleared (`none`), or
    keeps the events. -/
def stackMark (fd : FdId) (events : Option UInt32) : List UloopFdStack → Option (List UloopFdStack)
  | [] => none
  | cur :: next =>
    if cur.fd ≠ some fd then (stackMark fd events next).map (cur :: ·)
    else
      match events with
      | none => some ({ cur with fd := none } :: next)
      | some ev => some ({ cur with events := cur.events ||| ev ||| ULOOP_EVENT_BUFFERED } :: next)

/-- `uloop_fd_stack_event`, if it returns true. -/
def uloopFdStackEvent (s : Loop) (fd : FdId) (events : Option UInt32) :
    Option (List UloopFdStack) :=
  if (s.fds fd).flags &&& ULOOP_EDGE_TRIGGER = 0 then none
  else stackMark fd events s.fdStack

def Loop.setFd (s : Loop) (fd : FdId) (f : UloopFd → UloopFd) : Loop :=
  { s with fds := fun g => if g = fd then f (s.fds g) else s.fds g }

/-- `__uloop_fd_delete`. -/
def uloopFdDelete' (s : Loop) (fd : FdId) : Loop :=
  let s := s.setFd fd fun f => { f with flags := 0 }
  { s with polled := fun g => if g = fd then false else s.polled g }

/-- `uloop_fd_delete`. -/
def uloopFdDelete (s : Loop) (fd : FdId) : Loop :=
  let s := { s with
    curFds := s.curFds.map fun cur => if cur.1 = some fd then (none, cur.2) else cur }
  if !(s.fds fd).registered then s
  else
    let s := s.setFd fd fun f => { f with registered := false, flags := 0 }
    let s := { s with fdStack := (uloopFdStackEvent s fd none).getD s.fdStack }
    uloopFdDelete' s fd

/-- `uloop_fd_add`, where `ok` is the success of `epoll_ctl`. -/
def uloopFdAdd (s : Loop) (fd : FdId) (flags : UInt32) (ok : Bool) : Loop :=
  if flags &&& (ULOOP_READ ||| ULOOP_WRITE) = 0 then uloopFdDelete s fd
  else if !ok then s
  else
    let s := s.setFd fd fun f =>
      { f with flags := flags &&& 0xff, registered := true, eof := false, error := false }
    { s with polled := fun g => if g = fd then true else s.polled g }

/-- `uloop_fetch_events`: the loop over the events that the kernel reports. An error deletes the
    descriptor, but its event is delivered. -/
def fetchLoop : List EpollEvent → Loop → Loop
  | [], s => s
  | ev :: evs, s =>
    let s :=
      if ev.err then
        let s := s.setFd ev.fd fun f => { f with error := true }
        if (s.fds ev.fd).flags &&& ULOOP_ERROR_CB = 0 then
          { uloopFdDelete { s with curFds := [] } ev.fd with curFds := s.curFds }
        else s
      else s
    if !(ev.rdhup || ev.readable || ev.writable || ev.err) then
      fetchLoop evs { s with curFds := s.curFds ++ [(none, 0)] }
    else
      let s := if ev.rdhup then s.setFd ev.fd fun f => { f with eof := true } else s
      let e : UInt32 := (if ev.readable then ULOOP_READ else 0) |||
        (if ev.writable then ULOOP_WRITE else 0)
      fetchLoop evs { s with curFds := s.curFds ++ [(some ev.fd, e)] }

/-- The callback of `fd` is invoked. -/
def invoke (s : Loop) (fd : FdId) : Loop :=
  { s with invoked := s.invoked ++ [(fd, s.deleted fd)] }

/-- The loop of `uloop_run_events` over the entries of the batch, up to a callback. -/
def runLoop : List (Option FdId × UInt32) → Loop → Loop
  | [], s => { s with curFds := [] }
  | (none, _) :: rest, s => runLoop rest s
  | (some fd, events) :: rest, s =>
    if !(s.fds fd).cb then runLoop rest s
    else
      match uloopFdStackEvent s fd (some events) with
      | some stack => runLoop rest { s with fdStack := stack }
      | none => invoke { s with curFds := rest, fdStack := ⟨some fd, 0⟩ :: s.fdStack } fd

/-- `uloop_run_events`. The kernel reports descriptors of its interest list only. -/
def uloopRunEvents (s : Loop) (evs : List EpollEvent) : Loop :=
  let s := if s.curFds.isEmpty then fetchLoop (evs.filter fun ev => s.polled ev.fd) s else s
  runLoop s.curFds s

/-- The callback that runs returns to the loop in `uloop_run_events`. -/
def callbackReturn (s : Loop) : Loop :=
  match s.fdStack with
  | [] => s
  | cur :: next =>
    match cur.fd with
    | none => { s with fdStack := next }
    | some fd =>
      if cur.events &&& ULOOP_EVENT_MASK = 0 then { s with fdStack := next }
      else invoke { s with fdStack := ⟨some fd, 0⟩ :: next } fd

/-- What happens next. -/
inductive Call where
  | add (fd : FdId) (flags : UInt32) (ok : Bool)
  | delete (fd : FdId)
  | setCb (fd : FdId) (cb : Bool)
  | runEvents (evs : List EpollEvent)
  | ret

/-- The descriptor that a call of the program deletes. -/
def Call.deletes : Call → Option FdId
  | .add fd flags _ => if flags &&& (ULOOP_READ ||| ULOOP_WRITE) = 0 then some fd else none
  | .delete fd => some fd
  | _ => none

/-- The descriptor that a call registers. -/
def Call.registers : Call → Option FdId
  | .add fd flags true => if flags &&& (ULOOP_READ ||| ULOOP_WRITE) = 0 then none else some fd
  | _ => none

/-- What a call does to the loop. -/
def perform (s : Loop) : Call → Loop
  | .add fd flags ok => uloopFdAdd s fd flags ok
  | .delete fd => uloopFdDelete s fd
  | .setCb fd cb => s.setFd fd fun f => { f with cb := cb }
  | .runEvents evs => uloopRunEvents s evs
  | .ret => callbackReturn s

/-- One step of a run. -/
def step (s : Loop) (c : Call) : Loop :=
  let s := perform s c
  { s with deleted := fun fd =>
      if c.deletes = some fd then true
      else if c.registers = some fd then false
      else s.deleted fd }

/-- The loop after `uloop_init`. -/
def init : Loop where
  fds _ := ⟨false, false, false, false, 0⟩
  polled _ := false
  curFds := []
  fdStack := []
  deleted _ := false
  invoked := []

end Uloop
