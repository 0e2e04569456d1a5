/-
  The processes that the event loop watches (uloop.c). The list is sorted by pid, so that a scan of
  `uloop_handle_processes` stops early; its callbacks may use all calls and run the loop again.
-/
import IotLib.Lib.Insert
import IotLib.Lib.Run

namespace Uloop.Processes

open Insert

/-- A `struct uloop_process` that is pending, that is, on the list; `nr` counts those that were added. -/
structure Process where
  addr : ℕ
  pid : ℤ
  nr : ℕ
deriving DecidableEq

/-- The scan of the list for a pid from `waitpid`: the process that it reads next (none is the head
    of the list), and how many were added before. -/
structure Scan where
  pid : ℤ
  next : Option Process
  since : ℕ

/-- The list, the scans that run, how many processes were added, those that were called, those that
    the program deleted, and those that a scan should not have left on the list. -/
structure State where
  processes : List Process := []
  scans : List Scan := []
  count : ℕ := 0
  called : List Process := []
  deleted : List Process := []
  missed : List Process := []

/-- `uloop_process_add`, in front of the first process with a larger pid. -/
def uloopProcessAdd (s : State) (addr : ℕ) (pid : ℤ) : State :=
  if ∃ q ∈ s.processes, q.addr = addr then s
  else { s with
    processes := insertBefore (pid < ·.pid) ⟨addr, pid, s.count⟩ s.processes
    count := s.count + 1 }

/-- `uloop_process_delete` by the program. -/
def uloopProcessDelete (s : State) (addr : ℕ) : State :=
  match s.processes.find? (·.addr = addr) with
  | none => s
  | some p => { s with processes := s.processes.erase p, deleted := p :: s.deleted }

/-- The innermost scan ends. -/
def scanned (s : State) (f : Scan) (rest : List Scan) : State :=
  { s with
    scans := rest
    missed := s.processes.filter (fun p => p.pid = f.pid ∧ p.nr < f.since) ++ s.missed }

/-- One turn of the innermost scan; `tmp` is the process behind `p`. -/
def turn (s : State) (f : Scan) (rest : List Scan) : State :=
  match f.next with
  | none => scanned s f rest
  | some p =>
    let tmp := (s.processes.dropWhile (· ≠ p)).tail.head?
    let s' := { s with scans := { f with next := tmp } :: rest }
    if p.pid < f.pid then s'
    else if f.pid < p.pid then scanned s f rest
    else { s' with processes := s.processes.erase p, called := p :: s.called }

/-- A step: a call by the program or a callback, a pid from `waitpid`, or a turn of the innermost
    scan. Calls come between any two turns, also where there was no callback. -/
inductive Step where
  | add (addr : ℕ) (pid : ℤ)
  | delete (addr : ℕ)
  | reap (pid : ℤ)
  | turn

def step (s : State) : Step → State
  | .add addr pid => uloopProcessAdd s addr pid
  | .delete addr => uloopProcessDelete s addr
  | .reap pid => { s with scans := ⟨pid, s.processes.head?, s.count⟩ :: s.scans }
  | .turn =>
    match s.scans with
    | [] => s
    | f :: rest => turn s f rest

/-- What the scans read next is on the list after the step. -/
abbrev Spares (s : State) (a : Step) : Prop :=
  ∀ f ∈ (step s a).scans, ∀ p ∈ f.next, p ∈ (step s a).processes

/-- The order of the list. -/
def Ahead (p q : Process) : Prop := p.pid ≤ q.pid ∧ p.addr ≠ q.addr

/-- What the scan has passed and leaves on the list is not for it, or was added since. -/
def Covers (l : List Process) (f : Scan) : Prop :=
  ∃ pre suf, l = pre ++ suf ∧ suf.head? = f.next ∧ ∀ p ∈ pre, p.pid = f.pid → f.since ≤ p.nr

/-- The list is sorted. Each process that was added is on it, or was called or deleted, once, and a
    scan that ended has left no process with its pid that was there when it began. -/
structure Exact (s : State) : Prop where
  sorted : s.processes.Pairwise Ahead
  covers : ∀ f ∈ s.scans, f.since ≤ s.count ∧ Covers s.processes f
  account : ((s.called ++ s.deleted ++ s.processes).map (·.nr)).Perm (List.range s.count)
  missed : s.missed = []

section
variable {s : State} {l : List Process} {f : Scan} {rest : List Scan} {p : Process}

theorem Exact.nodup (h : Exact s) : s.processes.Nodup :=
  h.sorted.imp fun hpq heq => hpq.2 (congrArg Process.addr heq)

theorem Covers.insert (h : Covers l f) (late : Process → Bool) (hp : f.since ≤ p.nr) :
    Covers (insertBefore late p l) f := by
  obtain ⟨pre, suf, rfl, hnext, hpre⟩ := h
  induction pre with
  | nil =>
    cases suf with
    | nil => exact ⟨[p], [], rfl, hnext, by simp [hp]⟩
    | cons q suf =>
      rw [List.nil_append, insertBefore]
      split
      · exact ⟨[p], q :: suf, rfl, hnext, by simp [hp]⟩
      · exact ⟨[], q :: insertBefore late p suf, rfl, hnext, hpre⟩
  | cons q pre ih =>
    obtain ⟨hq, hpre⟩ := List.forall_mem_cons.1 hpre
    rw [List.cons_append, insertBefore]
    split
    · exact ⟨p :: q :: pre, suf, rfl, hnext, by simpa [hp] using ⟨hq, hpre⟩⟩
    · obtain ⟨pre', suf', heq, hnext', hpre'⟩ := ih hpre
      exact ⟨q :: pre', suf', congrArg (q :: ·) heq, hnext', List.forall_mem_cons.2 ⟨hq, hpre'⟩⟩

/-- A process that the scan does not read next leaves the list. -/
theorem Covers.erase (h : Covers l f) (hl : l.Nodup) (hspare : ∀ q ∈ f.next, q ∈ l.erase p) :
    Covers (l.erase p) f := by
  obtain ⟨pre, suf, rfl, hnext, hpre⟩ := h
  by_cases hp : p ∈ pre
  · exact ⟨pre.erase p, suf, List.erase_append_left suf hp, hnext,
      fun q hq => hpre q (List.mem_of_mem_erase hq)⟩
  · refine ⟨pre, suf.erase p, List.erase_append_right suf hp, ?_, hpre⟩
    cases suf with
    | nil => exact hnext
    | cons q suf =>
      have hq := (hl.mem_erase_iff.1 (hspare q hnext.symm)).1
      rwa [List.erase_cons_tail (by simpa using hq)]

/-- A scan ends at the end of the list, or where the pids are larger. -/
theorem Exact.scanned (h : Exact s) (hs : s.scans = f :: rest) (hnext : ∀ p ∈ f.next, f.pid < p.pid) :
    Exact (scanned s f rest) := by
  obtain ⟨-, pre, suf, hl, hhead, hpre⟩ := h.covers f (by simp [hs])
  refine ⟨h.sorted, fun g hg => h.covers g (hs ▸ List.mem_cons_of_mem f hg), h.account, ?_⟩
  have hsuf : ∀ p ∈ suf, f.pid < p.pid := by
    cases suf with
    | nil => exact nofun
    | cons q suf =>
      have hlt := hnext q hhead.symm
      have hsorted := (List.pairwise_append.1 (hl ▸ h.sorted)).2.1
      exact List.forall_mem_cons.2
        ⟨hlt, fun p hp => hlt.trans_le (List.rel_of_pairwise_cons hsorted hp).1⟩
  simp only [Processes.scanned, h.missed, List.append_nil, List.filter_eq_nil_iff, decide_eq_true_eq]
  rintro p hp ⟨hpid, hnr⟩
  rcases List.mem_append.1 (hl ▸ hp) with hp | hp
  · exact hnr.not_ge (hpre p hp hpid)
  · exact (hsuf p hp).ne' hpid

theorem Exact.turn (h : Exact s) (hs : s.scans = f :: rest)
    (hspare : ∀ g ∈ (turn s f rest).scans, ∀ q ∈ g.next, q ∈ (turn s f rest).processes) :
    Exact (turn s f rest) := by
  obtain ⟨hsince, pre, suf, hl, hhead, hpre⟩ := h.covers f (by simp [hs])
  have hrest : ∀ g ∈ rest, g.since ≤ s.count ∧ Covers s.processes g :=
    fun g hg => h.covers g (hs ▸ List.mem_cons_of_mem f hg)
  unfold Processes.turn at hspare ⊢
  cases hnext : f.next with
  | none => exact h.scanned hs (by simp [hnext])
  | some p =>
    rw [hnext] at hspare hhead
    obtain ⟨suf, rfl⟩ := List.head?_eq_some_iff.1 hhead
    have hp : p ∉ pre := fun hp => (List.nodup_append.1 (hl ▸ h.nodup)).2.2 p hp p (by simp) rfl
    have htmp : (s.processes.dropWhile (· ≠ p)).tail.head? = suf.head? := by
      rw [hl, List.dropWhile_append_of_pos fun q hq => decide_eq_true (ne_of_mem_of_not_mem hq hp)]
      simp
    simp only [htmp] at hspare ⊢
    split_ifs at hspare ⊢ with hlt hgt
    · refine ⟨h.sorted, List.forall_mem_cons.2
        ⟨⟨hsince, pre ++ [p], suf, by simp [hl], rfl, ?_⟩, hrest⟩, h.account, h.missed⟩
      exact List.forall_mem_append.2 ⟨hpre, by simpa using fun heq => absurd heq hlt.ne⟩
    · exact h.scanned hs (by simpa [hnext] using hgt)
    · have herase : s.processes.erase p = pre ++ suf := by
        rw [hl, List.erase_append_right _ hp, List.erase_cons_head]
      have hmem : p ∈ s.processes := by simp [hl]
      refine ⟨h.sorted.sublist List.erase_sublist, List.forall_mem_cons.2
        ⟨⟨hsince, pre, suf, herase, rfl, hpre⟩, fun g hg => ⟨(hrest g hg).1, (hrest g hg).2.erase h.nodup
          (hspare g (List.mem_cons_of_mem _ hg))⟩⟩, .trans (.map _ ?_) h.account, h.missed⟩
      exact List.perm_middle.symm.trans ((List.perm_cons_erase hmem).symm.append_left _)

theorem Exact.step (h : Exact s) {a : Step} (hspare : Spares s a) : Exact (step s a) := by
  unfold Spares Processes.step at *
  cases a with
  | add addr pid =>
    dsimp only
    unfold uloopProcessAdd
    split
    · exact h
    next hnew =>
      have hne : ∀ q ∈ s.processes, q.addr ≠ addr := fun q hq heq => hnew ⟨q, hq, heq⟩
      refine ⟨pairwise_insertBefore h.sorted (fun q hq hlate => ?_) (fun q hq hlate => ?_), fun f hf =>
        ⟨(h.covers f hf).1.trans (Nat.le_succ _), (h.covers f hf).2.insert _ (h.covers f hf).1⟩, ?_,
        h.missed⟩
      · exact ⟨not_lt.1 (of_decide_eq_false hlate), hne q hq⟩
      · have hlt : pid < q.pid := of_decide_eq_true hlate
        exact ⟨⟨hlt.le, (hne q hq).symm⟩, fun r hr hqr => ⟨hlt.le.trans hqr.1, (hne r hr).symm⟩⟩
      · rw [List.range_succ]
        refine (((insertBefore_perm _ _ s.processes).append_left _).map _).trans ?_
        refine (List.perm_middle.map _).trans ?_
        exact (h.account.cons s.count).trans (List.perm_append_singleton _ _).symm
  | delete addr =>
    dsimp only at hspare ⊢
    unfold uloopProcessDelete at *
    cases hfind : s.processes.find? (·.addr = addr) with
    | none => exact h
    | some p =>
      rw [hfind] at hspare
      refine ⟨h.sorted.sublist List.erase_sublist, fun f hf => ⟨(h.covers f hf).1,
        (h.covers f hf).2.erase h.nodup (hspare f hf)⟩, .trans (.map _ ?_) h.account, h.missed⟩
      have hp := (List.perm_cons_erase (List.mem_of_find?_eq_some hfind)).symm
      refine (List.perm_middle.append_right _).trans ?_
      exact List.perm_middle.symm.trans (hp.append_left _)
  | reap pid =>
    exact ⟨h.sorted, List.forall_mem_cons.2 ⟨⟨le_rfl, [], s.processes, rfl, rfl, nofun⟩, h.covers⟩,
      h.account, h.missed⟩
  | turn =>
    cases hs : s.scans with
    | nil => exact h
    | cons f rest =>
      rw [hs] at hspare
      exact h.turn hs hspare

end

/-- **The scans are exact**, as long as the process that a scan reads next is not taken away. -/
theorem uloopHandleProcesses_exact {steps : List Step} (h : Run.Admits step Spares {} steps) :
    Exact (Run.run step {} steps) :=
  h.invariant (fun _ _ hspare hs => hs.step hspare) ⟨.nil, nofun, .nil, rfl⟩

/-- The callback of the first of three processes deletes the last and adds a fourth. -/
theorem uloopHandleProcesses_restart : Exact (Run.run step {} [.add 1 5, .add 2 5, .add 3 5, .add 4 7,
    .reap 5, .turn, .delete 3, .add 5 5, .turn, .turn, .turn]) :=
  uloopHandleProcesses_exact (by decide)

end Uloop.Processes
