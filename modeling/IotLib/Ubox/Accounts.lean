/-
  The accounts of a runqueue: its counter, its lists and the flags of its tasks agree whenever a
  callback runs, tasks are started only while there is room, and each task that leaves is
  completed once.
-/
import IotLib.Ubox.Runqueue

namespace Runqueue

variable {κ τ : Type} [DecidableEq κ] [DecidableEq τ]

/-! ## The accounts -/

/-- The counter and the flags say which tasks are on which list. -/
structure Accounts (s : State κ τ) : Prop where
  count : ∀ q, (s.queue q).runningTasks = (s.queue q).tasksActive.length
  activeNodup : ∀ q, (s.queue q).tasksActive.Nodup
  inactiveNodup : ∀ q, (s.queue q).tasksInactive.Nodup
  active : ∀ q t, t ∈ (s.queue q).tasksActive ↔
    (s.task t).queued = true ∧ (s.task t).running = true ∧ (s.task t).q = q
  inactive : ∀ q t, t ∈ (s.queue q).tasksInactive ↔
    (s.task t).queued = true ∧ (s.task t).running = false ∧ (s.task t).q = q
  idle : ∀ t, (s.task t).queued = false → (s.task t).running = false

/-- The lists, the counters and the flags are the same. -/
structure Same (s s' : State κ τ) : Prop where
  active : ∀ q, (s'.queue q).tasksActive = (s.queue q).tasksActive
  inactive : ∀ q, (s'.queue q).tasksInactive = (s.queue q).tasksInactive
  count : ∀ q, (s'.queue q).runningTasks = (s.queue q).runningTasks
  queued : ∀ t, (s'.task t).queued = (s.task t).queued
  running : ∀ t, (s'.task t).running = (s.task t).running
  q : ∀ t, (s'.task t).q = (s.task t).q

section
variable {s s' s'' : State κ τ} {q : κ} {t : τ}

omit [DecidableEq κ] [DecidableEq τ] in
theorem Same.refl (s : State κ τ) : Same s s :=
  ⟨fun _ => rfl, fun _ => rfl, fun _ => rfl, fun _ => rfl, fun _ => rfl, fun _ => rfl⟩

omit [DecidableEq κ] [DecidableEq τ] in
theorem Same.trans (h : Same s s') (h' : Same s' s'') : Same s s'' :=
  ⟨fun q => (h'.active q).trans (h.active q), fun q => (h'.inactive q).trans (h.inactive q),
    fun q => (h'.count q).trans (h.count q), fun t => (h'.queued t).trans (h.queued t),
    fun t => (h'.running t).trans (h.running t), fun t => (h'.q t).trans (h.q t)⟩

omit [DecidableEq κ] [DecidableEq τ] in
theorem Accounts.same (h : Accounts s) (h' : Same s s') : Accounts s' := by
  constructor
  · intro q
    rw [h'.count, h'.active]
    exact h.count q
  · intro q
    rw [h'.active]
    exact h.activeNodup q
  · intro q
    rw [h'.inactive]
    exact h.inactiveNodup q
  · intro q t
    rw [h'.active, h'.queued, h'.running, h'.q]
    exact h.active q t
  · intro q t
    rw [h'.inactive, h'.queued, h'.running, h'.q]
    exact h.inactive q t
  · intro t
    rw [h'.queued, h'.running]
    exact h.idle t

omit [DecidableEq τ] in
/-- Other fields of a queue change. -/
theorem Same.setQueue {f : Queue τ → Queue τ} (hactive : ∀ r, (f r).tasksActive = r.tasksActive)
    (hinactive : ∀ r, (f r).tasksInactive = r.tasksInactive)
    (hcount : ∀ r, (f r).runningTasks = r.runningTasks) : Same s (s.setQueue q f) := by
  refine ⟨fun q' => ?_, fun q' => ?_, fun q' => ?_, fun _ => rfl, fun _ => rfl, fun _ => rfl⟩
  · rw [setQueue_queue]
    split_ifs
    · exact hactive _
    · rfl
  · rw [setQueue_queue]
    split_ifs
    · exact hinactive _
    · rfl
  · rw [setQueue_queue]
    split_ifs
    · exact hcount _
    · rfl

omit [DecidableEq κ] in
/-- Other fields of a task change. -/
theorem Same.setTask {f : Task κ → Task κ} (hqueued : ∀ x, (f x).queued = x.queued)
    (hrunning : ∀ x, (f x).running = x.running) (hq : ∀ x, (f x).q = x.q) :
    Same s (s.setTask t f) := by
  refine ⟨fun _ => rfl, fun _ => rfl, fun _ => rfl, fun t' => ?_, fun t' => ?_, fun t' => ?_⟩
  · rw [setTask_task]
    split_ifs
    · exact hqueued _
    · rfl
  · rw [setTask_task]
    split_ifs
    · exact hrunning _
    · rfl
  · rw [setTask_task]
    split_ifs
    · exact hq _
    · rfl

omit [DecidableEq τ] in
theorem Same.runqueueStartNext (q : κ) (s : State κ τ) : Same s (runqueueStartNext q s) := by
  unfold Runqueue.runqueueStartNext
  split_ifs
  · exact .refl s
  · exact .setQueue (fun _ => rfl) (fun _ => rfl) fun _ => rfl

omit [DecidableEq τ] in
theorem Same.startNextEnd (q : κ) (s : State κ τ) : Same s (startNextEnd q s) := by
  unfold Runqueue.startNextEnd
  dsimp only
  split_ifs
  · refine .setQueue (fun r => ?_) (fun r => ?_) fun r => ?_
    · split_ifs <;> rfl
    · split_ifs <;> rfl
    · split_ifs <;> rfl
  · exact .refl s

end

/-! ## What a step does to the accounts -/

/-- A task leaves its queue. -/
structure Leaves (t : τ) (s s' : State κ τ) : Prop where
  queued : (s.task t).queued = true
  active : ∀ q, (s'.queue q).tasksActive = (s.queue q).tasksActive.erase t
  inactive : ∀ q, (s'.queue q).tasksInactive = (s.queue q).tasksInactive.erase t
  count : ∀ q, (s'.queue q).runningTasks = (s.queue q).runningTasks -
    if (s.task t).running = true ∧ q = (s.task t).q then 1 else 0
  self : (s'.task t).queued = false ∧ (s'.task t).running = false
  others : ∀ u ≠ t, (s'.task u).queued = (s.task u).queued ∧
    (s'.task u).running = (s.task u).running ∧ (s'.task u).q = (s.task u).q

/-- A task is put on a queue. -/
structure Enters (q : κ) (t : τ) (running first : Bool) (s s' : State κ τ) : Prop where
  queued : (s.task t).queued = false
  active : ∀ q', (s'.queue q').tasksActive = if q' = q ∧ running = true then
    addTo (s.queue q').tasksActive t first else (s.queue q').tasksActive
  inactive : ∀ q', (s'.queue q').tasksInactive = if q' = q ∧ running = false then
    addTo (s.queue q').tasksInactive t first else (s.queue q').tasksInactive
  count : ∀ q', (s'.queue q').runningTasks = (s.queue q').runningTasks +
    if q' = q ∧ running = true then 1 else 0
  self : (s'.task t).queued = true ∧ (s'.task t).running = running ∧ (s'.task t).q = q
  others : ∀ u ≠ t, (s'.task u).queued = (s.task u).queued ∧
    (s'.task u).running = (s.task u).running ∧ (s'.task u).q = (s.task u).q

/-- The first inactive task of a queue is started. -/
structure Starts (q : κ) (t : τ) (s s' : State κ τ) : Prop where
  first : (s.queue q).tasksInactive.head? = some t
  room : (s.queue q).maxRunningTasks = 0 ∨ (s.queue q).runningTasks < (s.queue q).maxRunningTasks
  active : ∀ q', (s'.queue q').tasksActive = if q' = q then
    (s.queue q').tasksActive.erase t ++ [t] else (s.queue q').tasksActive.erase t
  inactive : ∀ q', (s'.queue q').tasksInactive = (s.queue q').tasksInactive.erase t
  count : ∀ q', (s'.queue q').runningTasks = (s.queue q').runningTasks + if q' = q then 1 else 0
  self : (s'.task t).queued = (s.task t).queued ∧ (s'.task t).running = true ∧
    (s'.task t).q = (s.task t).q
  others : ∀ u ≠ t, (s'.task u).queued = (s.task u).queued ∧
    (s'.task u).running = (s.task u).running ∧ (s'.task u).q = (s.task u).q

section
variable {s s' s'' : State κ τ} {q : κ} {t : τ} {running first : Bool}

omit [DecidableEq τ] in
theorem mem_addTo {c : List τ} {u : τ} : u ∈ addTo c t first ↔ u = t ∨ u ∈ c := by
  unfold addTo
  split_ifs
  · exact List.mem_cons
  · rw [List.mem_append, List.mem_singleton, or_comm]

omit [DecidableEq τ] in
theorem addTo_nodup {c : List τ} (h : c.Nodup) (ht : t ∉ c) : (addTo c t first).Nodup := by
  unfold addTo
  split_ifs
  · exact List.nodup_cons.2 ⟨ht, h⟩
  · exact List.Nodup.append h (List.nodup_singleton t) (by simpa using ht)

omit [DecidableEq τ] in
theorem length_addTo (c : List τ) : (addTo c t first).length = c.length + 1 := by
  unfold addTo
  split_ifs <;> simp

theorem Accounts.leaves (h : Accounts s) (hl : Leaves t s s') : Accounts s' := by
  have hmem : ∀ q, t ∈ (s.queue q).tasksActive ↔ (s.task t).running = true ∧ q = (s.task t).q := by
    intro q
    rw [h.active, hl.queued]
    constructor
    · exact fun ht => ⟨ht.2.1, ht.2.2.symm⟩
    · exact fun ht => ⟨rfl, ht.1, ht.2.symm⟩
  constructor
  · intro q
    rw [hl.count, hl.active, h.count]
    split_ifs with ht
    · have ht' := (hmem q).2 ht
      have hpos := List.length_pos_of_mem ht'
      rw [List.length_erase_of_mem ht']
      omega
    · rw [List.erase_of_not_mem fun ht' => ht ((hmem q).1 ht')]
      omega
  · intro q
    rw [hl.active]
    exact (h.activeNodup q).erase t
  · intro q
    rw [hl.inactive]
    exact (h.inactiveNodup q).erase t
  · intro q u
    rw [hl.active, (h.activeNodup q).mem_erase_iff]
    by_cases hu : u = t
    · subst hu
      exact iff_of_false (fun hu => hu.1 rfl) fun hu => by simp [hl.self.1] at hu
    · obtain ⟨hqueued, hrunning, hq⟩ := hl.others u hu
      rw [hqueued, hrunning, hq, ← h.active]
      exact and_iff_right hu
  · intro q u
    rw [hl.inactive, (h.inactiveNodup q).mem_erase_iff]
    by_cases hu : u = t
    · subst hu
      exact iff_of_false (fun hu => hu.1 rfl) fun hu => by simp [hl.self.1] at hu
    · obtain ⟨hqueued, hrunning, hq⟩ := hl.others u hu
      rw [hqueued, hrunning, hq, ← h.inactive]
      exact and_iff_right hu
  · intro u hu
    by_cases hut : u = t
    · subst hut
      exact hl.self.2
    · obtain ⟨hqueued, hrunning, -⟩ := hl.others u hut
      rw [hrunning]
      exact h.idle u (hqueued ▸ hu)

theorem Accounts.enters (h : Accounts s) (he : Enters q t running first s s') : Accounts s' := by
  have hactive : ∀ q, t ∉ (s.queue q).tasksActive := by
    intro q ht
    have := ((h.active q t).1 ht).1
    simp [he.queued] at this
  have hinactive : ∀ q, t ∉ (s.queue q).tasksInactive := by
    intro q ht
    have := ((h.inactive q t).1 ht).1
    simp [he.queued] at this
  obtain ⟨hqueued, hrunning, hq⟩ := he.self
  constructor
  · intro q'
    rw [he.count, he.active, h.count]
    split_ifs
    · rw [length_addTo]
      norm_cast
    · exact add_zero _
  · intro q'
    rw [he.active]
    split_ifs
    · exact addTo_nodup (h.activeNodup q') (hactive q')
    · exact h.activeNodup q'
  · intro q'
    rw [he.inactive]
    split_ifs
    · exact addTo_nodup (h.inactiveNodup q') (hinactive q')
    · exact h.inactiveNodup q'
  · intro q' u
    by_cases hu : u = t
    · subst hu
      rw [he.active, hqueued, hrunning, hq]
      split_ifs with hc
      · exact iff_of_true (mem_addTo.2 (.inl rfl)) ⟨rfl, hc.2, hc.1.symm⟩
      · exact iff_of_false (hactive q') fun hu => hc ⟨hu.2.2.symm, hu.2.1⟩
    · obtain ⟨hqueued', hrunning', hq'⟩ := he.others u hu
      rw [he.active, hqueued', hrunning', hq', ← h.active]
      split_ifs
      · exact mem_addTo.trans (or_iff_right hu)
      · exact Iff.rfl
  · intro q' u
    by_cases hu : u = t
    · subst hu
      rw [he.inactive, hqueued, hrunning, hq]
      split_ifs with hc
      · exact iff_of_true (mem_addTo.2 (.inl rfl)) ⟨rfl, hc.2, hc.1.symm⟩
      · exact iff_of_false (hinactive q') fun hu => hc ⟨hu.2.2.symm, hu.2.1⟩
    · obtain ⟨hqueued', hrunning', hq'⟩ := he.others u hu
      rw [he.inactive, hqueued', hrunning', hq', ← h.inactive]
      split_ifs
      · exact mem_addTo.trans (or_iff_right hu)
      · exact Iff.rfl
  · intro u hu
    by_cases hut : u = t
    · subst hut
      rw [hqueued] at hu
      cases hu
    · obtain ⟨hqueued', hrunning', -⟩ := he.others u hut
      rw [hrunning']
      exact h.idle u (hqueued' ▸ hu)

theorem Accounts.starts (h : Accounts s) (hs : Starts q t s s') : Accounts s' := by
  have ht := List.mem_of_head? hs.first
  obtain ⟨hqueued, hrunning, hq⟩ := (h.inactive q t).1 ht
  have hactive : ∀ q, t ∉ (s.queue q).tasksActive := by
    intro q ht
    have := ((h.active q t).1 ht).2.1
    simp [hrunning] at this
  obtain ⟨hqueued', hrunning', hq'⟩ := hs.self
  constructor
  · intro q'
    rw [hs.count, hs.active, h.count, List.erase_of_not_mem (hactive q')]
    split_ifs
    · simp
    · exact add_zero _
  · intro q'
    rw [hs.active, List.erase_of_not_mem (hactive q')]
    split_ifs
    · refine List.Nodup.append (h.activeNodup q') (List.nodup_singleton t) ?_
      simpa using hactive q'
    · exact h.activeNodup q'
  · intro q'
    rw [hs.inactive]
    exact (h.inactiveNodup q').erase t
  · intro q' u
    rw [hs.active, List.erase_of_not_mem (hactive q')]
    by_cases hu : u = t
    · subst hu
      rw [hqueued', hrunning', hq', hqueued, hq]
      split_ifs with hc
      · exact iff_of_true (by simp) ⟨rfl, rfl, hc.symm⟩
      · exact iff_of_false (hactive q') fun hu => hc hu.2.2.symm
    · obtain ⟨hqueued', hrunning', hq'⟩ := hs.others u hu
      rw [hqueued', hrunning', hq', ← h.active]
      split_ifs
      · simp [hu]
      · exact Iff.rfl
  · intro q' u
    rw [hs.inactive, (h.inactiveNodup q').mem_erase_iff]
    by_cases hu : u = t
    · subst hu
      exact iff_of_false (fun hu => hu.1 rfl) fun hu => by simp [hrunning'] at hu
    · obtain ⟨hqueued', hrunning', hq'⟩ := hs.others u hu
      rw [hqueued', hrunning', hq', ← h.inactive]
      exact and_iff_right hu
  · intro u hu
    by_cases hut : u = t
    · subst hut
      rw [hqueued', hqueued] at hu
      cases hu
    · obtain ⟨hqueued', hrunning', -⟩ := hs.others u hut
      rw [hrunning']
      exact h.idle u (hqueued' ▸ hu)

/-! ### The functions -/

theorem dequeue_leaves (h : (s.task t).queued = true) : Leaves t s (dequeue t s) := by
  unfold dequeue
  constructor
  · exact h
  · intro q
    by_cases hr : (s.task t).running = true
    · by_cases hq : q = (s.task t).q
      · simp [hr, ← hq, Queue.del]
      · simp [hr, hq, Queue.del]
    · simp [hr, Queue.del]
  · intro q
    by_cases hr : (s.task t).running = true
    · by_cases hq : q = (s.task t).q
      · simp [hr, ← hq, Queue.del]
      · simp [hr, hq, Queue.del]
    · simp [hr, Queue.del]
  · intro q
    by_cases hr : (s.task t).running = true
    · by_cases hq : q = (s.task t).q
      · simp [hr, ← hq, Queue.del]
      · simp [hr, hq, Queue.del]
    · simp [hr, Queue.del]
  · simp
  · intro u hu
    split_ifs <;> simp [hu]

theorem enqueue_enters (h : (s.task t).queued = false) :
    Enters q t running first s (enqueue q t running first s) := by
  unfold enqueue
  constructor
  · exact h
  · intro q'
    by_cases hq : q' = q
    · cases running <;> simp [hq, Queue.add]
    · cases running <;> simp [hq]
  · intro q'
    by_cases hq : q' = q
    · cases running <;> simp [hq, Queue.add]
    · cases running <;> simp [hq]
  · intro q'
    by_cases hq : q' = q
    · cases running <;> simp [hq, Queue.add]
    · cases running <;> simp [hq]
  · cases running <;> simp
  · intro u hu
    cases running <;> simp [hu]

theorem startTask_starts {rest : List τ} (hfirst : (s.queue q).tasksInactive = t :: rest)
    (hroom : ¬ (s.queue q).Breaks) : Starts q t s (startTask q t s) := by
  unfold startTask
  constructor
  · rw [hfirst]
    rfl
  · obtain ⟨-, hroom⟩ := not_or.1 hroom
    obtain ⟨-, hroom⟩ := not_or.1 hroom
    rcases not_and_or.1 hroom with hzero | hlt
    · exact .inl (not_not.1 hzero)
    · exact .inr (not_le.1 hlt)
  · intro q'
    by_cases hset : (s.task t).runTimeout = 0
    · by_cases hq : q' = q <;> simp [hset, hq, Queue.add, Queue.del, addTo]
    · by_cases hq : q' = q <;> simp [hset, hq, Queue.add, Queue.del, addTo]
  · intro q'
    by_cases hset : (s.task t).runTimeout = 0
    · by_cases hq : q' = q <;> simp [hset, hq, Queue.add, Queue.del]
    · by_cases hq : q' = q <;> simp [hset, hq, Queue.add, Queue.del]
  · intro q'
    by_cases hset : (s.task t).runTimeout = 0
    · by_cases hq : q' = q <;> simp [hset, hq, Queue.add, Queue.del]
    · by_cases hq : q' = q <;> simp [hset, hq, Queue.add, Queue.del]
  · by_cases hset : (s.task t).runTimeout = 0 <;> simp [hset]
  · intro u hu
    by_cases hset : (s.task t).runTimeout = 0 <;> simp [hset, hu]

/-- What a function does to the accounts, and which callbacks it calls. -/
inductive Effect (s s' : State κ τ) : Prop where
  | same (h : Same s s') (hlog : s'.log = s.log ∨ ∃ e, s'.log = s.log ++ [e] ∧
    (∀ q t, e ≠ .run q t) ∧ ∀ q t, e ≠ .complete q t)
  | leaves (t : τ) (h : Leaves t s s') (hcomplete : ∀ u, (s'.task u).hasComplete = (s.task u).hasComplete)
    (hlog : s'.log = s.log ++ if (s.task t).hasComplete then [.complete (s.task t).q t] else [])
  | enters (q : κ) (t : τ) (running first : Bool) (h : Enters q t running first s s')
    (hlog : s'.log = s.log)
  | starts (q : κ) (t : τ) (h : Starts q t s s') (hlog : s'.log = s.log ++ [.run q t])

theorem Accounts.effect (h : Accounts s) (he : Effect s s') : Accounts s' := by
  cases he with
  | same hsame _ => exact h.same hsame
  | leaves t hl _ _ => exact h.leaves hl
  | enters q t running first he _ => exact h.enters he
  | starts q t hs _ => exact h.starts hs

theorem Leaves.same (h : Leaves t s s') (h' : Same s' s'') : Leaves t s s'' := by
  constructor
  · exact h.queued
  · exact fun q => (h'.active q).trans (h.active q)
  · exact fun q => (h'.inactive q).trans (h.inactive q)
  · exact fun q => (h'.count q).trans (h.count q)
  · rw [h'.queued, h'.running]
    exact h.self
  · intro u hu
    rw [h'.queued, h'.running, h'.q]
    exact h.others u hu

omit [DecidableEq τ] in
theorem Enters.same (h : Enters q t running first s s') (h' : Same s' s'') :
    Enters q t running first s s'' := by
  constructor
  · exact h.queued
  · exact fun q => (h'.active q).trans (h.active q)
  · exact fun q => (h'.inactive q).trans (h.inactive q)
  · exact fun q => (h'.count q).trans (h.count q)
  · rw [h'.queued, h'.running, h'.q]
    exact h.self
  · intro u hu
    rw [h'.queued, h'.running, h'.q]
    exact h.others u hu

/-- The stack has no part in it. -/
theorem Effect.of_stack (fs : List (Frame κ τ)) (h : Effect { s with stack := fs } s') :
    Effect s s' := by
  cases h with
  | same h hlog => exact .same ⟨h.1, h.2, h.3, h.4, h.5, h.6⟩ hlog
  | leaves t h hcomplete hlog =>
    exact .leaves t ⟨h.1, h.2, h.3, h.4, h.5, h.6⟩ hcomplete hlog
  | enters q t running first h hlog =>
    exact .enters q t running first ⟨h.1, h.2, h.3, h.4, h.5, h.6⟩ hlog
  | starts q t h hlog => exact .starts q t ⟨h.1, h.2, h.3, h.4, h.5, h.6, h.7⟩ hlog

omit [DecidableEq κ] [DecidableEq τ] in
theorem Same.of_eq (hqueue : s'.queue = s.queue) (htask : s'.task = s.task) : Same s s' := by
  constructor <;> intro x
  · rw [hqueue]
  · rw [hqueue]
  · rw [hqueue]
  · rw [htask]
  · rw [htask]
  · rw [htask]

theorem Effect.unchanged (h : Same s s') (hlog : s'.log = s.log) : Effect s s' :=
  .same h (.inl hlog)

theorem Effect.of_eq (hqueue : s'.queue = s.queue) (htask : s'.task = s.task)
    (hlog : s'.log = s.log) : Effect s s' := .unchanged (.of_eq hqueue htask) hlog

@[simp] theorem dequeue_log : (dequeue t s).log = s.log := by
  unfold dequeue
  split_ifs <;> rfl

@[simp] theorem dequeue_stack : (dequeue t s).stack = s.stack.map (.del t) := by
  unfold dequeue
  split_ifs <;> rfl

@[simp] theorem dequeue_hasComplete (u : τ) :
    ((dequeue t s).task u).hasComplete = (s.task u).hasComplete := by
  unfold dequeue
  split_ifs <;> simp <;> split_ifs <;> rfl

omit [DecidableEq τ] in
@[simp] theorem startNext_log : (runqueueStartNext q s).log = s.log := by
  unfold runqueueStartNext
  split_ifs <;> rfl

omit [DecidableEq τ] in
@[simp] theorem startNext_task : (runqueueStartNext q s).task = s.task := by
  unfold runqueueStartNext
  split_ifs <;> rfl

omit [DecidableEq τ] in
@[simp] theorem startNext_stack : (runqueueStartNext q s).stack = s.stack := by
  unfold runqueueStartNext
  split_ifs <;> rfl

omit [DecidableEq κ] [DecidableEq τ] in
theorem Same.call (h : Same s s') (e : Event κ τ) : Same s (s'.call e) :=
  ⟨h.1, h.2, h.3, h.4, h.5, h.6⟩

theorem runqueueTaskComplete_effect (t : τ) (s : State κ τ) :
    Effect s (runqueueTaskComplete t s) := by
  unfold runqueueTaskComplete
  dsimp only
  by_cases hq : (s.task t).queued = false
  · rw [if_pos hq]
    exact .unchanged (.refl s) rfl
  · rw [if_neg hq]
    have hl : Leaves t s (dequeue t s) := dequeue_leaves (by simpa using hq)
    rw [dequeue_hasComplete]
    by_cases hc : (s.task t).hasComplete = true
    · rw [if_pos hc]
      refine .leaves t ⟨hl.1, hl.2, hl.3, hl.4, hl.5, hl.6⟩ (fun u => dequeue_hasComplete u) ?_
      rw [call_log, push_log, dequeue_log, if_pos hc]
    · rw [if_neg hc]
      refine .leaves t (hl.same (.runqueueStartNext _ _)) (fun u => ?_) ?_
      · rw [startNext_task, dequeue_hasComplete]
      · rw [startNext_log, dequeue_log, if_neg hc, List.append_nil]

theorem runqueueTaskCancel_effect (t : τ) (type : ℤ) (s : State κ τ) :
    Effect s (runqueueTaskCancel t type s) := by
  unfold runqueueTaskCancel
  dsimp only
  split_ifs with hq hr
  · exact .unchanged (.refl s) rfl
  · exact runqueueTaskComplete_effect t s
  all_goals
    have hcancelled : Same s (s.setTask t fun x => { x with cancelled := true }) :=
      .setTask (fun _ => rfl) (fun _ => rfl) fun _ => rfl
  · refine .same (.call (hcancelled.trans (.setTask ?_ ?_ ?_)) _) (.inr ⟨_, rfl, nofun, nofun⟩)
    · exact fun _ => rfl
    · exact fun _ => rfl
    · exact fun _ => rfl
  · refine .unchanged (hcancelled.trans (.setTask ?_ ?_ ?_)) rfl
    · exact fun _ => rfl
    · exact fun _ => rfl
    · exact fun _ => rfl
  · exact .same (.call hcancelled _) (.inr ⟨_, rfl, nofun, nofun⟩)
  · exact .unchanged hcancelled rfl

theorem runqueueTaskKill_effect (t : τ) (s : State κ τ) : Effect s (runqueueTaskKill t s) := by
  unfold runqueueTaskKill
  dsimp only
  split_ifs
  · exact .unchanged (.refl s) rfl
  · exact .same (.of_eq rfl rfl) (.inr ⟨_, rfl, nofun, nofun⟩)
  · exact runqueueTaskComplete_effect t s

theorem runqueueTaskAdd_effect (q : κ) (t : τ) (running first : Bool) (s : State κ τ) :
    Effect s (runqueueTaskAdd q t running first s) := by
  unfold runqueueTaskAdd
  split_ifs with hq
  · exact .unchanged (.refl s) rfl
  · exact .unchanged (.refl s) rfl
  · refine .enters q t running first ((enqueue_enters (by simpa using hq)).same
      (.runqueueStartNext _ _)) ?_
    rw [startNext_log, enqueue]
    cases running <;> rfl

theorem taskTimeout_effect (t : τ) (s : State κ τ) : Effect s (taskTimeout t s) := by
  unfold taskTimeout
  split_ifs
  · exact runqueueTaskKill_effect t s
  · exact runqueueTaskCancel_effect t _ s

/-- What has the same accounts, callbacks and log before it has the same effect. -/
theorem Effect.after (h' : Effect s' s'') (h : Same s s') (hlog : s'.log = s.log)
    (hcomplete : ∀ t, (s'.task t).hasComplete = (s.task t).hasComplete)
    (hmax : ∀ q, (s'.queue q).maxRunningTasks = (s.queue q).maxRunningTasks) : Effect s s'' := by
  cases h' with
  | same h'' hlog' =>
    rw [hlog] at hlog'
    exact .same (h.trans h'') hlog'
  | leaves t hl hc hlog' =>
    refine .leaves t ⟨?_, fun q => ?_, fun q => ?_, fun q => ?_, hl.self, fun u hu => ?_⟩
      (fun u => (hc u).trans (hcomplete u)) ?_
    · rw [← h.queued]
      exact hl.queued
    · rw [hl.active, h.active]
    · rw [hl.inactive, h.inactive]
    · rw [hl.count, h.count, h.running, h.q]
    · rw [← h.queued, ← h.running, ← h.q]
      exact hl.others u hu
    · rw [hlog', hlog, hcomplete, h.q]
  | enters q t running first he hlog' =>
    refine .enters q t running first ⟨?_, fun q' => ?_, fun q' => ?_, fun q' => ?_, he.self,
      fun u hu => ?_⟩ (hlog'.trans hlog)
    · rw [← h.queued]
      exact he.queued
    · rw [he.active, h.active]
    · rw [he.inactive, h.inactive]
    · rw [he.count, h.count]
    · rw [← h.queued, ← h.running, ← h.q]
      exact he.others u hu
  | starts q t hs hlog' =>
    refine .starts q t ⟨?_, ?_, fun q' => ?_, fun q' => ?_, fun q' => ?_, ?_, fun u hu => ?_⟩
      (by rw [hlog', hlog])
    · rw [← h.inactive]
      exact hs.first
    · rw [← hmax, ← h.count]
      exact hs.room
    · rw [hs.active, h.active]
    · rw [hs.inactive, h.inactive]
    · rw [hs.count, h.count]
    · rw [← h.queued, ← h.q]
      exact hs.self
    · rw [← h.queued, ← h.running, ← h.q]
      exact hs.others u hu

theorem call_effect {c : Call κ τ} (h : call s c = some s') : Effect s s' := by
  cases c with
  | add q t running first =>
    obtain rfl := Option.some.inj h
    exact runqueueTaskAdd_effect q t running first s
  | complete t =>
    obtain rfl := Option.some.inj h
    exact runqueueTaskComplete_effect t s
  | cancelTask t type =>
    obtain rfl := Option.some.inj h
    exact runqueueTaskCancel_effect t type s
  | killTask t =>
    obtain rfl := Option.some.inj h
    exact runqueueTaskKill_effect t s
  | cancelActive q =>
    obtain rfl := Option.some.inj h
    exact .of_eq rfl rfl rfl
  | cancelPending q =>
    obtain rfl := Option.some.inj h
    exact .of_eq rfl rfl rfl
  | cancel q =>
    obtain rfl := Option.some.inj h
    exact .of_eq rfl rfl rfl
  | kill q =>
    obtain rfl := Option.some.inj h
    exact .of_eq rfl rfl rfl
  | stop q =>
    obtain rfl := Option.some.inj h
    exact .unchanged (.setQueue (fun _ => rfl) (fun _ => rfl) fun _ => rfl) rfl
  | resume q =>
    obtain rfl := Option.some.inj h
    refine .unchanged ((Same.setQueue (fun _ => ?_) (fun _ => ?_) fun _ => ?_).trans
      (.runqueueStartNext q _)) ?_
    · rfl
    · rfl
    · rfl
    · rw [startNext_log, setQueue_log]
  | timer q =>
    have hsame : Same s (s.setQueue q fun r => { r with timerPending := false }) :=
      .setQueue (fun _ => rfl) (fun _ => rfl) fun _ => rfl
    simp only [call] at h
    split_ifs at h
    split at h
    · obtain rfl := Option.some.inj h
      exact .unchanged ⟨hsame.1, hsame.2, hsame.3, hsame.4, hsame.5, hsame.6⟩ rfl
    · obtain rfl := Option.some.inj h
      exact .same (hsame.call _) (.inr ⟨_, rfl, nofun, nofun⟩)
  | taskTimer t =>
    simp only [call] at h
    split_ifs at h
    obtain rfl := Option.some.inj h
    refine (taskTimeout_effect t _).after (.setTask (fun _ => rfl) (fun _ => rfl) fun _ => rfl) rfl
      (fun u => ?_) fun _ => rfl
    rw [setTask_task]
    split_ifs <;> rfl

theorem startNextEnd_effect (q : κ) (s : State κ τ) : Effect s (startNextEnd q s) := by
  refine .unchanged (.startNextEnd q s) ?_
  unfold startNextEnd
  dsimp only
  split_ifs <;> rfl

theorem resume_effect {fs : List (Frame κ τ)} {f : Frame κ τ} (h : resume s fs f = some s') :
    Effect s s' := by
  cases f with
  | callback => cases h
  | startNext q =>
    simp only [resume] at h
    split at h
    · obtain rfl := Option.some.inj h
      exact .of_stack fs (startNextEnd_effect q _)
    · next t rest hfirst =>
      split_ifs at h with hbreaks
      · obtain rfl := Option.some.inj h
        exact .of_stack fs (startNextEnd_effect q _)
      · obtain rfl := Option.some.inj h
        refine .starts q t (startTask_starts hfirst hbreaks) ?_
        unfold startTask
        dsimp only
        split_ifs <;> rfl
  | completed q =>
    obtain rfl := Option.some.inj h
    refine .of_stack fs (.unchanged (.runqueueStartNext q _) ?_)
    rw [startNext_log]
  | killed t =>
    obtain rfl := Option.some.inj h
    exact .of_stack fs (runqueueTaskComplete_effect t _)
  | forEach q l rest =>
    cases rest with
    | nil =>
      obtain rfl := Option.some.inj h
      exact .of_eq rfl rfl rfl
    | cons t rest =>
      obtain rfl := Option.some.inj h
      exact .of_stack (.forEach q l rest :: fs) (runqueueTaskCancel_effect t 0 _)
  | cancelActive q =>
    obtain rfl := Option.some.inj h
    exact .of_eq rfl rfl rfl
  | killLoop q =>
    simp only [resume] at h
    split at h
    · obtain rfl := Option.some.inj h
      exact .of_eq rfl rfl rfl
    · obtain rfl := Option.some.inj h
      exact runqueueTaskKill_effect _ s
  | killEnd q =>
    obtain rfl := Option.some.inj h
    refine .of_stack fs (.unchanged (.setQueue ?_ ?_ ?_) rfl)
    · exact fun _ => rfl
    · exact fun _ => rfl
    · exact fun _ => rfl

/-- **What a step does to the accounts.** -/
theorem step_effect {a : Act κ τ} (h : step s a = some s') : Effect s s' := by
  unfold step at h
  split at h
  · exact call_effect h
  · exact call_effect h
  · obtain rfl := Option.some.inj h
    exact .of_eq rfl rfl rfl
  · exact resume_effect h
  · cases h

omit [DecidableEq κ] [DecidableEq τ] in
theorem Initial.accounts (h : Initial s) : Accounts s := by
  have hqueues := h.queues
  have htasks := h.tasks
  constructor
  · intro q
    simp [hqueues q]
  · intro q
    simp [hqueues q]
  · intro q
    simp [hqueues q]
  · intro q t
    simp [hqueues q, htasks t]
  · intro q t
    simp [hqueues q, htasks t]
  · exact fun t _ => (htasks t).2.1

theorem Reaches.accounts {ok : State κ τ → Act κ τ → Prop} (h : Reaches ok s) : Accounts s := by
  induction h with
  | init h => exact h.accounts
  | step _ _ hstep ih => exact ih.effect (step_effect hstep)

end

/-! ## The result -/

/-- The callback of a task's completion. -/
def isComplete (t : τ) : Event κ τ → Bool
  | .complete _ u => u = t
  | _ => false

section
variable {s s' : State κ τ}

theorem Effect.run_room (h : Effect s s') {q : κ} {t : τ} (hlog : s'.log = s.log ++ [.run q t]) :
    (s.queue q).maxRunningTasks = 0 ∨ (s.queue q).runningTasks < (s.queue q).maxRunningTasks := by
  have hne : s'.log ≠ s.log := by
    rw [hlog]
    simp
  cases h with
  | same _ hlog' =>
    rcases hlog' with hlog' | ⟨e, hlog', hrun, -⟩
    · exact absurd hlog' hne
    · rw [hlog'] at hlog
      exact absurd (List.singleton_inj.1 (List.append_cancel_left hlog)) (hrun q t)
  | leaves u _ _ hlog' =>
    rw [hlog'] at hlog hne
    have hsame := List.append_cancel_left hlog
    split_ifs at hsame
    cases List.singleton_inj.1 hsame
  | enters _ _ _ _ _ hlog' => exact absurd hlog' hne
  | starts q' t' hs hlog' =>
    rw [hlog'] at hlog
    obtain ⟨rfl, rfl⟩ := Event.run.inj (List.singleton_inj.1 (List.append_cancel_left hlog))
    exact hs.room

theorem Effect.complete_once (h : Effect s s') {t : τ} (hc : (s.task t).hasComplete = true) :
    s'.log.countP (isComplete t) = s.log.countP (isComplete t) +
      if (s.task t).queued = true ∧ (s'.task t).queued = false then 1 else 0 := by
  have hstays : ¬ ((s.task t).queued = true ∧ (s.task t).queued = false) := by simp
  cases h with
  | same hsame hlog =>
    rw [hsame.queued, if_neg hstays, add_zero]
    rcases hlog with hlog | ⟨e, hlog, -, hne⟩
    · rw [hlog]
    · have he : isComplete t e = false := by
        cases e with
        | complete q u => exact absurd rfl (hne q u)
        | run q u => rfl
        | cancel q u type => rfl
        | kill q u => rfl
        | empty q => rfl
      rw [hlog, List.countP_append, List.countP_singleton, he]
      rfl
  | leaves u hl _ hlog =>
    rw [hlog, List.countP_append]
    by_cases hu : t = u
    · subst hu
      rw [if_pos hc, if_pos ⟨hl.queued, hl.self.1⟩]
      simp [isComplete]
    · rw [(hl.others t hu).1, if_neg hstays]
      split_ifs
      · have hne : ¬ u = t := fun heq => hu heq.symm
        simp [isComplete, hne]
      · simp
  | enters q u running first he hlog =>
    rw [hlog]
    by_cases hu : t = u
    · subst hu
      rw [if_neg (by simp [he.queued]), add_zero]
    · rw [(he.others t hu).1, if_neg hstays, add_zero]
  | starts q u hs hlog =>
    rw [hlog, List.countP_append]
    by_cases hu : t = u
    · subst hu
      rw [hs.self.1, if_neg hstays]
      simp [isComplete]
    · rw [(hs.others t hu).1, if_neg hstays]
      simp [isComplete]

end

/-- **The accounts.** In every run the counter of a queue is the length of its list of active tasks,
    and a task is on the list that its flags say. A task is started only while there is room, and
    each time a task leaves its queue its completion is called once. -/
theorem runqueue_accounts {s : State κ τ} (h : Reaches (fun _ _ => True) s) :
    Accounts s ∧ ∀ a s', step s a = some s' →
      (∀ q t, s'.log = s.log ++ [.run q t] → (s.queue q).maxRunningTasks = 0 ∨
        (s.queue q).runningTasks < (s.queue q).maxRunningTasks) ∧
      ∀ t, (s.task t).hasComplete = true → s'.log.countP (isComplete t) =
        s.log.countP (isComplete t) +
          if (s.task t).queued = true ∧ (s'.task t).queued = false then 1 else 0 :=
  ⟨h.accounts, fun _ _ hstep => ⟨fun _ _ => (step_effect hstep).run_room,
    fun _ => (step_effect hstep).complete_once⟩⟩

/-- Two tasks for a queue that runs one at a time: the first is started, and completes itself in its
    callback. -/
theorem runqueue_accounts_two : ∃ s : State Unit ℕ, Accounts s ∧
    s.log = [.run () 0, .complete () 0, .run () 1] ∧ (s.queue ()).tasksActive = [1] := by
  have hrun : (run [.call (.add () 0 false false), .call (.add () 1 false false),
      .call (.timer ()), .go, .call (.complete 0), .ret, .go, .ret, .go, .ret, .go]
        (emptyState 1)).map (fun s => (s.log, (s.queue ()).tasksActive)) =
      some ([.run () 0, .complete () 0, .run () 1], [1]) := by
    decide
  obtain ⟨s, hs, heq⟩ := Option.map_eq_some_iff.1 hrun
  obtain ⟨hlog, hactive⟩ := Prod.mk.inj heq
  exact ⟨s, (runqueue_accounts ((Reaches.init (emptyState_initial 1)).run hs)).1, hlog, hactive⟩

end Runqueue
