/-
  Deleted descriptors and their callbacks.

  Events of a descriptor wait in the kernel, in the current batch and on the stack of running
  callbacks. Deleting a descriptor clears the first two. It clears its flags before it looks at the
  stack, where only edge-triggered descriptors are looked up: what is buffered there stays.
-/
import IotLib.Uloop.Loop

namespace Uloop

/-! ## What deletion leaves -/

/-- The stack of running callbacks is not touched. -/
@[simp] theorem uloopFdDelete_fdStack (s : Loop) (fd : FdId) :
    (uloopFdDelete s fd).fdStack = s.fdStack := by
  unfold uloopFdDelete
  dsimp only
  split_ifs
  · rfl
  · simp [uloopFdDelete', Loop.setFd, uloopFdStackEvent]

@[simp] theorem uloopFdDelete_deleted (s : Loop) (fd : FdId) :
    (uloopFdDelete s fd).deleted = s.deleted := by
  unfold uloopFdDelete
  dsimp only
  split_ifs <;> rfl

@[simp] theorem uloopFdDelete_invoked (s : Loop) (fd : FdId) :
    (uloopFdDelete s fd).invoked = s.invoked := by
  unfold uloopFdDelete
  dsimp only
  split_ifs <;> rfl

@[simp] theorem uloopFdDelete_curFds (s : Loop) (fd : FdId) :
    (uloopFdDelete s fd).curFds =
      s.curFds.map fun cur => if cur.1 = some fd then (none, cur.2) else cur := by
  unfold uloopFdDelete
  dsimp only
  split_ifs <;> rfl

theorem mem_uloopFdDelete_curFds {s : Loop} {fd g : FdId} {events : UInt32}
    (h : (some g, events) ∈ (uloopFdDelete s fd).curFds) : (some g, events) ∈ s.curFds ∧ g ≠ fd := by
  rw [uloopFdDelete_curFds] at h
  obtain ⟨cur, hcur, heq⟩ := List.mem_map.1 h
  split_ifs at heq with hfd
  · cases heq
  · subst heq
    exact ⟨hcur, fun hg => hfd (congrArg some hg)⟩

/-- The kernel keeps registered descriptors only. -/
def Polled (s : Loop) : Prop := ∀ fd, s.polled fd = true → (s.fds fd).registered = true

theorem uloopFdDelete_polled {s : Loop} (h : Polled s) {fd g : FdId}
    (hg : (uloopFdDelete s fd).polled g = true) : s.polled g = true ∧ g ≠ fd := by
  unfold uloopFdDelete at hg
  dsimp only at hg
  split_ifs at hg with hreg
  · refine ⟨hg, ?_⟩
    rintro rfl
    rw [h g hg] at hreg
    cases hreg
  · simp only [uloopFdDelete', Loop.setFd] at hg
    split_ifs at hg with hgfd
    exact ⟨hg, hgfd⟩

theorem Polled.uloopFdDelete {s : Loop} (h : Polled s) (fd : FdId) : Polled (uloopFdDelete s fd) := by
  intro g hg
  obtain ⟨hold, hne⟩ := uloopFdDelete_polled h hg
  have hreg := h g hold
  unfold Uloop.uloopFdDelete
  dsimp only
  split_ifs
  · exact hreg
  · simp only [uloopFdDelete', Loop.setFd, hne, if_false]
    exact hreg

/-! ## The invariant -/

/-- Nothing waits for a descriptor that the program has deleted. -/
structure Inv (s : Loop) : Prop where
  polled : Polled s
  kernel : ∀ fd, s.polled fd = true → s.deleted fd = false
  batch : ∀ fd events, (some fd, events) ∈ s.curFds → s.deleted fd = false
  stack : ∀ cur ∈ s.fdStack, ∀ fd, cur.fd = some fd → s.deleted fd = true →
    cur.events &&& ULOOP_EVENT_MASK = 0
  invoked : ∀ p ∈ s.invoked, p.2 = false

/-- A call that deletes a descriptor finds no events for it on the stack. -/
def Unbuffered (s : Loop) (c : Call) : Prop :=
  ∀ fd ∈ c.deletes, ∀ cur ∈ s.fdStack, cur.fd = some fd → cur.events &&& ULOOP_EVENT_MASK = 0

instance (s : Loop) (c : Call) : Decidable (Unbuffered s c) :=
  inferInstanceAs (Decidable (∀ fd ∈ c.deletes, ∀ cur ∈ s.fdStack, cur.fd = some fd →
    cur.events &&& ULOOP_EVENT_MASK = 0))

section
variable {s : Loop} {fd : FdId}

/-- The loop's own deletions. -/
theorem Inv.drop (h : Inv s) (fd : FdId) : Inv (uloopFdDelete s fd) where
  polled := h.polled.uloopFdDelete fd
  kernel g hg := by
    rw [uloopFdDelete_deleted]
    exact h.kernel g (uloopFdDelete_polled h.polled hg).1
  batch g events hg := by
    rw [uloopFdDelete_deleted]
    exact h.batch g events (mem_uloopFdDelete_curFds hg).1
  stack := by
    rw [uloopFdDelete_fdStack, uloopFdDelete_deleted]
    exact h.stack
  invoked := by
    rw [uloopFdDelete_invoked]
    exact h.invoked

/-- Deletions of the program. -/
theorem Inv.delete (h : Inv s)
    (hfd : ∀ cur ∈ s.fdStack, cur.fd = some fd → cur.events &&& ULOOP_EVENT_MASK = 0) :
    Inv { uloopFdDelete s fd with deleted := fun g => if some fd = some g then true else s.deleted g } where
  polled := h.polled.uloopFdDelete fd
  kernel g hg := by
    obtain ⟨hold, hne⟩ := uloopFdDelete_polled h.polled hg
    dsimp only
    rw [if_neg fun heq => hne (Option.some.inj heq).symm]
    exact h.kernel g hold
  batch g events hg := by
    obtain ⟨hold, hne⟩ := mem_uloopFdDelete_curFds hg
    dsimp only
    rw [if_neg fun heq => hne (Option.some.inj heq).symm]
    exact h.batch g events hold
  stack cur hcur g hg hdel := by
    have hcur : cur ∈ s.fdStack := by
      rw [← uloopFdDelete_fdStack s fd]
      exact hcur
    dsimp only at hdel
    split_ifs at hdel with hgfd
    · exact hfd cur hcur (hg.trans hgfd.symm)
    · exact h.stack cur hcur g hg hdel
  invoked := by
    dsimp only
    rw [uloopFdDelete_invoked]
    exact h.invoked

/-- Fields of a descriptor that the loop does not depend on. -/
theorem Inv.setFd (h : Inv s) (fd : FdId) {f : UloopFd → UloopFd}
    (hf : ∀ x, (f x).registered = x.registered) : Inv (s.setFd fd f) where
  polled g hg := by
    have := h.polled g hg
    unfold Loop.setFd
    dsimp only
    split_ifs
    · rw [hf]
      exact this
    · exact this
  kernel := h.kernel
  batch := h.batch
  stack := h.stack
  invoked := h.invoked

theorem Inv.add (h : Inv s) (f : UloopFd → UloopFd) (hf : ∀ x, (f x).registered = true) :
    Inv { s.setFd fd f with
      polled := fun g => if g = fd then true else s.polled g
      deleted := fun g => if some fd = some g then false else s.deleted g } where
  polled g hg := by
    unfold Loop.setFd
    dsimp only at hg ⊢
    split_ifs at hg ⊢ with hgfd
    · exact hf _
    · exact h.polled g hg
  kernel g hg := by
    dsimp only at hg ⊢
    split_ifs with hgfd
    · rfl
    · rw [if_neg fun heq : g = fd => hgfd (congrArg some heq.symm)] at hg
      exact h.kernel g hg
  batch g events hg := by
    dsimp only
    split_ifs
    · rfl
    · exact h.batch g events hg
  stack cur hcur g hg hdel := by
    dsimp only at hdel
    split_ifs at hdel
    exact h.stack cur hcur g hg hdel
  invoked := h.invoked

/-! ## The loop -/

/-- Events of descriptors that are not deleted enter the batch. -/
theorem Inv.enter (h : Inv s) {entries : List (Option FdId × UInt32)}
    (hentries : ∀ fd events, (some fd, events) ∈ entries → s.deleted fd = false) :
    Inv { s with curFds := entries } :=
  ⟨h.polled, h.kernel, hentries, h.stack, h.invoked⟩

theorem fetchLoop_inv {evs : List EpollEvent} (hevs : ∀ ev ∈ evs, s.deleted ev.fd = false)
    (h : Inv s) : Inv (fetchLoop evs s) := by
  induction evs generalizing s with
  | nil => exact h
  | cons ev evs ih =>
    obtain ⟨hev, hevs⟩ := List.forall_mem_cons.1 hevs
    -- The state after the error was seen, in which the same descriptors are deleted.
    have herr : ∀ s' : Loop, s' = (if ev.err then
          let s := s.setFd ev.fd fun f => { f with error := true }
          if (s.fds ev.fd).flags &&& ULOOP_ERROR_CB = 0 then
            { uloopFdDelete { s with curFds := [] } ev.fd with curFds := s.curFds }
          else s
        else s) → Inv s' ∧ s'.deleted = s.deleted := by
      rintro s' rfl
      have hset := h.setFd ev.fd (f := fun f => { f with error := true }) fun _ => rfl
      split_ifs
      · dsimp only
        split_ifs
        · have hempty : Inv { s.setFd ev.fd (fun f => { f with error := true }) with curFds := [] } :=
            hset.enter fun fd events hmem => by cases hmem
          refine ⟨(hempty.drop ev.fd).enter ?_, ?_⟩
          · rw [uloopFdDelete_deleted]
            exact h.batch
          · rw [uloopFdDelete_deleted]
            rfl
        · exact ⟨hset, rfl⟩
      · exact ⟨h, rfl⟩
    unfold fetchLoop
    obtain ⟨hinv, hdel⟩ := herr _ rfl
    dsimp only at hinv hdel ⊢
    generalize (if ev.err = true then _ else s : Loop) = s' at hinv hdel
    -- Every entry of the batch is one of before, or the event's.
    have happend : ∀ (t : Loop) (e : Option FdId × UInt32), Inv t → t.deleted = s.deleted →
        (∀ fd, e.1 = some fd → fd = ev.fd) →
        Inv (fetchLoop evs { t with curFds := t.curFds ++ [e] }) := by
      intro t e ht htdel he
      refine ih (fun ev' hev' => ?_) (ht.enter fun fd events hmem => ?_)
      · dsimp only
        rw [htdel]
        exact hevs ev' hev'
      · rcases List.mem_append.1 hmem with hmem | hmem
        · exact ht.batch fd events hmem
        · rw [htdel, he fd (by rw [← List.mem_singleton.1 hmem])]
          exact hev
    by_cases hnone : (!(ev.rdhup || ev.readable || ev.writable || ev.err)) = true
    · rw [if_pos hnone]
      exact happend s' (none, 0) hinv hdel fun fd hfd => by cases hfd
    · rw [if_neg hnone]
      refine happend _ _ ?_ ?_ fun fd hfd => (Option.some.inj hfd).symm
      · by_cases hrdhup : ev.rdhup = true
        · rw [if_pos hrdhup]
          exact hinv.setFd ev.fd fun _ => rfl
        · rw [if_neg hrdhup]
          exact hinv
      · by_cases hrdhup : ev.rdhup = true
        · rw [if_pos hrdhup]
          exact hdel
        · rw [if_neg hrdhup]
          exact hdel

theorem stackMark_mem {fd : FdId} {ev : UInt32} {stack stack' : List UloopFdStack}
    (h : stackMark fd (some ev) stack = some stack') {cur : UloopFdStack} (hcur : cur ∈ stack') :
    cur ∈ stack ∨ cur.fd = some fd := by
  induction stack generalizing stack' with
  | nil => cases h
  | cons top next ih =>
    unfold stackMark at h
    split_ifs at h with hne
    · obtain ⟨next', hnext', rfl⟩ := Option.map_eq_some_iff.1 h
      rcases List.mem_cons.1 hcur with rfl | hcur
      · exact .inl List.mem_cons_self
      · rcases ih hnext' hcur with hold | hfd
        · exact .inl (List.mem_cons_of_mem _ hold)
        · exact .inr hfd
    · obtain rfl := Option.some.inj h
      rcases List.mem_cons.1 hcur with rfl | hcur
      · exact .inr (not_not.1 hne)
      · exact .inl (List.mem_cons_of_mem _ hcur)

/-- A callback of a descriptor that is not deleted is invoked. -/
theorem Inv.invoke (h : Inv s) (hfd : s.deleted fd = false) : Inv (invoke s fd) where
  polled := h.polled
  kernel := h.kernel
  batch := h.batch
  stack := h.stack
  invoked p hp := by
    rcases List.mem_append.1 hp with hp | hp
    · exact h.invoked p hp
    · rw [List.mem_singleton.1 hp]
      exact hfd

/-- The stack changes, and its entries of deleted descriptors hold no events. -/
theorem Inv.restack (h : Inv s) {stack : List UloopFdStack}
    (hstack : ∀ cur ∈ stack, ∀ fd, cur.fd = some fd → s.deleted fd = true →
      cur.events &&& ULOOP_EVENT_MASK = 0) : Inv { s with fdStack := stack } :=
  ⟨h.polled, h.kernel, h.batch, hstack, h.invoked⟩

theorem runLoop_inv {entries : List (Option FdId × UInt32)} (h : Inv s)
    (hentries : ∀ fd events, (some fd, events) ∈ entries → s.deleted fd = false) :
    Inv (runLoop entries s) := by
  induction entries generalizing s with
  | nil => exact h.enter fun fd events hmem => by cases hmem
  | cons e rest ih =>
    have hrest : ∀ fd events, (some fd, events) ∈ rest → s.deleted fd = false :=
      fun fd events hmem => hentries fd events (List.mem_cons_of_mem _ hmem)
    obtain ⟨fd?, events⟩ := e
    cases fd? with
    | none => exact ih h hrest
    | some fd =>
      have hfd : s.deleted fd = false := hentries fd events List.mem_cons_self
      unfold runLoop
      split_ifs
      · exact ih h hrest
      · cases hstack : uloopFdStackEvent s fd (some events) with
        | none =>
          refine Inv.invoke ((h.enter hrest).restack fun cur hcur g hg hdel => ?_) hfd
          rcases List.mem_cons.1 hcur with rfl | hcur
          · exact UInt32.zero_and
          · exact h.stack cur hcur g hg hdel
        | some stack =>
          refine ih (h.restack fun cur hcur g hg hdel => ?_) hrest
          unfold uloopFdStackEvent at hstack
          split_ifs at hstack
          rcases stackMark_mem hstack hcur with hold | hcurfd
          · exact h.stack cur hold g hg hdel
          · obtain rfl : g = fd := Option.some.inj (hg.symm.trans hcurfd)
            rw [hfd] at hdel
            cases hdel

theorem uloopRunEvents_inv (h : Inv s) (evs : List EpollEvent) : Inv (uloopRunEvents s evs) := by
  unfold uloopRunEvents
  dsimp only
  split_ifs
  · have hfetch := @fetchLoop_inv s (evs.filter fun ev => s.polled ev.fd) (fun ev hev =>
      h.kernel ev.fd (List.mem_filter.1 hev).2) h
    exact runLoop_inv hfetch hfetch.batch
  · exact runLoop_inv h h.batch

theorem callbackReturn_inv (h : Inv s) : Inv (callbackReturn s) := by
  unfold callbackReturn
  cases hstack : s.fdStack with
  | nil => exact h
  | cons cur next =>
    have hnext : ∀ f ∈ next, ∀ fd, f.fd = some fd → s.deleted fd = true →
        f.events &&& ULOOP_EVENT_MASK = 0 := fun f hf =>
      h.stack f (hstack ▸ List.mem_cons_of_mem _ hf)
    have hcur := h.stack cur (hstack ▸ List.mem_cons_self)
    dsimp only
    cases hfd : cur.fd with
    | none => exact h.restack hnext
    | some fd =>
      dsimp only
      split_ifs with hmask
      · exact h.restack hnext
      · refine Inv.invoke (h.restack fun f hf g hg hdel => ?_) ?_
        · rcases List.mem_cons.1 hf with rfl | hf
          · exact UInt32.zero_and
          · exact hnext f hf g hg hdel
        · exact Bool.eq_false_iff.2 fun hdel => hmask (hcur fd hfd hdel)

/-- A step that deletes a descriptor. -/
theorem step_deletes {c : Call} (hperform : perform s c = uloopFdDelete s fd)
    (hdel : c.deletes = some fd) (hreg : c.registers = none) : step s c =
      { uloopFdDelete s fd with
        deleted := fun g => if some fd = some g then true else s.deleted g } := by
  unfold step
  rw [hperform, hdel, hreg]
  simp only [reduceCtorEq, if_false, uloopFdDelete_deleted]

theorem step_inv (h : Inv s) {c : Call} (hc : Unbuffered s c) : Inv (step s c) := by
  cases c with
  | add fd flags ok =>
    by_cases hflags : flags &&& (ULOOP_READ ||| ULOOP_WRITE) = 0
    · have hdel : (Call.add fd flags ok).deletes = some fd := if_pos hflags
      have hreg : (Call.add fd flags ok).registers = none := by
        cases ok
        · rfl
        · exact if_pos hflags
      have hperform : perform s (.add fd flags ok) = uloopFdDelete s fd := if_pos hflags
      rw [step_deletes hperform hdel hreg]
      exact h.delete (hc fd hdel)
    · cases ok with
      | false => simpa [step, perform, uloopFdAdd, hflags, Call.deletes, Call.registers] using h
      | true =>
        have := @Inv.add s fd h (fun f =>
          { f with flags := flags &&& 0xff, registered := true, eof := false, error := false })
          fun _ => rfl
        simpa [step, perform, uloopFdAdd, hflags, Call.deletes, Call.registers, Loop.setFd]
          using this
  | delete fd =>
    rw [step_deletes rfl rfl rfl]
    exact h.delete (hc fd rfl)
  | setCb fd cb => exact @Inv.setFd s h fd (fun f => { f with cb := cb }) fun _ => rfl
  | runEvents evs => exact uloopRunEvents_inv h evs
  | ret => exact callbackReturn_inv h

theorem init_inv : Inv init where
  polled _ h := by cases h
  kernel _ _ := rfl
  batch _ _ h := by cases h
  stack _ h := by cases h
  invoked _ h := by cases h

end

/-- **Deletion is final** in every run that never deletes a descriptor while events are
    buffered for it on the stack of running callbacks: no callback is invoked for a
    descriptor that the program has deleted and not added again. -/
theorem invoked_not_deleted (calls : List Call) (h : Run.Admits step Unbuffered init calls) :
    ∀ p ∈ (Run.run step init calls).invoked, p.2 = false :=
  (h.invariant (fun _ _ hc hinv => step_inv hinv hc) init_inv).invoked

/-- A callback deletes its descriptor after a nested loop has consumed one event of it, which
    was not buffered since the descriptor is level-triggered. -/
theorem invoked_not_deleted_level :
    (0, true) ∉ (Run.run step init [.setCb 0 true, .add 0 ULOOP_READ true,
        .runEvents [⟨0, false, false, true, false⟩], .runEvents [⟨0, false, false, true, false⟩],
        .ret, .delete 0, .ret]).invoked := by
  intro h
  cases invoked_not_deleted _ (by decide) _ h

/-- The callback of an edge-triggered descriptor runs a nested loop, which buffers an event,
    deletes the descriptor and returns: it is invoked again. -/
theorem invoked_deleted_edge :
    ¬ ∀ calls, ∀ p ∈ (Run.run step init calls).invoked, p.2 = false := by
  intro h
  have := h [.setCb 0 true, .add 0 (ULOOP_READ ||| ULOOP_EDGE_TRIGGER) true,
    .runEvents [⟨0, false, false, true, false⟩], .runEvents [⟨0, false, false, true, false⟩],
    .delete 0, .ret] (0, true) (by decide)
  cases this

end Uloop
