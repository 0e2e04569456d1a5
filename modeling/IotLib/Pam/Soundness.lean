/-
  Soundness of a module stack: what a walk that returns `PAM_SUCCESS` has done.
-/
import IotLib.Pam.Dispatch

namespace Pam

variable {F σ : Type}

/-! ## Successes, failures, and failures undone -/

/-- A module function returned `PAM_SUCCESS` and the action was `ok` or `done`. -/
def Event.Succeeded : Event → Prop
  | .ran _ _ real retval action _ =>
    real = true ∧ retval = pamSuccess ∧ (action = .ok ∨ action = .done)
  | .save _ => False

/-- The action was `bad` or `die`, or a bad jump. -/
def Event.Failed : Event → Prop
  | .ran _ _ _ _ action badJump => action = .bad ∨ action = .die ∨ badJump = true
  | .save _ => False

/-- The action was `reset`, at stack level `l`. -/
def Event.ResetAt (l : Nat) : Event → Prop
  | .ran _ level _ _ action _ => level = l ∧ action = .reset
  | .save _ => False

/-- A handler without a module function returned `PAM_SUCCESS`. -/
def Event.Phantom : Event → Prop
  | .ran _ _ real retval _ _ => real = false ∧ retval = pamSuccess
  | .save _ => False

def Granted (tr : List Event) : Prop := ∃ e ∈ tr, e.Succeeded

/-- Each failure is followed by a reset of some level `l`, and the state of `l`
    was last recorded before the failure. -/
def Undone (tr : List Event) : Prop :=
  ∀ pre e post, tr = pre ++ e :: post → e.Failed →
    ∃ l mid r rest, post = mid ++ r :: rest ∧ r.ResetAt l ∧ .save l ∈ pre ∧ .save l ∉ mid

theorem Granted.append {tr : List Event} (h : Granted tr) (tr' : List Event) :
    Granted (tr ++ tr') := by
  obtain ⟨e, he, hs⟩ := h
  exact ⟨e, List.mem_append_left _ he, hs⟩

theorem Undone.nil : Undone [] := by
  intro pre e post h
  simp at h

theorem Undone.append {tr tr' : List Event} (h : Undone tr)
    (h' : ∀ pre e post, tr' = pre ++ e :: post → e.Failed →
      ∃ l mid r rest, post = mid ++ r :: rest ∧ r.ResetAt l ∧ .save l ∈ tr ++ pre ∧
        .save l ∉ mid) : Undone (tr ++ tr') := by
  intro pre e post he hf
  rcases List.append_eq_append_iff.1 he with ⟨as, hpre, htr'⟩ | ⟨bs, htr, hpost⟩
  · rw [hpre]
    exact h' as e post htr' hf
  · cases bs with
    | nil =>
      simp only [List.append_nil, List.nil_append] at htr hpost
      obtain ⟨l, mid, r, rest, h1, h2, h3, h4⟩ := h' [] e post hpost.symm hf
      exact ⟨l, mid, r, rest, h1, h2, by simpa [htr] using h3, h4⟩
    | cons b bs =>
      simp only [List.cons_append, List.cons.injEq] at hpost
      obtain ⟨rfl, rfl⟩ := hpost
      obtain ⟨l, mid, r, rest, rfl, h2, h3, h4⟩ := h pre e bs htr hf
      exact ⟨l, mid, r, rest ++ tr', by simp, h2, h3, h4⟩

theorem Undone.append_one {tr : List Event} (h : Undone tr) {e : Event} (he : ¬ e.Failed) :
    Undone (tr ++ [e]) := by
  refine h.append fun pre e' post heq hf => absurd hf ?_
  obtain ⟨rfl, rfl, rfl⟩ : pre = [] ∧ e = e' ∧ post = [] := by
    cases pre <;> simp_all
  exact he

/-- A reset undoes everything since its level was recorded. -/
theorem Undone.reset {pre post : List Event} {l : Nat} (h : Undone pre) (hp : .save l ∉ post)
    {r : Event} (hr : r.ResetAt l) (hf : ¬ r.Failed) :
    Undone (pre ++ .save l :: post ++ [r]) := by
  rw [List.append_assoc]
  refine h.append fun pre' e post' heq hfe => ?_
  cases pre' with
  | nil =>
    simp only [List.cons_append, List.nil_append, List.cons.injEq] at heq
    rw [← heq.1] at hfe
    exact absurd hfe id
  | cons s pre' =>
    simp only [List.cons_append, List.cons.injEq] at heq
    obtain ⟨rfl, heq⟩ := heq
    rcases List.eq_nil_or_concat post' with rfl | ⟨mid, r', rfl⟩
    · -- the failure would be the reset itself
      obtain ⟨-, he⟩ := List.append_inj' heq rfl
      obtain rfl : r = e := by simpa using he
      exact absurd hfe hf
    · have heq' : post ++ [r] = (pre' ++ e :: mid) ++ [r'] := by simpa using heq
      obtain ⟨rfl, he⟩ := List.append_inj' heq' rfl
      obtain rfl : r = r' := by simpa using he
      exact ⟨l, mid, r, [], by simp, hr, by simp, fun hm => hp (by simp [hm])⟩

/-! ## The invariant -/

/-- The state of level `l` is the one recorded last: everything that had failed
    before was undone, unless the recorded impression is negative. -/
def SavedOk (w : Walk σ) (l : Nat) : Prop :=
  ∃ pre post, w.trace = pre ++ .save l :: post ∧ .save l ∉ post ∧
    ((w.substates l).impression ≠ .negative → Undone pre) ∧
    ((w.substates l).impression = .positive → (w.substates l).status = pamSuccess → Granted pre)

/-- The invariant of a walk inside level `level`. -/
structure Sound (level : Nat) (w : Walk σ) : Prop where
  granted : w.impression = .positive → w.status = pamSuccess → Granted w.trace
  undone : w.impression ≠ .negative → Undone w.trace
  saved : ∀ l ≤ level, SavedOk w l
  noPhantom : ∀ e ∈ w.trace, ¬ e.Phantom

theorem sound_fresh (mem : Nat → Substate) (p : Handle F σ) : Sound 0 (freshWalk mem p) := by
  refine ⟨by simp [freshWalk], fun _ => ?_, fun l hl => ?_, by simp [freshWalk, Event.Phantom]⟩
  · exact Undone.nil.append_one (e := .save 0) id
  · obtain rfl : l = 0 := by omega
    exact ⟨[], [], rfl, by simp, fun _ => Undone.nil, by simp [freshWalk]⟩

/-- Entering a level, at most one below the last one. -/
theorem Sound.enter {w : Walk σ} (hw : Sound w.prevLevel w) {h : Handler F}
    (hl : h.stackLevel ≤ w.prevLevel + 1) : Sound h.stackLevel (enter h w) := by
  unfold Pam.enter
  split_ifs with hlt
  · refine ⟨fun h1 h2 => (hw.granted h1 h2).append _, fun h1 => (hw.undone h1).append_one id,
      fun l hle => ?_, ?_⟩
    swap
    · intro e he
      rcases List.mem_append.1 he with he | he
      · exact hw.noPhantom e he
      · rw [List.mem_singleton.1 he]; exact id
    by_cases he : l = h.stackLevel
    · subst he
      exact ⟨w.trace, [], rfl, by simp, by simpa using hw.undone, by simpa using hw.granted⟩
    · obtain ⟨pre, post, h1, h2, h3, h4⟩ := hw.saved l (by omega)
      refine ⟨pre, post ++ [.save h.stackLevel], by simp [h1], ?_, ?_, ?_⟩
      · simp [h2, he]
      · simpa [Function.update_of_ne he] using h3
      · simpa [Function.update_of_ne he] using h4
  · exact ⟨hw.granted, hw.undone, fun l hle => hw.saved l (by omega), hw.noPhantom⟩

/-- A handler without a module function never returns `PAM_SUCCESS`. -/
theorem callModule_not_real (call : F → σ → Int × σ) (h : Handler F) (s : σ)
    (hr : (callModule call h s).2.1 = false) : (callModule call h s).1 ≠ pamSuccess := by
  unfold callModule at hr ⊢
  split_ifs at hr ⊢ with hm
  · simp [pamMustFailCode, pamPermDenied, pamSuccess]
  · cases hf : h.func with
    | none => simp [pamModuleUnknown, pamSuccess]
    | some f => simp [hf] at hr

/-- The action is `ok` or `done` only for the return code of the module itself. -/
theorem selectAction_ok {h : Handler F} {cached retval : Int}
    (ha : (selectAction h cached retval).2 = .ok ∨ (selectAction h cached retval).2 = .done) :
    (selectAction h cached retval).1 = retval := by
  unfold selectAction at ha ⊢
  split_ifs at ha ⊢ with hc
  · simp at ha
  · rfl

/-- What a verdict on a chain being frozen can do to impression and status. -/
theorem verdict_cases (h : Handler F) (tl : List (Handler F)) (w : Walk σ) (c r : Int)
    (a : Action) (v : Verdict) (hv : v = verdict .pleaseFreeze h tl w c r a) :
    (v.impression = .negative) ∨
    (a ≠ .bad ∧ a ≠ .die ∧ v.badJump = false ∧
      ((v.impression = w.impression ∧ v.status = w.status) ∨
       ((a = .ok ∨ a = .done) ∧ w.impression ≠ .negative ∧ v.status = r) ∨
       (a = .reset ∧ v.impression = (w.substates h.stackLevel).impression ∧
         v.status = (w.substates h.stackLevel).status))) := by
  subst hv
  cases a with
  | ok | done =>
    refine Or.inr ⟨by simp, by simp, rfl, ?_⟩
    by_cases ht : w.improvable ∧ (r ≠ pamIgnore ∨ c = r)
    · refine Or.inr (Or.inl ⟨by simp, ?_, by simp only [verdict, verdictOk, if_pos ht]⟩)
      rcases ht.1 with h1 | h1
      · simp [h1]
      · simp [h1.1]
    · exact Or.inl ⟨by simp only [verdict, verdictOk, if_neg ht],
        by simp only [verdict, verdictOk, if_neg ht]⟩
  | bad | die => exact Or.inl rfl
  | jump n =>
    simp only [verdict, verdictJump]
    by_cases hb : (jumpLoop h.stackLevel (n + 1) tl).2 = 0
    · exact Or.inr ⟨by simp, by simp, by simp [hb], Or.inl ⟨by simp [hb], by simp [hb]⟩⟩
    · exact Or.inl (by simp [hb])
  | reset => exact Or.inr ⟨by simp, by simp, rfl, Or.inr (Or.inr ⟨rfl, rfl, rfl⟩)⟩
  | ignore => exact Or.inr ⟨by simp, by simp, rfl, Or.inl ⟨rfl, rfl⟩⟩
  | undef => exact Or.inl rfl

theorem SavedOk.append {w w' : Walk σ} {l : Nat} (h : SavedOk w l)
    (hs : w'.substates = w.substates) {e : Event} (he : ∀ l, e ≠ .save l)
    (ht : w'.trace = w.trace ++ [e]) : SavedOk w' l := by
  obtain ⟨pre, post, h1, h2, h3, h4⟩ := h
  refine ⟨pre, post ++ [e], by rw [ht, h1]; simp, ?_, by rwa [hs], by rwa [hs]⟩
  simp only [List.mem_append, List.mem_singleton, not_or]
  exact ⟨h2, fun h => he l h.symm⟩

/-- Consuming a result keeps the invariant. -/
theorem Sound.consume {call : F → σ → Int × σ} {w : Walk σ} {h : Handler F}
    (hw : Sound h.stackLevel w) (tl : List (Handler F)) :
    Sound h.stackLevel (consume .pleaseFreeze h tl w (callModule call h w.world)).2 := by
  set r := callModule call h w.world with hr
  set a := selectAction h r.1 r.1 with ha
  set v := verdict .pleaseFreeze h tl w r.1 a.1 a.2 with hv
  simp only [Pam.consume, consultCache, ← ha, ← hv]
  refine ⟨fun h1 h2 => ?_, fun h1 => ?_, fun l hl => ?_, fun e he => ?_⟩
  · rcases verdict_cases h tl w r.1 a.1 a.2 v hv with hn | ⟨-, -, -, ⟨h3, h4⟩ | ⟨h3, -, h4⟩ | ⟨-, h3, h4⟩⟩
    · exact absurd (h1.symm.trans hn) (by simp)
    · exact (hw.granted (h3 ▸ h1) (h4 ▸ h2)).append _
    · -- the module itself has returned `PAM_SUCCESS`
      refine ⟨_, List.mem_append_right _ (List.mem_singleton_self _), ?_, ?_, h3⟩
      · by_contra hreal
        refine callModule_not_real call h w.world (by simpa using hreal) ?_
        rw [← hr, ← selectAction_ok h3, ← h4]
        exact h2
      · rw [← selectAction_ok h3, ← h4]
        exact h2
    · obtain ⟨pre, post, h5, -, -, h6⟩ := hw.saved _ le_rfl
      have := h6 (h3 ▸ h1) (h4 ▸ h2)
      simp only [h5, List.append_assoc]
      exact this.append _
  · rcases verdict_cases h tl w r.1 a.1 a.2 v hv with
      hn | ⟨hbad, hdie, hj, ⟨h3, -⟩ | ⟨-, h3, -⟩ | ⟨hreset, h3, -⟩⟩
    · exact absurd hn h1
    · exact (hw.undone (h3 ▸ h1)).append_one (by simp [Event.Failed, hbad, hdie, hj])
    · exact (hw.undone h3).append_one (by simp [Event.Failed, hbad, hdie, hj])
    · obtain ⟨pre, post, h5, h6, h7, -⟩ := hw.saved _ le_rfl
      have := h7 (h3 ▸ h1)
      simp only [h5]
      exact this.reset h6 ⟨rfl, hreset⟩ (by simp [Event.Failed, hbad, hdie, hj])
  · exact (hw.saved l hl).append rfl (fun _ => by simp) rfl
  · rcases List.mem_append.1 he with he | he
    · exact hw.noPhantom e he
    · rw [List.mem_singleton.1 he]
      exact fun hp => callModule_not_real call h w.world hp.1 hp.2

/-! ## The whole walk -/

/-- The invariant holds at the end of every walk that is not suspended. -/
theorem Sound.loop {call : F → σ → Int × σ} {hs : List (Handler F)} {k : Nat} {w w' : Walk σ}
    (hw : Sound w.prevLevel w) (hl : LevelsOk hs k w.prevLevel)
    (he : loop call .pleaseFreeze hs k w = .finished w') : Sound w'.prevLevel w' :=
  loop_invariant (fun _ _ h hle => h.enter hle)
    (fun _ _ h => ⟨h.granted, h.undone, h.saved, h.noPhantom⟩)
    (fun _ tl _ h _ => h.consume tl) hw hl he

/-- A walk that returns `PAM_SUCCESS` has passed the sanity check. -/
theorem Walk.result_success {w : Walk σ} (h : w.result = pamSuccess) :
    w.status = pamSuccess ∧ w.impression = .positive := by
  unfold Walk.result at h
  split_ifs at h with hs
  · exact absurd h (by decide)
  · exact ⟨h, by by_contra hi; exact hs ⟨h, hi⟩⟩

/-- **A stack that returns `PAM_SUCCESS` is sound**: some module function has returned `PAM_SUCCESS`
    with the action `ok` or `done`, each `bad`, `die` and bad jump was undone by a later reset to a
    state recorded before it, and no handler without a module function has counted as a success. -/
theorem pamDispatchAux_sound (call : F → σ → Int × σ) (mem : Option (Nat → Substate))
    (p : Handle F σ) (c : Chain F)
    (hret : (pamDispatchAux call mem p c.handlers false .pleaseFreeze).1 = pamSuccess) :
    Granted (pamDispatchAux call mem p c.handlers false .pleaseFreeze).2.2 ∧
      Undone (pamDispatchAux call mem p c.handlers false .pleaseFreeze).2.2 ∧
      ∀ e ∈ (pamDispatchAux call mem p c.handlers false .pleaseFreeze).2.2, ¬ e.Phantom := by
  unfold pamDispatchAux at hret ⊢
  by_cases hnil : c.handlers = []
  · rw [if_pos hnil] at hret
    exact absurd (show pamMustFailCode = pamSuccess from hret) (by decide)
  · simp only [if_neg hnil, Bool.false_eq_true, if_false] at hret ⊢
    cases mem with
    | none => exact absurd (show pamBufErr = pamSuccess from hret) (by decide)
    | some m =>
      simp only at hret ⊢
      cases hl : loop call .pleaseFreeze c.handlers 0 (freshWalk m p) with
      | incomplete w =>
        rw [hl] at hret
        exact absurd (show pamIncomplete = pamSuccess from hret) (by decide)
      | finished w =>
        rw [hl] at hret
        obtain ⟨hst, himp⟩ := Walk.result_success hret
        have hw := Sound.loop (sound_fresh m p) c.levelsOk hl
        exact ⟨hw.granted himp hst, hw.undone (by simp [himp]), hw.noPhantom⟩

/-- A chain in which a substack fails, forgets its failure, and is followed by a module that
    succeeds. A module function is the code it returns. -/
def forgivenChain : Chain Int where
  handlers :=
    [⟨.substack, none, fun _ => .undef, 0, 0, 0⟩,
     ⟨.module, some 7, fun _ => .bad, 1, 1, 1⟩,
     ⟨.module, some 25, fun _ => .reset, 2, 2, 1⟩,
     ⟨.module, some 0, fun _ => .ok, 3, 3, 0⟩]
  head_level := by simp
  next_level := by simp
  max_level := by simp [pamSubstackMaxLevel]

/-- A handle without a suspended walk. -/
def idleHandle (c : Chain Int) : Handle Int Unit where
  conf := fun _ => c
  other := fun _ => ⟨[], by simp, by simp, by simp⟩
  former := ⟨none, 0, .undef, pamMustFailCode, fun _ => ⟨.undef, 0⟩⟩
  calledFromModule := false
  cells := fun _ => pamInvalidRetval
  grantor := []
  world := ()

theorem pamDispatchAux_sound_forgiven :
    (pamDispatchAux (fun f s => (f, s)) (some fun _ => ⟨.undef, 0⟩) (idleHandle forgivenChain)
      forgivenChain.handlers false .pleaseFreeze).1 = pamSuccess ∧
    Undone (pamDispatchAux (fun f s => (f, s)) (some fun _ => ⟨.undef, 0⟩)
      (idleHandle forgivenChain) forgivenChain.handlers false .pleaseFreeze).2.2 :=
  ⟨by decide, (pamDispatchAux_sound _ _ _ forgivenChain (by decide)).2.1⟩

end Pam
