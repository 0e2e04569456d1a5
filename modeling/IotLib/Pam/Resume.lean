/-
  Suspended walks: dispatching again until no module answers `PAM_INCOMPLETE`
  has the outcome of one walk in which each module answers at once.
-/
import IotLib.Pam.Dispatch

namespace Pam

variable {F τ : Type}

/-! ## Modules that answer late -/

/-- The modules `fin`, except that in state `t` the function `f` answers `PAM_INCOMPLETE` `delay f
    t` times before its final code. The second component of the state counts the answers given so
    far. -/
def delayed (fin : F → τ → Int × τ) (delay : F → τ → Nat) (f : F) (s : τ × Nat) :
    Int × (τ × Nat) :=
  if s.2 < delay f s.1 then (pamIncomplete, (s.1, s.2 + 1))
  else ((fin f s.1).1, ((fin f s.1).2, 0))

/-- The application: `_pam_dispatch` is called again, with the same choice, as
    long as it returns `PAM_INCOMPLETE` and at most `n` more times. -/
def dispatchAgain {σ : Type} (call : F → σ → Int × σ) (mem : Option (Nat → Substate))
    (choice : Choice) : Nat → Handle F σ → Int × Handle F σ × List Event
  | 0, p => pamDispatch call mem p choice
  | n + 1, p =>
    let r := pamDispatch call mem p choice
    if r.1 = pamIncomplete then
      let r' := dispatchAgain call mem choice n r.2.1
      (r'.1, r'.2.1, r.2.2 ++ r'.2.2)
    else r

/-- The position and the final code of the handlers that were run. -/
def results (tr : List Event) : List (Nat × Int) :=
  tr.filterMap fun
    | .ran depth _ _ retval _ _ => some (depth, retval)
    | .save _ => none

theorem results_append (tr tr' : List Event) : results (tr ++ tr') = results tr ++ results tr' :=
  List.filterMap_append

/-! ## Corresponding walks -/

/-- The walk `v` with late modules corresponds to the walk `w`; `acc` are the
    results consumed by earlier calls. -/
structure Same (acc : List (Nat × Int)) (w : Walk τ) (v : Walk (τ × Nat)) : Prop where
  depth : v.depth = w.depth
  impression : v.impression = w.impression
  status : v.status = w.status
  substates : v.substates = w.substates
  cells : v.cells = w.cells
  grantor : v.grantor = w.grantor
  world : v.world.1 = w.world
  results : acc ++ results v.trace = results w.trace

section
variable {acc : List (Nat × Int)} {w : Walk τ} {v : Walk (τ × Nat)}

theorem Same.result (hs : Same acc w v) : v.result = w.result := by
  unfold Walk.result
  rw [hs.status, hs.impression]

theorem Same.enter (hs : Same acc w v) (hp : v.prevLevel = w.prevLevel) (h : Handler F) :
    Same acc (enter h w) (enter h v) := by
  unfold Pam.enter
  rw [hp]
  split_ifs
  · exact ⟨hs.depth, hs.impression, hs.status,
      by simp only [hs.impression, hs.status, hs.substates], hs.cells, hs.grantor, hs.world,
      by simpa [results_append, Pam.results] using hs.results⟩
  · exact hs

theorem Same.passSubstack (hs : Same acc w v) (h : Handler F) :
    Same acc (passSubstack h w) (passSubstack h v) :=
  ⟨congrArg (· + 1) hs.depth, hs.impression, hs.status, hs.substates, hs.cells, hs.grantor,
    hs.world, hs.results⟩

/-- The verdict only reads the impression, the status and the saved states. -/
theorem Same.verdict (hs : Same acc w v) (use : UseCached) (h : Handler F)
    (tl : List (Handler F)) (c r : Int) (a : Action) :
    verdict use h tl v c r a = verdict use h tl w c r a := by
  have himp : v.improvable ↔ w.improvable := by
    unfold Walk.improvable
    rw [hs.impression, hs.status]
  cases a with
  | ok | done => simp only [Pam.verdict, verdictOk, himp, hs.impression, hs.status]
  | bad | die => simp only [Pam.verdict, verdictBad, hs.impression, hs.status]
  | jump n => simp only [Pam.verdict, verdictJump, himp, hs.impression, hs.status]
  | reset => simp only [Pam.verdict, hs.substates]
  | ignore => simp only [Pam.verdict, hs.impression, hs.status]
  | undef => rfl

/-- The same final result is consumed in the same way. -/
theorem Same.consume (hs : Same acc w v) (use : UseCached) (h : Handler F)
    (tl : List (Handler F)) {r : Int × Bool × τ} {r' : Int × Bool × (τ × Nat)}
    (h1 : r'.1 = r.1) (h2 : r'.2.1 = r.2.1) (h3 : r'.2.2.1 = r.2.2) :
    (consume use h tl v r').1 = (consume use h tl w r).1 ∧
      Same acc (consume use h tl w r).2 (consume use h tl v r').2 := by
  simp only [Pam.consume, h1, h2, hs.cells, hs.verdict, hs.depth, hs.grantor]
  refine ⟨trivial, rfl, rfl, rfl, hs.substates, rfl, rfl, h3, ?_⟩
  simp only [results_append, ← List.append_assoc, hs.results]

end

/-! ## Where a walk is suspended -/

variable {acc : List (Nat × Int)} {h : Handler F} {σ : Type} {v : Walk (τ × Nat)}

section
variable (fin : F → τ → Int × τ) (delay : F → τ → Nat) (use : UseCached)

/-- How many more times the function of `h` answers `PAM_INCOMPLETE`. -/
def pending (h : Handler F) (v : Walk (τ × Nat)) : Nat :=
  match h.func with
  | none => 0
  | some f => delay f v.world.1 - v.world.2

theorem callModule_delayed (h : Handler F) (v : Walk (τ × Nat))
    (hfin : ∀ f t, (fin f t).1 ≠ pamIncomplete) :
    let r' := callModule (delayed fin delay) h v.world
    let r := callModule fin h v.world.1
    r.1 ≠ pamIncomplete ∧
    ((r'.1 = pamIncomplete ∧ r'.2.2.1 = v.world.1 ∧
        pending delay h { v with world := r'.2.2 } < pending delay h v) ∨
      (r'.1 = r.1 ∧ r'.2.1 = r.2.1 ∧ r'.2.2.1 = r.2.2)) := by
  simp only [callModule, pending]
  by_cases hm : h.handlerType = .mustFail
  · simp only [if_pos hm]
    exact ⟨by decide, Or.inr ⟨trivial, trivial, trivial⟩⟩
  · simp only [if_neg hm]
    cases hf : h.func with
    | none =>
      exact ⟨show pamModuleUnknown ≠ pamIncomplete by decide, Or.inr ⟨rfl, rfl, rfl⟩⟩
    | some f =>
      refine ⟨hfin f _, ?_⟩
      by_cases hd : v.world.2 < delay f v.world.1
      · refine Or.inl ⟨by simp [delayed, hd], by simp [delayed, hd], ?_⟩
        simp only [delayed, if_pos hd]
        omega
      · exact Or.inr ⟨by simp [delayed, hd], rfl, by simp [delayed, hd]⟩

/-- The walk goes on at a handler whose level has been entered. -/
def goOn {σ : Type} (call : F → σ → Int × σ) (h : Handler F) (tl : List (Handler F))
    (w : Walk σ) : Outcome σ :=
  match body call use h tl w with
  | .incomplete w' => .incomplete w'
  | .next k w' => loop call use tl k w'

/-- The level of the handler before the one reached over `sk`. -/
def predLevel (level : Nat) (sk : List (Handler F)) : Nat :=
  (sk.getLast?.map Handler.stackLevel).getD level

theorem predLevel_cons (level : Nat) (h : Handler F) (sk : List (Handler F)) :
    predLevel level (h :: sk) = predLevel h.stackLevel sk := by
  cases sk with
  | nil => simp [predLevel]
  | cons x sk => simp [predLevel, List.getLast?_cons]

theorem predLevel_append (level : Nat) : ∀ sk sk' : List (Handler F),
    predLevel level (sk ++ sk') = predLevel (predLevel level sk) sk'
  | [], sk' => rfl
  | h :: sk, sk' => by
    rw [List.cons_append, predLevel_cons, predLevel_cons, predLevel_append]

/-- The handler before the suspended one is only at a shallower level if the
    level of the suspended one has just been entered. -/
def Entered {σ : Type} (level : Nat) (h : Handler F) (w : Walk σ) : Prop :=
  level < h.stackLevel → w.substates h.stackLevel = ⟨w.impression, w.status⟩

/-- The handler that follows the `k` skipped ones is entered from a shallower
    level if the handler before it is at a shallower level. -/
def EntersFrom (level : Nat) (hs : List (Handler F)) (k prev : Nat) : Prop :=
  ∀ h ∈ (hs.drop k).head?, predLevel level (hs.take k) < h.stackLevel → prev < h.stackLevel

theorem EntersFrom.tail {level prev k : Nat} {tl : List (Handler F)}
    (he : EntersFrom level (h :: tl) (k + 1) prev) : EntersFrom h.stackLevel tl k prev := by
  intro x hx hlt
  exact he x hx (by rwa [List.take_succ_cons, predLevel_cons])

theorem SkipOk.entersFrom {level k : Nat} {tl : List (Handler F)} (hk : SkipOk level tl k) :
    EntersFrom level tl k level := by
  intro x hx hlt
  rcases Nat.eq_zero_or_pos k with rfl | hpos
  · simpa [predLevel] using hlt
  · -- the last handler passed over is not above the level, where the skip leads
    exfalso
    have hland := hk.land hpos x hx
    cases hl : (tl.take k).getLast? with
    | none =>
      rw [List.getLast?_eq_none_iff, List.take_eq_nil_iff] at hl
      rcases hl with rfl | rfl
      · omega
      · simp at hx
    | some y =>
      have := hk.passed y (List.mem_of_getLast? hl)
      simp only [predLevel, hl, Option.map_some, Option.getD_some] at hlt
      omega

theorem loop_cons_eq_goOn (call : F → σ → Int × σ) (h : Handler F)
    (tl : List (Handler F)) (w : Walk σ) :
    loop call use (h :: tl) 0 w = goOn use call h tl (enter h w) := rfl

theorem enter_depth (h : Handler F) (w : Walk σ) : (enter h w).depth = w.depth := by
  unfold enter
  split_ifs <;> rfl

theorem entered_enter {level : Nat} {w : Walk σ}
    (he : level < h.stackLevel → w.prevLevel < h.stackLevel) : Entered level h (enter h w) := by
  intro hlt
  simp [Pam.enter, he hlt]

/-- What the two walks have done when the second is suspended at `h`. -/
structure SuspendedAt (acc : List (Nat × Int)) (level base : Nat) (hs : List (Handler F))
    (o : Outcome τ) (h : Handler F) (tl : List (Handler F)) (w : Walk τ) (v : Walk (τ × Nat)) :
    Prop where
  same : Same acc w v
  goOn : o = goOn use fin h tl w
  split : ∃ sk, hs = sk ++ h :: tl ∧ v.depth = base + sk.length ∧
    Entered (predLevel level sk) h w

variable {fin delay use}

theorem SuspendedAt.cons {level base : Nat} {x : Handler F}
    {hs : List (Handler F)} {o : Outcome τ} {tl : List (Handler F)} {w : Walk τ}
    (hs' : SuspendedAt fin use acc x.stackLevel (base + 1) hs o h tl w v) :
    SuspendedAt fin use acc level base (x :: hs) o h tl w v := by
  obtain ⟨sk, h1, h2, h3⟩ := hs'.split
  exact ⟨hs'.same, hs'.goOn, x :: sk, by rw [h1, List.cons_append], by rw [h2]; simp; omega,
    by rwa [predLevel_cons]⟩

/-- The two walks end alike, or the second is suspended where the first goes on. -/
def EndsLike (fin : F → τ → Int × τ) (use : UseCached) (acc : List (Nat × Int))
    (level base : Nat) (hs : List (Handler F)) (o : Outcome τ) (o' : Outcome (τ × Nat)) : Prop :=
  (∃ w v, o = .finished w ∧ o' = .finished v ∧ Same acc w v) ∨
    ∃ h tl w v, o' = .incomplete v ∧ SuspendedAt fin use acc level base hs o h tl w v

theorem EndsLike.cons {level base : Nat} {x : Handler F}
    {hs : List (Handler F)} {o : Outcome τ} {o' : Outcome (τ × Nat)}
    (h : EndsLike fin use acc x.stackLevel (base + 1) hs o o') :
    EndsLike fin use acc level base (x :: hs) o o' := by
  rcases h with h | ⟨h, tl, w, v, h1, h2⟩
  · exact Or.inl h
  · exact Or.inr ⟨h, tl, w, v, h1, h2.cons⟩

/-- At an entered handler, the two walks go on alike or the second one is suspended there. -/
theorem goOn_cases (hfin : ∀ f t, (fin f t).1 ≠ pamIncomplete)
    {w : Walk τ} (hs : Same acc w v) (h : Handler F)
    (tl : List (Handler F)) :
    (∃ k w' v', goOn use fin h tl w = loop fin use tl k w' ∧
      goOn use (delayed fin delay) h tl v = loop (delayed fin delay) use tl k v' ∧
      Same acc w' v' ∧ w'.prevLevel = h.stackLevel ∧ v'.prevLevel = h.stackLevel ∧
      v'.depth = v.depth + 1 + k ∧ SkipOk h.stackLevel tl k) ∨
    ∃ v', goOn use (delayed fin delay) h tl v = .incomplete v' ∧ Same acc w v' ∧
      v'.depth = v.depth ∧ pending delay h v' < pending delay h v := by
  by_cases hsub : h.handlerType = .substack
  · refine Or.inl ⟨0, passSubstack h w, passSubstack h v, ?_, ?_, hs.passSubstack h, rfl, rfl, rfl,
      .zero _ _⟩
    · simp [goOn, body, hsub]
    · simp [goOn, body, hsub]
  · obtain ⟨hw, hv⟩ := callModule_delayed fin delay h v hfin
    rw [hs.world] at hw hv
    rcases hv with ⟨h1, h2, h3⟩ | ⟨h1, h2, h3⟩
    · refine Or.inr ⟨{ v with world := (callModule (delayed fin delay) h v.world).2.2 },
        by simp only [goOn, body, if_neg hsub, if_pos h1], ?_, rfl, h3⟩
      exact ⟨hs.depth, hs.impression, hs.status, hs.substates, hs.cells, hs.grantor, h2,
        hs.results⟩
    · have hv' : (callModule (delayed fin delay) h v.world).1 ≠ pamIncomplete := by rwa [h1]
      obtain ⟨hk, hsame⟩ := hs.consume use h tl h1 h2 h3
      refine Or.inl ⟨(consume use h tl w (callModule fin h w.world)).1, _, _,
        by simp only [goOn, body, if_neg hsub, if_neg hw],
        by simp only [goOn, body, if_neg hsub, if_neg hv', hk], hsame, rfl, rfl, ?_,
        consume_skip_ok _ _ _ _ _⟩
      rw [← hk]; rfl

/-- Corresponding walks through the same handlers. -/
theorem loop_endsLike (hfin : ∀ f t, (fin f t).1 ≠ pamIncomplete) :
    ∀ {hs : List (Handler F)} {k level base : Nat} {w : Walk τ} {v : Walk (τ × Nat)},
      Same acc w v → v.prevLevel = w.prevLevel → v.depth = base + k →
      EntersFrom level hs k w.prevLevel →
      EndsLike fin use acc level base hs (loop fin use hs k w)
        (loop (delayed fin delay) use hs k v)
  | [], _, _, _, w, v, hs, _, _, _ => Or.inl ⟨w, v, by simp [loop], by simp [loop], hs⟩
  | x :: tl, k + 1, level, base, w, v, hs, hp, hd, he => by
    simp only [loop]
    exact (loop_endsLike hfin hs hp (by omega) he.tail).cons
  | x :: tl, 0, level, base, w, v, hs, hp, hd, he => by
    have hlev := entered_enter (he x (by simp))
    have hdep : (enter x v).depth = base := by rw [enter_depth, hd, Nat.add_zero]
    rw [loop_cons_eq_goOn, loop_cons_eq_goOn]
    rcases goOn_cases hfin (hs.enter hp x) x tl with
      ⟨k, w', v', h1, h2, h3, h4, h5, h6, h7⟩ | ⟨v', h1, h2, h3, -⟩
    · rw [h1, h2]
      refine (loop_endsLike hfin h3 (h5.trans h4.symm) (by rw [h6, hdep]) ?_).cons
      rw [h4]
      exact h7.entersFrom
    · exact Or.inr ⟨x, tl, enter x w, v', h1, h2, rfl, [], rfl, by rw [h3, hdep]; rfl, hlev⟩

/-- Corresponding walks from a handler that has been entered: in the second
    case, the walk has gone on or one answer less is pending. -/
theorem goOn_endsLike (hfin : ∀ f t, (fin f t).1 ≠ pamIncomplete)
    {level base : Nat} {w : Walk τ} (tl : List (Handler F))
    (hs : Same acc w v) (hd : v.depth = base) (he : Entered level h w) :
    (∃ w' v', goOn use fin h tl w = .finished w' ∧
      goOn use (delayed fin delay) h tl v = .finished v' ∧ Same acc w' v') ∨
    ∃ h' tl' w' v', goOn use (delayed fin delay) h tl v = .incomplete v' ∧
      SuspendedAt fin use acc level base (h :: tl) (goOn use fin h tl w) h' tl' w' v' ∧
      (tl'.length < tl.length ∨
        h' = h ∧ tl' = tl ∧ pending delay h v' < pending delay h v) := by
  rcases goOn_cases hfin hs h tl with
    ⟨k, w', v', h1, h2, h3, h4, h5, h6, h7⟩ | ⟨v', h1, h2, h3, h4⟩
  · rw [h1, h2]
    have hl : EndsLike fin use acc h.stackLevel (base + 1) tl (loop fin use tl k w')
        (loop (delayed fin delay) use tl k v') :=
      loop_endsLike hfin h3 (h5.trans h4.symm) (by rw [h6, hd])
        (by rw [h4]; exact h7.entersFrom)
    rcases hl with hl | ⟨h', tl', w1, v1, h8, h9⟩
    · exact Or.inl hl
    · refine Or.inr ⟨h', tl', w1, v1, h8, h9.cons, Or.inl ?_⟩
      obtain ⟨sk, hsk, -⟩ := h9.split
      rw [hsk]
      simp
      omega
  · exact Or.inr ⟨h, tl, w, v', h1, ⟨h2, rfl, [], rfl, by rw [h3, hd]; rfl, he⟩,
      Or.inr ⟨rfl, rfl, h4⟩⟩

end

/-! ## The status is never `PAM_INCOMPLETE` -/

/-- `PAM_INCOMPLETE` is neither the status nor a recorded one. -/
def Complete {σ : Type} (level : Nat) (w : Walk σ) : Prop :=
  w.status ≠ pamIncomplete ∧ ∀ l ≤ level, (w.substates l).status ≠ pamIncomplete

theorem verdict_status (use : UseCached) (h : Handler F) (tl : List (Handler F))
    (w : Walk σ) (c r : Int) (a : Action) :
    (verdict use h tl w c r a).status = w.status ∨ (verdict use h tl w c r a).status = r ∨
      (verdict use h tl w c r a).status = pamMustFailCode ∨
      (verdict use h tl w c r a).status = (w.substates h.stackLevel).status := by
  cases a with
  | ok | done =>
    simp only [verdict, verdictOk]
    split_ifs <;> simp
  | bad | die =>
    simp only [verdict, verdictBad]
    split_ifs <;> simp
  | jump n =>
    simp only [verdict, verdictJump]
    split_ifs <;> simp
  | reset | ignore | undef => simp [verdict]

theorem Complete.enter {w : Walk σ} (hw : Complete w.prevLevel w) (h : Handler F)
    (hl : h.stackLevel ≤ w.prevLevel + 1) : Complete h.stackLevel (enter h w) := by
  unfold Pam.enter
  split_ifs with hlt
  · refine ⟨hw.1, fun l hle => ?_⟩
    by_cases he : l = h.stackLevel
    · simpa [he] using hw.1
    · simpa [Function.update_of_ne he] using hw.2 l (by omega)
  · exact ⟨hw.1, fun l hle => hw.2 l (by omega)⟩

theorem Complete.consume {w : Walk σ} (hw : Complete h.stackLevel w)
    (use : UseCached) (tl : List (Handler F)) {r : Int × Bool × σ} (hr : r.1 ≠ pamIncomplete) :
    Complete h.stackLevel (consume use h tl w r).2 := by
  refine ⟨?_, hw.2⟩
  simp only [Pam.consume]
  set c := consultCache use w.cells h r.1
  have ha : (selectAction h c.1 r.1).1 ≠ pamIncomplete := by
    unfold selectAction
    split_ifs
    · exact (by decide : pamMustFailCode ≠ pamIncomplete)
    · exact hr
  rcases verdict_status use h tl w c.1 (selectAction h c.1 r.1).1 (selectAction h c.1 r.1).2 with
    h1 | h1 | h1 | h1
  · rw [h1]; exact hw.1
  · rw [h1]; exact ha
  · rw [h1]; decide
  · rw [h1]; exact hw.2 _ le_rfl

theorem loop_complete (call : F → σ → Int × σ) (use : UseCached) (c : Chain F)
    (mem : Nat → Substate) (p : Handle F σ) {w : Walk σ}
    (he : loop call use c.handlers 0 (freshWalk mem p) = .finished w) :
    w.result ≠ pamIncomplete := by
  have h0 : Complete (freshWalk mem p).prevLevel (freshWalk mem p) := by
    refine ⟨(by decide : pamMustFailCode ≠ pamIncomplete), fun l hl => ?_⟩
    obtain rfl : l = 0 := Nat.le_zero.1 hl
    exact (by decide : pamMustFailCode ≠ pamIncomplete)
  have hw := loop_invariant (fun h w hI hl => Complete.enter hI h hl) (fun _ _ hI => hI)
    (fun _ tl _ hI hr => hI.consume use tl hr) h0 c.levelsOk he
  unfold Walk.result
  split_ifs
  · decide
  · exact hw.1

/-! ## Dispatching again -/

theorem skipReturned_append (level : Nat) (h : Handler F) (tl : List (Handler F)) :
    ∀ sk : List (Handler F),
      skipReturned (sk ++ h :: tl) sk.length level = (h :: tl, predLevel level sk)
  | [] => rfl
  | x :: sk => by
    rw [predLevel_cons, ← skipReturned_append x.stackLevel h tl sk]
    rfl

/-- The state of the suspended walk `v` is kept in the handle `p`. -/
structure KeptIn (choice : Choice) (v : Walk (τ × Nat)) (p : Handle F (τ × Nat)) : Prop where
  fromApp : p.calledFromModule = false
  former : p.former = ⟨some choice, v.depth, v.impression, v.status, v.substates⟩
  cells : p.cells = v.cells
  grantor : p.grantor = v.grantor
  world : p.world = v.world

/-- The end of the calls is that of the finished walk `w`. -/
structure EndsAs (acc : List (Nat × Int)) (w : Walk τ)
    (r : Int × Handle F (τ × Nat) × List Event) : Prop where
  retval : r.1 = w.result
  cells : r.2.1.cells = w.cells
  grantor : r.2.1.grantor = w.grantor
  world : r.2.1.world.1 = w.world
  results : acc ++ results r.2.2 = results w.trace

variable {choice : Choice}

section
variable {fin : F → τ → Int × τ} {delay : F → τ → Nat} {use : UseCached}

/-- The handler is entered again with the state it was suspended with. -/
theorem Same.resumed {w : Walk τ}
    (hs : Same acc w v) {p : Handle F (τ × Nat)} (hk : KeptIn choice v p)
    {level : Nat} (he : Entered level h w) :
    Same (acc ++ Pam.results v.trace) w (Pam.enter h (resumedWalk level p)) := by
  have hsub : (Pam.enter h (resumedWalk level p)).substates = w.substates := by
    unfold Pam.enter
    split_ifs with hl
    · simp only [resumedWalk, hk.former, hs.impression, hs.status, hs.substates]
      rw [← he hl, Function.update_eq_self]
    · simp only [resumedWalk, hk.former, hs.substates]
  have hres : Pam.results (Pam.enter h (resumedWalk level p)).trace = [] := by
    unfold Pam.enter
    split_ifs <;> rfl
  refine ⟨?_, ?_, ?_, hsub, ?_, ?_, ?_, by rw [hres, List.append_nil, hs.results]⟩
  · rw [enter_depth]; simp only [resumedWalk, hk.former, hs.depth]
  all_goals
    unfold Pam.enter
    split_ifs <;>
      simp only [resumedWalk, hk.former, hk.cells, hk.grantor, hk.world, hs.impression, hs.status,
        hs.cells, hs.grantor, hs.world]

/-- One more call: the walk goes on at the handler where it was suspended. -/
theorem pamDispatch_keptIn (call : F → τ × Nat → Int × (τ × Nat))
    (mem : Option (Nat → Substate))
    {p : Handle F (τ × Nat)} (hk : KeptIn choice v p) {sk tl : List (Handler F)}
    (hc : (p.chain choice).handlers = sk ++ h :: tl) (hd : v.depth = sk.length) :
    let o := goOn (useCachedChain choice) call h tl
      (enter h (resumedWalk (predLevel 0 sk) p))
    (∀ v', o = .incomplete v' → (pamDispatch call mem p choice).1 = pamIncomplete ∧
      (pamDispatch call mem p choice).2.2 = v'.trace ∧
      (pamDispatch call mem p choice).2.1.chain = p.chain ∧
      KeptIn choice v' (pamDispatch call mem p choice).2.1) ∧
    (∀ v', o = .finished v' → (pamDispatch call mem p choice).1 = v'.result ∧
      (pamDispatch call mem p choice).2.2 = v'.trace ∧
      (pamDispatch call mem p choice).2.1.cells = v'.cells ∧
      (pamDispatch call mem p choice).2.1.grantor = v'.grantor ∧
      (pamDispatch call mem p choice).2.1.world = v'.world) := by
  have hch : p.former.choice = some choice := by rw [hk.former]
  have hdep : p.former.depth = sk.length := by rw [hk.former, ← hd]
  have hskip : skipReturned (p.chain choice).handlers p.former.depth 0 =
      (h :: tl, predLevel 0 sk) := by rw [hc, hdep]; exact skipReturned_append 0 h tl sk
  have hne : (p.chain choice).handlers ≠ [] := by rw [hc]; simp
  have heq : pamDispatch call mem p choice = Handle.recall choice (p.forget.finish
      (goOn (useCachedChain choice) call h tl (enter h (resumedWalk (predLevel 0 sk) p)))) := by
    unfold pamDispatch pamDispatchAux
    rw [hk.fromApp, hch, hskip]
    simp [loop_cons_eq_goOn, hne]
  refine ⟨fun v' ho => ?_, fun v' ho => ?_⟩
  · rw [heq, ho]
    exact ⟨rfl, rfl, rfl, hk.fromApp, by simp [Handle.finish, Handle.recall], rfl, rfl, rfl⟩
  · rw [heq, ho]
    exact ⟨rfl, rfl, rfl, rfl, rfl⟩

theorem dispatchAgain_of_complete (call : F → σ → Int × σ)
    (mem : Option (Nat → Substate)) (choice : Choice) (p : Handle F σ)
    (h : (pamDispatch call mem p choice).1 ≠ pamIncomplete) (n : Nat) :
    dispatchAgain call mem choice n p = pamDispatch call mem p choice := by
  cases n with
  | zero => rfl
  | succ n => simp only [dispatchAgain, if_neg h]

/-- Dispatching again from a suspended walk: enough calls end like the walk in
    which the suspended module answers at once. -/
theorem dispatchAgain_keptIn (hfin : ∀ f t, (fin f t).1 ≠ pamIncomplete)
    (mem : Option (Nat → Substate)) (choice : Choice) :
    ∀ (a b : Nat) {acc : List (Nat × Int)} {w : Walk τ} {v : Walk (τ × Nat)}
      {p : Handle F (τ × Nat)} {sk tl : List (Handler F)} {h : Handler F},
      tl.length = a → pending delay h v = b → Same acc w v → KeptIn choice v p →
      (p.chain choice).handlers = sk ++ h :: tl → v.depth = sk.length →
      Entered (predLevel 0 sk) h w →
      (∀ w', goOn (useCachedChain choice) fin h tl w = .finished w' →
        w'.result ≠ pamIncomplete) →
      ∃ n w', goOn (useCachedChain choice) fin h tl w = .finished w' ∧
        ∀ m ≥ n, EndsAs (acc ++ results v.trace) w'
          (dispatchAgain (delayed fin delay) mem choice m p) := by
  -- at each call the walk gets further, or fewer answers are pending where it is
  intro a
  induction a using Nat.strong_induction_on with
  | _ a iha =>
    intro b
    induction b using Nat.strong_induction_on with
    | _ b ihb =>
      intro acc w v p sk tl h ha hb hs hk hc hd he hres
      obtain ⟨hinc, hend⟩ := pamDispatch_keptIn (delayed fin delay) mem hk hc hd
      have hs' := hs.resumed hk he
      have hpend : pending delay h (enter h (resumedWalk (predLevel 0 sk) p)) = b := by
        rw [← hb]
        unfold pending enter
        split_ifs <;> simp [resumedWalk, hk.world]
      have hdep : (enter h (resumedWalk (predLevel 0 sk) p)).depth = sk.length := by
        rw [enter_depth, ← hd]; simp [resumedWalk, hk.former]
      rcases goOn_endsLike hfin tl hs' hdep he with
        ⟨w', v', h1, h2, h3⟩ | ⟨h', tl', w', v', h1, h2, h3⟩
      · obtain ⟨h4, h5, h6, h7, h8⟩ := hend v' h2
        have hne : (pamDispatch (delayed fin delay) mem p choice).1 ≠ pamIncomplete := by
          rw [h4, h3.result]; exact hres w' h1
        refine ⟨0, w', h1, fun m _ => ?_⟩
        rw [dispatchAgain_of_complete _ _ _ _ hne]
        exact ⟨h4.trans h3.result, h6.trans h3.cells, h7.trans h3.grantor,
          (congrArg Prod.fst h8).trans h3.world, by rw [h5]; exact h3.results⟩
      · obtain ⟨h4, h5, h6, h7⟩ := hinc v' h1
        obtain ⟨sk', h8, h9, h10⟩ := h2.split
        have hgo : ∃ n w'', goOn (useCachedChain choice) fin h' tl' w' = .finished w'' ∧
            ∀ m ≥ n, EndsAs (acc ++ results v.trace ++ results v'.trace) w''
              (dispatchAgain (delayed fin delay) mem choice m
                (pamDispatch (delayed fin delay) mem p choice).2.1) := by
          have hc' : ((pamDispatch (delayed fin delay) mem p choice).2.1.chain choice).handlers =
              (sk ++ sk') ++ h' :: tl' := by rw [h6, hc, h8, List.append_assoc]
          have hd' : v'.depth = (sk ++ sk').length := by rw [h9, List.length_append]
          have he' : Entered (predLevel 0 (sk ++ sk')) h' w' := by
            rw [predLevel_append]
            exact h10
          have hres' : ∀ w'', goOn (useCachedChain choice) fin h' tl' w' = .finished w'' →
              w''.result ≠ pamIncomplete := fun w'' hw => hres w'' (h2.goOn.trans hw)
          rcases h3 with hlt | ⟨rfl, rfl, hlt⟩
          · exact iha tl'.length (ha ▸ hlt) _ rfl rfl h2.same h7 hc' hd' he' hres'
          · exact ihb _ (hpend ▸ hlt) ha rfl h2.same h7 hc' hd' he' hres'
        obtain ⟨n, w'', h11, h12⟩ := hgo
        refine ⟨n + 1, w'', h2.goOn.trans h11, fun m hm => ?_⟩
        obtain ⟨m, rfl⟩ : ∃ m', m = m' + 1 := ⟨m - 1, by omega⟩
        have := h12 m (by omega)
        simp only [dispatchAgain, if_pos h4]
        exact ⟨this.retval, this.cells, this.grantor, this.world, by
          rw [results_append, h5, ← List.append_assoc]; exact this.results⟩

end

/-! ## Transparency -/

/-- The handle `p` in front of late modules, none of which has been called. -/
def Handle.late (p : Handle F τ) : Handle F (τ × Nat) where
  conf := p.conf
  other := p.other
  former := p.former
  calledFromModule := p.calledFromModule
  cells := p.cells
  grantor := p.grantor
  world := (p.world, 0)

/-- The first call on a handle in which no walk is suspended. -/
theorem pamDispatch_fresh (call : F → σ → Int × σ) (m : Nat → Substate)
    {p : Handle F σ} (hp : p.former.choice = none)
    (hc : p.calledFromModule = false) (hne : (p.chain choice).handlers ≠ []) :
    pamDispatch call (some m) p choice = Handle.recall choice (p.clearGrantors.finish
      (loop call (useCachedChain choice) (p.chain choice).handlers 0
        (freshWalk m p.clearGrantors))) := by
  unfold pamDispatch pamDispatchAux
  rw [hc, hp]
  simp [hne]

/-- The calls of a handle whose first call starts no walk end as that call does. -/
def EndsEarly (fin : F → τ → Int × τ) (delay : F → τ → Nat) (mem : Option (Nat → Substate))
    (p : Handle F τ) (choice : Choice) : Prop :=
  let r := pamDispatch fin mem p choice
  let r' := pamDispatch (delayed fin delay) mem p.late choice
  r.1 ≠ pamIncomplete ∧ r'.1 = r.1 ∧ results r'.2.2 = results r.2.2 ∧
    r'.2.1.cells = r.2.1.cells ∧ r'.2.1.grantor = r.2.1.grantor ∧
    r'.2.1.world.1 = r.2.1.world

theorem endsEarly (fin : F → τ → Int × τ) (delay : F → τ → Nat) (mem : Option (Nat → Substate))
    (p : Handle F τ) (choice : Choice) (hp : p.former.choice = none)
    (h : p.calledFromModule = true ∨ (p.chain choice).handlers = [] ∨ mem = none) :
    EndsEarly fin delay mem p choice := by
  have hp' : p.late.former.choice = none := hp
  by_cases hc : p.calledFromModule = true
  · have hc' : p.late.calledFromModule = true := hc
    unfold EndsEarly pamDispatch
    rw [hc, hc']
    exact ⟨show pamSystemErr ≠ pamIncomplete by decide, rfl, rfl, rfl, rfl, rfl⟩
  · have hc' : p.late.calledFromModule = false := Bool.not_eq_true _ ▸ hc
    have hch : (p.late.chain choice).handlers = (p.chain choice).handlers := rfl
    unfold EndsEarly pamDispatch pamDispatchAux
    rw [hp, hp', if_neg hc, hc', hch]
    by_cases hn : (p.chain choice).handlers = []
    · simp only [hn, if_true]
      exact ⟨show pamMustFailCode ≠ pamIncomplete by decide, rfl, rfl, rfl, rfl, rfl⟩
    · obtain rfl : mem = none := (h.resolve_left hc).resolve_left hn
      simp only [hn, if_false]
      exact ⟨show pamBufErr ≠ pamIncomplete by decide, rfl, rfl, rfl, rfl, rfl⟩

theorem Same.fresh (m : Nat → Substate) (p : Handle F τ) :
    Same [] (freshWalk m p.clearGrantors) (freshWalk m p.late.clearGrantors) :=
  ⟨rfl, rfl, rfl, rfl, rfl, rfl, rfl, rfl⟩

/-- Enough calls end as the walk in which each module answers at once. -/
theorem dispatchAgain_endsAs (fin : F → τ → Int × τ) (delay : F → τ → Nat)
    (hfin : ∀ f t, (fin f t).1 ≠ pamIncomplete) (m₀ : Nat → Substate) {p : Handle F τ}
    (hp : p.former.choice = none) (hc : p.calledFromModule = false)
    (hne : (p.chain choice).handlers ≠ []) :
    ∃ n w, loop fin (useCachedChain choice) (p.chain choice).handlers 0
        (freshWalk m₀ p.clearGrantors) = .finished w ∧
      ∀ m ≥ n, EndsAs [] w (dispatchAgain (delayed fin delay) (some m₀) choice m p.late) := by
  set use := useCachedChain choice with huse
  set hs := (p.chain choice).handlers with hhs
  have hlate : pamDispatch (delayed fin delay) (some m₀) p.late choice =
      Handle.recall choice (p.late.clearGrantors.finish
        (loop (delayed fin delay) use hs 0 (freshWalk m₀ p.late.clearGrantors))) :=
    pamDispatch_fresh _ m₀ hp hc hne
  have hcomplete : ∀ w, loop fin use hs 0 (freshWalk m₀ p.clearGrantors) = .finished w →
      w.result ≠ pamIncomplete := fun w hw => loop_complete fin use (p.chain choice) m₀ _ hw
  have hends : EndsLike fin use [] 0 0 hs
      (loop fin use hs 0 (freshWalk m₀ p.clearGrantors))
      (loop (delayed fin delay) use hs 0 (freshWalk m₀ p.late.clearGrantors)) := by
    refine loop_endsLike hfin (Same.fresh m₀ p) rfl rfl ?_
    intro h _ hlt
    simpa [predLevel, freshWalk] using hlt
  rcases hends with ⟨w, v, h1, h2, h3⟩ | ⟨h, tl, w, v, h1, h2⟩
  · -- no module was late
    refine ⟨0, w, h1, fun m _ => ?_⟩
    have hv : (pamDispatch (delayed fin delay) (some m₀) p.late choice).1 = w.result := by
      rw [hlate, h2]; exact h3.result
    rw [dispatchAgain_of_complete _ _ _ _ (hv.trans_ne (hcomplete w h1)), hlate, h2]
    exact ⟨h3.result, h3.cells, h3.grantor, h3.world, h3.results⟩
  · obtain ⟨sk, h4, h5, h6⟩ := h2.split
    set q := (pamDispatch (delayed fin delay) (some m₀) p.late choice).2.1 with hq
    have hr : (pamDispatch (delayed fin delay) (some m₀) p.late choice).1 = pamIncomplete := by
      rw [hlate, h1]; rfl
    have htr : (pamDispatch (delayed fin delay) (some m₀) p.late choice).2.2 = v.trace := by
      rw [hlate, h1]; rfl
    have hk : KeptIn choice v q := by
      rw [hq, hlate, h1]
      exact ⟨hc, by simp [Handle.finish, Handle.recall], rfl, rfl, rfl⟩
    have hq' : (q.chain choice).handlers = sk ++ h :: tl := by
      rw [hq, hlate, h1]; exact h4
    obtain ⟨n, w', h7, h8⟩ := dispatchAgain_keptIn hfin (some m₀) choice _ _ rfl rfl h2.same hk
      hq' (by rw [h5, Nat.zero_add]) h6 (fun w' hw => hcomplete w' (h2.goOn.trans hw))
    refine ⟨n + 1, w', h2.goOn.trans h7, fun m hm => ?_⟩
    obtain ⟨m, rfl⟩ : ∃ m', m = m' + 1 := ⟨m - 1, by omega⟩
    have hm := h8 m (by omega)
    simp only [dispatchAgain, if_pos hr]
    refine ⟨hm.retval, hm.cells, hm.grantor, hm.world, ?_⟩
    rw [results_append, htr]
    exact hm.results

/-- **Transparency of `PAM_INCOMPLETE`.** Calling `_pam_dispatch` again with the same choice until
    it no longer returns `PAM_INCOMPLETE` gives the status and consumes the results of one call in
    which each module answers at once, and leaves the same frozen chain, grantors and module
    state. -/
theorem pamDispatch_incomplete_transparent (fin : F → τ → Int × τ) (delay : F → τ → Nat)
    (hfin : ∀ f t, (fin f t).1 ≠ pamIncomplete) (mem : Option (Nat → Substate))
    (p : Handle F τ) (choice : Choice) (hp : p.former.choice = none) :
    (pamDispatch fin mem p choice).1 ≠ pamIncomplete ∧
    ∃ n, ∀ m ≥ n,
      let r := pamDispatch fin mem p choice
      let r' := dispatchAgain (delayed fin delay) mem choice m p.late
      r'.1 = r.1 ∧ results r'.2.2 = results r.2.2 ∧ r'.2.1.cells = r.2.1.cells ∧
        r'.2.1.grantor = r.2.1.grantor ∧ r'.2.1.world.1 = r.2.1.world := by
  by_cases hstart : p.calledFromModule = true ∨ (p.chain choice).handlers = [] ∨ mem = none
  · obtain ⟨h1, h2, h3⟩ := endsEarly fin delay mem p choice hp hstart
    refine ⟨h1, 0, fun m _ => ?_⟩
    rw [dispatchAgain_of_complete _ _ _ _ (h2.trans_ne h1)]
    exact ⟨h2, h3⟩
  · simp only [not_or] at hstart
    obtain ⟨hc, hne, hmem⟩ := hstart
    obtain ⟨m₀, rfl⟩ := Option.ne_none_iff_exists'.1 hmem
    have hc1 : p.calledFromModule = false := by simpa using hc
    obtain ⟨n, w, hw, hn⟩ := dispatchAgain_endsAs fin delay hfin m₀ hp hc1 hne
    rw [pamDispatch_fresh fin m₀ hp hc1 hne, hw]
    refine ⟨loop_complete fin _ _ m₀ _ hw, n, fun m hm => ?_⟩
    obtain ⟨h1, h2, h3, h4, h5⟩ := hn m hm
    exact ⟨h1, h5, h2, h3, h4⟩

/-- Two modules, the first of which answers `PAM_INCOMPLETE` twice. -/
theorem pamDispatch_incomplete_transparent_twice :
    let fin : Bool → Unit → Int × Unit := fun _ t => (pamSuccess, t)
    let delay : Bool → Unit → Nat := fun f _ => if f then 2 else 0
    let h : Bool → Handler Bool := fun f => ⟨.module, some f, fun _ => .ok, 0, 0, 0⟩
    let c : Chain Bool := ⟨[h true, h false], by simp [h], by simp [h],
      by simp [h, pamSubstackMaxLevel]⟩
    let p : Handle Bool Unit := ⟨fun _ => c, fun _ => c,
      ⟨none, 0, .undef, pamSuccess, fun _ => ⟨.undef, pamSuccess⟩⟩, false, fun _ => -1, [], ()⟩
    let mem : Option (Nat → Substate) := some fun _ => ⟨.undef, pamSuccess⟩
    (∀ f t, (fin f t).1 ≠ pamIncomplete) ∧ p.former.choice = none ∧
    (pamDispatch (delayed fin delay) mem p.late .authenticate).1 = pamIncomplete ∧
    ∃ n, ∀ m ≥ n, (dispatchAgain (delayed fin delay) mem .authenticate m p.late).1 =
      (pamDispatch fin mem p .authenticate).1 := by
  intro fin delay h c p mem
  have hfin : ∀ f t, (fin f t).1 ≠ pamIncomplete := fun _ _ =>
    show pamSuccess ≠ pamIncomplete by decide
  obtain ⟨-, n, hn⟩ :=
    pamDispatch_incomplete_transparent fin delay hfin mem p .authenticate rfl
  exact ⟨hfin, rfl, rfl, n, fun m hm => (hn m hm).1⟩

end Pam
