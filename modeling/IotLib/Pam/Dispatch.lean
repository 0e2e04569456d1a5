/-
  The module dispatcher of libpam (`libpam/pam_dispatch.c`).

  `_pam_dispatch_aux` walks a chain of handlers and folds their return codes
  into an impression and a status; `_pam_dispatch` selects the chain and
  resumes a walk that a module has suspended with `PAM_INCOMPLETE`.
-/
import Mathlib

namespace Pam

/-! ## Codes, actions, handlers -/

def pamSuccess : Int := 0
def pamSystemErr : Int := 4
def pamBufErr : Int := 5
def pamPermDenied : Int := 6
def pamIgnore : Int := 25
def pamAbort : Int := 26
def pamModuleUnknown : Int := 28
def pamIncomplete : Int := 31

/-- `_PAM_RETURN_VALUES`: the number of return values. -/
def pamReturnValues : Int := 32

/-- `PAM_MUST_FAIL_CODE` -/
def pamMustFailCode : Int := pamPermDenied

/-- `_PAM_INVALID_RETVAL`: the content of a `cached_retval` that was never set. -/
def pamInvalidRetval : Int := -1

/-- `PAM_SUBSTACK_MAX_LEVEL`: the size of the array of substack states. -/
def pamSubstackMaxLevel : Nat := 16

/-- The entries of `handler.actions`. A positive entry `n + 1` is `jump n`; everything below
    `_PAM_ACTION_RESET` is `undef`. -/
inductive Action where
  | ignore | ok | done | bad | die | reset | undef
  | jump (n : Nat)
deriving DecidableEq, Repr

/-- `handler_type` -/
inductive HandlerType where
  | module | mustFail | substack | silentModule
deriving DecidableEq, Repr

/-- The impression codes `_PAM_UNDEF`, `_PAM_POSITIVE`, `_PAM_NEGATIVE`. -/
inductive Impression where
  | undef | positive | negative
deriving DecidableEq, Repr

/-- `use_cached_chain` -/
inductive UseCached where
  | pleaseFreeze | mayBeFrozen | mustBeFrozen
deriving DecidableEq, Repr

/-- `struct handler`. `F` is the type of module functions together with their arguments;
    `cachedRetval` is the address of the handler's own cell and `cachedRetvalP` that of the cell it
    consults. -/
structure Handler (F : Type) where
  handlerType : HandlerType
  func : Option F
  actions : Nat → Action
  cachedRetval : Nat
  cachedRetvalP : Nat
  stackLevel : Nat

/-- `struct _pam_substack_state` -/
structure Substate where
  impression : Impression
  status : Int
deriving DecidableEq, Repr

/-- What a walk does, in order: recording the state of a stack level, and taking an action on the
    final return code of a handler (`real` if a module function returned it). -/
inductive Event where
  | save (level : Nat)
  | ran (depth level : Nat) (real : Bool) (retval : Int) (action : Action) (badJump : Bool)
deriving DecidableEq, Repr

/-- The local variables of `_pam_dispatch_aux`, the `cached_retval` cells, the
    handlers marked `grantor` and the state `σ` that the modules share. -/
structure Walk (σ : Type) where
  depth : Nat
  prevLevel : Nat
  impression : Impression
  status : Int
  substates : Nat → Substate
  cells : Nat → Int
  grantor : List Nat
  world : σ
  trace : List Event

variable {F σ : Type}

/-! ## One iteration of the loop -/

/-- The state is remembered when a substack is entered. -/
def enter (h : Handler F) (w : Walk σ) : Walk σ :=
  if w.prevLevel < h.stackLevel then
    { w with
      substates := Function.update w.substates h.stackLevel ⟨w.impression, w.status⟩
      trace := w.trace ++ [.save h.stackLevel] }
  else w

/-- The attempt to call the module: its return code, whether a module function
    was called, and the state it leaves. -/
def callModule (call : F → σ → Int × σ) (h : Handler F) (s : σ) : Int × Bool × σ :=
  if h.handlerType = .mustFail then (pamMustFailCode, false, s)
  else
    match h.func with
    | none => (pamModuleUnknown, false, s)
    | some f => ((call f s).1, true, (call f s).2)

/-- The return code that selects the action, and the cells afterwards. -/
def consultCache (use : UseCached) (cells : Nat → Int) (h : Handler F) (retval : Int) :
    Int × (Nat → Int) :=
  match use with
  | .pleaseFreeze => (retval, Function.update cells h.cachedRetval retval)
  | .mayBeFrozen =>
    (if cells h.cachedRetvalP = pamInvalidRetval then retval else cells h.cachedRetvalP, cells)
  | .mustBeFrozen => (cells h.cachedRetvalP, cells)

/-- The return code and the action, after the check that the cached code is a valid one. -/
def selectAction (h : Handler F) (cached retval : Int) : Int × Action :=
  if cached < pamSuccess ∨ pamReturnValues ≤ cached then (pamMustFailCode, .bad)
  else (retval, h.actions cached.toNat)

/-- The two loops of a jump over `action` siblings of level `level`: the
    handlers that follow, and what is left of `action`. -/
def jumpLoop (level : Nat) : Nat → List (Handler F) → List (Handler F) × Nat
  | 0, hs => (hs, 0)
  | a + 1, [] => ([], a + 1)
  | a + 1, h :: hs =>
    if level ≤ h.stackLevel then
      jumpLoop level a (hs.dropWhile fun x => decide (level < x.stackLevel))
    else (h :: hs, a + 1)

/-- What an action leads to: the new impression and status, whether the handler becomes a grantor,
    how many of the following handlers are passed over, and whether this was a bad jump. -/
structure Verdict where
  impression : Impression
  status : Int
  grant : Bool
  skip : Nat
  badJump : Bool
deriving DecidableEq, Repr

/-- The impression can still be improved. -/
def Walk.improvable (w : Walk σ) : Prop :=
  w.impression = .undef ∨ (w.impression = .positive ∧ w.status = pamSuccess)

instance (w : Walk σ) : Decidable w.improvable := inferInstanceAs (Decidable (_ ∨ _))

/-- The handlers passed over at `decision_made`. -/
def decisionSkip (level : Nat) (tl : List (Handler F)) : Nat :=
  (tl.takeWhile fun x => decide (level ≤ x.stackLevel)).length

/-- The cases `_PAM_ACTION_OK` and `_PAM_ACTION_DONE`. -/
def verdictOk (h : Handler F) (tl : List (Handler F)) (w : Walk σ) (cached retval : Int)
    (isDone : Bool) : Verdict :=
  let take := w.improvable ∧ (retval ≠ pamIgnore ∨ cached = retval)
  let impression := if take then .positive else w.impression
  { impression
    status := if take then retval else w.status
    grant := impression = .positive ∧ retval = pamSuccess
    skip := if impression = .positive ∧ isDone then decisionSkip h.stackLevel tl else 0
    badJump := false }

/-- The cases `_PAM_ACTION_BAD` and `_PAM_ACTION_DIE`. -/
def verdictBad (h : Handler F) (tl : List (Handler F)) (w : Walk σ) (retval : Int)
    (isDie : Bool) : Verdict where
  impression := .negative
  status :=
    if w.impression ≠ .negative then
      if retval = pamIgnore then pamMustFailCode else retval
    else w.status
  grant := false
  skip := if isDie then decisionSkip h.stackLevel tl else 0
  badJump := false

/-- A jump. In a frozen chain the module also counts as required. -/
def verdictJump (use : UseCached) (h : Handler F) (tl : List (Handler F)) (w : Walk σ)
    (cached retval : Int) (n : Nat) : Verdict :=
  let take := use ≠ .pleaseFreeze ∧ w.improvable ∧ (retval ≠ pamIgnore ∨ cached = retval)
  let j := jumpLoop h.stackLevel (n + 1) tl
  let bad := j.2 ≠ 0
  { impression := if bad then .negative else if take then .positive else w.impression
    status := if bad then pamMustFailCode else if take then retval else w.status
    grant := take ∧ w.impression = .undef ∧ retval = pamSuccess
    skip := tl.length - j.1.length
    badJump := bad }

/-- `switch (action)` -/
def verdict (use : UseCached) (h : Handler F) (tl : List (Handler F)) (w : Walk σ)
    (cached retval : Int) : Action → Verdict
  | .reset => ⟨(w.substates h.stackLevel).impression, (w.substates h.stackLevel).status,
      false, 0, false⟩
  | .ok => verdictOk h tl w cached retval false
  | .done => verdictOk h tl w cached retval true
  | .bad => verdictBad h tl w retval false
  | .die => verdictBad h tl w retval true
  | .ignore => ⟨w.impression, w.status, false, 0, false⟩
  | .jump n => verdictJump use h tl w cached retval n
  | .undef => ⟨.negative, pamMustFailCode, false, 0, true⟩

/-- How an iteration ends: suspended, or with a number of handlers to skip. -/
inductive Iter (σ : Type) where
  | incomplete (w : Walk σ)
  | next (skip : Nat) (w : Walk σ)

/-- How many handlers are skipped, and the walk, after the final result `r` of
    handler `h` has been consumed. -/
def consume (use : UseCached) (h : Handler F) (tl : List (Handler F)) (w : Walk σ)
    (r : Int × Bool × σ) : Nat × Walk σ :=
  let c := consultCache use w.cells h r.1
  let a := selectAction h c.1 r.1
  let v := verdict use h tl w c.1 a.1 a.2
  (v.skip,
    { w with
      depth := w.depth + 1 + v.skip
      prevLevel := h.stackLevel
      impression := v.impression
      status := v.status
      cells := c.2
      grantor := if v.grant then w.grantor ++ [w.depth] else w.grantor
      world := r.2.2
      trace := w.trace ++ [.ran w.depth h.stackLevel r.2.1 r.1 a.2 v.badJump] })

/-- A substack handler only marks the place where its handlers start. -/
def passSubstack (h : Handler F) (w : Walk σ) : Walk σ :=
  { w with depth := w.depth + 1, prevLevel := h.stackLevel }

/-- The body of the loop for a handler whose level has been entered. -/
def body (call : F → σ → Int × σ) (use : UseCached) (h : Handler F) (tl : List (Handler F))
    (w : Walk σ) : Iter σ :=
  if h.handlerType = .substack then
    .next 0 (passSubstack h w)
  else
    let r := callModule call h w.world
    if r.1 = pamIncomplete then .incomplete { w with world := r.2.2 }
    else .next (consume use h tl w r).1 (consume use h tl w r).2

/-! ## The loop -/

/-- How the loop ends. -/
inductive Outcome (σ : Type) where
  | incomplete (w : Walk σ)
  | finished (w : Walk σ)

/-- The loop through the chain, with a number of handlers still to pass over. -/
def loop (call : F → σ → Int × σ) (use : UseCached) :
    List (Handler F) → Nat → Walk σ → Outcome σ
  | [], _, w => .finished w
  | _ :: tl, k + 1, w => loop call use tl k w
  | h :: tl, 0, w =>
    match body call use h tl (enter h w) with
    | .incomplete w' => .incomplete w'
    | .next k w' => loop call use tl k w'

/-- The leading modules of a resumed chain are skipped; the level of the last one is kept. -/
def skipReturned : List (Handler F) → Nat → Nat → List (Handler F) × Nat
  | h :: tl, n + 1, _ => skipReturned tl n h.stackLevel
  | hs, _, level => (hs, level)

/-- The status returned after the sanity check. -/
def Walk.result (w : Walk σ) : Int :=
  if w.status = pamSuccess ∧ w.impression ≠ .positive then pamMustFailCode else w.status

/-! ## The handle -/

inductive Choice where
  | authenticate | setcred | account | openSession | closeSession | chauthtok
deriving DecidableEq, Repr

/-- `struct _pam_former_state`, the part used by the dispatcher; a missing
    `choice` is `PAM_NOT_STACKED`. -/
structure Former where
  choice : Option Choice
  depth : Nat
  impression : Impression
  status : Int
  substates : Nat → Substate

/-- The loader only enters a substack one level at a time and below
    `PAM_SUBSTACK_MAX_LEVEL` (`_pam_parse_conf_file`, `_pam_load_conf_file`). -/
structure Chain (F : Type) where
  handlers : List (Handler F)
  head_level : ∀ h ∈ handlers.head?, h.stackLevel = 0
  next_level : handlers.IsChain fun a b => b.stackLevel ≤ a.stackLevel + 1
  max_level : ∀ h ∈ handlers, h.stackLevel < pamSubstackMaxLevel

/-- `pam_handle_t`, the part used by the dispatcher. -/
structure Handle (F σ : Type) where
  conf : Choice → Chain F
  other : Choice → Chain F
  former : Former
  calledFromModule : Bool
  cells : Nat → Int
  grantor : List Nat
  world : σ

/-- The state in which a fresh walk starts. `mem` is what `malloc` returned. -/
def freshWalk (mem : Nat → Substate) (p : Handle F σ) : Walk σ where
  depth := 0
  prevLevel := 0
  impression := .undef
  status := pamMustFailCode
  substates := Function.update mem 0 ⟨.undef, pamMustFailCode⟩
  cells := p.cells
  grantor := p.grantor
  world := p.world
  trace := [.save 0]

/-- The state in which a resumed walk starts at the suspended handler. -/
def resumedWalk (level : Nat) (p : Handle F σ) : Walk σ where
  depth := p.former.depth
  prevLevel := level
  impression := p.former.impression
  status := p.former.status
  substates := p.former.substates
  cells := p.cells
  grantor := p.grantor
  world := p.world
  trace := []

/-- The handle after a walk. -/
def Handle.update (p : Handle F σ) (w : Walk σ) : Handle F σ :=
  { p with cells := w.cells, grantor := w.grantor, world := w.world }

/-- The end of a walk: the state of a suspended one is kept in the handle. -/
def Handle.finish (p : Handle F σ) : Outcome σ → Int × Handle F σ × List Event
  | .incomplete w => (pamIncomplete,
      { p.update w with
        former := ⟨p.former.choice, w.depth, w.impression, w.status, w.substates⟩ }, w.trace)
  | .finished w => (w.result, p.update w, w.trace)

/-- A resumed walk forgets the state kept in the handle. -/
def Handle.forget (p : Handle F σ) : Handle F σ :=
  { p with former :=
      { p.former with depth := 0, impression := .undef, status := pamMustFailCode } }

/-- `_pam_dispatch_aux` on the chain `hs`: the return value, the handle and the events of the walk.
    `mem` is the memory for the substack states, if any. -/
def pamDispatchAux (call : F → σ → Int × σ) (mem : Option (Nat → Substate)) (p : Handle F σ)
    (hs : List (Handler F)) (resumed : Bool) (use : UseCached) :
    Int × Handle F σ × List Event :=
  if hs = [] then (pamMustFailCode, p, [])
  else if resumed then
    let s := skipReturned hs p.former.depth 0
    p.forget.finish (loop call use s.1 0 (resumedWalk s.2 p))
  else
    match mem with
    | none => (pamBufErr, p, [])
    | some m => p.finish (loop call use hs 0 (freshWalk m p))

/-- The chain is frozen by the first of two runs and consulted by the second. -/
def useCachedChain : Choice → UseCached
  | .setcred | .closeSession => .mayBeFrozen
  | _ => .pleaseFreeze

/-- The configured chain, or the default one when there is none. -/
def Handle.chain (p : Handle F σ) (choice : Choice) : Chain F :=
  if (p.conf choice).handlers = [] then p.other choice else p.conf choice

/-- `_pam_clear_grantors` -/
def Handle.clearGrantors (p : Handle F σ) : Handle F σ := { p with grantor := [] }

/-- The choice is kept in the handle while the walk is incomplete. -/
def Handle.recall (choice : Choice) (r : Int × Handle F σ × List Event) :
    Int × Handle F σ × List Event :=
  (r.1, { r.2.1 with former := { r.2.1.former with
    choice := if r.1 = pamIncomplete then some choice else none } }, r.2.2)

/-- `_pam_dispatch`, once the handlers are loaded. -/
def pamDispatch (call : F → σ → Int × σ) (mem : Option (Nat → Substate)) (p : Handle F σ)
    (choice : Choice) : Int × Handle F σ × List Event :=
  if p.calledFromModule then (pamSystemErr, p, [])
  else
    match p.former.choice with
    | none => Handle.recall choice (pamDispatchAux call mem p.clearGrantors
        (p.chain choice).handlers false (useCachedChain choice))
    | some former =>
      if former ≠ choice then (pamAbort, p, [])
      else Handle.recall choice (pamDispatchAux call mem p (p.chain choice).handlers true
        (useCachedChain choice))

/-! ## Where a skip leads -/

/-- The handlers passed over by a jump have the level of the jump or a deeper
    one; if there are any, the jump leads to its own level or a shallower one. -/
theorem jumpLoop_spec (level : Nat) : ∀ (a : Nat) (hs : List (Handler F)),
    ∃ sk, hs = sk ++ (jumpLoop level a hs).1 ∧ (∀ x ∈ sk, level ≤ x.stackLevel) ∧
      (sk ≠ [] → ∀ x ∈ (jumpLoop level a hs).1.head?, x.stackLevel ≤ level)
  | 0, hs => ⟨[], by simp [jumpLoop]⟩
  | a + 1, [] => ⟨[], by simp [jumpLoop]⟩
  | a + 1, h :: hs => by
    rw [jumpLoop]
    split_ifs with hl
    · set p : Handler F → Bool := fun x => decide (level < x.stackLevel) with hp
      obtain ⟨sk, he, h1, h2⟩ := jumpLoop_spec level a (hs.dropWhile p)
      refine ⟨h :: hs.takeWhile p ++ sk, ?_, ?_, fun _ => ?_⟩
      · rw [List.append_assoc, ← he, List.cons_append, List.takeWhile_append_dropWhile]
      · intro x hx
        simp only [List.cons_append, List.mem_cons, List.mem_append] at hx
        rcases hx with rfl | hx | hx
        · exact hl
        · have := List.mem_takeWhile_imp hx
          simp only [hp, decide_eq_true_eq] at this
          exact this.le
        · exact h1 x hx
      · by_cases hsk : sk = []
        · -- no further sibling was skipped: the inner loop has stopped here
          intro x hx
          rw [hsk, List.nil_append] at he
          rw [← he] at hx
          have := List.head?_dropWhile_not p hs
          rw [Option.mem_def.1 hx] at this
          simpa [hp] using this
        · exact h2 hsk
    · exact ⟨[], by simp⟩

/-- The number of handlers that the verdict on `h` passes over leads to the
    level of `h` or a shallower one, over handlers of that level or deeper. -/
structure SkipOk (level : Nat) (tl : List (Handler F)) (k : Nat) : Prop where
  passed : ∀ x ∈ tl.take k, level ≤ x.stackLevel
  land : 0 < k → ∀ x ∈ (tl.drop k).head?, x.stackLevel ≤ level

theorem SkipOk.zero (level : Nat) (tl : List (Handler F)) : SkipOk level tl 0 :=
  ⟨by simp, by simp⟩

theorem decisionSkip_ok (level : Nat) (tl : List (Handler F)) :
    SkipOk level tl (decisionSkip level tl) := by
  set p : Handler F → Bool := fun x => decide (level ≤ x.stackLevel) with hp
  have hlen : decisionSkip level tl = (tl.takeWhile p).length := rfl
  have hsplit : tl.takeWhile p ++ tl.dropWhile p = tl := List.takeWhile_append_dropWhile
  have htake : tl.take (decisionSkip level tl) = tl.takeWhile p := by
    have : (tl.takeWhile p ++ tl.dropWhile p).take (tl.takeWhile p).length = tl.takeWhile p :=
      List.take_left
    rwa [hsplit, ← hlen] at this
  have hdrop : tl.drop (decisionSkip level tl) = tl.dropWhile p := by
    have : (tl.takeWhile p ++ tl.dropWhile p).drop (tl.takeWhile p).length = tl.dropWhile p :=
      List.drop_left
    rwa [hsplit, ← hlen] at this
  refine ⟨fun x hx => ?_, fun _ x hx => ?_⟩
  · rw [htake] at hx
    simpa [hp] using List.mem_takeWhile_imp hx
  · rw [hdrop] at hx
    have := List.head?_dropWhile_not p tl
    rw [Option.mem_def.1 hx] at this
    simp only [hp, decide_eq_false_iff_not] at this
    omega

theorem jumpSkip_ok (level a : Nat) (tl : List (Handler F)) :
    SkipOk level tl (tl.length - (jumpLoop level a tl).1.length) := by
  obtain ⟨sk, he, h1, h2⟩ := jumpLoop_spec level a tl
  set rest := (jumpLoop level a tl).1
  have hk : tl.length - rest.length = sk.length := by rw [he]; simp
  rw [hk]
  refine ⟨fun x hx => h1 x (by rw [he] at hx; simpa using hx), fun hpos x hx => ?_⟩
  rw [he, List.drop_left] at hx
  exact h2 (List.length_pos_iff.1 hpos) x hx

theorem verdict_skip_ok (use : UseCached) (h : Handler F) (tl : List (Handler F)) (w : Walk σ)
    (cached retval : Int) (a : Action) :
    SkipOk h.stackLevel tl (verdict use h tl w cached retval a).skip := by
  cases a with
  | ok | done =>
    simp only [verdict, verdictOk]
    split_ifs
    all_goals first | exact decisionSkip_ok _ _ | exact .zero _ _
  | bad | die =>
    simp only [verdict, verdictBad]
    split_ifs
    all_goals first | exact decisionSkip_ok _ _ | exact .zero _ _
  | jump n => exact jumpSkip_ok _ _ _
  | reset | ignore | undef => exact .zero _ _

theorem consume_skip_ok (use : UseCached) (h : Handler F) (tl : List (Handler F)) (w : Walk σ)
    (r : Int × Bool × σ) : SkipOk h.stackLevel tl (consume use h tl w r).1 :=
  verdict_skip_ok _ _ _ _ _ _ _

/-- The three ways in which an iteration of the loop goes on. -/
theorem loop_cons (call : F → σ → Int × σ) (use : UseCached) (h : Handler F)
    (tl : List (Handler F)) (w : Walk σ) :
    (h.handlerType = .substack ∧
      loop call use (h :: tl) 0 w = loop call use tl 0 (passSubstack h (enter h w))) ∨
    (h.handlerType ≠ .substack ∧ (callModule call h (enter h w).world).1 = pamIncomplete ∧
      loop call use (h :: tl) 0 w =
        .incomplete { enter h w with world := (callModule call h (enter h w).world).2.2 }) ∨
    (h.handlerType ≠ .substack ∧ (callModule call h (enter h w).world).1 ≠ pamIncomplete ∧
      loop call use (h :: tl) 0 w =
        loop call use tl (consume use h tl (enter h w) (callModule call h (enter h w).world)).1
          (consume use h tl (enter h w) (callModule call h (enter h w).world)).2) := by
  by_cases hs : h.handlerType = .substack
  · exact Or.inl ⟨hs, by simp [loop, body, hs]⟩
  · by_cases hi : (callModule call h (enter h w).world).1 = pamIncomplete
    · exact Or.inr (Or.inl ⟨hs, hi, by simp [loop, body, hs, hi]⟩)
    · exact Or.inr (Or.inr ⟨hs, hi, by simp [loop, body, hs, hi]⟩)

/-! ## Invariants of a walk -/

/-- The levels of the handlers still to come, `k` of which are passed over. -/
def LevelsOk (hs : List (Handler F)) (k level : Nat) : Prop :=
  hs.IsChain (fun a b => b.stackLevel ≤ a.stackLevel + 1) ∧
    ∀ h ∈ (hs.drop k).head?, h.stackLevel ≤ level + 1

theorem Chain.levelsOk (c : Chain F) : LevelsOk c.handlers 0 0 :=
  ⟨c.next_level, fun h hh => by rw [c.head_level h hh]; exact Nat.zero_le _⟩

theorem LevelsOk.next {h : Handler F} {tl : List (Handler F)} {level k : Nat}
    (hl : LevelsOk (h :: tl) 0 level) (hk : SkipOk h.stackLevel tl k) :
    LevelsOk tl k h.stackLevel := by
  refine ⟨hl.1.tail, fun x hx => ?_⟩
  rcases Nat.eq_zero_or_pos k with rfl | hpos
  · cases tl with
    | nil => simp at hx
    | cons y tl =>
      obtain rfl : y = x := by simpa using hx
      exact (List.isChain_cons_cons.1 hl.1).1
  · exact (hk.land hpos x hx).trans (Nat.le_succ _)

/-- A property `I` of walks inside a level that entering a level, passing a substack handler and
    consuming a result preserve holds at the end of every walk that is not suspended. -/
theorem loop_invariant {call : F → σ → Int × σ} {use : UseCached} {I : Nat → Walk σ → Prop}
    (hent : ∀ (h : Handler F) w, I w.prevLevel w → h.stackLevel ≤ w.prevLevel + 1 →
      I h.stackLevel (enter h w))
    (hsub : ∀ (h : Handler F) w, I h.stackLevel w → I h.stackLevel (passSubstack h w))
    (hcon : ∀ (h : Handler F) tl w, I h.stackLevel w →
      (callModule call h w.world).1 ≠ pamIncomplete →
      I h.stackLevel (consume use h tl w (callModule call h w.world)).2) :
    ∀ {hs : List (Handler F)} {k : Nat} {w w' : Walk σ}, I w.prevLevel w →
      LevelsOk hs k w.prevLevel → loop call use hs k w = .finished w' → I w'.prevLevel w'
  | [], _, w, w', hw, _, he => by
    simp only [loop, Outcome.finished.injEq] at he
    exact he ▸ hw
  | _ :: _, _ + 1, w, w', hw, hl, he =>
    loop_invariant hent hsub hcon (w := w) hw ⟨hl.1.tail, hl.2⟩ he
  | h :: tl, 0, w, w', hw, hl, he => by
    have hI := hent h w hw (hl.2 h (by simp))
    rcases loop_cons call use h tl w with ⟨-, h1⟩ | ⟨-, -, h1⟩ | ⟨-, hinc, h1⟩
    · rw [h1] at he
      exact loop_invariant hent hsub hcon (hsub h _ hI) (hl.next (.zero _ _)) he
    · rw [h1] at he
      cases he
    · rw [h1] at he
      exact loop_invariant hent hsub hcon (hcon h tl _ hI hinc)
        (hl.next (consume_skip_ok _ _ _ _ _)) he

end Pam
