/-
  The frozen chain: `pam_setcred` and `pam_close_session` follow the return codes
  that `pam_authenticate` and `pam_open_session` have left in the handlers.
-/
import IotLib.Pam.Resume

namespace Pam

variable {F σ τ : Type}

/-! ## Loading handlers -/

/-- The type of a line of the configuration. -/
inductive ModType where
  | auth | sess | acct | pass
deriving DecidableEq

/-- The chain of the first function of a module. -/
def ModType.first : ModType → Choice
  | .auth => .authenticate
  | .sess => .openSession
  | .acct => .account
  | .pass => .chauthtok

/-- The chain of the second function, for the types that have one. -/
def ModType.second : ModType → Option Choice
  | .auth => some .setcred
  | .sess => some .closeSession
  | .acct | .pass => none

/-- The arguments of `_pam_add_handler`, with the functions found in the module. -/
structure Line (F : Type) where
  other : Bool
  type : ModType
  handlerType : HandlerType
  stackLevel : Nat
  actions : Nat → Action
  func : Option F
  func2 : Option F

/-- The configured chains and the default ones (`other`); `next` is the address of
    the next `cached_retval`. -/
structure Handlers (F : Type) where
  chain : Bool → Choice → List (Handler F) := fun _ _ => []
  next : Nat := 0

/-- A handler is added to the end of a chain. -/
def Handlers.push (s : Handlers F) (other : Bool) (c : Choice) (h : Handler F) : Handlers F :=
  { s with
    chain := fun o c' => if o = other ∧ c' = c then s.chain o c' ++ [h] else s.chain o c'
    next := s.next + 1 }

/-- `_pam_add_handler`, once the module is loaded: the second handler consults the
    cell of the first. -/
def pamAddHandler (s : Handlers F) (l : Line F) : Handlers F :=
  let cell := s.next
  let s := s.push l.other l.type.first
    ⟨l.handlerType, l.func, l.actions, cell, cell, l.stackLevel⟩
  match l.type.second with
  | none => s
  | some c => s.push l.other c ⟨l.handlerType, l.func2, l.actions, s.next, cell, l.stackLevel⟩

/-- The chains of the handle were loaded from some configuration. -/
def Handle.Loaded (p : Handle F σ) : Prop :=
  ∃ lines : List (Line F), ∀ c,
    (p.conf c).handlers = (lines.foldl pamAddHandler {}).chain false c ∧
    (p.other c).handlers = (lines.foldl pamAddHandler {}).chain true c

/-- The second handler of a line. -/
structure Twin (a b : Handler F) : Prop where
  handlerType : b.handlerType = a.handlerType
  actions : b.actions = a.actions
  stackLevel : b.stackLevel = a.stackLevel
  cell : b.cachedRetvalP = a.cachedRetval

/-- No two handlers of a chain have the same cell. -/
structure Handlers.Distinct (s : Handlers F) : Prop where
  cells : ∀ o c, ((s.chain o c).map Handler.cachedRetval).Nodup
  fresh : ∀ o c, ∀ h ∈ s.chain o c, h.cachedRetval < s.next

/-- What loading establishes: the chains of first and second functions correspond. -/
structure Handlers.Ok (s : Handlers F) : Prop extends s.Distinct where
  twins : ∀ o (t : ModType) c, t.second = some c →
    List.Forall₂ Twin (s.chain o t.first) (s.chain o c)

section
variable {s : Handlers F}

theorem Handlers.push_chain (s : Handlers F) (other : Bool) (c : Choice) (h : Handler F) :
    (s.push other c h).chain other c = s.chain other c ++ [h] := by
  simp [Handlers.push]

theorem Handlers.push_chain_ne {other o : Bool} {c c' : Choice} (h : Handler F)
    (hne : ¬ (o = other ∧ c' = c)) : (s.push other c h).chain o c' = s.chain o c' := by
  simp only [Handlers.push, if_neg hne]

theorem Handlers.Distinct.push (hs : s.Distinct) (other : Bool) (c : Choice) {h : Handler F}
    (hnew : h.cachedRetval = s.next) : (s.push other c h).Distinct := by
  constructor
  · intro o c'
    by_cases heq : o = other ∧ c' = c
    · obtain ⟨rfl, rfl⟩ := heq
      rw [Handlers.push_chain, List.map_append, List.nodup_append]
      refine ⟨hs.cells o c', by simp, ?_⟩
      intro a ha b hb
      obtain ⟨x, hx, rfl⟩ := List.mem_map.1 ha
      obtain rfl : b = s.next := by simpa [hnew] using hb
      exact Nat.ne_of_lt (hs.fresh o c' x hx)
    · rw [Handlers.push_chain_ne h heq]
      exact hs.cells o c'
  · intro o c' x hx
    change x.cachedRetval < s.next + 1
    by_cases heq : o = other ∧ c' = c
    · obtain ⟨rfl, rfl⟩ := heq
      rw [Handlers.push_chain] at hx
      rcases List.mem_append.1 hx with hx | hx
      · exact (hs.fresh o c' x hx).trans (Nat.lt_succ_self _)
      · obtain rfl : x = h := by simpa using hx
        omega
    · rw [Handlers.push_chain_ne h heq] at hx
      exact (hs.fresh o c' x hx).trans (Nat.lt_succ_self _)

theorem ModType.first_ne_second {t t' : ModType} {c : Choice} (h : t.second = some c) :
    t'.first ≠ c := by
  rintro rfl
  cases t <;> cases t' <;> cases h

theorem ModType.first_inj {t t' : ModType} (h : t.first = t'.first) : t = t' := by
  cases t <;> cases t' <;> first | rfl | cases h

theorem ModType.second_inj {t t' : ModType} {c : Choice} (h : t.second = some c)
    (h' : t'.second = some c) : t = t' := by
  cases t <;> cases t' <;> cases h <;> cases h' <;> rfl

theorem Handlers.Ok.add (hs : s.Ok) (l : Line F) : (pamAddHandler s l).Ok := by
  unfold pamAddHandler
  set a : Handler F := ⟨l.handlerType, l.func, l.actions, s.next, s.next, l.stackLevel⟩
  have hfirst : (s.push l.other l.type.first a).Distinct :=
    hs.toDistinct.push l.other l.type.first rfl
  have hother : ∀ {o : Bool} {t : ModType} {c : Choice}, t.second = some c →
      ¬ (o = l.other ∧ t = l.type) →
      List.Forall₂ Twin ((s.push l.other l.type.first a).chain o t.first)
        ((s.push l.other l.type.first a).chain o c) := by
    intro o t c hc hne
    rw [Handlers.push_chain_ne, Handlers.push_chain_ne]
    · exact hs.twins o t c hc
    · exact fun h => ModType.first_ne_second hc h.2.symm
    · exact fun h => hne ⟨h.1, ModType.first_inj h.2⟩
  cases hsecond : l.type.second with
  | none =>
    refine ⟨hfirst, fun o t c hc => hother hc ?_⟩
    rintro ⟨-, rfl⟩
    rw [hsecond] at hc
    cases hc
  | some c₂ =>
    refine ⟨hfirst.push l.other c₂ rfl, fun o t c hc => ?_⟩
    set s₁ := s.push l.other l.type.first a
    set b : Handler F := ⟨l.handlerType, l.func2, l.actions, s₁.next, s.next, l.stackLevel⟩
    change List.Forall₂ Twin ((s₁.push l.other c₂ b).chain o t.first)
      ((s₁.push l.other c₂ b).chain o c)
    by_cases heq : o = l.other ∧ t = l.type
    · obtain ⟨rfl, rfl⟩ := heq
      obtain rfl : c₂ = c := Option.some.inj (hsecond.symm.trans hc)
      rw [Handlers.push_chain, Handlers.push_chain_ne _ fun h => ModType.first_ne_second hc h.2,
        Handlers.push_chain, Handlers.push_chain_ne _ fun h => ModType.first_ne_second hc h.2.symm]
      exact List.rel_append (hs.twins l.other l.type c₂ hc)
        (.cons ⟨rfl, rfl, rfl, rfl⟩ .nil)
    · have hne : ¬ (o = l.other ∧ c = c₂) := by
        rintro ⟨rfl, rfl⟩
        exact heq ⟨rfl, ModType.second_inj hc hsecond⟩
      rw [Handlers.push_chain_ne b fun h => ModType.first_ne_second hsecond h.2,
        Handlers.push_chain_ne b hne]
      exact hother hc heq

theorem load_ok (lines : List (Line F)) : (lines.foldl pamAddHandler {}).Ok := by
  refine List.foldlRecOn lines pamAddHandler ?_ fun s hs l _ => hs.add l
  exact ⟨⟨fun _ _ => List.nodup_nil, fun _ _ h hh => (List.not_mem_nil hh).elim⟩,
    fun _ _ _ _ => .nil⟩

/-- The chain of the second functions is configured together with that of the first. -/
theorem Handle.Loaded.twins {p : Handle F σ} (hp : p.Loaded) {t : ModType} {c : Choice}
    (hc : t.second = some c) :
    List.Forall₂ Twin (p.chain t.first).handlers (p.chain c).handlers ∧
      ((p.chain t.first).handlers.map Handler.cachedRetval).Nodup := by
  obtain ⟨lines, hlines⟩ := hp
  have hok := load_ok lines
  have hconf := hok.twins false t c hc
  have hempty : (p.conf t.first).handlers = [] ↔ (p.conf c).handlers = [] := by
    rw [(hlines _).1, (hlines _).1, ← List.length_eq_zero_iff, ← List.length_eq_zero_iff,
      hconf.length_eq]
  unfold Handle.chain
  by_cases he : (p.conf t.first).handlers = []
  · rw [if_pos he, if_pos (hempty.1 he), (hlines _).2, (hlines _).2]
    exact ⟨hok.twins true t c hc, hok.cells true _⟩
  · rw [if_neg he, if_neg fun h => he (hempty.2 h), (hlines _).1, (hlines _).1]
    exact ⟨hconf, hok.cells false _⟩

end

/-! ## Corresponding walks -/

/-- Two walks at the same handler which agree on where the impression is negative. -/
structure Alike (level : Nat) (w₁ : Walk τ) (w₂ : Walk σ) : Prop where
  depth : w₂.depth = w₁.depth
  prevLevel : w₂.prevLevel = w₁.prevLevel
  impression : w₁.impression = .negative ↔ w₂.impression = .negative
  saved : ∀ l ≤ level,
    (w₁.substates l).impression = .negative ↔ (w₂.substates l).impression = .negative

section
variable {h₁ h₂ : Handler F} {hs₁ hs₂ tl₁ tl₂ : List (Handler F)} {w₁ : Walk τ} {w₂ : Walk σ}

theorem jumpLoop_twin (level : Nat) : ∀ (a : Nat) {tl₁ tl₂ : List (Handler F)},
    List.Forall₂ Twin tl₁ tl₂ →
    (jumpLoop level a tl₁).1.length = (jumpLoop level a tl₂).1.length ∧
      (jumpLoop level a tl₁).2 = (jumpLoop level a tl₂).2
  | 0, _, _, h => ⟨h.length_eq, rfl⟩
  | _ + 1, _, _, .nil => ⟨rfl, rfl⟩
  | a + 1, x :: tl₁, y :: tl₂, .cons hxy h => by
    rw [jumpLoop, jumpLoop, hxy.stackLevel]
    split_ifs
    · refine jumpLoop_twin level a ?_
      -- the deeper handlers are dropped on both sides
      clear hxy
      induction h with
      | nil => exact .nil
      | cons hxy h ih =>
        rw [List.dropWhile_cons, List.dropWhile_cons, hxy.stackLevel]
        split_ifs
        · exact ih
        · exact .cons hxy h
    · exact ⟨by simp [h.length_eq], rfl⟩

theorem decisionSkip_twin (level : Nat) (h : List.Forall₂ Twin tl₁ tl₂) :
    decisionSkip level tl₁ = decisionSkip level tl₂ := by
  unfold decisionSkip
  induction h with
  | nil => rfl
  | cons hxy h ih =>
    rw [List.takeWhile_cons, List.takeWhile_cons, hxy.stackLevel]
    split_ifs
    · rw [List.length_cons, List.length_cons, ih]
    · rfl

theorem Alike.enter {level : Nat} (hw : Alike level w₁ w₂) (hprev : level = w₁.prevLevel)
    (hh : Twin h₁ h₂) (hl : h₁.stackLevel ≤ w₁.prevLevel + 1) :
    Alike h₁.stackLevel (enter h₁ w₁) (enter h₂ w₂) := by
  unfold Pam.enter
  rw [hw.prevLevel, hh.stackLevel]
  split_ifs with hlt
  · refine ⟨hw.depth, rfl, hw.impression, fun l hle => ?_⟩
    by_cases he : l = h₁.stackLevel
    · simpa [he] using hw.impression
    · simpa [Function.update_of_ne he] using hw.saved l (by omega)
  · exact ⟨hw.depth, hw.prevLevel, hw.impression, fun l hle => hw.saved l (by omega)⟩

theorem Alike.passSubstack {level : Nat} (hw : Alike level w₁ w₂) (hh : Twin h₁ h₂) :
    Alike level (passSubstack h₁ w₁) (passSubstack h₂ w₂) :=
  ⟨congrArg (· + 1) hw.depth, hh.stackLevel, hw.impression, hw.saved⟩

/-- When a verdict is negative. -/
theorem verdict_negative (use : UseCached) (h : Handler F) (tl : List (Handler F)) (w : Walk σ)
    (c r : Int) (a : Action) : (verdict use h tl w c r a).impression = .negative ↔
      match a with
      | .reset => (w.substates h.stackLevel).impression = .negative
      | .ok | .done | .ignore => w.impression = .negative
      | .bad | .die | .undef => True
      | .jump n => (jumpLoop h.stackLevel (n + 1) tl).2 ≠ 0 ∨ w.impression = .negative := by
  have himp : w.improvable → w.impression ≠ .negative := by
    rintro (h | h)
    · rw [h]
      decide
    · rw [h.1]
      decide
  cases a with
  | ok | done =>
    simp only [verdict, verdictOk]
    split_ifs with htake
    · exact iff_of_false (by decide) (himp htake.1)
    · rfl
  | jump n =>
    simp only [verdict, verdictJump]
    split_ifs with hbad htake
    · exact iff_of_true rfl (Or.inl hbad)
    · exact iff_of_false (by decide) (not_or.2 ⟨hbad, himp htake.2.1⟩)
    · simp [hbad]
  | bad | die | undef => simp [verdict, verdictBad]
  | reset | ignore => rfl

/-- The handlers passed over after `done`. -/
theorem verdict_done_skip (use : UseCached) (h : Handler F) (tl : List (Handler F)) (w : Walk σ)
    {c r : Int} (hpos : w.impression = .undef → r = pamIgnore → c ≠ r →
      decisionSkip h.stackLevel tl = 0) :
    (verdict use h tl w c r .done).skip =
      if w.impression = .negative then 0 else decisionSkip h.stackLevel tl := by
  simp only [verdict, verdictOk, and_true]
  by_cases htake : w.improvable ∧ (r ≠ pamIgnore ∨ c = r)
  · have hne : w.impression ≠ .negative := by
      rcases htake.1 with hi | hi
      · rw [hi]
        decide
      · rw [hi.1]
        decide
    simp [if_pos htake, hne]
  · rw [if_neg htake]
    cases hi : w.impression with
    | positive => simp
    | negative => simp
    | undef =>
      have hr : ¬ (r ≠ pamIgnore ∨ c = r) := fun h => htake ⟨Or.inl hi, h⟩
      rw [not_or, not_not] at hr
      simp [hpos hi hr.1 hr.2]

/-- The handlers passed over are the same. -/
theorem Alike.skip (hw : Alike h₁.stackLevel w₁ w₂) (hh : Twin h₁ h₂)
    (ht : List.Forall₂ Twin tl₁ tl₂) {c r₁ r₂ : Int} {a : Action}
    (hr₁ : a = .done → c = r₁)
    (hdone : a = .done → w₂.impression = .undef → r₂ = pamIgnore → c ≠ r₂ →
      decisionSkip h₂.stackLevel tl₂ = 0) :
    (verdict .mayBeFrozen h₂ tl₂ w₂ c r₂ a).skip =
      (verdict .pleaseFreeze h₁ tl₁ w₁ c r₁ a).skip := by
  have hskip := decisionSkip_twin h₁.stackLevel ht
  cases a with
  | done =>
    rw [verdict_done_skip _ _ _ _ (hdone rfl),
      verdict_done_skip _ _ _ _ fun _ _ hne => absurd (hr₁ rfl) hne]
    simp only [hw.impression, hh.stackLevel, hskip]
  | die => simp only [verdict, verdictBad, hh.stackLevel, hskip]
  | jump n =>
    obtain ⟨hlen, -⟩ := jumpLoop_twin h₁.stackLevel (n + 1) ht
    simp only [verdict, verdictJump, hh.stackLevel, hlen, ht.length_eq]
  | ok => simp [verdict, verdictOk]
  | bad => simp [verdict, verdictBad]
  | reset | ignore | undef => rfl

theorem Alike.negative (hw : Alike h₁.stackLevel w₁ w₂) (hh : Twin h₁ h₂)
    (ht : List.Forall₂ Twin tl₁ tl₂) (c r₁ r₂ : Int) (a : Action) :
    (verdict .pleaseFreeze h₁ tl₁ w₁ c r₁ a).impression = .negative ↔
      (verdict .mayBeFrozen h₂ tl₂ w₂ c r₂ a).impression = .negative := by
  rw [verdict_negative, verdict_negative]
  cases a with
  | reset =>
    rw [hh.stackLevel]
    exact hw.saved _ le_rfl
  | jump n =>
    obtain ⟨-, hleft⟩ := jumpLoop_twin h₁.stackLevel (n + 1) ht
    simp only [hh.stackLevel, hleft, hw.impression]
  | ok | done | ignore => exact hw.impression
  | bad | die | undef => rfl

end

/-! ## Following the frozen chain -/

/-- A handler of the second walk for which the first one has left a valid entry in
    the cell, and where `PAM_IGNORE` does not keep the walk from ending as it did. -/
def Follows (h : Handler F) (tl : List (Handler F)) (w : Walk σ) (retval : Int) : Prop :=
  w.cells h.cachedRetvalP ≠ pamInvalidRetval ∧
    ((selectAction h (w.cells h.cachedRetvalP) retval).2 = .done → w.impression = .undef →
      retval = pamIgnore → w.cells h.cachedRetvalP ≠ pamIgnore → decisionSkip h.stackLevel tl = 0)

/-- Each result that the loop consumes meets the condition `ok`. -/
def LoopAdmits (call : F → σ → Int × σ) (use : UseCached)
    (ok : Handler F → List (Handler F) → Walk σ → Int → Prop) :
    List (Handler F) → Nat → Walk σ → Prop
  | [], _, _ => True
  | _ :: tl, k + 1, w => LoopAdmits call use ok tl k w
  | h :: tl, 0, w =>
    if h.handlerType = .substack then LoopAdmits call use ok tl 0 (passSubstack h (enter h w))
    else
      let r := callModule call h (enter h w).world
      ok h tl (enter h w) r.1 ∧ LoopAdmits call use ok tl (consume use h tl (enter h w) r).1
        (consume use h tl (enter h w) r).2

instance (h : Handler F) (tl : List (Handler F)) (w : Walk σ) (retval : Int) :
    Decidable (Follows h tl w retval) := inferInstanceAs (Decidable (_ ∧ _))

instance instDecidableLoopAdmits (call : F → σ → Int × σ) (use : UseCached)
    (ok : Handler F → List (Handler F) → Walk σ → Int → Prop) [∀ h tl w r, Decidable (ok h tl w r)] :
    ∀ hs k w, Decidable (LoopAdmits call use ok hs k w)
  | [], _, _ => inferInstanceAs (Decidable True)
  | _ :: tl, k + 1, w => instDecidableLoopAdmits call use ok tl k w
  | h :: tl, 0, w =>
    if hs : h.handlerType = .substack then
      have := instDecidableLoopAdmits call use ok tl 0 (passSubstack h (enter h w))
      decidable_of_iff (LoopAdmits call use ok tl 0 (passSubstack h (enter h w)))
        (by rw [LoopAdmits, if_pos hs])
    else
      let r := callModule call h (enter h w).world
      have := instDecidableLoopAdmits call use ok tl (consume use h tl (enter h w) r).1
        (consume use h tl (enter h w) r).2
      decidable_of_iff (ok h tl (enter h w) r.1 ∧
        LoopAdmits call use ok tl (consume use h tl (enter h w) r).1
          (consume use h tl (enter h w) r).2) (by rw [LoopAdmits, if_neg hs])

section
variable {h₁ h₂ : Handler F} {hs₁ hs₂ tl₁ tl₂ : List (Handler F)} {w₁ : Walk τ} {w₂ : Walk σ}

/-- The second walk consumes the code of a handler as the first one did. -/
theorem Alike.consume (hw : Alike h₁.stackLevel w₁ w₂) (hh : Twin h₁ h₂)
    (ht : List.Forall₂ Twin tl₁ tl₂) {r₁ : Int × Bool × τ} {r₂ : Int × Bool × σ}
    (hcell : w₂.cells h₁.cachedRetval = r₁.1) (hok : Follows h₂ tl₂ w₂ r₂.1) :
    (consume .mayBeFrozen h₂ tl₂ w₂ r₂).1 = (consume .pleaseFreeze h₁ tl₁ w₁ r₁).1 ∧
      Alike h₁.stackLevel (consume .pleaseFreeze h₁ tl₁ w₁ r₁).2
        (consume .mayBeFrozen h₂ tl₂ w₂ r₂).2 := by
  obtain ⟨hvalid, hdone⟩ := hok
  rw [hh.cell, hcell] at hvalid hdone
  have hcached : (consultCache .mayBeFrozen w₂.cells h₂ r₂.1).1 = r₁.1 := by
    simp only [consultCache, hh.cell, hcell, if_neg hvalid]
  have haction : (selectAction h₂ r₁.1 r₂.1).2 = (selectAction h₁ r₁.1 r₁.1).2 := by
    unfold selectAction
    rw [hh.actions]
    split_ifs <;> rfl
  have hfirst : (selectAction h₁ r₁.1 r₁.1).2 = .done → r₁.1 = (selectAction h₁ r₁.1 r₁.1).1 := by
    unfold selectAction
    split_ifs
    · intro h
      cases h
    · exact fun _ => rfl
  have hsecond : (selectAction h₂ r₁.1 r₂.1).2 = .done → (selectAction h₂ r₁.1 r₂.1).1 = r₂.1 := by
    unfold selectAction
    split_ifs
    · intro h
      cases h
    · exact fun _ => rfl
  have hskip : (verdict .mayBeFrozen h₂ tl₂ w₂ r₁.1 (selectAction h₂ r₁.1 r₂.1).1
        (selectAction h₁ r₁.1 r₁.1).2).skip =
      (verdict .pleaseFreeze h₁ tl₁ w₁ r₁.1 (selectAction h₁ r₁.1 r₁.1).1
        (selectAction h₁ r₁.1 r₁.1).2).skip := by
    refine hw.skip hh ht hfirst fun ha hundef hign hne => ?_
    rw [← haction] at ha
    rw [hsecond ha] at hign hne
    exact hdone ha hundef hign (hign ▸ hne)
  have hneg := hw.negative hh ht r₁.1 (selectAction h₁ r₁.1 r₁.1).1 (selectAction h₂ r₁.1 r₂.1).1
    (selectAction h₁ r₁.1 r₁.1).2
  simp only [Pam.consume, hcached, haction]
  refine ⟨hskip, ?_, hh.stackLevel, hneg, hw.saved⟩
  change w₂.depth + 1 + _ = w₁.depth + 1 + _
  rw [hw.depth, hskip]
  rfl

end

/-! ## Two runs -/

/-- Modules of which the sufficient one returns `code`. -/
def answers (code : Int) (f : Bool) (_ : Unit) : Int × Unit := (if f then code else pamSuccess, ())

end Pam
