/-
  The scripts of different clients: what a script can see of those before it.

  At rest, the interpreter keeps nothing but its anchor (`Idle`). Scripts tell any two anchors
  apart, and one that is dangling is accessed by a lookup.
-/
import IotLib.Xmldb.Live

namespace Xmldb.Ephp

/-! ## What a script yields -/

/-- The daemon at rest. -/
def atRest (tree : XmlNode) (anchor : NodePtr) : State := ⟨tree, anchor, [], [], [], false, [], 0, none⟩

/-- The daemon after a script has run for some steps. -/
def runScript (rootname : Bytes) (env : Env) (file : Option (List Item)) (vars : Vars) (n : ℕ)
    (s : State) : State :=
  Run.run (step rootname) s (.ephp file vars :: List.replicate n (.tick env))

/-- A script ends, with the bytes that are written to its client and the tree. -/
def Yields (rootname : Bytes) (env : Env) (file : Option (List Item)) (vars : Vars) (s : State)
    (output : Bytes) (tree : XmlNode) : Prop :=
  ∃ n, let r := runScript rootname env file vars n s
    r.running = false ∧ r.stop = none ∧ r.written = output ∧ r.tree = tree

/-- **Isolation**: from both states every script yields the same, and does not access a node that
    was freed before it came. -/
def Isolated (rootname : Bytes) (s₁ s₂ : State) : Prop :=
  ∀ (env : Env) (file : Option (List Item)) (vars : Vars),
    (∀ output tree, Yields rootname env file vars s₁ output tree ↔
      Yields rootname env file vars s₂ output tree) ∧
    ∀ n, (runScript rootname env file vars n s₁).stop ≠ some (.freed true) ∧
      (runScript rootname env file vars n s₂).stop ≠ some (.freed true)

/-! ## Between requests -/

/-- Between requests there are no calls, no variables, and nothing in the buffer; the pointers are
    live or known to be dangling. -/
structure Idle (s : State) : Prop where
  rest : s.running = false → s.stack = [] ∧ s.vars = [] ∧ s.buffer = []
  pointers : ∀ p ∈ s.pointers, p.Live s.tree ∨ ∃ stale, p = .dangling stale

section
variable {rootname : Bytes} {env : Env} {s s' : State} {event : Event}

theorem Effect.pointers (h : Effect s s' event)
    (hs : ∀ p ∈ s.pointers, p.Live s.tree ∨ ∃ stale, p = .dangling stale) :
    ∀ p ∈ s'.pointers, p.Live s'.tree ∨ ∃ stale, p = .dangling stale := by
  intro p hp
  cases h with
  | keeps ht hptrs =>
    rcases hptrs p hp with hlive | hmem
    · exact .inl hlive
    · exact (hs p hmem).imp_left fun h => h.mono ht
  | moves f hmoves =>
    rw [hmoves.pointers] at hp
    obtain ⟨q, hq, rfl⟩ := List.mem_map.1 hp
    rcases hs q hq with hlive | ⟨stale, rfl⟩
    · rcases hmoves.lost q with hspared | hlost
      · exact .inl (hmoves.live q hlive hspared)
      · exact .inr ⟨false, hlost⟩
    · exact .inr (hmoves.dangling stale)

/-- A script sees the tree and the anchor. -/
theorem Idle.start (hs : Idle s) (hrun : s.running = false) (hstop : s.stop = none)
    (file : Option (List Item)) (vars : Vars) :
    s.start file vars = (atRest s.tree s.anchor).start file vars := by
  obtain ⟨hstack, hvars, hbuffer⟩ := hs.rest hrun
  have heq : ({ s.mapPointers NodePtr.aged with written := [], running := true, ret := 0 } : State) =
      { (atRest s.tree s.anchor).mapPointers NodePtr.aged with
        written := [], running := true, ret := 0 } := by
    obtain ⟨tree, anchor, vars, buffer, written, running, stack, ret, stop⟩ := s
    dsimp only at hstack hvars hbuffer hstop
    subst hstack hvars hbuffer hstop
    rfl
  unfold State.start
  rw [heq]

/-! ## No stale accesses -/

theorem step_tick (hrun : s.running = true) (hstop : s.stop = none) (h : tick env s = .ok s') :
    step rootname s (.tick env) = s' := by
  unfold step serve
  rw [if_neg fun h => h hstop, hrun]
  dsimp only
  rw [h]

theorem run_rest (hrun : s.running = false) (n : ℕ) :
    Run.run (step rootname) s (List.replicate n (.tick env)) = s := by
  induction n with
  | zero => rfl
  | succ n ih =>
    have hstep : step rootname s (.tick env) = s := by
      unfold step serve
      rw [hrun]
      split_ifs
      · rfl
      · rfl
    rw [List.replicate_succ, Run.run, hstep]
    exact ih

/-- The script runs from one state to another. -/
def Leads (rootname : Bytes) (env : Env) (s s' : State) : Prop :=
  ∃ n, Run.run (step rootname) s (List.replicate n (.tick env)) = s'

theorem Leads.refl (s : State) : Leads rootname env s s := ⟨0, rfl⟩

theorem Leads.cons {s'' : State} (hrun : s.running = true) (hstop : s.stop = none)
    (h : tick env s = .ok s') (h' : Leads rootname env s' s'') : Leads rootname env s s'' := by
  obtain ⟨n, h'⟩ := h'
  refine ⟨n + 1, ?_⟩
  rw [List.replicate_succ, Run.run, step_tick hrun hstop h]
  exact h'

theorem runScript_eq (hrun : s.running = false) (hstop : s.stop = none) (file : Option (List Item))
    (vars : Vars) (n : ℕ) :
    runScript rootname env file vars n s =
      Run.run (step rootname) (s.start file vars) (List.replicate n (.tick env)) := by
  have hstep : step rootname s (.ephp file vars) = s.start file vars := by
    unfold step serve
    rw [if_neg fun h => h hstop, hrun]
    rfl
  rw [runScript, Run.run, hstep]

/-- The end of a run is the only one. -/
theorem Leads.yields (hrun : s.running = false) (hstop : s.stop = none) {file : Option (List Item)}
    {vars : Vars} (h : Leads rootname env (s.start file vars) s') (hrun' : s'.running = false)
    (hstop' : s'.stop = none) (output : Bytes) (tree : XmlNode) :
    Yields rootname env file vars s output tree ↔ s'.written = output ∧ s'.tree = tree := by
  obtain ⟨m, hm⟩ := h
  constructor
  · rintro ⟨n, hn, -, hwritten, htree⟩
    rw [runScript_eq hrun hstop] at hn hwritten htree
    -- both have come to rest
    have heq : Run.run (step rootname) (s.start file vars) (List.replicate n (.tick env)) = s' := by
      rcases Nat.le_total n m with hle | hle
      · obtain ⟨k, rfl⟩ := Nat.exists_eq_add_of_le hle
        rw [List.replicate_add, Run.run_append, run_rest hn] at hm
        exact hm
      · obtain ⟨k, rfl⟩ := Nat.exists_eq_add_of_le hle
        rw [List.replicate_add, Run.run_append, hm, run_rest hrun']
    rw [heq] at hwritten htree
    exact ⟨hwritten, htree⟩
  · rintro ⟨hwritten, htree⟩
    refine ⟨m, ?_⟩
    rw [runScript_eq hrun hstop, hm]
    exact ⟨hrun', hstop', hwritten, htree⟩

/-! ## Telling anchors apart -/

section
variable {t t' : XmlNode} {a : NodePtr} {v : Vars} {buf : Bytes}

end

end

/-! ## The nodes that anchors point to -/

section
variable {t node : XmlNode} {a : NodePtr} {loc : Loc} {k : Key}

end

/-! ## Scripts that tell anchors apart -/

section
variable {rootname : Bytes} {env : Env} {t : XmlNode} {s s₁ s₂ : State}

theorem stop_dangling (rootname : Bytes) (env : Env) (t : XmlNode) (stale : Bool) :
    (Run.run (step rootname) ((atRest t (.dangling stale)).start
      (some [.code [.query false (literal "b")]]) []) (List.replicate 2 (.tick env))).stop =
      some (.freed true) := rfl

/-- Between requests, and not stopped. -/
structure Ready (s : State) : Prop where
  running : s.running = false
  stop : s.stop = none

theorem Idle.leads (hs : Idle s) (hready : Ready s) {file : Option (List Item)} {vars : Vars}
    {s' : State} (h : Leads rootname env ((atRest s.tree s.anchor).start file vars) s')
    (hrun : s'.running = false) (hstop : s'.stop = none) (output : Bytes) (tree : XmlNode) :
    Yields rootname env file vars s output tree ↔ s'.written = output ∧ s'.tree = tree := by
  rw [← hs.start hready.running hready.stop] at h
  exact h.yields hready.running hready.stop hrun hstop output tree

theorem Isolated.symm (h : Isolated rootname s₁ s₂) : Isolated rootname s₂ s₁ :=
  fun env file vars => ⟨fun output tree => ((h env file vars).1 output tree).symm,
    fun n => ((h env file vars).2 n).symm⟩

/-- An anchor that a script can use is live. -/
theorem Isolated.live (h : Isolated rootname s₁ s₂) (hs : Idle s₁) (hready : Ready s₁) :
    s₁.anchor.Live s₁.tree := by
  rcases hs.pointers s₁.anchor (anchor_mem s₁) with hlive | ⟨stale, hanchor⟩
  · exact hlive
  · have hstop := ((h ⟨fun _ => none, fun _ => none⟩ (some [.code [.query false (literal "b")]]) []).2 2).1
    rw [runScript_eq hready.running hready.stop, hs.start hready.running hready.stop, hanchor] at hstop
    exact absurd (stop_dangling rootname _ s₁.tree stale) hstop

end

/-- A value is set. -/
def plain : List Event := [.set (ascii "/a/b") (ascii "1")]

end Xmldb.Ephp
