/-
  An import into a package that is loaded (`uci_import`): the parse context has the package of the
  caller, and `uci_cleanup` frees the package that a parse context still has.
-/
import IotLib.Uci.Frame

namespace Uci

open Exec

/-! ## Packages in memory -/

/-- `struct uci_context`: the packages at their addresses, the list of those that are loaded, and the
    package of the parse context, if there is one. -/
structure UciContext where
  strict : Bool := true
  heap : Nat → Package
  root : List Nat
  freed : List Nat := []
  pctx : Option (Option Nat) := none

/-- `uci_free_package`; the package is taken off the list. -/
def uciFreePackage (package : Nat) (ctx : UciContext) : UciContext :=
  { ctx with root := ctx.root.filter (· ≠ package), freed := package :: ctx.freed }

/-- `uci_cleanup` -/
def uciCleanup (ctx : UciContext) : UciContext :=
  match ctx.pctx with
  | none => ctx
  | some none => { ctx with pctx := none }
  | some (some package) => uciFreePackage package { ctx with pctx := none }

/-- The state in which a file is read. -/
def UciContext.start (ctx : UciContext) : Ctx := { strict := ctx.strict, root := ctx.root.map ctx.heap }

/-- Whether the parse context has the package that it started with: `uci_switch_config`, which takes
    another one, first puts this one on the list. -/
def samePackage (c c' : Ctx) : Bool := c'.root.length = c.root.length

/-- `uci_import` into a package, and its error. The parse context stays when there was one. -/
def uciImportInto (stream : Str) (name : Option Str) (package : Nat) (ctx : UciContext) :
    Option Err × UciContext :=
  let ctx := uciCleanup ctx
  match uciImport stream name (some (ctx.heap package)) true ctx.start with
  | .ok p _ => (none, { ctx with heap := Function.update ctx.heap package (p.getD (ctx.heap package)) })
  | .error e c' =>
    (some e, { ctx with
      heap := Function.update ctx.heap package (c'.package.getD (ctx.heap package))
      pctx := some (if samePackage ctx.start c' then some package else none) })

/-- The package is loaded, and can be used. -/
def UciContext.Loaded (ctx : UciContext) (package : Nat) : Prop :=
  package ∈ ctx.root ∧ package ∉ ctx.freed

/-! ## The parse context -/

/-- The parse context has a package, and none was put on the list. -/
structure Borrows (root : List Package) (c : Ctx) : Prop where
  root : c.root = root
  package : c.package ≠ none

section
variable {root : List Package} {c : Ctx}

theorem stable_borrows (root : List Package) : Stable (Borrows root) where
  outer hc h := by
    obtain ⟨-, e2, -, e4, -, -⟩ := outer_eq h
    exact ⟨e2.trans hc.root, e4 ▸ hc.package⟩
  package hc _ _ := ⟨hc.root, nofun⟩
  sect _ hc := ⟨hc.root, hc.package⟩
  switch hc h := absurd h hc.package

/-- Nothing is put on the list while a package is merged. -/
theorem uciImport_borrows {stream : Str} {name : Option Str} {p : Package} {e : Err} {c' : Ctx}
    (h : Throws (uciImport stream name (some p) true) c e c') : c'.root = c.root := by
  have hloop : ∀ {c₁ : Ctx}, Borrows c.root c₁ → Throws (do
      importLoop true (stream.length + 2)
      let c ← get
      if c.package = none ∧ name ≠ none then uciSwitchConfig
      let c ← get
      let result := c.package
      set { c with package := none, name := none }
      uciSwitchConfig
      return result : M (Option Package)) c₁ e c' → c'.root = c.root := by
    intro c₁ hc₁ h
    have hkeeps := (stable_borrows c.root).invariant.importLoop (stream.length + 2) hc₁
    rcases h.split with h | ⟨_, c₂, hrun, h⟩
    · exact (hkeeps.throws h).root
    · have hc₂ := hkeeps.runs hrun
      have hend : ∀ {c₃ : Ctx}, c₃.package = none → c₃.name = none →
          Runs uciSwitchConfig c₃ () c₃ := by
        intro c₃ hp hn
        unfold uciSwitchConfig
        refine .read ?_
        rw [hp]
        refine .write ?_
        rw [hn]
        exact .ret _ _
      have hrest : Runs (do
          let c ← get
          let result := c.package
          set { c with package := none, name := none }
          uciSwitchConfig
          return result : M (Option Package)) c₂ c₂.package { c₂ with package := none, name := none } :=
        .read (.write (.seq (hend rfl rfl) (.ret _ _)))
      have hget : Throws (do
          if c₂.package = none ∧ name ≠ none then uciSwitchConfig
          let c ← get
          let result := c.package
          set { c with package := none, name := none }
          uciSwitchConfig
          return result : M (Option Package)) c₂ e c' := h
      rw [if_neg fun hand => hc₂.package hand.1] at hget
      have hcontra : EStateM.Result.ok c₂.package { c₂ with package := none, name := none } =
          EStateM.Result.error e c' := Eq.trans (Eq.symm hrest) hget
      cases hcontra
  unfold uciImport at h
  rcases h.split with h | ⟨_, c₁, hstart, h⟩
  · cases h
  cases hstart
  dsimp only at h
  cases name with
  | none =>
    refine hloop ?_ h
    exact ⟨rfl, nofun⟩
  | some n =>
    dsimp only at h
    by_cases hvalid : uciValidatePackage n = false
    · rw [if_pos hvalid] at h
      rcases h.split with h | ⟨_, c₂, hrun, -⟩
      · cases h
        rfl
      · cases hrun
    · rw [if_neg hvalid] at h
      rcases h.split with h | ⟨_, c₂, hset, h⟩
      · cases h
      cases hset
      refine hloop ?_ h
      exact ⟨rfl, nofun⟩

end

/-! ## A failed import -/

/-- **A failed merge**: an import into a package that fails leaves this package to the parse context, so
    the next `uci_cleanup` frees it and takes it off the list. -/
theorem merge_fails_frees {stream : Str} {name : Option Str} {package : Nat} {ctx : UciContext} {e : Err}
    (h : (uciImportInto stream name package ctx).1 = some e) :
    let ctx' := uciCleanup (uciImportInto stream name package ctx).2
    package ∉ ctx'.root ∧ package ∈ ctx'.freed ∧ ¬ ctx'.Loaded package := by
  intro ctx'
  have hpctx : (uciImportInto stream name package ctx).2.pctx = some (some package) := by
    unfold uciImportInto at h ⊢
    dsimp only at h ⊢
    split at h
    · cases h
    · rename_i e' c' hthrow
      have hroot := uciImport_borrows hthrow
      have hsame : samePackage (uciCleanup ctx).start c' = true := by
        unfold samePackage
        rw [hroot]
        exact decide_eq_true rfl
      dsimp only
      rw [if_pos hsame]
  have hctx' : ctx' = uciFreePackage package { (uciImportInto stream name package ctx).2 with pctx := none } := by
    change uciCleanup _ = _
    unfold uciCleanup
    rw [hpctx]
  have hroot : package ∉ ctx'.root := by
    rw [hctx']
    intro hmem
    simpa using (List.mem_filter.1 hmem).2
  have hfreed : package ∈ ctx'.freed := by
    rw [hctx']
    exact List.mem_cons_self ..
  exact ⟨hroot, hfreed, fun hloaded => hroot hloaded.1⟩

/-- A context with a package that is loaded. -/
def loadedOne : UciContext where
  heap := fun _ => { name := bytes "p", sections := [{ name := bytes "a", type := bytes "t" }] }
  root := [0]

/-- A line without a command. -/
theorem merge_invalid_frees :
    loadedOne.Loaded 0 ∧ (uciImportInto (bytes "x\n") none 0 loadedOne).1.isSome ∧
      ¬ (uciCleanup (uciImportInto (bytes "x\n") none 0 loadedOne).2).Loaded 0 := by
  unfold UciContext.Loaded
  decide +kernel

theorem merge_fails_frees_invalid :
    0 ∈ (uciCleanup (uciImportInto (bytes "x\n") none 0 loadedOne).2).freed := by
  have h : ∃ e, (uciImportInto (bytes "x\n") none 0 loadedOne).1 = some e :=
    Option.isSome_iff_exists.1 (by decide +kernel)
  obtain ⟨e, h⟩ := h
  exact (merge_fails_frees h).2.1

end Uci
