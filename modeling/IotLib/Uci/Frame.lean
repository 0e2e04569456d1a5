/-
  What the parser leaves alone, on any input: the tokenizer only changes its
  buffer and what is left of the file, and a package keeps its name.
-/
import IotLib.Uci.DeltaLex

namespace Uci

open Exec

/-! ## The tokenizer -/

theorem getlnLoop_outer : ∀ (fuel ofs : Nat) (c : Ctx), (getlnLoop fuel ofs c).outer = c.outer
  | 0, _, _ => rfl
  | fuel + 1, ofs, c => by
    rw [getlnLoop]
    dsimp only
    split_ifs
    · rfl
    · rfl
    · rw [getlnLoop_outer]
      rfl

theorem uciGetln_outer (c : Ctx) (offset : Nat) : (uciGetln c offset).outer = c.outer := by
  rw [uciGetln, getlnLoop_outer]
  split_ifs <;> rfl

theorem parseBackslash_outer (c : Ctx) : (parseBackslash c).2.outer = c.outer := by
  rw [parseBackslash]
  dsimp only
  split_ifs
  · exact uciGetln_outer _ _
  · rfl

/-- The fields of the import are as in `o`. -/
def SameOuter (o : Outer) (c : Ctx) : Prop := c.outer = o

section
variable {o : Outer} {c : Ctx}

theorem uciParseError_keeps {α : Type} (reason : String) (h : SameOuter o c) :
    Keeps (SameOuter o) (uciParseError reason : M α) c := h

theorem doubleQuoteLoop_keeps : ∀ (fuel target : Nat) {c : Ctx}, SameOuter o c →
    Keeps (SameOuter o) (doubleQuoteLoop fuel target) c
  | 0, _, _, h => h
  | fuel + 1, target, c, h => by
    unfold doubleQuoteLoop
    refine .read ?_
    split_ifs
    · exact h
    · exact .write (.seq (uciParseError_keeps _ ((uciGetln_outer _ _).trans h)) fun _ _ h =>
        doubleQuoteLoop_keeps fuel target h)
    · exact .write (doubleQuoteLoop_keeps fuel target ((uciGetln_outer _ _).trans h))
    · have hb : SameOuter o (parseBackslash c).2 := (parseBackslash_outer c).trans h
      generalize parseBackslash c = r at hb
      obtain ⟨parse, c'⟩ := r
      dsimp only
      split_ifs
      · exact .write (doubleQuoteLoop_keeps fuel _ hb)
      · exact .write (doubleQuoteLoop_keeps fuel _ hb)
    · exact .write (doubleQuoteLoop_keeps fuel _ h)

theorem singleQuoteLoop_keeps : ∀ (fuel target : Nat) {c : Ctx}, SameOuter o c →
    Keeps (SameOuter o) (singleQuoteLoop fuel target) c
  | 0, _, _, h => h
  | fuel + 1, target, c, h => by
    unfold singleQuoteLoop
    refine .read ?_
    split_ifs
    · exact h
    · exact .write (.seq (uciParseError_keeps _ ((uciGetln_outer _ _).trans h)) fun _ _ h =>
        singleQuoteLoop_keeps fuel target h)
    · exact .write (singleQuoteLoop_keeps fuel target ((uciGetln_outer _ _).trans h))
    · exact .write (singleQuoteLoop_keeps fuel _ h)

theorem parseStrTurn_keeps (target : Nat) (h : SameOuter o c) :
    Keeps (SameOuter o) (parseStrTurn target) c := by
  unfold parseStrTurn
  refine .read ?_
  split_ifs
  · exact .seq (.read (.write (singleQuoteLoop_keeps _ _ h))) fun _ _ h => h
  · exact .seq (.read (.write (doubleQuoteLoop_keeps _ _ h))) fun _ _ h => h
  · exact h
  · exact h
  · exact h
  · have hb : SameOuter o (parseBackslash c).2 := (parseBackslash_outer c).trans h
    generalize parseBackslash c = r at hb
    obtain ⟨parse, c'⟩ := r
    dsimp only
    split_ifs
    · exact hb
    · exact hb
  · exact h

theorem parseStrLoop_keeps : ∀ (fuel target : Nat) {c : Ctx}, SameOuter o c →
    Keeps (SameOuter o) (parseStrLoop fuel target) c
  | 0, _, _, h => h
  | fuel + 1, target, c, h => by
    unfold parseStrLoop
    refine .seq (parseStrTurn_keeps target h) fun turn c' h' => ?_
    cases turn with
    | done semicolon => exact h'
    | next target =>
      refine .read ?_
      split_ifs
      · exact parseStrLoop_keeps fuel target h'
      · exact h'

theorem parseStr_keeps (target : Nat) (h : SameOuter o c) :
    Keeps (SameOuter o) (parseStr target) c := by
  unfold parseStr
  refine .read (.seq (parseStrLoop_keeps _ _ h) fun r c' h' => .read ?_)
  obtain ⟨target, semicolon⟩ := r
  dsimp only
  split_ifs
  · exact h'
  · exact h'

/-- **`next_arg`** leaves the fields of the import alone. -/
theorem nextArg_keeps (required name package : Bool) (h : SameOuter o c) :
    Keeps (SameOuter o) (nextArg required name package) c := by
  have hcheck : ∀ (val : Nat) {c : Ctx}, SameOuter o c → Keeps (SameOuter o) (do
      let c ← get
      if c.char val = 0 then
        if required then uciParseError "insufficient arguments"
      else if name ∧ uciValidateStr (c.str val) name package = false then
        uciParseError "invalid character in name field"
      return val : M Nat) c := by
    intro val c h
    refine .read ?_
    split_ifs
    · exact h
    · exact h
    · exact h
    · exact h
  unfold nextArg
  refine .read ?_
  by_cases hsemi : (skipWhitespace c).cur = semicolon
  · rw [if_pos hsemi]
    exact .write (hcheck _ h)
  · rw [if_neg hsemi]
    exact .write (.seq (parseStr_keeps _ h) fun _ _ h => hcheck _ h)

theorem uciIncreasePos_keeps (add : Nat) (reason : String) (h : SameOuter o c) :
    Keeps (SameOuter o) (uciIncreasePos add reason) c := by
  unfold uciIncreasePos
  refine .read ?_
  split_ifs
  · exact h
  · exact h

theorem assertEol_keeps (h : SameOuter o c) : Keeps (SameOuter o) assertEol c := by
  unfold assertEol
  refine .update (.seq (nextArg_keeps _ _ _ h) fun _ _ h => .read ?_)
  split_ifs
  · exact h
  · exact h

theorem strtok_keeps (h : SameOuter o c) : Keeps (SameOuter o) strtok c := by
  unfold strtok
  refine .read ?_
  dsimp only
  split_ifs
  · exact h
  · exact h
  · exact h
  · exact h

end

/-! ## The commands -/

/-- What the commands of a file for a single package keep, if the tokenizer, the changes that they
    make of the package and `uci_switch_config` without a package do. -/
structure Invariant (I : Ctx → Prop) : Prop where
  outer : ∀ {c c'}, I c → c'.outer = c.outer → I c'
  sect : ∀ {c} s, I c → I { c with sect := s }
  switch : ∀ {c}, I c → c.package = none → Keeps I uciSwitchConfig c
  addSection : ∀ {c p} type, I c → c.package = some p →
    I { c with package := some (uciAddSection (!c.merge) p type) }
  setSection : ∀ {c p p' name type s}, I c → c.package = some p → name ≠ [] →
    ¬ (c.strict = true ∧ otherType p name type = true) →
    uciSet (!c.merge) p { sect := some name, value := some type, s := p.lookup name, done := true } =
      .ok (p', s) → I { c with package := some p' }
  put : ∀ {c p p' list name value i}, I c → c.package = some p →
    putOption list (!c.merge) p
      { sect := some (p.sect i).name, option := some name, value := some value, s := some i,
        o := (p.sect i).lookup name, done := true } = .ok p' → I { c with package := some p' }

/-- What they keep if all changes of the package do that keep its name. -/
structure Stable (I : Ctx → Prop) : Prop where
  outer : ∀ {c c'}, I c → c'.outer = c.outer → I c'
  package : ∀ {c p p'}, I c → c.package = some p → p'.name = p.name → I { c with package := some p' }
  sect : ∀ {c} s, I c → I { c with sect := s }
  switch : ∀ {c}, I c → c.package = none → Keeps I uciSwitchConfig c

theorem uciAddSection_name (internal : Bool) (p : Package) (type : Str) :
    (uciAddSection internal p type).name = p.name := by
  rw [uciAddSection]
  exact record_name _ _ _

theorem putOption_name {list internal : Bool} {p p' : Package} {ptr : Ptr}
    (h : putOption list internal p ptr = .ok p') : p'.name = p.name := by
  rw [putOption] at h
  split_ifs at h
  · exact uciAddList_name h
  · cases hset : uciSet internal p ptr with
    | error e =>
      rw [hset] at h
      cases h
    | ok r =>
      rw [hset] at h
      cases h
      exact uciSet_name hset

section
variable {I : Ctx → Prop} {c : Ctx} (hI : Invariant I)
include hI

theorem Invariant.nextArg (required nm package : Bool) (hc : I c) :
    Keeps I (nextArg required nm package) c :=
  (nextArg_keeps required nm package rfl).mono fun _ h => hI.outer hc h

theorem Invariant.uciIncreasePos (add : Nat) (reason : String) (hc : I c) :
    Keeps I (uciIncreasePos add reason) c :=
  (uciIncreasePos_keeps add reason rfl).mono fun _ h => hI.outer hc h

theorem Invariant.assertEol (hc : I c) : Keeps I assertEol c :=
  (assertEol_keeps rfl).mono fun _ h => hI.outer hc h

theorem Invariant.strtok (hc : I c) : Keeps I strtok c :=
  (strtok_keeps rfl).mono fun _ h => hI.outer hc h

omit hI in
theorem liftPackage_keeps {α : Type} {f : Package → Except Err (Package × α)}
    (hf : ∀ p r, c.package = some p → f p = .ok r → I { c with package := some r.1 }) (hc : I c) :
    Keeps I (liftPackage f) c := by
  unfold Uci.liftPackage
  refine .read ?_
  cases hp : c.package with
  | none => exact hc
  | some p =>
    dsimp only
    cases hr : f p with
    | error e => exact hc
    | ok r => exact .write (.ret _ (hf p r hp hr))

theorem Invariant.uciParsePackage (hc : I c) : Keeps I (uciParsePackage true) c := by
  unfold Uci.uciParsePackage
  refine .read (.seq (hI.uciIncreasePos _ _ hc) fun _ _ hc => ?_)
  exact .seq (hI.nextArg _ _ _ hc) fun _ _ hc => .seq (hI.assertEol hc) fun _ _ hc => .read hc

theorem Invariant.uciParseConfig (hc : I c) : Keeps I uciParseConfig c := by
  unfold Uci.uciParseConfig
  refine .read ?_
  by_cases hp : c.package = none
  on_goal 1 =>
    rw [if_pos hp]
    by_cases hname : c.name = none
    · rw [if_pos hname]
      exact hc
    rw [if_neg hname]
    refine .seq (hI.switch hc hp) fun _ c hc => ?_
  on_goal 2 => rw [if_neg hp]
  all_goals
    refine .read (.seq (hI.uciIncreasePos _ _ hc) fun _ _ hc => ?_)
    refine .seq (hI.nextArg _ _ _ hc) fun _ _ hc => .read ?_
    refine .guarded hc (fun _ => hc) fun _ hc => ?_
    refine .seq (hI.nextArg _ _ _ hc) fun _ _ hc => .seq (hI.assertEol hc) fun _ _ hc => .read ?_
    dsimp only
    split_ifs with hname hother
    · refine .seq (liftPackage_keeps ?_ hc) fun _ _ hc => hI.sect _ hc
      rintro p r hp ⟨⟩
      exact hI.addSection _ hc hp
    · exact hc
    · refine .seq (liftPackage_keeps (fun p r hp h => ?_) hc) fun _ _ hc => hI.sect _ hc
      rw [hp] at hother
      exact hI.setSection hc hp hname hother h

theorem Invariant.uciParseOption (list : Bool) (hc : I c) : Keeps I (uciParseOption list) c := by
  unfold Uci.uciParseOption
  refine .read (.guarded hc (fun _ => hc) fun _ hc => ?_)
  refine .seq (hI.uciIncreasePos _ _ hc) fun _ _ hc => .seq (hI.nextArg _ _ _ hc) fun _ _ hc => ?_
  refine .seq (hI.nextArg _ _ _ hc) fun _ _ hc => .seq (hI.assertEol hc) fun _ _ hc => .read ?_
  refine liftPackage_keeps (fun p r hp h => ?_) hc
  dsimp only at h
  cases hput : putOption list _ p _ with
  | error e =>
    rw [hput] at h
    cases h
  | ok p' =>
    rw [hput] at h
    cases h
    exact hI.put hc hp hput

theorem Invariant.runCommand (word : Str) (hc : I c) : Keeps I (runCommand true word) c := by
  unfold Uci.runCommand
  split_ifs
  · exact hI.uciParsePackage hc
  · exact hI.uciParseConfig hc
  · exact hI.uciParseOption false hc
  · exact hI.uciParseOption true hc
  · exact hc

theorem Invariant.parseLineLoop : ∀ (fuel : Nat) {c : Ctx}, I c → Keeps I (parseLineLoop true fuel) c
  | 0, _, hc => hc
  | fuel + 1, c, hc => by
    unfold Uci.parseLineLoop
    refine .seq (hI.strtok hc) fun word c hc => ?_
    cases word with
    | none => exact hc
    | some word =>
      dsimp only
      split_ifs
      · exact hc
      · exact .seq (hI.runCommand word hc) fun _ _ hc => Invariant.parseLineLoop fuel hc

/-- **A file of a single package**, on any input. -/
theorem Invariant.importLoop : ∀ (fuel : Nat) {c : Ctx}, I c → Keeps I (importLoop true fuel) c
  | 0, _, hc => hc
  | fuel + 1, c, hc => by
    unfold Uci.importLoop
    refine .read ?_
    by_cases heof : c.eof = true
    · rw [if_pos heof]
      exact hc
    rw [if_neg heof]
    have hline : I (uciGetln { c with pos := 0 } 0) := hI.outer hc (uciGetln_outer _ _)
    dsimp only
    generalize uciGetln { c with pos := 0 } 0 = c₁ at hline ⊢
    refine .write (.seq (.protect ?_ ?_) fun _ _ hc => Invariant.importLoop fuel hc)
    · split_ifs
      · exact .update (.read (hI.parseLineLoop _ (hI.outer hline rfl)))
      · exact hline
    · intro e c hc
      split_ifs
      · exact hc
      · exact hc

end

theorem Stable.invariant {I : Ctx → Prop} (hI : Stable I) : Invariant I where
  outer := hI.outer
  sect := hI.sect
  switch := hI.switch
  addSection _ hc hp := hI.package hc hp (uciAddSection_name _ _ _)
  setSection hc hp _ _ h := hI.package hc hp (uciSet_name h)
  put hc hp h := hI.package hc hp (putOption_name h)

/-! ## The name of the package -/

/-- The package that is read has the given name, and so will one that is opened. -/
structure NameInv (name : Str) (c : Ctx) : Prop where
  next : c.name = some name
  package : ∀ p, c.package = some p → p.name = name

section
variable {name : Str} {c : Ctx}

theorem NameInv.uciSwitchConfig (hc : NameInv name c) :
    Keeps (NameInv name) uciSwitchConfig c := by
  unfold Uci.uciSwitchConfig
  refine .read ?_
  have hopened : ∀ c₁ : Ctx,
      NameInv name { c₁ with name := some name, package := some { name := name } } := by
    refine fun c₁ => ⟨rfl, ?_⟩
    rintro p ⟨⟩
    rfl
  cases hp : c.package with
  | none =>
    refine .write ?_
    rw [hc.next]
    dsimp only
    split_ifs
    · exact hc
    · exact hopened c
  | some p =>
    refine .write ?_
    rw [hc.next]
    dsimp only
    split_ifs
    · exact ⟨rfl, by simp⟩
    · exact hopened { c with root := c.root ++ [p], sect := none }

theorem stable_name (name : Str) : Stable (NameInv name) where
  outer hc h := by
    obtain ⟨-, -, e3, e4, -, -⟩ := outer_eq h
    exact ⟨e3.trans hc.next, fun p hp => hc.package p (e4.symm.trans hp)⟩
  package := by
    rintro c p p' hc hp hname
    refine ⟨hc.next, ?_⟩
    rintro p'' ⟨⟩
    exact hname.trans (hc.package p hp)
  sect _ hc := ⟨hc.next, hc.package⟩
  switch hc _ := hc.uciSwitchConfig

/-- **A file of a single package** is read into a package with this name. -/
theorem uciImport_name {stream : Str} {c' : Ctx} {p : Package}
    (h : Runs (uciImport stream (some name) none true) c (some p) c') : p.name = name := by
  unfold uciImport at h
  obtain ⟨_, c₁, hstart, h⟩ := h.split
  cases hstart
  dsimp only at h
  by_cases hvalid : uciValidatePackage name = false
  · rw [if_pos hvalid] at h
    obtain ⟨_, _, hthrow, -⟩ := h.split
    cases hthrow
  rw [if_neg hvalid] at h
  obtain ⟨_, c₂, hset, h⟩ := h.split
  obtain ⟨_, c₃, hloop, h⟩ := h.split
  have hc₂ : NameInv name c₂ := by
    cases hset
    exact ⟨rfl, by simp⟩
  have hc₃ : NameInv name c₃ := ((stable_name name).invariant.importLoop _ hc₂).runs hloop
  -- the package, once it has been opened
  have hlast : ∀ {c₄ : Ctx}, NameInv name c₄ → Runs (do
      let c ← get
      let result := c.package
      set { c with name := none }
      uciSwitchConfig
      return result : M (Option Package)) c₄ (some p) c' → p.name = name := by
    intro c₄ hc₄ hrun
    obtain ⟨c₅, _, hget, hrun⟩ := hrun.split
    cases hget
    obtain ⟨_, _, -, hrun⟩ := hrun.split
    obtain ⟨_, _, -, hrun⟩ := hrun.split
    injection hrun with hp
    exact hc₄.package p hp
  obtain ⟨c₄, _, hget, h⟩ := h.split
  cases hget
  by_cases hopen : c₃.package = none ∧ some name ≠ none
  · rw [if_pos hopen] at h
    obtain ⟨_, c₅, hswitch, h⟩ := h.split
    exact hlast (hc₃.uciSwitchConfig.runs hswitch) h
  · rw [if_neg hopen] at h
    exact hlast hc₃ h

end

/-! ## Reading changes -/

/-- There is a package, with the given name. -/
def Named (name : Str) (c : Ctx) : Prop := ∃ p, c.package = some p ∧ p.name = name

section
variable {name : Str} {c : Ctx}

theorem Named.same {c' : Ctx} (hc : Named name c) (h : SameOuter c.outer c') : Named name c' := by
  obtain ⟨p, hp, hn⟩ := hc
  obtain ⟨-, -, -, e4, -, -⟩ := outer_eq h
  exact ⟨p, e4.trans hp, hn⟩

theorem uciParseDeltaTuple_keeps {o : Outer} (h : SameOuter o c) :
    Keeps (SameOuter o) uciParseDeltaTuple c := by
  unfold uciParseDeltaTuple
  refine .seq (nextArg_keeps _ _ _ h) fun _ _ h => .read ?_
  refine .guarded h (fun _ => h) fun c h => ?_
  dsimp only
  split
  · exact h
  · refine .guarded h (fun _ => h) fun c h => ?_
    split
    · exact .guarded h (fun _ => h) fun _ h => h
    · exact .guarded h (fun _ => h) fun _ h => h
    · exact .guarded h (fun _ => h) fun _ h => h
    · exact .guarded h (fun _ => h) fun _ h => h
    · exact h

theorem uciParseDeltaLine_keeps (hc : Named name c) : Keeps (Named name) uciParseDeltaLine c := by
  unfold uciParseDeltaLine
  refine .seq ((uciParseDeltaTuple_keeps rfl).mono fun _ h => hc.same h) fun r c hc => .read ?_
  obtain ⟨cmd, package, ptr⟩ := r
  dsimp only
  refine .guarded hc (fun _ => hc) fun c hc => ?_
  obtain ⟨p, hp, hn⟩ := hc
  unfold liftPackage
  refine .read ?_
  rw [hp]
  dsimp only
  cases hrun : runDelta cmd ptr p with
  | error e => exact ⟨p, hp, hn⟩
  | ok p' => exact .write ⟨p', rfl, (runDelta_name hrun).trans hn⟩

/-- Reading changes does not fail. -/
theorem deltaLoop_total : ∀ (fuel m : Nat) {c : Ctx}, Named name c →
    ∃ n c', Runs (deltaLoop fuel m) c n c' ∧ Named name c'
  | 0, m, c, hc => ⟨m, c, .ret _ _, hc⟩
  | fuel + 1, m, c, hc => by
    by_cases heof : c.eof = true
    · refine ⟨m, c, ?_, hc⟩
      unfold deltaLoop
      refine .read ?_
      rw [if_pos heof]
      exact .ret _ _
    rw [Bool.not_eq_true] at heof
    have hline : Named name c.nextLine := hc.same (uciGetln_outer _ _)
    by_cases hchar : c.nextLine.char 0 = 0
    · obtain ⟨n, c', hrun, hc'⟩ := deltaLoop_total fuel m hline
      exact ⟨n, c', deltaLoop_skip heof hchar hrun, hc'⟩
    have hkeeps := uciParseDeltaLine_keeps hline
    cases hparse : uciParseDeltaLine c.nextLine with
    | ok u c₁ =>
      obtain ⟨n, c', hrun, hc'⟩ := deltaLoop_total fuel (m + 1) (hkeeps.runs hparse)
      exact ⟨n, c', deltaLoop_line heof hchar hparse hrun, hc'⟩
    | error e c₁ =>
      obtain ⟨n, c', hrun, hc'⟩ := deltaLoop_total fuel m (hkeeps.throws hparse)
      exact ⟨n, c', deltaLoop_error heof hchar hparse hrun, hc'⟩

theorem uciLoadDeltaFile_total (file : Option Str) (hc : Named name c) :
    ∃ n c', Runs (uciLoadDeltaFile file) c n c' ∧ Named name c' := by
  cases file with
  | none => exact ⟨0, c, .ret _ _, hc⟩
  | some stream =>
    let c₀ : Ctx := { strict := c.strict, root := c.root, file := stream, package := c.package }
    obtain ⟨n, c', hrun, hc'⟩ := deltaLoop_total (stream.length + 2) 0 (c := c₀) hc
    exact ⟨n, c', .update hrun, hc'⟩

end

end Uci
