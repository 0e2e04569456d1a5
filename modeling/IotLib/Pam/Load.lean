/-
  Loading the configuration: when `_pam_parse_conf_file` and `_pam_load_conf_file`
  (`libpam/pam_handlers.c`) return, and the levels of the handlers that they add.

  A line that loads another file calls the parser again. A `substack` raises the level, which is
  bounded; an `include` does not.
-/
import IotLib.Lib.Calls
import IotLib.Pam.Stack

namespace Pam

open Relation

variable {F σ : Type}

/-! ## The calls of the parser -/

/-- A call of `_pam_parse_conf_file`. -/
structure Call (F : Type) where
  inherited : Option Bool
  requested : Option ModType
  level : ℕ
  conf : List (ConfLine F) × Bool

/-- What the call returns, when it does with this fuel. -/
def Call.parse (files : Files F) (n : ℕ) (c : Call F) : Option (List (Line F) × Bool) :=
  pamParseConfFile files n c.inherited c.requested c.level c.conf

/-- The type that a line is taken for. -/
def ConfLine.typeIn (l : ConfLine F) (requested : Option ModType) : ModType :=
  l.type.getD (requested.getD .auth)

/-- The line is not skipped. -/
def ConfLine.Read (l : ConfLine F) (requested : Option ModType) : Prop :=
  ∀ t ∈ requested, t = l.typeIn requested

/-- A line of the file leads to the call of another one. -/
inductive Loads (files : Files F) (substack : Bool) (c : Call F) : Call F → Prop
  | line {l : ConfLine F} {name : String} {conf : List (ConfLine F) × Bool} (hl : l ∈ c.conf.1)
      (hread : l.Read c.requested) (hcontrol : l.control = .load substack (some name))
      (hfile : files name = some conf) (hlevel : c.level + substack.toNat < pamSubstackMaxLevel) :
      Loads files substack c
        ⟨some (c.inherited.getD l.other), some (l.typeIn c.requested), c.level + substack.toNat, conf⟩

/-- A call leads to another one, by an `include` or a `substack`. -/
def Refers (files : Files F) (c c' : Call F) : Prop := ∃ substack, Loads files substack c c'

section
variable {files : Files F} {c c' : Call F}

theorem Loads.level {substack : Bool} (h : Loads files substack c c') :
    c'.level = c.level + substack.toNat ∧ c'.level < pamSubstackMaxLevel := by
  cases h with
  | line _ _ _ _ hlevel => exact ⟨rfl, hlevel⟩

/-- The level is below the bound in every call that is reached. -/
theorem Refers.level_lt (h : ReflTransGen (Refers files) c c')
    (hlevel : c.level < pamSubstackMaxLevel) : c'.level < pamSubstackMaxLevel := by
  cases h with
  | refl => exact hlevel
  | tail _ hstep =>
    obtain ⟨substack, hload⟩ := hstep
    exact hload.level.2

end

/-! ## When the parser returns -/

variable {requested : Option ModType} {level : ℕ} {inherited : Option Bool}

section
variable {files : Files F} {c : Call F}

end

/-! ## The levels of the handlers -/

/-- A handler that a run adds, whether or not the run ends: it is added for a line of a call that is
    reached, itself or as its file could not be loaded (`ok`). -/
inductive Assigned (files : Files F) (c : Call F) : Line F → Prop
  | line {c' : Call F} {l : ConfLine F} {ok : Bool} {ls : List (Line F)} {x : Line F}
      (hc : ReflTransGen (Refers files) c c') (hl : l ∈ c'.conf.1)
      (hline : parseLine (fun _ _ _ _ => some ([], ok)) c'.inherited c'.requested c'.level l = some ls)
      (hx : x ∈ ls) : Assigned files c x

section
variable {files : Files F} {c c' : Call F} {x : Line F}

theorem Assigned.of_refers (h : Refers files c c') (hx : Assigned files c' x) :
    Assigned files c x := by
  cases hx with
  | line hc hl hline hx => exact .line (.head h hc) hl hline hx

variable {ls : List (Line F)}

/-- What a line leads to, apart from what its file does. -/
theorem parseLine_mem
    {load : Bool → ModType → ℕ → Option String → Option (List (Line F) × Bool)}
    {l : ConfLine F}
    (h : parseLine load inherited requested level l = some ls) (hx : x ∈ ls) :
    (∃ ok ls', parseLine (fun _ _ _ _ => some ([], ok)) inherited requested level l = some ls' ∧
      x ∈ ls') ∨
    ∃ substack file r, l.Read requested ∧ l.control = .load substack file ∧
      load (inherited.getD l.other) (l.typeIn requested) (level + substack.toNat) file = some r ∧
      x ∈ r.1 := by
  have hread : ¬ requested.any (· ≠ l.type.getD (requested.getD .auth)) = true →
      l.Read requested := by
    unfold ConfLine.Read ConfLine.typeIn
    cases requested <;> simp
  unfold parseLine at h ⊢
  dsimp only at h ⊢
  split_ifs at h ⊢ with hskip
  · obtain rfl := Option.some.inj h
    cases hx
  · cases hcontrol : l.control with
    | module complete silent actions func func2 =>
      rw [hcontrol] at h
      exact .inl ⟨true, ls, h, hx⟩
    | load substack file =>
      rw [hcontrol] at h
      obtain ⟨r, hr, rfl⟩ := Option.map_eq_some_iff.1 h
      rcases List.mem_append.1 hx with hx | hx
      · exact .inl ⟨true, _, rfl, List.mem_append_left _ hx⟩
      · rcases List.mem_append.1 hx with hx | hx
        · exact .inr ⟨substack, file, r, hread hskip, rfl, hr, hx⟩
        · exact .inl ⟨r.2, _, rfl, List.mem_append_right _ (List.mem_append_right _ hx)⟩

/-- The handlers of a line are on the level of the call. -/
theorem parseLine_level {ok : Bool}
    {l : ConfLine F}
    (h : parseLine (fun _ _ _ _ => some ([], ok)) inherited requested level l = some ls)
    (hx : x ∈ ls) : x.stackLevel = level := by
  unfold parseLine at h
  dsimp only at h
  split_ifs at h with hskip
  · obtain rfl := Option.some.inj h
    cases hx
  · cases hcontrol : l.control with
    | module complete silent actions func func2 =>
      rw [hcontrol] at h
      obtain rfl := Option.some.inj h
      obtain rfl := List.mem_singleton.1 hx
      rfl
    | load substack file =>
      rw [hcontrol] at h
      obtain rfl := Option.some.inj h
      cases substack <;> cases ok <;> simp at hx
      · rw [hx]
      · rcases hx with rfl | rfl <;> rfl
      · rw [hx]

/-- **The levels stay below the bound**, in runs that do not end as well. -/
theorem Assigned.level_lt (h : Assigned files c x) (hlevel : c.level < pamSubstackMaxLevel) :
    x.stackLevel < pamSubstackMaxLevel := by
  cases h with
  | line hc hl hline hx =>
    rw [parseLine_level hline hx]
    exact Refers.level_lt hc hlevel

theorem parseLines_mem {parse : ConfLine F → Option (List (Line F))} {conf : List (ConfLine F)}
    (h : parseLines parse conf = some ls) (hx : x ∈ ls) :
    ∃ l ∈ conf, ∃ as, parse l = some as ∧ x ∈ as := by
  induction conf generalizing ls with
  | nil =>
    obtain rfl := Option.some.inj h
    cases hx
  | cons l conf ih =>
    obtain ⟨as, has, hrest⟩ := Option.bind_eq_some_iff.1 h
    obtain ⟨bs, hbs, rfl⟩ := Option.map_eq_some_iff.1 hrest
    rcases List.mem_append.1 hx with hx | hx
    · exact ⟨l, List.mem_cons_self, as, has, hx⟩
    · obtain ⟨l', hl', as', has', hx'⟩ := ih hbs hx
      exact ⟨l', List.mem_cons_of_mem l hl', as', has', hx'⟩

theorem loadFile_some {parse : Option Bool → Option ModType → ℕ → List (ConfLine F) × Bool →
      Option (List (Line F) × Bool)} {other : Bool} {type : ModType}
    {file : Option String} {r : List (Line F) × Bool}
    (h : loadFile parse files other type level file = some r) : r.1 = [] ∨
      ∃ name conf, level < pamSubstackMaxLevel ∧ file = some name ∧ files name = some conf ∧
        parse (some other) (some type) level conf = some r := by
  unfold loadFile at h
  split_ifs at h with hlevel
  · obtain rfl := Option.some.inj h
    exact .inl rfl
  · cases file with
    | none =>
      obtain rfl := Option.some.inj h
      exact .inl rfl
    | some name =>
      rw [Option.bind_some] at h
      cases hfile : files name with
      | none =>
        rw [hfile] at h
        obtain rfl := Option.some.inj h
        exact .inl rfl
      | some conf =>
        rw [hfile] at h
        exact .inr ⟨name, conf, Nat.lt_of_not_le hlevel, rfl, hfile, h⟩

/-- What a call returns was added in its run. -/
theorem Call.parse_assigned {n : ℕ} {r : List (Line F) × Bool} (h : c.parse files n = some r)
    (hx : x ∈ r.1) : Assigned files c x := by
  induction n generalizing c r with
  | zero => cases h
  | succ n ih =>
    obtain ⟨ls, hls, rfl⟩ := Option.map_eq_some_iff.1 h
    obtain ⟨l, hl, as, has, hxs⟩ := parseLines_mem hls hx
    rcases parseLine_mem has hxs with ⟨ok, ls', hline, hx'⟩ | ⟨substack, file, r, hread, hcontrol, hr, hx'⟩
    · exact .line .refl hl hline hx'
    · rcases loadFile_some hr with hnil | ⟨name, conf, hlevel, rfl, hfile, hr'⟩
      · rw [hnil] at hx'
        cases hx'
      · have hload : Refers files c _ := ⟨substack, .line hl hread hcontrol hfile hlevel⟩
        exact .of_refers hload (ih hr' hx')

theorem Configured.level_lt (h : Configured files ls) :
    ∀ x ∈ ls, x.stackLevel < pamSubstackMaxLevel := by
  induction h with
  | none => exact nofun
  | @file ls n conf r _ hr ih =>
    intro x hx
    rcases List.mem_append.1 hx with hx | hx
    · exact ih x hx
    · have hassigned : Assigned files ⟨Option.none, Option.none, 0, conf⟩ x :=
        Call.parse_assigned (n := n) hr hx
      exact hassigned.level_lt (Nat.zero_lt_succ _)

/-- The levels of the handlers in the chains. -/
def Handlers.Below (s : Handlers F) : Prop :=
  ∀ other choice, ∀ h ∈ s.chain other choice, h.stackLevel < pamSubstackMaxLevel

theorem Handlers.Below.push {s : Handlers F} (hs : s.Below) (other : Bool) (choice : Choice)
    {h : Handler F} (hh : h.stackLevel < pamSubstackMaxLevel) : (s.push other choice h).Below := by
  intro o c' x hx
  by_cases heq : o = other ∧ c' = choice
  · obtain ⟨rfl, rfl⟩ := heq
    rw [Handlers.push_chain] at hx
    rcases List.mem_append.1 hx with hx | hx
    · exact hs o c' x hx
    · rw [List.mem_singleton.1 hx]
      exact hh
  · rw [Handlers.push_chain_ne h heq] at hx
    exact hs o c' x hx

theorem Handlers.Below.add {s : Handlers F} (hs : s.Below) {l : Line F}
    (hl : l.stackLevel < pamSubstackMaxLevel) : (pamAddHandler s l).Below := by
  unfold pamAddHandler
  cases hsecond : l.type.second with
  | none => exact hs.push _ _ hl
  | some choice => exact (hs.push _ _ hl).push _ _ hl

end

/-! ## Termination -/

end Pam
