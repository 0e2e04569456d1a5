/-
  Commands that stand on one line (`file.c`): when `c1;c2` does the same as the lines `c1` and `c2`.
-/
import IotLib.Uci.Meaning

namespace Uci

open Exec

/-! ## The text of a command -/

def Blank (b : UInt8) : Prop := isspace b = true ∧ b ≠ newline

/-- An argument that ends on its line. -/
structure Argument where
  text : Str
  value : Str
  dropped : Nat
  reads : ArgText text value dropped
  line : newline ∉ text
  nz : 0 ∉ text

inductive Keyword where
  | package
  | config
  | option
  | list
deriving DecidableEq

def Keyword.cmd : Keyword → String
  | .package => "package"
  | .config => "config"
  | .option => "option"
  | .list => "list"

/-- An argument that can be missing, and the blanks before it. -/
abbrev More := Option (Str × Argument)

namespace More

def text : More → Str
  | none => []
  | some (blanks, b) => blanks ++ b.text

def value : More → Str
  | none => []
  | some (_, b) => b.value

def Spaced (m : More) : Prop := ∀ s ∈ m, s.1 ≠ [] ∧ ∀ b ∈ s.1, Blank b

end More

/-- A command on a line of its own: the word, which may be abbreviated, one argument and for all but
    `package` perhaps another one, and white space in between. One more argument can follow, which
    is accepted when it is empty or the import is not strict. -/
structure CommandText where
  lead : Str
  keyword : Keyword
  short : Bool
  delim : UInt8
  blanks : Str
  first : Argument
  second : More
  surplus : More
  trail : Str
  leads : ∀ b ∈ lead, isDelim b = true
  delims : isDelim delim = true
  spaces : ∀ b ∈ blanks, Blank b
  seconds : second.Spaced
  surpluses : surplus.Spaced
  arity : keyword = .package → second = none
  extra : surplus ≠ none → keyword = .package ∨ second ≠ none
  trails : ∀ b ∈ trail, Blank b

namespace CommandText

variable (a : CommandText)

def word : Str := if a.short then (bytes a.keyword.cmd).take 1 else bytes a.keyword.cmd

/-- What is behind the word. -/
def args : Str :=
  a.blanks ++ (a.first.text ++ (a.second.text ++ (a.surplus.text ++ a.trail)))

def text : Str := a.lead ++ (a.word ++ a.delim :: a.args)

def meaning : Meaning :=
  match a.keyword with
  | .package => .package a.first.value
  | .config => .config a.first.value a.second.value
  | .option => .option false a.first.value a.second.value
  | .list => .option true a.first.value a.second.value

/-- The last one of the arguments that the command takes. -/
def inner : Argument :=
  match a.second with
  | none => a.first
  | some (_, b) => b

def last : Argument :=
  match a.surplus with
  | none => a.inner
  | some (_, b) => b

/-- All arguments that the command can have are there. -/
def Full : Prop := a.keyword = .package ∨ a.second ≠ none

/-- The last argument does not reach as far as what follows the command: there is
    white space, or quotes or backslashes were dropped from it. -/
def Apart : Prop := a.last.dropped ≠ 0 ∨ a.trail ≠ []

/-- An argument too many is at the end of the line. -/
def Tidy : Prop := a.surplus = none ∨ a.trail = []

instance : Decidable a.Full := inferInstanceAs (Decidable (_ ∨ _))

instance : Decidable a.Apart := inferInstanceAs (Decidable (_ ∨ _))

end CommandText

/-! ## Reading a command -/

section
variable {file cur : Str}

theorem line_append {x y : Str} (hx : newline ∉ x) (hy : Line y) : Line (x ++ y) := by
  obtain ⟨z, rfl, hz⟩ := hy
  exact ⟨x ++ z, by rw [List.append_assoc], by simp [hx, hz]⟩

theorem blanks_line {x : Str} (hx : ∀ b ∈ x, Blank b) : newline ∉ x := fun hm => (hx _ hm).2 rfl

/-- An argument before white space. -/
theorem Argument.next_space (a : Argument) (file : Str) {blanks : Str} {b : UInt8}
    (hblanks : ∀ b ∈ blanks, isspace b = true) (hb : isspace b = true) (hline : Line (b :: cur)) :
    Next ⟨some (blanks ++ (a.text ++ b :: cur)), file⟩ a.value ⟨some cur, file⟩ :=
  .arg hblanks a.reads (List.append_assoc _ _ _) (line_append a.line hline) (.space hb hline)

/-- What an argument leaves of a line when `e` follows behind it and the blanks. -/
def leftOf (dropped : Nat) (trail : Str) (e : UInt8) (r : Str) : Option Str :=
  match trail with
  | _ :: t => some (t ++ e :: r)
  | [] => if e = semicolon then if dropped = 0 then none else some (e :: r) else some r

/-- The end of a line, or a `;`. -/
def Ending (e : UInt8) (r : Str) : Prop := e = newline ∧ r = [] ∨ e = semicolon ∧ Line r

theorem Ending.line {e : UInt8} {r : Str} (h : Ending e r) : Line (e :: r) := by
  rcases h with ⟨rfl, rfl⟩ | ⟨rfl, hr⟩
  · exact ⟨[], rfl, by simp⟩
  · exact line_append (x := [semicolon]) (by decide) hr

theorem Argument.next (a : Argument) (file : Str) {blanks trail r : Str} {e : UInt8}
    (hblanks : ∀ b ∈ blanks, isspace b = true) (htrail : ∀ b ∈ trail, Blank b) (he : Ending e r) :
    Next ⟨some (blanks ++ (a.text ++ (trail ++ e :: r))), file⟩ a.value
      ⟨leftOf a.dropped trail e r, file⟩ := by
  cases trail with
  | cons b t =>
    refine a.next_space file hblanks (htrail b (by simp)).1 ?_
    exact line_append (x := b :: t) (blanks_line htrail) he.line
  | nil =>
    rcases he with ⟨rfl, rfl⟩ | ⟨rfl, hr⟩
    · exact a.next_space file hblanks rfl ⟨[], rfl, by simp⟩
    · have hline : Line (semicolon :: r) := line_append (x := [semicolon]) (by decide) hr
      have hbehind : Behind a.dropped semicolon (r ++ file) ⟨leftOf a.dropped [] semicolon r, file⟩ := by
        by_cases hd : a.dropped = 0
        · rw [leftOf, if_pos rfl, if_pos hd]
          exact .cut hd hline
        · rw [leftOf, if_pos rfl, if_neg hd]
          exact .kept hd hline
      exact .arg hblanks a.reads (List.append_assoc _ _ _) (line_append a.line hline) hbehind

/-- Behind the last argument the line is at its end. -/
theorem leftOf_newline (file : Str) (dropped : Nat) {trail : Str} (htrail : ∀ b ∈ trail, Blank b) :
    Next ⟨leftOf dropped trail newline [], file⟩ [] ⟨some [], file⟩ := by
  cases trail with
  | nil => exact .none (by simp)
  | cons b t =>
    show Next ⟨some (t ++ [newline]), file⟩ [] ⟨some [], file⟩
    refine .none fun x hx => ?_
    rcases List.mem_append.1 hx with hx | hx
    · exact (htrail x (by simp [hx])).1
    · rw [List.mem_singleton.1 hx]
      rfl

/-- The `;` is found, and skipped. -/
theorem leftOf_apart {dropped : Nat} {trail r : Str} (htrail : ∀ b ∈ trail, Blank b)
    (h : dropped ≠ 0 ∨ trail ≠ []) :
    Next ⟨leftOf dropped trail semicolon r, file⟩ [] ⟨some r, file⟩ := by
  cases trail with
  | nil =>
    have hd : dropped ≠ 0 := h.resolve_right (by simp)
    rw [leftOf, if_pos rfl, if_neg hd]
    exact .separator (List.forall_mem_nil _)
  | cons b t => exact .separator fun x hx => (htrail x (by simp [hx])).1

/-- The `;` was overwritten. -/
theorem leftOf_cut {dropped : Nat} {trail r : Str} (h : ¬ (dropped ≠ 0 ∨ trail ≠ [])) :
    leftOf dropped trail semicolon r = none := by
  simp only [ne_eq, not_or, not_not] at h
  rw [h.1, h.2]
  rfl

end

namespace CommandText

variable (a : CommandText) {file r s : Str} {e : UInt8} {l l₁ l₂ l₃ : Left}

theorem isCommand_word : isCommand a.word a.keyword.cmd = true := by
  unfold isCommand word
  cases a.short <;> simp

theorem says_two (hk : a.keyword ≠ .package) (h₁ : Next l a.first.value l₁)
    (h₂ : Next l₁ a.second.value l₂) (h₃ : Next l₂ s l₃) : Says a.word l a.meaning s l₃ := by
  have hcmd := a.isCommand_word
  unfold meaning
  cases h : a.keyword with
  | package => exact absurd h hk
  | config =>
    rw [h] at hcmd
    exact .config hcmd h₁ h₂ h₃
  | option =>
    rw [h] at hcmd
    exact .option hcmd h₁ h₂ h₃
  | list =>
    rw [h] at hcmd
    exact .option hcmd h₁ h₂ h₃

/-- The arguments that a command takes are read, and `l₀` is left behind the last one.
    Then nothing may follow, or there is one more argument to read if it can have one. -/
theorem reads_inner {x : Str} {l₀ : Left} (hline : Line x)
    (hinner : ∀ blanks, (∀ b ∈ blanks, isspace b = true) →
      Next ⟨some (blanks ++ (a.inner.text ++ x)), file⟩ a.inner.value l₀)
    (hrest : if a.Full then Next l₀ s l₂ else ∃ l₁, Next l₀ [] l₁ ∧ Next l₁ s l₂) :
    Says a.word ⟨some (a.blanks ++ (a.first.text ++ (a.second.text ++ x))), file⟩ a.meaning s l₂ := by
  have hspaces : ∀ b ∈ a.blanks, isspace b = true := fun b hb => (a.spaces b hb).1
  cases hsecond : a.second with
  | none =>
    have hvalue : a.second.value = [] := by rw [hsecond]; rfl
    have hfirst := hinner a.blanks hspaces
    rw [show a.inner = a.first by rw [inner, hsecond]] at hfirst
    by_cases hk : a.keyword = .package
    · rw [if_pos (show a.Full from Or.inl hk)] at hrest
      have hcmd := a.isCommand_word
      rw [hk] at hcmd
      rw [meaning, hk]
      exact .package hcmd hfirst hrest
    · rw [if_neg (show ¬ a.Full by simp [Full, hk, hsecond])] at hrest
      obtain ⟨l₁, h₁, h₂⟩ := hrest
      exact a.says_two hk hfirst (hvalue ▸ h₁) h₂
  | some p =>
    obtain ⟨blanks, b⟩ := p
    obtain ⟨hne, hblanks⟩ := a.seconds _ hsecond
    have hvalue : a.second.value = b.value := by rw [hsecond]; rfl
    rw [show a.inner = b by rw [inner, hsecond]] at hinner
    rw [if_pos (show a.Full from Or.inr (by simp [hsecond]))] at hrest
    obtain ⟨d, blanks, rfl⟩ := List.exists_cons_of_ne_nil hne
    have hk : a.keyword ≠ .package := by
      intro hk
      rw [a.arity hk] at hsecond
      cases hsecond
    have hline' : Line (d :: blanks ++ (b.text ++ x)) :=
      line_append (blanks_line hblanks) (line_append b.line hline)
    have hfirst := a.first.next_space file hspaces (hblanks d (by simp)).1 hline'
    have hnext := hinner blanks fun y hy => (hblanks y (List.mem_cons_of_mem d hy)).1
    have hmeans := a.says_two hk hfirst (hvalue ▸ hnext) hrest
    rw [More.text, List.append_assoc]
    exact hmeans

/-- **A command is read** as what it means. `l₀` is left behind the last argument, and if there
    could be one more, `s` is found where there should be nothing. -/
theorem reads {l₀ : Left} (hnone : a.surplus = none) (he : Ending e r)
    (hl : l₀ = ⟨leftOf a.last.dropped a.trail e r, file⟩)
    (hrest : if a.Full then Next l₀ s l₂ else ∃ l₁, Next l₀ [] l₁ ∧ Next l₁ s l₂) :
    Says a.word ⟨some (a.args ++ e :: r), file⟩ a.meaning s l₂ := by
  subst hl
  rw [last, hnone] at hrest
  have hmeans := a.reads_inner (line_append (blanks_line a.trails) he.line)
    (fun blanks hb => a.inner.next file hb a.trails he) hrest
  rw [args, hnone]
  simpa [More.text] using hmeans

/-- An argument too many is read. -/
theorem reads_surplus (file : Str) (hsome : a.surplus ≠ none) (he : Ending e r) :
    Says a.word ⟨some (a.args ++ e :: r), file⟩ a.meaning a.surplus.value
      ⟨leftOf a.last.dropped a.trail e r, file⟩ := by
  obtain ⟨⟨blanks, b⟩, hsurplus⟩ := Option.ne_none_iff_exists'.1 hsome
  obtain ⟨hne, hblanks⟩ := a.surpluses _ hsurplus
  obtain ⟨d, blanks, rfl⟩ := List.exists_cons_of_ne_nil hne
  have hvalue : a.surplus.value = b.value := by rw [hsurplus]; rfl
  have hlast : a.last = b := by rw [last, hsurplus]
  have hline : Line (d :: blanks ++ (b.text ++ (a.trail ++ e :: r))) :=
    line_append (blanks_line hblanks) (line_append b.line (line_append (blanks_line a.trails) he.line))
  have hnext := b.next file
    (fun y hy => (hblanks y (List.mem_cons_of_mem d hy)).1) a.trails he
  have hmeans := a.reads_inner hline
    (fun blanks hb => a.inner.next_space file hb (hblanks d (by simp)).1 hline)
    (by rw [if_pos (show a.Full from a.extra hsome)]; exact hnext)
  rw [hvalue, hlast, args, hsurplus]
  simpa [More.text] using hmeans

end CommandText

/-! ## Parsing lines -/

/-- The next line is read and parsed, as in the loop of `uci_import`. -/
def parseNextLine (single : Bool) : M Unit := do
  let c ← get
  set c.nextLine
  if c.nextLine.char 0 ≠ 0 then uciParseLine single

theorem isspace_of_isDelim {b : UInt8} (h : isDelim b = true) : isspace b = true := by
  have hb : b = space ∨ b = tab := by simpa [isDelim] using h
  rcases hb with rfl | rfl <;> rfl

section
variable (single : Bool) {c : Ctx} {a a₁ a₂ : CommandText} {file r s : Str} {e : UInt8}
  {l : Left} {g : Unit → Effect} {Q : Ctx → Prop}

/-- A command at the position does what it means. -/
theorem CommandText.acts {fuel : Nat} {x : Str} (a : CommandText) (lead : Str)
    (hat : At c x ⟨some (lead ++ (a.word ++ a.delim :: (a.args ++ e :: r))), file⟩)
    (hlead : ∀ b ∈ lead, isDelim b = true)
    (hmeans : Says a.word ⟨some (a.args ++ e :: r), file⟩ a.meaning s l)
    (hrest : ∀ c' y, At c' y l → Acts (parseLineLoop single fuel) c' (g ()) Q) :
    Acts (parseLineLoop single (fuel + 1)) c (a.meaning.effect single s >>= g) Q :=
  parseLineLoop_acts single hat hlead a.delims hmeans hrest

/-- A line is read, and the white space at its start skipped. -/
theorem parseNextLine_start {lead : Str} {b : UInt8} {e : Effect} (cur file : Str)
    (hlead : ∀ b ∈ lead, isDelim b = true) (hb : isspace b = false)
    (hfile : c.file = lead ++ b :: cur ++ newline :: file) (hnl : newline ∉ lead ++ b :: cur)
    (heof : c.eof = false) (htext : Text c.file)
    (h : ∀ c' fuel, At c' [] ⟨some (b :: cur ++ [newline]), file⟩ →
      Acts (parseLineLoop single (fuel + 2)) c' e Q) :
    Acts (parseNextLine single) c e Q := by
  obtain ⟨hz, hout⟩ := Zip.start hfile heof hnl htext
  have hchar : c.nextLine.char 0 ≠ 0 := by
    have hpos : c.nextLine.pos = 0 := hz.pos
    have hcur := hz.cur_pos (by simp)
    rwa [Ctx.cur, hpos] at hcur
  rw [List.append_assoc] at hz
  have hz' := hz.skip_eq (fun x hx => isspace_of_isDelim (hlead x hx))
    (show isspace ((b :: cur ++ [newline]).headD 0) = false from hb)
  have hat : At (Uci.skipWhitespace c.nextLine) [] ⟨some (b :: cur ++ [newline]), file⟩ :=
    ⟨[], [] ++ lead, Or.inl List.prefix_rfl, hz'⟩
  have hacts := h _ ((Uci.skipWhitespace c.nextLine).bufFilled +
    2 * (Uci.skipWhitespace c.nextLine).file.length) hat
  refine hacts.of_leads ?_ ((skipWhitespace_outer _).trans hout)
  unfold parseNextLine
  refine .read (.write ?_)
  rw [if_pos hchar]
  exact .update (.read (.refl _ _))

/-- White space is left before what is no command, and taken for a part of it. -/
theorem blank_rejects {fuel : Nat} {x t : Str} (lead : Str) (hlead : ∀ b ∈ lead, isDelim b = true)
    (ht : ∀ b ∈ t, Blank b) (he : isDelim e = false) (hcmd : e ∉ bytes "pcol#")
    (hat : At c x ⟨some (lead ++ (t ++ e :: r)), file⟩) :
    Rejects (parseLineLoop single (fuel + 1)) c := by
  induction t generalizing lead with
  | nil => exact parseLineLoop_invalid single fuel hat hlead he hcmd
  | cons b t ih =>
    by_cases hb : isDelim b = true
    · refine ih (lead ++ [b]) (fun y hy => ?_) (fun y hy => ht y (List.mem_cons_of_mem b hy))
        (by simpa using hat)
      rcases List.mem_append.1 hy with hy | hy
      · exact hlead y hy
      · rwa [List.mem_singleton.1 hy]
    · have hspace : ∀ y ∈ bytes "pcol#", isspace y = false := by decide
      refine parseLineLoop_invalid single fuel hat hlead (eq_false_of_ne_true hb) fun hm => ?_
      have hb : isspace b = true := (ht b (by simp)).1
      rw [hspace b hm] at hb
      cases hb

namespace CommandText

variable (a)

theorem line : newline ∉ a.lead ++ (a.word ++ a.delim :: a.args) := by
  have hlead : newline ∉ a.lead := fun hm => absurd (a.leads _ hm) (by decide)
  have hword : newline ∉ a.word := by
    unfold word
    cases a.keyword <;> cases a.short <;> decide
  have hdelim : newline ≠ a.delim := by
    intro h
    exact absurd (h ▸ a.delims) (by decide)
  have hmore : ∀ {m : More}, m.Spaced → newline ∉ m.text := by
    rintro (- | ⟨blanks, b⟩) hm
    · simp [More.text]
    · rw [More.text, List.mem_append, not_or]
      exact ⟨blanks_line (hm _ rfl).2, b.line⟩
  simp only [args, List.mem_append, List.mem_cons, not_or]
  exact ⟨hlead, hword, hdelim, blanks_line a.spaces, a.first.line, hmore a.seconds,
    hmore a.surpluses, blanks_line a.trails⟩

theorem word_cons : ∃ b w, a.word = b :: w ∧ isspace b = false := by
  unfold word
  cases a.keyword <;> cases a.short <;> exact ⟨_, _, rfl, rfl⟩

/-- A line that starts with a command. -/
theorem parse {x : Str} {e' : Effect} (hx : newline ∉ x)
    (hfile : c.file = a.text ++ x ++ newline :: file) (heof : c.eof = false) (htext : Text c.file)
    (h : ∀ c' fuel, At c' [] ⟨some (a.word ++ a.delim :: (a.args ++ (x ++ [newline]))), file⟩ →
      Acts (parseLineLoop single (fuel + 2)) c' e' Q) :
    Acts (parseNextLine single) c e' Q := by
  obtain ⟨b, w, hword, hb⟩ := a.word_cons
  have hline := a.line
  refine parseNextLine_start single (w ++ a.delim :: (a.args ++ x)) file a.leads hb ?_ ?_ heof htext
    fun c' fuel hat => h c' fuel ?_
  · rw [hfile, text, hword]
    simp
  · rw [hword] at hline
    simp only [List.mem_append, List.mem_cons, not_or, List.cons_append] at hline ⊢
    exact ⟨hline.1, hline.2.1, hline.2.2.1, hline.2.2.2.1, hline.2.2.2.2, hx⟩
  · rw [hword]
    simpa using hat

/-- What the end of the line says about a command. -/
theorem says_alone (h : a.Tidy) :
    Says a.word ⟨some (a.args ++ newline :: []), file⟩ a.meaning a.surplus.value ⟨some [], file⟩ := by
  by_cases hnone : a.surplus = none
  · rw [show a.surplus.value = [] by rw [hnone]; rfl]
    refine a.reads hnone (Or.inl ⟨rfl, rfl⟩) rfl ?_
    have hend := leftOf_newline file a.last.dropped a.trails
    split_ifs
    · exact hend
    · exact ⟨_, hend, .none (List.forall_mem_nil _)⟩
  · have hmeans := a.reads_surplus file hnone (Or.inl ⟨rfl, rfl⟩)
    rwa [h.resolve_left hnone] at hmeans

/-- **A command on a line of its own** does what it means. -/
theorem alone (h : a.Tidy) (hfile : c.file = a.text ++ newline :: file) (heof : c.eof = false)
    (htext : Text c.file) :
    Acts (parseNextLine single) c (a.meaning.effect single a.surplus.value)
      (fun c' => Pending c' file) := by
  rw [← bind_pure (a.meaning.effect single a.surplus.value)]
  refine a.parse single (x := []) (by simp) (by simpa using hfile) heof htext fun c' fuel hat => ?_
  refine a.acts single [] hat (by simp) (a.says_alone h) fun c'' y hat' => ?_
  have hend := parseLineLoop_end single (fuel + 1) hat' (Or.inr rfl)
  obtain ⟨pre, gap, -, hz⟩ := hat'
  exact ⟨c'', hend, rfl, hz.pending⟩

/-- The white space behind an argument too many is taken for a command. -/
theorem alone_untidy (h : ¬ a.Tidy) (hfile : c.file = a.text ++ newline :: file)
    (heof : c.eof = false) (htext : Text c.file) :
    Acts (parseNextLine single) c
      (a.meaning.effect single a.surplus.value >>= fun _ => throw .inval) Q := by
  rw [Tidy, not_or] at h
  refine a.parse single (x := []) (by simp) (by simpa using hfile) heof htext fun c' fuel hat => ?_
  have hmeans := a.reads_surplus file h.1 (Or.inl ⟨rfl, rfl⟩)
  refine a.acts single [] hat (by simp) hmeans fun c'' y hat' => .fail ?_ rfl
  obtain ⟨b, t, htrail⟩ := List.exists_cons_of_ne_nil h.2
  rw [htrail] at hat'
  exact blank_rejects single [] (by simp)
    (fun x hx => a.trails x (htrail ▸ List.mem_cons_of_mem b hx)) rfl (by decide) hat'

/-- Two commands on a line. -/
theorem pair (hfile : c.file = a₁.text ++ semicolon :: a₂.text ++ newline :: file)
    (heof : c.eof = false) (htext : Text c.file)
    (hmeans : Says a₁.word ⟨some (a₁.args ++ semicolon :: (a₂.text ++ [newline])), file⟩ a₁.meaning s l)
    (hrest : ∀ c' y fuel, At c' y l → Acts (parseLineLoop single (fuel + 1)) c' (g ()) Q) :
    Acts (parseNextLine single) c (a₁.meaning.effect single s >>= g) Q := by
  have hx : newline ∉ semicolon :: a₂.text := by
    rw [List.mem_cons, not_or]
    exact ⟨by decide, a₂.line⟩
  refine a₁.parse single hx (by simpa using hfile) heof htext fun c' fuel hat => ?_
  exact a₁.acts single [] hat (by simp) hmeans fun c'' y hat' => hrest c'' y fuel hat'

theorem ending : Ending semicolon (a.text ++ [newline]) := Or.inr ⟨rfl, a.text, rfl, a.line⟩

/-- **The second command is found** behind the first one. -/
theorem pair_apart (hfull : a₁.Full) (hnone : a₁.surplus = none) (hapart : a₁.Apart)
    (htidy : a₂.Tidy) (hfile : c.file = a₁.text ++ semicolon :: a₂.text ++ newline :: file)
    (heof : c.eof = false) (htext : Text c.file) :
    Acts (parseNextLine single) c
      (a₁.meaning.effect single [] >>= fun _ => a₂.meaning.effect single a₂.surplus.value)
      (fun c' => Pending c' file) := by
  have hmeans : Says a₁.word ⟨some (a₁.args ++ semicolon :: (a₂.text ++ [newline])), file⟩ a₁.meaning []
      ⟨some (a₂.text ++ [newline]), file⟩ := by
    refine a₁.reads hnone a₂.ending rfl ?_
    rw [if_pos hfull]
    exact leftOf_apart a₁.trails hapart
  refine pair single hfile heof htext hmeans fun c' y fuel hat => ?_
  rw [← bind_pure (a₂.meaning.effect single a₂.surplus.value)]
  have hat' : At c' y ⟨some (a₂.lead ++ (a₂.word ++ a₂.delim :: (a₂.args ++ newline :: []))), file⟩ := by
    simpa [text] using hat
  refine a₂.acts single a₂.lead hat' a₂.leads (a₂.says_alone htidy) fun c'' y hat' => ?_
  have hend := parseLineLoop_end single fuel hat' (Or.inr rfl)
  obtain ⟨pre, gap, -, hz⟩ := hat'
  exact ⟨c'', hend, rfl, hz.pending⟩

/-- **The second command is lost** when its `;` was overwritten. -/
theorem pair_cut (hapart : ¬ a₁.Apart)
    (hfile : c.file = a₁.text ++ semicolon :: a₂.text ++ newline :: file) (heof : c.eof = false)
    (htext : Text c.file) :
    Acts (parseNextLine single) c (a₁.meaning.effect single a₁.surplus.value)
      (fun c' => c'.file = file) := by
  have hcut : leftOf a₁.last.dropped a₁.trail semicolon (a₂.text ++ [newline]) = none :=
    leftOf_cut hapart
  have hmeans : Says a₁.word ⟨some (a₁.args ++ semicolon :: (a₂.text ++ [newline])), file⟩ a₁.meaning
      a₁.surplus.value ⟨none, file⟩ := by
    by_cases hnone : a₁.surplus = none
    · rw [show a₁.surplus.value = [] by rw [hnone]; rfl]
      refine a₁.reads hnone a₂.ending (by rw [hcut]) ?_
      split_ifs
      · exact .cut
      · exact ⟨_, .cut, .cut⟩
    · have hmeans := a₁.reads_surplus file hnone a₂.ending
      rwa [hcut] at hmeans
  rw [← bind_pure (a₁.meaning.effect single a₁.surplus.value)]
  refine pair single hfile heof htext hmeans fun c' y fuel hat => ?_
  exact ⟨c', parseLineLoop_end single _ hat (Or.inl rfl), rfl, hat.2⟩

/-- Where the first command lacks an argument, the word of the second one is taken for
    an argument too many. -/
theorem pair_lacking {v : Str} (hfull : ¬ a₁.Full) (hapart : a₁.Apart)
    (hfile : c.file = a₁.text ++ semicolon :: a₂.text ++ newline :: file) (heof : c.eof = false)
    (htext : Text c.file) (hnext : Next ⟨some (a₂.text ++ [newline]), file⟩ v l)
    (hrest : ∀ c' y fuel, At c' y l → Acts (parseLineLoop single (fuel + 1)) c' (g ()) Q) :
    Acts (parseNextLine single) c (a₁.meaning.effect single v >>= g) Q := by
  refine pair single hfile heof htext ?_ hrest
  have hnone : a₁.surplus = none := by
    by_contra h
    exact hfull (a₁.extra h)
  refine a₁.reads hnone a₂.ending rfl ?_
  rw [if_neg hfull]
  exact ⟨_, leftOf_apart a₁.trails hapart, hnext⟩

/-- Behind an argument too many the `;` is taken for a command. -/
theorem pair_surplus (hsome : a₁.surplus ≠ none) (hapart : a₁.Apart)
    (hfile : c.file = a₁.text ++ semicolon :: a₂.text ++ newline :: file) (heof : c.eof = false)
    (htext : Text c.file) :
    Acts (parseNextLine single) c
      (a₁.meaning.effect single a₁.surplus.value >>= fun _ => throw .inval) Q := by
  have hmeans := a₁.reads_surplus file hsome a₂.ending
  refine pair single hfile heof htext hmeans fun c' y fuel hat => .fail ?_ rfl
  cases htrail : a₁.trail with
  | cons b t =>
    rw [htrail] at hat
    exact blank_rejects single [] (by simp)
      (fun x hx => a₁.trails x (htrail ▸ List.mem_cons_of_mem b hx)) rfl (by decide) hat
  | nil =>
    have hd : a₁.last.dropped ≠ 0 := hapart.resolve_right (by simp [htrail])
    rw [htrail, leftOf, if_pos rfl, if_neg hd] at hat
    exact blank_rejects single [] (t := []) (by simp) (by simp) rfl (by decide) hat

end CommandText

end

/-! ## The law of the separator -/

/-- Both succeed with the same fields of the import and the same rest of the file, or
    both fail with the same fields. -/
def SameResult (x : M Unit) (c : Ctx) (y : M Unit) (d : Ctx) : Prop :=
  (∃ c' d', Runs x c () c' ∧ Runs y d () d' ∧ c'.outer = d'.outer ∧ c'.file = d'.file) ∨
  (∃ e e' c' d', Throws x c e c' ∧ Throws y d e' d' ∧ c'.outer = d'.outer)

/-- From a state with the given fields, the command is accepted on a line of its own. -/
def Accepts (single : Bool) (o : Outer) (a : CommandText) : Prop :=
  ∃ c c', c.outer = o ∧ c.eof = false ∧ c.file = a.text ++ [newline] ∧
    Runs (parseNextLine single) c () c'

/-- From a state with the given fields, the line `a;b` does the same as the lines `a` and
    `b`, for every command `b` that is accepted on a line of its own. -/
def Separable (single : Bool) (o : Outer) (a : CommandText) : Prop :=
  ∀ b : CommandText, (∃ o', Accepts single o' b) → ∀ (c d : Ctx) (file : Str), c.outer = o →
    d.outer = o → c.eof = false → d.eof = false → Text file →
    c.file = a.text ++ semicolon :: b.text ++ newline :: file →
    d.file = a.text ++ newline :: (b.text ++ newline :: file) →
    SameResult (parseNextLine single) c (do parseNextLine single; parseNextLine single) d

section
variable {single : Bool} {o o' : Outer} {a b : CommandText} {c d : Ctx} {x y : M Unit} {e : Effect}
  {file : Str}

theorem Text.prepend {x y : Str} (h : Text y) (hx : 0 ∉ x) (hy : y ≠ []) : Text (x ++ y) := by
  refine ⟨by simp [hx, h.nz], fun _ => ?_⟩
  rw [List.getLast?_append_of_ne_nil _ hy]
  exact h.last hy

theorem Text.newline (h : Text file) : Text (newline :: file) := by
  refine ⟨?_, fun _ => ?_⟩
  · rw [List.mem_cons, not_or]
    exact ⟨by decide, h.nz⟩
  · by_cases hne : file = []
    · rw [hne]
      rfl
    · rw [List.getLast?_cons_of_ne_nil hne]
      exact h.last hne

theorem SameResult.of_acts (hx : Acts x c e (fun c' => c'.file = file))
    (hy : Acts y d e (fun d' => d'.file = file)) (hout : c.outer = d.outer) :
    SameResult x c y d := by
  cases he : e d.outer with
  | ok u o =>
    obtain ⟨c', hrun, hc, hfile⟩ := hx.runs (hout ▸ he)
    obtain ⟨d', hrun', hd, hfile'⟩ := hy.runs he
    exact Or.inl ⟨c', d', hrun, hrun', hc.trans hd.symm, hfile.trans hfile'.symm⟩
  | error err o =>
    obtain ⟨err, c', hthrow, hc⟩ := hx.throws (hout ▸ he)
    obtain ⟨err', d', hthrow', hd⟩ := hy.throws he
    exact Or.inr ⟨err, err', c', d', hthrow, hthrow', hc.trans hd.symm⟩

namespace CommandText

variable (a)

theorem nz : 0 ∉ a.text := by
  have hlead : 0 ∉ a.lead := fun hm => absurd (a.leads _ hm) (by decide)
  have hword : 0 ∉ a.word := by
    unfold word
    cases a.keyword <;> cases a.short <;> decide
  have hdelim : 0 ≠ a.delim := by
    intro h
    exact absurd (h ▸ a.delims) (by decide)
  have hblanks : ∀ {x : Str}, (∀ b ∈ x, Blank b) → 0 ∉ x :=
    fun hx hm => absurd (hx _ hm).1 (by decide)
  have hmore : ∀ {m : More}, m.Spaced → 0 ∉ m.text := by
    rintro (- | ⟨blanks, b⟩) hm
    · simp [More.text]
    · rw [More.text, List.mem_append, not_or]
      exact ⟨hblanks (hm _ rfl).2, b.nz⟩
  simp only [text, args, List.mem_append, List.mem_cons, not_or]
  exact ⟨hlead, hword, hdelim, hblanks a.spaces, a.first.nz, hmore a.seconds, hmore a.surpluses,
    hblanks a.trails⟩

theorem text_line (hfile : Text file) : Text (a.text ++ newline :: file) :=
  hfile.newline.prepend a.nz (by simp)

theorem pair_text (b : CommandText) (hfile : Text file) :
    Text (a.text ++ semicolon :: b.text ++ newline :: file) := by
  refine hfile.newline.prepend ?_ (by simp)
  simp only [List.mem_append, List.mem_cons, not_or]
  exact ⟨a.nz, by decide, b.nz⟩

/-- Two commands on two lines. -/
theorem two_lines (single : Bool) {b : CommandText} (ha : a.Tidy) (hb : b.Tidy)
    (hfile : d.file = a.text ++ newline :: (b.text ++ newline :: file)) (heof : d.eof = false)
    (htext : Text file) :
    Acts (do parseNextLine single; parseNextLine single) d
      (a.meaning.effect single a.surplus.value >>= fun _ => b.meaning.effect single b.surplus.value)
      (fun d' => d'.file = file) := by
  have htext' : Text d.file := by
    rw [hfile]
    exact a.text_line (b.text_line htext)
  refine .seq (a.alone single ha hfile heof htext') fun d' hpending => ?_
  have halone := b.alone single hb hpending.unread hpending.eof
    (by rw [hpending.unread]; exact hpending.text)
  exact halone.mono fun d'' hd => hd.unread

/-- A command that is accepted has an effect. -/
theorem effect_of_accepts (h : Accepts single o a) :
    a.Tidy ∧ ∃ o', a.meaning.effect single a.surplus.value o = .ok () o' := by
  obtain ⟨c, c', rfl, heof, hfile, hrun⟩ := h
  have htext : Text c.file := by
    rw [hfile]
    exact a.text_line .nil
  by_cases htidy : a.Tidy
  · refine ⟨htidy, ?_⟩
    cases he : a.meaning.effect single a.surplus.value c.outer with
    | ok u o' => exact ⟨o', rfl⟩
    | error err o' =>
      obtain ⟨err', c'', hthrow, -⟩ := (a.alone single htidy hfile heof htext).throws he
      exact absurd hrun hthrow.not_runs
  · obtain ⟨err', c'', hthrow⟩ :=
      (a.alone_untidy single (Q := fun _ => True) htidy hfile heof htext).throws_last
    exact absurd hrun hthrow.not_runs

end CommandText

end

/-! ## A command that is always noticed -/

theorem ArgText.of_plain {t : Str} (hne : t ≠ []) (ht : ∀ b ∈ t, Plain b) : ArgText t t 0 := by
  obtain ⟨b, t, rfl⟩ := List.exists_cons_of_ne_nil hne
  obtain ⟨-, -, -, -, hsemi, -, hspace⟩ := ht b (by simp)
  refine ⟨⟨b, t, rfl, hspace, hsemi⟩, fun d rest hd => ?_⟩
  rw [scan_plains ht]
  have hstop : Uci.scan .word (d :: rest) = .arg [] 0 (d :: rest) := by
    rcases hd with hd | rfl
    · exact scan_space hd rest
    · rfl
  rw [hstop]
  simp [Scanned.more]

/-- An argument that is written as it is. -/
def Argument.plain (t : Str) (hne : t ≠ []) (ht : ∀ b ∈ t, Plain b) : Argument where
  text := t
  value := t
  dropped := 0
  reads := .of_plain hne ht
  line hm := absurd (ht _ hm).2.2.2.2.2.2 (by decide)
  nz hm := (ht _ hm).1 rfl

/-- A command with the argument `z`. -/
def commandZ (keyword : Keyword) : CommandText where
  lead := []
  keyword := keyword
  short := false
  delim := space
  blanks := []
  first := .plain (bytes "z") (by decide) (by decide)
  second := none
  surplus := none
  trail := []
  leads := by simp
  delims := rfl
  spaces := by simp
  seconds := nofun
  surpluses := nofun
  arity _ := rfl
  extra h := absurd rfl h
  trails := by simp

theorem commandZ_tidy (keyword : Keyword) : (commandZ keyword).Tidy := Or.inl rfl

/-- `config z` adds a section whenever it is accepted. -/
def configZ : CommandText := commandZ .config

def Outer.package (o : Outer) : Option Package := o.2.2.2.1

section
variable {single : Bool} {o o' : Outer} {a b : CommandText} {e : Effect}

theorem meaning_configZ : configZ.meaning = .config (bytes "z") [] := rfl

theorem configZ_effect (single : Bool) {o : Outer} {p : Package} (hp : o.package = some p) :
    ∃ o', configZ.meaning.effect single [] o = .ok () o' := by
  obtain ⟨strict, root, name, package, sect, merge⟩ := o
  obtain rfl : package = some p := hp
  cases strict <;> exact ⟨_, rfl⟩

/-- The section that is added is noticed. -/
theorem configZ_noticed (h : configZ.meaning.effect single [] o = .ok () o') : o' ≠ o := by
  rintro rfl
  obtain ⟨strict, root, name, package, sect, merge⟩ := o'
  cases package with
  | some p =>
    have hrun : configZ.meaning.effect single [] (strict, root, name, some p, sect, merge) =
        .ok () (strict, root, name, some (uciAddSection (!merge) p (bytes "z")),
          some p.sections.length, merge) := by
      cases strict <;> rfl
    rw [hrun] at h
    simp only [EStateM.Result.ok.injEq, Prod.mk.injEq, Option.some.injEq, true_and] at h
    have hlen := congrArg (fun q : Package => q.sections.length) h.1
    simp only [uciAddSection, Package.record] at hlen
    split_ifs at hlen <;> simp at hlen
  | none =>
    cases name with
    | none => cases h
    | some n =>
      by_cases hdup : ∃ p ∈ root, p.name = n
      · have hopen : openEffect (strict, root, some n, none, sect, merge) =
            .error .duplicate (strict, root, some n, none, sect, merge) := by
          simp only [openEffect, switchEffect, Option.toList_none, List.append_nil, if_true]
          rw [if_pos hdup]
        simp only [Meaning.effect, meaning_configZ, bind, EStateM.bind, hopen] at h
        cases h
      · have hopen : openEffect (strict, root, some n, none, sect, merge) =
            .ok () (strict, root, some n, some { name := n }, sect, merge) := by
          simp only [openEffect, switchEffect, Option.toList_none, List.append_nil, if_true]
          rw [if_neg hdup]
        have hrun : configEffect (bytes "z") [] [] (strict, root, some n, some { name := n }, sect,
            merge) = .ok () (strict, root, some n,
              some (uciAddSection (!merge) { name := n } (bytes "z")), some 0, merge) := by
          cases strict <;> rfl
        simp only [Meaning.effect, meaning_configZ, bind, EStateM.bind, hopen, hrun] at h
        simp at h

/-- An import of the given file, with the given fields. -/
def Outer.reading (o : Outer) (file : Str) : Ctx :=
  { strict := o.1, root := o.2.1, name := o.2.2.1, package := o.2.2.2.1, sect := o.2.2.2.2.1,
    merge := o.2.2.2.2.2, file := file }

theorem accepts_of_effect (ha : a.Tidy)
    (he : a.meaning.effect single a.surplus.value o = .ok () o') : Accepts single o a := by
  have hacts := a.alone single ha (show (o.reading (a.text ++ [newline])).file = _ from rfl) rfl
    (a.text_line .nil)
  obtain ⟨c', hrun, -⟩ := hacts.runs he
  exact ⟨_, c', rfl, rfl, rfl, hrun⟩

theorem configZ_accepted : ∃ o', Accepts single o' configZ := by
  obtain ⟨o', he⟩ := configZ_effect single
    (show Outer.package (true, [], none, some { name := bytes "p" }, none, false) = _ from rfl)
  exact ⟨_, accepts_of_effect (commandZ_tidy .config) he⟩

theorem sectionEffect_open {type name : Str}
    (h : sectionEffect type name o = .ok () o') : ∃ p, o'.package = some p := by
  obtain ⟨strict, root, nm, package, sect, merge⟩ := o
  unfold sectionEffect at h
  cases package with
  | none => cases h
  | some p =>
    simp only at h
    split_ifs at h
    · cases h
      exact ⟨_, rfl⟩
    · split at h
      · cases h
      · cases h
        exact ⟨_, rfl⟩

theorem putEffect_open {list : Bool} {name value : Str}
    (h : putEffect list name value o = .ok () o') : ∃ p, o'.package = some p := by
  obtain ⟨strict, root, nm, package, sect, merge⟩ := o
  unfold putEffect at h
  cases package with
  | none => cases h
  | some p =>
    simp only at h
    split at h
    · cases h
    · cases h
      exact ⟨_, rfl⟩

/-- An import of `a;b`. -/
def joined (o : Outer) (a b : CommandText) : Ctx :=
  o.reading (a.text ++ semicolon :: b.text ++ [newline])

/-- An import of the lines `a` and `b`. -/
def separate (o : Outer) (a b : CommandText) : Ctx :=
  o.reading (a.text ++ newline :: (b.text ++ [newline]))

theorem joined_file : (joined o a b).file = a.text ++ semicolon :: b.text ++ newline :: [] := rfl

theorem separate_file :
    (separate o a b).file = a.text ++ newline :: (b.text ++ newline :: []) := rfl

theorem Separable.same (h : Separable single o a) (hb : ∃ o', Accepts single o' b) :
    SameResult (parseNextLine single) (joined o a b)
      (do parseNextLine single; parseNextLine single) (separate o a b) :=
  h b hb _ _ [] rfl rfl rfl rfl .nil joined_file separate_file

theorem switchEffect_open {strict merge : Bool} {root : List Package} {n : Str}
    {package : Option Package} {sect : Option Nat}
    (h : switchEffect (strict, root, some n, package, sect, merge) = .ok () o') :
    ∃ p, o'.package = some p := by
  simp only [switchEffect] at h
  split_ifs at h
  all_goals
    cases h
    exact ⟨_, rfl⟩

/-- Behind a command a package is open, except for `package` where there is only one. -/
theorem CommandText.package_open {s : Str} (h : a.meaning.effect single s o = .ok () o') :
    (∃ p, o'.package = some p) ∨ single = true ∧ a.keyword = .package := by
  have hput : ∀ {list : Bool} {name value : Str},
      (Meaning.option list name value).effect single s o = .ok () o' → ∃ p, o'.package = some p := by
    intro list name value hput
    obtain ⟨o₁, o₂, -, h⟩ := Runs.split hput
    obtain ⟨-, o₃, -, h⟩ := Runs.split h
    obtain ⟨-, o₄, -, h⟩ := Runs.split h
    obtain ⟨-, o₅, -, h⟩ := Runs.split h
    exact putEffect_open h
  cases hk : a.keyword with
  | package =>
    rw [meaning, hk] at h
    obtain ⟨-, o₁, -, h⟩ := Runs.split h
    obtain ⟨-, o₂, -, h⟩ := Runs.split h
    cases single with
    | true => exact Or.inr ⟨rfl, rfl⟩
    | false => exact Or.inl (switchEffect_open h)
  | config =>
    rw [meaning, hk] at h
    obtain ⟨-, o₁, -, h⟩ := Runs.split h
    obtain ⟨-, o₂, -, h⟩ := Runs.split h
    obtain ⟨-, o₃, -, h⟩ := Runs.split h
    obtain ⟨-, o₄, -, h⟩ := Runs.split h
    exact Or.inl (sectionEffect_open h)
  | option =>
    rw [meaning, hk] at h
    exact Or.inl (hput h)
  | list =>
    rw [meaning, hk] at h
    exact Or.inl (hput h)

/-- Where the one line fails, the second one of the two lines does. -/
theorem Separable.fails (h : Separable single o a) (ha : Accepts single o a)
    (hb : ∃ o', Accepts single o' b) {o₂ : Outer}
    (hjoin : Acts (parseNextLine single) (joined o a b) (e >>= fun _ => throw .inval)
      (fun _ => True))
    (he : a.meaning.effect single a.surplus.value o = .ok () o') :
    b.meaning.effect single b.surplus.value o' ≠ .ok () o₂ := by
  intro he₂
  have hsame := h.same hb
  obtain ⟨ha', -⟩ := a.effect_of_accepts ha
  obtain ⟨ob, hb⟩ := hb
  obtain ⟨hb', -⟩ := b.effect_of_accepts hb
  have htwo := a.two_lines single ha' hb' (separate_file (o := o)) rfl .nil
  obtain ⟨d', hrun, -⟩ := htwo.runs (Runs.seq he he₂)
  rcases hsame with ⟨c₁, d₁, hrun₁, -⟩ | ⟨e₁, e₂, c₁, d₁, -, hthrow, -⟩
  · obtain ⟨err, c', hthrow⟩ := hjoin.throws_last
    exact hthrow.not_runs hrun₁
  · exact hthrow.not_runs hrun

/-- The `;` was overwritten: the added section is missing. -/
theorem Separable.apart (h : Separable single o a) (ha : Accepts single o a) : a.Apart := by
  obtain ⟨htidy, o', he⟩ := a.effect_of_accepts ha
  by_contra hapart
  have hone := CommandText.pair_cut single hapart (joined_file (o := o) (b := configZ)) rfl
    (a.pair_text configZ .nil)
  have htwo := a.two_lines single htidy (commandZ_tidy .config) (separate_file (o := o)) rfl .nil
  obtain ⟨c', hrun, hout, -⟩ := hone.runs he
  rcases h.same configZ_accepted with
    ⟨c₁, d₁, hrun₁, hrun₂, heq, -⟩ | ⟨e₁, e₂, c₁, d₁, hthrow, -⟩
  · obtain ⟨-, rfl⟩ := hrun.unique hrun₁
    cases he₂ : configZ.meaning.effect single [] o' with
    | ok u o₂ =>
      obtain ⟨d', hrun', hout', -⟩ := htwo.runs (Runs.seq he he₂)
      obtain ⟨-, rfl⟩ := hrun'.unique hrun₂
      exact configZ_noticed he₂ (hout'.symm.trans (heq.symm.trans hout))
    | error err o₂ =>
      obtain ⟨err', d', hthrow, -⟩ := htwo.throws (Throws.seq he he₂)
      exact hthrow.not_runs hrun₂
  · exact hthrow.not_runs hrun

/-- The word of the second command is an argument too many. -/
theorem Separable.full (h : Separable single o a) (ha : Accepts single o a) (hapart : a.Apart) :
    a.Full := by
  obtain ⟨htidy, o', he⟩ := a.effect_of_accepts ha
  by_contra hfull
  have hnext : Next ⟨some (configZ.text ++ [newline]), []⟩ (bytes "config")
      ⟨some (bytes "z" ++ [newline]), []⟩ :=
    (Argument.plain (bytes "config") (by decide) (by decide)).next_space [] (b := space)
      (List.forall_mem_nil _) rfl ⟨bytes " z", rfl, by decide⟩
  have hrest : ∀ c' y fuel, At c' y ⟨some (bytes "z" ++ [newline]), []⟩ →
      Acts (parseLineLoop single (fuel + 1)) c' (throw .inval) (fun _ => True) := by
    intro c' y fuel hat
    have hreject : Rejects (parseLineLoop single (fuel + 1)) c' :=
      blank_rejects single [] (List.forall_mem_nil _) (List.forall_mem_nil _) rfl (by decide) hat
    exact .fail hreject rfl
  have hone := CommandText.pair_lacking single hfull hapart (joined_file (o := o) (b := configZ)) rfl
    (a.pair_text configZ .nil) hnext (g := fun _ => throw .inval)
    (Q := fun _ => True) hrest
  rcases a.package_open he with ⟨p, hp⟩ | ⟨-, hk⟩
  · obtain ⟨o₂, he₂⟩ := configZ_effect single hp
    exact h.fails ha configZ_accepted hone he he₂
  · exact hfull (Or.inl hk)

/-- The `;` is found where a command is expected. -/
theorem Separable.exact (h : Separable single o a) (ha : Accepts single o a) (hapart : a.Apart) :
    a.surplus = none := by
  obtain ⟨htidy, o', he⟩ := a.effect_of_accepts ha
  by_contra hsome
  have hjoin : ∀ b : CommandText, Acts (parseNextLine single) (joined o a b)
      (a.meaning.effect single a.surplus.value >>= fun _ => throw .inval) (fun _ => True) :=
    fun b => CommandText.pair_surplus single hsome hapart joined_file rfl (a.pair_text b .nil)
  rcases a.package_open he with ⟨p, hp⟩ | ⟨rfl, -⟩
  · obtain ⟨o₂, he₂⟩ := configZ_effect single hp
    exact h.fails ha configZ_accepted (hjoin configZ) he he₂
  · have he₂ : (commandZ .package).meaning.effect true (commandZ .package).surplus.value o' =
        .ok () o' := rfl
    exact h.fails ha ⟨o', accepts_of_effect (commandZ_tidy .package) he₂⟩ (hjoin (commandZ .package))
      he he₂

/-- **The law of the separator** holds for a command that has the arguments that it can take, and no
    more, and whose last argument is quoted, escaped, or followed by white space. -/
theorem separable_iff (hacc : Accepts single o a) :
    Separable single o a ↔ a.Full ∧ a.surplus = none ∧ a.Apart := by
  constructor
  · intro h
    have hapart := h.apart hacc
    exact ⟨h.full hacc hapart, h.exact hacc hapart, hapart⟩
  · rintro ⟨hfull, hnone, hapart⟩ b ⟨ob, hb⟩ c d file hc hd hceof hdeof htext hcfile hdfile
    obtain ⟨htidy, -⟩ := a.effect_of_accepts hacc
    obtain ⟨hbtidy, -⟩ := b.effect_of_accepts hb
    have hctext : Text c.file := by
      rw [hcfile]
      exact a.pair_text b htext
    have hpair := CommandText.pair_apart single hfull hnone hapart hbtidy hcfile hceof hctext
    have htwo := a.two_lines single htidy hbtidy hdfile hdeof htext
    rw [show a.surplus.value = [] by rw [hnone]; rfl] at htwo
    exact .of_acts (hpair.mono fun c' h => h.unread) htwo (hc.trans hd.symm)

/-- `package z` with a blank behind it. -/
def packageZ : CommandText :=
  { commandZ .package with trail := [space], trails := by simp [Blank]; decide }

theorem packageZ_accepts (o : Outer) : Accepts true o packageZ := by
  obtain ⟨strict, rest⟩ := o
  have he : packageZ.meaning.effect true packageZ.surplus.value (strict, rest) =
      .ok () (strict, rest) := by
    cases strict <;> rfl
  exact accepts_of_effect (Or.inl rfl) he

theorem separable_package : Separable true (true, [], none, none, none, false) packageZ :=
  (separable_iff (packageZ_accepts _)).2 ⟨Or.inl rfl, rfl, Or.inr (List.cons_ne_nil _ _)⟩

/-- The number of sections in the package after a part of an import. -/
def configs (x : M Unit) (c : Ctx) : Option Nat :=
  match x c with
  | .ok _ c' => c'.package.map (·.sections.length)
  | .error _ _ => none

theorem configs_of_run {x : M Unit} {c c' : Ctx} (h : Runs x c () c') :
    configs x c = c'.package.map (·.sections.length) := by
  unfold configs
  rw [show x c = .ok () c' from h]

theorem no_configs_of_throw {x : M Unit} {c c' : Ctx} {err : Err} (h : Throws x c err c') :
    configs x c = none := by
  unfold configs
  rw [show x c = .error err c' from h]

/-- The `;` behind a word that is not quoted ends the line. -/
theorem separator_lost :
    ¬ SameResult (parseNextLine false)
      (Outer.reading (true, [], some (bytes "p"), none, none, false)
        (bytes "config a;config b" ++ [newline]))
      (do parseNextLine false; parseNextLine false)
      (Outer.reading (true, [], some (bytes "p"), none, none, false)
        (bytes "config a" ++ newline :: (bytes "config b" ++ [newline]))) := by
  rintro (⟨c', d', hc, hd, hout, -⟩ | ⟨e, e', c', d', -, hd, -⟩)
  · have h₁ := configs_of_run hc
    have h₂ := configs_of_run hd
    rw [show c'.package = d'.package from congrArg Outer.package hout, ← h₂] at h₁
    revert h₁
    decide +kernel
  · have h₂ := no_configs_of_throw hd
    revert h₂
    decide +kernel

end

end Uci
