/-
  What the commands of the text format mean. `Next` says which argument a line gives next and what
  is left of it, for whatever follows; `Effect` is what a command with given arguments does to the
  fields of the import. The commands of `file.c` do this, wherever in the buffer they are.
-/
import IotLib.Uci.RoundTrip
import IotLib.Uci.Scan

namespace Uci

open Exec

/-! ## What is left of a line -/

/-- What is left to read: the rest of the line, unless it was cut off, and the rest of the file. -/
structure Left where
  line : Option Str
  file : Str

/-- The buffer starts with `x`, which stays, and this is left behind it. -/
def At (c : Ctx) (x : Str) (l : Left) : Prop :=
  match l.line with
  | some cur => ∃ pre gap, (x <+: pre ∨ cur = [] ∧ x <+: c.buf) ∧ Zip c pre gap cur l.file
  | none => Dead c x ∧ c.file = l.file

/-- A character that ends an argument. -/
def Stop (d : UInt8) : Prop := isspace d = true ∨ d = semicolon

/-- The text of an argument, its value, and the number of characters that are dropped from it. -/
structure ArgText (t v : Str) (n : Nat) : Prop where
  start : ∃ b t', t = b :: t' ∧ isspace b = false ∧ b ≠ semicolon
  scan : ∀ d rest, Stop d → scan .word (t ++ d :: rest) = .arg v n (d :: rest)

/-- What an argument leaves of the line when it ends at `d`. -/
inductive Behind (n : Nat) : UInt8 → Str → Left → Prop
  | space {d cur file} : isspace d = true → Line (d :: cur) →
      Behind n d (cur ++ file) ⟨some cur, file⟩
  | kept {cur file} : n ≠ 0 → Line (semicolon :: cur) →
      Behind n semicolon (cur ++ file) ⟨some (semicolon :: cur), file⟩
  | cut {cur file} : n = 0 → Line (semicolon :: cur) → Behind n semicolon (cur ++ file) ⟨none, file⟩

/-- The next argument of a line; it is empty if there is none. -/
inductive Next : Left → Str → Left → Prop
  | arg {blanks t v cur file rest n d l} : (∀ b ∈ blanks, isspace b = true) → ArgText t v n →
      cur ++ file = t ++ d :: rest → Line cur → Behind n d rest l →
      Next ⟨some (blanks ++ cur), file⟩ v l
  | none {blanks file} : (∀ b ∈ blanks, isspace b = true) →
      Next ⟨some blanks, file⟩ [] ⟨some [], file⟩
  | separator {blanks cur file} : (∀ b ∈ blanks, isspace b = true) →
      Next ⟨some (blanks ++ semicolon :: cur), file⟩ [] ⟨some cur, file⟩
  | cut {file} : Next ⟨Option.none, file⟩ [] ⟨Option.none, file⟩

/-- The string `v` was parsed at the offset `ofs`. -/
def Stored (x : Str) (ofs : Nat) (v : Str) : Prop :=
  0 ∉ v ∧ ∃ y, y.length = ofs ∧ (y ++ v ++ [0]) <+: x

section
variable {c : Ctx} {x y v : Str} {l l' : Left} {ofs : Nat}

theorem Stored.mono (h : Stored x ofs v) (hxy : x <+: y) : Stored y ofs v := by
  obtain ⟨hv, z, hz, hpre⟩ := h
  exact ⟨hv, z, hz, hpre.trans hxy⟩

theorem At.buf (h : At c x l) : ∃ junk, c.buf = x ++ junk := by
  unfold At at h
  split at h
  · obtain ⟨pre, gap, ⟨z, rfl⟩ | ⟨-, z, hz⟩, hzip⟩ := h
    · obtain ⟨junk, hbuf⟩ := hzip.buf
      exact ⟨_, by rw [hbuf, List.append_assoc, List.append_assoc]⟩
    · exact ⟨z, hz.symm⟩
  · exact h.1.buf

theorem Stored.str (h : Stored x ofs v) (hat : At c x l) : c.str ofs = v := by
  obtain ⟨hv, z, rfl, ⟨w, rfl⟩⟩ := h
  obtain ⟨junk, hbuf⟩ := hat.buf
  exact str_of_buf (show c.buf = z ++ v ++ 0 :: w ++ junk by rw [hbuf]; simp) hv

/-- The first line of a text. -/
theorem line_unique {a b x y : Str} (ha : Line a) (hb : Line b) (h : a ++ x = b ++ y) :
    a = b ∧ x = y := by
  obtain ⟨a, rfl, ha⟩ := ha
  obtain ⟨b, rfl, hb⟩ := hb
  rw [List.append_assoc, List.append_assoc, List.singleton_append, List.singleton_append] at h
  obtain ⟨z, rfl, hz⟩ := append_line ha h hb
  cases z with
  | nil =>
    rw [List.nil_append, List.cons.injEq] at hz
    exact ⟨by simp, hz.2⟩
  | cons d z =>
    rw [List.cons_append, List.cons.injEq] at hz
    exact absurd (by simp [hz.1]) hb

theorem Arrives.at {rest : Str} {n : Nat} {d : UInt8} (h : Arrives c x n (d :: rest))
    (hl : Behind n d rest l) : At c x l := by
  have hne : isspace semicolon = false := rfl
  cases hl with
  | @space d cur file hd hline =>
    rw [Arrives, if_pos hd] at h
    obtain ⟨gap, cur', file', hz, heq, hline'⟩ := h
    obtain ⟨hcur, rfl⟩ := line_unique hline' hline (by rw [List.cons_append, heq]; rfl)
    rw [List.cons.injEq] at hcur
    obtain rfl := hcur.2
    exact ⟨x, gap, Or.inl List.prefix_rfl, hz⟩
  | @kept cur file hn hline =>
    rw [Arrives, if_neg (by simp [hne]), if_pos ⟨rfl, hn⟩] at h
    obtain ⟨gap, cur', file', hz, heq⟩ := h
    have hline' : Line (semicolon :: cur') := hz.line.resolve_left (by simp)
    obtain ⟨hcur, rfl⟩ := line_unique hline' hline (by rw [List.cons_append, heq]; rfl)
    rw [List.cons.injEq] at hcur
    obtain rfl := hcur.2
    exact ⟨x, gap, Or.inl List.prefix_rfl, hz⟩
  | @cut cur file hn hline =>
    rw [Arrives, if_neg (by simp [hne]), if_neg (by simp [hn])] at h
    obtain ⟨hdead, cur', hline', heq⟩ := h
    obtain ⟨-, rfl⟩ := line_unique hline' hline (by rw [List.cons_append, heq]; rfl)
    exact ⟨hdead, rfl⟩

/-- An argument that `next_arg` refuses. -/
def Bad (required name package : Bool) (v : Str) : Prop :=
  v = [] ∧ required = true ∨ v ≠ [] ∧ name = true ∧ uciValidateStr v name package = false

instance (required name package : Bool) (v : Str) : Decidable (Bad required name package v) :=
  inferInstanceAs (Decidable (_ ∨ _))

theorem Zip.skip_eq {pre gap blanks cur file : Str} (h : Zip c pre gap (blanks ++ cur) file)
    (hblanks : ∀ b ∈ blanks, isspace b = true) (hcur : isspace (cur.headD 0) = false) :
    Zip (Uci.skipWhitespace c) pre (gap ++ blanks) cur file := by
  have hz := h.skipBlanks
  have htake : (blanks ++ cur).takeWhile isspace = blanks := by
    rw [List.takeWhile_append_of_pos hblanks]
    cases cur with
    | nil => simp
    | cons b cur =>
      have hb : isspace b = false := hcur
      simp [hb]
  have hdrop : (blanks ++ cur).dropWhile isspace = cur := by
    rw [List.dropWhile_append_of_pos hblanks]
    cases cur with
    | nil => rfl
    | cons b cur =>
      have hb : isspace b = false := hcur
      simp [hb]
  rwa [htake, hdrop] at hz

/-- The argument `v` is read, behind `x`, and `l` is left; or it is refused. -/
structure Gives (m : M Nat) (c : Ctx) (x v : Str) (l : Left) (bad : Prop) : Prop where
  refused : bad → Rejects m c
  read : ¬ bad → ∃ c' ofs y, Runs m c ofs c' ∧ c'.outer = c.outer ∧ x <+: y ∧ At c' y l ∧
    Stored y ofs v

/-- There is no argument. -/
theorem checkArg_none (required name package : Bool) {c' : Ctx} {m : M Nat} {z : Str}
    (hm : Leads m c (checkArg required name package y.length) c') (hout : c'.outer = c.outer)
    (hxz : x <+: z) (hyz : (y ++ [0]) <+: z) (hat : At c' z l') :
    Gives m c x [] l' (Bad required name package []) := by
  have hchar : c'.char y.length = 0 := by
    obtain ⟨junk, hbuf⟩ := hat.buf
    obtain ⟨w, rfl⟩ := hyz
    rw [Ctx.char, hbuf]
    simp
  cases required with
  | true =>
    exact ⟨fun _ => (checkArg_missing name package hchar).of_leads hm hout,
      fun hbad => absurd (Or.inl ⟨rfl, rfl⟩) hbad⟩
  | false =>
    refine ⟨fun hbad => absurd hbad (by simp [Bad]), fun _ => ?_⟩
    exact ⟨c', y.length, z, hm.runs (checkArg_empty name package hchar), hout, hxz, hat, by simp, y,
      rfl, by simpa using hyz⟩

theorem Gives.of_leads {m m' : M Nat} {c' : Ctx} {bad : Prop} (h : Gives m' c' x v l bad)
    (hm : Leads m c m' c') (hout : c'.outer = c.outer) : Gives m c x v l bad := by
  refine ⟨fun hbad => (h.refused hbad).of_leads hm hout, fun hbad => ?_⟩
  obtain ⟨c'', ofs, y, hrun, hout', hrest⟩ := h.read hbad
  exact ⟨c'', ofs, y, hm.runs hrun, hout'.trans hout, hrest⟩

theorem Ended.prefix {pre gap : Str} (h : Ended c pre gap) : (pre ++ gap ++ [0]) <+: c.buf := by
  obtain ⟨junk, hbuf⟩ := h.buf
  exact ⟨junk, by rw [hbuf, List.append_assoc, List.singleton_append]⟩

/-- **`next_arg`** gives the next argument of the line, wherever it is. -/
theorem Next.gives (required name package : Bool) (hat : At c x l) (hn : Next l v l') :
    Gives (nextArg required name package) c x v l' (Bad required name package v) := by
  have hskip := nextArg_skip required name package c
  have hbuf := hat.buf
  cases hn with
  | @arg blanks t v cur file rest n d l hblanks ht heq hline hbehind =>
    obtain ⟨pre, gap, hpre, hz⟩ := hat
    replace hpre : x <+: pre :=
      hpre.resolve_right fun h => hline.ne_nil (List.append_eq_nil_iff.1 h.1).2
    obtain ⟨⟨b, t, rfl, hb, hsemi⟩, hscan⟩ := ht
    obtain ⟨a, cur, rfl⟩ := List.exists_cons_of_ne_nil hline.ne_nil
    have hab : a = b := by
      rw [List.cons_append, List.cons_append, List.cons.injEq] at heq
      exact heq.1
    subst hab
    have hz' := hz.skip_eq hblanks hb
    refine Gives.of_leads ?_ hskip rfl
    have hstop : Stop d := by
      cases hbehind with
      | space hd _ => exact Or.inl hd
      | kept _ _ => exact Or.inr rfl
      | cut _ _ => exact Or.inr rfl
    have hscan' := hscan d rest hstop
    rw [← heq] at hscan'
    refine ⟨fun hbad => ?_, fun hbad => ?_⟩
    · exact nextArg_rejects required name package hz' hb hsemi (Or.inr ⟨v, n, _, hscan', hbad⟩)
    · unfold Bad at hbad
      rw [not_or] at hbad
      obtain ⟨c', hrun, hout, harr, hstr⟩ := nextArg_scan required name package hz' hb hsemi hscan'
        (fun hr hv => hbad.1 ⟨hv, hr⟩) fun hn hv => by
          have := hbad.2
          simp only [not_and, Bool.not_eq_false] at this
          exact this hv hn
      have hv : 0 ∉ v := by
        obtain ⟨s, ht, hmem, -⟩ := (scan_taken hscan').split
        exact fun hm => hz'.text.nz (ht ▸ List.mem_append_left _ (hmem _ hm))
      refine ⟨c', _, _, hrun, hout, ?_, harr.at hbehind, hv, _, rfl, List.prefix_rfl⟩
      rw [List.append_assoc, List.append_assoc]
      exact hpre.trans (List.prefix_append _ _)
  | @none blanks file hblanks =>
    obtain ⟨pre, gap, hpre, hz⟩ := hat
    rw [← List.append_nil blanks] at hz
    have hz' := hz.skip_eq hblanks rfl
    refine Gives.of_leads ?_ hskip rfl
    have hxbuf : x <+: (Uci.skipWhitespace c).buf := by
      obtain ⟨junk, hbuf⟩ := hbuf
      exact ⟨junk, hbuf.symm⟩
    exact checkArg_none required name package (nextArg_end required name package hz'.ended) rfl
      hxbuf hz'.ended.prefix ⟨pre, gap ++ blanks, Or.inr ⟨rfl, List.prefix_rfl⟩, hz'⟩
  | @separator blanks cur file hblanks =>
    obtain ⟨pre, gap, hpre, hz⟩ := hat
    replace hpre : x <+: pre := hpre.resolve_right fun h => by simp at h
    have hz' := hz.skip_eq hblanks rfl
    refine Gives.of_leads ?_ hskip rfl
    obtain ⟨c', hleads, hout, hz''⟩ := nextArg_semicolon required name package hz'
    refine checkArg_none required name package hleads hout ?_ List.prefix_rfl
      ⟨_, [], Or.inl List.prefix_rfl, hz''⟩
    rw [List.append_assoc, List.append_assoc]
    exact hpre.trans (List.prefix_append _ _)
  | cut =>
    obtain ⟨⟨⟨junk, hxbuf⟩, pre, gap, hend⟩, hfile⟩ := hat
    exact checkArg_none required name package (nextArg_end required name package hend) rfl
      ⟨junk, hxbuf.symm⟩ hend.prefix ⟨⟨⟨[], by simp⟩, pre, gap, hend⟩, hfile⟩

/-- `assert_eol` looks for one more argument. -/
theorem Next.eol (hat : At c x l) (hn : Next l v l') :
    (v ≠ [] ∧ c.strict = true → Rejects assertEol c) ∧
    (¬ (v ≠ [] ∧ c.strict = true) → ∃ c' y, Runs assertEol c () c' ∧ c'.outer = c.outer ∧
      x <+: y ∧ At c' y l') := by
  have hgives := hn.gives false false false hat
  obtain ⟨c', ofs, y, hrun, hout, hxy, hat', hst⟩ := hgives.read (by simp [Bad])
  have hrun' : Runs (nextArg false false false) (Uci.skipWhitespace c) ofs c' :=
    Eq.trans (Eq.symm (nextArg_skip false false false c)) hrun
  have hstr := hst.str hat'
  have hstrict : c'.strict = c.strict := (outer_eq hout).1
  refine ⟨fun hbad => ?_, fun hgood => ⟨c', y, ?_, hout, hxy, hat'⟩⟩
  · have hrest : Rejects (do
        let c ← get
        if c.str ofs ≠ [] ∧ c.strict = true then uciParseError "too many arguments") c' := by
      refine .read ?_
      rw [hstr, hstrict, if_pos hbad]
      exact uciParseError_rejects _ _
    unfold assertEol
    exact (Rejects.after hrun' hout hrest).of_leads (.update (.refl _ _)) rfl
  · unfold assertEol
    refine .update (.seq hrun' (.read ?_))
    rw [hstr, hstrict, if_neg hgood]
    exact .ret _ _

end

/-! ## Effects -/

/-- What a command does to the fields of the import. -/
abbrev Effect := EStateM Err Outer Unit

/-- A condition without which a command fails. -/
def require (P : Prop) [Decidable P] : Effect := if P then pure () else throw .inval

def Outer.strict (o : Outer) : Bool := o.1

def Outer.sect (o : Outer) : Option Nat := o.2.2.2.2.1

/-- There are no further arguments. -/
def noSurplus (surplus : Str) : Effect := do
  let o ← get
  require (surplus = [] ∨ o.strict = false)

/-- The package that is read ends, and the named one begins. -/
def switchEffect : Effect := fun (strict, root, name, package, sect, merge) =>
  let root := root ++ package.toList
  let sect := if package = none then sect else none
  match name with
  | none => .ok () (strict, root, name, none, sect, merge)
  | some n =>
    if ∃ p ∈ root, p.name = n then .error .duplicate (strict, root, name, none, sect, merge)
    else .ok () (strict, root, name, some { name := n }, sect, merge)

/-- A package is opened unless there is one. -/
def openEffect : Effect := fun (strict, root, name, package, sect, merge) =>
  match package, name with
  | some _, _ => .ok () (strict, root, name, package, sect, merge)
  | none, none => .error .inval (strict, root, name, package, sect, merge)
  | none, some _ => switchEffect (strict, root, name, package, sect, merge)

/-- A section is added, or found by its name. -/
def sectionEffect (type name : Str) : Effect := fun (strict, root, nm, package, sect, merge) =>
  match package with
  | none => .error .inval (strict, root, nm, package, sect, merge)
  | some p =>
    if name = [] then
      .ok () (strict, root, nm, some (uciAddSection (!merge) p type), some p.sections.length, merge)
    else if strict = true ∧ otherType p name type = true then
      .error .inval (strict, root, nm, package, sect, merge)
    else
      match uciSet (!merge) p
        { sect := some name, value := some type, s := p.lookup name, done := true } with
      | .error e => .error e (strict, root, nm, package, sect, merge)
      | .ok (p, s) => .ok () (strict, root, nm, some p, s, merge)

/-- An option of the last section gets a value. -/
def putEffect (list : Bool) (name value : Str) : Effect :=
  fun (strict, root, nm, package, sect, merge) =>
    match package with
    | none => .error .inval (strict, root, nm, package, sect, merge)
    | some p =>
      let s := sect.getD 0
      match putOption list (!merge) p
        { sect := some (p.sect s).name, option := some name, value := some value, s := some s,
          o := (p.sect s).lookup name, done := true } with
      | .error e => .error e (strict, root, nm, package, sect, merge)
      | .ok p => .ok () (strict, root, nm, some p, sect, merge)

def nameEffect (name : Str) : Effect := fun (strict, root, _, package, sect, merge) =>
  switchEffect (strict, root, some name, package, sect, merge)

/-- The commands with their arguments, which are empty when they are missing. -/
inductive Meaning where
  | package (name : Str)
  | config (type name : Str)
  | option (list : Bool) (name value : Str)

/-- What a `config` command does with the open package. -/
def configEffect (type name surplus : Str) : Effect := do
  require (uciValidateType type = true)
  require (name = [] ∨ uciValidateName name = true)
  noSurplus surplus
  sectionEffect type name

/-- What a command does; `surplus` is what follows its arguments. -/
def Meaning.effect (single : Bool) (surplus : Str) : Meaning → Effect
  | .package name => do
    require (uciValidateStr name true true = true)
    noSurplus surplus
    if single then pure () else nameEffect name
  | .config type name => do
    openEffect
    configEffect type name surplus
  | .option list name value => do
    let o ← get
    require (o.sect ≠ none)
    require (uciValidateName name = true)
    noSurplus surplus
    putEffect list name value

/-- A part of the parser does to the fields what the effect says, and ends in a
    state with the property `Q` if it does not fail. -/
def Acts (x : M Unit) (c : Ctx) (e : Effect) (Q : Ctx → Prop) : Prop :=
  match e c.outer with
  | .ok _ o => ∃ c', Runs x c () c' ∧ c'.outer = o ∧ Q c'
  | .error _ o => ∃ err c', Throws x c err c' ∧ c'.outer = o

section
variable {x : M Unit} {α : Type} {m : M α} {f : α → M Unit} {c c' : Ctx} {e : Effect}
  {g : Unit → Effect} {Q R : Ctx → Prop}

theorem Acts.of_leads {y : M Unit} (h : Acts y c' e Q) (hx : Leads x c y c')
    (hout : c'.outer = c.outer) : Acts x c e Q := by
  unfold Acts at h ⊢
  rw [hout] at h
  split at h
  · obtain ⟨c'', hrun, hrest⟩ := h
    exact ⟨c'', hx.runs hrun, hrest⟩
  · obtain ⟨err, c'', hthrow, hrest⟩ := h
    exact ⟨err, c'', hx.throws hthrow, hrest⟩

theorem Acts.run {a : α} (hm : Runs m c a c') (hout : c'.outer = c.outer) (h : Acts (f a) c' e Q) :
    Acts (m >>= f) c e Q := h.of_leads (.seq hm (.refl _ _)) hout

theorem Acts.read {f : Ctx → M Unit} (h : Acts (f c) c e Q) : Acts (get >>= f) c e Q := h

theorem Acts.seq {f : Unit → M Unit} (hx : Acts x c e Q)
    (hf : ∀ c', Q c' → Acts (f ()) c' (g ()) R) : Acts (x >>= f) c (e >>= g) R := by
  unfold Acts at hx ⊢
  simp only [bind, EStateM.bind]
  cases he : e c.outer with
  | ok a o =>
    rw [he] at hx
    obtain ⟨c', hrun, rfl, hq⟩ := hx
    have hrest := hf c' hq
    unfold Acts at hrest
    cases a
    simp only
    cases hg : g () c'.outer with
    | ok b o' =>
      rw [hg] at hrest
      obtain ⟨c'', hrun', hrest⟩ := hrest
      exact ⟨c'', .seq hrun hrun', hrest⟩
    | error err o' =>
      rw [hg] at hrest
      obtain ⟨err, c'', hthrow, hrest⟩ := hrest
      exact ⟨err, c'', .seq hrun hthrow, hrest⟩
  | error err o =>
    rw [he] at hx
    obtain ⟨err, c', hthrow, hout⟩ := hx
    exact ⟨err, c', hthrow.first, hout⟩

theorem Acts.mono (h : Acts x c e Q) (hqr : ∀ c', Q c' → R c') : Acts x c e R := by
  unfold Acts at h ⊢
  split at h
  · obtain ⟨c', hrun, hout, hq⟩ := h
    exact ⟨c', hrun, hout, hqr c' hq⟩
  · exact h

theorem Acts.runs {o : Outer} (h : Acts x c e Q) (he : e c.outer = .ok () o) :
    ∃ c', Runs x c () c' ∧ c'.outer = o ∧ Q c' := by
  unfold Acts at h
  rwa [he] at h

theorem Acts.throws {o : Outer} {err : Err} (h : Acts x c e Q) (he : e c.outer = .error err o) :
    ∃ err' c', Throws x c err' c' ∧ c'.outer = o := by
  unfold Acts at h
  rwa [he] at h

/-- An effect that ends with an error. -/
theorem Acts.throws_last {err : Err} (h : Acts x c (e >>= fun _ => throw err) Q) :
    ∃ err' c', Throws x c err' c' := by
  cases he : e c.outer with
  | ok u o =>
    obtain ⟨err', c', hthrow, -⟩ := h.throws (Throws.seq he (.raise err o))
    exact ⟨err', c', hthrow⟩
  | error e₁ o =>
    obtain ⟨err', c', hthrow, -⟩ := h.throws (Throws.first (show Throws e c.outer e₁ o from he))
    exact ⟨err', c', hthrow⟩

theorem Acts.congr {e' : Effect} (h : Acts x c e Q) (he : e' c.outer = e c.outer) :
    Acts x c e' Q := by
  unfold Acts at h ⊢
  rwa [he]

theorem Acts.fail {err : Err} (h : Rejects x c) (he : e c.outer = .error err c.outer) :
    Acts x c e Q := by
  unfold Acts
  rw [he]
  obtain ⟨reason, line, byte, c', hthrow, hout⟩ := h
  exact ⟨_, c', hthrow, hout⟩

theorem Acts.met {P : Prop} [Decidable P] (hP : P) (h : Acts x c (g ()) Q) :
    Acts x c (require P >>= g) Q := by
  rw [require, if_pos hP]
  exact h

theorem Acts.unmet {P : Prop} [Decidable P] (hP : ¬ P) (h : Rejects x c) :
    Acts x c (require P >>= g) Q := by
  rw [require, if_neg hP]
  obtain ⟨reason, line, byte, c', hthrow, hout⟩ := h
  exact ⟨_, c', hthrow, hout⟩

end

/-! ## Commands -/

/-- The text that is read stays as it is. -/
structure Quiet (c c' : Ctx) : Prop where
  buf : c'.buf = c.buf
  pos : c'.pos = c.pos
  filled : c'.bufFilled = c.bufFilled
  file : c'.file = c.file
  eof : c'.eof = c.eof

section
variable {c c' : Ctx} {x pre cur file : Str} {l l₁ l₂ l₃ : Left}

theorem Quiet.at (h : Quiet c c') (hat : At c x l) : At c' x l := by
  unfold At at hat ⊢
  split at hat
  · obtain ⟨pre, gap, hpre, hz⟩ := hat
    exact ⟨pre, gap, by rw [h.buf]; exact hpre, hz.congr h.buf h.pos h.filled h.file h.eof⟩
  · obtain ⟨⟨hbuf, pre, gap, hend⟩, hfile⟩ := hat
    exact ⟨⟨by rw [h.buf]; exact hbuf, pre, gap, by rw [h.buf]; exact hend.buf,
      h.pos.trans hend.pos⟩, h.file.trans hfile⟩

theorem Quiet.word (h : Quiet c c') {tail : Str} (hw : Word c pre cur file tail) :
    Word c' pre cur file tail := by
  have hstr : c'.curStr = c.curStr := by
    rw [Ctx.curStr, Ctx.curStr, Ctx.str, Ctx.str, h.buf, h.pos]
  refine ⟨by rw [hstr, h.pos, h.filled]; exact hw.room, ?_, hw.line, hw.left⟩
  rw [hstr]
  exact hw.zip.congr h.buf (by simp only [h.pos]) h.filled h.file h.eof

/-- The package that was read belongs to the context. -/
def Ctx.closed (c : Ctx) : Ctx :=
  { c with
    root := c.root ++ c.package.toList
    package := none
    sect := if c.package = none then c.sect else none }

theorem uciSwitchConfig_leads (c : Ctx) : Leads uciSwitchConfig c (match c.closed.name with
    | none => pure ()
    | some n => do
      if ∃ p ∈ c.closed.root, p.name = n then throw .duplicate
      set { c.closed with package := some { name := n } }) c.closed := by
  obtain ⟨strict, root, file, eof, line, buf, bufFilled, pos, name, package, sect, merge⟩ := c
  cases package with
  | none =>
    simp only [Ctx.closed, Option.toList_none, List.append_nil, if_true]
    cases name <;> exact .read (.write (.refl _ _))
  | some p =>
    simp only [Ctx.closed, Option.toList_some, reduceCtorEq, if_false]
    cases name <;> exact .read (.write (.refl _ _))

theorem switchEffect_eq (c : Ctx) : switchEffect c.outer =
    match c.closed.name with
    | none => .ok () c.closed.outer
    | some n =>
      if ∃ p ∈ c.closed.root, p.name = n then .error .duplicate c.closed.outer
      else .ok () { c.closed with package := some { name := n } }.outer := by
  obtain ⟨strict, root, file, eof, line, buf, bufFilled, pos, name, package, sect, merge⟩ := c
  cases name <;> rfl

theorem uciSwitchConfig_acts (c : Ctx) : Acts uciSwitchConfig c switchEffect (Quiet c) := by
  have hleads := uciSwitchConfig_leads c
  unfold Acts
  rw [switchEffect_eq]
  cases hname : c.closed.name with
  | none =>
    rw [hname] at hleads
    exact ⟨c.closed, hleads.runs (.ret _ _), rfl, rfl, rfl, rfl, rfl, rfl⟩
  | some n =>
    rw [hname] at hleads
    simp only at hleads ⊢
    by_cases hdup : ∃ p ∈ c.closed.root, p.name = n
    · rw [if_pos hdup] at hleads ⊢
      exact ⟨.duplicate, c.closed, hleads.throws (Throws.raise _ _).first, rfl⟩
    · rw [if_neg hdup] at hleads ⊢
      exact ⟨_, hleads.runs rfl, rfl, rfl, rfl, rfl, rfl, rfl⟩

variable {Q : Ctx → Prop}

/-- A change of the package that may fail. -/
theorem liftPackage_acts {α : Type} {f : Package → Except Err (Package × α)} {g : α → M Unit}
    {e : Effect} (hnone : c.package = none → ∃ err, e c.outer = .error err c.outer)
    (herror : ∀ p err, c.package = some p → f p = .error err → ∃ err, e c.outer = .error err c.outer)
    (hok : ∀ p p' a, c.package = some p → f p = .ok (p', a) →
      ∃ c', Runs (g a) { c with package := some p' } () c' ∧ e c.outer = .ok () c'.outer ∧ Q c') :
    Acts (liftPackage f >>= g) c e Q := by
  unfold Acts
  cases hp : c.package with
  | none =>
    obtain ⟨err, he⟩ := hnone hp
    rw [he]
    have hthrow : Throws (liftPackage f) c .inval c := by
      unfold liftPackage
      refine .read ?_
      rw [hp]
      exact .raise _ _
    exact ⟨.inval, c, hthrow.first, rfl⟩
  | some p =>
    cases hf : f p with
    | error err =>
      obtain ⟨err', he⟩ := herror p err hp hf
      rw [he]
      have hthrow : Throws (liftPackage f) c err c := by
        unfold liftPackage
        refine .read ?_
        rw [hp]
        simp only [hf]
        exact .raise _ _
      exact ⟨err, c, hthrow.first, rfl⟩
    | ok r =>
      obtain ⟨c', hrun, he, hq⟩ := hok p r.1 r.2 hp hf
      rw [he]
      exact ⟨c', .seq (liftPackage_runs hp hf) hrun, rfl, hq⟩

/-- The last part of `uci_parse_config`. -/
theorem section_acts (type name : Str) (c : Ctx) : Acts (do
    if name = [] then
      let s ← liftPackage fun p => .ok (uciAddSection (!c.merge) p type, p.sections.length)
      modify fun c => { c with sect := some s }
    else
      if c.strict = true ∧ c.package.any (fun p => otherType p name type) = true then
        uciParseError "section of different type overwrites prior section with same name"
      let s ← liftPackage fun p => uciSet (!c.merge) p
        { sect := some name, value := some type, s := p.lookup name, done := true }
      modify fun c => { c with sect := s }) c (sectionEffect type name) (Quiet c) := by
  by_cases hname : name = []
  · rw [if_pos hname]
    refine liftPackage_acts (fun hp => ⟨.inval, ?_⟩) (fun p err _ hf => by cases hf)
      fun p p' a hp hf => ⟨_, rfl, ?_, rfl, rfl, rfl, rfl, rfl⟩
    · simp only [sectionEffect, Ctx.outer, hp]
    · cases hf
      simp only [sectionEffect, Ctx.outer, hp, if_pos hname]
  rw [if_neg hname]
  by_cases hother : c.strict = true ∧ c.package.any (fun p => otherType p name type) = true
  · rw [if_pos hother]
    obtain ⟨p, hp, ho⟩ : ∃ p, c.package = some p ∧ otherType p name type = true := by
      simpa [Option.any_eq_true] using hother.2
    unfold Acts
    simp only [sectionEffect, Ctx.outer, hp, if_neg hname, if_pos (And.intro hother.1 ho)]
    exact ⟨_, c, Throws.first rfl, by simp only [hp]⟩
  · rw [if_neg hother]
    refine liftPackage_acts (fun hp => ⟨.inval, ?_⟩) (fun p err hp hf => ⟨err, ?_⟩)
      fun p p' a hp hf => ⟨_, rfl, ?_, rfl, rfl, rfl, rfl, rfl⟩
    · simp only [sectionEffect, Ctx.outer, hp]
    · rw [hp] at hother
      simp only [sectionEffect, Ctx.outer, hp, if_neg hname]
      rw [if_neg (by simpa using hother), hf]
    · rw [hp] at hother
      simp only [sectionEffect, Ctx.outer, hp, if_neg hname]
      rw [if_neg (by simpa using hother), hf]

/-- The last part of `uci_parse_option`. -/
theorem put_acts (list : Bool) (name value : Str) (c : Ctx) : Acts (liftPackage fun p =>
      (putOption list (!c.merge) p
        { sect := some (p.sect (c.sect.getD 0)).name, option := some name, value := some value,
          s := some (c.sect.getD 0), o := (p.sect (c.sect.getD 0)).lookup name,
          done := true }).map fun p => (p, ()))
    c (putEffect list name value) (Quiet c) := by
  rw [← bind_pure (liftPackage _)]
  refine liftPackage_acts (fun hp => ⟨.inval, ?_⟩) (fun p err hp hf => ⟨err, ?_⟩)
    fun p p' a hp hf => ⟨_, rfl, ?_, rfl, rfl, rfl, rfl, rfl⟩
  · simp only [putEffect, Ctx.outer, hp]
  · simp only [putEffect, Ctx.outer, hp]
    cases hput : putOption list (!c.merge) p
      { sect := some (p.sect (c.sect.getD 0)).name, option := some name, value := some value,
        s := some (c.sect.getD 0), o := (p.sect (c.sect.getD 0)).lookup name, done := true } with
    | error e =>
      rw [hput] at hf
      cases hf
      rfl
    | ok q =>
      rw [hput] at hf
      cases hf
  · simp only [putEffect, Ctx.outer, hp]
    cases hput : putOption list (!c.merge) p
      { sect := some (p.sect (c.sect.getD 0)).name, option := some name, value := some value,
        s := some (c.sect.getD 0), o := (p.sect (c.sect.getD 0)).lookup name, done := true } with
    | error e =>
      rw [hput] at hf
      cases hf
    | ok q =>
      rw [hput] at hf
      cases hf
      rfl

theorem Acts.gives {m : M Nat} {f : Nat → M Unit} {bad : Prop} {v : Str} {e : Effect}
    (hg : Gives m c x v l bad)
    (hbad : bad → Rejects m c → Acts (m >>= f) c e Q)
    (hgood : ¬ bad → ∀ c' ofs y, c'.outer = c.outer → x <+: y → At c' y l → Stored y ofs v →
      Acts (f ofs) c' e Q) : Acts (m >>= f) c e Q := by
  by_cases h : bad
  · exact hbad h (hg.refused h)
  · obtain ⟨c', ofs, y, hrun, hout, hxy, hat, hst⟩ := hg.read h
    exact .run hrun hout (hgood h c' ofs y hout hxy hat hst)

/-- The end of a command, where an argument too many is refused. -/
theorem Acts.eol {f : Unit → M Unit} {v : Str} {g : Unit → Effect}
    (hat : At c x l) (hn : Next l v l₁)
    (hgood : ∀ c' y, c'.outer = c.outer → x <+: y → At c' y l₁ → Acts (f ()) c' (g ()) Q) :
    Acts (assertEol >>= f) c (noSurplus v >>= g) Q := by
  obtain ⟨hrej, hrun⟩ := hn.eol hat
  have hleads : (noSurplus v >>= g) c.outer =
      (require (v = [] ∨ c.strict = false) >>= g) c.outer := rfl
  unfold Acts
  rw [hleads]
  change Acts _ _ _ _
  by_cases hbad : v ≠ [] ∧ c.strict = true
  · exact Acts.unmet (by simpa [not_or] using hbad) (hrej hbad).first
  · obtain ⟨c', y, hrun, hout, hxy, hat'⟩ := hrun hbad
    refine Acts.met ?_ (.run hrun hout (hgood c' y hout hxy hat'))
    by_cases hv : v = []
    · exact Or.inl hv
    · exact Or.inr (by simpa [hv] using hbad)

/-- The arguments of a command are behind the word. -/
theorem Word.at {tail : Str} (h : Word c pre cur file tail) (reason : String) :
    ∃ c' x, Runs (uciIncreasePos (c.curStr.length + 1) reason) c () c' ∧ c'.outer = c.outer ∧
      At c' x ⟨some cur, file⟩ :=
  ⟨_, pre, h.inc reason, rfl, pre, [], Or.inl List.prefix_rfl, h.zip⟩

theorem validate_nil (name package : Bool) : uciValidateStr [] name package = false := rfl

theorem bad_name {package : Bool} {v : Str} :
    Bad true true package v ↔ ¬ uciValidateStr v true package = true := by
  by_cases hv : v = []
  · simp [Bad, hv, validate_nil]
  · simp [Bad, hv]

theorem bad_required {v : Str} : Bad true false false v ↔ v = [] := by simp [Bad]

theorem bad_optional {v : Str} :
    Bad false true false v ↔ ¬ (v = [] ∨ uciValidateName v = true) := by
  simp [Bad, uciValidateName]

/-- `package` -/
theorem uciParsePackage_acts (single : Bool) {tail name surplus : Str}
    (hword : Word c pre cur file tail) (h₁ : Next ⟨some cur, file⟩ name l₁)
    (h₂ : Next l₁ surplus l₂) :
    Acts (uciParsePackage single) c ((Meaning.package name).effect single surplus)
      (fun c' => ∃ y, At c' y l₂) := by
  obtain ⟨c₁, x, hinc, hout₁, hat₁⟩ := hword.at "package without name"
  unfold uciParsePackage Meaning.effect
  refine .read (.run hinc hout₁ (.gives (h₁.gives true true true hat₁) ?_ ?_))
  · intro hbad hrej
    exact .unmet (bad_name.1 hbad) hrej.first
  · intro hgood c₂ ofs y hout₂ hxy hat₂ hst
    refine .met (not_not.1 fun h => hgood (bad_name.2 h)) (.eol hat₂ h₂ ?_)
    intro c₃ z hout₃ hyz hat₃
    have hstr : c₃.str ofs = name := (hst.mono hyz).str hat₃
    cases single with
    | true => exact ⟨c₃, rfl, rfl, z, hat₃⟩
    | false =>
      have hacts := uciSwitchConfig_acts { c₃ with name := some (c₃.str ofs) }
      rw [hstr] at hacts
      have hquiet : Quiet c₃ { c₃ with name := some name } := ⟨rfl, rfl, rfl, rfl, rfl⟩
      refine .read ?_
      rw [hstr]
      exact (hacts.mono fun c' hq => ⟨z, hq.at (hquiet.at hat₃)⟩)

/-- `config` -/
theorem uciParseConfig_acts (single : Bool) {tail type name surplus : Str}
    (hword : Word c pre cur file tail) (h₁ : Next ⟨some cur, file⟩ type l₁) (h₂ : Next l₁ name l₂)
    (h₃ : Next l₂ surplus l₃) :
    Acts uciParseConfig c ((Meaning.config type name).effect single surplus)
      (fun c' => ∃ y, At c' y l₃) := by
  -- the package was opened
  have hargs : ∀ c, Word c pre cur file tail → Acts (do
      let c ← get
      uciIncreasePos (c.curStr.length + 1) "config without name"
      let ofsType ← nextArg true false false
      let c ← get
      if uciValidateType (c.str ofsType) = false then
        uciParseError "invalid character in type field"
      let ofsName ← nextArg false true false
      assertEol
      let c ← get
      let type := c.str ofsType
      let name := c.str ofsName
      if name = [] then
        let s ← liftPackage fun p => .ok (uciAddSection (!c.merge) p type, p.sections.length)
        modify fun c => { c with sect := some s }
      else
        if c.strict = true ∧ c.package.any (fun p => otherType p name type) = true then
          uciParseError "section of different type overwrites prior section with same name"
        let s ← liftPackage fun p => uciSet (!c.merge) p
          { sect := some name, value := some type, s := p.lookup name, done := true }
        modify fun c => { c with sect := s }) c (configEffect type name surplus)
        (fun c' => ∃ y, At c' y l₃) := by
    intro c hword
    unfold configEffect
    obtain ⟨c₁, x, hinc, hout₁, hat₁⟩ := hword.at "config without name"
    refine .read (.run hinc hout₁ (.gives (h₁.gives true false false hat₁) ?_ ?_))
    · intro hbad hrej
      refine .unmet ?_ hrej.first
      rw [bad_required.1 hbad]
      exact Bool.false_ne_true
    · intro hgood c₂ ofs y hout₂ hxy hat₂ hst
      refine .read ?_
      rw [hst.str hat₂]
      by_cases htype : uciValidateType type = true
      · rw [if_neg (by simp [htype])]
        refine .met htype (.gives (h₂.gives false true false hat₂) ?_ ?_)
        · intro hbad hrej
          exact .unmet (bad_optional.1 hbad) hrej.first
        · intro hgood c₃ ofs' z hout₃ hyz hat₃ hst'
          refine .met (not_not.1 fun h => hgood (bad_optional.2 h)) (.eol hat₃ h₃ ?_)
          intro c₄ w hout₄ hzw hat₄
          refine .read ?_
          simp only [(hst.mono (hyz.trans hzw)).str hat₄, (hst'.mono hzw).str hat₄]
          exact (section_acts type name c₄).mono fun c' hq => ⟨w, hq.at hat₄⟩
      · rw [if_pos (by simpa using htype)]
        exact .unmet htype (uciParseError_rejects _ _).first
  unfold uciParseConfig Meaning.effect
  refine .read ?_
  cases hp : c.package with
  | some p =>
    rw [if_neg (by simp)]
    have hopen : openEffect c.outer = .ok () c.outer := by
      simp only [openEffect, Ctx.outer, hp]
    refine (hargs c hword).congr ?_
    simp only [bind, EStateM.bind, hopen]
  | none =>
    rw [if_pos rfl]
    cases hn : c.name with
    | none =>
      have hopen : openEffect c.outer = .error .inval c.outer := by
        simp only [openEffect, Ctx.outer, hp, hn]
      rw [if_pos rfl]
      have hfail : (Meaning.config type name).effect single surplus c.outer =
          .error .inval c.outer := by
        simp only [Meaning.effect, bind, EStateM.bind, hopen]
      exact .fail (uciParseError_rejects _ _).first hfail
    | some n =>
      have hopen : openEffect c.outer = switchEffect c.outer := by
        simp only [openEffect, Ctx.outer, hp, hn]
      rw [if_neg (by simp)]
      refine Acts.congr (Acts.seq (g := fun _ => configEffect type name surplus)
        (uciSwitchConfig_acts c) fun c' hq => ?_) ?_
      · exact hargs c' (hq.word hword)
      · simp only [bind, EStateM.bind, hopen]

/-- `option` and `list` -/
theorem uciParseOption_acts (single list : Bool) {tail name value surplus : Str}
    (hword : Word c pre cur file tail) (h₁ : Next ⟨some cur, file⟩ name l₁)
    (h₂ : Next l₁ value l₂) (h₃ : Next l₂ surplus l₃) :
    Acts (uciParseOption list) c ((Meaning.option list name value).effect single surplus)
      (fun c' => ∃ y, At c' y l₃) := by
  obtain ⟨c₁, x, hinc, hout₁, hat₁⟩ := hword.at "option without name"
  unfold uciParseOption Meaning.effect
  refine .read ?_
  have hsect : ∀ g : Effect, (do
      let o ← get
      require (Outer.sect o ≠ none)
      g : Effect) c.outer = (require (c.sect ≠ none) >>= fun _ => g) c.outer := fun _ => rfl
  refine Acts.congr ?_ (hsect _)
  by_cases hs : c.sect = none
  · rw [if_pos hs]
    exact .unmet (by simp [hs]) (uciParseError_rejects _ _).first
  rw [if_neg hs]
  refine .met hs (.run hinc hout₁ (.gives (h₁.gives true true false hat₁) ?_ ?_))
  · intro hbad hrej
    exact .unmet (bad_name.1 hbad) hrej.first
  · intro hgood c₂ ofs y hout₂ hxy hat₂ hst
    refine .met (not_not.1 fun h => hgood (bad_name.2 h)) ?_
    refine .gives (h₂.gives false false false hat₂) (fun hbad => absurd hbad (by simp [Bad])) ?_
    intro hgood c₃ ofs' z hout₃ hyz hat₃ hst'
    refine .eol hat₃ h₃ ?_
    intro c₄ w hout₄ hzw hat₄
    refine .read ?_
    simp only [(hst.mono (hyz.trans hzw)).str hat₄, (hst'.mono hzw).str hat₄]
    exact (put_acts list name value c₄).mono fun c' hq => ⟨w, hq.at hat₄⟩

/-- The word `w` with what is behind it is a command with the given meaning, and
    `l'` is left of the line. -/
inductive Says (w : Str) : Left → Meaning → Str → Left → Prop
  | package {l l₁ l₂ : Left} {name surplus : Str} : isCommand w "package" = true →
      Next l name l₁ → Next l₁ surplus l₂ → Says w l (.package name) surplus l₂
  | config {l l₁ l₂ l₃ : Left} {type name surplus : Str} : isCommand w "config" = true →
      Next l type l₁ → Next l₁ name l₂ → Next l₂ surplus l₃ →
      Says w l (.config type name) surplus l₃
  | option {l l₁ l₂ l₃ : Left} {name value surplus : Str} {list : Bool} :
      isCommand w (if list then "list" else "option") = true → Next l name l₁ → Next l₁ value l₂ →
      Next l₂ surplus l₃ → Says w l (.option list name value) surplus l₃

theorem isCommand_cases {w : Str} {cmd : String} (h : isCommand w cmd = true) :
    w = bytes cmd ∨ w = (bytes cmd).take 1 := by simpa [isCommand] using h

/-- The words of the commands. -/
theorem Says.word {w surplus : Str} {m : Meaning} (h : Says w l m surplus l₁) :
    w ≠ [] ∧ (∀ b ∈ w, isDelim b = false) ∧ w.head? ≠ some hash := by
  cases h with
  | package hw _ _ => rcases isCommand_cases hw with rfl | rfl <;> decide
  | config hw _ _ _ => rcases isCommand_cases hw with rfl | rfl <;> decide
  | @option _ _ _ _ _ _ list hw _ _ _ =>
    cases list <;> rcases isCommand_cases hw with rfl | rfl <;> decide

/-- **A command does what it means**, wherever it is. -/
theorem Says.acts (single : Bool) {w tail surplus : Str} {m : Meaning}
    (hword : Word c pre cur file tail) (h : Says w ⟨some cur, file⟩ m surplus l) :
    Acts (runCommand single w) c (m.effect single surplus) (fun c' => ∃ y, At c' y l) := by
  cases h with
  | package hw h₁ h₂ =>
    have hrun : runCommand single w = uciParsePackage single := by
      rcases isCommand_cases hw with rfl | rfl <;> rfl
    rw [hrun]
    exact uciParsePackage_acts single hword h₁ h₂
  | config hw h₁ h₂ h₃ =>
    have hrun : runCommand single w = uciParseConfig := by
      rcases isCommand_cases hw with rfl | rfl <;> rfl
    rw [hrun]
    exact uciParseConfig_acts single hword h₁ h₂ h₃
  | @option _ _ _ name value _ list hw h₁ h₂ h₃ =>
    have hrun : runCommand single w = uciParseOption list := by
      cases list <;> rcases isCommand_cases hw with rfl | rfl <;> rfl
    rw [hrun]
    exact uciParseOption_acts single list hword h₁ h₂ h₃

/-! ## Lines -/

/-- The word of a command is cut off, and the arguments are behind it. -/
theorem strtok_at {lead w : Str} {d : UInt8} (hat : At c x ⟨some (lead ++ (w ++ d :: cur)), file⟩)
    (hlead : ∀ b ∈ lead, isDelim b = true) (hne : w ≠ []) (hw : ∀ b ∈ w, isDelim b = false)
    (hd : isDelim d = true) :
    ∃ c₁ pre, Runs strtok c (some w) c₁ ∧ c₁.outer = c.outer ∧
      Word c₁ pre cur file (cur ++ file) := by
  obtain ⟨pre, gap, -, h⟩ := hat
  obtain ⟨junk, hbuf⟩ := h.buf
  have hnz : 0 ∉ lead ++ w := fun hm => h.text.nz (by
    rw [← List.append_assoc lead]
    exact List.mem_append_left _ (List.mem_append_left _ hm))
  have hdrop : (lead ++ (w ++ d :: cur)).dropWhile isDelim = w ++ d :: cur := by
    rw [List.dropWhile_append_of_pos hlead]
    obtain ⟨b, w, rfl⟩ := List.exists_cons_of_ne_nil hne
    simp [hw b (by simp)]
  have htake : (w ++ d :: cur).takeWhile (fun b => !isDelim b) = w := by
    rw [List.takeWhile_append_of_pos fun b hb => by simp [hw b hb]]
    simp [hd]
  set stop := c.pos + ((lead ++ (w ++ d :: cur)).length - (w ++ d :: cur).length) + w.length
    with hstop
  have hstop' : stop = (pre ++ gap ++ (lead ++ w)).length := by
    rw [hstop, h.pos]
    simp only [List.length_append, List.length_cons]
    omega
  set c₁ := c.setChar stop 0 with hc₁
  have hbuf₁ : c₁.buf = pre ++ gap ++ (lead ++ w ++ 0 :: (cur ++ 0 :: junk)) := by
    rw [hc₁, Ctx.setChar, hbuf, hstop']
    simp
  have hpos₁ : c₁.pos = (pre ++ gap).length := by
    rw [List.length_append]
    exact h.pos
  have hstr : c₁.curStr = lead ++ w := by
    rw [Ctx.curStr, hpos₁]
    exact str_eq hbuf₁ hnz
  have hfilled : c₁.bufFilled = c₁.pos + ((lead ++ w).length + 1 + cur.length) := by
    have := h.filled
    simp only [List.length_append, List.length_cons] at this ⊢
    rw [show c₁.bufFilled = c.bufFilled from rfl, show c₁.pos = c.pos from rfl, this]
    omega
  have hline : Line cur := by
    have hall : Line (lead ++ (w ++ d :: cur)) := h.line.resolve_left (by simp)
    rw [← List.append_assoc] at hall
    refine (hall.of_append (by simp)).tail ?_
    rintro rfl
    cases hd
  refine ⟨c₁, pre ++ gap ++ (lead ++ w) ++ [0], ?_, rfl, ?_, ?_, hline, rfl⟩
  · unfold strtok
    refine .read ?_
    simp only [h.curStr, hdrop, htake]
    rw [if_pos (by simp), if_neg hne]
    exact .write (.ret _ _)
  · rw [hstr]
    omega
  · rw [hstr]
    refine ⟨⟨junk, ?_⟩, ?_, ?_, h.unread, h.eof, Or.inr hline, ?_⟩
    · rw [hbuf₁]
      simp
    · show c₁.pos + ((lead ++ w).length + 1) = _
      rw [hpos₁]
      simp [Nat.add_assoc]
    · show c₁.bufFilled = c₁.pos + ((lead ++ w).length + 1) + cur.length
      omega
    · have htext : Text (lead ++ w ++ [d] ++ (cur ++ file)) := by simpa using h.text
      exact htext.of_append

theorem Ended.strtok {pre gap : Str} (h : Ended c pre gap) : Runs Uci.strtok c none c := by
  unfold Uci.strtok
  refine .read ?_
  simp only [h.curStr]
  exact .ret _ _

/-- Nothing is left of the line. -/
theorem parseLineLoop_end (single : Bool) (fuel : Nat) {line : Option Str}
    (hat : At c x ⟨line, file⟩) (hline : line = none ∨ line = some []) :
    Runs (parseLineLoop single fuel) c () c := by
  cases fuel with
  | zero => exact .ret _ _
  | succ fuel =>
    have hend : ∃ pre gap, Ended c pre gap := by
      rcases hline with rfl | rfl
      · exact hat.1.ended
      · obtain ⟨pre, gap, -, hz⟩ := hat
        exact ⟨pre, gap, hz.ended⟩
    obtain ⟨pre, gap, hend⟩ := hend
    unfold parseLineLoop
    exact .seq hend.strtok (.ret _ _)

theorem strtok_head {lead : Str} {b : UInt8} (hat : At c x ⟨some (lead ++ b :: cur), file⟩)
    (hlead : ∀ b ∈ lead, isDelim b = true) (hb : isDelim b = false) :
    ∃ w c₁, Runs strtok c (some (b :: w)) c₁ ∧ c₁.outer = c.outer := by
  obtain ⟨pre, gap, -, h⟩ := hat
  have hdrop : (lead ++ b :: cur).dropWhile isDelim = b :: cur := by
    rw [List.dropWhile_append_of_pos hlead]
    simp [hb]
  set w := cur.takeWhile (!isDelim ·) with hw
  have htake : (b :: cur).takeWhile (fun b => !isDelim b) = b :: w := by
    simp [hw, hb]
  have hne : b :: w ≠ [] := List.cons_ne_nil _ _
  set stop := c.pos + ((lead ++ b :: cur).length - (b :: cur).length) + (b :: w).length with hstop
  unfold strtok
  by_cases hlt : (b :: w).length < (b :: cur).length
  · refine ⟨w, c.setChar stop 0, .read ?_, rfl⟩
    simp only [h.curStr, hdrop, htake, if_pos hlt, if_neg hne, ← hstop]
    exact .write (.ret _ _)
  · refine ⟨w, c, .read ?_, rfl⟩
    simp only [h.curStr, hdrop, htake, if_neg hlt, if_neg hne]
    exact .ret _ _

/-- What starts with another character than a command is refused. -/
theorem parseLineLoop_invalid (single : Bool) (fuel : Nat) {lead : Str} {b : UInt8}
    (hat : At c x ⟨some (lead ++ b :: cur), file⟩) (hlead : ∀ b ∈ lead, isDelim b = true)
    (hdelim : isDelim b = false) (hb : b ∉ bytes "pcol#") :
    Rejects (parseLineLoop single (fuel + 1)) c := by
  obtain ⟨w, c₁, hrun, hout⟩ := strtok_head hat hlead hdelim
  have hcmd : ∀ cmd, b ∉ (bytes cmd).take 1 → isCommand (b :: w) cmd = false := by
    intro cmd hcmd
    by_contra h
    rcases isCommand_cases (eq_true_of_ne_false h) with heq | heq
    · exact hcmd (by rw [← heq]; simp)
    · exact hcmd (by rw [← heq]; simp)
  have hinvalid : runCommand single (b :: w) = uciParseError "invalid command" := by
    have hmem : ∀ cmd, (bytes cmd).take 1 ⊆ bytes "pcol#" → isCommand (b :: w) cmd = false :=
      fun cmd hsub => hcmd cmd fun hm => hb (hsub hm)
    unfold runCommand
    rw [hmem "package" (by decide), hmem "config" (by decide), hmem "option" (by decide),
      hmem "list" (by decide)]
    rfl
  have hhash : ¬ (b :: w).head? = some hash := by
    simp only [List.head?_cons, Option.some.injEq]
    rintro rfl
    exact hb (by decide)
  unfold parseLineLoop
  refine .after hrun hout ?_
  simp only [if_neg hhash, hinvalid]
  exact (uciParseError_rejects "invalid command" c₁).first

/-- The next command of a line, and what follows it. -/
theorem parseLineLoop_acts (single : Bool) {fuel : Nat} {lead w surplus : Str} {d : UInt8}
    {m : Meaning} {g : Unit → Effect}
    (hat : At c x ⟨some (lead ++ (w ++ d :: cur)), file⟩) (hlead : ∀ b ∈ lead, isDelim b = true)
    (hd : isDelim d = true)
    (hcmd : Says w ⟨some cur, file⟩ m surplus l)
    (hrest : ∀ c' y, At c' y l → Acts (parseLineLoop single fuel) c' (g ()) Q) :
    Acts (parseLineLoop single (fuel + 1)) c (m.effect single surplus >>= g) Q := by
  obtain ⟨hne, hw, hhash⟩ := hcmd.word
  obtain ⟨c₁, pre, hrun, hout, hword⟩ := strtok_at hat hlead hne hw hd
  unfold parseLineLoop
  refine .run hrun hout ?_
  simp only [if_neg hhash]
  exact .seq (hcmd.acts single hword) fun c' ⟨y, hat'⟩ => hrest c' y hat'

end

end Uci
