/-
  The text format of packages: what `uci_export` writes, `uci_import` reads back.
-/
import IotLib.Uci.File
import IotLib.Uci.Lex

namespace Uci

open Exec

section
variable {c : Ctx} {pre gap cur file : Str}

/-! ## The parts of a line -/

section
-- the equations of these definitions, which the lemmas below rewrite with
attribute [local simp] exportLine uciEscape parseLineLoop uciParseConfig uciExportPackage importLoop
end

theorem assertEol_runs (h : Zip c pre gap [] file) : Runs assertEol c () c := by
  obtain ⟨hnext, hstr⟩ := nextArg_none false false h
  have hskip : skipWhitespace c = c := h.skipWhitespace_eq rfl
  unfold assertEol
  refine .update ?_
  rw [hskip]
  refine .seq hnext (.read ?_)
  rw [hstr, if_neg (by simp)]
  exact .ret _ _

theorem skipWhitespace_outer (c : Ctx) : (skipWhitespace c).outer = c.outer := rfl

/-- White space at the start of a line. -/
theorem Zip.skipWhitespace {b : UInt8} (h : Zip c pre gap (b :: cur) file) (hb : isspace b = true)
    (hcur : isspace (cur.headD 0) = false) :
    Zip (skipWhitespace c) pre (gap ++ [b]) cur file := by
  obtain ⟨junk, hdrop⟩ := h.drop_pos
  have hone : (c.buf.drop c.pos).takeWhile isspace = [b] := by
    rw [hdrop]
    cases cur with
    | nil =>
      have h0 : isspace 0 = false := rfl
      simp [hb, h0]
    | cons a cur =>
      have ha : isspace a = false := hcur
      simp [hb, ha]
  have hz := h.skip
  rw [Uci.skipWhitespace, hone]
  exact hz

theorem Zip.curStr (h : Zip c pre gap cur file) : c.curStr = cur := by
  obtain ⟨junk, hdrop⟩ := h.drop_pos
  have hnz : 0 ∉ cur := fun hm => h.text.nz (List.mem_append_left _ hm)
  rw [Ctx.curStr, Ctx.str, hdrop, takeWhile_nz hnz]

/-- There is no further command. -/
theorem strtok_none (h : Zip c pre gap [] file) : Runs strtok c none c := by
  unfold strtok
  refine .read ?_
  simp only [h.curStr]
  exact .ret _ _

/-- The word of a command is cut off, and the arguments are behind it. -/
theorem strtok_word {w : Str} (h : Zip c pre gap (w ++ space :: cur) file) (hne : w ≠ [])
    (hw : ∀ b ∈ w, isDelim b = false) :
    ∃ c₁, Runs strtok c (some w) c₁ ∧ c₁.outer = c.outer ∧
      c₁.pos + (c₁.curStr.length + 1) ≤ c₁.bufFilled ∧
      Zip { c₁ with pos := c₁.pos + (c₁.curStr.length + 1) } (pre ++ gap ++ w ++ [0]) [] cur file := by
  obtain ⟨junk, hbuf⟩ := h.buf
  have hnz : 0 ∉ w := fun hm => h.text.nz (by simp [hm])
  have hdrop : (w ++ space :: cur).dropWhile isDelim = w ++ space :: cur := by
    obtain ⟨b, w, rfl⟩ := List.exists_cons_of_ne_nil hne
    simp [hw b (by simp)]
  have htake : (w ++ space :: cur).takeWhile (fun b => !isDelim b) = w := by
    rw [List.takeWhile_append_of_pos fun b hb => by simp [hw b hb]]
    simp [isDelim]
  set c₁ := c.setChar (c.pos + w.length) 0 with hc₁
  have hbuf₁ : c₁.buf = pre ++ gap ++ (w ++ 0 :: (cur ++ 0 :: junk)) := by
    have hpos : c.pos + w.length = (pre ++ gap ++ w).length := by
      rw [h.pos]
      simp only [List.length_append]
    rw [hc₁, Ctx.setChar, hbuf, hpos]
    simp
  have hpos₁ : c₁.pos = (pre ++ gap).length := by
    rw [List.length_append]
    exact h.pos
  have hstr : c₁.curStr = w := by
    rw [Ctx.curStr, hpos₁]
    exact str_eq hbuf₁ hnz
  have hfilled : c₁.bufFilled = c₁.pos + (w.length + (cur.length + 1)) := by
    have := h.filled
    rw [List.length_append, List.length_cons] at this
    exact this
  refine ⟨c₁, ?_, rfl, by rw [hstr]; omega, ?_⟩
  · unfold strtok
    refine .read ?_
    simp only [h.curStr, hdrop, htake, Nat.sub_self, Nat.add_zero]
    rw [if_pos (by simp), if_neg hne]
    exact .write (.ret _ _)
  rw [hstr]
  refine ⟨⟨junk, ?_⟩, ?_, ?_, h.unread, h.eof, ?_, ?_⟩
  · rw [hbuf₁]
    simp
  · show c₁.pos + (w.length + 1) = _
    rw [hpos₁]
    simp [Nat.add_assoc]
  · show c₁.bufFilled = c₁.pos + (w.length + 1) + cur.length
    omega
  · by_cases hcur : cur = []
    · exact Or.inl hcur
    · have hline : Line (w ++ [space] ++ cur) := by
        simpa using h.line.resolve_left (by simp)
      exact Or.inr (hline.of_append hcur)
  · have htext : Text (w ++ [space] ++ (cur ++ file)) := by
      simpa using h.text
    exact htext.of_append

/-- The word of a command was found, and the arguments are behind it. -/
structure Word (c : Ctx) (pre cur file tail : Str) : Prop where
  room : c.pos + (c.curStr.length + 1) ≤ c.bufFilled
  zip : Zip { c with pos := c.pos + (c.curStr.length + 1) } pre [] cur file
  line : Line cur
  left : cur ++ file = tail

theorem Word.inc {tail : Str} (h : Word c pre cur file tail) (reason : String) :
    Runs (uciIncreasePos (c.curStr.length + 1) reason) c ()
      { c with pos := c.pos + (c.curStr.length + 1) } := by
  unfold uciIncreasePos
  refine .read ?_
  rw [if_neg (not_lt.2 h.room)]
  exact .write (.ret _ _)

theorem append_line {x : Str} {y z rest : Str} (hx : newline ∉ x)
    (h : x ++ y = z ++ newline :: rest) (hz : newline ∉ z) :
    ∃ z', z = x ++ z' ∧ y = z' ++ newline :: rest := by
  induction x generalizing z with
  | nil => exact ⟨z, rfl, h⟩
  | cons b x ih =>
    rw [List.mem_cons, not_or] at hx
    cases z with
    | nil =>
      rw [List.cons_append, List.nil_append, List.cons.injEq] at h
      exact absurd h.1.symm hx.1
    | cons a z =>
      rw [List.cons_append, List.cons_append, List.cons.injEq] at h
      rw [List.mem_cons, not_or] at hz
      obtain ⟨z', rfl, hy⟩ := ih hx.2 h.2 hz.2
      exact ⟨z', by rw [h.1, List.cons_append], hy⟩

/-- What is left to import. -/
structure Pending (c : Ctx) (rest : Str) : Prop where
  unread : c.file = rest
  eof : c.eof = false
  text : Text rest

/-- The next line is read. -/
theorem Pending.start {x rest : Str} (h : Pending c (x ++ newline :: rest)) (hnl : newline ∉ x) :
    Zip c.nextLine [] [] (x ++ [newline]) rest ∧ c.nextLine.char 0 ≠ 0 ∧
      c.nextLine.outer = c.outer := by
  obtain ⟨hz, hout⟩ := Zip.start h.unread h.eof hnl (h.unread ▸ h.text)
  refine ⟨hz, ?_, hout⟩
  have hpos : c.nextLine.pos = 0 := hz.pos
  have hcur := hz.cur_pos (by simp)
  rwa [Ctx.cur, hpos] at hcur

/-- A line that starts with a command, after a tab or not. -/
theorem Pending.word {lead w tail : Str} (h : Pending c (lead ++ (w ++ space :: tail)))
    (hlead : lead = [] ∨ lead = [tab]) (hne : w ≠ [])
    (hw : ∀ b ∈ w, isDelim b = false ∧ isspace b = false) :
    c.nextLine.char 0 ≠ 0 ∧ ∃ c₁ pre cur file,
      Runs strtok (Uci.skipWhitespace c.nextLine) (some w) c₁ ∧ Word c₁ pre cur file tail ∧
      c₁.outer = c.outer := by
  obtain ⟨x, rest, heq, hnl⟩ := h.text.split (by simp)
  have hnl' : newline ∉ lead ++ (w ++ [space]) := by
    have hw' : newline ∉ w := fun hm => absurd (hw _ hm).2 (by decide)
    have hsp : newline ≠ space := by decide
    have htab : newline ≠ tab := by decide
    rcases hlead with rfl | rfl <;> simp [hw', hsp, htab]
  obtain ⟨x, rfl, htail⟩ := append_line (y := tail) hnl' (by simpa using heq) hnl
  obtain ⟨hz, hchar, hout⟩ := (heq ▸ h).start hnl
  refine ⟨hchar, ?_⟩
  obtain ⟨b, w', rfl⟩ := List.exists_cons_of_ne_nil hne
  have hb := (hw b (by simp)).2
  have hskip : ∃ gap, Zip (Uci.skipWhitespace c.nextLine) [] gap
      ((b :: w') ++ space :: (x ++ [newline])) rest := by
    rcases hlead with rfl | rfl
    · have hz' : Zip c.nextLine [] [] ((b :: w') ++ space :: (x ++ [newline])) rest := by
        simpa using hz
      rw [hz'.skipWhitespace_eq hb]
      exact ⟨_, hz'⟩
    · have hz' : Zip c.nextLine [] [] (tab :: ((b :: w') ++ space :: (x ++ [newline]))) rest := by
        simpa using hz
      exact ⟨_, hz'.skipWhitespace (by decide) hb⟩
  obtain ⟨gap, hz'⟩ := hskip
  obtain ⟨c₁, htok, hout₁, hroom, hz₁⟩ := strtok_word hz' (by simp) fun b hb => (hw b hb).1
  refine ⟨c₁, _, x ++ [newline], rest, htok, ⟨hroom, hz₁, ⟨x, rfl, ?_⟩, ?_⟩,
    (hout₁.trans (skipWhitespace_outer _)).trans hout⟩
  · exact fun hm => hnl (List.mem_append_right _ hm)
  · rw [htail]
    simp

/-- From the state `c` the import comes to an end, with the given result. -/
def Done (single : Bool) (c : Ctx) (out : Outer) : Prop :=
  ∃ c', c'.outer = out ∧
    ∀ fuel, c.file.length + 1 < fuel → Runs (importLoop single fuel) c () c'

theorem Ctx.fuel_eq (c : Ctx) : c.fuel = c.bufFilled + 2 * c.file.length + 1 + 1 := rfl

/-- One turn of the import loop. -/
theorem importLoop_turn {single : Bool} {fuel : Nat} {c c₁ c' : Ctx} (heof : c.eof = false)
    (hline : Runs (if c.nextLine.char 0 ≠ 0 then uciParseLine single else pure ()) c.nextLine () c₁)
    (hrest : Runs (importLoop single fuel) c₁ () c') :
    Runs (importLoop single (fuel + 1)) c () c' := by
  unfold importLoop
  refine .read ?_
  rw [if_neg (by simp [heof])]
  exact .write (.seq (.protect hline) hrest)

/-- **A line with one command** is imported by this command. -/
theorem command_done {single : Bool} {w pre' gap' rest : Str} {c₁ c' : Ctx} {out : Outer}
    (htok : Runs strtok (skipWhitespace c.nextLine) (some w) c₁) (heof : c.eof = false) (hchar : c.nextLine.char 0 ≠ 0) (hw : w.head? ≠ some hash)
    (hcmd : Runs (runCommand single w) c₁ () c') (hend : Zip c' pre' gap' [] rest)
    (hlen : rest.length < c.file.length) (hdone : Done single c' out) : Done single c out := by
  obtain ⟨c'', hout, hrun⟩ := hdone
  refine ⟨c'', hout, fun fuel hfuel => ?_⟩
  obtain ⟨fuel, rfl⟩ : ∃ n, fuel = n + 1 := ⟨fuel - 1, by omega⟩
  refine importLoop_turn heof ?_ (hrun fuel (by rw [hend.unread]; omega))
  rw [if_pos hchar]
  unfold uciParseLine
  refine .update (.read ?_)
  rw [Ctx.fuel_eq]
  unfold parseLineLoop
  refine .seq htok ?_
  simp only [if_neg hw]
  refine .seq hcmd ?_
  unfold parseLineLoop
  exact .seq (strtok_none hend) (.ret _ _)

/-! ## Arguments of a command -/

section
variable {tail t v rest : Str}

/-- The zipper does not depend on the fields of the import. -/
theorem Zip.congr {c c' : Ctx} (h : Zip c pre gap cur file) (hbuf : c'.buf = c.buf)
    (hpos : c'.pos = c.pos) (hfilled : c'.bufFilled = c.bufFilled) (hfile : c'.file = c.file)
    (heof : c'.eof = c.eof) : Zip c' pre gap cur file :=
  ⟨hbuf ▸ h.buf, hpos.trans h.pos, by rw [hfilled, hpos]; exact h.filled, hfile.trans h.unread,
    heof.trans h.eof, h.line, h.text⟩

theorem Word.oneArg (required name package : Bool)
    (h : Word c pre cur file (t ++ newline :: rest)) (hlex : Lex t v) (hne : v ≠ [])
    (hname : name = true → uciValidateStr v name package = true) :
    ∃ c₃ ofs pre' gap', Runs (nextArg required name package)
        { c with pos := c.pos + (c.curStr.length + 1) } ofs c₃ ∧ c₃.str ofs = v ∧
      Zip c₃ pre' gap' [] rest ∧ c₃.outer = c.outer := by
  obtain ⟨c₃, gap', cur', file', hrun, hreads, hline⟩ :=
    nextArg_runs required name package hlex (hlex.ne_nil hne) (fun _ => hne) h.zip h.line h.left rfl
      hname
  have hnil : cur' = [] := by
    rcases hline.cons with ⟨-, hnil⟩ | ⟨hn, -⟩
    · exact hnil
    · exact absurd rfl hn
  subst hnil
  have hnz : 0 ∉ v := hlex.nz fun hm =>
    h.zip.text.nz (by rw [h.left]; exact List.mem_append_left _ hm)
  obtain rfl : file' = rest := hreads.left
  exact ⟨c₃, _, _, gap', hrun, hreads.zip.str hnz, hreads.zip, hreads.outer⟩

theorem Word.twoArgs (required name package required' name' package' : Bool) {t' v' : Str}
    (h : Word c pre cur file (t ++ space :: (t' ++ newline :: rest))) (hlex : Lex t v)
    (hne : v ≠ []) (hname : name = true → uciValidateStr v name package = true) (hlex' : Lex t' v')
    (ht' : t' ≠ []) (hne' : required' = true → v' ≠ [])
    (hname' : name' = true → uciValidateStr v' name' package' = true) :
    ∃ c₃ c₄ ofs ofs' pre' gap', Runs (nextArg required name package)
        { c with pos := c.pos + (c.curStr.length + 1) } ofs c₃ ∧ c₃.str ofs = v ∧
      Runs (nextArg required' name' package') c₃ ofs' c₄ ∧ c₄.str ofs = v ∧ c₄.str ofs' = v' ∧
      Zip c₄ pre' gap' [] rest ∧ c₄.outer = c.outer := by
  have htext := h.zip.text.nz
  rw [h.left] at htext
  have hnz : 0 ∉ v := hlex.nz fun hm => htext (by simp [hm])
  have hnz' : 0 ∉ v' := hlex'.nz fun hm => htext (by simp [hm])
  obtain ⟨c₃, gap₃, cur₃, file₃, hrun, hreads, hline⟩ :=
    nextArg_runs required name package hlex (hlex.ne_nil hne) (fun _ => hne) h.zip h.line h.left
      (by decide) hname
  obtain ⟨c₄, gap₄, cur₄, file₄, hrun', hreads', hline'⟩ :=
    nextArg_runs required' name' package' hlex' ht' hne' hreads.zip (hline.tail (by decide))
      hreads.left rfl hname'
  have hnil : cur₄ = [] := by
    rcases hline'.cons with ⟨-, hnil⟩ | ⟨hn, -⟩
    · exact hnil
    · exact absurd rfl hn
  subst hnil
  obtain rfl : file₄ = rest := hreads'.left
  have hz : Zip c₄ (pre ++ [] ++ v ++ 0 :: (gap₃ ++ v' ++ [0])) gap₄ [] file₄ := by
    simpa using hreads'.zip
  exact ⟨c₃, c₄, _, _, _, gap₄, hrun, hreads.zip.str hnz, hrun', hz.str hnz,
    hreads'.zip.str hnz', hreads'.zip, hreads'.outer.trans hreads.outer⟩

end

/-! ## Commands -/

section
variable {rest : Str}

/-- The package of a state, and the section to which options belong. -/
theorem outer_eq {c c' : Ctx} (h : c'.outer = c.outer) : c'.strict = c.strict ∧ c'.root = c.root ∧
    c'.name = c.name ∧ c'.package = c.package ∧ c'.sect = c.sect ∧ c'.merge = c.merge := by
  simpa [Ctx.outer] using h

theorem liftPackage_runs {α : Type} {f : Package → Except Err (Package × α)} {c : Ctx}
    {p p' : Package} {a : α} (hp : c.package = some p) (hf : f p = .ok (p', a)) :
    Runs (liftPackage f) c a { c with package := some p' } := by
  unfold liftPackage
  refine .read ?_
  rw [hp]
  simp only [hf]
  exact .write (.ret _ _)

/-- `option` or `list`. -/
theorem uciParseOption_runs (list : Bool) {t v name : Str} {p p' : Package} {s : Nat}
    (h : Word c pre cur file (name ++ space :: (t ++ newline :: rest)))
    (hplain : Lex name name) (hname : uciValidateName name = true) (hlex : Lex t v) (ht : t ≠ [])
    (hp : c.package = some p) (hs : c.sect = some s)
    (hset : putOption list (!c.merge) p
      { sect := some (p.sect s).name, option := some name, value := some v, s := some s,
        o := (p.sect s).lookup name, done := true } = .ok p') :
    ∃ c' pre' gap', Runs (uciParseOption list) c () c' ∧ Zip c' pre' gap' [] rest ∧
      c'.outer = (c.strict, c.root, c.name, some p', some s, c.merge) := by
  have hnil : name ≠ [] := by
    rintro rfl
    exact absurd hname (by decide)
  obtain ⟨c₃, c₄, ofs, ofs', pre', gap', hrun, -, hrun', hstr, hstr', hz, hout⟩ :=
    h.twoArgs true true false false false false hplain hnil (fun _ => hname) hlex ht (by simp)
      (by simp)
  obtain ⟨e1, e2, e3, e4, e5, e6⟩ := outer_eq hout
  refine ⟨{ c₄ with package := some p' }, pre', gap', ?_, hz.congr rfl rfl rfl rfl rfl, ?_⟩
  · unfold uciParseOption
    refine .read ?_
    rw [hs, if_neg (by simp)]
    refine .seq (h.inc _) (.seq hrun (.seq hrun' (.seq (assertEol_runs hz) (.read ?_))))
    rw [← e6] at hset
    have hsect : c₄.sect.getD 0 = s := by rw [e5, hs, Option.getD_some]
    simp only [hstr, hstr', hsect]
    refine liftPackage_runs (e4.trans hp) ?_
    rw [hset]
    rfl
  · simp only [Ctx.outer, e1, e2, e3, e5, e6, hs]

/-- `config` with a name. -/
theorem uciParseConfig_named {t name type : Str} {p p' : Package} {s : Option Nat}
    (h : Word c pre cur file (type ++ space :: (t ++ newline :: rest)))
    (hplain : Lex type type) (htype : uciValidateType type = true) (hlex : Lex t name)
    (hname : uciValidateName name = true) (hp : c.package = some p) (hnew : p.lookup name = none)
    (hset : uciSet (!c.merge) p { sect := some name, value := some type, done := true } =
      .ok (p', s)) :
    ∃ c' pre' gap', Runs uciParseConfig c () c' ∧ Zip c' pre' gap' [] rest ∧
      c'.outer = (c.strict, c.root, c.name, some p', s, c.merge) := by
  have hne : type ≠ [] := by
    rintro rfl
    exact absurd htype (by decide)
  have hne' : name ≠ [] := by
    rintro rfl
    exact absurd hname (by decide)
  obtain ⟨c₃, c₄, ofs, ofs', pre', gap', hrun, hstr₃, hrun', hstr, hstr', hz, hout⟩ :=
    h.twoArgs true false false false true false hplain hne (by simp) hlex (hlex.ne_nil hne')
      (by simp) (fun _ => hname)
  obtain ⟨e1, e2, e3, e4, e5, e6⟩ := outer_eq hout
  refine ⟨{ c₄ with package := some p', sect := s }, pre', gap', ?_,
    hz.congr rfl rfl rfl rfl rfl, ?_⟩
  · unfold uciParseConfig
    refine .read ?_
    rw [hp, if_neg (by simp)]
    refine .read (.seq (h.inc _) (.seq hrun (.read ?_)))
    rw [hstr₃, htype, if_neg (by simp)]
    refine .seq hrun' (.seq (assertEol_runs hz) (.read ?_))
    have hother : (c₄.package.any fun p => otherType p name type) = false := by
      simp [e4, hp, otherType, hnew]
    have hset' : uciSet (!c₄.merge) p
        { sect := some name, value := some type, s := p.lookup name, done := true } =
          .ok (p', s) := by
      rw [hnew, e6]
      exact hset
    simp only [hstr, hstr', if_neg hne', hother]
    rw [if_neg (by simp)]
    exact .seq (liftPackage_runs (e4.trans hp) hset') rfl
  · simp only [Ctx.outer, e1, e2, e3, e6]

/-- `config` without a name. -/
theorem uciParseConfig_anonymous {type : Str} {p : Package}
    (h : Word c pre cur file (type ++ newline :: rest)) (hplain : Lex type type)
    (htype : uciValidateType type = true) (hp : c.package = some p) :
    ∃ c' pre' gap', Runs uciParseConfig c () c' ∧ Zip c' pre' gap' [] rest ∧
      c'.outer = (c.strict, c.root, c.name, some (uciAddSection (!c.merge) p type),
        some p.sections.length, c.merge) := by
  have hne : type ≠ [] := by
    rintro rfl
    exact absurd htype (by decide)
  obtain ⟨c₃, ofs, pre', gap', hrun, hstr, hz, hout⟩ := h.oneArg true false false hplain hne (by simp)
  obtain ⟨hrun', hstr'⟩ := nextArg_none true false hz
  obtain ⟨e1, e2, e3, e4, e5, e6⟩ := outer_eq hout
  refine ⟨{ c₃ with
      package := some (uciAddSection (!c₃.merge) p type), sect := some p.sections.length },
    pre', gap', ?_, hz.congr rfl rfl rfl rfl rfl, by simp only [Ctx.outer, e1, e2, e3, e6]⟩
  unfold uciParseConfig
  refine .read ?_
  rw [hp, if_neg (by simp)]
  refine .read (.seq (h.inc _) (.seq hrun (.read ?_)))
  rw [hstr, htype, if_neg (by simp)]
  refine .seq hrun' (.seq (assertEol_runs hz) (.read ?_))
  simp only [hstr, hstr', if_true]
  exact .seq (liftPackage_runs (e4.trans hp) rfl) rfl

theorem uciSwitchConfig_runs {c : Ctx} {name : Str} (hp : c.package = none)
    (hn : c.name = some name) (hroot : ∀ q ∈ c.root, q.name ≠ name) :
    Runs uciSwitchConfig c () { c with package := some { name := name } } := by
  unfold uciSwitchConfig
  refine .read ?_
  simp only [hp]
  refine .write ?_
  simp only [hn]
  rw [if_neg (by simpa using hroot)]
  rfl

/-- The first section of a file without a `package` line opens the package. -/
theorem uciParseConfig_switch {c c' : Ctx} {name : Str} (hp : c.package = none)
    (hn : c.name = some name) (hroot : ∀ q ∈ c.root, q.name ≠ name)
    (h : Runs uciParseConfig { c with package := some { name := name } } () c') :
    Runs uciParseConfig c () c' := by
  unfold uciParseConfig at h ⊢
  refine .read ?_
  rw [hp, if_pos rfl, hn, if_neg (by simp)]
  exact .seq (uciSwitchConfig_runs hp hn hroot) h

/-- `package` -/
theorem uciParsePackage_runs (single : Bool) {name : Str}
    (h : Word c pre cur file (name ++ newline :: rest)) (hplain : Lex name name)
    (hname : uciValidateStr name true true = true) (hp : c.package = none)
    (hroot : ∀ q ∈ c.root, q.name ≠ name) :
    ∃ c' pre' gap', Runs (uciParsePackage single) c () c' ∧ Zip c' pre' gap' [] rest ∧
      c'.outer = if single then c.outer else
        (c.strict, c.root, some name, some { name := name }, c.sect, c.merge) := by
  have hne : name ≠ [] := by
    rintro rfl
    exact absurd hname (by decide)
  obtain ⟨c₃, ofs, pre', gap', hrun, hstr, hz, hout⟩ :=
    h.oneArg true true true hplain hne fun _ => hname
  obtain ⟨e1, e2, e3, e4, e5, e6⟩ := outer_eq hout
  have hargs : ∀ {c'}, Runs (do
      let c ← get
      if single = false then
        set { c with name := some (c.str ofs) }
        uciSwitchConfig) c₃ () c' → Runs (uciParsePackage single) c () c' := by
    intro c' hrest
    exact .read (.seq (h.inc _) (.seq hrun (.seq (assertEol_runs hz) hrest)))
  cases single with
  | true => exact ⟨c₃, pre', gap', hargs (.read (.ret _ _)), hz, hout⟩
  | false =>
    have hswitch : Runs uciSwitchConfig { c₃ with name := some (c₃.str ofs) } ()
        { c₃ with name := some (c₃.str ofs), package := some { name := c₃.str ofs } } := by
      refine uciSwitchConfig_runs (e4.trans hp) rfl ?_
      rw [hstr, show ({ c₃ with name := some name } : Ctx).root = c.root from e2]
      exact hroot
    refine ⟨_, pre', gap', hargs (.read (.write hswitch)), hz.congr rfl rfl rfl rfl rfl, ?_⟩
    simp only [Ctx.outer, e1, e2, e5, e6, hstr]
    rfl

end

end

/-! ## Escaping -/

theorem uciEscape_append (x y : Str) : uciEscape (x ++ y) = uciEscape x ++ uciEscape y := by
  induction x with
  | nil => rfl
  | cons b x ih =>
    simp only [List.cons_append, uciEscape, ih]
    split_ifs <;> simp

theorem uciEscape_eq {x : Str} (h : quote ∉ x) : uciEscape x = x := by
  induction x with
  | nil => rfl
  | cons b x ih =>
    rw [List.mem_cons, not_or] at h
    rw [uciEscape, if_neg (Ne.symm h.1), ih h.2]

/-- **A quoted value** is read back. -/
theorem lex_escape (v : Str) : Lex (quote :: (uciEscape v ++ [quote])) v := by
  by_cases hq : quote ∈ v
  · -- the first quote ends the quoted part, and is added behind a backslash
    obtain ⟨x, y, heq, hx⟩ := List.eq_append_cons_of_mem hq
    have hlen : y.length < v.length := by
      rw [heq]
      simp
      omega
    have hy := lex_escape y
    have hesc : uciEscape v = x ++ quote :: backslash :: quote :: quote :: uciEscape y := by
      rw [heq, uciEscape_append, uciEscape_eq hx, uciEscape, if_pos rfl]
      rfl
    have hlex : Lex (quote :: (x ++ quote :: (backslash :: quote ::
        (quote :: (uciEscape y ++ [quote]))))) (x ++ quote :: y) :=
      .quoted hx (.escaped (by decide) (by decide) (by decide) hy)
    rw [hesc, heq]
    simpa using hlex
  · rw [uciEscape_eq hq]
    simpa using Lex.quoted hq Lex.nil
termination_by v.length

theorem isspace_of_isalnum {b : UInt8} (h : isalnum b = true) : isspace b = false := by
  simp only [isalnum, isspace, Bool.or_eq_true, Bool.and_eq_true, decide_eq_true_eq,
    Bool.or_eq_false_iff, Bool.and_eq_false_iff, decide_eq_false_iff_not, beq_eq_false_iff_ne,
    ne_eq, UInt8.le_iff_toNat_le, ← UInt8.toNat_inj, UInt8.reduceToNat] at h ⊢
  omega

variable {str : Str} {package : Bool}

/-- A name consists of characters that stand for themselves. -/
theorem plain_of_validate
    (h : uciValidateStr str true package = true) : ∀ b ∈ str, Plain b := by
  intro b hb
  have hall : isalnum b = true ∨ b = underscore ∨ (b = minus ∧ package = true) := by
    simp only [uciValidateStr, Bool.and_eq_true, List.all_eq_true] at h
    simpa [or_assoc] using h.2 b hb
  have hne : ∀ k : UInt8, isalnum k = false → k ≠ underscore → k ≠ minus → b ≠ k := by
    rintro k h1 h2 h3 rfl
    rcases hall with h | h | h
    · rw [h1] at h
      cases h
    · exact h2 h
    · exact h3 h.1
  refine ⟨hne _ rfl (by decide) (by decide), hne _ rfl (by decide) (by decide),
    hne _ rfl (by decide) (by decide), hne _ rfl (by decide) (by decide),
    hne _ rfl (by decide) (by decide), hne _ rfl (by decide) (by decide), ?_⟩
  rcases hall with h | rfl | ⟨rfl, -⟩
  · exact isspace_of_isalnum h
  · decide
  · decide

theorem escape_of_validate
    (h : uciValidateStr str true package = true) : uciEscape str = str :=
  uciEscape_eq fun hm => (plain_of_validate h _ hm).2.1 rfl

theorem lex_of_validate
    (h : uciValidateStr str true package = true) : Lex str str := .of_plain (plain_of_validate h)

/-- A name is accepted as a type. -/
theorem validateType_of_name (h : uciValidateName str = true) :
    uciValidateType str = true := by
  simp only [uciValidateName, uciValidateType, uciValidateStr, Bool.and_eq_true,
    List.all_eq_true] at h ⊢
  refine ⟨h.1, fun b hb => ?_⟩
  have := h.2 b hb
  simp only [Bool.or_eq_true, Bool.and_false, Bool.true_or, Bool.not_true, Bool.or_false] at this ⊢
  exact Or.inl this

/-! ## What is exported -/

/-- A value that can be exported. -/
def Value.Ok : Value → Prop
  | .string str => str ≠ [] ∧ 0 ∉ str
  | .list items => items ≠ [] ∧ ∀ item ∈ items, item ≠ [] ∧ 0 ∉ item

/-- The form of the names that `uci_fixup_section` makes up. -/
def isGenerated (name : Str) : Prop :=
  ∃ digits : Str, digits ≠ [] ∧ (∀ b ∈ digits, isdigit b = true ∨ 97 ≤ b ∧ b ≤ 102) ∧
    name = [99, 102, 103] ++ digits

structure Sect.Ok (s : Sect) : Prop where
  type : uciValidateName s.type = true
  name : s.anonymous = false → uciValidateName s.name = true ∧ ¬ isGenerated s.name
  distinct : (s.options.map Opt.name).Nodup
  options : ∀ o ∈ s.options, uciValidateName o.name = true ∧ o.value.Ok

/-- A package that the text format can represent. -/
structure Package.Ok (p : Package) : Prop where
  name : uciValidateStr p.name true true = true
  sections : ∀ s ∈ p.sections, s.Ok
  distinct : ((p.sections.filter fun s => !s.anonymous).map Sect.name).Nodup

/-- What the text format represents of a section: its type, its name if it has
    one, and its options. -/
def Sect.view (s : Sect) : Str × Option Str × List Opt :=
  (s.type, if s.anonymous then none else some s.name, s.options)

/-! ## Importing what was exported -/

section
variable {c : Ctx} {single strict : Bool} {root : List Package} {nm : Option Str} {p p' : Package}
  {i : Nat} {rest : Str} {out : Outer}

theorem Zip.pending {pre gap file : Str} (h : Zip c pre gap [] file) : Pending c file :=
  ⟨h.unread, h.eof, by simpa using h.text⟩

theorem outer_fields {sect : Option Nat} {pkg : Option Package} {merge : Bool}
    (h : c.outer = (strict, root, nm, pkg, sect, merge)) :
    c.strict = strict ∧ c.root = root ∧ c.name = nm ∧ c.package = pkg ∧ c.sect = sect ∧
      c.merge = merge := by
  simpa [Ctx.outer] using h

/-- A line that is imported by one command. -/
theorem Pending.command {lead w tail : Str} {out' : Outer} (h : Pending c (lead ++ (w ++ space :: tail)))
    (hlead : lead = [] ∨ lead = [tab]) (hne : w ≠ [])
    (hw : ∀ b ∈ w, isDelim b = false ∧ isspace b = false) (hhash : w.head? ≠ some hash)
    (hlen : rest.length ≤ tail.length)
    (hcmd : ∀ {c₁ pre cur file}, Word c₁ pre cur file tail → c₁.outer = c.outer →
      ∃ c' pre' gap', Runs (runCommand single w) c₁ () c' ∧ Zip c' pre' gap' [] rest ∧
        c'.outer = out')
    (hrest : ∀ c', Pending c' rest → c'.outer = out' → Done single c' out) : Done single c out := by
  obtain ⟨hchar, c₁, pre, cur, file, htok, hword, hout⟩ := h.word hlead hne hw
  obtain ⟨c', pre', gap', hrun, hz, hout'⟩ := hcmd hword hout
  refine command_done htok h.eof hchar hhash hrun hz ?_ (hrest c' hz.pending hout')
  rw [h.unread]
  simp only [List.length_append, List.length_cons]
  omega

/-- A line for an option. -/
theorem put_done (list : Bool) {name v : Str}
    (h : Pending c (tab :: exportLine (if list then "list" else "option") name (some v) ++ rest))
    (hc : c.outer = (strict, root, nm, some p, some i, false)) (hname : uciValidateName name = true)
    (hput : putOption list true p
      { sect := some (p.sect i).name, option := some name, value := some v, s := some i,
        o := (p.sect i).lookup name, done := true } = .ok p')
    (hrest : ∀ c', Pending c' rest → c'.outer = (strict, root, nm, some p', some i, false) →
      Done single c' out) : Done single c out := by
  have hline : tab :: exportLine (if list then "list" else "option") name (some v) ++ rest =
      [tab] ++ (bytes (if list then "list" else "option") ++
        space :: (name ++ space :: (quote :: (uciEscape v ++ [quote]) ++ newline :: rest))) := by
    simp [exportLine, escape_of_validate hname]
  rw [hline] at h
  have hrun : runCommand single (bytes (if list then "list" else "option")) =
      uciParseOption list := by
    cases list <;> rfl
  refine h.command (Or.inr rfl) (by cases list <;> decide) (by cases list <;> decide)
    (by cases list <;> decide) (by simp; omega) ?_ hrest
  intro c₁ pre cur file hword hout
  obtain ⟨e1, e2, e3, e4, e5, e6⟩ := outer_fields (hout.trans hc)
  rw [hrun]
  have := uciParseOption_runs list hword (lex_of_validate hname) hname (lex_escape v) (by simp)
    e4 e5 (by rw [e6]; exact hput)
  rwa [e1, e2, e3, e6] at this

theorem modify_last {α : Type} (l : List α) (x : α) (f : α → α) :
    (l ++ [x]).modify l.length f = l ++ [f x] := by
  induction l with
  | nil => rfl
  | cons a l ih => simpa using ih

theorem findIdx_last {α : Type} {l : List α} {x : α} {f : α → Bool} (hl : ∀ a ∈ l, f a = false)
    (hx : f x = true) : (l ++ [x]).findIdx? f = some l.length := by
  rw [List.findIdx?_append, List.findIdx?_eq_none_iff.2 hl]
  simp [hx]

theorem record_internal (p : Package) (d : Delta) : p.record true d = p := by
  simp [Package.record]

/-- A package whose last section is being read. -/
def Package.reading (p : Package) (ss : List Sect) (s : Sect) : Package :=
  { p with sections := ss ++ [s] }

theorem reading_sect (p : Package) (ss : List Sect) (s : Sect) :
    (p.reading ss s).sect ss.length = s := by
  simp [Package.reading, Package.sect]

theorem reading_modSect (p : Package) (ss : List Sect) (s : Sect) (f : Sect → Sect) :
    (p.reading ss s).modSect ss.length f = p.reading ss (f s) := by
  simp [Package.reading, Package.modSect, modify_last]

section
variable (p : Package) (ss : List Sect) {s : Sect} (name : Str) {v : Str}

theorem put_string (hv : v ≠ []) (hnew : s.lookup name = none) :
    putOption false true (p.reading ss s)
      { sect := some s.name, option := some name, value := some v, s := some ss.length, o := none,
        done := true } =
      .ok (p.reading ss { s with options := s.options ++ [⟨name, .string v⟩] }) := by
  simp [putOption, uciSet, uciExpandPtr, setElement, reading_sect, reading_modSect, hnew, hv,
    record_internal, bind, Except.bind, Except.map, pure, Except.pure]

theorem put_list_new (s : Sect) (v : Str) :
    putOption true true (p.reading ss s)
      { sect := some s.name, option := some name, value := some v, s := some ss.length, o := none,
        done := true } =
      .ok (p.reading ss { s with options := s.options ++ [⟨name, .list [v]⟩] }) := by
  simp [putOption, uciAddList, uciExpandPtr, reading_modSect,
    record_internal, bind, Except.bind, pure, Except.pure]

theorem put_list_more (v : Str) {os : List Opt} {items : List Str}
    (hs : s.options = os ++ [⟨name, .list items⟩]) :
    putOption true true (p.reading ss s)
      { sect := some s.name, option := some name, value := some v, s := some ss.length,
        o := some os.length, done := true } =
      .ok (p.reading ss { s with options := os ++ [⟨name, .list (items ++ [v])⟩] }) := by
  simp [putOption, uciAddList, uciExpandPtr, Package.modOpt, reading_modSect, hs, modify_last,
    record_internal, bind, Except.bind, pure, Except.pure]

end

/-- An empty line. -/
theorem blank_done (h : Pending c (newline :: rest))
    (hrest : ∀ c', Pending c' rest → c'.outer = c.outer → Done single c' out) :
    Done single c out := by
  obtain ⟨hz, hchar, hout⟩ := Pending.start (x := []) h (by simp)
  have hz' := hz.skipWhitespace (by decide) (by decide)
  obtain ⟨c', hout', hrun⟩ :=
    hrest (skipWhitespace c.nextLine) hz'.pending ((skipWhitespace_outer _).trans hout)
  refine ⟨c', hout', fun fuel hfuel => ?_⟩
  obtain ⟨fuel, rfl⟩ : ∃ n, fuel = n + 1 := ⟨fuel - 1, by omega⟩
  rw [h.unread, List.length_cons] at hfuel
  refine importLoop_turn h.eof ?_ (hrun fuel (by rw [hz'.unread]; omega))
  rw [if_pos hchar]
  unfold uciParseLine
  refine .update (.read ?_)
  rw [Ctx.fuel_eq]
  unfold parseLineLoop
  exact .seq (strtok_none hz') (.ret _ _)

/-- The end of the file. -/
theorem end_done (h : Pending c []) : Done single c c.outer := by
  obtain ⟨heof, hchar, hout⟩ := nextLine_eof h.unread
  refine ⟨c.nextLine, hout, fun fuel hfuel => ?_⟩
  obtain ⟨fuel, rfl⟩ : ∃ n, fuel = n + 1 + 1 := ⟨fuel - 2, by omega⟩
  have hline : Runs (if c.nextLine.char 0 ≠ 0 then uciParseLine single else pure ()) c.nextLine ()
      c.nextLine := by
    rw [if_neg (by simp [hchar])]
    exact .ret _ _
  refine importLoop_turn h.eof hline ?_
  unfold importLoop
  refine .read ?_
  rw [heof]
  exact .ret _ _

section
variable {ss : List Sect} {s : Sect} {name v : Str}

theorem lookup_none {os : List Opt} (h : name ∉ os.map Opt.name) (hs : s.options = os) :
    s.lookup name = none := by
  rw [Sect.lookup, hs, List.findIdx?_eq_none_iff]
  intro o ho
  simp only [decide_eq_false_iff_not]
  rintro rfl
  exact h (List.mem_map_of_mem ho)

theorem lookup_last {os : List Opt} {o : Opt} (h : o.name ∉ os.map Opt.name)
    (hs : s.options = os ++ [o]) : s.lookup o.name = some os.length := by
  rw [Sect.lookup, hs]
  refine findIdx_last (fun a ha => ?_) (by simp)
  simp only [decide_eq_false_iff_not]
  intro he
  exact h (he ▸ List.mem_map_of_mem ha)

/-- The further items of a list. -/
theorem items_done {os : List Opt} (hname : uciValidateName name = true)
    (hnew : name ∉ os.map Opt.name) : ∀ {vs items : List Str} {s : Sect} {c : Ctx},
    s.options = os ++ [⟨name, .list items⟩] → (∀ v ∈ vs, v ≠ []) →
    Pending c (vs.flatMap (fun item => tab :: exportLine "list" name (some item)) ++ rest) →
    c.outer = (strict, root, nm, some (p.reading ss s), some ss.length, false) →
    (∀ c', Pending c' rest → c'.outer = (strict, root, nm,
      some (p.reading ss { s with options := os ++ [⟨name, .list (items ++ vs)⟩] }),
      some ss.length, false) → Done single c' out) → Done single c out
  | [], items, s, c, hs, _, h, hc, hrest => by
    refine hrest c h (hc.trans ?_)
    rw [List.append_nil, ← hs]
  | v :: vs, items, s, c, hs, hvs, h, hc, hrest => by
    rw [List.flatMap_cons, List.append_assoc] at h
    have hlook : s.lookup name = some os.length := lookup_last (o := ⟨name, .list items⟩) hnew hs
    have hput := put_list_more p ss name v hs
    rw [← hlook] at hput
    refine put_done true h hc hname (by rw [reading_sect]; exact hput) ?_
    intro c' h' hc'
    refine items_done hname hnew rfl (fun v hv => hvs v (by simp [hv])) h' hc' ?_
    intro c'' h'' hc''
    exact hrest c'' h'' (by simpa using hc'')

/-- **The options of a section.** -/
theorem options_done : ∀ {os : List Opt} {s : Sect} {c : Ctx},
    ((s.options ++ os).map Opt.name).Nodup →
    (∀ o ∈ os, uciValidateName o.name = true ∧ o.value.Ok) →
    Pending c (os.flatMap exportOption ++ rest) →
    c.outer = (strict, root, nm, some (p.reading ss s), some ss.length, false) →
    (∀ c', Pending c' rest → c'.outer = (strict, root, nm,
      some (p.reading ss { s with options := s.options ++ os }), some ss.length, false) →
      Done single c' out) → Done single c out
  | [], s, c, _, _, h, hc, hrest => hrest c h (by rw [List.append_nil]; exact hc)
  | o :: os, s, c, hnd, hok, h, hc, hrest => by
    have hnew : o.name ∉ s.options.map Opt.name := by
      rw [List.map_append, List.map_cons, List.nodup_append] at hnd
      exact fun hm => hnd.2.2 _ hm _ (by simp) rfl
    have hlook : s.lookup o.name = none := lookup_none hnew rfl
    obtain ⟨hname, hval⟩ := hok o (by simp)
    rw [List.flatMap_cons, List.append_assoc] at h
    -- the rest of the options, once this one has been read
    have hnext : ∀ c', Pending c' (os.flatMap exportOption ++ rest) →
        c'.outer = (strict, root, nm, some (p.reading ss { s with options := s.options ++ [o] }),
          some ss.length, false) → Done single c' out := by
      intro c' h' hc'
      refine options_done (by simpa using hnd) (fun o ho => hok o (by simp [ho])) h' hc' ?_
      intro c'' h'' hc''
      exact hrest c'' h'' (by simpa using hc'')
    obtain ⟨name, value⟩ := o
    cases value with
    | string v =>
      have hput := put_string p ss name hval.1 hlook
      exact put_done false h hc hname (by rw [reading_sect, hlook]; exact hput) hnext
    | list items =>
      obtain ⟨hne, hitems⟩ := hval
      obtain ⟨v, vs, rfl⟩ := List.exists_cons_of_ne_nil hne
      have hput := put_list_new p ss name s v
      simp only [exportOption, List.flatMap_cons, List.append_assoc] at h
      refine put_done true h hc hname (by rw [reading_sect, hlook]; exact hput) ?_
      intro c' h' hc'
      exact items_done hname hnew rfl (fun v hv => (hitems v (by simp [hv])).1) h' hc' hnext

end

/-- What becomes of a section: an unnamed one gets a new name. -/
def Package.importSect (q : Package) (s : Sect) : Package :=
  let name := if s.anonymous then uciFixupSection (q.nSection + 1) s.type else s.name
  { q with sections := q.sections ++ [{ s with name := name }], nSection := q.nSection + 1 }

theorem uciAddSection_internal (q : Package) (type : Str) : uciAddSection true q type =
    { q with nSection := q.nSection + 1 }.reading q.sections
      { name := uciFixupSection (q.nSection + 1) type, type := type, anonymous := true } := by
  simp [uciAddSection, record_internal, Package.reading]

theorem uciSet_section {q : Package} {name type : Str} (hname : name ≠ []) (htype : type ≠ [])
    (hval : uciValidateType type = true) :
    uciSet true q { sect := some name, value := some type, done := true } =
      .ok ({ q with nSection := q.nSection + 1 }.reading q.sections { name := name, type := type },
        some q.sections.length) := by
  simp [uciSet, uciExpandPtr, setElement, hname, htype, hval, record_internal, Package.reading, bind,
    Except.bind, pure, Except.pure]

/-- The package of the state is `q`, or the next section opens it. -/
def Opens (root : List Package) (nm : Option Str) (pkg : Option Package) (q : Package) : Prop :=
  pkg = some q ∨
    pkg = none ∧ nm = some q.name ∧ q = { name := q.name } ∧ ∀ r ∈ root, r.name ≠ q.name

theorem Word.open {pre cur file tail : Str} {pkg : Option Package} {q : Package} {sect : Option Nat}
    (h : Word c pre cur file tail) (hc : c.outer = (strict, root, nm, pkg, sect, false))
    (hq : Opens root nm pkg q) :
    ∃ c₁, Word c₁ pre cur file tail ∧ c₁.outer = (strict, root, nm, some q, sect, false) ∧
      ∀ c', Runs uciParseConfig c₁ () c' → Runs uciParseConfig c () c' := by
  rcases hq with rfl | ⟨rfl, rfl, hq, hroot⟩
  · exact ⟨c, h, hc, fun _ hrun => hrun⟩
  · obtain ⟨e1, e2, e3, e4, e5, e6⟩ := outer_fields hc
    refine ⟨{ c with package := some q }, ⟨h.room, h.zip.congr rfl rfl rfl rfl rfl, h.line, h.left⟩,
      by simp only [Ctx.outer, e1, e2, e3, e5, e6], fun c' hrun => ?_⟩
    rw [hq] at hrun
    exact uciParseConfig_switch e4 e3 (by rwa [e2]) hrun

/-- **A section with its options.** -/
theorem section_done {q : Package} {s : Sect} {pkg : Option Package} {sect : Option Nat} (hs : s.Ok)
    (hnew : s.anonymous = false → q.lookup s.name = none)
    (h : Pending c (exportSection false s ++ rest))
    (hc : c.outer = (strict, root, nm, pkg, sect, false)) (hq : Opens root nm pkg q)
    (hrest : ∀ c', Pending c' rest →
      c'.outer = (strict, root, nm, some (q.importSect s), some q.sections.length, false) →
      Done single c' out) : Done single c out := by
  have htype := validateType_of_name hs.type
  have hne : s.type ≠ [] := by
    intro hnil
    exact absurd hs.type (by rw [hnil]; decide)
  have hesc := escape_of_validate hs.type
  rw [exportSection, List.cons_append, List.cons_append, List.append_assoc] at h
  refine blank_done h fun c₁ h₁ hc₁ => ?_
  replace hc₁ := hc₁.trans hc
  -- the options, once the section has been opened
  have hnext : ∀ {name : Str}, q.importSect s =
      { q with nSection := q.nSection + 1 }.reading q.sections { s with name := name } →
      ∀ c', Pending c' (s.options.flatMap exportOption ++ rest) →
        c'.outer = (strict, root, nm, some ({ q with nSection := q.nSection + 1 }.reading q.sections
          { s with name := name, options := [] }), some q.sections.length, false) →
        Done single c' out := by
    intro name hq c' h' hc'
    refine options_done (by simpa using hs.distinct) hs.options h' hc' fun c'' h'' hc'' => ?_
    refine hrest c'' h'' (hc''.trans ?_)
    rw [hq, List.nil_append]
  have hconfig : runCommand single (bytes "config") = uciParseConfig := rfl
  cases hanon : s.anonymous with
  | true =>
    have hline : exportLine "config" s.type
        (if s.anonymous = false ∨ false = true then some s.name else none) ++
        (s.options.flatMap exportOption ++ rest) = [] ++ (bytes "config" ++
          space :: (s.type ++ newline :: (s.options.flatMap exportOption ++ rest))) := by
      simp [exportLine, hesc, hanon]
    rw [hline] at h₁
    have hopt : q.importSect s = { q with nSection := q.nSection + 1 }.reading q.sections
        { s with name := uciFixupSection (q.nSection + 1) s.type } := by
      simp [Package.importSect, Package.reading, hanon]
    have hsect : ({ s with name := uciFixupSection (q.nSection + 1) s.type, options := [] } : Sect) =
        { name := uciFixupSection (q.nSection + 1) s.type, type := s.type, anonymous := true } := by
      rw [hanon]
    refine h₁.command (Or.inl rfl) (by decide) (by decide) (by decide) (by simp; omega) ?_
      (hnext hopt)
    intro c₂ pre cur file hword hout
    obtain ⟨c₃, hword, hout, hopen⟩ := hword.open (hout.trans hc₁) hq
    obtain ⟨e1, e2, e3, e4, e5, e6⟩ := outer_fields hout
    obtain ⟨c', pre', gap', hrun, hz, hout'⟩ :=
      uciParseConfig_anonymous hword (lex_of_validate hs.type) htype e4
    rw [e1, e2, e3, e6, Bool.not_false, uciAddSection_internal] at hout'
    rw [hconfig, hsect]
    exact ⟨c', pre', gap', hopen c' hrun, hz, hout'⟩
  | false =>
    obtain ⟨hname, -⟩ := hs.name hanon
    have hne' : s.name ≠ [] := by
      intro hnil
      exact absurd hname (by rw [hnil]; decide)
    have hline : exportLine "config" s.type
        (if s.anonymous = false ∨ false = true then some s.name else none) ++
        (s.options.flatMap exportOption ++ rest) = [] ++ (bytes "config" ++
          space :: (s.type ++ space :: (quote :: (uciEscape s.name ++ [quote]) ++
            newline :: (s.options.flatMap exportOption ++ rest)))) := by
      simp [exportLine, hesc, hanon]
    rw [hline] at h₁
    have hopt : q.importSect s = { q with nSection := q.nSection + 1 }.reading q.sections
        { s with name := s.name } := by
      have hkeep : (if s.anonymous = true then uciFixupSection (q.nSection + 1) s.type else s.name) =
          s.name := if_neg (by simp [hanon])
      simp only [Package.importSect, hkeep]
      rfl
    have hsect : ({ s with name := s.name, options := [] } : Sect) =
        { name := s.name, type := s.type } := by
      rw [hanon]
    refine h₁.command (Or.inl rfl) (by decide) (by decide) (by decide) (by simp; omega) ?_
      (hnext hopt)
    intro c₂ pre cur file hword hout
    obtain ⟨c₃, hword, hout, hopen⟩ := hword.open (hout.trans hc₁) hq
    obtain ⟨e1, e2, e3, e4, e5, e6⟩ := outer_fields hout
    obtain ⟨c', pre', gap', hrun, hz, hout'⟩ :=
      uciParseConfig_named hword (lex_of_validate hs.type) htype (lex_escape s.name)
        hname e4 (hnew hanon) (by rw [e6]; exact uciSet_section hne' hne htype)
    rw [e1, e2, e3, e6] at hout'
    rw [hconfig, hsect]
    exact ⟨c', pre', gap', hopen c' hrun, hz, hout'⟩

/-! ## Whole packages -/

theorem hexDigit_form {d : Nat} (h : d < 16) :
    isdigit (hexDigit d) = true ∨ 97 ≤ hexDigit d ∧ hexDigit d ≤ 102 := by
  have hall : ∀ d < 16, isdigit (hexDigit d) = true ∨ 97 ≤ hexDigit d ∧ hexDigit d ≤ 102 := by
    decide
  exact hall d h

theorem hex_form (width n : Nat) : ∀ b ∈ hex width n, isdigit b = true ∨ 97 ≤ b ∧ b ≤ 102 := by
  intro b hb
  rcases List.mem_append.1 hb with hb | hb
  · rw [List.eq_of_mem_replicate hb]
    exact Or.inl rfl
  · obtain ⟨d, hd, rfl⟩ := List.mem_map.1 (List.mem_reverse.1 hb)
    exact hexDigit_form (Nat.digits_lt_base (by omega) hd)

theorem isGenerated_fixup (n : Nat) (type : Str) : isGenerated (uciFixupSection n type) := by
  refine ⟨hex 2 n ++ hex 4 ((djbhash none type).toNat % 65536), ?_, ?_, ?_⟩
  · simp only [hex, ne_eq, List.append_eq_nil_iff, List.replicate_eq_nil_iff, not_and]
    rintro ⟨h1, h2⟩
    rw [h2] at h1
    simp at h1
  · intro b hb
    rcases List.mem_append.1 hb with hb | hb <;> exact hex_form _ _ b hb
  · rw [uciFixupSection, List.append_assoc]

/-- The sections of a package and the last one that was opened. -/
def Package.importSects (q : Package) (sect : Option Nat) (todo : List Sect) :
    Package × Option Nat :=
  todo.foldl (fun r s => (r.1.importSect s, some r.1.sections.length)) (q, sect)

theorem importSects_view {todo : List Sect} : ∀ {q : Package} {sect : Option Nat},
    (q.importSects sect todo).1.sections.map Sect.view =
      q.sections.map Sect.view ++ todo.map Sect.view := by
  induction todo with
  | nil =>
    intro q sect
    simp [Package.importSects]
  | cons s todo ih =>
    intro q sect
    have hview : (q.importSect s).sections.map Sect.view = q.sections.map Sect.view ++ [s.view] := by
      cases hanon : s.anonymous <;> simp [Package.importSect, Sect.view, hanon]
    calc (q.importSects sect (s :: todo)).1.sections.map Sect.view
        = ((q.importSect s).importSects (some q.sections.length) todo).1.sections.map Sect.view := rfl
      _ = (q.importSect s).sections.map Sect.view ++ todo.map Sect.view := ih
      _ = q.sections.map Sect.view ++ (s :: todo).map Sect.view := by simp [hview]

theorem importSects_name {todo : List Sect} : ∀ {q : Package} {sect : Option Nat},
    (q.importSects sect todo).1.name = q.name := by
  induction todo with
  | nil => intros; rfl
  | cons s todo ih => exact fun {_ _} => ih

/-- The names of the further sections stay unused. -/
theorem importSect_new {q : Package} {s t : Sect} (ht : t.Ok) (hanon : t.anonymous = false)
    (hne : s.anonymous = false → s.name ≠ t.name) (hnew : q.lookup t.name = none) :
    (q.importSect s).lookup t.name = none := by
  have hlast : (if s.anonymous then uciFixupSection (q.nSection + 1) s.type else s.name) ≠
      t.name := by
    cases hs : s.anonymous with
    | true =>
      intro he
      exact (ht.name hanon).2 (he ▸ isGenerated_fixup _ _)
    | false => exact hne hs
  rw [Package.lookup, List.findIdx?_eq_none_iff] at hnew ⊢
  intro x hx
  rcases List.mem_append.1 hx with hx | hx
  · exact hnew x hx
  · rw [List.mem_singleton.1 hx]
    simpa using hlast

/-- **The sections of a package.** -/
theorem sections_done : ∀ {todo : List Sect} {q : Package} {pkg : Option Package}
    {sect : Option Nat} {c : Ctx}, (∀ s ∈ todo, s.Ok) →
    ((todo.filter fun s => !s.anonymous).map Sect.name).Nodup →
    (∀ s ∈ todo, s.anonymous = false → q.lookup s.name = none) →
    Pending c (todo.flatMap (exportSection false) ++ [newline]) →
    c.outer = (strict, root, nm, pkg, sect, false) → Opens root nm pkg q →
    Done single c (strict, root, nm, if todo = [] then pkg else some (q.importSects sect todo).1,
      (q.importSects sect todo).2, false)
  | [], q, pkg, sect, c, _, _, _, h, hc, _ => by
    refine blank_done h fun c' h' hc' => ?_
    have hdone : Done single c' c'.outer := end_done h'
    rw [hc', hc] at hdone
    rw [if_pos rfl]
    exact hdone
  | s :: todo, q, pkg, sect, c, hok, hnd, hnew, h, hc, hq => by
    rw [List.flatMap_cons, List.append_assoc] at h
    have hdiff : ∀ t ∈ todo, t.anonymous = false → s.anonymous = false → s.name ≠ t.name := by
      intro t ht hanon hs he
      rw [List.filter_cons_of_pos (by simp [hs]), List.map_cons, List.nodup_cons] at hnd
      refine hnd.1 ?_
      rw [he]
      exact List.mem_map_of_mem (List.mem_filter.2 ⟨ht, by simp [hanon]⟩)
    have hnd' : ((todo.filter fun s => !s.anonymous).map Sect.name).Nodup :=
      hnd.sublist (((List.sublist_cons_self s todo).filter _).map _)
    refine section_done (hok s (by simp)) (hnew s (by simp)) h hc hq fun c' h' hc' => ?_
    have hrest := sections_done (fun t ht => hok t (by simp [ht])) hnd'
      (fun t ht hanon => importSect_new (hok t (by simp [ht])) hanon (hdiff t ht hanon)
        (hnew t (by simp [ht]) hanon)) h' hc' (Or.inl rfl)
    rw [if_neg (by simp)]
    cases todo with
    | nil => exact hrest
    | cons t todo => exact hrest

theorem escape_nz {v : Str} (h : 0 ∉ v) : 0 ∉ uciEscape v := by
  induction v with
  | nil => exact h
  | cons b v ih =>
    rw [List.mem_cons, not_or] at h
    rw [uciEscape]
    split_ifs
    · rw [List.mem_append, not_or]
      exact ⟨by decide, ih h.2⟩
    · rw [List.mem_cons, not_or]
      exact ⟨h.1, ih h.2⟩

theorem nz_of_validate (h : uciValidateStr str true package = true) :
    0 ∉ str := fun hm => absurd rfl (plain_of_validate h _ hm).1

theorem exportLine_nz {cmd : String} {arg : Str} {quoted : Option Str} (hcmd : 0 ∉ bytes cmd)
    (harg : 0 ∉ arg) (hquoted : ∀ str, quoted = some str → 0 ∉ str) :
    0 ∉ exportLine cmd arg quoted := by
  have h1 : (0 : UInt8) ∉ [space] := by decide
  have h2 : (0 : UInt8) ∉ [newline] := by decide
  have h3 : (0 : UInt8) ∉ [space, quote] := by decide
  have h4 : (0 : UInt8) ∉ [quote] := by decide
  cases quoted with
  | none => simp only [exportLine, List.mem_append, hcmd, h1, h2, escape_nz harg, List.not_mem_nil,
      or_self, not_false_eq_true]
  | some str => simp only [exportLine, List.mem_append, hcmd, h1, h2, h3, h4, escape_nz harg,
      escape_nz (hquoted str rfl), or_self, not_false_eq_true]

theorem exportOption_nz {o : Opt} (hname : uciValidateName o.name = true) (hok : o.value.Ok) :
    0 ∉ exportOption o := by
  have hline : ∀ {cmd : String} {v : Str}, 0 ∉ bytes cmd → 0 ∉ v →
      0 ∉ tab :: exportLine cmd o.name (some v) := by
    intro cmd v hcmd hv
    rw [List.mem_cons, not_or]
    refine ⟨by decide, exportLine_nz hcmd (nz_of_validate hname) ?_⟩
    rintro _ ⟨⟩
    exact hv
  obtain ⟨name, value⟩ := o
  cases value with
  | string v => exact hline (by decide) hok.2
  | list items =>
    simp only [exportOption, List.mem_flatMap, not_exists, not_and]
    exact fun item hitem => hline (by decide) (hok.2 item hitem).2

theorem exportSection_nz {s : Sect} (h : s.Ok) : 0 ∉ exportSection false s := by
  rw [exportSection, List.cons_append, List.mem_cons, List.mem_append, List.mem_flatMap]
  rintro (hm | hm | ⟨o, ho, hm⟩)
  · exact absurd hm (by decide)
  · refine exportLine_nz (by decide) (nz_of_validate h.type) ?_ hm
    intro str hstr
    by_cases hanon : s.anonymous = false
    · rw [if_pos (Or.inl hanon), Option.some.injEq] at hstr
      exact hstr ▸ nz_of_validate (h.name hanon).1
    · rw [if_neg (by simpa using hanon)] at hstr
      cases hstr
  · exact exportOption_nz (h.options o ho).1 (h.options o ho).2 hm

/-- An exported package is a text. -/
theorem Package.Ok.text {p : Package} (h : p.Ok) (header : Bool) :
    Text (uciExportPackage false header p) := by
  refine ⟨?_, fun _ => by simp [uciExportPackage]⟩
  rw [uciExportPackage, List.mem_append, List.mem_append, List.mem_flatMap]
  rintro ((hm | ⟨s, hs, hm⟩) | hm)
  · split_ifs at hm
    · exact exportLine_nz (by decide) (nz_of_validate h.name) (by simp) hm
    · cases hm
  · exact exportSection_nz (h.sections s hs) hm
  · exact absurd hm (by decide)

/-- What the import of a package makes of it. -/
def Package.imported (p : Package) : Package :=
  (({ name := p.name } : Package).importSects none p.sections).1

/-- The import of a package that was exported, from the first line on. -/
theorem Package.Ok.done {p : Package} (h : p.Ok) {header single : Bool} {name : Option Str}
    (hname : name = some p.name ∨ header = true ∧ single = false)
    (hp : Pending c (uciExportPackage false header p))
    (hroot : ∀ q ∈ root, q.name ≠ p.name) (hc : c.outer = (strict, root, name, none, none, false)) :
    ∃ pkg sect, Done single c (strict, root, some p.name, pkg, sect, false) ∧
      (pkg = some p.imported ∨ pkg = none ∧ name ≠ none ∧ p.imported = { name := p.name }) := by
  -- the sections, once the package has been opened or not
  have hsects : ∀ {pkg c}, Pending c (p.sections.flatMap (exportSection false) ++ [newline]) →
      c.outer = (strict, root, some p.name, pkg, none, false) →
      (pkg = some { name := p.name } ∨ pkg = none) →
      Done single c (strict, root, some p.name, if p.sections = [] then pkg else some p.imported,
        (({ name := p.name } : Package).importSects none p.sections).2, false) := by
    intro pkg c hp hc hpkg
    refine sections_done h.sections h.distinct (fun _ _ _ => rfl) hp hc ?_
    rcases hpkg with rfl | rfl
    · exact Or.inl rfl
    · exact Or.inr ⟨rfl, rfl, rfl, hroot⟩
  have hempty : p.sections = [] → p.imported = { name := p.name } := by
    intro hnil
    rw [Package.imported, hnil]
    rfl
  cases header with
  | false =>
    obtain rfl : name = some p.name := by simpa using hname
    refine ⟨_, _, hsects (by simpa [uciExportPackage] using hp) hc (Or.inr rfl), ?_⟩
    split_ifs with hnil
    · exact Or.inr ⟨rfl, by simp, hempty hnil⟩
    · exact Or.inl rfl
  | true =>
    have hline : uciExportPackage false true p = [] ++ (bytes "package" ++ space :: (p.name ++
        newline :: (p.sections.flatMap (exportSection false) ++ [newline]))) := by
      simp [uciExportPackage, exportLine, escape_of_validate h.name]
    rw [hline] at hp
    have hrun : runCommand single (bytes "package") = uciParsePackage single := rfl
    have hdone : Done single c (strict, root, some p.name,
        if p.sections = [] then (if single then none else some { name := p.name })
          else some p.imported,
        (({ name := p.name } : Package).importSects none p.sections).2, false) := by
      refine hp.command (Or.inl rfl) (by decide) (by decide) (by decide) (by simp; omega) ?_
        fun c' hp' hc' => hsects hp' hc' (by cases single <;> simp)
      intro c₁ pre cur file hword hout
      obtain ⟨e1, e2, e3, e4, e5, e6⟩ := outer_fields (hout.trans hc)
      obtain ⟨c', pre', gap', hrun', hz, hout'⟩ :=
        uciParsePackage_runs single hword (lex_of_validate h.name) h.name e4 (by rwa [e2])
      refine ⟨c', pre', gap', hrun ▸ hrun', hz, hout'.trans ?_⟩
      rw [e1, e2, e5, e6, hout, hc]
      cases single with
      | true =>
        obtain rfl : name = some p.name := by simpa using hname
        rfl
      | false => rfl
    refine ⟨_, _, hdone, ?_⟩
    split_ifs with hnil hsingle
    · obtain rfl : name = some p.name := by simpa [hsingle] using hname
      exact Or.inr ⟨rfl, by simp, hempty hnil⟩
    · exact Or.inl (by rw [hempty hnil])
    · exact Or.inl rfl

theorem validatePackage_of_name (h : uciValidateStr str true true = true) :
    uciValidatePackage str = true := by
  simp only [uciValidatePackage, uciValidateStr, Bool.and_eq_true, List.all_eq_true] at h ⊢
  refine ⟨h.1, fun b hb => ?_⟩
  have := h.2 b hb
  simp only [Bool.or_eq_true, Bool.true_or, Bool.not_true, Bool.or_false] at this ⊢
  exact Or.inl this

/-- The import ends with the package in the context. -/
theorem uciSwitchConfig_last {c : Ctx} (hp : c.package = some p) (hn : c.name = none) :
    Runs uciSwitchConfig c () { c with root := c.root ++ [p], package := none, sect := none } := by
  unfold uciSwitchConfig
  refine .read ?_
  simp only [hp]
  refine .write ?_
  simp only [hn]
  exact .ret _ _

end

/-- **What `uci_export` writes, `uci_import` reads back**: the sections in their order, with their
    types, names and options, whatever bytes the values consist of. -/
theorem uciImport_export {p : Package} (h : p.Ok) {header single : Bool} {name : Option Str}
    (hname : name = some p.name ∨ name = none ∧ header = true ∧ single = false) {c : Ctx}
    (hroot : ∀ q ∈ c.root, q.name ≠ p.name) :
    ∃ p' c', Runs (uciImport (uciExportPackage false header p) name none single) c (some p') c' ∧
      c'.root = c.root ++ [p'] ∧ p'.name = p.name ∧
      p'.sections.map Sect.view = p.sections.map Sect.view := by
  set stream := uciExportPackage false header p with hstream
  let c₀ : Ctx := { strict := c.strict, root := c.root, file := stream, name := name }
  obtain ⟨pkg, sect, ⟨c₁, hout, hrun⟩, hpkg⟩ :=
    h.done (c := c₀) (hname.imp_right And.right) ⟨rfl, rfl, h.text header⟩ hroot rfl
  obtain ⟨e1, e2, e3, e4, e5, e6⟩ := outer_fields hout
  -- the package is opened at the end if there was no section
  have hlast : ∃ c₂, Runs (if c₁.package = none ∧ name ≠ none then uciSwitchConfig else pure ())
      c₁ () c₂ ∧ c₂.package = some p.imported ∧ c₂.root = c.root := by
    rcases hpkg with rfl | ⟨rfl, hne, heq⟩
    · rw [if_neg (by simp [e4])]
      exact ⟨c₁, .ret _ _, e4, e2⟩
    · rw [if_pos ⟨e4, hne⟩, heq]
      exact ⟨_, uciSwitchConfig_runs e4 e3 (by rwa [e2]), rfl, e2⟩
  obtain ⟨c₂, hrun₂, hp₂, hroot₂⟩ := hlast
  refine ⟨p.imported, { c₂ with
    root := c₂.root ++ [p.imported], package := none, sect := none, name := none }, ?_, ?_, ?_, ?_⟩
  · have hloop : Runs (importLoop single (stream.length + 2)) c₀ () c₁ :=
      hrun _ (Nat.lt_succ_self _)
    have hswitch : Runs uciSwitchConfig { c₂ with name := none } () { c₂ with
        root := c₂.root ++ [p.imported], package := none, sect := none, name := none } :=
      uciSwitchConfig_last hp₂ rfl
    unfold uciImport
    refine .update ?_
    rcases hname with rfl | ⟨rfl, -⟩
    · simp only []
      rw [if_neg (by simp [validatePackage_of_name h.name])]
      refine .update ?_
      refine .seq hloop (.read (.guarded hrun₂ (.read (.write (.seq hswitch ?_)))))
      rw [hp₂]
      exact .ret _ _
    · refine .seq hloop (.read (.guarded hrun₂ (.read (.write (.seq hswitch ?_)))))
      rw [hp₂]
      exact .ret _ _
  · exact congrArg (· ++ [p.imported]) hroot₂
  · exact importSects_name
  · exact importSects_view

/-- A package with a value that has to be quoted, of two lines. -/
def quoted : Package :=
  { name := bytes "net-work"
    sections := [
      { name := bytes "lan", type := bytes "interface",
        options := [⟨bytes "descr", .string (bytes "it's \"a\" # b; \\ \n\t c")⟩,
          ⟨bytes "dns", .list [bytes "'", bytes "10.0.0.1"]⟩] },
      { name := [], type := bytes "route", anonymous := true }] }

theorem quoted_ok : quoted.Ok := by
  refine ⟨by decide, ?_, by decide⟩
  intro s hs
  simp only [quoted, List.mem_cons, List.not_mem_nil, or_false] at hs
  rcases hs with rfl | rfl
  · refine ⟨by decide, fun _ => ⟨by decide, ?_⟩, by decide, ?_⟩
    · rintro ⟨digits, -, -, heq⟩
      have hhead : (some 108 : Option UInt8) = some 99 := congrArg List.head? heq
      exact absurd hhead (by decide)
    · intro o ho
      simp only [List.mem_cons, List.not_mem_nil, or_false] at ho
      rcases ho with rfl | rfl
      · exact ⟨by decide, by decide, by decide⟩
      · exact ⟨by decide, by decide, by decide⟩
  · exact ⟨by decide, by simp, by decide, by simp⟩

theorem uciImport_export_quoted : ∃ p' c',
    Runs (uciImport (uciExportPackage false true quoted) none none false) {} (some p') c' ∧
      c'.root = [] ++ [p'] ∧ p'.name = quoted.name ∧
      p'.sections.map Sect.view = quoted.sections.map Sect.view :=
  uciImport_export quoted_ok (Or.inr ⟨rfl, rfl, rfl⟩) (by simp)

end Uci
