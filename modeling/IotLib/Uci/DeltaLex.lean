/-
  The lines of a delta file: a change that was saved is read as this change, and
  a file of such lines is executed line by line.
-/
import IotLib.Uci.Delta
import IotLib.Uci.RoundTrip

namespace Uci

open Exec

/-! ## The line of a change -/

/-- The element of a change. -/
def Delta.ptr (d : Delta) : Ptr := { sect := some d.sect, option := d.option, value := d.value }

/-- The names and the value of a change are valid, and the command has its arguments. -/
structure Delta.Form (d : Delta) : Prop where
  sect : uciValidateName d.sect = true
  option : d.option.all uciValidateName = true
  text : d.value.all uciValidateText = true
  value : d.cmd ≠ .remove → d.value ≠ none
  reorder : d.cmd = .reorder → d.option = none
  rename : d.cmd = .rename → d.value.all uciValidateName = true
  list : d.cmd = .listAdd ∨ d.cmd = .listDel → d.option ≠ none

/-- A line can be read back. A change of a value has no character of its own, so the name of the
    package must not look like one. -/
structure Delta.Ok (name : Str) (d : Delta) : Prop extends d.Form where
  char : d.cmd = .change → name.head? ≠ some minus

/-- The names of an element. -/
def Delta.front (name : Str) (d : Delta) : Str :=
  name ++ dot :: (d.sect ++ d.option.elim [] fun option => dot :: option)

/-- The names and the value. -/
def Delta.path (name : Str) (d : Delta) : Str :=
  d.front name ++ d.value.elim [] fun value => equals :: value

section
variable {x y : Str} {sep : UInt8}

theorem ne_sep (hx : sep ∉ x) : ∀ b ∈ x, decide (b ≠ sep) = true := by
  intro b hb
  rw [decide_eq_true_eq]
  rintro rfl
  exact hx hb

theorem takeWhile_sep (hx : sep ∉ x) : (x ++ sep :: y).takeWhile (· ≠ sep) = x := by
  rw [List.takeWhile_append_of_pos (ne_sep hx)]
  simp

theorem dropWhile_sep (hx : sep ∉ x) : (x ++ sep :: y).dropWhile (· ≠ sep) = sep :: y := by
  rw [List.dropWhile_append_of_pos (ne_sep hx)]
  simp

theorem takeWhile_all (hx : sep ∉ x) : x.takeWhile (· ≠ sep) = x :=
  List.takeWhile_eq_self_iff.2 (ne_sep hx)

theorem strsep_sep (hx : sep ∉ x) : strsep sep (some (x ++ sep :: y)) = (some x, some y) := by
  rw [strsep, takeWhile_sep hx, dropWhile_sep hx, if_pos (by simp)]
  rfl

theorem strsep_last (hx : sep ∉ x) : strsep sep (some x) = (some x, none) := by
  rw [strsep, takeWhile_all hx, if_neg hx]

end

theorem not_mem_of_validate {str : Str} {package : Bool} {b : UInt8}
    (h : uciValidateStr str true package = true) (h1 : isalnum b = false) (h2 : b ≠ underscore)
    (h3 : b ≠ minus) : b ∉ str := by
  intro hm
  simp only [uciValidateStr, Bool.and_eq_true, List.all_eq_true] at h
  have hb := h.2 b hm
  simp [h1, h2, h3] at hb

section
variable {name : Str} {d : Delta}

theorem front_equals (hname : uciValidateStr name true true = true) (hd : d.Form) :
    equals ∉ d.front name := by
  have hne : equals ≠ dot := by decide
  have h1 : equals ∉ name := not_mem_of_validate hname (by decide) (by decide) (by decide)
  have h2 : equals ∉ d.sect := not_mem_of_validate hd.sect (by decide) (by decide) (by decide)
  have hopt := hd.option
  rw [Delta.front]
  cases ho : d.option with
  | none => simp [h1, h2, hne]
  | some o =>
    rw [ho] at hopt
    have h3 : equals ∉ o := not_mem_of_validate hopt (by decide) (by decide) (by decide)
    simp [h1, h2, h3, hne]

/-- **`uci_parse_ptr`** finds the parts of an element. -/
theorem uciParsePtr_path (hname : uciValidateStr name true true = true) (hd : d.Form) :
    uciParsePtr (d.path name) = .ok (name, d.ptr, false) := by
  have heq := front_equals hname hd
  have h1 : dot ∉ name := not_mem_of_validate hname (by decide) (by decide) (by decide)
  have h2 : dot ∉ d.sect := not_mem_of_validate hd.sect (by decide) (by decide) (by decide)
  have hpkg := validatePackage_of_name hname
  have htake : (d.path name).takeWhile (· ≠ equals) = d.front name := by
    rw [Delta.path]
    cases d.value with
    | none => rw [Option.elim_none, List.append_nil, takeWhile_all heq]
    | some v => exact takeWhile_sep heq
  have hval : (if equals ∈ d.path name then
      some (((d.path name).dropWhile (· ≠ equals)).drop 1) else none) = d.value := by
    rw [Delta.path]
    cases d.value with
    | none => rw [Option.elim_none, List.append_nil, if_neg heq]
    | some v =>
      rw [Option.elim_some, dropWhile_sep heq, if_pos (by simp)]
      rfl
  have hopt := hd.option
  have htext := hd.text
  have hsect := hd.sect
  simp only [uciParsePtr, htake, hval]
  rw [Delta.front, strsep_sep h1]
  cases ho : d.option with
  | none =>
    rw [Option.elim_none, List.append_nil, strsep_last h2]
    simp [strsep, hpkg, htext, hsect, Delta.ptr, ho]
  | some o =>
    rw [ho] at hopt
    have h3 : dot ∉ o := not_mem_of_validate hopt (by decide) (by decide) (by decide)
    have hov : uciValidateName o = true := hopt
    rw [Option.elim_some, strsep_sep h2, strsep_last h3]
    simp [strsep, hpkg, htext, hsect, hov, Delta.ptr, ho]

theorem plain_front (hname : uciValidateStr name true true = true) (hd : d.Form) :
    ∀ b ∈ d.cmd.lead ++ d.front name, Plain b := by
  have hdot : Plain dot := by decide
  have hlead : ∀ cmd : Command, ∀ b ∈ cmd.lead, Plain b := by
    intro cmd
    cases cmd <;> decide
  have hopt := hd.option
  intro b hb
  simp only [Delta.front, List.mem_append, List.mem_cons] at hb
  rcases hb with hb | hb | rfl | hb | hb
  · exact hlead _ b hb
  · exact plain_of_validate hname b hb
  · exact hdot
  · exact plain_of_validate hd.sect b hb
  · cases ho : d.option with
    | none =>
      rw [ho] at hb
      cases hb
    | some o =>
      rw [ho] at hb hopt
      rcases List.mem_cons.1 hb with rfl | hb
      · exact hdot
      · exact plain_of_validate hopt b hb

theorem nz_of_text {str : Str} (h : uciValidateText str = true) : 0 ∉ str := by
  intro hm
  rw [uciValidateText, List.all_eq_true] at h
  exact absurd (h 0 hm) (by decide)

/-- The line of a change is read as the element. -/
theorem deltaSave_lex (hname : uciValidateStr name true true = true) (hd : d.Form) :
    ∃ t, uciDeltaSave name d = t ++ [newline] ∧ Lex t (d.cmd.lead ++ d.path name) ∧ 0 ∉ t := by
  have hplain := plain_front hname hd
  have hnz : 0 ∉ d.cmd.lead ++ d.front name := fun hm => absurd rfl (hplain _ hm).1
  cases hv : d.value with
  | none =>
    have hcmd : d.cmd = .remove := by
      by_contra hne
      exact hd.value hne hv
    refine ⟨d.cmd.lead ++ d.front name, ?_, ?_, hnz⟩
    · rw [uciDeltaSave, if_pos ⟨hcmd, hv⟩]
      simp [Delta.front]
    · rw [Delta.path, hv, Option.elim_none, List.append_nil]
      exact .of_plain hplain
  | some v =>
    have hvnz : 0 ∉ v := by
      have htext := hd.text
      rw [hv] at htext
      exact nz_of_text htext
    refine ⟨d.cmd.lead ++ d.front name ++ ([equals] ++ quote :: (uciEscape v ++ [quote])), ?_, ?_, ?_⟩
    · rw [uciDeltaSave, if_neg (by simp [hv]), hv]
      simp [Delta.front]
    · have hvalue : Lex ([equals] ++ quote :: (uciEscape v ++ [quote])) ([equals] ++ v) :=
        Lex.append (.of_plain (by decide)) (lex_escape v)
      rw [Delta.path, hv, Option.elim_some, ← List.append_assoc d.cmd.lead (d.front name)]
      exact Lex.append (.of_plain hplain) hvalue
    · have h1 : (0 : UInt8) ≠ equals := by decide
      have h2 : (0 : UInt8) ≠ quote := by decide
      rw [List.mem_append, not_or]
      exact ⟨hnz, by simp [h1, h2, escape_nz hvnz]⟩

theorem commandOf_char (cmd : Command) : commandOf (uciCommandChar cmd) = cmd := by
  cases cmd <;> rfl

theorem commandOf_name {b : UInt8} (h : isalnum b = true ∨ b = underscore) :
    commandOf b = .change := by
  have hne : ∀ cmd, cmd ≠ .change → uciCommandChar cmd ≠ b := by
    rintro cmd hcmd rfl
    rcases h with h | h
    · cases cmd <;> simp_all [uciCommandChar, isalnum]
    · cases cmd <;> simp_all [uciCommandChar, underscore]
  have hfind : ∀ l : List Command, (l.find? fun cmd => uciCommandChar cmd == b).getD .change =
      .change := by
    intro l
    induction l with
    | nil => rfl
    | cons cmd l ih =>
      by_cases hcmd : cmd = .change
      · rw [List.find?_cons]
        split
        · exact hcmd
        · exact ih
      · rw [List.find?_cons_of_neg (by simpa using hne cmd hcmd)]
        exact ih
  exact hfind commands

/-- The first character tells the command. -/
theorem commandOf_line (hname : uciValidateStr name true true = true) (hd : d.Ok name) :
    commandOf ((d.cmd.lead ++ d.path name).headD 0) = d.cmd ∧
      (if d.cmd = .change then d.cmd.lead ++ d.path name
        else (d.cmd.lead ++ d.path name).tail) = d.path name := by
  by_cases hcmd : d.cmd = .change
  · have hlead : d.cmd.lead = [] := by
      rw [hcmd]
      rfl
    refine ⟨?_, by rw [if_pos hcmd, hlead, List.nil_append]⟩
    have hne : name ≠ [] := by
      rintro rfl
      exact absurd hname (by decide)
    obtain ⟨b, name, rfl⟩ := List.exists_cons_of_ne_nil hne
    have hhead : (d.cmd.lead ++ d.path (b :: name)).headD 0 = b := by
      rw [hlead]
      rfl
    rw [hhead, hcmd]
    refine commandOf_name ?_
    have hb : b ≠ minus := fun hb => hd.char hcmd (by rw [hb]; rfl)
    simp only [uciValidateStr, Bool.and_eq_true, List.all_eq_true] at hname
    simpa [hb] using hname.2 b (by simp)
  · have hlead : d.cmd.lead = [uciCommandChar d.cmd] := by
      cases hc : d.cmd <;> first | rfl | exact absurd hc hcmd
    rw [hlead, if_neg hcmd]
    exact ⟨commandOf_char _, rfl⟩

/-! ## Reading a line -/

variable {c : Ctx} {cur file rest : Str} {p p' : Package}

/-- A line has one argument. -/
theorem deltaArg_runs (hname : uciValidateStr name true true = true) (hd : d.Form)
    (h : Zip c [] [] cur file) (hline : Line cur) (hleft : cur ++ file = uciDeltaSave name d ++ rest) :
    ∃ c' ofs pre' gap', Runs (nextArg false false false) c ofs c' ∧ Zip c' pre' gap' [] rest ∧
      c'.str ofs = d.cmd.lead ++ d.path name ∧ c'.outer = c.outer := by
  obtain ⟨t, ht, hlex, hnz⟩ := deltaSave_lex hname hd
  have hne : d.cmd.lead ++ d.path name ≠ [] := by
    simp [Delta.path, Delta.front]
  rw [ht, List.append_assoc] at hleft
  obtain ⟨c', gap', cur', file', hrun, hreads, hline'⟩ :=
    nextArg_runs false false false hlex (hlex.ne_nil hne) (by simp) h hline hleft rfl (by simp)
  obtain rfl : cur' = [] := by
    rcases hline'.cons with ⟨-, hnil⟩ | ⟨hn, -⟩
    · exact hnil
    · exact absurd rfl hn
  obtain rfl : file' = rest := hreads.left
  exact ⟨c', _, _, gap', hrun, hreads.zip, hreads.zip.str (hlex.nz hnz), hreads.outer⟩

theorem uciParseDeltaTuple_runs (hname : uciValidateStr name true true = true) (hd : d.Ok name)
    (h : Zip c [] [] cur file) (hline : Line cur) (hleft : cur ++ file = uciDeltaSave name d ++ rest) :
    ∃ c' pre' gap', Runs uciParseDeltaTuple c (d.cmd, name, d.ptr) c' ∧ Zip c' pre' gap' [] rest ∧
      c'.outer = c.outer := by
  obtain ⟨hcmd, harg⟩ := commandOf_line hname hd
  obtain ⟨c', ofs, pre', gap', hrun, hz, hstr, hout⟩ :=
    deltaArg_runs hname hd.toForm h hline hleft
  refine ⟨c', pre', gap', ?_, hz, hout⟩
  have hcur := hz.curStr
  have hptr := uciParsePtr_path hname hd.toForm
  unfold uciParseDeltaTuple
  refine .seq hrun (.read ?_)
  rw [hcur, if_neg (by simp)]
  simp only [hstr, hcmd, harg, hptr]
  rw [if_neg (by simpa [Delta.ptr] using hd.value)]
  have hreorder := hd.reorder
  have hrename := hd.rename
  have hlist := hd.list
  cases hc : d.cmd with
  | reorder =>
    have ho : d.ptr.option = none := hreorder hc
    simp only [ho, ne_eq, not_true_eq_false, if_false]
    exact .ret _ _
  | rename =>
    have hv : d.ptr.value.all uciValidateName = true := hrename hc
    simp only [hv, Bool.true_eq_false, if_false]
    exact .ret _ _
  | listAdd =>
    have ho : d.ptr.option ≠ none := hlist (Or.inl hc)
    simp only [ho, if_false]
    exact .ret _ _
  | listDel =>
    have ho : d.ptr.option ≠ none := hlist (Or.inr hc)
    simp only [ho, if_false]
    exact .ret _ _
  | add => exact .ret _ _
  | remove => exact .ret _ _
  | change => exact .ret _ _

/-- A line is executed. -/
theorem uciParseDeltaLine_runs (hname : uciValidateStr name true true = true) (hd : d.Ok name)
    (h : Zip c [] [] cur file) (hline : Line cur) (hleft : cur ++ file = uciDeltaSave name d ++ rest)
    (hp : c.package = some p) (hpn : p.name = name) (hrun : runDelta d.cmd d.ptr p = .ok p') :
    ∃ c' pre' gap', Runs uciParseDeltaLine c () c' ∧ Zip c' pre' gap' [] rest ∧
      c'.package = some p' := by
  obtain ⟨c₁, pre', gap', htuple, hz, hout⟩ := uciParseDeltaTuple_runs hname hd h hline hleft
  obtain ⟨-, -, -, e4, -, -⟩ := outer_eq hout
  refine ⟨{ c₁ with package := some p' }, pre', gap', ?_, hz.congr rfl rfl rfl rfl rfl, rfl⟩
  unfold uciParseDeltaLine
  refine .seq htuple (.read ?_)
  rw [if_neg (by simp [e4, hp, hpn])]
  refine liftPackage_runs (e4.trans hp) ?_
  rw [hrun]
  rfl

/-- What becomes of a change when its line is read. -/
def Delta.execute (d : Delta) (p : Package) : Except Err Package :=
  if d.cmd = .change ∧ p.name.head? = some minus then .error (.parse "" 0 0)
  else runDelta d.cmd d.ptr p

theorem Delta.Form.ok (hd : d.Form) (h : d.execute p = .ok p') :
    d.Ok p.name ∧ runDelta d.cmd d.ptr p = .ok p' := by
  rw [Delta.execute] at h
  split_ifs at h with hminus
  exact ⟨⟨hd, fun hcmd hn => hminus ⟨hcmd, hn⟩⟩, h⟩

theorem liftPackage_throws {α : Type} {f : Package → Except Err (Package × α)} {c : Ctx}
    {p : Package} {e : Err} (hp : c.package = some p) (hf : f p = .error e) :
    Throws (liftPackage f) c e c := by
  unfold liftPackage
  refine .read ?_
  rw [hp]
  simp only [hf]
  exact .raise e c

/-- The line of a new value, if the name of the package starts with a minus: it is
    taken for a deletion in another package. -/
theorem minus_throws (hname : uciValidateStr (minus :: name) true true = true) (hd : d.Form)
    (hcmd : d.cmd = .change) (h : Zip c [] [] cur file) (hline : Line cur)
    (hleft : cur ++ file = uciDeltaSave (minus :: name) d ++ rest) (hp : c.package = some p)
    (hpn : p.name = minus :: name) :
    ∃ c' e pre' gap', Throws uciParseDeltaLine c e c' ∧ Zip c' pre' gap' [] rest ∧
      c'.outer = c.outer := by
  obtain ⟨c', ofs, pre', gap', hrun, hz, hstr, hout⟩ := deltaArg_runs hname hd h hline hleft
  have hcur := hz.curStr
  have hlead : d.cmd.lead = [] := by
    rw [hcmd]
    rfl
  have hchar : commandOf ((d.path (minus :: name)).headD 0) = .remove := rfl
  have harg : (if Command.remove = .change then d.path (minus :: name)
      else (d.path (minus :: name)).tail) = d.path name := rfl
  by_cases hne : name = []
  · have hptr : uciParsePtr (d.path name) = .error (.parse "" 0 0) := by
      have hdot : dot ≠ equals := by decide
      have hpkg : uciValidatePackage [] = false := by decide
      subst hne
      simp [uciParsePtr, Delta.path, Delta.front, strsep, hdot, hpkg]
    refine ⟨c', .parse "" 0 0, pre', gap', ?_, hz, hout⟩
    unfold uciParseDeltaLine
    refine .first ?_
    unfold uciParseDeltaTuple
    refine .seq hrun (.read ?_)
    rw [hcur, if_neg (by simp)]
    simp only [hstr, hlead, List.nil_append, hchar, harg, hptr]
    exact .raise _ _
  · have hname' : uciValidateStr name true true = true := by
      simp only [uciValidateStr, Bool.and_eq_true, List.all_eq_true, List.mem_cons] at hname ⊢
      exact ⟨by simpa using hne, fun b hb => hname.2 b (Or.inr hb)⟩
    have hptr := uciParsePtr_path hname' hd
    obtain ⟨-, -, -, e4, -, -⟩ := outer_eq hout
    refine ⟨c', .parse "" 0 0, pre', gap', ?_, hz, hout⟩
    have htuple : Runs uciParseDeltaTuple c (.remove, name, d.ptr) c' := by
      unfold uciParseDeltaTuple
      refine .seq hrun (.read ?_)
      rw [hcur, if_neg (by simp)]
      simp only [hstr, hlead, List.nil_append, hchar, harg, hptr]
      rw [if_neg (by simp [Delta.ptr])]
      exact .ret _ _
    unfold uciParseDeltaLine
    refine .seq htuple (.read ?_)
    rw [if_pos (by simp [e4, hp, hpn])]
    exact .first (.raise _ _)

/-- A line that is not executed. -/
theorem uciParseDeltaLine_throws {e : Err} (hname : uciValidateStr p.name true true = true)
    (hd : d.Form) (h : Zip c [] [] cur file) (hline : Line cur)
    (hleft : cur ++ file = uciDeltaSave p.name d ++ rest) (hp : c.package = some p)
    (hexec : d.execute p = .error e) :
    ∃ c' e pre' gap', Throws uciParseDeltaLine c e c' ∧ Zip c' pre' gap' [] rest ∧
      c'.outer = c.outer := by
  rw [Delta.execute] at hexec
  split_ifs at hexec with hminus
  · obtain ⟨hcmd, hhead⟩ := hminus
    obtain ⟨name, hpn⟩ := List.head?_eq_some_iff.1 hhead
    rw [hpn] at hname hleft
    exact minus_throws hname hd hcmd h hline hleft hp hpn
  · have hok : d.Ok p.name := ⟨hd, fun hcmd hn => hminus ⟨hcmd, hn⟩⟩
    obtain ⟨c', pre', gap', htuple, hz, hout⟩ := uciParseDeltaTuple_runs hname hok h hline hleft
    obtain ⟨-, -, -, e4, -, -⟩ := outer_eq hout
    refine ⟨c', e, pre', gap', ?_, hz, hout⟩
    unfold uciParseDeltaLine
    refine .seq htuple (.read ?_)
    rw [if_neg (by simp [e4, hp])]
    refine liftPackage_throws (e4.trans hp) ?_
    rw [hexec]
    rfl

/-! ## Reading a file -/

/-- From the state `c` the package becomes `q`, by a number of changes. -/
def Replays (c : Ctx) (n : Nat) (q : Package) : Prop :=
  ∃ c', c'.package = some q ∧
    ∀ fuel m, c.file.length + 1 < fuel → Runs (deltaLoop fuel m) c (m + n) c'

theorem deltaLoop_skip {c' : Ctx} {fuel m n : Nat} (heof : c.eof = false)
    (hchar : c.nextLine.char 0 = 0) (h : Runs (deltaLoop fuel m) c.nextLine n c') :
    Runs (deltaLoop (fuel + 1) m) c n c' := by
  unfold deltaLoop
  refine .read ?_
  rw [if_neg (by simp [heof])]
  refine .write ?_
  rw [if_pos (show (uciGetln { c with pos := 0 } 0).char 0 = 0 from hchar)]
  exact h

theorem deltaLoop_line {c₁ c' : Ctx} {fuel m n : Nat} (heof : c.eof = false)
    (hchar : c.nextLine.char 0 ≠ 0) (hline : Runs uciParseDeltaLine c.nextLine () c₁)
    (h : Runs (deltaLoop fuel (m + 1)) c₁ n c') : Runs (deltaLoop (fuel + 1) m) c n c' := by
  unfold deltaLoop
  refine .read ?_
  rw [if_neg (by simp [heof])]
  refine .write ?_
  rw [if_neg (show (uciGetln { c with pos := 0 } 0).char 0 ≠ 0 from hchar)]
  exact .seq (.protect (.seq hline (.ret _ _))) h

theorem deltaLoop_error {c₁ c' : Ctx} {e : Err} {fuel m n : Nat} (heof : c.eof = false)
    (hchar : c.nextLine.char 0 ≠ 0) (hline : Throws uciParseDeltaLine c.nextLine e c₁)
    (h : Runs (deltaLoop fuel m) c₁ n c') : Runs (deltaLoop (fuel + 1) m) c n c' := by
  unfold deltaLoop
  refine .read ?_
  rw [if_neg (by simp [heof])]
  refine .write ?_
  rw [if_neg (show (uciGetln { c with pos := 0 } 0).char 0 ≠ 0 from hchar)]
  exact .seq (.rescue (.first hline) (.ret _ _)) h

section
variable {q : Package} {n : Nat} (hname : uciValidateStr p.name true true = true) (hd : d.Form)
  (h : Pending c (uciDeltaSave p.name d ++ rest)) (hp : c.package = some p)
include hname hd h hp

/-- A line that is executed. -/
theorem line_replays (hexec : d.execute p = .ok p')
    (hrest : ∀ c', Pending c' rest → c'.package = some p' → Replays c' n q) :
    Replays c (n + 1) q := by
  obtain ⟨hok, hrun⟩ := hd.ok hexec
  obtain ⟨x, file, heq, hnl⟩ := h.text.split (by simp [uciDeltaSave])
  obtain ⟨hz, hchar, hout⟩ := (heq ▸ h).start hnl
  obtain ⟨-, -, -, e4, -, -⟩ := outer_eq hout
  obtain ⟨c₁, pre', gap', hline, hz₁, hp₁⟩ :=
    uciParseDeltaLine_runs hname hok hz ⟨x, rfl, hnl⟩ (by rw [heq]; simp) (e4.trans hp) rfl hrun
  obtain ⟨c', hp', hloop⟩ := hrest c₁ hz₁.pending hp₁
  refine ⟨c', hp', fun fuel m hfuel => ?_⟩
  obtain ⟨fuel, rfl⟩ : ∃ n, fuel = n + 1 := ⟨fuel - 1, by omega⟩
  refine deltaLoop_line h.eof hchar hline ?_
  have hlen : rest.length < c.file.length := by
    rw [h.unread]
    simp [uciDeltaSave]
    omega
  have hnext := hloop fuel (m + 1) (by rw [hz₁.unread]; omega)
  rwa [Nat.add_assoc, Nat.add_comm 1 n] at hnext

/-- A line that is skipped. -/
theorem line_skipped {e : Err} (hexec : d.execute p = .error e)
    (hrest : ∀ c', Pending c' rest → c'.package = some p → Replays c' n q) : Replays c n q := by
  obtain ⟨x, file, heq, hnl⟩ := h.text.split (by simp [uciDeltaSave])
  obtain ⟨hz, hchar, hout⟩ := (heq ▸ h).start hnl
  obtain ⟨-, -, -, e4, -, -⟩ := outer_eq hout
  obtain ⟨c₁, e, pre', gap', hline, hz₁, hout₁⟩ :=
    uciParseDeltaLine_throws hname hd hz ⟨x, rfl, hnl⟩ (by rw [heq]; simp) (e4.trans hp) hexec
  obtain ⟨-, -, -, d4, -, -⟩ := outer_eq hout₁
  obtain ⟨c', hp', hloop⟩ := hrest c₁ hz₁.pending (d4.trans (e4.trans hp))
  refine ⟨c', hp', fun fuel m hfuel => ?_⟩
  obtain ⟨fuel, rfl⟩ : ∃ n, fuel = n + 1 := ⟨fuel - 1, by omega⟩
  have hlen : rest.length < c.file.length := by
    rw [h.unread]
    simp [uciDeltaSave]
    omega
  exact deltaLoop_error h.eof hchar hline (hloop fuel m (by rw [hz₁.unread]; omega))

end

/-- The end of the file. -/
theorem end_replays (h : Pending c []) (hp : c.package = some p) : Replays c 0 p := by
  obtain ⟨heof, hchar, hout⟩ := nextLine_eof h.unread
  obtain ⟨-, -, -, e4, -, -⟩ := outer_eq hout
  refine ⟨c.nextLine, e4.trans hp, fun fuel m hfuel => ?_⟩
  obtain ⟨fuel, rfl⟩ : ∃ n, fuel = n + 1 + 1 := ⟨fuel - 2, by omega⟩
  refine deltaLoop_skip h.eof hchar ?_
  unfold deltaLoop
  refine .read ?_
  rw [heof]
  exact .ret _ _

theorem Text.cons_line {t y : Str} (hy : Text y) (ht : 0 ∉ t) : Text (t ++ [newline] ++ y) := by
  refine ⟨?_, fun _ => ?_⟩
  · rw [List.mem_append, List.mem_append, not_or, not_or]
    exact ⟨⟨ht, by decide⟩, hy.nz⟩
  · by_cases hne : y = []
    · rw [hne]
      simp
    · rw [List.getLast?_append_of_ne_nil _ hne]
      exact hy.last hne

/-- The effect of the changes one after the other, and those that were executed. -/
def replay (p : Package) : List Delta → Package × List Delta
  | [] => (p, [])
  | d :: ds =>
    match d.execute p with
    | .ok p' => ((replay p' ds).1, d :: (replay p' ds).2)
    | .error _ => replay p ds

theorem replay_append (p : Package) (ds es : List Delta) :
    replay p (ds ++ es) =
      ((replay (replay p ds).1 es).1, (replay p ds).2 ++ (replay (replay p ds).1 es).2) := by
  induction ds generalizing p with
  | nil => rfl
  | cons d ds ih =>
    simp only [List.cons_append, replay]
    cases d.execute p with
    | ok p' => simp only [ih p', List.cons_append]
    | error e => exact ih p

theorem fileText_text (hname : uciValidateStr name true true = true) {ds : List Delta}
    (hds : ∀ d ∈ ds, d.Form) : Text (ds.flatMap (uciDeltaSave name)) := by
  induction ds with
  | nil => exact .nil
  | cons d ds ih =>
    obtain ⟨t, ht, -, hnz⟩ := deltaSave_lex hname (hds d (by simp))
    rw [List.flatMap_cons, ht]
    exact (ih fun d hd => hds d (by simp [hd])).cons_line hnz

section
variable {internal : Bool} {ptr : Ptr}

@[simp] theorem record_name (p : Package) (internal : Bool) (d : Delta) :
    (p.record internal d).name = p.name := by
  rw [Package.record]
  split_ifs <;> rfl

theorem uciRename_name (h : uciRename internal p ptr = .ok p') : p'.name = p.name := by
  obtain ⟨ptr, -, h⟩ := ok_bind h
  dsimp only at h
  split at h
  · split at h
    · cases h
      exact record_name _ _ _
    · cases h
      exact record_name _ _ _
  · cases h

theorem uciDelete_name (h : uciDelete internal p ptr = .ok p') : p'.name = p.name := by
  obtain ⟨ptr, -, h⟩ := ok_bind h
  dsimp only at h
  split at h
  · cases h
  · split at h
    · split at h
      · cases h
      · split_ifs at h
        · cases h
          exact record_name _ _ _
        · cases h
          rfl
    · split at h
      · cases h
        exact record_name _ _ _
      · cases h
        exact record_name _ _ _

theorem uciAddList_name (h : uciAddList internal p ptr = .ok p') : p'.name = p.name := by
  obtain ⟨ptr, -, h⟩ := ok_bind h
  dsimp only at h
  split at h
  · cases h
    rw [record_name]
    split <;> rfl
  · cases h

theorem uciDelList_name (h : uciDelList internal p ptr = .ok p') : p'.name = p.name := by
  obtain ⟨ptr, -, h⟩ := ok_bind h
  dsimp only at h
  split at h
  · split at h
    · split at h
      · cases h
        rfl
      · cases h
        exact record_name _ _ _
    · cases h
      rfl
  · cases h

theorem setElement_name {value : Str} {r : Package × Option Nat × Bool}
    (h : setElement p ptr value = .ok r) : r.1.name = p.name := by
  rw [setElement] at h
  split at h
  · cases h
    rfl
  · cases h
    rfl
  · split_ifs at h
    · cases h
      rfl
    · cases h
      simp only [setOption]
      split
      · split_ifs <;> rfl
      · rfl
  · split_ifs at h
    · cases h
      rfl
    · cases h
      simp only [setType]
      split_ifs <;> rfl
  · cases h

theorem uciSet_name {r : Package × Option Nat} (h : uciSet internal p ptr = .ok r) :
    r.1.name = p.name := by
  obtain ⟨ptr, -, h⟩ := ok_bind h
  dsimp only at h
  split at h
  · cases h
  rename_i value hvalue
  by_cases h1 : ptr.s = none ∧ (ptr.option ≠ none ∨ ptr.sect = none)
  · rw [if_pos h1] at h
    cases h
  rw [if_neg h1] at h
  by_cases h2 : ptr.option = none ∧ value ≠ [] ∧ uciValidateType value = false
  · rw [if_pos h2] at h
    cases h
  rw [if_neg h2] at h
  by_cases h3 : value = []
  · rw [if_pos h3] at h
    have hdelete : ∀ ptr : Ptr, (if ptr.complete = false then pure (p, ptr.s) else do
        return (← uciDelete false p ptr, if ptr.option = none then none else ptr.s)) = .ok r →
        r.1.name = p.name := by
      intro ptr h
      split_ifs at h
      · cases h
        rfl
      · obtain ⟨p₁, hdel, h⟩ := ok_bind h
        cases h
        exact uciDelete_name hdel
      · obtain ⟨p₁, hdel, h⟩ := ok_bind h
        cases h
        exact uciDelete_name hdel
    exact hdelete _ h
  · rw [if_neg h3] at h
    obtain ⟨r', hset, h⟩ := ok_bind h
    cases h
    have hname := setElement_name hset
    dsimp only
    split_ifs
    · rw [record_name, hname]
    · exact hname

end

theorem runDelta_name {cmd : Command} {ptr : Ptr} (h : runDelta cmd ptr p = .ok p') :
    p'.name = p.name := by
  cases cmd with
  | reorder =>
    obtain ⟨ptr, -, h⟩ := ok_bind h
    split at h
    · cases h
    · cases h
      rw [uciReorderSection]
      split_ifs
      · rw [record_name]
      · rfl
  | rename => exact uciRename_name h
  | remove => exact uciDelete_name h
  | listAdd => exact uciAddList_name h
  | listDel => exact uciDelList_name h
  | add =>
    obtain ⟨r, hset, h⟩ := ok_bind h
    dsimp only at h
    have hname := uciSet_name hset
    split at h
    · cases h
      split_ifs <;> exact hname
    · cases h
      exact hname
  | change =>
    simp only [runDelta] at h
    cases hset : uciSet true p ptr with
    | error e =>
      rw [hset] at h
      cases h
    | ok r =>
      rw [hset] at h
      cases h
      exact uciSet_name hset

theorem execute_name (h : d.execute p = .ok p') : p'.name = p.name := by
  rw [Delta.execute] at h
  split_ifs at h
  exact runDelta_name h

theorem replay_replays : ∀ {ds : List Delta} {p : Package} {c : Ctx},
    uciValidateStr p.name true true = true → (∀ d ∈ ds, d.Form) →
    Pending c (ds.flatMap (uciDeltaSave p.name)) → c.package = some p →
    Replays c (replay p ds).2.length (replay p ds).1
  | [], p, c, _, _, h, hp => end_replays h hp
  | d :: ds, p, c, hname, hds, h, hp => by
    have hd := hds d (by simp)
    have hds' : ∀ d ∈ ds, d.Form := fun d hd => hds d (by simp [hd])
    rw [List.flatMap_cons] at h
    cases hexec : d.execute p with
    | ok p' =>
      have hn := execute_name hexec
      simp only [replay, hexec]
      refine line_replays hname hd h hp hexec fun c' h' hp' => ?_
      exact replay_replays (hn ▸ hname) hds' (hn ▸ h') hp'
    | error e =>
      simp only [replay, hexec]
      exact line_skipped hname hd h hp hexec fun c' h' hp' => replay_replays hname hds' h' hp'

/-- **A file of changes** is read as these changes. -/
theorem uciParseDelta_replay {p : Package} {ds : List Delta}
    (hname : uciValidateStr p.name true true = true) (hds : ∀ d ∈ ds, d.Form) {c : Ctx}
    (hp : c.package = some p) : ∃ c',
      Runs (uciParseDelta (ds.flatMap (uciDeltaSave p.name))) c (replay p ds).2.length c' ∧
        c'.package = some (replay p ds).1 := by
  set stream := ds.flatMap (uciDeltaSave p.name) with hstream
  let c₀ : Ctx := { strict := c.strict, root := c.root, file := stream, package := c.package }
  obtain ⟨c', hp', hrun⟩ :=
    replay_replays (c := c₀) hname hds ⟨rfl, rfl, fileText_text hname hds⟩ hp
  refine ⟨c', ?_, hp'⟩
  unfold uciParseDelta
  refine .update ?_
  have hloop := hrun (stream.length + 2) 0 (Nat.lt_succ_self _)
  rwa [Nat.zero_add] at hloop

end

end Uci
