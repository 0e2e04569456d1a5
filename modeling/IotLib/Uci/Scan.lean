/-
  What `parse_str` makes of any text. The quoting state between two characters is a mode, and `scan`
  gives the value of the argument that a text starts with, how many characters were dropped from it,
  and what is left; or the text ends with an open quote.
-/
import IotLib.Uci.Lex

namespace Uci

open Exec

/-! ## Scanning -/

/-- The quoting state between two characters. -/
inductive Mode where
  | word
  | escape
  | single
  | double
  | doubleEscape

/-- The value of an argument, the number of characters that were dropped, and the
    rest of the text; or a quote that is still open at the end. -/
inductive Scanned where
  | arg (value : Str) (dropped : Nat) (rest : Str)
  | unterminated
deriving DecidableEq

/-- More characters in front of an argument. -/
def Scanned.more (v : Str) (n : Nat) : Scanned → Scanned
  | .arg value dropped rest => .arg (v ++ value) (n + dropped) rest
  | .unterminated => .unterminated

/-- The argument at the start of a text. -/
def scan : Mode → Str → Scanned
  | .word, [] => .arg [] 0 []
  | .escape, [] => .arg [] 0 []
  | .single, [] => .unterminated
  | .double, [] => .unterminated
  | .doubleEscape, [] => .unterminated
  | .word, b :: t =>
    if b = quote then (scan .single t).more [] 1
    else if b = dquote then (scan .double t).more [] 1
    else if b = hash ∨ b = semicolon ∨ isspace b = true then .arg [] 0 (b :: t)
    else if b = backslash then (scan .escape t).more [] 1
    else (scan .word t).more [b] 0
  | .escape, b :: t =>
    -- a backslash at the end of a line joins the next line
    if b = newline then scan .word t
    else if b = carriage ∧ t.head? = some newline then scan .escape t
    else (scan .word t).more [b] 0
  | .single, b :: t =>
    if b = quote then (scan .word t).more [] 1 else (scan .single t).more [b] 0
  | .double, b :: t =>
    if b = dquote then (scan .word t).more [] 1
    else if b = backslash then (scan .doubleEscape t).more [] 1
    else (scan .double t).more [b] 0
  | .doubleEscape, b :: t =>
    if b = newline then scan .double t
    else if b = carriage ∧ t.head? = some newline then scan .doubleEscape t
    else (scan .double t).more [b] 0

theorem Scanned.more_more (r : Scanned) (v v' : Str) (n n' : Nat) :
    (r.more v' n').more v n = r.more (v ++ v') (n + n') := by
  cases r with
  | arg value dropped rest => simp [Scanned.more, Nat.add_assoc]
  | unterminated => rfl

@[simp] theorem Scanned.more_nil (r : Scanned) : r.more [] 0 = r := by
  cases r with
  | arg value dropped rest => simp [Scanned.more]
  | unterminated => rfl

theorem scan_plain {b : UInt8} (hb : Plain b) (t : Str) :
    scan .word (b :: t) = (scan .word t).more [b] 0 := by
  obtain ⟨-, h1, h2, h3, h4, h5, h6⟩ := hb
  rw [scan, if_neg h1, if_neg h2, if_neg (by simp [h3, h4, h6]), if_neg h5]

/-- Characters that stand for themselves are scanned as they are. -/
theorem scan_plains {x : Str} (hx : ∀ b ∈ x, Plain b) (t : Str) :
    scan .word (x ++ t) = (scan .word t).more x 0 := by
  induction x with
  | nil => simp
  | cons b x ih =>
    rw [List.cons_append, scan_plain (hx b (by simp)), ih fun a ha => hx a (by simp [ha]),
      Scanned.more_more]
    rfl

/-! ## Reading on -/

section
variable {c : Ctx} {pre gap cur file : Str} {b : UInt8}

/-- At the end of the file the rest of the buffer is given up. -/
theorem uciGetln_eof {x junk : Str} (hfile : c.file = []) (hbuf : c.buf = x ++ b :: junk) :
    (∃ junk', (uciGetln c x.length).buf = x ++ 0 :: junk') ∧ (uciGetln c x.length).pos = c.pos ∧
      (uciGetln c x.length).file = [] ∧ (uciGetln c x.length).outer = c.outer := by
  have hloop : ∀ {n : Nat} {c : Ctx} {junk : Str}, c.file = [] →
      c.buf = x ++ b :: junk → x.length + 1 < c.buf.length →
      (∃ junk', (getlnLoop (n + 1) x.length c).buf = x ++ 0 :: junk') ∧
        (getlnLoop (n + 1) x.length c).pos = c.pos ∧ (getlnLoop (n + 1) x.length c).file = [] ∧
        (getlnLoop (n + 1) x.length c).outer = c.outer := by
    intro n c junk hfile hbuf hlen
    obtain ⟨k, hk⟩ : ∃ k, c.buf.length - x.length - 1 = k + 1 :=
      ⟨c.buf.length - x.length - 2, by omega⟩
    have hget : fgets (c.buf.length - x.length - 1) c.file = ([], [], true) := by
      rw [hk, hfile]
      rfl
    have heq : c.gets x.length = { c with
        buf := x ++ 0 :: c.buf.drop (x.length + 1), file := [], eof := true } := by
      have htake : c.buf.take x.length = x := by rw [hbuf, List.take_left]
      simp only [Ctx.gets, hget, htake, Bool.or_true, List.nil_append, List.length_nil,
        Nat.add_zero]
    have hstr : (c.gets x.length).str x.length = [] := by
      rw [heq, Ctx.str, List.drop_left]
      rfl
    have heq' : getlnLoop (n + 1) x.length c = c.gets x.length := by
      unfold getlnLoop
      rw [if_pos (by rw [hstr]; rfl)]
    rw [heq', heq]
    exact ⟨⟨_, rfl⟩, rfl, rfl, rfl⟩
  have hne : c.buf ≠ [] := by
    rw [hbuf]
    simp
  unfold uciGetln
  simp only [if_neg hne]
  have hlen : c.buf.length = x.length + (junk.length + 1) := by
    rw [hbuf, List.length_append, List.length_cons]
  split_ifs with hgrow
  · have hgrown : c.grow.buf = x ++ b :: (junk ++ List.replicate c.buf.length 0) := by
      rw [Ctx.grow, hbuf]
      simp
    exact hloop hfile hgrown (by rw [hgrown]; simp; omega)
  · exact hloop hfile hbuf (by omega)

/-- The next line is read over what is left of this one. -/
theorem Zip.getln_over (h : Zip c pre gap cur file) (hne : file ≠ []) :
    ∃ x rest, file = x ++ newline :: rest ∧ Zip (uciGetln c c.pos) pre gap (x ++ [newline]) rest ∧
      (uciGetln c c.pos).outer = c.outer := by
  obtain ⟨junk, hbuf⟩ := h.buf
  have htext : Text file := h.text.of_append
  obtain ⟨x, rest, rfl, hnl⟩ := htext.split hne
  have hnz : 0 ∉ x := fun hm => htext.nz (List.mem_append_left _ hm)
  have hpos : c.pos = (pre ++ gap).length := by rw [h.pos, List.length_append]
  have hgot : GotLine c (uciGetln c (pre ++ gap).length) (pre ++ gap) x rest := by
    refine uciGetln_line hnl hnz (Or.inr ⟨?_, ?_⟩) h.unread
    · rw [hbuf, List.length_append]
      simp
    · rw [hbuf, List.take_left]
  rw [← hpos] at hgot
  refine ⟨x, rest, rfl, ⟨hgot.buf, hgot.pos.trans h.pos, ?_, hgot.file, hgot.eof.trans h.eof,
    Or.inr ⟨x, rfl, hnl⟩, by simpa using htext⟩, hgot.outer⟩
  rw [hgot.filled, hgot.pos, hpos]
  simp [Nat.add_assoc]

/-- Nothing more can be read. -/
theorem Ended.getln (h : Ended c pre gap) (hfile : c.file = []) :
    (uciGetln c c.pos).cur = 0 ∧ (uciGetln c c.pos).outer = c.outer := by
  obtain ⟨junk, hbuf⟩ := h.buf
  obtain ⟨hbuf', hpos', -, hout⟩ := uciGetln_eof hfile hbuf
  have hpos : c.pos = (pre ++ gap).length := by rw [h.pos, List.length_append]
  rw [← hpos] at hbuf' hpos' hout
  have hend : Ended (uciGetln c c.pos) pre gap := ⟨hbuf', hpos'.trans h.pos⟩
  exact ⟨hend.cur_eq, hout⟩

theorem Zip.getln_eof (h : Zip c pre gap cur []) : Ended (uciGetln c c.pos) pre gap ∧
    (uciGetln c c.pos).file = [] ∧ (uciGetln c c.pos).outer = c.outer := by
  obtain ⟨junk, hbuf⟩ := h.buf
  have hpos : c.pos = (pre ++ gap).length := by rw [h.pos, List.length_append]
  have hbuf' : ∃ b junk', c.buf = pre ++ gap ++ b :: junk' := by
    cases cur with
    | nil => exact ⟨0, junk, hbuf⟩
    | cons b cur => exact ⟨b, cur ++ 0 :: junk, hbuf⟩
  obtain ⟨b, junk', hbuf'⟩ := hbuf'
  obtain ⟨hbuf'', hpos', hfile, hout⟩ := uciGetln_eof h.unread hbuf'
  rw [← hpos] at hbuf'' hpos' hfile hout
  exact ⟨⟨hbuf'', hpos'.trans h.pos⟩, hfile, hout⟩

/-- A parse error that leaves the fields of the import alone. -/
def Rejects {α : Type} (x : M α) (c : Ctx) : Prop :=
  ∃ reason line byte c', Throws x c (.parse reason line byte) c' ∧ c'.outer = c.outer

theorem Rejects.first {α β : Type} {x : M α} {f : α → M β} (h : Rejects x c) :
    Rejects (x >>= f) c := by
  obtain ⟨reason, line, byte, c', hx, hout⟩ := h
  exact ⟨reason, line, byte, c', hx.first, hout⟩

theorem Rejects.after {α β : Type} {x : M α} {f : α → M β} {a : α} {c' : Ctx} (hx : Runs x c a c')
    (hout : c'.outer = c.outer) (h : Rejects (f a) c') : Rejects (x >>= f) c := by
  obtain ⟨reason, line, byte, c'', hf, hout'⟩ := h
  exact ⟨reason, line, byte, c'', .seq hx hf, hout'.trans hout⟩

theorem Rejects.read {α : Type} {f : Ctx → M α} (h : Rejects (f c) c) : Rejects (get >>= f) c := h

theorem Rejects.write {α : Type} {f : PUnit → M α} {c' : Ctx} (hout : c'.outer = c.outer)
    (h : Rejects (f ⟨⟩) c') : Rejects (set c' >>= f) c := by
  obtain ⟨reason, line, byte, c'', hf, hout'⟩ := h
  exact ⟨reason, line, byte, c'', hf, hout'.trans hout⟩

theorem uciParseError_rejects {α : Type} (reason : String) (c : Ctx) :
    Rejects (uciParseError reason : M α) c := ⟨reason, c.line, c.pos, c, rfl, rfl⟩

theorem checkArg_missing (name package : Bool) {val : Nat} (h : c.char val = 0) :
    Rejects (checkArg true name package val) c := by
  unfold checkArg
  refine .read ?_
  rw [if_pos h, if_pos rfl]
  exact (uciParseError_rejects _ _).first

/-- A quoted part of a text of the given length is read as far as the closing quote,
    or to the end of the file; `r` is what the scan says. -/
def Closes (x : M Nat) (c : Ctx) (pre gap file : Str) (len : Nat) (r : Scanned) : Prop :=
  (∃ c' v n rest gap' cur' file', Runs x c (pre ++ v).length c' ∧
    Reads c c' (pre ++ v) file rest gap' cur' file' ∧ Line cur' ∧ gap'.length = gap.length + n ∧
    rest.length ≤ len ∧ r = (scan .word rest).more v n) ∨
  (Rejects x c ∧ r = .unterminated)

theorem Rejects.of_leads {α : Type} {x y : M α} {c' : Ctx} (hx : Leads x c y c')
    (hout : c'.outer = c.outer) (h : Rejects y c') : Rejects x c := by
  obtain ⟨reason, line, byte, c'', hy, hout'⟩ := h
  exact ⟨reason, line, byte, c'', hx.throws hy, hout'.trans hout⟩

variable {r : Scanned} {c₁ : Ctx} {n : Nat}

section
variable {len len₁ : Nat}

theorem Closes.more {x y : M Nat} {gap₁ file₁ v : Str}
    (h : Closes y c₁ (pre ++ v) gap₁ file₁ len₁ r) (hx : Leads x c y c₁)
    (hout : c₁.outer = c.outer) (hfile : file₁.length ≤ file.length)
    (hgap : gap₁.length = gap.length + n) (hlen : len₁ ≤ len) :
    Closes x c pre gap file len (r.more v n) := by
  rcases h with
    ⟨c', v', n', rest, gap', cur', file', hy, hreads, hline, hgap', hrest, rfl⟩ | ⟨hy, rfl⟩
  · rw [List.append_assoc] at hy hreads
    exact Or.inl ⟨c', v ++ v', n + n', rest, gap', cur', file', hx.runs hy, hreads.trans hout hfile,
      hline, by omega, hrest.trans hlen, Scanned.more_more _ _ _ _ _⟩
  · exact Or.inr ⟨hy.of_leads hx hout, rfl⟩

/-- Nothing was read of the argument. -/
theorem Closes.skip {x y : M Nat} {gap₁ file₁ : Str}
    (h : Closes y c₁ pre gap₁ file₁ len₁ r) (hx : Leads x c y c₁) (hout : c₁.outer = c.outer)
    (hfile : file₁.length ≤ file.length) (hgap : gap₁.length = gap.length + n)
    (hlen : len₁ ≤ len) : Closes x c pre gap file len (r.more [] n) := by
  rw [← List.append_nil pre] at h
  exact h.more hx hout hfile hgap hlen

theorem Closes.turn {x y : M Nat} {file₁ : Str}
    (h : Closes y c₁ pre gap file₁ len₁ r) (hx : Leads x c y c₁) (hout : c₁.outer = c.outer)
    (hfile : file₁.length ≤ file.length) (hlen : len₁ ≤ len) : Closes x c pre gap file len r := by
  rw [← Scanned.more_nil r]
  exact h.skip hx hout hfile rfl hlen

/-- A character of a quoted part. -/
theorem Closes.char {x y : M Nat}
    (h : Closes y (addc c pre.length) (pre ++ [b]) (gap ++ [b]).tail file len₁ r)
    (hx : Leads x c y (addc c pre.length)) (hlen : len₁ ≤ len) :
    Closes x c pre gap file len (r.more [b] 0) :=
  h.more hx rfl le_rfl (by simp) hlen

/-- The closing quote. -/
theorem Closes.close {x : M Nat} (hz : Zip c pre gap (b :: cur) file) (hline : Line cur)
    (hx : Runs x c pre.length { c with pos := c.pos + 1 }) (hlen : (cur ++ file).length ≤ len) :
    Closes x c pre gap file len ((scan .word (cur ++ file)).more [] 1) := by
  have hz' := hz.skip
  rw [← List.append_nil pre] at hx hz'
  exact Or.inl ⟨_, [], 1, cur ++ file, _, cur, file, hx, ⟨hz', rfl, le_rfl, rfl⟩, hline, by simp,
    hlen, rfl⟩

end

theorem singleQuoteLoop_ended {fuel target : Nat} (h : Ended c pre gap) (hfile : c.file = []) :
    Rejects (singleQuoteLoop (fuel + 1) target) c := by
  obtain ⟨hcur, hout⟩ := h.getln hfile
  rw [singleQuoteLoop]
  refine .read ?_
  rw [h.cur_eq, if_neg (by decide), if_pos rfl]
  refine .write hout ?_
  rw [if_pos hcur]
  exact (uciParseError_rejects _ _).first

/-- **The loop of `parse_single_quote`** follows the scan. -/
theorem singleQuoteLoop_scan : ∀ (fuel : Nat) {pre gap cur file : Str} {c : Ctx},
    Zip c pre gap cur file → cur.length + 2 * file.length < fuel →
    Closes (singleQuoteLoop fuel pre.length) c pre gap file (cur ++ file).length
      (scan .single (cur ++ file))
  | 0, _, _, _, _, _, _, hfuel => by simp at hfuel
  | fuel + 1, pre, gap, [], file, c, h, hfuel => by
    have hcur : c.cur = 0 := h.cur_eq
    by_cases hne : file = []
    · subst hne
      exact Or.inr ⟨singleQuoteLoop_ended h.ended h.unread, rfl⟩
    · obtain ⟨x, rest', rfl, hz, hout⟩ := h.getln hne
      have hcur' : (uciGetln c c.pos).cur ≠ 0 := hz.cur_pos (by simp)
      simp only [List.length_nil, List.length_append, List.length_cons] at hfuel
      have hrec := singleQuoteLoop_scan fuel hz (by simp; omega)
      have hleads : Leads (singleQuoteLoop (fuel + 1) pre.length) c
          (singleQuoteLoop fuel pre.length) (uciGetln c c.pos) := by
        rw [singleQuoteLoop]
        refine .read ?_
        rw [if_neg (by rw [hcur]; decide), if_pos hcur]
        refine .write ?_
        rw [if_neg hcur']
        exact .refl _ _
      have htext : [] ++ (x ++ newline :: rest') = x ++ [newline] ++ rest' := by simp
      rw [← htext] at hrec
      exact hrec.turn hleads hout (by simp; omega) le_rfl
  | fuel + 1, pre, gap, b :: cur, file, c, h, hfuel => by
    have hcur : c.cur = b := h.cur_eq
    rw [List.length_cons] at hfuel
    rw [List.cons_append, scan]
    by_cases hb : b = quote
    · rw [if_pos hb]
      refine .close h ((h.line.resolve_left (by simp)).tail (by rw [hb]; decide)) ?_ (by simp)
      unfold singleQuoteLoop
      refine .read ?_
      rw [if_pos (by rw [hcur, hb])]
      exact .write (.ret _ _)
    · rw [if_neg hb]
      have hrec := singleQuoteLoop_scan fuel h.addc (by omega)
      refine hrec.char ?_ (by simp)
      rw [singleQuoteLoop]
      refine .read ?_
      rw [if_neg (by rw [hcur]; exact hb), if_neg (by rw [hcur]; exact h.cur_ne_zero)]
      refine .write ?_
      rw [List.length_append]
      exact .refl _ _

/-- What follows a backslash joins the next line. -/
def Joins (x : UInt8) (cur : Str) : Prop :=
  x = newline ∧ cur = [] ∨ x = carriage ∧ cur = [newline]

/-- What `parse_backslash` does. -/
theorem Zip.parseBackslash (h : Zip c pre gap (backslash :: cur) file) :
    ∃ x cur', cur = x :: cur' ∧
      (Joins x cur' ∧ parseBackslash c = (false, uciGetln { c with pos := c.pos + 1 } (c.pos + 1)) ∨
       (x ≠ newline ∧ ¬ (x = carriage ∧ (cur' ++ file).head? = some newline)) ∧
        parseBackslash c = (true, { c with pos := c.pos + 1 })) := by
  have hline : Line cur := (h.line.resolve_left (by simp)).tail (by decide)
  obtain ⟨x, cur, rfl⟩ := List.exists_cons_of_ne_nil hline.ne_nil
  have hz := h.skip
  have hcur : ({ c with pos := c.pos + 1 } : Ctx).cur = x := hz.cur_eq
  have hx : x ≠ 0 := hz.cur_ne_zero
  refine ⟨x, cur, rfl, ?_⟩
  simp only [Uci.parseBackslash, hcur, hx, false_or]
  rcases hline.cons with ⟨rfl, rfl⟩ | ⟨hnl, hline'⟩
  · exact Or.inl ⟨Or.inl ⟨rfl, rfl⟩, by rw [if_pos (Or.inl rfl)]⟩
  obtain ⟨y, cur, rfl⟩ := List.exists_cons_of_ne_nil hline'.ne_nil
  have hz' := hz.skip
  have hcur₁ : ({ c with pos := c.pos + 1 } : Ctx).char (c.pos + 1 + 1) = y := hz'.cur_eq
  have hcur₂ : ({ c with pos := c.pos + 1 } : Ctx).char (c.pos + 1 + 2) = cur.headD 0 :=
    hz'.skip.cur_eq
  simp only [hcur₁, hcur₂]
  by_cases hjoin : x = carriage ∧ y = newline
  · obtain ⟨rfl, rfl⟩ := hjoin
    obtain rfl : cur = [] := by
      rcases hline'.cons with ⟨-, hnil⟩ | ⟨hn, -⟩
      · exact hnil
      · exact absurd rfl hn
    exact Or.inl ⟨Or.inr ⟨rfl, rfl⟩, by rw [if_pos (by simp)]⟩
  · refine Or.inr ⟨⟨hnl, by simpa using hjoin⟩, ?_⟩
    rw [if_neg]
    rintro (hn | ⟨h1, h2, -⟩)
    · exact hnl hn
    · exact hjoin ⟨h1, h2⟩

theorem scan_escape_join {x : UInt8} {cur : Str} (h : Joins x cur) (t : Str) :
    scan .escape (x :: (cur ++ t)) = scan .word t ∧
      scan .doubleEscape (x :: (cur ++ t)) = scan .double t := by
  rcases h with ⟨rfl, rfl⟩ | ⟨rfl, rfl⟩
  · exact ⟨rfl, rfl⟩
  · have hne : carriage ≠ newline := by decide
    simp [scan, hne]

theorem scan_escape_char {x : UInt8} {t : Str}
    (h : x ≠ newline ∧ ¬ (x = carriage ∧ t.head? = some newline)) :
    scan .escape (x :: t) = (scan .word t).more [x] 0 ∧
      scan .doubleEscape (x :: t) = (scan .double t).more [x] 0 := by
  simp [scan, h.1, h.2]

theorem doubleQuoteLoop_ended {fuel target : Nat} (h : Ended c pre gap) (hfile : c.file = []) :
    Rejects (doubleQuoteLoop (fuel + 1) target) c := by
  obtain ⟨hcur, hout⟩ := h.getln hfile
  rw [doubleQuoteLoop]
  refine .read ?_
  rw [h.cur_eq, if_neg (by decide), if_pos rfl]
  refine .write hout ?_
  rw [if_pos hcur]
  exact (uciParseError_rejects _ _).first

/-- **The loop of `parse_double_quote`** follows the scan. -/
theorem doubleQuoteLoop_scan : ∀ (fuel : Nat) {pre gap cur file : Str} {c : Ctx},
    Zip c pre gap cur file → cur.length + 2 * file.length < fuel →
    Closes (doubleQuoteLoop fuel pre.length) c pre gap file (cur ++ file).length
      (scan .double (cur ++ file))
  | 0, _, _, _, _, _, _, hfuel => by simp at hfuel
  | fuel + 1, pre, gap, [], file, c, h, hfuel => by
    have hcur : c.cur = 0 := h.cur_eq
    by_cases hne : file = []
    · subst hne
      exact Or.inr ⟨doubleQuoteLoop_ended h.ended h.unread, rfl⟩
    · obtain ⟨x, rest', rfl, hz, hout⟩ := h.getln hne
      have hcur' : (uciGetln c c.pos).cur ≠ 0 := hz.cur_pos (by simp)
      simp only [List.length_nil, List.length_append, List.length_cons] at hfuel
      have hrec := doubleQuoteLoop_scan fuel hz (by simp; omega)
      have hleads : Leads (doubleQuoteLoop (fuel + 1) pre.length) c
          (doubleQuoteLoop fuel pre.length) (uciGetln c c.pos) := by
        rw [doubleQuoteLoop]
        refine .read ?_
        rw [if_neg (by rw [hcur]; decide), if_pos hcur]
        refine .write ?_
        rw [if_neg hcur']
        exact .refl _ _
      have htext : [] ++ (x ++ newline :: rest') = x ++ [newline] ++ rest' := by simp
      rw [← htext] at hrec
      exact hrec.turn hleads hout (by simp; omega) le_rfl
  | fuel + 1, pre, gap, b :: cur, file, c, h, hfuel => by
    have hcur : c.cur = b := h.cur_eq
    rw [List.length_cons] at hfuel
    rw [List.cons_append, scan]
    by_cases hb : b = dquote
    · rw [if_pos hb]
      refine .close h ((h.line.resolve_left (by simp)).tail (by rw [hb]; decide)) ?_ (by simp)
      unfold doubleQuoteLoop
      refine .read ?_
      rw [if_pos (by rw [hcur, hb])]
      exact .write (.ret _ _)
    rw [if_neg hb]
    have hne : c.cur ≠ 0 := by rw [hcur]; exact h.cur_ne_zero
    by_cases hesc : b = backslash
    · subst hesc
      rw [if_pos rfl]
      obtain ⟨x, cur, rfl, ⟨hjoin, hparse⟩ | ⟨hchar, hparse⟩⟩ := h.parseBackslash
      · -- the next line is joined
        rw [List.cons_append, (scan_escape_join hjoin _).2]
        have hz := h.skip
        have hleads : Leads (doubleQuoteLoop (fuel + 1) pre.length) c
            (doubleQuoteLoop fuel pre.length) (uciGetln { c with pos := c.pos + 1 } (c.pos + 1)) := by
          rw [doubleQuoteLoop]
          refine .read ?_
          rw [if_neg (by rw [hcur]; exact hb), if_neg hne, if_pos hcur, hparse]
          exact .refl _ _
        simp only [List.length_cons] at hfuel
        obtain ⟨fuel, rfl⟩ : ∃ n, fuel = n + 1 := ⟨fuel - 1, by omega⟩
        by_cases hfile : file = []
        · subst hfile
          obtain ⟨hend, hfile, hout⟩ := hz.getln_eof
          exact Or.inr ⟨(doubleQuoteLoop_ended hend hfile).of_leads hleads hout, rfl⟩
        · obtain ⟨y, rest', rfl, hz', hout⟩ := hz.getln_over hfile
          simp only [List.length_append, List.length_cons] at hfuel
          have hrec := doubleQuoteLoop_scan (fuel + 1) hz' (by simp; omega)
          have htext : y ++ [newline] ++ rest' = y ++ newline :: rest' := by simp
          rw [htext] at hrec
          exact hrec.skip hleads hout (by simp; omega) (by simp) (by simp; omega)
      · rw [List.cons_append, (scan_escape_char hchar).2, Scanned.more_more]
        have hrec := doubleQuoteLoop_scan fuel h.skip.addc (by simp at hfuel ⊢; omega)
        refine hrec.more ?_ rfl le_rfl (by simp) (by simp; omega)
        rw [doubleQuoteLoop]
        refine .read ?_
        rw [if_neg (by rw [hcur]; exact hb), if_neg hne, if_pos hcur, hparse]
        refine .write ?_
        rw [List.length_append]
        exact .refl _ _
    · rw [if_neg hesc]
      have hrec := doubleQuoteLoop_scan fuel h.addc (by omega)
      refine hrec.char ?_ (by simp)
      rw [doubleQuoteLoop]
      refine .read ?_
      rw [if_neg (by rw [hcur]; exact hb), if_neg hne, if_neg (by rw [hcur]; exact hesc)]
      refine .write ?_
      rw [List.length_append]
      exact .refl _ _

/-! ## Arguments -/

/-- The state in which an argument ends: at the end of the file, or before a
    character that ends it, with `n` characters between the target and the position. -/
def Halted (c c' : Ctx) (pre file : Str) (n : Nat) (rest : Str) : Prop :=
  (rest = [] ∧ c'.outer = c.outer ∧ c'.file = [] ∧ ∃ gap', gap'.length = n ∧ Ended c' pre gap') ∨
  ∃ d cur' file' gap' c₁, rest = d :: cur' ++ file' ∧ Zip c₁ pre gap' (d :: cur') file' ∧
    file'.length ≤ file.length ∧ c₁.outer = c.outer ∧ gap'.length = n ∧
    (isspace d = true ∨ d = hash ∨ d = semicolon) ∧
    c' = if d = hash then c₁.setChar c₁.pos 0 else c₁

/-- The loop of `parse_str` does what the scan says. -/
def Scans (x : M (Nat × Bool)) (c : Ctx) (pre gap file : Str) (r : Scanned) : Prop :=
  (∃ v n rest c', Runs x c ((pre ++ v).length, rest.head? == some semicolon) c' ∧
    Halted c c' (pre ++ v) file (gap.length + n) rest ∧ r = .arg v n rest) ∨
  (Rejects x c ∧ r = .unterminated)

theorem Halted.trans {c₁ c' : Ctx} {file₁ rest : Str} (h : Halted c₁ c' pre file₁ n rest)
    (hout : c₁.outer = c.outer) (hfile : file₁.length ≤ file.length) :
    Halted c c' pre file n rest := by
  rcases h with ⟨hrest, hout', hend⟩ | ⟨d, cur', file', gap', c₂, hrest, hz, hlen, hout', hstop⟩
  · exact Or.inl ⟨hrest, hout'.trans hout, hend⟩
  · exact Or.inr ⟨d, cur', file', gap', c₂, hrest, hz, hlen.trans hfile, hout'.trans hout, hstop⟩

theorem Scans.more {x y : M (Nat × Bool)} {gap₁ file₁ v : Str}
    (h : Scans y c₁ (pre ++ v) gap₁ file₁ r) (hx : Leads x c y c₁) (hout : c₁.outer = c.outer)
    (hfile : file₁.length ≤ file.length) (hgap : gap₁.length = gap.length + n) :
    Scans x c pre gap file (r.more v n) := by
  rcases h with ⟨v', n', rest, c', hy, hhalt, rfl⟩ | ⟨hy, rfl⟩
  · rw [List.append_assoc] at hy hhalt
    rw [hgap, Nat.add_assoc] at hhalt
    exact Or.inl ⟨v ++ v', n + n', rest, c', hx.runs hy, hhalt.trans hout hfile, rfl⟩
  · exact Or.inr ⟨hy.of_leads hx hout, rfl⟩

theorem Scans.skip {x y : M (Nat × Bool)} {gap₁ file₁ : Str}
    (h : Scans y c₁ pre gap₁ file₁ r) (hx : Leads x c y c₁) (hout : c₁.outer = c.outer)
    (hfile : file₁.length ≤ file.length) (hgap : gap₁.length = gap.length + n) :
    Scans x c pre gap file (r.more [] n) := by
  rw [← List.append_nil pre] at h
  exact h.more hx hout hfile hgap

theorem Scans.turn {x y : M (Nat × Bool)} {file₁ : Str}
    (h : Scans y c₁ pre gap file₁ r) (hx : Leads x c y c₁) (hout : c₁.outer = c.outer)
    (hfile : file₁.length ≤ file.length) : Scans x c pre gap file r := by
  rw [← Scanned.more_nil r]
  exact h.skip hx hout hfile rfl

/-- What follows a turn of `parse_str`. -/
def strCont (fuel target : Nat) : M (Nat × Bool) := do
  let c ← get
  if c.cur ≠ 0 ∧ isspace c.cur = false then parseStrLoop fuel target
  else return (target, false)

theorem parseStrLoop_next (fuel : Nat) {target target' : Nat}
    (h : Runs (parseStrTurn target) c (.next target') c₁) :
    Leads (parseStrLoop (fuel + 1) target) c (strCont fuel target') c₁ := .seq h (.refl _ _)

theorem strCont_ended {fuel : Nat} (h : Ended c pre gap) (hfile : c.file = []) :
    Scans (strCont fuel pre.length) c pre gap [] (scan .word []) := by
  have hrun : Runs (strCont fuel pre.length) c (pre.length, false) c := by
    unfold strCont
    refine .read ?_
    rw [if_neg (by simp [h.cur_eq])]
    exact .ret _ _
  have hpre : pre ++ [] = pre := List.append_nil pre
  refine Or.inl ⟨[], 0, [], c, hpre.symm ▸ hrun, ?_, rfl⟩
  rw [hpre]
  exact Or.inl ⟨rfl, rfl, hfile, gap, rfl, h⟩

/-- The argument goes on with a character that is not white space. -/
def LoopScans (fuel : Nat) : Prop :=
  ∀ (pre gap cur file : Str) (b : UInt8) (c : Ctx), Zip c pre gap (b :: cur) file →
    isspace b = false → (b :: cur).length + 2 * file.length < fuel →
    Scans (parseStrLoop fuel pre.length) c pre gap file (scan .word (b :: cur ++ file))

theorem scan_space (hb : isspace b = true) (t : Str) : scan .word (b :: t) = .arg [] 0 (b :: t) := by
  have h1 : b ≠ quote := by
    rintro rfl
    cases hb
  have h2 : b ≠ dquote := by
    rintro rfl
    cases hb
  rw [scan, if_neg h1, if_neg h2, if_pos (Or.inr (Or.inr hb))]

theorem strCont_scan {fuel : Nat} (ih : LoopScans fuel) (h : Zip c pre gap cur file)
    (hline : Line cur) (hfuel : cur.length + 2 * file.length < fuel) :
    Scans (strCont fuel pre.length) c pre gap file (scan .word (cur ++ file)) := by
  obtain ⟨b, cur, rfl⟩ := List.exists_cons_of_ne_nil hline.ne_nil
  have hcur : c.cur = b := h.cur_eq
  have hne : c.cur ≠ 0 := h.cur_pos (by simp)
  by_cases hb : isspace b = true
  · have hsemi : b ≠ semicolon := by
      rintro rfl
      cases hb
    have hhash : b ≠ hash := by
      rintro rfl
      cases hb
    refine Or.inl ⟨[], 0, b :: (cur ++ file), c, ?_, ?_, scan_space hb _⟩
    · unfold strCont
      refine .read ?_
      rw [if_neg (by simp [hcur, hb])]
      have hflag : ((b :: (cur ++ file)).head? == some semicolon) = false := by simp [hsemi]
      rw [hflag, List.append_nil]
      exact .ret _ _
    · rw [List.append_nil]
      exact Or.inr ⟨b, cur, file, gap, c, rfl, h, le_rfl, rfl, rfl, Or.inl hb, by rw [if_neg hhash]⟩
  · have hspace : isspace b = false := by simpa using hb
    have hrec := ih _ _ _ _ _ _ h hspace hfuel
    have hleads : Leads (strCont fuel pre.length) c (parseStrLoop fuel pre.length) c := by
      unfold strCont
      refine .read ?_
      rw [if_pos ⟨hne, by rw [hcur]; exact hspace⟩]
      exact .refl _ _
    exact hrec.turn hleads rfl le_rfl

/-- A quoted part of an argument, and what follows it. -/
theorem quoted_scan {fuel len : Nat} {x : M Nat} (ih : LoopScans fuel)
    (hx : Closes x c pre gap file len r)
    (hturn : Leads (parseStrTurn pre.length) c (x >>= fun t => pure (.next t)) c)
    (hfuel : len + file.length < fuel) :
    Scans (parseStrLoop (fuel + 1) pre.length) c pre gap file r := by
  rcases hx with
    ⟨c', v, n, rest, gap', cur', file', hrun, hreads, hline, hgap, hrest, rfl⟩ | ⟨hfail, rfl⟩
  · have hnext := parseStrLoop_next fuel (hturn.runs (.seq hrun (.ret _ _)))
    have hlen : cur'.length + file'.length ≤ len := by
      rw [← List.length_append, hreads.left]
      exact hrest
    have hshort := hreads.shorter
    have hcont := strCont_scan ih hreads.zip hline (by omega)
    rw [hreads.left] at hcont
    exact hcont.more hnext hreads.outer hshort hgap
  · exact Or.inr ⟨(hfail.first.of_leads hturn rfl).first, rfl⟩

theorem parseSingleQuote_scan (h : Zip c pre gap (quote :: cur) file) :
    Closes (parseSingleQuote pre.length) c pre gap file (cur ++ file).length
      ((scan .single (cur ++ file)).more [] 1) := by
  have hfuel : cur.length + 2 * file.length < c.fuel := by
    have h1 := h.filled
    have h2 := h.unread
    rw [List.length_cons] at h1
    rw [Ctx.fuel, h1, h2]
    omega
  exact (singleQuoteLoop_scan _ h.skip hfuel).skip (.read (.write (.refl _ _))) rfl le_rfl (by simp)
    le_rfl

theorem parseDoubleQuote_scan (h : Zip c pre gap (dquote :: cur) file) :
    Closes (parseDoubleQuote pre.length) c pre gap file (cur ++ file).length
      ((scan .double (cur ++ file)).more [] 1) := by
  have hfuel : cur.length + 2 * file.length < c.fuel := by
    have h1 := h.filled
    have h2 := h.unread
    rw [List.length_cons] at h1
    rw [Ctx.fuel, h1, h2]
    omega
  exact (doubleQuoteLoop_scan _ h.skip hfuel).skip (.read (.write (.refl _ _))) rfl le_rfl (by simp)
    le_rfl

/-- The argument ends at a `#` or a `;`. -/
theorem stop_scan {fuel : Nat} (h : Zip c pre gap (b :: cur) file)
    (hb : b = hash ∨ b = semicolon) :
    Scans (parseStrLoop (fuel + 1) pre.length) c pre gap file (scan .word (b :: cur ++ file)) := by
  have hcur : c.cur = b := h.cur_eq
  rcases hb with rfl | rfl
  · refine Or.inl ⟨[], 0, hash :: (cur ++ file), c.setChar c.pos 0, ?_, ?_, rfl⟩
    · have hturn : Runs (parseStrTurn pre.length) c (.done false) (c.setChar c.pos 0) := by
        unfold parseStrTurn
        refine .read ?_
        rw [hcur, if_neg (by decide), if_neg (by decide), if_pos rfl]
        exact .write (.ret _ _)
      rw [List.append_nil]
      exact .seq hturn (.ret _ _)
    · rw [List.append_nil]
      exact Or.inr ⟨hash, cur, file, gap, c, rfl, h, le_rfl, rfl, rfl, Or.inr (Or.inl rfl),
        (if_pos rfl).symm⟩
  · refine Or.inl ⟨[], 0, semicolon :: (cur ++ file), c, ?_, ?_, rfl⟩
    · have hturn : Runs (parseStrTurn pre.length) c (.done true) c := by
        unfold parseStrTurn
        refine .read ?_
        rw [hcur, if_neg (by decide), if_neg (by decide), if_neg (by decide), if_neg (by decide),
          if_pos rfl]
        exact .ret _ _
      rw [List.append_nil]
      exact .seq hturn (.ret _ _)
    · rw [List.append_nil]
      exact Or.inr ⟨semicolon, cur, file, gap, c, rfl, h, le_rfl, rfl, rfl, Or.inr (Or.inr rfl),
        (if_neg (by decide)).symm⟩

/-- The argument goes on behind a backslash. -/
theorem escape_scan {fuel : Nat} (ih : LoopScans fuel) (h : Zip c pre gap (backslash :: cur) file)
    (hfuel : cur.length + 2 * file.length < fuel) :
    Scans (parseStrLoop (fuel + 1) pre.length) c pre gap file
      ((scan .escape (cur ++ file)).more [] 1) := by
  have hcur : c.cur = backslash := h.cur_eq
  have hturn : ∀ {parse c₁}, parseBackslash c = (parse, c₁) →
      Leads (parseStrTurn pre.length) c (if parse then do
          set (addc c₁ pre.length)
          return .next (pre.length + 1)
        else do
          set c₁
          return .next pre.length) c := by
    intro parse c₁ hparse
    unfold parseStrTurn
    refine .read ?_
    rw [hcur, if_neg (by decide), if_neg (by decide), if_neg (by decide), if_neg (by decide),
      if_neg (by decide), if_pos rfl]
    simp only [hparse]
    exact .refl _ _
  obtain ⟨x, cur, rfl, ⟨hjoin, hparse⟩ | ⟨hchar, hparse⟩⟩ := h.parseBackslash
  · have hz := h.skip
    rw [List.cons_append, (scan_escape_join hjoin _).1]
    have hnext := parseStrLoop_next fuel ((hturn hparse).runs (.write (.ret _ _)))
    by_cases hfile : file = []
    · subst hfile
      obtain ⟨hend, hfile, hout⟩ := hz.getln_eof
      exact (strCont_ended hend hfile).skip hnext hout le_rfl (by simp)
    · obtain ⟨y, rest', rfl, hz', hout⟩ := hz.getln_over hfile
      simp only [List.length_append, List.length_cons] at hfuel
      have hcont := strCont_scan ih hz' (hz'.line.resolve_left (by simp)) (by simp; omega)
      have htext : y ++ [newline] ++ rest' = y ++ newline :: rest' := by simp
      rw [htext] at hcont
      exact hcont.skip hnext hout (by simp; omega) (by simp)
  · have hz := h.skip.addc
    rw [List.cons_append, (scan_escape_char hchar).1, Scanned.more_more]
    have hline : Line (x :: cur) := (h.line.resolve_left (by simp)).tail (by decide)
    have hturn' : Runs (parseStrTurn pre.length) c (.next (pre ++ [x]).length)
        (addc { c with pos := c.pos + 1 } pre.length) := by
      rw [List.length_append]
      exact (hturn hparse).runs (.write (.ret _ _))
    simp only [List.length_cons] at hfuel
    have hcont := strCont_scan ih hz (hline.tail hchar.1) (by omega)
    exact hcont.more (parseStrLoop_next _ hturn') rfl le_rfl (by simp)

/-- **The loop of `parse_str`** follows the scan. -/
theorem parseStrLoop_scan : ∀ {fuel : Nat}, LoopScans fuel
  | 0 => by
    intro pre gap cur file b c h hb hfuel
    simp at hfuel
  | fuel + 1 => by
    intro pre gap cur file b c h hb hfuel
    have ih : LoopScans fuel := parseStrLoop_scan
    have hcur : c.cur = b := h.cur_eq
    rw [List.length_cons] at hfuel
    have hfuel' : cur.length + 2 * file.length < fuel := by omega
    have hline : Line (b :: cur) := h.line.resolve_left (by simp)
    by_cases hstop : b = hash ∨ b = semicolon
    · exact stop_scan h hstop
    rw [not_or] at hstop
    rw [List.cons_append, scan]
    by_cases hq : b = quote
    · subst hq
      rw [if_pos rfl]
      refine quoted_scan ih (parseSingleQuote_scan h) ?_ (by simp; omega)
      unfold parseStrTurn
      refine .read ?_
      rw [hcur, if_pos rfl]
      exact .refl _ _
    rw [if_neg hq]
    by_cases hdq : b = dquote
    · subst hdq
      rw [if_pos rfl]
      refine quoted_scan ih (parseDoubleQuote_scan h) ?_ (by simp; omega)
      unfold parseStrTurn
      refine .read ?_
      rw [hcur, if_neg (by decide), if_pos rfl]
      exact .refl _ _
    rw [if_neg hdq, if_neg (by simp [hstop, hb])]
    by_cases hesc : b = backslash
    · subst hesc
      rw [if_pos rfl]
      exact escape_scan ih h hfuel'
    · rw [if_neg hesc]
      have hplain : Plain b := ⟨h.cur_ne_zero, hq, hdq, hstop.1, hstop.2, hesc, hb⟩
      have hnl : b ≠ newline := by
        rintro rfl
        cases hb
      have hcont := strCont_scan ih h.addc (hline.tail hnl) hfuel'
      exact hcont.more (parseStrLoop_next _ (parseStrTurn_plain h hplain)) rfl le_rfl (by simp)

/-! ## `next_arg` -/

/-- White space in front of an argument. -/
theorem Zip.skipBlanks (h : Zip c pre gap cur file) : Zip (Uci.skipWhitespace c) pre
    (gap ++ cur.takeWhile isspace) (cur.dropWhile isspace) file := by
  obtain ⟨junk, hbuf⟩ := h.buf
  obtain ⟨junk', hdrop⟩ := h.drop_pos
  have htake : (c.buf.drop c.pos).takeWhile isspace = cur.takeWhile isspace := by
    rw [hdrop]
    have h0 : isspace 0 = false := rfl
    clear * - h0
    induction cur with
    | nil => simp [h0]
    | cons b cur ih =>
      rw [List.cons_append, List.takeWhile_cons, List.takeWhile_cons, ih]
  have hsplit : cur.takeWhile isspace ++ cur.dropWhile isspace = cur := List.takeWhile_append_dropWhile
  have hlen : (cur.takeWhile isspace).length + (cur.dropWhile isspace).length = cur.length := by
    rw [← List.length_append, hsplit]
  unfold Uci.skipWhitespace
  rw [htake]
  refine ⟨⟨junk, ?_⟩, ?_, ?_, h.unread, h.eof, ?_, ?_⟩
  · rw [hbuf]
    nth_rewrite 1 [← hsplit]
    simp only [List.append_assoc]
  · simp only [List.length_append, h.pos]
    omega
  · simp only [h.filled]
    omega
  · by_cases hnil : cur.dropWhile isspace = []
    · exact Or.inl hnil
    · have hline : Line (cur.takeWhile isspace ++ cur.dropWhile isspace) := by
        rw [hsplit]
        refine h.line.resolve_left ?_
        rintro rfl
        exact hnil rfl
      exact Or.inr (hline.of_append hnil)
  · have htext := h.text
    rw [← hsplit, List.append_assoc] at htext
    exact htext.of_append

/-- The buffer starts with `x`, and nothing is left of the line. -/
structure Dead (c : Ctx) (x : Str) : Prop where
  buf : ∃ junk, c.buf = x ++ junk
  ended : ∃ pre gap, Ended c pre gap

/-- What is left behind an argument. A `;` that follows directly is overwritten unless a character
    was dropped from the argument. -/
def Arrives (c : Ctx) (x : Str) (n : Nat) : Str → Prop
  | [] => Dead c x ∧ c.file = []
  | d :: rest =>
    if isspace d = true then
      ∃ gap cur file, Zip c x gap cur file ∧ cur ++ file = rest ∧ Line (d :: cur)
    else if d = semicolon ∧ n ≠ 0 then
      ∃ gap cur file, Zip c x gap (d :: cur) file ∧ cur ++ file = rest
    else Dead c x ∧ ∃ cur, Line (d :: cur) ∧ cur ++ c.file = rest

theorem Ended.dead (h : Ended c pre []) : Dead c (pre ++ [0]) := by
  obtain ⟨junk, hbuf⟩ := h.buf
  exact ⟨⟨junk, by simpa using hbuf⟩, pre, [], h⟩

theorem Ended.terminate (h : Ended c pre gap) : Dead (c.setChar pre.length 0) (pre ++ [0]) := by
  obtain ⟨junk, hbuf⟩ := h.buf
  have hpos := h.pos
  cases gap with
  | nil =>
    have hset : c.setChar pre.length 0 = c := by
      have hbuf' : c.buf.set pre.length 0 = c.buf := by
        rw [hbuf]
        simp
      rw [Ctx.setChar, hbuf']
    rw [hset]
    exact h.dead
  | cons g gap =>
    refine ⟨⟨gap ++ 0 :: junk, by simp [Ctx.setChar, hbuf]⟩, pre ++ [0], gap, ⟨junk, ?_⟩, ?_⟩
    · simp [Ctx.setChar, hbuf]
    · simp only [Ctx.setChar, hpos, List.length_append, List.length_cons, List.length_nil]
      omega

/-- What follows on the line is cut off. -/
theorem Zip.cut (h : Zip c pre gap (b :: cur) file) : Ended (c.setChar c.pos 0) pre gap := by
  obtain ⟨junk, hbuf⟩ := h.buf
  refine ⟨⟨cur ++ 0 :: junk, ?_⟩, h.pos⟩
  rw [Ctx.setChar, hbuf, h.pos, ← List.length_append]
  simp

theorem Zip.settle (h : Zip c pre gap cur file) : Zip c (pre ++ gap) [] cur file := by
  obtain ⟨junk, hbuf⟩ := h.buf
  exact ⟨⟨junk, by rw [hbuf]; simp⟩, by rw [h.pos]; simp, h.filled, h.unread, h.eof, h.line, h.text⟩

/-- The last steps of `parse_str`. -/
theorem parseStr_runs_of {target target' : Nat} {semi : Bool} {c₁ c₂ : Ctx}
    (hrun : Runs (parseStrLoop c.fuel target) c (target', semi) c₁)
    (hpos : (if c₁.cur ≠ 0 ∧ semi = false then { c₁ with pos := c₁.pos + 1 } else c₁) = c₂) :
    Runs (parseStr target) c () (c₂.setChar target' 0) := by
  unfold parseStr
  refine .read (.seq hrun (.read ?_))
  simp only [hpos]
  rfl

/-- **`parse_str`** reads an argument. -/
theorem parseStr_scan {v rest : Str} (h : Zip c pre [] (b :: cur) file)
    (hb : isspace b = false) (hscan : scan .word (b :: cur ++ file) = .arg v n rest) :
    ∃ c', Runs (parseStr pre.length) c () c' ∧ c'.outer = c.outer ∧
      Arrives c' (pre ++ v ++ [0]) n rest := by
  have hfuel : (b :: cur).length + 2 * file.length < c.fuel := by
    rw [Ctx.fuel, h.filled, h.unread]
    omega
  rcases parseStrLoop_scan _ _ _ _ _ _ h hb hfuel with
    ⟨v', n', rest', c₁, hrun, hhalt, heq⟩ | ⟨-, heq⟩
  · rw [hscan, Scanned.arg.injEq] at heq
    obtain ⟨rfl, rfl, rfl⟩ := heq
    rw [List.length_nil, Nat.zero_add] at hhalt
    rcases hhalt with ⟨rfl, hout, hfile, gap', hgap, hend⟩ |
      ⟨d, cur', file', gap', c₂, rfl, hz, hlen, hout, hgap, hd, rfl⟩
    · refine ⟨_, parseStr_runs_of hrun (if_neg (by simp [hend.cur_eq])), hout, ?_⟩
      exact ⟨hend.terminate, hfile⟩
    have hd0 : c₂.cur = d := hz.cur_eq
    have hne : c₂.cur ≠ 0 := hz.cur_pos (by simp)
    have hline : Line (d :: cur') := hz.line.resolve_left (by simp)
    rw [List.cons_append, List.head?_cons] at hrun
    rw [List.cons_append]
    by_cases hspace : isspace d = true
    · have hhash : d ≠ hash := by
        rintro rfl
        cases hspace
      have hsemi : (some d == some semicolon) = false := by
        have : d ≠ semicolon := by
          rintro rfl
          cases hspace
        simpa using this
      rw [if_neg hhash, hsemi] at hrun
      refine ⟨_, parseStr_runs_of hrun (if_pos ⟨hne, rfl⟩), hout, ?_⟩
      rw [Arrives, if_pos hspace]
      exact ⟨_, cur', file', hz.skip.terminate (by simp), rfl, hline⟩
    rcases hd.resolve_left hspace with rfl | rfl
    · -- the comment is cut off
      rw [if_pos rfl] at hrun
      have hend := hz.cut
      refine ⟨_, parseStr_runs_of hrun (if_neg (by simp [hend.cur_eq])), hout, ?_⟩
      rw [Arrives, if_neg hspace, if_neg (by simp [hash, semicolon])]
      refine ⟨hend.terminate, cur', hline, ?_⟩
      rw [show ((c₂.setChar c₂.pos 0).setChar (pre ++ v).length 0).file = file' from hz.unread]
    · rw [if_neg (by decide)] at hrun
      refine ⟨_, parseStr_runs_of hrun (if_neg (by simp)), hout, ?_⟩
      cases gap' with
      | nil =>
        -- the `;` is where the null byte goes
        obtain rfl : n = 0 := hgap.symm
        rw [Arrives, if_neg hspace, if_neg (by simp)]
        have hpos : c₂.pos = (pre ++ v).length := hz.pos
        have hend := hz.cut
        rw [hpos] at hend
        refine ⟨hend.dead, cur', hline, ?_⟩
        rw [show (c₂.setChar (pre ++ v).length 0).file = file' from hz.unread]
      | cons g gap' =>
        rw [Arrives, if_neg hspace, if_pos ⟨rfl, by rw [← hgap]; simp⟩]
        exact ⟨_, cur', file', hz.terminate (by simp), rfl⟩
  · rw [hscan] at heq
    cases heq

theorem skipWhitespace_idem (c : Ctx) :
    Uci.skipWhitespace (Uci.skipWhitespace c) = Uci.skipWhitespace c := by
  have hnil : ((c.buf.drop (c.pos + ((c.buf.drop c.pos).takeWhile isspace).length))).takeWhile
      isspace = [] := by
    rw [← List.drop_drop]
    generalize c.buf.drop c.pos = x
    induction x with
    | nil => rfl
    | cons b x ih =>
      by_cases hb : isspace b = true
      · rw [List.takeWhile_cons_of_pos hb, List.length_cons, List.drop_succ_cons]
        exact ih
      · rw [List.takeWhile_cons_of_neg hb]
        simp [hb]
  simp [Uci.skipWhitespace, hnil]

/-- White space in front of an argument is skipped. -/
theorem nextArg_skip (required name package : Bool) (c : Ctx) :
    Leads (nextArg required name package) c (nextArg required name package)
      (Uci.skipWhitespace c) := by
  have hskip := skipWhitespace_idem c
  unfold Leads nextArg
  simp only [bind, EStateM.bind, get, getThe, MonadStateOf.get, EStateM.get, hskip]
  by_cases hsemi : (Uci.skipWhitespace c).cur = semicolon
  · simp only [if_pos hsemi]
    rfl
  · simp only [if_neg hsemi]
    rfl

theorem Scanned.more_arg {v v' rest : Str} {n n' : Nat}
    (h : r.more v' n' = .arg v n rest) :
    ∃ v₁ n₁, r = .arg v₁ n₁ rest ∧ v = v' ++ v₁ ∧ n = n' + n₁ := by
  cases r with
  | arg value dropped rest' =>
    rw [Scanned.more, Scanned.arg.injEq] at h
    exact ⟨value, dropped, by rw [h.2.2], h.1.symm, h.2.1.symm⟩
  | unterminated => cases h

/-- What was read of a text stands in front of the rest. -/
structure Taken (t v rest : Str) (n : Nat) : Prop where
  split : ∃ s, t = s ++ rest ∧ (∀ x ∈ v, x ∈ s) ∧ v.length + n ≤ s.length

theorem Taken.more {t v rest : Str} (h : Taken t v rest n) (b : UInt8) :
    Taken (b :: t) v rest (n + 1) ∧ Taken (b :: t) (b :: v) rest n := by
  obtain ⟨s, rfl, hmem, hlen⟩ := h
  refine ⟨⟨b :: s, rfl, fun x hx => List.mem_cons_of_mem b (hmem x hx), ?_⟩, ⟨b :: s, rfl, ?_, ?_⟩⟩
  · rw [List.length_cons]
    omega
  · intro x hx
    rcases List.mem_cons.1 hx with rfl | hx
    · exact List.mem_cons_self
    · exact List.mem_cons_of_mem b (hmem x hx)
  · rw [List.length_cons, List.length_cons]
    omega

theorem Taken.mono {t v rest : Str} {n n' : Nat} (h : Taken t v rest n) (hn : n' ≤ n) :
    Taken t v rest n' := by
  obtain ⟨s, ht, hmem, hlen⟩ := h
  exact ⟨s, ht, hmem, by omega⟩

theorem scan_taken : ∀ {t v rest : Str} {n : Nat} {m : Mode}, scan m t = .arg v n rest →
    Taken t v rest n
  | [], v, rest, n, m, h => by
    cases m <;> cases h <;> exact ⟨[], rfl, by simp, le_rfl⟩
  | b :: t, v, rest, n, m, h => by
    -- one more character, which was dropped or read
    have hdrop : ∀ {m'}, (scan m' t).more [] 1 = .arg v n rest → Taken (b :: t) v rest n := by
      intro m' h
      obtain ⟨v₁, n₁, hr, rfl, rfl⟩ := Scanned.more_arg h
      have := ((scan_taken hr).more b).1
      rwa [Nat.add_comm] at this
    have hread : ∀ {m'}, (scan m' t).more [b] 0 = .arg v n rest → Taken (b :: t) v rest n := by
      intro m' h
      obtain ⟨v₁, n₁, hr, rfl, rfl⟩ := Scanned.more_arg h
      rw [Nat.zero_add]
      exact ((scan_taken hr).more b).2
    have hjoin : ∀ {m'}, scan m' t = .arg v n rest → Taken (b :: t) v rest n := by
      intro m' h
      exact ((scan_taken h).more b).1.mono (Nat.le_succ n)
    cases m with
    | word =>
      rw [scan] at h
      split_ifs at h
      · exact hdrop h
      · exact hdrop h
      · cases h
        exact ⟨[], rfl, by simp, le_rfl⟩
      · exact hdrop h
      · exact hread h
    | escape =>
      rw [scan] at h
      split_ifs at h
      · exact hjoin h
      · exact hjoin h
      · exact hread h
    | single =>
      rw [scan] at h
      split_ifs at h
      · exact hdrop h
      · exact hread h
    | double =>
      rw [scan] at h
      split_ifs at h
      · exact hdrop h
      · exact hdrop h
      · exact hread h
    | doubleEscape =>
      rw [scan] at h
      split_ifs at h
      · exact hjoin h
      · exact hjoin h
      · exact hread h

theorem parseStr_rejects (h : Zip c pre [] (b :: cur) file) (hb : isspace b = false)
    (hscan : scan .word (b :: cur ++ file) = .unterminated) :
    Rejects (parseStr pre.length) c := by
  have hfuel : (b :: cur).length + 2 * file.length < c.fuel := by
    rw [Ctx.fuel, h.filled, h.unread]
    omega
  rcases parseStrLoop_scan _ _ _ _ _ _ h hb hfuel with
    ⟨v, n, rest, c', -, -, heq⟩ | ⟨hfail, -⟩
  · rw [hscan] at heq
    cases heq
  · unfold parseStr
    exact .read hfail.first

section
variable {v rest : Str} {n : Nat} (required name package : Bool)

/-- Before an argument nothing is skipped, and `parse_str` reads it. -/
theorem nextArg_parseStr (h : Zip c pre gap (b :: cur) file) (hb : isspace b = false)
    (hsemi : b ≠ semicolon) :
    Leads (nextArg required name package) c (do
        parseStr (pre ++ gap).length
        checkArg required name package (pre ++ gap).length) c := by
  have hcur : c.cur = b := h.cur_eq
  have hskip : Uci.skipWhitespace c = c := h.skipWhitespace_eq hb
  have hpos : c.pos = (pre ++ gap).length := by rw [h.pos, List.length_append]
  unfold nextArg
  refine .read ?_
  simp only [hskip, hcur, if_neg hsemi, hpos]
  exact .refl _ _

theorem Arrives.dead {x rest' : Str} (h : Arrives c x n rest') : ∃ junk, c.buf = x ++ junk := by
  cases rest' with
  | nil => exact h.1.buf
  | cons d rest' =>
    rw [Arrives] at h
    split_ifs at h
    · obtain ⟨gap, cur, file, hz, -⟩ := h
      obtain ⟨junk, hbuf⟩ := hz.buf
      exact ⟨_, by rw [hbuf, List.append_assoc]⟩
    · obtain ⟨gap, cur, file, hz, -⟩ := h
      obtain ⟨junk, hbuf⟩ := hz.buf
      exact ⟨_, by rw [hbuf, List.append_assoc]⟩
    · exact h.1.buf

/-- A string in the part of the buffer that was parsed. -/
theorem str_of_buf {x v y junk : Str} (hbuf : c.buf = x ++ v ++ 0 :: y ++ junk) (hv : 0 ∉ v) :
    c.str x.length = v := by
  refine str_eq (show c.buf = x ++ (v ++ 0 :: (y ++ junk)) from ?_) hv
  rw [hbuf]
  simp

/-- **`next_arg`** reads an argument. -/
theorem nextArg_scan (h : Zip c pre gap (b :: cur) file) (hb : isspace b = false)
    (hsemi : b ≠ semicolon) (hscan : scan .word (b :: cur ++ file) = .arg v n rest)
    (hreq : required = true → v ≠ [])
    (hname : name = true → v ≠ [] → uciValidateStr v name package = true) :
    ∃ c', Runs (nextArg required name package) c (pre ++ gap).length c' ∧ c'.outer = c.outer ∧
      Arrives c' (pre ++ gap ++ v ++ [0]) n rest ∧ c'.str (pre ++ gap).length = v := by
  obtain ⟨c', hrun, hout, harr⟩ := parseStr_scan h.settle hb hscan
  have hv : 0 ∉ v := by
    obtain ⟨s, ht, hmem, -⟩ := (scan_taken hscan).split
    exact fun hm => h.text.nz (ht ▸ List.mem_append_left _ (hmem _ hm))
  obtain ⟨junk, hbuf⟩ := harr.dead
  have hstr : c'.str (pre ++ gap).length = v := str_of_buf (y := []) hbuf hv
  refine ⟨c', (nextArg_parseStr required name package h hb hsemi).runs (.seq hrun (.read ?_)), hout,
    harr, hstr⟩
  rw [hstr]
  cases v with
  | nil =>
    have hchar : c'.char (pre ++ gap).length = 0 := by
      rw [Ctx.char, hbuf]
      simp
    rw [if_pos hchar]
    cases required with
    | false => exact .ret _ _
    | true => exact absurd rfl (hreq rfl)
  | cons x v =>
    have hchar : c'.char (pre ++ gap).length ≠ 0 := by
      rw [Ctx.char, hbuf, List.append_assoc, List.append_assoc, getD_append_length]
      rintro rfl
      simp at hv
    rw [if_neg hchar]
    cases name with
    | false => exact .ret _ _
    | true =>
      rw [hname rfl (by simp)]
      exact .ret _ _

/-- An argument that is not closed, is missing, or is not a name. -/
theorem nextArg_rejects (h : Zip c pre gap (b :: cur) file) (hb : isspace b = false)
    (hsemi : b ≠ semicolon)
    (hscan : scan .word (b :: cur ++ file) = .unterminated ∨
      ∃ v n rest, scan .word (b :: cur ++ file) = .arg v n rest ∧
        (v = [] ∧ required = true ∨
          v ≠ [] ∧ name = true ∧ uciValidateStr v name package = false)) :
    Rejects (nextArg required name package) c := by
  refine Rejects.of_leads (nextArg_parseStr required name package h hb hsemi) rfl ?_
  rcases hscan with hopen | ⟨v, n, rest, hscan, hbad⟩
  · exact (parseStr_rejects h.settle hb hopen).first
  obtain ⟨c', hrun, hout, harr⟩ := parseStr_scan h.settle hb hscan
  obtain ⟨junk, hbuf⟩ := harr.dead
  refine .after hrun hout (.read ?_)
  rcases hbad with ⟨rfl, rfl⟩ | ⟨hne, rfl, hinv⟩
  · have hchar : c'.char (pre ++ gap).length = 0 := by
      rw [Ctx.char, hbuf]
      simp
    rw [if_pos hchar, if_pos rfl]
    exact (uciParseError_rejects _ _).first
  · have hv : 0 ∉ v := by
      obtain ⟨s, ht, hmem, -⟩ := (scan_taken hscan).split
      exact fun hm => h.text.nz (ht ▸ List.mem_append_left _ (hmem _ hm))
    have hstr : c'.str (pre ++ gap).length = v := str_of_buf (y := []) hbuf hv
    have hchar : c'.char (pre ++ gap).length ≠ 0 := by
      obtain ⟨x, v, rfl⟩ := List.exists_cons_of_ne_nil hne
      rw [Ctx.char, hbuf, List.append_assoc, List.append_assoc, getD_append_length]
      rintro rfl
      simp at hv
    rw [hstr, if_neg hchar, if_pos ⟨rfl, hinv⟩]
    exact (uciParseError_rejects _ _).first

end

/-- The argument is missing before a `;`, which is skipped. -/
theorem nextArg_semicolon (required name package : Bool)
    (h : Zip c pre gap (semicolon :: cur) file) :
    ∃ c', Leads (nextArg required name package) c
        (checkArg required name package (pre ++ gap).length) c' ∧ c'.outer = c.outer ∧
      Zip c' (pre ++ gap ++ [0]) [] cur file := by
  have hcur : c.cur = semicolon := h.cur_eq
  have hskip : Uci.skipWhitespace c = c :=
    h.skipWhitespace_eq (show isspace semicolon = false from rfl)
  have hpos : c.pos = (pre ++ gap).length := by rw [h.pos, List.length_append]
  have hz := h.settle.skip.terminate (by simp)
  rw [← hpos] at hz
  refine ⟨{ c.setChar c.pos 0 with pos := c.pos + 1 }, ?_, rfl, hz⟩
  unfold nextArg
  refine .read ?_
  simp only [hskip, hcur, if_true, hpos]
  exact .write (.refl _ _)

end

end Uci
