/-
  What the tokenizer reads. The buffer is seen as the part before the target, the gap up to the
  position, the rest of the line, and the null byte; a text that `Lex` relates to a value is read as
  this value, over any number of lines and whatever the size of the buffer.
-/
import IotLib.Lib.Exec
import IotLib.Uci.Parse

namespace Uci

open Exec

/-! ## Lines -/

/-- A line with its newline. -/
def Line (str : Str) : Prop := ∃ x, str = x ++ [newline] ∧ newline ∉ x

/-- What can be read line by line: there is no null byte, and the last line has a newline. -/
structure Text (str : Str) : Prop where
  nz : 0 ∉ str
  last : str ≠ [] → str.getLast? = some newline

section
-- the equations of these definitions, which the lemmas below rewrite with
attribute [local simp] parseStrTurn singleQuoteLoop fgets getlnLoop uciGetln
end

theorem Text.nil : Text [] := ⟨by simp, by simp⟩

theorem Text.of_append {x y : Str} (h : Text (x ++ y)) : Text y := by
  refine ⟨fun hm => h.nz (List.mem_append_right _ hm), fun hy => ?_⟩
  rw [← h.last (by simp [hy]), List.getLast?_append_of_ne_nil _ hy]

/-- The first line of a text. -/
theorem Text.split {str : Str} (h : Text str) (hne : str ≠ []) :
    ∃ x rest, str = x ++ newline :: rest ∧ newline ∉ x := by
  have hmem : newline ∈ str := List.mem_of_getLast? (h.last hne)
  exact List.eq_append_cons_of_mem hmem

theorem Line.cons {b : UInt8} {str : Str} (h : Line (b :: str)) :
    (b = newline ∧ str = []) ∨ (b ≠ newline ∧ Line str) := by
  obtain ⟨x, heq, hx⟩ := h
  cases x with
  | nil =>
    rw [List.nil_append, List.cons.injEq] at heq
    exact Or.inl heq
  | cons a x =>
    rw [List.cons_append, List.cons.injEq] at heq
    obtain ⟨rfl, rfl⟩ := heq
    rw [List.mem_cons, not_or] at hx
    exact Or.inr ⟨Ne.symm hx.1, x, rfl, hx.2⟩

theorem Line.tail {b : UInt8} {str : Str} (h : Line (b :: str)) (hb : b ≠ newline) : Line str := by
  rcases h.cons with ⟨hnl, -⟩ | ⟨-, hl⟩
  · exact absurd hnl hb
  · exact hl

theorem Line.of_append {x y : Str} (h : Line (x ++ y)) (hy : y ≠ []) : Line y := by
  induction x with
  | nil => exact h
  | cons b x ih =>
    rcases Line.cons h with ⟨-, hnil⟩ | ⟨-, hl⟩
    · exact absurd (List.append_eq_nil_iff.1 hnil).2 hy
    · exact ih hl

theorem Line.ne_nil {str : Str} (h : Line str) : str ≠ [] := by
  obtain ⟨x, rfl, -⟩ := h
  simp

/-! ## Reading a line -/

/-- The fields of the import. -/
abbrev Outer := Bool × List Package × Option Str × Option Package × Option Nat × Bool

/-- The fields that the tokenizer leaves alone. -/
def Ctx.outer (c : Ctx) : Outer :=
  (c.strict, c.root, c.name, c.package, c.sect, c.merge)

theorem fgets_line {x rest : Str} (hx : newline ∉ x) :
    ∀ {n : Nat}, x.length < n → fgets n (x ++ newline :: rest) = (x ++ [newline], rest, false) := by
  induction x with
  | nil =>
    intro n hn
    cases n with
    | zero => simp at hn
    | succ n => simp [fgets]
  | cons b x ih =>
    intro n hn
    rw [List.mem_cons, not_or] at hx
    cases n with
    | zero => simp at hn
    | succ n =>
      have hlt : x.length < n := by simpa using hn
      simp [fgets, Ne.symm hx.1, ih hx.2 hlt]

theorem fgets_part {x rest : Str} (hx : newline ∉ x) :
    ∀ {n : Nat}, n ≤ x.length → fgets n (x ++ rest) = (x.take n, x.drop n ++ rest, false) := by
  induction x with
  | nil =>
    intro n hn
    simp at hn
    simp [hn, fgets]
  | cons b x ih =>
    intro n hn
    rw [List.mem_cons, not_or] at hx
    cases n with
    | zero => simp [fgets]
    | succ n =>
      have hle : n ≤ x.length := by simpa using hn
      simp [fgets, Ne.symm hx.1, ih hx.2 hle]

theorem getD_append_length {α : Type} (l r : List α) (d : α) :
    (l ++ r).getD l.length d = r.headD d := by
  simp [List.getD_eq_getElem?_getD, List.getElem?_append_right, List.headD_eq_head?_getD,
    List.head?_eq_getElem?]

theorem takeWhile_nz {x junk : Str} (hx : 0 ∉ x) :
    (x ++ 0 :: junk).takeWhile (fun b => b != 0) = x := by
  rw [List.takeWhile_append_of_pos]
  · simp
  · intro b hb
    simp only [bne_iff_ne, ne_eq]
    rintro rfl
    exact hx hb

/-- The string at the end of a known part of the buffer. -/
theorem str_eq {c : Ctx} {pre x junk : Str} (hbuf : c.buf = pre ++ (x ++ 0 :: junk)) (hx : 0 ∉ x) :
    c.str pre.length = x := by
  rw [Ctx.str, hbuf, List.drop_left, takeWhile_nz hx]

theorem char_mem {c : Ctx} {pre x junk : Str} (hbuf : c.buf = pre ++ (x ++ junk)) {i : Nat}
    (hi : i < x.length) : c.char (pre.length + i) ∈ x := by
  have hget : c.char (pre.length + i) = x[i] := by
    rw [Ctx.char, hbuf, List.getD_eq_getElem?_getD, List.getElem?_append_right (Nat.le_add_right _ _),
      Nat.add_sub_cancel_left, List.getElem?_append_left hi, List.getElem?_eq_getElem hi]
    rfl
  rw [hget]
  exact List.getElem_mem hi

/-- What `uci_getln` leaves at the given offset. -/
structure GotLine (c c' : Ctx) (pre x rest : Str) : Prop where
  buf : ∃ junk, c'.buf = pre ++ (x ++ [newline] ++ 0 :: junk)
  filled : c'.bufFilled = pre.length + x.length + 1
  file : c'.file = rest
  eof : c'.eof = c.eof
  pos : c'.pos = c.pos
  outer : c'.outer = c.outer

theorem gets_eq {c : Ctx} {pre r rest : Str} (hpre : c.buf.take pre.length = pre)
    (h : fgets (c.buf.length - pre.length - 1) c.file = (r, rest, false)) :
    c.gets pre.length = { c with
      buf := pre ++ (r ++ 0 :: c.buf.drop (pre.length + r.length + 1)), file := rest } := by
  simp [Ctx.gets, h, hpre]

/-- The loop doubles the buffer until it holds the line. -/
theorem getlnLoop_line {rest : Str} : ∀ {fuel : Nat} {x pre : Str} {c : Ctx}, newline ∉ x → 0 ∉ x →
    x.length < fuel → pre.length + 1 < c.buf.length → c.buf.take pre.length = pre →
    c.file = x ++ newline :: rest → GotLine c (getlnLoop fuel pre.length c) pre x rest
  | 0, _, _, _, _, _, hfuel, _, _, _ => by simp at hfuel
  | fuel + 1, x, pre, c, hnl, hnz, hfuel, hroom, hpre, hfile => by
    unfold getlnLoop
    by_cases hlt : x.length < c.buf.length - pre.length - 1
    · -- the line fits
      have hget : fgets (c.buf.length - pre.length - 1) c.file = (x ++ [newline], rest, false) := by
        rw [hfile, fgets_line hnl hlt]
      have heq := gets_eq hpre hget
      have hstr : (c.gets pre.length).str pre.length = x ++ [newline] := by
        refine str_eq (by rw [heq]) ?_
        simpa [newline] using hnz
      have hchar : (c.gets pre.length).char (pre.length + (x.length + 1) - 1) = newline := by
        have hlen : pre.length + (x.length + 1) - 1 = (pre ++ x).length := by simp
        rw [Ctx.char, heq, hlen]
        simp only [List.append_assoc]
        rw [← List.append_assoc, getD_append_length]
        rfl
      simp only [hstr, List.length_append, List.length_singleton]
      rw [if_neg (Nat.succ_ne_zero _), if_pos hchar, heq]
      exact ⟨⟨_, rfl⟩, by simp [Nat.add_assoc], rfl, rfl, rfl, rfl⟩
    · -- the buffer is filled, and doubled
      set n := c.buf.length - pre.length - 1 with hn
      have hle : n ≤ x.length := not_lt.1 hlt
      have hpos : 0 < n := by omega
      have hget : fgets n c.file = (x.take n, x.drop n ++ newline :: rest, false) := by
        rw [hfile, fgets_part hnl hle]
      have heq := gets_eq hpre hget
      have htake : (x.take n).length = n := by simp [hle]
      have hstr : (c.gets pre.length).str pre.length = x.take n :=
        str_eq (by rw [heq]) fun hm => hnz (List.mem_of_mem_take hm)
      have hchar : (c.gets pre.length).char (pre.length + n - 1) ≠ newline := by
        intro hc
        have hmem : (c.gets pre.length).char (pre.length + (n - 1)) ∈ x.take n :=
          char_mem (by rw [heq]) (by omega)
        rw [← Nat.add_sub_assoc hpos, hc] at hmem
        exact hnl (List.mem_of_mem_take hmem)
      simp only [hstr, htake]
      rw [if_neg hpos.ne', if_neg hchar]
      have hnil : c.buf.drop (pre.length + (x.take n).length + 1) = [] :=
        List.drop_eq_nil_of_le (by omega)
      rw [hnil] at heq
      have hlen : (pre ++ x.take n).length = pre.length + n := by simp [htake]
      set c₁ : Ctx := { (c.gets pre.length).grow with bufFilled := pre.length + n } with hc₁
      have hbuf₁ : c₁.buf = (pre ++ x.take n) ++ 0 :: List.replicate (pre.length + n + 1) 0 := by
        simp [hc₁, Ctx.grow, heq, hle, Nat.add_assoc]
      have hrec : GotLine c₁ (getlnLoop fuel (pre ++ x.take n).length c₁) (pre ++ x.take n)
          (x.drop n) rest := by
        refine getlnLoop_line (fun hm => hnl (List.mem_of_mem_drop hm))
          (fun hm => hnz (List.mem_of_mem_drop hm)) ?_ ?_ ?_ ?_
        · rw [List.length_drop]
          omega
        · rw [hbuf₁]
          simp [hle]
          omega
        · rw [hbuf₁, List.take_left]
        · simp [hc₁, Ctx.grow, heq]
      rw [hlen] at hrec
      obtain ⟨⟨junk, hbuf⟩, hfilled, hfile', heof, hpos', houter⟩ := hrec
      refine ⟨⟨junk, ?_⟩, ?_, hfile', ?_, ?_, ?_⟩
      · rw [hbuf]
        have hx : x.take n ++ x.drop n = x := List.take_append_drop n x
        nth_rewrite 3 [← hx]
        simp only [List.append_assoc]
      · rw [hfilled, hlen, List.length_drop]
        omega
      · rw [heof]
        simp [hc₁, Ctx.grow, heq]
      · rw [hpos']
        simp [hc₁, Ctx.grow, heq]
      · rw [houter]
        simp [hc₁, Ctx.grow, heq, Ctx.outer]

/-- **Reading a line** at an offset in the buffer. -/
theorem uciGetln_line {c : Ctx} {pre x rest : Str} (hnl : newline ∉ x) (hnz : 0 ∉ x)
    (hbuf : c.buf = [] ∧ pre = [] ∨ pre.length < c.buf.length ∧ c.buf.take pre.length = pre)
    (hfile : c.file = x ++ newline :: rest) :
    GotLine c (uciGetln c pre.length) pre x rest := by
  unfold uciGetln
  set c₁ : Ctx := if c.buf = [] then { c with buf := List.replicate linebuf 0 } else c with hc₁
  have h₁ : pre.length < c₁.buf.length ∧ c₁.buf.take pre.length = pre ∧ c₁.file = c.file ∧
      c₁.eof = c.eof ∧ c₁.pos = c.pos ∧ c₁.outer = c.outer := by
    rcases hbuf with ⟨hnil, rfl⟩ | ⟨hlt, hpre⟩
    · simp [hc₁, hnil, linebuf, Ctx.outer]
    · have hne : c.buf ≠ [] := by
        rintro hnil
        simp [hnil] at hlt
      rw [hc₁, if_neg hne]
      exact ⟨hlt, hpre, rfl, rfl, rfl, rfl⟩
  obtain ⟨hlt, hpre, hfile₁, heof₁, hpos₁, houter₁⟩ := h₁
  set c₂ : Ctx := if c₁.buf.length - 1 ≤ pre.length then c₁.grow else c₁ with hc₂
  have h₂ : pre.length + 1 < c₂.buf.length ∧ c₂.buf.take pre.length = pre ∧ c₂.file = c.file ∧
      c₂.eof = c.eof ∧ c₂.pos = c.pos ∧ c₂.outer = c.outer := by
    simp only [hc₂]
    split_ifs with hgrow
    · refine ⟨?_, ?_, hfile₁, heof₁, hpos₁, houter₁⟩
      · simp only [Ctx.grow, List.length_append, List.length_replicate]
        omega
      · rw [Ctx.grow, List.take_append_of_le_length hlt.le, hpre]
    · exact ⟨by omega, hpre, hfile₁, heof₁, hpos₁, houter₁⟩
  obtain ⟨hlt₂, hpre₂, hfile₂, heof₂, hpos₂, houter₂⟩ := h₂
  have hloop : GotLine c₂ (getlnLoop (c₂.file.length + 1) pre.length c₂) pre x rest := by
    refine getlnLoop_line hnl hnz ?_ hlt₂ hpre₂ (hfile₂.trans hfile)
    rw [hfile₂, hfile, List.length_append]
    omega
  exact ⟨hloop.buf, hloop.filled, hloop.file, hloop.eof.trans heof₂, hloop.pos.trans hpos₂,
    hloop.outer.trans houter₂⟩

/-! ## The zipper -/

/-- The buffer: `pre` up to the target, the gap up to the position, the rest of
    the line; then there is the rest of the file. -/
structure Zip (c : Ctx) (pre gap cur file : Str) : Prop where
  buf : ∃ junk, c.buf = pre ++ gap ++ (cur ++ 0 :: junk)
  pos : c.pos = pre.length + gap.length
  filled : c.bufFilled = c.pos + cur.length
  unread : c.file = file
  eof : c.eof = false
  line : cur = [] ∨ Line cur
  text : Text (cur ++ file)

section
variable {c : Ctx} {pre gap cur file : Str} {b : UInt8}

theorem Zip.cur_eq (h : Zip c pre gap cur file) : c.cur = cur.headD 0 := by
  obtain ⟨junk, hbuf⟩ := h.buf
  rw [Ctx.cur, Ctx.char, hbuf, h.pos, ← List.length_append, getD_append_length]
  cases cur <;> rfl

theorem Zip.cur_ne_zero (h : Zip c pre gap (b :: cur) file) : b ≠ 0 := by
  rintro rfl
  exact h.text.nz (by simp)

theorem Zip.cur_pos (h : Zip c pre gap cur file) (hne : cur ≠ []) : c.cur ≠ 0 := by
  rw [h.cur_eq]
  cases cur with
  | nil => exact absurd rfl hne
  | cons b cur => exact h.cur_ne_zero

theorem Zip.tail_line (h : Zip c pre gap (b :: cur) file) : cur = [] ∨ Line cur := by
  rcases (h.line.resolve_left (by simp)).cons with ⟨-, h⟩ | ⟨-, h⟩
  · exact Or.inl h
  · exact Or.inr h

/-- The position moves on. -/
theorem Zip.skip (h : Zip c pre gap (b :: cur) file) :
    Zip { c with pos := c.pos + 1 } pre (gap ++ [b]) cur file := by
  obtain ⟨junk, hbuf⟩ := h.buf
  refine ⟨⟨junk, by simp [hbuf]⟩, ?_, ?_, h.unread, h.eof, h.tail_line, h.text.of_append (x := [b])⟩
  · have := h.pos
    simp only [List.length_append, List.length_singleton]
    omega
  · have := h.filled
    simp only [List.length_cons] at this
    show c.bufFilled = c.pos + 1 + cur.length
    omega

/-- A character is copied to the target. -/
theorem Zip.addc (h : Zip c pre gap (b :: cur) file) :
    Zip (addc c pre.length) (pre ++ [b]) (gap ++ [b]).tail cur file := by
  obtain ⟨junk, hbuf⟩ := h.buf
  have hcur : c.cur = b := h.cur_eq
  refine ⟨⟨junk, ?_⟩, ?_, ?_, h.unread, h.eof, h.tail_line, h.text.of_append (x := [b])⟩
  · simp only [Uci.addc, Ctx.setChar, hbuf, hcur]
    cases gap <;> simp
  · have := h.pos
    simp only [Uci.addc, List.length_append, List.length_singleton, List.length_tail]
    omega
  · have := h.filled
    simp only [List.length_cons] at this
    simp only [Uci.addc, Ctx.setChar]
    omega

/-- The next line is read behind the position. -/
theorem Zip.getln (h : Zip c pre gap [] file) (hne : file ≠ []) :
    ∃ x rest, file = x ++ newline :: rest ∧ Zip (uciGetln c c.pos) pre gap (x ++ [newline]) rest ∧
      (uciGetln c c.pos).outer = c.outer := by
  obtain ⟨junk, hbuf⟩ := h.buf
  have htext : Text file := h.text
  obtain ⟨x, rest, rfl, hnl⟩ := htext.split hne
  have hnz : 0 ∉ x := fun hm => htext.nz (List.mem_append_left _ hm)
  have hpos : c.pos = (pre ++ gap).length := by rw [h.pos, List.length_append]
  have hgot : GotLine c (uciGetln c (pre ++ gap).length) (pre ++ gap) x rest := by
    refine uciGetln_line hnl hnz (Or.inr ⟨?_, ?_⟩) h.unread
    · rw [hbuf, List.length_append]
      simp
    · rw [hbuf, List.take_left]
  rw [← hpos] at hgot
  refine ⟨x, rest, rfl, ⟨hgot.buf, hgot.pos.trans h.pos, ?_, hgot.file, hgot.eof.trans h.eof,
    Or.inr ⟨x, rfl, hnl⟩, by simpa using htext⟩, hgot.outer⟩
  rw [hgot.filled, hgot.pos, hpos]
  simp [Nat.add_assoc]

/-- The context with the next line at the start of its buffer. -/
def Ctx.nextLine (c : Ctx) : Ctx := uciGetln { c with pos := 0 } 0

/-- The first line of a file that is being read. -/
theorem Zip.start {x rest : Str} (hfile : c.file = x ++ newline :: rest) (heof : c.eof = false)
    (hnl : newline ∉ x) (htext : Text c.file) :
    Zip c.nextLine [] [] (x ++ [newline]) rest ∧ c.nextLine.outer = c.outer := by
  have hnz : 0 ∉ x := fun hm => htext.nz (hfile ▸ List.mem_append_left _ hm)
  have hgot : GotLine { c with pos := 0 } (uciGetln { c with pos := 0 } (List.length ([] : Str)))
      [] x rest := by
    refine uciGetln_line hnl hnz ?_ hfile
    by_cases hb : c.buf = []
    · exact Or.inl ⟨hb, rfl⟩
    · exact Or.inr ⟨List.length_pos_of_ne_nil hb, rfl⟩
  change GotLine _ c.nextLine _ _ _ at hgot
  refine ⟨⟨hgot.buf, hgot.pos, ?_, hgot.file, hgot.eof.trans heof, Or.inr ⟨x, rfl, hnl⟩, ?_⟩,
    hgot.outer⟩
  · have h1 := hgot.filled
    have h2 : c.nextLine.pos = 0 := hgot.pos
    simp only [List.length_nil] at h1
    simp only [h1, h2, List.length_append, List.length_singleton]
    omega
  · rw [hfile] at htext
    simpa using htext

/-- At the end of the file. -/
theorem nextLine_eof (hfile : c.file = []) :
    c.nextLine.eof = true ∧ c.nextLine.char 0 = 0 ∧ c.nextLine.outer = c.outer := by
  have hgets : ∀ {n : Nat} {c : Ctx}, c.file = [] → 1 < c.buf.length →
      (getlnLoop (n + 1) 0 c).eof = true ∧ (getlnLoop (n + 1) 0 c).char 0 = 0 ∧
        (getlnLoop (n + 1) 0 c).outer = c.outer := by
    intro n c hfile hlen
    obtain ⟨k, hk⟩ : ∃ k, c.buf.length - 0 - 1 = k + 1 := ⟨c.buf.length - 2, by omega⟩
    have hget : fgets (c.buf.length - 0 - 1) c.file = ([], [], true) := by
      rw [hk, hfile]
      rfl
    have heq : c.gets 0 = { c with buf := 0 :: c.buf.drop 1, file := [], eof := true } := by
      simp only [Ctx.gets, hget, Bool.or_true]
      rfl
    have hstr : (c.gets 0).str 0 = [] := by
      rw [heq]
      rfl
    have hloop : getlnLoop (n + 1) 0 c = c.gets 0 := by
      unfold getlnLoop
      rw [if_pos (by rw [hstr]; rfl)]
    rw [hloop, heq]
    exact ⟨rfl, rfl, rfl⟩
  unfold Ctx.nextLine uciGetln
  by_cases hbuf : c.buf = []
  · simp only [hbuf, if_true, linebuf, List.length_replicate]
    rw [if_neg (by omega)]
    exact hgets hfile (by simp)
  · have hpos := List.length_pos_of_ne_nil hbuf
    simp only [if_neg hbuf]
    split_ifs with hgrow
    · exact hgets hfile (by simp [Ctx.grow]; omega)
    · exact hgets hfile (by simp at hgrow ⊢; omega)

/-! ## Arguments -/

/-- The state after a part of the input was read: what is behind the target, and what is left. The
    rest of the file only gets shorter. -/
structure Reads (c c' : Ctx) (pre file rest : Str) (gap' cur' file' : Str) : Prop where
  zip : Zip c' pre gap' cur' file'
  left : cur' ++ file' = rest
  shorter : file'.length ≤ file.length
  outer : c'.outer = c.outer

theorem Reads.trans {c c' c₁ : Ctx} {pre file file₁ rest gap' cur' file' : Str}
    (h : Reads c₁ c' pre file₁ rest gap' cur' file') (hout : c₁.outer = c.outer)
    (hlen : file₁.length ≤ file.length) : Reads c c' pre file rest gap' cur' file' :=
  ⟨h.zip, h.left, h.shorter.trans hlen, h.outer.trans hout⟩

/-- A single quoted part, after the quote. -/
theorem singleQuoteLoop_runs {rest : Str} : ∀ {fuel : Nat} {body pre gap cur file : Str} {c : Ctx},
    Zip c pre gap cur file → cur ++ file = body ++ quote :: rest → quote ∉ body →
    cur.length + 2 * file.length < fuel →
    ∃ c' gap' cur' file', Runs (singleQuoteLoop fuel pre.length) c (pre ++ body).length c' ∧
      Reads c c' (pre ++ body) file rest gap' cur' file' ∧ Line cur'
  | 0, _, _, _, _, _, _, _, _, _, hfuel => by simp at hfuel
  | fuel + 1, body, pre, gap, [], file, c, h, heq, hq, hfuel => by
    -- the end of a line
    have hcur : c.cur = 0 := h.cur_eq
    rw [List.nil_append] at heq
    obtain ⟨x, rest', rfl, hz, hout⟩ := h.getln (by rw [heq]; simp)
    have hcur' : (uciGetln c c.pos).cur ≠ 0 := hz.cur_pos (by simp)
    simp only [List.length_nil, List.length_append, List.length_cons] at hfuel
    have hlt : (x ++ [newline]).length + 2 * rest'.length < fuel := by
      rw [List.length_append, List.length_singleton]
      omega
    obtain ⟨c', gap', cur', file', hrun, hreads, hline⟩ :=
      singleQuoteLoop_runs hz (by simpa using heq) hq hlt
    refine ⟨c', gap', cur', file', ?_, hreads.trans hout (by simp; omega), hline⟩
    unfold singleQuoteLoop
    refine .read ?_
    rw [if_neg (by rw [hcur]; decide), if_pos hcur]
    refine .write ?_
    rw [if_neg hcur']
    exact hrun
  | fuel + 1, [], pre, gap, b :: cur, file, c, h, heq, hq, hfuel => by
    -- the quote
    rw [List.nil_append, List.cons_append, List.cons.injEq] at heq
    obtain ⟨rfl, hleft⟩ := heq
    have hline : Line cur := (h.line.resolve_left (by simp)).tail (by decide)
    have hcur : c.cur = quote := h.cur_eq
    rw [List.append_nil]
    refine ⟨{ c with pos := c.pos + 1 }, _, _, _, ?_, ⟨h.skip, hleft, le_rfl, rfl⟩, hline⟩
    unfold singleQuoteLoop
    refine .read ?_
    rw [if_pos hcur]
    exact .write (.ret _ _)
  | fuel + 1, b' :: body, pre, gap, b :: cur, file, c, h, heq, hq, hfuel => by
    rw [List.cons_append, List.cons_append, List.cons.injEq] at heq
    obtain ⟨rfl, heq⟩ := heq
    rw [List.mem_cons, not_or] at hq
    have hcur : c.cur = b := h.cur_eq
    rw [List.length_cons] at hfuel
    have hlt : cur.length + 2 * file.length < fuel := by omega
    obtain ⟨c', gap', cur', file', hrun, hreads, hline⟩ :=
      singleQuoteLoop_runs h.addc heq hq.2 hlt
    rw [List.append_assoc, List.singleton_append] at hrun hreads
    refine ⟨c', gap', cur', file', ?_, hreads.trans rfl le_rfl, hline⟩
    unfold singleQuoteLoop
    refine .read ?_
    rw [if_neg (by rw [hcur]; exact Ne.symm hq.1), if_neg (by rw [hcur]; exact h.cur_ne_zero)]
    refine .write ?_
    rw [List.length_append] at hrun
    exact hrun

theorem parseSingleQuote_runs {body rest : Str} (h : Zip c pre gap (quote :: cur) file)
    (heq : cur ++ file = body ++ quote :: rest) (hq : quote ∉ body) :
    ∃ c' gap' cur' file', Runs (parseSingleQuote pre.length) c (pre ++ body).length c' ∧
      Reads c c' (pre ++ body) file rest gap' cur' file' ∧ Line cur' := by
  have hfuel : cur.length + 2 * file.length < c.fuel := by
    have h1 := h.filled
    have h2 := h.unread
    rw [List.length_cons] at h1
    rw [Ctx.fuel, h1, h2]
    omega
  obtain ⟨c', gap', cur', file', hrun, hreads, hline⟩ :=
    singleQuoteLoop_runs h.skip heq hq hfuel
  exact ⟨c', gap', cur', file', .read (.write hrun), hreads.trans rfl le_rfl, hline⟩

/-- Characters that stand for themselves. -/
def Plain (b : UInt8) : Prop :=
  b ≠ 0 ∧ b ≠ quote ∧ b ≠ dquote ∧ b ≠ hash ∧ b ≠ semicolon ∧ b ≠ backslash ∧ isspace b = false

instance : DecidablePred Plain := fun _ => inferInstanceAs (Decidable (_ ∧ _))

/-- The text of an argument, and its value. -/
inductive Lex : Str → Str → Prop
  | nil : Lex [] []
  | plain {b t v} : Plain b → Lex t v → Lex (b :: t) (b :: v)
  | quoted {body t v} : quote ∉ body → Lex t v →
      Lex (quote :: (body ++ quote :: t)) (body ++ v)
  | escaped {b t v} : b ≠ 0 → b ≠ newline → b ≠ carriage → Lex t v →
      Lex (backslash :: b :: t) (b :: v)

theorem Lex.head {t v : Str} (h : Lex (b :: t) v) : isspace b = false := by
  cases h with
  | plain hb _ => exact hb.2.2.2.2.2.2
  | quoted _ _ => decide
  | escaped _ _ _ _ => decide

theorem Lex.append {t t' v v' : Str} (h : Lex t v) (h' : Lex t' v') : Lex (t ++ t') (v ++ v') := by
  induction h with
  | nil => exact h'
  | plain hb _ ih => exact .plain hb ih
  | quoted hq _ ih => simpa using Lex.quoted hq ih
  | escaped h0 h1 h2 _ ih => exact .escaped h0 h1 h2 ih

theorem Lex.of_plain {t : Str} (h : ∀ b ∈ t, Plain b) : Lex t t := by
  induction t with
  | nil => exact .nil
  | cons b t ih => exact .plain (h b (by simp)) (ih fun x hx => h x (by simp [hx]))

/-- The loop of `parse_str` reads the text `t` as `v`, up to a white space. -/
def Parses (t v : Str) : Prop :=
  ∀ {fuel : Nat} {pre gap cur file : Str} {c : Ctx} {d : UInt8} {rest : Str},
    Zip c pre gap cur file → Line cur → cur ++ file = t ++ d :: rest → isspace d = true →
    cur.length + 2 * file.length < fuel →
    ∃ c' gap' cur' file', Runs (parseStrLoop fuel pre.length) c ((pre ++ v).length, false) c' ∧
      Reads c c' (pre ++ v) file (d :: rest) gap' cur' file' ∧ Line cur'

/-- The end of a turn: the argument goes on, or has been read. -/
theorem continue_runs {t v rest : Str} {d : UInt8} {fuel : Nat} (hlex : Lex t v)
    (ih : t ≠ [] → Parses t v) (h : Zip c pre gap cur file) (hline : Line cur)
    (heq : cur ++ file = t ++ d :: rest) (hd : isspace d = true)
    (hfuel : cur.length + 2 * file.length < fuel) :
    ∃ c' gap' cur' file', Runs (do
        let c ← get
        if c.cur ≠ 0 ∧ isspace c.cur = false then parseStrLoop fuel pre.length
        else return (pre.length, false)) c ((pre ++ v).length, false) c' ∧
      Reads c c' (pre ++ v) file (d :: rest) gap' cur' file' ∧ Line cur' := by
  obtain ⟨b, cur, rfl⟩ := List.exists_cons_of_ne_nil hline.ne_nil
  have hcur : c.cur = b := h.cur_eq
  cases t with
  | nil =>
    cases hlex
    rw [List.cons_append, List.nil_append, List.cons.injEq] at heq
    obtain ⟨rfl, hleft⟩ := heq
    rw [List.append_nil]
    refine ⟨c, gap, b :: cur, file, .read ?_, ⟨h, by simp [hleft], le_rfl, rfl⟩, hline⟩
    rw [if_neg (by simp [hcur, hd])]
    exact .ret _ _
  | cons a t =>
    rw [List.cons_append, List.cons_append, List.cons.injEq] at heq
    obtain ⟨rfl, heq⟩ := heq
    obtain ⟨c', gap', cur', file', hrun, hreads, hline'⟩ :=
      ih (by simp) h hline (show b :: cur ++ file = b :: t ++ d :: rest by simp [heq]) hd hfuel
    refine ⟨c', gap', cur', file', .read ?_, hreads, hline'⟩
    rw [if_pos ⟨by rw [hcur]; exact h.cur_ne_zero, by rw [hcur]; exact hlex.head⟩]
    exact hrun

theorem parseStrTurn_plain (h : Zip c pre gap (b :: cur) file) (hb : Plain b) :
    Runs (parseStrTurn pre.length) c (.next (pre ++ [b]).length) (addc c pre.length) := by
  have hcur : c.cur = b := h.cur_eq
  obtain ⟨h0, h1, h2, h3, h4, h5, -⟩ := hb
  unfold parseStrTurn
  refine .read ?_
  rw [hcur, if_neg h1, if_neg h2, if_neg h3, if_neg h0, if_neg h4, if_neg h5]
  refine .write ?_
  rw [List.length_append]
  exact .ret _ _

theorem parseStrTurn_escaped (h : Zip c pre gap (backslash :: b :: cur) file) (hnl : b ≠ newline)
    (hcr : b ≠ carriage) :
    Runs (parseStrTurn pre.length) c (.next (pre ++ [b]).length)
      (addc { c with pos := c.pos + 1 } pre.length) := by
  have hcur : c.cur = backslash := h.cur_eq
  have hcur' : ({ c with pos := c.pos + 1 } : Ctx).cur = b := h.skip.cur_eq
  have hb : b ≠ 0 := h.skip.cur_ne_zero
  unfold parseStrTurn
  refine .read ?_
  rw [hcur, if_neg (by decide), if_neg (by decide), if_neg (by decide), if_neg (by decide),
    if_neg (by decide), if_pos rfl]
  simp only [parseBackslash, hcur', hb, hnl, hcr, false_and, or_self, if_false]
  refine .write ?_
  rw [List.length_append]
  exact .ret _ _

theorem parseStrTurn_quoted {body rest : Str} (h : Zip c pre gap (quote :: cur) file)
    (heq : cur ++ file = body ++ quote :: rest) (hq : quote ∉ body) :
    ∃ c' gap' cur' file', Runs (parseStrTurn pre.length) c (.next (pre ++ body).length) c' ∧
      Reads c c' (pre ++ body) file rest gap' cur' file' ∧ Line cur' := by
  obtain ⟨c', gap', cur', file', hrun, hreads, hline⟩ := parseSingleQuote_runs h heq hq
  refine ⟨c', gap', cur', file', ?_, hreads, hline⟩
  have hcur : c.cur = quote := h.cur_eq
  unfold parseStrTurn
  refine .read ?_
  rw [hcur, if_pos rfl]
  exact .seq hrun (.ret _ _)

/-- One turn, and what follows it. -/
theorem turn_runs {t v v₁ rest gap₁ cur₁ file₁ : Str} {d : UInt8} {fuel : Nat} {c₁ : Ctx}
    (hlex : Lex t v) (ih : t ≠ [] → Parses t v)
    (hturn : Runs (parseStrTurn pre.length) c (.next (pre ++ v₁).length) c₁)
    (hreads : Reads c c₁ (pre ++ v₁) file (t ++ d :: rest) gap₁ cur₁ file₁) (hline : Line cur₁)
    (hd : isspace d = true) (hfuel : cur₁.length + 2 * file₁.length < fuel) :
    ∃ c' gap' cur' file',
      Runs (parseStrLoop (fuel + 1) pre.length) c ((pre ++ (v₁ ++ v)).length, false) c' ∧
      Reads c c' (pre ++ (v₁ ++ v)) file (d :: rest) gap' cur' file' ∧ Line cur' := by
  obtain ⟨c', gap', cur', file', hrun, hreads', hline'⟩ :=
    continue_runs hlex ih hreads.zip hline hreads.left hd hfuel
  rw [List.append_assoc] at hrun hreads'
  exact ⟨c', gap', cur', file', .seq hturn hrun, hreads'.trans hreads.outer hreads.shorter, hline'⟩

/-- **An argument is read as its value.** -/
theorem Lex.parses {t v : Str} (hlex : Lex t v) (hne : t ≠ []) : Parses t v := by
  induction hlex with
  | nil => exact absurd rfl hne
  | @plain b t v hb hlex ih =>
    intro fuel pre gap cur file c d rest h hline heq hd hfuel
    obtain ⟨a, cur, rfl⟩ := List.exists_cons_of_ne_nil hline.ne_nil
    rw [List.cons_append, List.cons_append, List.cons.injEq] at heq
    obtain ⟨rfl, heq⟩ := heq
    cases fuel with
    | zero => simp at hfuel
    | succ fuel =>
      rw [List.length_cons] at hfuel
      have hline' : Line cur := hline.tail fun hnl => absurd (hnl ▸ hb.2.2.2.2.2.2) (by decide)
      exact turn_runs hlex ih (parseStrTurn_plain h hb) ⟨h.addc, heq, le_rfl, rfl⟩ hline' hd
        (by omega)
  | @quoted body t v hq hlex ih =>
    intro fuel pre gap cur file c d rest h hline heq hd hfuel
    obtain ⟨a, cur, rfl⟩ := List.exists_cons_of_ne_nil hline.ne_nil
    rw [List.cons_append, List.cons_append, List.cons.injEq] at heq
    obtain ⟨rfl, heq⟩ := heq
    rw [List.append_assoc, List.cons_append] at heq
    obtain ⟨c₁, gap₁, cur₁, file₁, hturn, hreads, hline₁⟩ := parseStrTurn_quoted h heq hq
    cases fuel with
    | zero => simp at hfuel
    | succ fuel =>
      have hlen : cur.length + file.length = body.length + 1 + (cur₁.length + file₁.length) := by
        rw [← List.length_append, heq, ← hreads.left]
        simp only [List.length_append, List.length_cons]
        omega
      have hshorter := hreads.shorter
      rw [List.length_cons] at hfuel
      exact turn_runs hlex ih hturn hreads hline₁ hd (by omega)
  | @escaped b t v h0 hnl hcr hlex ih =>
    intro fuel pre gap cur file c d rest h hline heq hd hfuel
    obtain ⟨a, cur, rfl⟩ := List.exists_cons_of_ne_nil hline.ne_nil
    rw [List.cons_append, List.cons_append, List.cons.injEq] at heq
    obtain ⟨rfl, heq⟩ := heq
    have hline₁ : Line cur := hline.tail (by decide)
    obtain ⟨a, cur, rfl⟩ := List.exists_cons_of_ne_nil hline₁.ne_nil
    rw [List.cons_append, List.cons_append, List.cons.injEq] at heq
    obtain ⟨rfl, heq⟩ := heq
    have hline₂ : Line cur := hline₁.tail hnl
    cases fuel with
    | zero => simp at hfuel
    | succ fuel =>
      rw [List.length_cons, List.length_cons] at hfuel
      exact turn_runs hlex ih (parseStrTurn_escaped h hnl hcr) ⟨h.skip.addc, heq, le_rfl, rfl⟩
        hline₂ hd (by omega)

theorem Lex.nz {t v : Str} (h : Lex t v) (ht : 0 ∉ t) : 0 ∉ v := by
  induction h with
  | nil => simp
  | plain hb _ ih =>
    rw [List.mem_cons, not_or] at ht ⊢
    exact ⟨ht.1, ih ht.2⟩
  | quoted _ _ ih =>
    simp only [List.mem_cons, List.mem_append, not_or] at ht ⊢
    exact ⟨ht.2.1, ih ht.2.2.2⟩
  | escaped _ _ _ _ ih =>
    simp only [List.mem_cons, not_or] at ht ⊢
    exact ⟨ht.2.1, ih ht.2.2⟩

theorem Lex.head_semicolon {t v : Str} (h : Lex (b :: t) v) : b ≠ semicolon := by
  cases h with
  | plain hb _ => exact hb.2.2.2.2.1
  | quoted _ _ => decide
  | escaped _ _ _ _ => decide

/-- A null byte is written at the target. -/
theorem Zip.terminate (h : Zip c pre gap cur file) (hgap : gap ≠ []) :
    Zip (c.setChar pre.length 0) (pre ++ [0]) gap.tail cur file := by
  obtain ⟨junk, hbuf⟩ := h.buf
  obtain ⟨g, gap, rfl⟩ := List.exists_cons_of_ne_nil hgap
  refine ⟨⟨junk, ?_⟩, ?_, h.filled, h.unread, h.eof, h.line, h.text⟩
  · simp [Ctx.setChar, hbuf]
  · show c.pos = (pre ++ [0]).length + gap.length
    rw [h.pos, List.length_append, List.length_singleton, List.length_cons]
    omega

theorem parseStr_runs {t v rest : Str} {d : UInt8} (hlex : Lex t v) (hne : t ≠ [])
    (h : Zip c pre gap cur file) (hline : Line cur) (heq : cur ++ file = t ++ d :: rest)
    (hd : isspace d = true) :
    ∃ c' gap' cur' file', Runs (parseStr pre.length) c () c' ∧
      Reads c c' (pre ++ v ++ [0]) file rest gap' cur' file' ∧ Line (d :: cur') := by
  have hfuel : cur.length + 2 * file.length < c.fuel := by
    rw [Ctx.fuel, h.filled, h.unread]
    omega
  obtain ⟨c₁, gap₁, cur₁, file₁, hrun, hreads, hline₁⟩ := hlex.parses hne h hline heq hd hfuel
  obtain ⟨a, cur₁, rfl⟩ := List.exists_cons_of_ne_nil hline₁.ne_nil
  have hleft := hreads.left
  rw [List.cons_append, List.cons.injEq] at hleft
  obtain ⟨rfl, hleft⟩ := hleft
  have hcur : c₁.cur ≠ 0 := hreads.zip.cur_pos (by simp)
  refine ⟨_, _, cur₁, file₁, ?_, ⟨hreads.zip.skip.terminate (by simp), hleft, hreads.shorter,
    hreads.outer⟩, hline₁⟩
  unfold parseStr
  refine .read (.seq hrun (.read ?_))
  rw [if_pos ⟨hcur, rfl⟩]
  rfl

theorem Zip.drop_pos (h : Zip c pre gap cur file) : ∃ junk, c.buf.drop c.pos = cur ++ 0 :: junk := by
  obtain ⟨junk, hbuf⟩ := h.buf
  exact ⟨junk, by rw [hbuf, h.pos, ← List.length_append, List.drop_left]⟩

theorem Zip.skipWhitespace_eq (h : Zip c pre gap cur file) (hcur : isspace (cur.headD 0) = false) :
    skipWhitespace c = c := by
  obtain ⟨junk, hdrop⟩ := h.drop_pos
  have hnil : (c.buf.drop c.pos).takeWhile isspace = [] := by
    rw [hdrop]
    cases cur with
    | nil => rfl
    | cons b cur =>
      have hb : isspace b = false := hcur
      simp [hb]
  rw [skipWhitespace, hnil]
  rfl

/-- A string that was parsed before. -/
theorem Zip.str {x v y : Str} (h : Zip c (x ++ v ++ 0 :: y) gap cur file) (hv : 0 ∉ v) :
    c.str x.length = v := by
  obtain ⟨junk, hbuf⟩ := h.buf
  have hbuf' : c.buf = x ++ (v ++ 0 :: (y ++ (gap ++ (cur ++ 0 :: junk)))) := by
    rw [hbuf]
    simp only [List.append_assoc, List.cons_append]
  exact str_eq hbuf' hv

theorem Lex.ne_nil {t v : Str} (h : Lex t v) (hne : v ≠ []) : t ≠ [] := by
  rintro rfl
  cases h
  exact hne rfl

/-- **`next_arg`** reads an argument. -/
theorem nextArg_runs (required name package : Bool) {t v rest : Str} {d : UInt8} (hlex : Lex t v)
    (ht : t ≠ []) (hne : required = true → v ≠ []) (h : Zip c pre gap cur file) (hline : Line cur)
    (heq : cur ++ file = t ++ d :: rest) (hd : isspace d = true)
    (hname : name = true → uciValidateStr v name package = true) :
    ∃ c' gap' cur' file', Runs (nextArg required name package) c (pre ++ gap).length c' ∧
      Reads c c' (pre ++ gap ++ v ++ [0]) file rest gap' cur' file' ∧ Line (d :: cur') := by
  obtain ⟨a, cur, rfl⟩ := List.exists_cons_of_ne_nil hline.ne_nil
  obtain ⟨b, t, rfl⟩ := List.exists_cons_of_ne_nil ht
  have hhead : a = b := by
    rw [List.cons_append, List.cons_append, List.cons.injEq] at heq
    exact heq.1
  subst hhead
  have hcur : c.cur = a := h.cur_eq
  have hskip : skipWhitespace c = c := h.skipWhitespace_eq hlex.head
  have hnz : 0 ∉ v := hlex.nz fun hm => h.text.nz (by rw [heq]; exact List.mem_append_left _ hm)
  -- the target is where the argument begins
  have hz : Zip c (pre ++ gap) [] (a :: cur) file := by
    obtain ⟨junk, hbuf⟩ := h.buf
    exact ⟨⟨junk, by rw [hbuf]; simp⟩, by rw [h.pos]; simp, h.filled, h.unread, h.eof, h.line, h.text⟩
  obtain ⟨c', gap', cur', file', hrun, hreads, hline'⟩ := parseStr_runs hlex ht hz hline heq hd
  have hpos : c.pos = (pre ++ gap).length := by rw [h.pos, List.length_append]
  have hstr : c'.str (pre ++ gap).length = v := hreads.zip.str hnz
  have hchar : c'.char (pre ++ gap).length = (v ++ [0]).headD 0 := by
    obtain ⟨junk, hbuf⟩ := hreads.zip.buf
    rw [Ctx.char, hbuf]
    cases v with
    | nil =>
      simp only [List.append_assoc, List.append_nil, List.nil_append, List.cons_append]
      rw [← List.append_assoc, getD_append_length]
      rfl
    | cons b v =>
      simp only [List.append_assoc, List.cons_append]
      rw [← List.append_assoc, getD_append_length]
      rfl
  refine ⟨c', gap', cur', file', ?_, hreads, hline'⟩
  unfold nextArg
  refine .read ?_
  simp only [hskip, hcur, if_neg hlex.head_semicolon]
  refine .write (.seq (hpos ▸ hrun) (.read ?_))
  rw [hpos, hchar, hstr]
  cases v with
  | nil =>
    have hopt : required = false := eq_false_of_ne_true fun hr => hne hr rfl
    rw [hopt]
    exact .ret _ _
  | cons b v =>
    have hb : (b :: v ++ [0]).headD 0 ≠ 0 := by
      intro hzero
      obtain rfl : b = 0 := hzero
      simp at hnz
    rw [if_neg hb]
    cases name with
    | false => exact .ret _ _
    | true =>
      rw [hname rfl]
      exact .ret _ _

/-- The buffer has a null byte at the position: nothing is left of the line. -/
structure Ended (c : Ctx) (pre gap : Str) : Prop where
  buf : ∃ junk, c.buf = pre ++ gap ++ 0 :: junk
  pos : c.pos = pre.length + gap.length

theorem Zip.ended (h : Zip c pre gap [] file) : Ended c pre gap := ⟨h.buf, h.pos⟩

theorem Ended.cur_eq (h : Ended c pre gap) : c.cur = 0 := by
  obtain ⟨junk, hbuf⟩ := h.buf
  rw [Ctx.cur, Ctx.char, hbuf, h.pos, ← List.length_append, getD_append_length]
  rfl

theorem Ended.drop_pos (h : Ended c pre gap) : ∃ junk, c.buf.drop c.pos = 0 :: junk := by
  obtain ⟨junk, hbuf⟩ := h.buf
  exact ⟨junk, by rw [hbuf, h.pos, ← List.length_append, List.drop_left]⟩

theorem Ended.skipWhitespace_eq (h : Ended c pre gap) : skipWhitespace c = c := by
  obtain ⟨junk, hdrop⟩ := h.drop_pos
  have hnil : (c.buf.drop c.pos).takeWhile isspace = [] := by
    rw [hdrop]
    rfl
  rw [skipWhitespace, hnil]
  rfl

theorem Ended.curStr (h : Ended c pre gap) : c.curStr = [] := by
  obtain ⟨junk, hdrop⟩ := h.drop_pos
  rw [Ctx.curStr, Ctx.str, hdrop]
  rfl

/-- The checks at the end of `next_arg`. -/
def checkArg (required name package : Bool) (val : Nat) : M Nat := do
  let c ← get
  if c.char val = 0 then
    if required then uciParseError "insufficient arguments"
  else if name ∧ uciValidateStr (c.str val) name package = false then
    uciParseError "invalid character in name field"
  return val

theorem checkArg_empty (name package : Bool) {val : Nat} (h : c.char val = 0) :
    Runs (checkArg false name package val) c val c := by
  unfold checkArg
  refine .read ?_
  rw [if_pos h]
  exact .ret _ _

/-- At the end of a line there is no argument. -/
theorem nextArg_end (required name package : Bool) (h : Ended c pre gap) :
    Leads (nextArg required name package) c
      (checkArg required name package (pre ++ gap).length) c := by
  obtain ⟨junk, hbuf⟩ := h.buf
  have hcur := h.cur_eq
  have hskip := h.skipWhitespace_eq
  have hpos : c.pos = (pre ++ gap).length := by rw [h.pos, List.length_append]
  have hset : c.setChar c.pos 0 = c := by
    have hbuf' : c.buf.set c.pos 0 = c.buf := by
      rw [hbuf, hpos]
      simp
    rw [Ctx.setChar, hbuf']
  have hturn : Runs (parseStrTurn c.pos) c (.done false) c := by
    unfold parseStrTurn
    refine .read ?_
    rw [hcur, if_neg (by decide), if_neg (by decide), if_neg (by decide), if_pos rfl]
    exact .ret _ _
  have hparse : Runs (parseStr c.pos) c () c := by
    unfold parseStr
    refine .read (.seq (.seq hturn (.ret _ _)) (.read ?_))
    rw [if_neg (by simp [hcur])]
    show Runs (set (c.setChar c.pos 0)) c () c
    rw [hset]
    rfl
  rw [← hpos]
  unfold nextArg
  refine .read ?_
  simp only [hskip, hcur, if_neg (show (0 : UInt8) ≠ semicolon by decide)]
  exact .write (.seq hparse (.refl _ _))

theorem nextArg_none (name package : Bool) (h : Zip c pre gap [] file) :
    Runs (nextArg false name package) c (pre ++ gap).length c ∧
      c.str (pre ++ gap).length = [] := by
  have hend := h.ended
  have hpos : c.pos = (pre ++ gap).length := by rw [h.pos, List.length_append]
  have hchar : c.char (pre ++ gap).length = 0 := by
    rw [← hpos]
    exact hend.cur_eq
  exact ⟨(nextArg_end false name package hend).runs (checkArg_empty name package hchar),
    hpos ▸ hend.curStr⟩

end

end Uci
