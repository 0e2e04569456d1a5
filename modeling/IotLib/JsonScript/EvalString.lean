/-
  Strings of json_script (json_script.c): `eval_string` as it writes into a blob buffer, and what
  a pattern with variable references stands for.
-/
import IotLib.Blobmsg.Pending
import IotLib.JsonScript.Script

namespace JsonScript.Pattern

open Blobmsg Blobmsg.Machine

/-! ## The function -/

/-- Where the loop of `eval_string` stands: `var`, `len`, `dest` and the buffer. What `msg_find_var`
    may change is in `env`. -/
structure Progress (ρ : Type) where
  var : Bool
  len : ℕ
  dest : BufPtr
  buf : Buf
  env : ρ

section
variable {ρ : Type} (find : Bytes → ρ → Option CStr × ρ) (alloc : ℕ → Bool)

/-- What is to be copied for a part between percent signs, where `continue` is `none`. `find` is
    `msg_find_var`. -/
def current (curVar : Bool) (str : Bytes) (env : ρ) : Option Bytes × ρ :=
  if curVar then
    if str ≠ [] then
      let (cur, env) := find str env
      (cur.map (·.1), env)
    else (some [0x25], env)
  else if str = [] then (none, env)
  else (some str, env)

/-- The end of the body of the loop, where `break` is `false`. `alloc n` says whether there is
    memory when the string is to have `n` bytes. -/
def copy (cur : Bytes) (st : Progress ρ) : Option (Bool × Progress ρ) :=
  (blobmsgReallocStringBuffer (alloc (st.len + cur.length)) st.buf (st.len + cur.length)).bind
    fun (newBuf, buf) =>
      match newBuf with
      | none => some (false, { st with var := true, buf := buf })
      | some dest =>
        (buf.deref dest).bind fun d =>
          (buf.update fun mem => writeAt mem (d + st.len) cur).map fun buf =>
            (true, { st with len := st.len + cur.length, dest := dest, buf := buf })

/-- `strchr(str, '%')`: the part before it, and what follows it. -/
def cut : Bytes → Bytes × Option Bytes
  | [] => ([], none)
  | b :: str => if b = 0x25 then ([], some str) else (b :: (cut str).1, (cut str).2)

theorem cut_lt {str next : Bytes} (h : (cut str).2 = some next) : next.length < str.length := by
  induction str with
  | nil => cases h
  | cons b str ih =>
    rw [cut] at h
    split_ifs at h with hb
    · cases h
      exact Nat.lt_succ_self _
    · exact (ih h).trans (Nat.lt_succ_self _)

/-- The body of the loop of `eval_string` for a part; `more` says whether a percent sign ends it. -/
def evalPart (part : Bytes) (more : Bool) (st : Progress ρ) : Option (Bool × Progress ρ) :=
  let (cur, env) := current find st.var part st.env
  let st := { st with var := if more then !st.var else st.var, env := env }
  match cur with
  | none => some (true, st)
  | some cur => copy alloc cur st

/-- The loop of `eval_string` over the parts between percent signs. -/
def evalLoop (str : Bytes) (st : Progress ρ) : Option (Progress ρ) :=
  (evalPart find alloc (cut str).1 (cut str).2.isSome st).bind fun (go, st) =>
    match _h : (cut str).2 with
    | none => some st
    | some next => if go then evalLoop next st else some st
termination_by str.length
decreasing_by exact cut_lt _h

/-- `eval_string`: what it returns, and the buffer after it. -/
def evalString (name : Option CStr) (pattern : CStr) (buf : Buf) (env : ρ) :
    Option (ℤ × Buf × ρ) :=
  (blobmsgAllocStringBuffer (alloc 0) buf name 0).bind fun (dest, buf) =>
    match dest with
    | none => some (-1, buf, env)
    | some dest =>
      (evalLoop find alloc pattern.1 ⟨false, 0, dest, buf, env⟩).bind fun st =>
        (st.buf.deref st.dest).bind fun d =>
          (st.buf.update fun mem => writeAt mem (d + st.len) [0]).bind fun buf =>
            (blobmsgAddStringBuffer buf).map fun buf => (if st.var then -1 else 0, buf, st.env)

end

/-! ## Patterns -/

/-- What a pattern is made of: text, a reference to a variable, and two percent signs. -/
inductive Piece where
  | text (s : { s : Bytes // 0x25 ∉ s })
  | var (name : { s : Bytes // 0x25 ∉ s ∧ s ≠ [] })
  | percent

/-- How a piece is written. -/
def Piece.source : Piece → Bytes
  | text s => s.1
  | var name => 0x25 :: (name.1 ++ [0x25])
  | percent => [0x25, 0x25]

/-- The pattern that pieces make up. -/
def source (ps : List Piece) : Bytes := ps.flatMap Piece.source

section
variable {ρ : Type} (find : Bytes → ρ → Option CStr × ρ)

/-- What a piece stands for. -/
def Piece.value (env : ρ) : Piece → Bytes × ρ
  | text s => (s.1, env)
  | var name =>
    let (cur, env) := find name.1 env
    ((cur.map (·.1)).getD [], env)
  | percent => ([0x25], env)

/-- What the pieces of a pattern stand for, one after the other. -/
def values : List Piece → ρ → Bytes × ρ
  | [], env => ([], env)
  | p :: ps, env =>
    let (cur, env) := p.value find env
    let (rest, env) := values ps env
    (cur ++ rest, env)

/-- The text that a string is evaluated to, as far as it goes: `var` says whether a reference is
    open, first before the string and then behind it. -/
def expand (str : Bytes) (var : Bool) (env : ρ) : Bool × Bytes × ρ :=
  let (cur, env) := current find var (cut str).1 env
  match _h : (cut str).2 with
  | none => (var, cur.getD [], env)
  | some next =>
    let (var, rest, env) := expand next (!var) env
    (var, cur.getD [] ++ rest, env)
termination_by str.length
decreasing_by exact cut_lt _h

theorem expand_last {str : Bytes} {var : Bool} {env : ρ} (h : (cut str).2 = none) :
    expand find str var env = (var, (current find var (cut str).1 env).1.getD [],
      (current find var (cut str).1 env).2) := by
  rw [expand]
  dsimp only
  split
  · rfl
  · rename_i hnext
    rw [h] at hnext
    cases hnext

theorem expand_next {str next : Bytes} {var : Bool} {env : ρ} (h : (cut str).2 = some next) :
    expand find str var env =
      ((expand find next (!var) (current find var (cut str).1 env).2).1,
        (current find var (cut str).1 env).1.getD [] ++
          (expand find next (!var) (current find var (cut str).1 env).2).2.1,
        (expand find next (!var) (current find var (cut str).1 env).2).2.2) := by
  rw [expand]
  dsimp only
  split
  · rename_i hnone
    rw [h] at hnone
    cases hnone
  · rename_i hnext
    obtain rfl := Option.some.inj (h.symm.trans hnext)
    rfl

/-! ## Parts -/

theorem cut_text {s str : Bytes} (hs : 0x25 ∉ s) :
    cut (s ++ str) = (s ++ (cut str).1, (cut str).2) := by
  induction s with
  | nil => rfl
  | cons b s ih =>
    obtain ⟨hb, hs⟩ := not_or.1 (mt List.mem_cons.2 hs)
    rw [List.cons_append, cut, if_neg (Ne.symm hb), ih hs]
    rfl

theorem cut_percent (str : Bytes) : cut (0x25 :: str) = ([], some str) := if_pos rfl

/-- A string is its first part, with what follows the percent sign. -/
theorem cut_spec (str : Bytes) :
    0x25 ∉ (cut str).1 ∧ ((cut str).2 = none ∧ str = (cut str).1 ∨
      ∃ next, (cut str).2 = some next ∧ str = (cut str).1 ++ 0x25 :: next) := by
  induction str with
  | nil => exact ⟨List.not_mem_nil, .inl ⟨rfl, rfl⟩⟩
  | cons b str ih =>
    rw [cut]
    split_ifs with hb
    · subst hb
      exact ⟨List.not_mem_nil, .inr ⟨str, rfl, rfl⟩⟩
    · obtain ⟨hpart, hrest⟩ := ih
      refine ⟨fun h => ?_, ?_⟩
      · rcases List.mem_cons.1 h with h | h
        · exact hb h.symm
        · exact hpart h
      · rcases hrest with ⟨hnone, hstr⟩ | ⟨next, hnext, hstr⟩
        · exact .inl ⟨hnone, congrArg (b :: ·) hstr⟩
        · exact .inr ⟨next, hnext, congrArg (b :: ·) hstr⟩

theorem current_text (s : Bytes) (env : ρ) :
    (current find false s env).1.getD [] = s ∧ (current find false s env).2 = env := by
  by_cases hs : s = []
  · simp [current, hs]
  · simp [current, hs]

/-- A reference is open in the end if and only if the number of percent signs is odd. -/
theorem expand_var (str : Bytes) (var : Bool) (env : ρ) :
    (expand find str var env).1 = (var ^^ decide (Odd (str.count 0x25))) := by
  obtain ⟨hpart, ⟨hnone, hstr⟩ | ⟨next, hnext, hstr⟩⟩ := cut_spec str
  · rw [expand_last find hnone, hstr, List.count_eq_zero_of_not_mem hpart]
    simp
  · have hlt := cut_lt hnext
    have hcount : str.count 0x25 = next.count 0x25 + 1 := by
      conv_lhs => rw [hstr]
      rw [List.count_append, List.count_eq_zero_of_not_mem hpart, Nat.zero_add, List.count_cons_self]
    rw [expand_next find hnext, expand_var next, hcount]
    by_cases hodd : Odd (next.count 0x25)
    · simp [hodd, Nat.odd_add_one]
    · simp [hodd, Nat.odd_add_one]
termination_by str.length

/-! ## Pieces -/

theorem expand_text {s str : Bytes} (hs : 0x25 ∉ s) (env : ρ) :
    expand find (s ++ str) false env = ((expand find str false env).1,
      s ++ (expand find str false env).2.1, (expand find str false env).2.2) := by
  have hcut := @cut_text s str hs
  have htext := current_text find (s ++ (cut str).1) env
  have htext' := current_text find (cut str).1 env
  cases hnext : (cut str).2 with
  | none =>
    rw [expand_last find hnext, expand_last find (by rw [hcut, hnext]), hcut]
    dsimp only
    rw [htext.1, htext.2, htext'.1, htext'.2]
  | some next =>
    rw [expand_next find hnext, expand_next find (show (cut (s ++ str)).2 = some next by rw [hcut, hnext]), hcut]
    dsimp only
    rw [htext.1, htext.2, htext'.1, htext'.2, List.append_assoc]

/-- Behind a percent sign, a name up to the next one. -/
theorem expand_open {name str : Bytes} (hname : 0x25 ∉ name) (env : ρ) :
    expand find (0x25 :: (name ++ 0x25 :: str)) false env =
      ((expand find str false (current find true name env).2).1,
        (current find true name env).1.getD [] ++
          (expand find str false (current find true name env).2).2.1,
        (expand find str false (current find true name env).2).2.2) := by
  have hcut : cut (name ++ 0x25 :: str) = (name, some str) := by
    rw [cut_text hname, cut_percent, List.append_nil]
  have htext := current_text find [] env
  rw [expand_next find (show (cut (0x25 :: (name ++ 0x25 :: str))).2 = _ by rw [cut_percent]),
    cut_percent]
  dsimp only
  rw [htext.1, htext.2, List.nil_append, Bool.not_false,
    expand_next find (show (cut (name ++ 0x25 :: str)).2 = _ by rw [hcut]), hcut]
  rfl

/-- A pattern made of pieces is evaluated to what they stand for. -/
theorem expand_source (ps : List Piece) (env : ρ) :
    expand find (source ps) false env = (false, values find ps env) := by
  induction ps generalizing env with
  | nil => exact expand_last find rfl
  | cons p ps ih =>
    have hsource : source (p :: ps) = p.source ++ source ps := List.flatMap_cons
    cases p with
    | text s =>
      rw [hsource, Piece.source, expand_text find s.2, ih]
      rfl
    | var name =>
      have hval : (current find true name.1 env).1.getD [] = (Piece.value find env (.var name)).1 ∧
          (current find true name.1 env).2 = (Piece.value find env (.var name)).2 := by
        simp [current, Piece.value, name.2.2]
      rw [hsource, Piece.source, List.cons_append, List.append_assoc, List.singleton_append,
        expand_open find name.2.1, ih, hval.1, hval.2]
      rfl
    | percent =>
      rw [hsource, Piece.source]
      have hopen := @expand_open _ find [] (source ps) List.not_mem_nil env
      rw [ih] at hopen
      exact hopen

/-- A pattern with an even number of percent signs is made of pieces. -/
theorem exists_pieces (str : Bytes) (heven : ¬ Odd (str.count 0x25)) :
    ∃ ps, source ps = str := by
  obtain ⟨hpart, ⟨hnone, hstr⟩ | ⟨next, hnext, hstr⟩⟩ := cut_spec str
  · refine ⟨[.text ⟨(cut str).1, hpart⟩], ?_⟩
    rw [source, List.flatMap_singleton, Piece.source]
    exact hstr.symm
  · obtain ⟨hname, ⟨hnone', hstr'⟩ | ⟨next', hnext', hstr'⟩⟩ := cut_spec next
    · refine absurd ?_ heven
      rw [hstr, List.count_append, List.count_eq_zero_of_not_mem hpart, List.count_cons_self, hstr',
        List.count_eq_zero_of_not_mem hname]
      exact odd_one
    · have hlt := (cut_lt hnext').trans (cut_lt hnext)
      obtain ⟨ps, hps⟩ := exists_pieces next' (by
        rw [hstr, List.count_append, List.count_eq_zero_of_not_mem hpart, List.count_cons_self, hstr',
          List.count_append, List.count_eq_zero_of_not_mem hname, List.count_cons_self] at heven
        intro hodd
        refine heven ?_
        rw [Nat.zero_add, Nat.zero_add, Nat.odd_add_one, Nat.odd_add_one, not_not]
        exact hodd)
      by_cases hempty : (cut next).1 = []
      · refine ⟨.text ⟨(cut str).1, hpart⟩ :: .percent :: ps, ?_⟩
        rw [hempty, List.nil_append] at hstr'
        simp only [source, List.flatMap_cons, Piece.source] at hps ⊢
        rw [hps]
        conv_rhs => rw [hstr, hstr']
        rfl
      · refine ⟨.text ⟨(cut str).1, hpart⟩ :: .var ⟨(cut next).1, hname, hempty⟩ :: ps, ?_⟩
        simp only [source, List.flatMap_cons, Piece.source] at hps ⊢
        rw [hps]
        conv_rhs => rw [hstr, hstr']
        simp
termination_by str.length

end

/-! ## The loop on the buffer -/

section
variable {ρ : Type} {find : Bytes → ρ → Option CStr × ρ} {alloc : ℕ → Bool} {st : Progress ρ}
  {id : ℕ} {A B name N text : Bytes}

/-- The loop has written `text` into its string buffer, and there is room for a 0 behind it. -/
structure Writing (st : Progress ρ) (id : ℕ) (A B name N text : Bytes) : Prop where
  pending : ∃ D, Pending st.buf id A B name N (text ++ D)
  len : st.len = text.length
  dest : st.dest = ⟨st.buf.gen, A.length + (4 + B.length) + 4 + N.length⟩
  room : stringEnd A B name text.length ≤ st.buf.mem.length

/-- What is copied is a C string. -/
theorem current_nul {var : Bool} {str cur : Bytes} {env : ρ} (hstr : 0 ∉ str)
    (h : (current find var str env).1 = some cur) : 0 ∉ cur := by
  unfold current at h
  split_ifs at h with hvar hopen hempty
  · obtain ⟨val, -, rfl⟩ := Option.map_eq_some_iff.1 h
    exact val.2
  · cases h
    decide
  · cases h
    exact hstr

/-- One more part is copied. -/
theorem Writing.copy {cur : Bytes} (hw : Writing st id A B name N text)
    (hreach : st.buf.Reaches (alloc (text ++ cur).length) (stringEnd A B name (text ++ cur).length)) :
    ∃ st', copy alloc cur st = some (true, st') ∧ Writing st' id A B name N (text ++ cur) ∧
      st'.var = st.var ∧ st'.env = st.env ∧ st.buf.mem.length ≤ st'.buf.mem.length := by
  obtain ⟨D, hpend⟩ := hw.pending
  have hlen : st.len + cur.length = (text ++ cur).length := by
    rw [hw.len, List.length_append]
  obtain ⟨buf₁, Z, hrealloc, h₁, hroom, hle⟩ := hpend.blobmsgReallocStringBuffer hreach
  have hfit : cur.length ≤ (D ++ Z).length := by
    have hmem := h₁.holding.length
    have hheader := h₁.header.length_le
    unfold stringEnd at hroom
    simp only [List.length_append, hdr_length] at hmem hroom ⊢
    omega
  rw [List.append_assoc text] at h₁
  obtain ⟨buf₂, D', hwrite, hgen, hlen₂, h₂⟩ := h₁.write hfit
  refine ⟨{ st with len := st.len + cur.length, buf := buf₂,
                    dest := ⟨buf₁.gen, A.length + (4 + B.length) + 4 + N.length⟩ }, ?_,
    ⟨⟨D', h₂⟩, hlen, by rw [hgen], by rw [hlen₂]; exact hroom⟩, rfl, rfl, by rw [hlen₂]; exact hle⟩
  rw [Pattern.copy, hlen, hrealloc, Option.bind_some]
  dsimp only
  rw [buf₁.deref_self, Option.bind_some, hw.len, hwrite, Option.map_some]

/-- The body of the loop copies what a part stands for. -/
theorem Writing.evalPart {part : Bytes} {more : Bool} (hw : Writing st id A B name N text)
    (hreach : ∀ n ≤ (text ++ (current find st.var part st.env).1.getD []).length,
      st.buf.Reaches (alloc n) (stringEnd A B name n)) :
    ∃ st', evalPart find alloc part more st = some (true, st') ∧
      Writing st' id A B name N (text ++ (current find st.var part st.env).1.getD []) ∧
      st'.var = (if more then !st.var else st.var) ∧
      st'.env = (current find st.var part st.env).2 ∧ st.buf.mem.length ≤ st'.buf.mem.length := by
  rw [Pattern.evalPart]
  rcases hcur : current find st.var part st.env with ⟨cur, env⟩
  rw [hcur] at hreach
  have hw' : Writing { st with var := if more then !st.var else st.var, env := env } id A B name N text :=
    ⟨hw.pending, hw.len, hw.dest, hw.room⟩
  cases cur with
  | none => exact ⟨_, rfl, by simpa using hw', rfl, rfl, le_rfl⟩
  | some cur => exact hw'.copy (hreach _ le_rfl)

theorem evalLoop_last {str : Bytes} {st' : Progress ρ} {go : Bool} (h : (cut str).2 = none)
    (hpart : evalPart find alloc (cut str).1 false st = some (go, st')) :
    evalLoop find alloc str st = some st' := by
  rw [evalLoop]
  split
  · rw [h, Option.isSome_none, hpart]
    rfl
  · rename_i hnext
    rw [h] at hnext
    cases hnext

theorem evalLoop_next {str next : Bytes} {st' : Progress ρ} (h : (cut str).2 = some next)
    (hpart : evalPart find alloc (cut str).1 true st = some (true, st')) :
    evalLoop find alloc str st = evalLoop find alloc next st' := by
  rw [evalLoop]
  split
  · rename_i hnone
    rw [h] at hnone
    cases hnone
  · rename_i hnext
    obtain rfl := Option.some.inj (h.symm.trans hnext)
    rw [h, Option.isSome_some, hpart]
    rfl

/-- The loop writes the text that the string stands for. -/
theorem Writing.evalLoop {st : Progress ρ} {text str : Bytes} (hw : Writing st id A B name N text)
    (hreach : ∀ n ≤ (text ++ (expand find str st.var st.env).2.1).length,
      st.buf.Reaches (alloc n) (stringEnd A B name n)) :
    ∃ st', evalLoop find alloc str st = some st' ∧
      Writing st' id A B name N (text ++ (expand find str st.var st.env).2.1) ∧
      st'.var = (expand find str st.var st.env).1 ∧
      st'.env = (expand find str st.var st.env).2.2 := by
  cases hnext : (cut str).2 with
  | none =>
    rw [expand_last find hnext] at hreach ⊢
    obtain ⟨st₁, hpart, hw₁, hvar₁, henv₁, -⟩ := @Writing.evalPart _ _ _ _ _ _ _ _ _ _ _ false hw hreach
    exact ⟨st₁, evalLoop_last hnext hpart, hw₁, hvar₁, henv₁⟩
  | some next =>
    have hlt := cut_lt hnext
    have hexp := @expand_next _ find _ _ st.var st.env hnext
    rw [hexp, ← List.append_assoc] at hreach ⊢
    obtain ⟨st₁, hpart, hw₁, hvar₁, henv₁, hle⟩ := @Writing.evalPart _ _ _ _ _ _ _ _ _ _ _ true hw
      fun n hn => hreach n (hn.trans (by rw [@List.length_append _ (_ ++ _)]; exact Nat.le_add_right _ _))
    have hvar₁' : st₁.var = !st.var := hvar₁
    rw [← hvar₁', ← henv₁] at hreach ⊢
    obtain ⟨st₂, hloop, hw₂, hvar₂, henv₂⟩ :=
      hw₁.evalLoop fun n hn => (hreach n hn).mono hle
    exact ⟨st₂, (evalLoop_next hnext hpart).trans hloop, hw₂, hvar₂, henv₂⟩
termination_by str.length

/-- The text is a C string. -/
theorem expand_nul {str : Bytes} (hstr : 0 ∉ str) (var : Bool) (env : ρ) :
    0 ∉ (expand find str var env).2.1 := by
  have hget : ∀ {part : Bytes}, 0 ∉ part → 0 ∉ (current find var part env).1.getD [] := by
    intro part hpart
    cases hcur : (current find var part env).1 with
    | none => exact List.not_mem_nil
    | some cur => exact current_nul hpart hcur
  obtain ⟨-, ⟨hnone, hpart⟩ | ⟨next, hnext, hpart⟩⟩ := cut_spec str
  · rw [expand_last find hnone]
    exact hget (hpart ▸ hstr)
  · have hlt := cut_lt hnext
    rw [hpart] at hstr
    rw [expand_next find hnext]
    intro h
    rcases List.mem_append.1 h with h | h
    · exact hget (fun h => hstr (List.mem_append_left _ h)) h
    · exact expand_nul (fun h => hstr (List.mem_append_right _ (List.mem_cons_of_mem _ h))) _ _ h
termination_by str.length

end

/-! ## The whole function -/

section
variable {ρ : Type} {find : Bytes → ρ → Option CStr × ρ} {alloc : ℕ → Bool} {buf : Buf} {sh : Shape}
  {name : Option CStr} {pattern : CStr} {env : ρ}

/-- The text that `eval_string` has written in the end. -/
def evaluated (find : Bytes → ρ → Option CStr × ρ) (pattern : CStr) (env : ρ) : Bytes :=
  (expand find pattern.1 false env).2.1

/-- Growth succeeds: for every length up to that of the text, the message reaches as far as the
    string needs, or can be made to. -/
def Grows (find : Bytes → ρ → Option CStr × ρ) (alloc : ℕ → Bool) (name : Option CStr)
    (pattern : CStr) (buf : Buf) (sh : Shape) (env : ρ) : Prop :=
  ∀ n ≤ (evaluated find pattern env).length,
    buf.Reaches (alloc n) (sh.last (blobmsgHdrlen (nameOf name).length + (n + 1)))

/-- The size of the attribute with a text, with its padding. -/
def attrSize (name : Option CStr) (text : Bytes) : ℕ :=
  pad4 (ATTR_SIZE + (blobmsgHdrlen (nameOf name).length + (text.length + 1)))

/-- What `eval_string` does when growth succeeds. -/
theorem evalString_spec (hs : Sound buf sh) (hgrow : Grows find alloc name pattern buf sh env) :
    ∃ buf', evalString find alloc name pattern buf env =
        some (if Odd (pattern.1.count 0x25) then -1 else 0, buf', (expand find pattern.1 false env).2.2) ∧
      (Appends buf buf' sh (nameOf name) (evaluated find pattern env) ↔ (nameOf name).length < 2 ^ 16 ∧
        sh.size + attrSize name (evaluated find pattern env) < 2 ^ 24) := by
  obtain ⟨id, A, B, C, hold, hA, hB⟩ := hs.holding
  have hreach : ∀ n ≤ (evaluated find pattern env).length,
      buf.Reaches (alloc n) (stringEnd A B (nameOf name) n) := by
    intro n hn
    have h := hgrow n hn
    rwa [Shape.last, Shape.next, ← hA, ← hB] at h
  have hold' : Holding buf id (4 + B.length) A B C := hB ▸ hold
  obtain ⟨buf₁, N, D, halloc, hpend, hroom, hle⟩ :=
    hold'.blobmsgAllocStringBuffer (hreach 0 (Nat.zero_le _))
  have hstart : Writing ⟨false, 0, ⟨buf₁.gen, A.length + (4 + B.length) + 4 + N.length⟩, buf₁, env⟩
      id A B (nameOf name) N [] := ⟨⟨D, hpend⟩, rfl, rfl, hroom⟩
  obtain ⟨st, hloop, hw, hvar, henv⟩ := hstart.evalLoop fun n hn => (hreach n hn).mono hle
  have hw : Writing st id A B (nameOf name) N (evaluated find pattern env) := hw
  obtain ⟨D₁, hpend₁⟩ := hw.pending
  have hend := hw.room
  have hlen : st.len = (evaluated find pattern env).length := hw.len
  have hone : [(0 : UInt8)].length ≤ D₁.length := by
    have hmem := hpend₁.holding.length
    have hheader := hpend₁.header.length_le
    unfold stringEnd at hend
    simp only [List.length_append, hdr_length, List.length_singleton] at hmem ⊢
    omega
  obtain ⟨buf₂, D₂, hwrite, -, hlen₂, hpend₂⟩ := hpend₁.write hone
  obtain ⟨buf₃, X, C', hadd, hX, hold₃⟩ := hpend₂.blobmsgAddStringBuffer
    (expand_nul pattern.2 _ _) rfl (by rw [hlen₂]; exact hend)
  refine ⟨buf₃, ?_, ?_⟩
  · have hret : (if st.var then (-1 : ℤ) else 0) = if Odd (pattern.1.count 0x25) then -1 else 0 := by
      rw [hvar, expand_var, Bool.false_xor]
      simp only [decide_eq_true_eq]
    rw [evalString, halloc, Option.bind_some]
    dsimp only
    rw [hloop, Option.bind_some, hw.dest, st.buf.deref_self, Option.bind_some, hlen, hwrite,
      Option.bind_some, hadd, Option.map_some, hret, henv]
  · exact hpend₂.header.appends_iff hold hA hB rfl hX hold₃

/-- What is promised of `eval_string`: it returns -1 exactly for an odd number of percent signs, and
    else 0, with one string more in the message: the one that the pieces of the pattern stand for. -/
def Promised (find : Bytes → ρ → Option CStr × ρ) (alloc : ℕ → Bool) (name : Option CStr)
    (pattern : CStr) (buf : Buf) (sh : Shape) (env : ρ) : Prop :=
  ∃ ret buf' env', evalString find alloc name pattern buf env = some (ret, buf', env') ∧
    (ret = -1 ↔ Odd (pattern.1.count 0x25)) ∧
    (ret ≠ -1 → ret = 0 ∧ (∃ ps, source ps = pattern.1) ∧
      ∀ ps, source ps = pattern.1 → values find ps env = ((values find ps env).1, env') ∧
        Appends buf buf' sh (nameOf name) (values find ps env).1)

theorem evaluated_source {ps : List Piece} (h : source ps = pattern.1) :
    expand find pattern.1 false env = (false, values find ps env) := by
  rw [← h, expand_source]

/-- For an odd number of percent signs only -1 is promised. -/
theorem promised_of_odd (hs : Sound buf sh) (hgrow : Grows find alloc name pattern buf sh env)
    (hodd : Odd (pattern.1.count 0x25)) : Promised find alloc name pattern buf sh env := by
  obtain ⟨buf₁, hrun, -⟩ := evalString_spec hs hgrow
  rw [if_pos hodd] at hrun
  exact ⟨-1, buf₁, _, hrun, iff_of_true rfl hodd, fun hret => absurd rfl hret⟩

/-- For an even number the string is promised, which the limits of the format may not hold. -/
theorem promised_iff_of_even (hs : Sound buf sh) (hgrow : Grows find alloc name pattern buf sh env)
    (heven : ¬ Odd (pattern.1.count 0x25)) :
    Promised find alloc name pattern buf sh env ↔ (nameOf name).length < 2 ^ 16 ∧
      sh.size + attrSize name (evaluated find pattern env) < 2 ^ 24 := by
  obtain ⟨buf₁, hrun, happ⟩ := evalString_spec hs hgrow
  rw [if_neg heven] at hrun
  rw [← happ]
  obtain ⟨ps, hps⟩ := exists_pieces pattern.1 heven
  constructor
  · rintro ⟨ret, buf', env', hrun', hret, hrest⟩
    obtain ⟨rfl, rfl, rfl⟩ : ret = 0 ∧ buf' = buf₁ ∧ env' = _ := by
      have heq := Option.some.inj (hrun'.symm.trans hrun)
      simpa only [Prod.mk.injEq] using heq
    obtain ⟨-, -, hall⟩ := hrest (by decide)
    have h := (hall ps hps).2
    rwa [evaluated, evaluated_source hps]
  · intro h
    refine ⟨0, buf₁, _, hrun, iff_of_false (by decide) heven, fun _ => ⟨rfl, ⟨ps, hps⟩, ?_⟩⟩
    intro ps' hps'
    rw [evaluated, evaluated_source hps'] at h
    rw [evaluated_source hps']
    exact ⟨rfl, h⟩

/-- **Strings.** When growth succeeds, `eval_string` does what is promised if and only if the
    number of percent signs is odd, or the name has less than 2^16 bytes and the message with the
    string stays below 2^24. -/
theorem evalString_iff (hs : Sound buf sh) (hgrow : Grows find alloc name pattern buf sh env) :
    Promised find alloc name pattern buf sh env ↔ Odd (pattern.1.count 0x25) ∨
      (nameOf name).length < 2 ^ 16 ∧
        sh.size + attrSize name (evaluated find pattern env) < 2 ^ 24 := by
  by_cases hodd : Odd (pattern.1.count 0x25)
  · exact iff_of_true (promised_of_odd hs hgrow hodd) (.inl hodd)
  · rw [promised_iff_of_even hs hgrow hodd, or_iff_right hodd]

end

/-! ## The interpreter -/

section
variable {σ : Type} (host : Host σ) (vars : List Field)

/-- `msg_find_var`: the value as a C string. -/
def msgFindVar (name : Bytes) (env : Env σ) : Option CStr × Env σ :=
  ((jsonScriptFindVar host vars name env).1.map fun cur =>
    ⟨cur.takeWhile (· ≠ 0), fun h => by simpa using List.mem_takeWhile_imp h⟩,
    (jsonScriptFindVar host vars name env).2)

theorem splitOn_cut (str : Bytes) : str.splitOn 0x25 =
    (cut str).1 :: ((cut str).2.map fun next => next.splitOn 0x25).getD [] := by
  induction str with
  | nil => rfl
  | cons b str ih =>
    by_cases hb : b = 0x25
    · subst hb
      rw [cut_percent]
      simp [List.splitOn, List.splitOnP_cons_eq_if_modifyHead]
    · rw [cut, if_neg hb]
      dsimp only
      rw [List.splitOn, List.splitOnP_cons_eq_if_modifyHead, if_neg (by simpa using hb), ← List.splitOn, ih]
      rfl

variable {host vars} (hgrow : ∀ n env, host.canGrow n env = true)
  (hvars : ∀ name env, ∀ val ∈ (jsonScriptFindVar host vars name env).1, 0 ∉ val)

include hgrow hvars in
/-- A part of the interpreter's loop. -/
theorem evalParts_cons (part : Bytes) (parts : List Bytes) (var : Bool) (dest : Bytes) (env : Env σ) :
    evalParts host vars (part :: parts) var dest env =
      evalParts host vars parts (if parts.isEmpty then var else !var)
        (dest ++ (current (msgFindVar host vars) var part env).1.getD [])
        (current (msgFindVar host vars) var part env).2 := by
  rw [evalParts]
  cases var with
  | false =>
    cases part with
    | nil => simp [current]
    | cons b part => simp [current, hgrow]
  | true =>
    cases part with
    | nil => simp [current, hgrow]
    | cons b part =>
      have hval := hvars (b :: part) env
      rcases hfind : jsonScriptFindVar host vars (b :: part) env with ⟨cur, env'⟩
      rw [hfind] at hval
      cases cur with
      | none => simp [current, msgFindVar, hfind]
      | some cur =>
        have hcur : cur.takeWhile (· ≠ 0) = cur := by
          refine List.takeWhile_eq_self_iff.2 fun x hx => decide_eq_true fun h => ?_
          exact hval cur rfl (h ▸ hx)
        simp only [List.isEmpty_cons, Bool.false_eq_true, if_false, if_true, hfind, hgrow, current,
          msgFindVar, ne_eq, reduceCtorEq, not_false_eq_true, Option.map_some, Option.getD_some, hcur]

include hgrow hvars in
/-- The loop of the interpreter, over the parts, writes the same text. -/
theorem evalParts_eq (str : Bytes) (var : Bool) (dest : Bytes) (env : Env σ) :
    evalParts host vars (str.splitOn 0x25) var dest env =
      ((expand (msgFindVar host vars) str var env).1,
        dest ++ (expand (msgFindVar host vars) str var env).2.1,
        (expand (msgFindVar host vars) str var env).2.2) := by
  rw [splitOn_cut, evalParts_cons hgrow hvars]
  cases hnext : (cut str).2 with
  | none =>
    rw [expand_last _ hnext]
    rfl
  | some next =>
    have hlt := cut_lt hnext
    have hne : (next.splitOn 0x25).isEmpty = false := by
      rw [splitOn_cut next]
      rfl
    rw [expand_next _ hnext, Option.map_some, Option.getD_some, hne, if_neg Bool.false_ne_true,
      evalParts_eq next, List.append_assoc]
termination_by str.length

include hgrow hvars in
/-- What the interpreter takes `eval_string` for is what it does on the buffer when growth
    succeeds. -/
theorem evalString_eq (pattern : CStr) (env : Env σ) :
    JsonScript.evalString host vars pattern.1 env =
      (if Odd (pattern.1.count 0x25) then none else some (evaluated (msgFindVar host vars) pattern env),
        (expand (msgFindVar host vars) pattern.1 false env).2.2) := by
  have hvar := expand_var (msgFindVar host vars) pattern.1 false env
  rw [JsonScript.evalString, if_pos (hgrow 0 env), evalParts_eq hgrow hvars, hvar]
  by_cases hodd : Odd (pattern.1.count 0x25)
  · simp [hodd]
  · simp [hodd, evaluated]

end

/-- The pattern `%%%`, on a host without variables. -/
theorem evalString_percents : (JsonScript.evalString (⟨fun _ _ _ e => e, fun _ _ _ e => e,
      fun _ _ e => (none, e), fun _ e => (none, e), fun _ _ e => e, fun _ _ => false, fun _ _ => false,
      fun _ _ => true, fun _ _ => none⟩ : Host Unit) [] [0x25, 0x25, 0x25] ⟨(), false⟩).1 = none := by
  rw [evalString_eq (fun _ _ => rfl) (by rintro _ _ _ ⟨⟩) ⟨[0x25, 0x25, 0x25], by decide⟩]
  rfl

/-- One variable, `x`, with the value `7`. -/
def oneVar (name : Bytes) (env : Unit) : Option CStr × Unit :=
  (if name = [0x78] then some ⟨[0x37], by decide⟩ else none, env)

/-- The pattern `a%x%%%`. -/
def pieces : List Piece :=
  [.text ⟨[0x61], by decide⟩, .var ⟨[0x78], by decide⟩, .percent]

/-- `a%x%%%` in a message that was just started. -/
theorem evalString_pieces : ∃ buf, blobBufInit true ⟨[], 0, none⟩ 0 = some (true, buf) ∧
    Promised oneVar (fun _ => false) none ⟨source pieces, by decide⟩ buf Shape.start () := by
  obtain ⟨buf, hinit, hlen⟩ := exists_started
  have htext : evaluated oneVar ⟨source pieces, by decide⟩ () = [0x61, 0x37, 0x25] := by
    rw [evaluated, @evaluated_source _ _ _ _ pieces rfl]
    rfl
  refine ⟨buf, hinit, (evalString_iff (Reach.init hinit).sound ?_).2 (.inr ?_)⟩
  · intro n hn
    rw [htext] at hn
    have hlast : Shape.start.last (blobmsgHdrlen (nameOf none).length + (n + 1)) = 13 + n := by
      show 0 + 4 + 4 + (4 + (n + 1)) = 13 + n
      omega
    have hn' : n ≤ 3 := hn
    left
    rw [hlast, hlen]
    omega
  · rw [htext]
    decide

/-- With a name of 65536 bytes the empty pattern does not give an empty string of that name. -/
theorem longName_not_promised : ∃ buf, blobBufInit true ⟨[], 0, none⟩ 0 = some (true, buf) ∧
    Grows oneVar (fun _ => true) (some longName) ⟨[], List.not_mem_nil⟩ buf Shape.start () ∧
    ¬ Promised oneVar (fun _ => true) (some longName) ⟨[], List.not_mem_nil⟩ buf Shape.start () := by
  obtain ⟨buf, hinit, hlen⟩ := exists_started
  have hname : (nameOf (some longName)).length = 2 ^ 16 := List.length_replicate
  have htext : evaluated oneVar ⟨[], List.not_mem_nil⟩ () = [] := by
    rw [evaluated, @evaluated_source _ _ _ _ [] rfl]
    rfl
  have hgrow : Grows oneVar (fun _ => true) (some longName) ⟨[], List.not_mem_nil⟩ buf
      Shape.start () := by
    intro n hn
    rw [htext] at hn
    obtain rfl := Nat.le_zero.1 hn
    right
    rw [hname]
    decide
  refine ⟨buf, hinit, hgrow, fun h => ?_⟩
  have hshort := (promised_iff_of_even (Reach.init hinit).sound hgrow (by decide)).1 h
  rw [hname] at hshort
  exact absurd hshort.1 (lt_irrefl _)

end JsonScript.Pattern
