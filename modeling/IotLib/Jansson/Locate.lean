/-
  Where the decoder is in its input.

  The line, the column and the position of the stream are those of the bytes that were read and not
  put back. They are counted up by `stream_get`, down by `stream_unget` and past the rest of a
  character by `lex_save_cached`, and an error takes them as they are.
-/
import IotLib.Jansson.Tokens
import IotLib.Jansson.Lockstep
import IotLib.Jansson.JsonError

namespace Jansson

/-! ## Lines and columns -/

/-- A byte of a character in UTF-8 that is not its first one. -/
def isContinuation (b : UInt8) : Bool := 0x80 ≤ b.toNat && b.toNat ≤ 0xBF

/-- The line behind `bs`. -/
def lineAfter (bs : Bytes) : ℕ := 1 + bs.count 0x0A

/-- The number of characters of that line. -/
def columnAfter (bs : Bytes) : ℕ :=
  ((bs.reverse.takeWhile (· ≠ 0x0A)).filter (!isContinuation ·)).length

section
variable {b : UInt8} {bs : Bytes}

theorem lineAfter_newline : lineAfter (bs ++ [0x0A]) = lineAfter bs + 1 := by
  unfold lineAfter
  rw [List.count_append, List.count_singleton_self]
  omega

theorem lineAfter_concat (h : b ≠ 0x0A) : lineAfter (bs ++ [b]) = lineAfter bs := by
  unfold lineAfter
  rw [List.count_append, List.count_singleton, if_neg (by simpa using h), Nat.add_zero]

theorem columnAfter_newline : columnAfter (bs ++ [0x0A]) = 0 := by
  unfold columnAfter
  rw [List.reverse_append]
  rfl

theorem columnAfter_first (h : b ≠ 0x0A) (hb : isContinuation b = false) :
    columnAfter (bs ++ [b]) = columnAfter bs + 1 := by
  unfold columnAfter
  rw [List.reverse_append, List.reverse_singleton, List.singleton_append, List.takeWhile_cons,
    if_pos (by simpa using h), List.filter_cons_of_pos (by rw [hb]; rfl), List.length_cons]

theorem columnAfter_continuation (hb : isContinuation b = true) :
    columnAfter (bs ++ [b]) = columnAfter bs := by
  have h : b ≠ 0x0A := by
    rintro rfl
    cases hb
  unfold columnAfter
  rw [List.reverse_append, List.reverse_singleton, List.singleton_append, List.takeWhile_cons,
    if_pos (by simpa using h), List.filter_cons_of_neg (by rw [hb]; exact Bool.false_ne_true)]

/-- The rest of a character is on its line and in its column. -/
theorem after_continuations : ∀ {cs bs : Bytes}, (∀ c ∈ cs, isContinuation c = true) →
    lineAfter (bs ++ cs) = lineAfter bs ∧ columnAfter (bs ++ cs) = columnAfter bs
  | [], bs, _ => by rw [List.append_nil]; exact ⟨rfl, rfl⟩
  | c :: cs, bs, h => by
    obtain ⟨hc, hcs⟩ := List.forall_mem_cons.1 h
    have hne : c ≠ 0x0A := by
      rintro rfl
      cases hc
    obtain ⟨hline, hcolumn⟩ := @after_continuations cs (bs ++ [c]) hcs
    rw [List.append_assoc, List.singleton_append] at hline hcolumn
    exact ⟨hline.trans (lineAfter_concat hne), hcolumn.trans (columnAfter_continuation hc)⟩

theorem encode_tail {c : ℕ} (hc : IsScalar c) : ∀ b ∈ (encode c).tail, isContinuation b = true := by
  have hmax : c ≤ 0x10FFFF := by
    unfold IsScalar at hc
    omega
  intro b hb
  unfold isContinuation
  rw [Bool.and_eq_true, decide_eq_true_eq, decide_eq_true_eq]
  unfold encode at hb
  split_ifs at hb with h₁ h₂ h₃ <;>
    simp only [List.tail_cons, List.mem_cons, List.not_mem_nil, or_false] at hb
  · rw [hb, toNat_byte (by omega)]
    omega
  · rcases hb with rfl | rfl <;> rw [toNat_byte (by omega)] <;> omega
  · rcases hb with rfl | rfl | rfl <;> rw [toNat_byte (by omega)] <;> omega

theorem first_of_continuation (h : isContinuation b = true) : utf8CheckFirst b = 0 := by
  unfold isContinuation at h
  rw [Bool.and_eq_true, decide_eq_true_eq, decide_eq_true_eq] at h
  unfold utf8CheckFirst
  dsimp only
  rw [if_neg (by omega), if_pos h]

/-- In valid UTF-8, `utf8_check_first` tells the bytes that continue a character. -/
theorem first_iff {text : Bytes} (htext : Valid text) (hb : b ∈ text) :
    utf8CheckFirst b = 0 ↔ isContinuation b = true := by
  refine ⟨fun hzero => ?_, first_of_continuation⟩
  induction htext with
  | nil => cases hb
  | @cons c rest hc _ ih =>
    rcases List.mem_append.1 hb with hmem | hmem
    swap
    · exact ih hmem
    cases he : encode c with
    | nil => exact absurd (encode_length_pos c) (by rw [he]; exact Nat.lt_irrefl 0)
    | cons b' bs =>
      rw [he] at hmem
      rcases List.mem_cons.1 hmem with rfl | htail
      · have := utf8CheckFirst_encode hc he
        omega
      · exact encode_tail hc b (by rw [he]; exact htail)

end

/-! ## Counters -/

section
variable {δ : Type} {get : GetFunc δ}

/-- The counters are those behind `pre`. -/
structure Stream.Behind (s : Stream δ) (pre : Bytes) : Prop where
  line : s.line = lineAfter pre
  column : s.column = columnAfter pre
  position : s.position = pre.length

/-- The counters of an error are those behind `pre`. -/
structure Error.Behind (err : Error) (pre : Bytes) : Prop where
  line : err.line = lineAfter pre
  column : err.column = columnAfter pre
  position : err.position = pre.length

/-- `b` is counted. -/
structure Stream.Counts (s : Stream δ) (b : UInt8) (s₁ : Stream δ) : Prop where
  position : s₁.position = s.position + 1
  newline : b = 0x0A → s₁.line = s.line + 1 ∧ s₁.column = 0 ∧ s₁.lastColumn = s.column
  other : b ≠ 0x0A → s₁.line = s.line ∧
    s₁.column = if utf8CheckFirst b ≠ 0 then s.column + 1 else s.column

/-- The bytes of the buffer are one character. -/
def Stream.OneChar (s : Stream δ) : Prop := ∀ b ∈ s.buffer.tail, isContinuation b = true

theorem Stream.next_counts (s : Stream δ) :
    ∃ b s₁, s.next = (.byte b, s₁) ∧ s.Counts b s₁ ∧ s₁.buffer = s.buffer := by
  unfold Stream.next
  dsimp only
  generalize s.buffer.getD s.bufferPos 0 = b
  by_cases hb : b = 0x0A
  · rw [if_pos hb]
    exact ⟨b, _, rfl, ⟨rfl, fun _ => ⟨rfl, rfl, rfl⟩, fun hne => absurd hb hne⟩, rfl⟩
  rw [if_neg hb]
  by_cases hfirst : utf8CheckFirst b ≠ 0
  · rw [if_pos hfirst]
    exact ⟨b, _, rfl, ⟨rfl, fun heq => absurd heq hb, fun _ => ⟨rfl, (if_pos hfirst).symm⟩⟩, rfl⟩
  · rw [if_neg hfirst]
    exact ⟨b, _, rfl, ⟨rfl, fun heq => absurd heq hb, fun _ => ⟨rfl, (if_neg hfirst).symm⟩⟩, rfl⟩

/-- What `stream_get` counts. -/
theorem streamGet_counts (s : Stream δ) :
    (∃ b s₁, streamGet get s = (.byte b, s₁) ∧ s.Counts b s₁ ∧ (s.OneChar → s₁.OneChar)) ∨
      ∃ c s₁, streamGet get s = (c, s₁) ∧ (c = .eof ∨ c = .error) ∧ s₁.state ≠ .ok ∧
        s₁.line = s.line ∧ s₁.column = s.column ∧ s₁.position = s.position := by
  unfold streamGet
  cases hstate : s.state with
  | eof => exact .inr ⟨.eof, s, rfl, .inl rfl, by rw [hstate]; exact nofun, rfl, rfl, rfl⟩
  | error => exact .inr ⟨.error, s, rfl, .inr rfl, by rw [hstate]; exact nofun, rfl, rfl, rfl⟩
  | ok =>
    -- a character that is put into the buffer is counted by its first byte
    have hfill : ∀ (data : δ) (buffer : Bytes), (∀ b ∈ buffer.tail, isContinuation b = true) →
        ∃ b s₁, ({ s with data := data, buffer := buffer, bufferPos := 0 } : Stream δ).next =
          (.byte b, s₁) ∧ s.Counts b s₁ ∧ s₁.OneChar := by
      intro data buffer htail
      obtain ⟨b, s₁, hnext, ⟨hposition, hnewline, hother⟩, hbuffer⟩ :=
        ({ s with data := data, buffer := buffer, bufferPos := 0 } : Stream δ).next_counts
      refine ⟨b, s₁, hnext, ⟨hposition, hnewline, hother⟩, ?_⟩
      unfold Stream.OneChar
      rwa [hbuffer]
    dsimp only
    by_cases hzero : s.buffer.getD s.bufferPos 0 = 0
    swap
    · rw [if_neg hzero]
      obtain ⟨b, s₁, hnext, hcounts, hbuffer⟩ := s.next_counts
      refine .inl ⟨b, s₁, hnext, hcounts, fun hone => ?_⟩
      unfold Stream.OneChar
      rwa [hbuffer]
    rw [if_pos hzero]
    generalize get s.data = r
    obtain ⟨c, data⟩ := r
    cases c with
    | none => exact .inr ⟨.eof, _, rfl, .inl rfl, nofun, rfl, rfl, rfl⟩
    | some c =>
      dsimp only
      by_cases hascii : c.toNat < 0x80
      · rw [if_pos hascii]
        obtain ⟨b, s₁, hnext, hcounts, hone⟩ := hfill data [c] (fun _ h => by cases h)
        rw [hstate] at hnext
        exact .inl ⟨b, s₁, hnext, hcounts, fun _ => hone⟩
      rw [if_neg hascii]
      by_cases hfirst : utf8CheckFirst c = 0
      · rw [if_pos hfirst]
        exact .inr ⟨.error, _, rfl, .inr rfl, nofun, rfl, rfl, rfl⟩
      rw [if_neg hfirst]
      by_cases hfull : utf8CheckFull (c :: (getMore get (utf8CheckFirst c - 1) data).1) = none
      · rw [if_pos hfull]
        exact .inr ⟨.error, _, rfl, .inr rfl, nofun, rfl, rfl, rfl⟩
      rw [if_neg hfull]
      obtain ⟨ch, hch⟩ := Option.ne_none_iff_exists'.1 hfull
      have hone := utf8CheckFirst_one_iff.not.2 hascii
      obtain ⟨hscalar, he⟩ := (utf8CheckFull_eq_some (by omega)
        (by rw [getMore_length]; omega)).1 hch
      have htail := encode_tail hscalar
      rw [← he] at htail
      obtain ⟨b, s₁, hnext, hcounts, hone⟩ := hfill _ _ htail
      rw [hstate] at hnext
      exact .inl ⟨b, s₁, hnext, hcounts, fun _ => hone⟩

variable {s s₁ : Stream δ} {pre : Bytes} {b : UInt8}

theorem Stream.Behind.counts (h : s.Behind pre) (hcounts : s.Counts b s₁)
    (hb : utf8CheckFirst b = 0 ↔ isContinuation b = true) :
    s₁.Behind (pre ++ [b]) ∧ (b = 0x0A → s₁.lastColumn = columnAfter pre) := by
  have hposition : s₁.position = (pre ++ [b]).length := by
    rw [hcounts.position, h.position, List.length_append, List.length_singleton]
  by_cases hnl : b = 0x0A
  · obtain ⟨hline, hcolumn, hlast⟩ := hcounts.newline hnl
    subst hnl
    refine ⟨⟨?_, ?_, hposition⟩, fun _ => hlast.trans h.column⟩
    · rw [hline, h.line, lineAfter_newline]
      rfl
    · rw [hcolumn, columnAfter_newline]
      rfl
  · obtain ⟨hline, hcolumn⟩ := hcounts.other hnl
    refine ⟨⟨?_, ?_, hposition⟩, fun heq => absurd heq hnl⟩
    · rw [hline, h.line, lineAfter_concat hnl]
    · by_cases hcont : isContinuation b = true
      · rw [hcolumn, if_neg (not_not_intro (hb.2 hcont)), h.column, columnAfter_continuation hcont]
      · rw [hcolumn, if_pos (hb.not.2 hcont), h.column,
          columnAfter_first hnl (Bool.eq_false_iff.2 hcont)]
        rfl

/-- `stream_unget` counts back. -/
theorem Stream.Behind.unget (h : s.Behind (pre ++ [b])) (hlast : b = 0x0A → s.lastColumn = columnAfter pre)
    (hb : utf8CheckFirst b = 0 ↔ isContinuation b = true) :
    (streamUnget s (.byte b)).Behind pre := by
  have hlength := h.position
  rw [List.length_append, List.length_singleton] at hlength
  have hline := h.line
  have hcolumn := h.column
  unfold streamUnget
  dsimp only
  by_cases hnl : b = 0x0A
  · rw [if_pos hnl]
    subst hnl
    rw [lineAfter_newline] at hline
    exact ⟨by dsimp only; omega, hlast rfl, by dsimp only; omega⟩
  rw [if_neg hnl]
  rw [lineAfter_concat hnl] at hline
  by_cases hcont : isContinuation b = true
  · rw [if_neg (not_not_intro (hb.2 hcont))]
    rw [columnAfter_continuation hcont] at hcolumn
    exact ⟨hline, hcolumn, by dsimp only; omega⟩
  · rw [if_pos (hb.not.2 hcont)]
    rw [columnAfter_first hnl (Bool.eq_false_iff.2 hcont)] at hcolumn
    exact ⟨hline, by dsimp only; omega, by dsimp only; omega⟩

end

/-! ## The decoder in its input -/

section
variable {δ : Type} (get : GetFunc δ) (whole : Bytes) (bad : Bool)

/-- `pre` was read of the bytes that the stream gives in all, and `text` is left. -/
structure Stream.Between (s : Stream δ) (pre text : Bytes) : Prop where
  whole : whole = pre ++ text
  behind : s.Behind pre
  left : s.At get text bad
  oneChar : s.state = .ok → s.OneChar

/-- The stream is somewhere in its bytes, and so is the error, if there is one. -/
def Tracked (k : ℕ) (s s' : Stream δ) (err : Option Error) : Prop :=
  s' = s ∧ (∃ pre text, s.Between get whole bad pre text ∧ text.length ≤ k) ∧
    ∀ e ∈ err, ∃ pre, pre <+: whole ∧ e.Behind pre

/-- The byte `b` was read last. -/
def TrackedByte (b : UInt8) (k : ℕ) (s s' : Stream δ) (err : Option Error) : Prop :=
  s' = s ∧ (∃ pre text, s.Between get whole bad (pre ++ [b]) text ∧ text.length < k ∧
      s.Looked get (.byte b) (b :: text) bad ∧ (b = 0x0A → s.lastColumn = columnAfter pre)) ∧
    ∀ e ∈ err, ∃ pre, pre <+: whole ∧ e.Behind pre

variable {get whole bad}

/-- One reading. -/
theorem Stream.Between.read {s : Stream δ} {pre text : Bytes} (hwhole : Valid whole)
    (h : s.Between get whole bad pre text) :
    (∃ b s₁ text₁, streamGet get s = (.byte b, s₁) ∧ text = b :: text₁ ∧
        s₁.Between get whole bad (pre ++ [b]) text₁ ∧ s₁.Looked get (.byte b) text bad ∧
        (b = 0x0A → s₁.lastColumn = columnAfter pre)) ∨
      ∃ c s₁, streamGet get s = (c, s₁) ∧ text = [] ∧ (c = .eof ∨ c = .error ∧ bad = true) ∧
        s₁.Between get whole bad pre text := by
  have hlooked := streamGet_looked h.left
  rcases streamGet_counts s with ⟨b, s₁, heq, hcounts, hone⟩ | ⟨c, s₁, heq, hc, hstate, hcounters⟩
  · rw [heq] at hlooked
    obtain ⟨text₁, rfl, hat, hst, hpos, hbuf⟩ := hlooked
    have hmem : b ∈ whole := by
      rw [h.whole]
      exact List.mem_append_right _ List.mem_cons_self
    obtain ⟨hbehind, hlast⟩ := h.behind.counts hcounts (first_iff hwhole hmem)
    refine .inl ⟨b, s₁, text₁, heq, rfl, ⟨?_, hbehind, hat, fun _ => ?_⟩,
      ⟨text₁, rfl, hat, hst, hpos, hbuf⟩, hlast⟩
    · rw [h.whole, List.append_assoc, List.singleton_append]
    · -- a stream that has given a byte was in order before
      refine hone (h.oneChar ?_)
      cases hs : s.state with
      | ok => rfl
      | eof =>
        rw [streamGet, hs] at heq
        cases heq
      | error =>
        rw [streamGet, hs] at heq
        cases heq
  · obtain ⟨hline, hcolumn, hposition⟩ := hcounters
    have hbehind : s₁.Behind pre :=
      ⟨hline.trans h.behind.line, hcolumn.trans h.behind.column, hposition.trans h.behind.position⟩
    rw [heq] at hlooked
    rcases hc with rfl | rfl
    · obtain ⟨rfl, rfl, hat⟩ := hlooked
      exact .inr ⟨.eof, s₁, heq, rfl, .inl rfl, h.whole, hbehind, hat, fun hok => absurd hok hstate⟩
    · obtain ⟨rfl, rfl, hat⟩ := hlooked
      exact .inr ⟨.error, s₁, heq, rfl, .inr ⟨rfl, rfl⟩, h.whole, hbehind, hat,
        fun hok => absurd hok hstate⟩

/-- The rest of the character that `b` is of is skipped. -/
theorem Stream.Between.skipCached {s : Stream δ} {b : UInt8} {pre text : Bytes}
    (h : s.Between get whole bad pre text) (hlooked : s.Looked get (.byte b) (b :: text) bad) :
    ∃ cs text₁, text = cs ++ text₁ ∧ s.skipCached.Between get whole bad (pre ++ cs) text₁ := by
  obtain ⟨_, -, -, hst, hpos, -⟩ := hlooked
  obtain ⟨hle, hzero, bs, t, hgives, hsplit, htext⟩ := h.left.ok hst
  have hpending : s.pending = s.buffer.drop s.bufferPos := by
    unfold Stream.pending
    refine List.takeWhile_eq_self_iff.2 fun x hx => ?_
    rcases hzero with hz | hz
    · simp only [ne_eq, decide_eq_true_eq]
      rintro rfl
      exact hz (List.mem_of_mem_drop hx)
    · rw [hz, List.drop_eq_nil_of_le (by exact hpos)] at hx
      cases hx
  rw [hpending] at htext
  have hcont : ∀ c ∈ s.buffer.drop s.bufferPos, isContinuation c = true := by
    intro c hc
    refine h.oneChar hst c ?_
    rw [← List.drop_one]
    have hsub : s.buffer.drop s.bufferPos = (s.buffer.drop 1).drop (s.bufferPos - 1) := by
      rw [List.drop_drop, Nat.add_sub_cancel' hpos]
    rw [hsub] at hc
    exact List.mem_of_mem_drop hc
  obtain ⟨hline, hcolumn⟩ := @after_continuations _ pre hcont
  have hnil : s.skipCached.pending = [] := by
    unfold Stream.pending Stream.skipCached
    rw [List.drop_eq_nil_of_le (by rw [List.length_drop]; dsimp only; omega)]
    rfl
  refine ⟨s.buffer.drop s.bufferPos, t, htext, ?_, ⟨?_, ?_, ?_⟩, ⟨fun _ => ?_, ?_, ?_⟩, fun hok => ?_⟩
  · rw [h.whole, htext, List.append_assoc]
  · rw [hline]
    exact h.behind.line
  · rw [hcolumn]
    exact h.behind.column
  · rw [List.length_append, ← h.behind.position]
    rfl
  · refine ⟨?_, hzero, bs, t, hgives, hsplit, by rw [hnil, List.nil_append]⟩
    unfold Stream.skipCached
    rw [List.length_drop]
    dsimp only
    omega
  · intro heof
    rw [show s.skipCached.state = s.state from rfl, hst] at heof
    cases heof
  · intro herror
    rw [show s.skipCached.state = s.state from rfl, hst] at herror
    cases herror
  · exact h.oneChar hst

/-- **The counters stay in step with the bytes**, in a source without a 0. -/
theorem inStep_tracked (hwhole : Valid whole) (h0 : 0 ∉ whole) :
    InStep get get (Tracked get whole bad) (TrackedByte get whole bad) where
  same := by
    rintro k s s' err ⟨rfl, -, -⟩
    exact ⟨rfl, rfl, rfl, rfl, rfl⟩
  mono := by
    rintro k k' s s' err ⟨rfl, ⟨pre, text, hs, hle⟩, herr⟩ hk
    exact ⟨rfl, ⟨pre, text, hs, hle.trans hk⟩, herr⟩
  fail := by
    rintro k s s' err code msg ⟨rfl, ⟨pre, text, hs, hle⟩, herr⟩
    refine ⟨rfl, ⟨pre, text, hs, hle⟩, fun e he => ?_⟩
    cases err with
    | some e' => exact herr e he
    | none =>
      obtain rfl := Option.mem_some_iff.1 he
      refine ⟨pre, ?_, hs.behind.line, hs.behind.column, hs.behind.position⟩
      rw [hs.whole]
      exact List.prefix_append _ _
  get := by
    rintro k s s' err ⟨rfl, ⟨pre, text, hs, hle⟩, herr⟩
    rcases hs.read hwhole with
      ⟨b, s₁, text₁, heq, rfl, hs₁, hlooked, hlast⟩ | ⟨c, s₁, heq, -, hc, hs₁⟩
    · exact ⟨.byte b, s₁, s₁, heq, heq, rfl, ⟨pre, text₁, hs₁, hle, hlooked, hlast⟩, herr⟩
    · refine ⟨c, s₁, s₁, heq, heq, ?_⟩
      rcases hc with rfl | ⟨rfl, -⟩
      · exact ⟨rfl, ⟨pre, text, hs₁, hle⟩, herr⟩
      · exact ⟨rfl, ⟨pre, text, hs₁, hle⟩, herr⟩
  next := by
    rintro b k s s' err ⟨rfl, ⟨pre, text, hs, hlt, -, -⟩, herr⟩
    exact ⟨text.length, hlt, rfl, ⟨pre ++ [b], text, hs, le_rfl⟩, herr⟩
  monoByte := by
    rintro b k k' s s' err ⟨rfl, ⟨pre, text, hs, hlt, hrest⟩, herr⟩ hk
    exact ⟨rfl, ⟨pre, text, hs, hlt.trans_le hk, hrest⟩, herr⟩
  unget := by
    rintro b k s s' err ⟨rfl, ⟨pre, text, hs, hlt, hlooked, hlast⟩, herr⟩
    have hmem : b ∈ whole := by
      rw [hs.whole]
      exact List.mem_append_left _ (List.mem_append_right _ List.mem_cons_self)
    have hne : b ≠ 0 := fun heq => h0 (heq ▸ hmem)
    have hat := streamUnget_at hlooked
    rw [dropNul, if_neg hne] at hat
    refine ⟨rfl, ⟨pre, b :: text, ⟨?_, hs.behind.unget hlast (first_iff hwhole hmem), hat, fun _ => ?_⟩,
      hlt⟩, herr⟩
    · rw [hs.whole, List.append_assoc, List.singleton_append]
    · obtain ⟨_, -, -, hst, -⟩ := hlooked
      have hbuffer : (streamUnget s' (.byte b)).buffer = s'.buffer := by
        unfold streamUnget
        dsimp only
        split_ifs <;> rfl
      unfold Stream.OneChar
      rw [hbuffer]
      exact hs.oneChar hst
  rest := by
    rintro b k s s' err ⟨rfl, -, -⟩
    rfl
  cached := by
    rintro b k s s' err ⟨rfl, ⟨pre, text, hs, hlt, hlooked, -⟩, herr⟩
    obtain ⟨cs, text₁, rfl, hs₁⟩ := hs.skipCached hlooked
    refine ⟨rfl, ⟨_, text₁, hs₁, ?_⟩, herr⟩
    rw [List.length_append] at hlt
    omega

/-- A run on the bytes of a source ends somewhere in them, and so does its error; a run that fails
    has one. -/
theorem parseJson_tracked {R : Type} {e : Conf R δ} {lex : Lex R δ} (hwhole : Valid whole)
    (h0 : 0 ∉ whole) (hsteps : whole.length < e.steps)
    (hlex : Tracked e.get whole bad whole.length lex.stream lex.stream lex.error) :
    (∃ pre text, (parseJson e lex).2.stream.Between e.get whole bad pre text) ∧
      (∀ err ∈ (parseJson e lex).2.error, ∃ pre, pre <+: whole ∧ err.Behind pre) ∧
      ((parseJson e lex).1 = none → (parseJson e lex).2.error.isSome = true) := by
  obtain ⟨-, ⟨k, -, s', -, -, ⟨pre, text, hs, -⟩, herr⟩, hnone⟩ :=
    parseJson_both (inStep_tracked hwhole h0) ⟨rfl, rfl⟩ hsteps hsteps ⟨lex.stream, rfl, hlex⟩
  exact ⟨⟨pre, text, hs⟩, herr, hnone⟩

end

/-! ## Runs of the decoder -/

theorem Split.begins {bs text : Bytes} {bad : Bool} (h : Split bs text bad) : text <+: bs := by
  induction h with
  | nil => exact List.prefix_refl _
  | cons _ _ ih => exact (List.prefix_append_right_inj _).2 ih
  | bad _ _ => exact List.nil_prefix

section
variable {R : Type} {strtod : Bytes → Option R} {flags : LoadFlags} {data text : Bytes} {bad : Bool}

theorem load_tracked {get : GetFunc Bytes} (hgives : Gives get data data) (h0 : 0 ∉ data)
    (hsplit : Split data text bad) :
    (∃ pre rest, (load get strtod flags data).2.stream.Between get text bad pre rest) ∧
      (∀ err ∈ (load get strtod flags data).2.error, ∃ pre, pre <+: data ∧ err.Behind pre) ∧
      ((load get strtod flags data).1 = none → (load get strtod flags data).2.error.isSome = true) := by
  have hstream : ({ data := data } : Stream Bytes).Between get text bad [] text :=
    ⟨rfl, ⟨rfl, rfl, rfl⟩, Stream.at_init hgives hsplit, fun _ _ h => by cases h⟩
  have hlt : text.length < data.length + 1 := Nat.lt_succ_of_le hsplit.length_le
  obtain ⟨hend, herr, hnone⟩ :=
    @parseJson_tracked _ text bad R ⟨get, strtod, flags, data.length + 1⟩ { stream := { data := data } }
      hsplit.valid (fun hmem => h0 (hsplit.subset hmem)) hlt
      ⟨rfl, ⟨[], text, hstream, le_rfl⟩, nofun⟩
  refine ⟨hend, fun err he => ?_, hnone⟩
  obtain ⟨pre, hpre, hbehind⟩ := herr err he
  exact ⟨pre, hpre.trans hsplit.begins, hbehind⟩

/-- The line, the column and the position of the report are those behind `p` bytes. -/
structure JsonError.Locates (error : JsonError) (string : Bytes) (p : ℕ) : Prop where
  le : p ≤ string.length
  position : error.position.toInt = p
  line : error.line.toInt = lineAfter (string.take p)
  column : error.column.toInt = columnAfter (string.take p)

theorem columnAfter_le (bs : Bytes) : columnAfter bs ≤ bs.length := by
  unfold columnAfter
  calc _ ≤ (bs.reverse.takeWhile (· ≠ 0x0A)).length := List.length_filter_le _ _
    _ ≤ bs.reverse.length := (List.takeWhile_sublist _).length_le
    _ = bs.length := List.length_reverse

/-- The numbers of an error, if they are in the range of an `int`. -/
theorem Error.Behind.locates {err : Error} {pre string : Bytes} (h : err.Behind pre)
    (hpre : pre <+: string) (hposition : pre.length < 2 ^ 31) (hline : lineAfter pre < 2 ^ 31) {error : JsonError}
    (hp : error.position = .ofInt err.position) (hl : error.line = .ofInt err.line)
    (hc : error.column = .ofInt err.column) : error.Locates string pre.length := by
  have hcolumn := columnAfter_le pre
  rw [h.position] at hp
  rw [h.line] at hl
  rw [h.column] at hc
  have htake : string.take pre.length = pre := (List.prefix_iff_eq_take.1 hpre).symm
  refine ⟨hpre.length_le, ?_, ?_, ?_⟩
  · rw [hp]
    exact Int32.toInt_ofInt_of_le (by omega) (by omega)
  · rw [hl, htake]
    exact Int32.toInt_ofInt_of_le (by omega) (by omega)
  · rw [hc, htake]
    exact Int32.toInt_ofInt_of_le (by omega) (by omega)

/-- **Where `json_loads` fails.** The report of a failure is about a beginning of the input: its
    numbers are those behind that beginning, converted to `int`. -/
theorem jsonLoads_located (strtod : Bytes → Option R) (flags : LoadFlags) {string : Bytes}
    (h0 : 0 ∉ string) {error : JsonError} (h : jsonLoadsError strtod flags string = (none, error)) :
    ∃ p ≤ string.length, error.position = .ofInt p ∧ error.line = .ofInt (lineAfter (string.take p)) ∧
      error.column = .ofInt (columnAfter (string.take p)) ∧
      (p < 2 ^ 31 → lineAfter (string.take p) < 2 ^ 31 → error.Locates string p) := by
  obtain ⟨text, bad, hsplit⟩ := split_exists string
  obtain ⟨-, herr, hnone⟩ := @load_tracked R strtod flags string text bad _ (gives_stringGet h0) h0 hsplit
  unfold jsonLoadsError reported at h
  cases hvalue : (load stringGet strtod flags string).1 with
  | some v =>
    rw [hvalue] at h
    cases h
  | none =>
    obtain ⟨err, he⟩ := Option.isSome_iff_exists.1 (hnone hvalue)
    obtain ⟨pre, hpre, hbehind⟩ := herr err he
    rw [hvalue, he] at h
    obtain ⟨-, rfl⟩ := Prod.mk.inj h
    have htake : string.take pre.length = pre := (List.prefix_iff_eq_take.1 hpre).symm
    refine ⟨pre.length, hpre.length_le, ?_, ?_, ?_, fun hp hl => ?_⟩
    · exact congrArg (fun n : ℕ => Int32.ofInt n) hbehind.position
    · rw [htake]
      exact congrArg Int32.ofInt hbehind.line
    · rw [htake]
      exact congrArg Int32.ofInt hbehind.column
    · rw [htake] at hl
      exact hbehind.locates hpre hp hl rfl rfl rfl

theorem jsonLoads_located_newline :
    ∃ p ≤ (ascii "[\nx").length, (jsonLoadsError (R := Empty) (fun _ => none) {} (ascii "[\nx")).2.line =
      .ofInt (lineAfter ((ascii "[\nx").take p)) := by
  have hnone : (jsonLoadsError (R := Empty) (fun _ => none) {} (ascii "[\nx")).1.isNone = true := by
    decide +kernel
  obtain ⟨p, hp, -, hline, -⟩ := jsonLoads_located (R := Empty) (fun _ => none) {}
    (show 0 ∉ ascii "[\nx" by decide) (Prod.ext (Option.isNone_iff_eq_none.1 hnone) rfl)
  exact ⟨p, hp, hline⟩

/-! ## Inputs that are too long for an `int` -/

theorem lexGet_of_at {e : Conf R Bytes} {lex : Lex R Bytes} {c : Got} {s : Stream Bytes} {rest : Bytes}
    (h : streamGet e.get lex.stream = (c, s)) (hat : s.At e.get rest false) :
    lexGet e lex = (c, { lex with stream := s }) := by
  unfold lexGet
  rw [h]
  exact if_neg fun hbad => Bool.false_ne_true (hat.error hbad.2).2

/-- `lex_scan` skips whitespace up to the end. -/
theorem lexSkip_blank {e : Conf R Bytes} {whole : Bytes} (hwhole : Valid whole) :
    ∀ (n : ℕ) {lex : Lex R Bytes} {pre ws : Bytes}, ws.length < n → (∀ c ∈ ws, isSpace c = true) →
      lex.stream.Between e.get whole false pre ws →
      ∃ s, lexSkip e n lex = (.eof, { lex with stream := s }) ∧ s.Between e.get whole false (pre ++ ws) []
  | 0, _, _, _, hn, _, _ => absurd hn (Nat.not_lt_zero _)
  | n + 1, lex, pre, ws, hn, hws, h => by
    rw [lexSkip]
    rcases h.read hwhole with ⟨b, s₁, ws₁, heq, rfl, hs₁, -⟩ | ⟨c, s₁, heq, rfl, hc, hs₁⟩
    · obtain ⟨hb, hws₁⟩ := List.forall_mem_cons.1 hws
      have hlex₁ : ({ lex with stream := s₁ } : Lex R Bytes).stream.Between e.get whole false
        (pre ++ [b]) ws₁ := hs₁
      obtain ⟨s, hskip, hs⟩ := lexSkip_blank hwhole n (Nat.lt_of_succ_lt_succ hn) hws₁ hlex₁
      rw [lexGet_of_at heq hs₁.left]
      dsimp only
      rw [if_pos (show (Got.byte b).is isSpace = true from hb), hskip]
      rw [List.append_assoc, List.singleton_append] at hs
      exact ⟨s, rfl, hs⟩
    · obtain rfl : c = .eof := hc.resolve_right fun h => Bool.false_ne_true h.2
      rw [lexGet_of_at heq hs₁.left, List.append_nil]
      exact ⟨s₁, rfl, hs₁⟩

/-- Whitespace alone is refused at its end. -/
theorem jsonLoads_blank {strtod : Bytes → Option R} {ws : Bytes} (hws : ∀ c ∈ ws, isSpace c = true) :
    (jsonLoadsError strtod {} ws).1 = none ∧ (jsonLoadsError strtod {} ws).2.position = .ofInt ws.length := by
  have h0 : 0 ∉ ws := fun hmem => by cases hws 0 hmem
  have hvalid : Valid ws := by
    induction ws with
    | nil => exact .nil
    | cons c ws ih =>
      obtain ⟨hc, hws⟩ := List.forall_mem_cons.1 hws
      exact .ascii (isSpace_lt hc) (ih hws fun hmem => h0 (List.mem_cons_of_mem _ hmem))
  have hstream : ({ data := ws } : Stream Bytes).Between stringGet ws false [] ws :=
    ⟨rfl, ⟨rfl, rfl, rfl⟩, Stream.at_init (gives_stringGet h0) (split_of_valid hvalid), fun _ _ h => by cases h⟩
  let e : Conf R Bytes := ⟨stringGet, strtod, {}, ws.length + 1⟩
  obtain ⟨s, hskip, hs⟩ := @lexSkip_blank R e ws hvalid (ws.length + 1)
    { stream := { data := ws } } [] ws (Nat.lt_succ_self _) hws hstream
  have hscan : lexScan e { stream := { data := ws } } = { stream := s, token := .eof } := by
    unfold lexScan
    dsimp only
    rw [hskip]
  unfold jsonLoadsError reported load parseJson
  dsimp only
  rw [hscan]
  refine ⟨rfl, ?_⟩
  show Int32.ofInt s.position = _
  rw [hs.behind.position]
  rfl

/-- Behind 2 GiB the position is no longer that of the error. -/
theorem jsonLoads_not_located :
    0 ∉ List.replicate (2 ^ 31) (0x20 : UInt8) ∧
      (jsonLoadsError (R := Empty) (fun _ => none) {} (List.replicate (2 ^ 31) 0x20)).1 = none ∧
      ¬ ∃ p, (jsonLoadsError (R := Empty) (fun _ => none) {} (List.replicate (2 ^ 31) 0x20)).2.Locates
        (List.replicate (2 ^ 31) 0x20) p := by
  obtain ⟨hnone, hposition⟩ := @jsonLoads_blank Empty (fun _ => none) (List.replicate (2 ^ 31) 0x20)
    (fun c hc => by rw [List.eq_of_mem_replicate hc]; rfl)
  refine ⟨fun hmem => absurd (List.eq_of_mem_replicate hmem) (by decide), hnone, ?_⟩
  rintro ⟨p, hp⟩
  have hneg : (Int32.ofInt ((2 ^ 31 : ℕ) : ℤ)).toInt = -2 ^ 31 := by decide
  have hpos := hp.position
  rw [hposition, List.length_replicate, hneg] at hpos
  omega

end

end Jansson
