/-
  Dumping into a buffer of a given size (`json_dumpb`).

  The encoder calls any two callbacks alike as long as they return the same, so a relation between
  their states that every chunk keeps is kept by the whole dump.
-/
import IotLib.Jansson.Text
import IotLib.Jansson.Accept

namespace Jansson

/-! ## The buffer -/

/-- `struct buffer`, with the memory at `data`. -/
structure DumpBuffer where
  size : Nat
  used : Nat
  data : Nat → UInt8

/-- `memcpy(&data[start], bs, ...)` -/
def memcpyAt (data : Nat → UInt8) (start : Nat) (bs : Bytes) : Nat → UInt8 := fun i =>
  if start ≤ i ∧ i < start + bs.length then bs.getD (i - start) 0 else data i

/-- `dump_to_buffer`; sizes are of 64 bits. -/
def dumpToBuffer : Callback DumpBuffer := fun chunk buf =>
  let sum := (buf.used + chunk.length) % 2 ^ 64
  (0, { buf with
    data := if sum ≤ buf.size then memcpyAt buf.data buf.used chunk else buf.data
    used := sum })

/-- `json_dumpb`: what it returns, and the memory at `buffer`. -/
def jsonDumpb {R : Type} (heap : Heap R) (dtostr : Nat → R → Option Bytes) (flags : DumpFlags)
    (json : Ref) (buffer : Nat → UInt8) (size : Nat) : Nat × (Nat → UInt8) :=
  match jsonDumpCallback heap dtostr dumpToBuffer flags json
      { size := size, used := 0, data := buffer } with
  | (r, buf) => (if r = 0 then buf.used else 0, buf.data)

/-! ## Two dumps -/

section
variable {σ σ' : Type} (A : σ → σ' → Prop)

/-- The writers return the same, and keep the relation. -/
def Agree (w : Writer σ) (w' : Writer σ') : Prop :=
  ∀ s s', A s s' → (w' s').1 = (w s).1 ∧ A (w s).2 (w' s').2

/-- The callbacks agree on chunks without a 0. -/
def AgreeOn (dump : Callback σ) (dump' : Callback σ') : Prop :=
  ∀ chunk : Bytes, 0 ∉ chunk → Agree A (dump chunk) (dump' chunk)

variable {A} {dump : Callback σ} {dump' : Callback σ'}

theorem agree_giveBack (r : Int) : Agree A (giveBack r) (giveBack r) :=
  fun _ _ h => ⟨rfl, h⟩

theorem Agree.check {a b : Writer σ} {a' b' : Writer σ'} (ha : Agree A a a') (hb : Agree A b b') :
    Agree A (Writer.check a b) (Writer.check a' b') := by
  intro s s' h
  obtain ⟨hr, h₁⟩ := ha s s' h
  unfold Writer.check
  generalize a s = r at hr h₁ ⊢
  generalize a' s' = r' at hr h₁ ⊢
  obtain ⟨r, s₁⟩ := r
  obtain ⟨r', s₁'⟩ := r'
  obtain rfl : r' = r := hr
  dsimp only
  split_ifs
  · exact hb _ _ h₁
  · exact ⟨rfl, h₁⟩

theorem Agree.forget {a : Writer σ} {a' : Writer σ'} (ha : Agree A a a') :
    Agree A (Writer.forget a) (Writer.forget a') :=
  fun s s' h => ⟨rfl, (ha s s' h).2⟩

variable (hdump : AgreeOn A dump dump')
include hdump

theorem dumpSpaces_agree : ∀ n spaces : ℕ,
    Agree A (dumpSpaces dump n spaces) (dumpSpaces dump' n spaces)
  | 0, _ => agree_giveBack 0
  | n + 1, spaces => by
    rw [dumpSpaces, dumpSpaces]
    by_cases hzero : spaces = 0
    · rw [if_pos hzero, if_pos hzero]
      exact agree_giveBack 0
    · rw [if_neg hzero, if_neg hzero]
      exact (hdump _ fun h => absurd (List.eq_of_mem_replicate h) (by decide)).check
        (dumpSpaces_agree n _)

theorem dumpIndent_agree (flags : DumpFlags) (depth : ℕ) (space : Bool) :
    Agree A (dumpIndent dump flags depth space) (dumpIndent dump' flags depth space) := by
  unfold dumpIndent
  by_cases hindent : flags.indent.val > 0
  · rw [if_pos hindent, if_pos hindent]
    exact (hdump _ (by decide)).check (dumpSpaces_agree hdump _ _)
  rw [if_neg hindent, if_neg hindent]
  by_cases hspace : (space && !flags.compact) = true
  · rw [if_pos hspace, if_pos hspace]
    exact hdump _ (by decide)
  · rw [if_neg hspace, if_neg hspace]
    exact agree_giveBack 0

omit hdump in
theorem PlainRun.noNul {run : Bytes} (h : PlainRun run) : 0 ∉ run := by
  have hchars : Chars (run ++ []) (run ++ [0x22]) [] := h .close
  exact fun hmem => hchars.prepends prepends_nul List.not_mem_nil (List.mem_append_left _ hmem)

omit hdump in
theorem escapeText_noNul {c : ℕ} (hc : IsScalar c) : 0 ∉ escapeText c := by
  have hchars : Chars (encode c ++ []) (escapeText c ++ [0x22]) [] := escapeText_chars hc .close
  exact fun hmem => hchars.prepends prepends_nul List.not_mem_nil (List.mem_append_left _ hmem)

theorem dumpBody_agree (flags : DumpFlags) : ∀ (n : ℕ) (str : Bytes),
    Agree A (dumpBody dump flags n str) (dumpBody dump' flags n str)
  | 0, _ => agree_giveBack _
  | n + 1, str => by
    rw [dumpBody, dumpBody]
    have hspec := dumpRun_spec flags str.length str le_rfl
    have hrun : ∀ {run : Bytes}, PlainRun run → Agree A (if run ≠ [] then dump run else giveBack 0)
        (if run ≠ [] then dump' run else giveBack 0) := by
      intro run hplain
      by_cases hne : run ≠ []
      · rw [if_pos hne, if_pos hne]
        exact hdump run hplain.noNul
      · rw [if_neg hne, if_neg hne]
        exact agree_giveBack 0
    cases hr : dumpRun flags str.length str with
    | none => exact agree_giveBack _
    | some p =>
      rw [hr] at hspec
      obtain ⟨run, _ | ⟨c, rest⟩⟩ := p
      · obtain ⟨-, -, hplain⟩ := hspec
        exact (hrun hplain).check (hdump _ (by decide))
      · obtain ⟨-, hc, -, hplain, -⟩ := hspec
        exact (hrun hplain).check ((hdump _ (escapeText_noNul hc)).check (dumpBody_agree flags n rest))

theorem dumpString_agree (flags : DumpFlags) (str : Bytes) :
    Agree A (dumpString dump flags str) (dumpString dump' flags str) :=
  (hdump _ (by decide)).check (dumpBody_agree hdump flags _ str)

theorem dumpItems_agree {α : Type} {flags : DumpFlags} {depth : ℕ} {item : α → Writer σ}
    {item' : α → Writer σ'} (hitem : ∀ x, Agree A (item x) (item' x)) :
    ∀ xs : List α, Agree A (dumpItems dump flags depth item xs) (dumpItems dump' flags depth item' xs)
  | [] => agree_giveBack 0
  | [x] => (hitem x).check (dumpIndent_agree hdump flags depth false)
  | x :: y :: xs =>
    (hitem x).check ((hdump _ (by decide)).check
      ((dumpIndent_agree hdump flags (depth + 1) true).check (dumpItems_agree hitem (y :: xs))))

theorem dumpBracketed_agree {α : Type} {flags : DumpFlags} {embed : Bool} {depth : ℕ}
    {first last : UInt8} {item : α → Writer σ} {item' : α → Writer σ'} (xs : List α)
    (hfirst : first ≠ 0) (hlast : last ≠ 0) (hitem : ∀ x, Agree A (item x) (item' x)) :
    Agree A (dumpBracketed dump flags embed depth first last item xs)
      (dumpBracketed dump' flags embed depth first last item' xs) := by
  have hopt : ∀ {c : UInt8}, c ≠ 0 → Agree A (if embed = true then giveBack 0 else dump [c])
      (if embed = true then giveBack 0 else dump' [c]) := by
    intro c hc
    cases embed with
    | true => exact agree_giveBack 0
    | false => exact hdump _ fun h => hc (List.mem_singleton.1 h).symm
  unfold dumpBracketed
  refine (hopt hfirst).check ?_
  by_cases hempty : xs.isEmpty = true
  · rw [if_pos hempty, if_pos hempty]
    exact hopt hlast
  · rw [if_neg hempty, if_neg hempty]
    exact (dumpIndent_agree hdump _ _ _).check ((dumpItems_agree hdump hitem xs).check (hopt hlast))

theorem dumpMember_agree {flags : DumpFlags} {value : Ref → Writer σ} {value' : Ref → Writer σ'}
    (hvalue : ∀ p, Agree A (value p) (value' p)) (m : Bytes × Option Ref) :
    Agree A (dumpMember dump flags value m) (dumpMember dump' flags value' m) := by
  obtain ⟨key, o⟩ := m
  refine (dumpString_agree hdump flags key).forget.check (.check (hdump _ ?_) ?_)
  · split_ifs <;> decide
  · cases o with
    | none => exact agree_giveBack _
    | some p => exact hvalue p

variable {R : Type} {heap : Heap R} {dtostr : Nat → R → Option Bytes} {precision : Fin 32}
  (hreal : ∀ r text, dtostr precision r = some text → 0 ∉ text)
include hreal

omit hdump hreal in
theorem integerText_noNul (i : Int64) : 0 ∉ integerText i := by
  obtain ⟨m, ds, htext, hm, hds, -⟩ := integerText_spec i
  rw [htext]
  exact fun h => ((hm.isText.append hds.digits.isText) 0 h).1 rfl

/-- **Two dumps of a value agree.** -/
theorem doDump_agree : ∀ (n : ℕ) {flags : DumpFlags} (depth : ℕ) (parents : List Ref) (json : Ref),
    flags.precision = precision →
    Agree A (doDump heap dtostr dump n flags depth parents json)
      (doDump heap dtostr dump' n flags depth parents json)
  | 0, _, _, _, _, _ => agree_giveBack _
  | n + 1, flags, depth, parents, json, hprecision => by
    have ih : ∀ p, Agree A
        (doDump heap dtostr dump n { flags with embed := false } (depth + 1) (json :: parents) p)
        (doDump heap dtostr dump' n { flags with embed := false } (depth + 1) (json :: parents) p) :=
      fun p => doDump_agree n _ _ p hprecision
    cases json with
    | null | true | false => exact hdump _ (by decide)
    | node i =>
      cases hi : heap[i]? with
      | none =>
        rw [doDump, doDump, hi]
        exact agree_giveBack _
      | some node =>
        cases node with
        | integer k =>
          rw [doDump, doDump, hi]
          exact hdump _ (integerText_noNul k)
        | string str =>
          rw [doDump, doDump, hi]
          exact dumpString_agree hdump _ str
        | real r =>
          rw [doDump, doDump, hi]
          dsimp only
          rw [hprecision]
          cases htext : dtostr precision r with
          | none => exact agree_giveBack _
          | some text => exact hdump _ (hreal r text htext)
        | array ps =>
          rw [doDump, doDump, hi]
          dsimp only
          by_cases hparent : Ref.node i ∈ parents
          · rw [if_pos hparent, if_pos hparent]
            exact agree_giveBack _
          · rw [if_neg hparent, if_neg hparent]
            exact dumpBracketed_agree hdump ps (by decide) (by decide) ih
        | object ms =>
          rw [doDump, doDump, hi]
          dsimp only
          by_cases hparent : Ref.node i ∈ parents
          · rw [if_pos hparent, if_pos hparent]
            exact agree_giveBack _
          · rw [if_neg hparent, if_neg hparent]
            exact dumpBracketed_agree hdump _ (by decide) (by decide) (dumpMember_agree hdump ih)

theorem jsonDumpCallback_agree {flags : DumpFlags} (hprecision : flags.precision = precision)
    (json : Ref) :
    Agree A (jsonDumpCallback heap dtostr dump flags json)
      (jsonDumpCallback heap dtostr dump' flags json) := by
  unfold jsonDumpCallback
  by_cases hany : (!flags.encodeAny && !isContainer heap json) = true
  · rw [if_pos hany, if_pos hany]
    exact agree_giveBack _
  · rw [if_neg hany, if_neg hany]
    exact doDump_agree hdump hreal _ _ _ json hprecision

end

/-! ## The string and the buffer -/

/-- The buffer of `size` bytes has counted `text`, and holds it if it fits; nothing else has
    changed in memory. -/
structure Counted (size : ℕ) (memory : Nat → UInt8) (text : Bytes) (buf : DumpBuffer) : Prop where
  room : buf.size = size
  used : buf.used = text.length
  beyond : ∀ i, size ≤ i → buf.data i = memory i
  holds : text.length ≤ size → ∀ i < text.length, buf.data i = text.getD i 0

theorem Counted.append {size : ℕ} {memory : Nat → UInt8} {text chunk : Bytes} {buf : DumpBuffer}
    (h : Counted size memory text buf) (hlen : (text ++ chunk).length < 2 ^ 64) :
    Counted size memory (text ++ chunk) (dumpToBuffer chunk buf).2 := by
  rw [List.length_append] at hlen
  have hsum : (buf.used + chunk.length) % 2 ^ 64 = text.length + chunk.length := by
    rw [h.used, Nat.mod_eq_of_lt hlen]
  unfold dumpToBuffer
  rw [hsum, h.room]
  dsimp only
  by_cases hfits : text.length + chunk.length ≤ size
  · rw [if_pos hfits]
    refine ⟨rfl, List.length_append.symm, fun i hi => ?_, fun _ i hi => ?_⟩
    · dsimp only
      rw [memcpyAt, if_neg (by rw [h.used]; omega), h.beyond i hi]
    · rw [List.length_append] at hi
      dsimp only
      rw [memcpyAt, h.used]
      by_cases hold : i < text.length
      · rw [if_neg (by omega), h.holds (by omega) i hold, List.getD_append _ _ _ _ hold]
      · rw [if_pos (by omega), List.getD_append_right _ _ _ _ (by omega)]
  · rw [if_neg hfits]
    refine ⟨rfl, List.length_append.symm, h.beyond, fun hle => ?_⟩
    rw [List.length_append] at hle
    exact absurd hle hfits

/-- While the string is no longer than a size can be. -/
def Mirrors (size : ℕ) (memory : Nat → UInt8) (text : Bytes) (buf : DumpBuffer) : Prop :=
  0 ∉ text ∧ (text.length < 2 ^ 64 → Counted size memory text buf)

theorem agreeOn_buffer (size : ℕ) (memory : Nat → UInt8) :
    AgreeOn (Mirrors size memory) dumpToStrbuffer dumpToBuffer := by
  rintro chunk hchunk text buf ⟨htext, h⟩
  refine ⟨rfl, ?_, fun hlen => (h ?_).append hlen⟩
  · show 0 ∉ text ++ chunk
    rw [List.mem_append, not_or]
    exact ⟨htext, hchunk⟩
  · have hlen' : (text ++ chunk).length < 2 ^ 64 := hlen
    rw [List.length_append] at hlen'
    omega

/-- **The size that `json_dumpb` returns**, and what it writes, for any size of the buffer. -/
theorem jsonDumpb_sizing {R : Type} {heap : Heap R} {dtostr : Nat → R → Option Bytes}
    {flags : DumpFlags} (hreal : ∀ r text, dtostr flags.precision r = some text → 0 ∉ text)
    {json : Ref} {text : Bytes} (h : jsonDumps heap dtostr flags json = some text)
    (hlen : text.length < 2 ^ 64) (buffer : Nat → UInt8) (size : ℕ) :
    (jsonDumpb heap dtostr flags json buffer size).1 = text.length ∧
      (∀ i, size ≤ i → (jsonDumpb heap dtostr flags json buffer size).2 i = buffer i) ∧
      (text.length ≤ size → ∀ i < text.length,
        (jsonDumpb heap dtostr flags json buffer size).2 i = text.getD i 0) := by
  have hstart : Mirrors size buffer [] { size := size, used := 0, data := buffer } :=
    ⟨List.not_mem_nil, fun _ => ⟨rfl, rfl, fun _ _ => rfl, fun _ _ hi => absurd hi (Nat.not_lt_zero _)⟩⟩
  obtain ⟨hr, hnul, hend⟩ :=
    @jsonDumpCallback_agree _ _ _ _ _ (agreeOn_buffer size buffer) R heap dtostr _ hreal flags rfl json
      _ _ hstart
  unfold jsonDumps at h
  unfold jsonDumpb
  generalize jsonDumpCallback heap dtostr dumpToStrbuffer flags json [] = run at h hr hnul hend
  generalize jsonDumpCallback heap dtostr dumpToBuffer flags json
    { size := size, used := 0, data := buffer } = run' at hr hend ⊢
  obtain ⟨r, s⟩ := run
  obtain ⟨r', buf⟩ := run'
  dsimp only at h hr hnul hend ⊢
  subst hr
  split_ifs at h ⊢ with hzero
  -- no chunk has a 0, so that `json_dumps` returns the whole string
  have hs : s = text := by
    rw [← Option.some.inj h]
    refine (List.takeWhile_eq_self_iff.2 fun b hb => ?_).symm
    simp only [ne_eq, decide_eq_true_eq]
    rintro rfl
    exact hnul hb
  subst hs
  have hcounted := hend hlen
  exact ⟨hcounted.used, hcounted.beyond, hcounted.holds⟩

/-- Three bytes are too few. -/
theorem jsonDumpb_sizing_three :
    (jsonDumpb (R := Empty) [.array [.true]] (fun _ _ => none) {} (.node 0) (fun _ => 0) 3).1 =
      (ascii "[true]").length := by
  have hdumps : jsonDumps (R := Empty) [.array [.true]] (fun _ _ => none) {} (.node 0) =
      some (ascii "[true]") := by decide +kernel
  exact (jsonDumpb_sizing (fun r => r.elim) hdumps (by simp [ascii]) (fun _ => 0) 3).1

end Jansson
