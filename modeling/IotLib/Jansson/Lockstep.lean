/-
  Two runs of the decoder in step, on sources of any kind.

  The runs are at the same place of the source code and their states differ in nothing but the
  streams. A relation that each reading of a byte keeps, together with the putting back of that
  byte, is kept by the whole decoder.
-/
import IotLib.Jansson.Load

namespace Jansson

section
variable {R δ δ' : Type}

/-- The same lexer on another stream. -/
def Lex.withStream (lex : Lex R δ) (s : Stream δ') : Lex R δ' := { lex with stream := s }

/-- What an error says of a stream is the same. -/
structure Stream.Same (s : Stream δ) (s' : Stream δ') : Prop where
  state : s'.state = s.state
  line : s'.line = s.line
  column : s'.column = s.column
  position : s'.position = s.position
  head : s'.buffer.headD 0 = s.buffer.headD 0

/-- The stream behind the bytes of its buffer. -/
def Stream.skipCached (s : Stream δ) : Stream δ :=
  { s with
    bufferPos := s.bufferPos + (s.buffer.drop s.bufferPos).length
    position := s.position + (s.buffer.drop s.bufferPos).length }

/-- While bytes come there is no error. -/
theorem streamGet_byte_state {get : GetFunc δ} {s s' : Stream δ} {b : UInt8}
    (h : streamGet get s = (.byte b, s')) : s'.state ≠ .error := by
  have hnext : ∀ t : Stream δ, t.state = .ok → t.next.2.state = .ok := by
    intro t ht
    unfold Stream.next
    dsimp only
    split_ifs
    · exact ht
    · exact ht
    · exact ht
  have hok : ∀ t : Stream δ, t.state = .ok → t.next = (.byte b, s') → s'.state ≠ .error := by
    intro t ht heq
    have hstate := hnext t ht
    rw [heq] at hstate
    rw [hstate]
    exact nofun
  unfold streamGet at h
  cases hstate : s.state with
  | eof => simp [hstate] at h
  | error => simp [hstate] at h
  | ok =>
    simp only [hstate] at h
    generalize get s.data = r at h
    obtain ⟨c, data⟩ := r
    split_ifs at h
    · cases c with
      | none => simp at h
      | some c =>
        dsimp only at h
        split_ifs at h
        · refine hok _ ?_ h
          rfl
        · cases h
        · cases h
        · refine hok _ ?_ h
          rfl
    · exact hok s hstate h

/-- A relation between the states of two streams, `P`, with a bound on the bytes that are left;
    `Q b` is the relation when `b` was read last. -/
structure InStep (get : GetFunc δ) (get' : GetFunc δ')
    (P : ℕ → Stream δ → Stream δ' → Option Error → Prop)
    (Q : UInt8 → ℕ → Stream δ → Stream δ' → Option Error → Prop) : Prop where
  same : ∀ {k s s' err}, P k s s' err → s.Same s'
  mono : ∀ {k k' s s' err}, P k s s' err → k ≤ k' → P k' s s' err
  fail : ∀ {k s s' err} (code : ErrorCode) (text : Bytes), P k s s' err →
    P k s s' (err.or (some ⟨s.line, s.column, s.position, code, text⟩))
  get : ∀ {k s s' err}, P k s s' err → ∃ c s₁ s₁',
    streamGet get s = (c, s₁) ∧ streamGet get' s' = (c, s₁') ∧
    match c with
    | .byte b => Q b k s₁ s₁' err
    | .eof | .error => P k s₁ s₁' err
  next : ∀ {b k s s' err}, Q b k s s' err → ∃ k' < k, P k' s s' err
  monoByte : ∀ {b k k' s s' err}, Q b k s s' err → k ≤ k' → Q b k' s s' err
  unget : ∀ {b k s s' err}, Q b k s s' err →
    P k (streamUnget s (.byte b)) (streamUnget s' (.byte b)) err
  rest : ∀ {b k s s' err}, Q b k s s' err →
    s'.buffer.drop s'.bufferPos = s.buffer.drop s.bufferPos
  cached : ∀ {b k s s' err}, Q b k s s' err → P k s.skipCached s'.skipCached err

/-- Both runs have the same flags and conversions. -/
structure Conf.Alike (e : Conf R δ) (e' : Conf R δ') : Prop where
  flags : e'.flags = e.flags
  strtod : e'.strtod = e.strtod

end

section
variable {R δ δ' : Type} {e : Conf R δ} {e' : Conf R δ'}
  (P : ℕ → Stream δ → Stream δ' → Option Error → Prop)
  (Q : UInt8 → ℕ → Stream δ → Stream δ' → Option Error → Prop)

/-- The lexers are in step. -/
def Sync (k : ℕ) (lex : Lex R δ) (lex' : Lex R δ') : Prop :=
  ∃ s', lex' = lex.withStream s' ∧ P k lex.stream s' lex.error

/-- The lexers are in step, and have just read `c`. -/
def Held (c : Got) (k : ℕ) (lex : Lex R δ) (lex' : Lex R δ') : Prop :=
  ∃ s', lex' = lex.withStream s' ∧
    match c with
    | .byte b => Q b k lex.stream s' lex.error
    | .eof | .error => P k lex.stream s' lex.error

/-- Both read the same. -/
def BothGot (k : ℕ) (r : Got × Lex R δ) (r' : Got × Lex R δ') : Prop :=
  r'.1 = r.1 ∧ Held P Q r.1 k r.2 r'.2

/-- Both read the same behind a part of a number, or fail. -/
def BothPart (k : ℕ) (r : Option Got × Lex R δ) (r' : Option Got × Lex R δ') : Prop :=
  r'.1 = r.1 ∧
    match r.1 with
    | some c => Held P Q c k r.2 r'.2
    | none => Sync P k r.2 r'.2

variable {P Q} {k k' : ℕ} {lex : Lex R δ} {lex' : Lex R δ'} {c : Got}

/-! ## Without reading -/

theorem Sync.setToken (h : Sync P k lex lex') (t : Token R) :
    Sync P k { lex with token := t } { lex' with token := t } := by
  obtain ⟨s', rfl, hP⟩ := h
  exact ⟨s', rfl, hP⟩

theorem Sync.setSaved (h : Sync P k lex lex') (bs : Bytes) :
    Sync P k { lex with savedText := bs } { lex' with savedText := bs } := by
  obtain ⟨s', rfl, hP⟩ := h
  exact ⟨s', rfl, hP⟩

theorem Sync.savedText (h : Sync P k lex lex') : lex'.savedText = lex.savedText := by
  obtain ⟨s', rfl, -⟩ := h
  rfl

/-- The text of a token is the same. -/
theorem Sync.setTokenSaved (h : Sync P k lex lex') (t : Token R) :
    Sync P k { lex with token := t } { lex' with savedText := lex.savedText, token := t } := by
  obtain ⟨s', rfl, hP⟩ := h
  exact ⟨s', rfl, hP⟩

theorem Sync.token (h : Sync P k lex lex') : lex'.token = lex.token := by
  obtain ⟨s', rfl, -⟩ := h
  rfl

theorem Sync.lexSave (h : Sync P k lex lex') (b : UInt8) :
    Sync P k (lexSave lex b) (lexSave lex' b) := by
  obtain ⟨s', rfl, hP⟩ := h
  exact ⟨s', rfl, hP⟩

theorem Held.lexSave (h : Held P Q c k lex lex') (b : UInt8) :
    Held P Q c k (lexSave lex b) (lexSave lex' b) := by
  obtain ⟨s', rfl, hQ⟩ := h
  exact ⟨s', rfl, hQ⟩

section
variable (hstep : InStep e.get e'.get P Q)
include hstep

theorem Sync.mono (h : Sync P k lex lex') (hk : k ≤ k') : Sync P k' lex lex' := by
  obtain ⟨s', heq, hP⟩ := h
  exact ⟨s', heq, hstep.mono hP hk⟩

theorem Sync.errorSet (h : Sync P k lex lex') (code : ErrorCode) (msg : Bytes) :
    Sync P k (errorSet lex code msg) (errorSet lex' code msg) := by
  obtain ⟨s', rfl, hP⟩ := h
  obtain ⟨hstate, hline, hcolumn, hposition, -⟩ := hstep.same hP
  refine ⟨s', ?_, hstep.fail _ _ hP⟩
  unfold Jansson.errorSet Lex.withStream
  dsimp only
  rw [hstate, hline, hcolumn, hposition]

/-- A byte that was read is not left. -/
theorem Held.advance {b : UInt8} (h : Held P Q (.byte b) k lex lex') :
    ∃ k' < k, Sync P k' lex lex' := by
  obtain ⟨s', heq, hQ⟩ := h
  obtain ⟨k', hk', hP⟩ := hstep.next hQ
  exact ⟨k', hk', s', heq, hP⟩

theorem Held.sync (h : Held P Q c k lex lex') : Sync P k lex lex' := by
  cases c with
  | byte b =>
    obtain ⟨k', hk', hsync⟩ := h.advance hstep
    exact hsync.mono hstep hk'.le
  | eof => exact h
  | error => exact h

theorem Held.mono (h : Held P Q c k lex lex') (hk : k ≤ k') : Held P Q c k' lex lex' := by
  obtain ⟨s', heq, hQ⟩ := h
  refine ⟨s', heq, ?_⟩
  cases c with
  | byte b => exact hstep.monoByte hQ hk
  | eof => exact hstep.mono hQ hk
  | error => exact hstep.mono hQ hk

theorem Held.lexUnget (h : Held P Q c k lex lex') :
    Sync P k (lexUnget lex c) (lexUnget lex' c) := by
  obtain ⟨s', rfl, hQ⟩ := h
  refine ⟨streamUnget s' c, rfl, ?_⟩
  cases c with
  | byte b => exact hstep.unget hQ
  | eof => exact hQ
  | error => exact hQ

theorem Held.lexUngetUnsave (h : Held P Q c k lex lex') :
    Sync P k (lexUngetUnsave lex c) (lexUngetUnsave lex' c) := by
  have hsaved := (h.sync hstep).savedText
  cases c with
  | byte b =>
    unfold Jansson.lexUngetUnsave
    rw [hsaved]
    exact (h.lexUnget hstep).setSaved _
  | eof => exact h
  | error => exact h

theorem Held.lexSaveCached {b : UInt8} (h : Held P Q (.byte b) k lex lex') :
    Sync P k (lexSaveCached lex) (lexSaveCached lex') := by
  obtain ⟨s', rfl, hQ⟩ := h
  refine ⟨s'.skipCached, ?_, hstep.cached hQ⟩
  have hrest := hstep.rest hQ
  unfold Jansson.lexSaveCached Lex.withStream Stream.skipCached
  dsimp only
  rw [hrest]

/-! ## Reading -/

theorem lexGet_both (h : Sync P k lex lex') : BothGot P Q k (lexGet e lex) (lexGet e' lex') := by
  obtain ⟨s', rfl, hP⟩ := h
  obtain ⟨c, s₁, s₁', heq, heq', hQ⟩ := hstep.get hP
  have hsame₁ : s₁.Same s₁' := by
    cases c with
    | byte b =>
      obtain ⟨k', -, hP₁⟩ := hstep.next hQ
      exact hstep.same hP₁
    | eof => exact hstep.same hQ
    | error => exact hstep.same hQ
  unfold lexGet
  rw [heq, show streamGet e'.get (lex.withStream s').stream = (c, s₁') from heq']
  dsimp only
  rw [show (lex.withStream s').stream.state = lex.stream.state from (hstep.same hP).state,
    hsame₁.state, hsame₁.head]
  by_cases hbad : lex.stream.state = .ok ∧ s₁.state = .error
  · rw [if_pos hbad, if_pos hbad]
    have hsync : Sync P k { lex with stream := s₁ } { lex.withStream s' with stream := s₁' } := by
      refine ⟨s₁', rfl, ?_⟩
      cases c with
      | byte b => exact absurd hbad.2 (streamGet_byte_state heq)
      | eof => exact hQ
      | error => exact hQ
    refine ⟨rfl, ?_⟩
    cases c with
    | byte b => exact absurd hbad.2 (streamGet_byte_state heq)
    | eof => exact hsync.errorSet hstep _ _
    | error => exact hsync.errorSet hstep _ _
  · rw [if_neg hbad, if_neg hbad]
    exact ⟨rfl, s₁', rfl, hQ⟩

theorem lexGetSave_both (h : Sync P k lex lex') :
    BothGot P Q k (lexGetSave e lex) (lexGetSave e' lex') := by
  have hget := lexGet_both hstep h
  unfold lexGetSave
  generalize lexGet e lex = r at hget ⊢
  generalize lexGet e' lex' = r' at hget ⊢
  obtain ⟨c, lex₁⟩ := r
  obtain ⟨c', lex₁'⟩ := r'
  obtain ⟨hc, hheld⟩ := hget
  obtain rfl : c' = c := hc
  cases c' with
  | byte b => exact ⟨rfl, hheld.lexSave b⟩
  | eof => exact ⟨rfl, hheld⟩
  | error => exact ⟨rfl, hheld⟩

omit hstep in
theorem BothGot.cases {r : Got × Lex R δ} {r' : Got × Lex R δ'} (h : BothGot P Q k r r') :
    ∃ c lex lex', r = (c, lex) ∧ r' = (c, lex') ∧ Held P Q c k lex lex' :=
  ⟨r.1, r.2, r'.2, rfl, Prod.ext h.1 rfl, h.2⟩

theorem lexGetSaveWhile_both (p : UInt8 → Bool) : ∀ (n n' : ℕ) {k : ℕ} {lex : Lex R δ}
    {lex' : Lex R δ'}, k < n → k < n' → Sync P k lex lex' →
    BothGot P Q k (lexGetSaveWhile e p n lex) (lexGetSaveWhile e' p n' lex')
  | 0, _, _, _, _, hn, _, _ => absurd hn (Nat.not_lt_zero _)
  | _ + 1, 0, _, _, _, _, hn', _ => absurd hn' (Nat.not_lt_zero _)
  | n + 1, n' + 1, k, lex, lex', hn, hn', h => by
    obtain ⟨c, lex₁, lex₁', heq, heq', hheld⟩ := (lexGetSave_both hstep h).cases
    rw [lexGetSaveWhile, lexGetSaveWhile, heq, heq']
    dsimp only
    by_cases hp : c.is p = true
    · rw [if_pos hp, if_pos hp]
      cases c with
      | byte b =>
        obtain ⟨k', hk', hsync⟩ := hheld.advance hstep
        have ih := lexGetSaveWhile_both p n n' (by omega) (by omega) hsync
        exact ⟨ih.1, ih.2.mono hstep hk'.le⟩
      | eof => cases hp
      | error => cases hp
    · rw [if_neg hp, if_neg hp]
      exact ⟨rfl, hheld⟩

theorem lexSkip_both : ∀ (n n' : ℕ) {k : ℕ} {lex : Lex R δ} {lex' : Lex R δ'}, k < n → k < n' →
    Sync P k lex lex' → BothGot P Q k (lexSkip e n lex) (lexSkip e' n' lex')
  | 0, _, _, _, _, hn, _, _ => absurd hn (Nat.not_lt_zero _)
  | _ + 1, 0, _, _, _, _, hn', _ => absurd hn' (Nat.not_lt_zero _)
  | n + 1, n' + 1, k, lex, lex', hn, hn', h => by
    obtain ⟨c, lex₁, lex₁', heq, heq', hheld⟩ := (lexGet_both hstep h).cases
    rw [lexSkip, lexSkip, heq, heq']
    dsimp only
    by_cases hp : c.is isSpace = true
    · rw [if_pos hp, if_pos hp]
      cases c with
      | byte b =>
        obtain ⟨k', hk', hsync⟩ := hheld.advance hstep
        have ih := lexSkip_both n n' (by omega) (by omega) hsync
        exact ⟨ih.1, ih.2.mono hstep hk'.le⟩
      | eof => cases hp
      | error => cases hp
    · rw [if_neg hp, if_neg hp]
      exact ⟨rfl, hheld⟩

/-! ## Strings -/

theorem scanHex_both : ∀ (i : ℕ) {c : Got} {k : ℕ} {lex : Lex R δ} {lex' : Lex R δ'},
    Held P Q c k lex lex' → BothPart P Q k (scanHex e i c lex) (scanHex e' i c lex')
  | 0, _, _, _, _, h => ⟨rfl, h⟩
  | i + 1, c, k, lex, lex', h => by
    rw [scanHex, scanHex]
    split_ifs with hx
    · obtain ⟨c₁, lex₁, lex₁', heq, heq', hheld⟩ := (lexGetSave_both hstep (h.sync hstep)).cases
      rw [heq, heq']
      exact scanHex_both i hheld
    · exact ⟨rfl, (h.sync hstep).errorSet hstep _ _⟩

/-- The loop over a string gives both the same answer. -/
theorem scanBody_both : ∀ (n n' : ℕ) {c : Got} {k : ℕ} {lex : Lex R δ} {lex' : Lex R δ'},
    k < n → k < n' → Held P Q c k lex lex' →
    (scanBody e' n' c lex').1 = (scanBody e n c lex).1 ∧
      Sync P k (scanBody e n c lex).2 (scanBody e' n' c lex').2
  | 0, _, _, _, _, _, hn, _, _ => absurd hn (Nat.not_lt_zero _)
  | _ + 1, 0, _, _, _, _, _, hn', _ => absurd hn' (Nat.not_lt_zero _)
  | n + 1, n' + 1, c, k, lex, lex', hn, hn', h => by
    cases c with
    | error => exact ⟨rfl, h⟩
    | eof => exact ⟨rfl, (h.sync hstep).errorSet hstep _ _⟩
    | byte b =>
      obtain ⟨k', hk', hsync⟩ := h.advance hstep
      -- one more byte is read, and the loop goes on
      have hloop : ∀ {lex lex'}, Sync P k' lex lex' →
          (scanBody e' n' (lexGetSave e' lex').1 (lexGetSave e' lex').2).1 =
              (scanBody e n (lexGetSave e lex).1 (lexGetSave e lex).2).1 ∧
            Sync P k (scanBody e n (lexGetSave e lex).1 (lexGetSave e lex).2).2
              (scanBody e' n' (lexGetSave e' lex').1 (lexGetSave e' lex').2).2 := by
        intro lex lex' hsync
        obtain ⟨c, lex₁, lex₁', heq, heq', hheld⟩ := (lexGetSave_both hstep hsync).cases
        rw [heq, heq']
        have ih := scanBody_both n n' (by omega) (by omega) hheld
        exact ⟨ih.1, ih.2.mono hstep hk'.le⟩
      rw [scanBody, scanBody]
      by_cases hquote : b = 0x22
      · rw [if_pos hquote, if_pos hquote]
        exact ⟨rfl, h.sync hstep⟩
      rw [if_neg hquote, if_neg hquote]
      by_cases hctl : b.toNat ≤ 0x1F
      · rw [if_pos hctl, if_pos hctl]
        exact ⟨rfl, (h.lexUngetUnsave hstep).errorSet hstep _ _⟩
      rw [if_neg hctl, if_neg hctl]
      by_cases hesc : b = 0x5C
      · rw [if_pos hesc, if_pos hesc]
        obtain ⟨c, lex₁, lex₁', heq, heq', hheld⟩ := (lexGetSave_both hstep hsync).cases
        rw [heq, heq']
        dsimp only
        have hsync₁ := hheld.sync hstep
        by_cases hu : c = .byte 0x75
        · rw [if_pos hu, if_pos hu]
          obtain ⟨c₂, lex₂, lex₂', heq₂, heq₂', hheld₂⟩ := (lexGetSave_both hstep hsync₁).cases
          rw [heq₂, heq₂']
          dsimp only
          obtain ⟨hr, hpart⟩ := scanHex_both hstep 4 hheld₂
          generalize scanHex e 4 c₂ lex₂ = r at hr hpart ⊢
          generalize scanHex e' 4 c₂ lex₂' = r' at hr hpart ⊢
          obtain ⟨o, lex₃⟩ := r
          obtain ⟨o', lex₃'⟩ := r'
          obtain rfl : o' = o := hr
          cases o' with
          | none => exact ⟨rfl, hpart.mono hstep hk'.le⟩
          | some c₃ =>
            have ih := scanBody_both n n' (by omega) (by omega) hpart
            exact ⟨ih.1, ih.2.mono hstep hk'.le⟩
        · rw [if_neg hu, if_neg hu]
          split_ifs
          · exact hloop hsync₁
          · exact ⟨rfl, (hsync₁.errorSet hstep _ _).mono hstep hk'.le⟩
      · rw [if_neg hesc, if_neg hesc]
        exact hloop hsync

theorem lexScanString_both (hn : k < e.steps) (hn' : k < e'.steps) (h : Sync P k lex lex') :
    Sync P k (lexScanString e lex) (lexScanString e' lex') := by
  unfold lexScanString
  obtain ⟨c, lex₁, lex₁', heq, heq', hheld⟩ := (lexGetSave_both hstep (h.setToken .invalid)).cases
  dsimp only
  rw [heq, heq']
  dsimp only
  obtain ⟨hr, hsync⟩ := scanBody_both hstep e.steps e'.steps hn hn' hheld
  generalize scanBody e e.steps c lex₁ = r at hr hsync ⊢
  generalize scanBody e' e'.steps c lex₁' = r' at hr hsync ⊢
  obtain ⟨b, lex₂⟩ := r
  obtain ⟨b', lex₂'⟩ := r'
  obtain rfl : b' = b := hr
  cases b' with
  | false => exact hsync
  | true =>
    dsimp only at hsync ⊢
    rw [hsync.savedText]
    cases decodeString (lex₂.savedText.drop 1) with
    | error msg => exact hsync.errorSet hstep _ _
    | ok value => exact hsync.setTokenSaved (.string value)

/-! ## Numbers -/

theorem scanInt_both (hn : k < e.steps) (hn' : k < e'.steps) (h : Sync P k lex lex')
    (hc : c.is isDigit = true ∨ Held P Q c k lex lex') :
    BothPart P Q k (scanInt e c lex) (scanInt e' c lex') := by
  unfold scanInt
  by_cases hzero : c = .byte 0x30
  · rw [if_pos hzero, if_pos hzero]
    obtain ⟨c₁, lex₁, lex₁', heq, heq', hheld⟩ := (lexGetSave_both hstep h).cases
    rw [heq, heq']
    dsimp only
    split_ifs
    · exact ⟨rfl, hheld.lexUngetUnsave hstep⟩
    · exact ⟨rfl, hheld⟩
  rw [if_neg hzero, if_neg hzero]
  by_cases hdigit : c.is isDigit = true
  · rw [if_pos hdigit, if_pos hdigit]
    obtain ⟨c₁, lex₁, lex₁', heq, heq', hheld⟩ :=
      (lexGetSaveWhile_both hstep isDigit e.steps e'.steps hn hn' h).cases
    rw [heq, heq']
    exact ⟨rfl, hheld⟩
  · rw [if_neg hdigit, if_neg hdigit]
    exact ⟨rfl, (hc.resolve_left hdigit).lexUngetUnsave hstep⟩

theorem scanFrac_both (hn : k < e.steps) (hn' : k < e'.steps) (h : Held P Q c k lex lex') :
    BothPart P Q k (scanFrac e c lex) (scanFrac e' c lex') := by
  unfold scanFrac
  split_ifs
  · obtain ⟨c₁, lex₁, lex₁', heq, heq', hheld⟩ := (lexGet_both hstep (h.sync hstep)).cases
    rw [heq, heq']
    cases c₁ with
    | byte b =>
      dsimp only
      split_ifs
      · obtain ⟨c₂, lex₂, lex₂', heq₂, heq₂', hheld₂⟩ :=
          (lexGetSaveWhile_both hstep isDigit e.steps e'.steps hn hn'
            ((hheld.sync hstep).lexSave b)).cases
        rw [heq₂, heq₂']
        exact ⟨rfl, hheld₂⟩
      · exact ⟨rfl, hheld.lexUnget hstep⟩
    | eof => exact ⟨rfl, hheld.sync hstep⟩
    | error => exact ⟨rfl, hheld.sync hstep⟩
  · exact ⟨rfl, h⟩

theorem scanExp_both (hn : k < e.steps) (hn' : k < e'.steps) (h : Held P Q c k lex lex') :
    BothPart P Q k (scanExp e c lex) (scanExp e' c lex') := by
  unfold scanExp
  split_ifs
  · obtain ⟨c₁, lex₁, lex₁', heq, heq', hheld⟩ := (lexGetSave_both hstep (h.sync hstep)).cases
    rw [heq, heq']
    dsimp only
    -- the sign
    have hsign : ∃ c₂ lex₂ lex₂',
        (if c₁ = .byte 0x2B ∨ c₁ = .byte 0x2D then lexGetSave e lex₁ else (c₁, lex₁)) = (c₂, lex₂) ∧
        (if c₁ = .byte 0x2B ∨ c₁ = .byte 0x2D then lexGetSave e' lex₁' else (c₁, lex₁')) =
          (c₂, lex₂') ∧ Held P Q c₂ k lex₂ lex₂' := by
      split_ifs
      · exact (lexGetSave_both hstep (hheld.sync hstep)).cases
      · exact ⟨c₁, lex₁, lex₁', rfl, rfl, hheld⟩
    obtain ⟨c₂, lex₂, lex₂', heq₂, heq₂', hheld₂⟩ := hsign
    rw [heq₂, heq₂']
    dsimp only
    split_ifs
    · obtain ⟨c₃, lex₃, lex₃', heq₃, heq₃', hheld₃⟩ :=
        (lexGetSaveWhile_both hstep isDigit e.steps e'.steps hn hn' (hheld₂.sync hstep)).cases
      rw [heq₃, heq₃']
      exact ⟨rfl, hheld₃⟩
    · exact ⟨rfl, hheld₂.lexUngetUnsave hstep⟩
  · exact ⟨rfl, h⟩

omit hstep in
theorem BothPart.cases {r : Option Got × Lex R δ} {r' : Option Got × Lex R δ'}
    (h : BothPart P Q k r r') :
    (∃ lex lex', r = (none, lex) ∧ r' = (none, lex') ∧ Sync P k lex lex') ∨
      ∃ c lex lex', r = (some c, lex) ∧ r' = (some c, lex') ∧ Held P Q c k lex lex' := by
  obtain ⟨o, lex⟩ := r
  obtain ⟨o', lex'⟩ := r'
  obtain ⟨ho, h⟩ := h
  obtain rfl : o' = o := ho
  cases o' with
  | none => exact .inl ⟨lex, lex', rfl, rfl, h⟩
  | some c => exact .inr ⟨c, lex, lex', rfl, rfl, h⟩

theorem lexScanNumber_both (halike : e.Alike e') (hn : k < e.steps) (hn' : k < e'.steps) {b : UInt8}
    (hb : isDigit b = true ∨ b = 0x2D) (h : Sync P k lex lex') :
    Sync P k (lexScanNumber e b lex) (lexScanNumber e' b lex') := by
  unfold lexScanNumber
  dsimp only
  -- the sign
  have hsign : ∃ c lex₁ lex₁',
      (if b = 0x2D then lexGetSave e { lex with token := .invalid }
        else (.byte b, { lex with token := .invalid })) = (c, lex₁) ∧
      (if b = 0x2D then lexGetSave e' { lex' with token := .invalid }
        else (.byte b, { lex' with token := .invalid })) = (c, lex₁') ∧
      Sync P k lex₁ lex₁' ∧ (c.is isDigit = true ∨ Held P Q c k lex₁ lex₁') := by
    split_ifs with hminus
    · obtain ⟨c, lex₁, lex₁', heq, heq', hheld⟩ :=
        (lexGetSave_both hstep (h.setToken .invalid)).cases
      exact ⟨c, lex₁, lex₁', heq, heq', hheld.sync hstep, .inr hheld⟩
    · exact ⟨_, _, _, rfl, rfl, h.setToken .invalid, .inl (hb.resolve_right hminus)⟩
  obtain ⟨c, lex₁, lex₁', heq, heq', hsync, hc⟩ := hsign
  rw [heq, heq', halike.flags, halike.strtod]
  dsimp only
  rcases (scanInt_both hstep hn hn' hsync hc).cases with
    ⟨lex₂, lex₂', heq₂, heq₂', hsync₂⟩ | ⟨c₂, lex₂, lex₂', heq₂, heq₂', hheld₂⟩
  · rw [heq₂, heq₂']
    exact hsync₂
  rw [heq₂, heq₂']
  dsimp only
  by_cases hint : (!e.flags.decodeIntAsReal && c₂ ≠ .byte 0x2E && c₂ ≠ .byte 0x45 &&
      c₂ ≠ .byte 0x65) = true
  · rw [if_pos hint, if_pos hint]
    have hsync₂ := hheld₂.lexUngetUnsave hstep
    rw [hsync₂.savedText]
    cases jsonStrtoint (lexUngetUnsave lex₂ c₂).savedText with
    | none => exact hsync₂.errorSet hstep _ _
    | some value => exact hsync₂.setTokenSaved (.integer value)
  rw [if_neg hint, if_neg hint]
  rcases (scanFrac_both hstep hn hn' hheld₂).cases with
    ⟨lex₃, lex₃', heq₃, heq₃', hsync₃⟩ | ⟨c₃, lex₃, lex₃', heq₃, heq₃', hheld₃⟩
  · rw [heq₃, heq₃']
    exact hsync₃
  rw [heq₃, heq₃']
  dsimp only
  rcases (scanExp_both hstep hn hn' hheld₃).cases with
    ⟨lex₄, lex₄', heq₄, heq₄', hsync₄⟩ | ⟨c₄, lex₄, lex₄', heq₄, heq₄', hheld₄⟩
  · rw [heq₄, heq₄']
    exact hsync₄
  rw [heq₄, heq₄']
  dsimp only
  have hsync₄ := hheld₄.lexUngetUnsave hstep
  rw [hsync₄.savedText]
  cases e.strtod (lexUngetUnsave lex₄ c₄).savedText with
  | none => exact hsync₄.errorSet hstep _ _
  | some value => exact hsync₄.setTokenSaved (.real value)

/-! ## Tokens -/

/-- **One token.**  A token that is not the end leaves fewer bytes, if it is valid. -/
theorem lexScan_both (halike : e.Alike e') (hn : k < e.steps) (hn' : k < e'.steps)
    (h : Sync P k lex lex') :
    ∃ k' ≤ k, Sync P k' (lexScan e lex) (lexScan e' lex') ∧
      ((lexScan e lex).token = .eof ∨ (lexScan e lex).token = .invalid ∨ k' < k) := by
  obtain ⟨c, lex₁, lex₁', heq, heq', hheld⟩ :=
    (lexSkip_both hstep e.steps e'.steps hn hn' (h.setSaved [])).cases
  unfold lexScan
  dsimp only
  rw [heq, heq']
  cases c with
  | eof => exact ⟨k, le_rfl, (hheld.sync hstep).setToken _, .inl rfl⟩
  | error => exact ⟨k, le_rfl, (hheld.sync hstep).setToken _, .inr (.inl rfl)⟩
  | byte b =>
    dsimp only
    have hheld₁ := hheld.lexSave b
    obtain ⟨k', hk', hsync⟩ := hheld₁.advance hstep
    have hlt : k' < e.steps := hk'.trans hn
    have hlt' : k' < e'.steps := hk'.trans hn'
    by_cases hpunct : isPunct b = true
    · rw [if_pos hpunct, if_pos hpunct]
      exact ⟨k', hk'.le, hsync.setToken _, .inr (.inr hk')⟩
    rw [if_neg hpunct, if_neg hpunct]
    by_cases hquote : b = 0x22
    · rw [if_pos hquote, if_pos hquote]
      exact ⟨k', hk'.le, lexScanString_both hstep hlt hlt' hsync, .inr (.inr hk')⟩
    rw [if_neg hquote, if_neg hquote]
    by_cases hdigit : (isDigit b || b == 0x2D) = true
    · rw [if_pos hdigit, if_pos hdigit]
      refine ⟨k', hk'.le, lexScanNumber_both hstep halike hlt hlt' ?_ hsync, .inr (.inr hk')⟩
      simpa using hdigit
    rw [if_neg hdigit, if_neg hdigit]
    by_cases halpha : isAlpha b = true
    · rw [if_pos halpha, if_pos halpha]
      obtain ⟨c₂, lex₂, lex₂', heq₂, heq₂', hheld₂⟩ :=
        (lexGetSaveWhile_both hstep isAlpha e.steps e'.steps hlt hlt' hsync).cases
      rw [heq₂, heq₂']
      dsimp only
      have hsync₂ := hheld₂.lexUngetUnsave hstep
      refine ⟨k', hk'.le, ?_, .inr (.inr hk')⟩
      rw [hsync₂.savedText]
      exact hsync₂.setTokenSaved (identToken (lexUngetUnsave lex₂ c₂).savedText)
    · rw [if_neg halpha, if_neg halpha]
      exact ⟨k, le_rfl, (hheld₁.lexSaveCached hstep).setToken _, .inr (.inl rfl)⟩

/-! ## Parser -/

variable (P) in
omit hstep in
/-- Both return the same; a failure comes with an error. -/
def BothValue (k : ℕ) (r : Option (Json R) × Lex R δ) (r' : Option (Json R) × Lex R δ') : Prop :=
  r'.1 = r.1 ∧ (∃ k' ≤ k, Sync P k' r.2 r'.2) ∧ (r.1 = none → r.2.error.isSome = true)

omit hstep in
theorem BothValue.mono {r : Option (Json R) × Lex R δ} {r' : Option (Json R) × Lex R δ'}
    (h : BothValue P k r r') (hk : k ≤ k') : BothValue P k' r r' := by
  obtain ⟨hr, ⟨k₁, hk₁, hsync⟩, herr⟩ := h
  exact ⟨hr, ⟨k₁, hk₁.trans hk, hsync⟩, herr⟩

omit hstep in
theorem BothValue.cases {r : Option (Json R) × Lex R δ} {r' : Option (Json R) × Lex R δ'}
    (h : BothValue P k r r') :
    (∃ lex lex' k', r = (none, lex) ∧ r' = (none, lex') ∧ k' ≤ k ∧ Sync P k' lex lex' ∧
        lex.error.isSome = true) ∨
      ∃ v lex lex' k', r = (some v, lex) ∧ r' = (some v, lex') ∧ k' ≤ k ∧ Sync P k' lex lex' := by
  obtain ⟨o, lex⟩ := r
  obtain ⟨o', lex'⟩ := r'
  obtain ⟨ho, ⟨k', hk', hsync⟩, herr⟩ := h
  obtain rfl : o' = o := ho
  cases o' with
  | none => exact .inl ⟨lex, lex', k', rfl, rfl, hk', hsync, herr rfl⟩
  | some v => exact .inr ⟨v, lex, lex', k', rfl, rfl, hk', hsync⟩

omit hstep in
theorem errorSet_error_isSome (lex : Lex R δ) (code : ErrorCode) (msg : Bytes) :
    (errorSet lex code msg).error.isSome = true := by
  unfold Jansson.errorSet
  cases lex.error <;> rfl

theorem Sync.refused (h : Sync P k lex lex') (code : ErrorCode) (msg : Bytes) :
    BothValue P k (none, Jansson.errorSet lex code msg) (none, Jansson.errorSet lex' code msg) :=
  ⟨rfl, ⟨k, le_rfl, h.errorSet hstep code msg⟩, fun _ => errorSet_error_isSome lex code msg⟩

omit hstep in
theorem Sync.returned (h : Sync P k lex lex') (v : Json R) :
    BothValue P k (some v, lex) (some v, lex') := ⟨rfl, ⟨k, le_rfl, h⟩, nofun⟩

variable (e e' P) in
omit hstep in
/-- Both parse a value alike. -/
def BothParse (pv : ParseValue R δ) (pv' : ParseValue R δ') : Prop :=
  ∀ {k : ℕ} {lex : Lex R δ} {lex' : Lex R δ'}, k < e.steps → k < e'.steps → Sync P k lex lex' →
    BothValue P k (pv lex) (pv' lex')

variable {pv : ParseValue R δ} {pv' : ParseValue R δ'} (halike : e.Alike e')
  (hvalue : BothParse e e' P pv pv')
include halike hvalue

theorem parseElems_both : ∀ (n n' : ℕ) {k : ℕ} {array : List (Json R)} {lex : Lex R δ}
    {lex' : Lex R δ'}, k < n → k < n' → k < e.steps → k < e'.steps → Sync P k lex lex' →
    BothValue P k (parseElems e pv n array lex) (parseElems e' pv' n' array lex')
  | 0, _, _, _, _, _, hn, _, _, _, _ => absurd hn (Nat.not_lt_zero _)
  | _ + 1, 0, _, _, _, _, _, hn', _, _, _ => absurd hn' (Nat.not_lt_zero _)
  | n + 1, n' + 1, k, array, lex, lex', hn, hn', hs, hs', h => by
    rw [parseElems, parseElems, h.token]
    split
    · exact h.refused hstep _ _
    rcases (hvalue hs hs' h).cases with
      ⟨lex₁, lex₁', k₁, heq, heq', hk₁, hsync, herr⟩ | ⟨v, lex₁, lex₁', k₁, heq, heq', hk₁, hsync⟩
    · rw [heq, heq']
      exact ⟨rfl, ⟨k₁, hk₁, hsync⟩, fun _ => herr⟩
    rw [heq, heq']
    dsimp only
    obtain ⟨k₂, hk₂, hsync₂, htoken⟩ :=
      lexScan_both hstep halike (hk₁.trans_lt hs) (hk₁.trans_lt hs') hsync
    rw [hsync₂.token]
    split
    · rename_i hcomma
      have hlt : k₂ < k₁ := by
        rcases htoken with heof | hinvalid | hlt
        · rw [heof] at hcomma
          cases hcomma
        · rw [hinvalid] at hcomma
          cases hcomma
        · exact hlt
      obtain ⟨k₃, hk₃, hsync₃, -⟩ :=
        lexScan_both hstep halike (k := k₂) (by omega) (by omega) hsync₂
      exact (parseElems_both n n' (by omega) (by omega) (by omega) (by omega) hsync₃).mono
        (by omega)
    · exact (hsync₂.returned _).mono (hk₂.trans hk₁)
    · exact (hsync₂.refused hstep _ _).mono (hk₂.trans hk₁)

theorem parseArray_both (hs : k < e.steps) (hs' : k < e'.steps) (h : Sync P k lex lex') :
    BothValue P k (parseArray e pv lex) (parseArray e' pv' lex') := by
  unfold parseArray
  obtain ⟨k₁, hk₁, hsync, -⟩ := lexScan_both hstep halike hs hs' h
  dsimp only
  rw [hsync.token]
  split
  · exact (hsync.returned _).mono hk₁
  · exact (parseElems_both hstep halike hvalue _ _ (hk₁.trans_lt hs) (hk₁.trans_lt hs')
      (hk₁.trans_lt hs) (hk₁.trans_lt hs') hsync).mono hk₁

theorem parseMembers_both : ∀ (n n' : ℕ) {k : ℕ} {object : List (Bytes × Json R)} {lex : Lex R δ}
    {lex' : Lex R δ'}, k < n → k < n' → k < e.steps → k < e'.steps → Sync P k lex lex' →
    BothValue P k (parseMembers e pv n object lex) (parseMembers e' pv' n' object lex')
  | 0, _, _, _, _, _, hn, _, _, _, _ => absurd hn (Nat.not_lt_zero _)
  | _ + 1, 0, _, _, _, _, _, hn', _, _, _ => absurd hn' (Nat.not_lt_zero _)
  | n + 1, n' + 1, k, object, lex, lex', hn, hn', hs, hs', h => by
    rw [parseMembers, parseMembers, h.token, halike.flags]
    split
    swap
    · exact h.refused hstep _ _
    rename_i key _
    by_cases hnul : 0 ∈ key
    · rw [if_pos hnul, if_pos hnul]
      exact h.refused hstep _ _
    rw [if_neg hnul, if_neg hnul]
    by_cases hdup : e.flags.rejectDuplicates = true ∧ (objectGet key object).isSome = true
    · rw [if_pos hdup, if_pos hdup]
      exact h.refused hstep _ _
    rw [if_neg hdup, if_neg hdup]
    -- the colon
    obtain ⟨k₁, hk₁, hsync₁, -⟩ := lexScan_both hstep halike hs hs' h
    dsimp only
    rw [hsync₁.token]
    split
    swap
    · exact (hsync₁.refused hstep _ _).mono hk₁
    -- the value
    obtain ⟨k₂, hk₂, hsync₂, -⟩ :=
      lexScan_both hstep halike (k := k₁) (by omega) (by omega) hsync₁
    rcases (hvalue (k := k₂) (by omega) (by omega) hsync₂).cases with
      ⟨lex₃, lex₃', k₃, heq, heq', hk₃, hsync₃, herr⟩ | ⟨v, lex₃, lex₃', k₃, heq, heq', hk₃, hsync₃⟩
    · rw [heq, heq']
      exact ⟨rfl, ⟨k₃, by omega, hsync₃⟩, fun _ => herr⟩
    rw [heq, heq']
    dsimp only
    -- the comma or the brace
    obtain ⟨k₄, hk₄, hsync₄, htoken⟩ :=
      lexScan_both hstep halike (k := k₃) (by omega) (by omega) hsync₃
    rw [hsync₄.token]
    split
    · rename_i hcomma
      have hlt : k₄ < k₃ := by
        rcases htoken with heof | hinvalid | hlt
        · rw [heof] at hcomma
          cases hcomma
        · rw [hinvalid] at hcomma
          cases hcomma
        · exact hlt
      obtain ⟨k₅, hk₅, hsync₅, -⟩ :=
        lexScan_both hstep halike (k := k₄) (by omega) (by omega) hsync₄
      exact (parseMembers_both n n' (by omega) (by omega) (by omega) (by omega) hsync₅).mono
        (by omega)
    · exact (hsync₄.returned _).mono (by omega)
    · exact (hsync₄.refused hstep _ _).mono (by omega)

theorem parseObject_both (hs : k < e.steps) (hs' : k < e'.steps) (h : Sync P k lex lex') :
    BothValue P k (parseObject e pv lex) (parseObject e' pv' lex') := by
  unfold parseObject
  obtain ⟨k₁, hk₁, hsync, -⟩ := lexScan_both hstep halike hs hs' h
  dsimp only
  rw [hsync.token]
  split
  · exact (hsync.returned _).mono hk₁
  · exact (parseMembers_both hstep halike hvalue _ _ (hk₁.trans_lt hs) (hk₁.trans_lt hs')
      (hk₁.trans_lt hs) (hk₁.trans_lt hs') hsync).mono hk₁

omit hvalue in
theorem parseValue_both : ∀ d : ℕ, BothParse e e' P (parseValue e d) (parseValue e' d)
  | 0, _, _, _, _, _, h => h.refused hstep _ _
  | d + 1, k, lex, lex', hs, hs', h => by
    have ih : BothParse e e' P (parseValue e d) (parseValue e' d) := parseValue_both d
    rw [parseValue, parseValue, h.token, halike.flags]
    split
    · split_ifs
      · exact h.refused hstep _ _
      · exact h.returned _
    · exact h.returned _
    · exact h.returned _
    · exact h.returned _
    · exact h.returned _
    · exact h.returned _
    · exact parseObject_both hstep halike ih hs hs' h
    · exact parseArray_both hstep halike ih hs hs' h
    · exact h.refused hstep _ _
    · exact h.refused hstep _ _

omit hvalue in
/-- **Runs in step.**  Both runs of the decoder return the same, and stay in step. -/
theorem parseJson_both (hs : k < e.steps) (hs' : k < e'.steps) (h : Sync P k lex lex') :
    BothValue P k (parseJson e lex) (parseJson e' lex') := by
  unfold parseJson
  obtain ⟨k₁, hk₁, hsync, -⟩ := lexScan_both hstep halike hs hs' h
  dsimp only
  rw [hsync.token, halike.flags]
  by_cases hany : (!e.flags.decodeAny && !(lexScan e lex).token.opens) = true
  · rw [if_pos hany, if_pos hany]
    exact (hsync.refused hstep _ _).mono hk₁
  rw [if_neg hany, if_neg hany]
  rcases (parseValue_both hstep halike jsonParserMaxDepth (hk₁.trans_lt hs) (hk₁.trans_lt hs')
    hsync).cases with
    ⟨lex₂, lex₂', k₂, heq, heq', hk₂, hsync₂, herr⟩ | ⟨v, lex₂, lex₂', k₂, heq, heq', hk₂, hsync₂⟩
  · rw [heq, heq']
    exact ⟨rfl, ⟨k₂, hk₂.trans hk₁, hsync₂⟩, fun _ => herr⟩
  rw [heq, heq']
  dsimp only
  by_cases heof : e.flags.disableEofCheck = true
  · rw [if_pos heof, if_pos heof]
    exact (hsync₂.returned v).mono (hk₂.trans hk₁)
  rw [if_neg heof, if_neg heof]
  obtain ⟨k₃, hk₃, hsync₃, -⟩ :=
    lexScan_both hstep halike (k := k₂) (by omega) (by omega) hsync₂
  rw [hsync₃.token]
  split
  · exact (hsync₃.returned v).mono (by omega)
  · exact (hsync₃.refused hstep _ _).mono (by omega)

end

end

end Jansson
