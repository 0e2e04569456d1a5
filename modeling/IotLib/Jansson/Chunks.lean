/-
  The decoder on a source that comes in chunks (`json_load_callback`).

  Two runs on sources that give the same bytes stay in step: their streams differ in the
  source alone until the bytes end, and after that in nothing an error tells.
-/
import IotLib.Jansson.Stream
import IotLib.Jansson.Lockstep
import IotLib.Jansson.JsonError

namespace Jansson

/-! ## The callback -/

/-- `MAX_BUF_LEN` -/
def maxBufLen : Nat := 1024

/-- `json_load_callback_t`, on a buffer, its length and `arg`: the length that is returned, and
    what the buffer and `arg` are then. -/
abbrev LoadCallback (σ : Type) := Bytes → Nat → σ → Nat × Bytes × σ

/-- `callback_data_t` -/
structure CallbackData (σ : Type) where
  data : Bytes
  len : Nat
  pos : Nat
  arg : σ

section
variable {σ : Type} (callback : LoadCallback σ)

/-- `callback_get` -/
def callbackGet : GetFunc (CallbackData σ) := fun stream =>
  if stream.len ≤ stream.pos then
    let (len, data, arg) := callback stream.data maxBufLen stream.arg
    let stream := { data := data, len := len, pos := 0, arg := arg }
    if len = 0 ∨ len = 2 ^ 64 - 1 then (none, stream)
    else (some (stream.data.getD stream.pos 0), { stream with pos := stream.pos + 1 })
  else (some (stream.data.getD stream.pos 0), { stream with pos := stream.pos + 1 })

/-- `json_load_callback`, with its `error` -/
def jsonLoadCallback {R : Type} (strtod : Bytes → Option R) (flags : LoadFlags) (steps : Nat)
    (arg : σ) : Option (Json R) × JsonError :=
  reported (ascii "<callback>")
    (parseJson ⟨callbackGet callback, strtod, flags, steps⟩
      { stream := { data := { data := List.replicate maxBufLen 0, len := 0, pos := 0, arg := arg } } })

/-- The callback delivers the chunks, on the buffer as it is, and then returns 0. -/
inductive Delivers : Bytes → σ → List Bytes → Prop where
  | done {buffer : Bytes} {arg : σ} : (callback buffer maxBufLen arg).1 = 0 → Delivers buffer arg []
  | chunk {buffer chunk tail : Bytes} {arg arg' : σ} {chunks : List Bytes} :
      chunk ≠ [] → chunk.length ≤ maxBufLen →
      callback buffer maxBufLen arg = (chunk.length, chunk ++ tail, arg') →
      Delivers (chunk ++ tail) arg' chunks → Delivers buffer arg (chunk :: chunks)

variable {callback}

/-- The source has the rest of a chunk, and gives it before the next one. -/
theorem gives_rest {data : Bytes} {arg : σ} {next : Bytes} :
    ∀ (n : ℕ) {pos len : ℕ} {rest tail : Bytes}, rest.length = n → pos + n = len →
      data.drop pos = rest ++ tail →
      Gives (callbackGet callback) { data := data, len := len, pos := len, arg := arg } next →
      Gives (callbackGet callback) { data := data, len := len, pos := pos, arg := arg } (rest ++ next)
  | 0, pos, len, rest, tail, hn, hpos, _, h => by
    rw [List.eq_nil_of_length_eq_zero hn]
    obtain rfl : pos = len := hpos
    exact h
  | n + 1, pos, len, [], tail, hn, _, _, _ => by cases hn
  | n + 1, pos, len, b :: rest, tail, hn, hpos, hdata, h => by
    refine ⟨{ data := data, len := len, pos := pos + 1, arg := arg }, ?_, ?_⟩
    · have hb : data.getD pos 0 = b := by
        rw [List.getD_eq_getElem?_getD, ← List.head?_drop, hdata]
        rfl
      unfold callbackGet
      dsimp only
      rw [if_neg (by omega), hb]
    · have hdrop : data.drop (pos + 1) = rest ++ tail := by
        rw [← List.drop_drop, hdata]
        rfl
      exact gives_rest n (by simpa using hn) (by omega) hdrop h

/-- A source at the end of a chunk gives the bytes of those that follow. -/
theorem Delivers.gives {buffer : Bytes} {arg : σ} {chunks : List Bytes}
    (h : Delivers callback buffer arg chunks) {len : ℕ} :
    Gives (callbackGet callback) { data := buffer, len := len, pos := len, arg := arg }
      chunks.flatten := by
  induction h generalizing len with
  | @done buffer arg hzero =>
    show (callbackGet callback _).1 = none
    unfold callbackGet
    dsimp only
    rw [if_pos le_rfl, if_pos (Or.inl hzero)]
  | @chunk buffer chunk tail arg arg' chunks hne hlen hcall _ ih =>
    cases chunk with
    | nil => exact absurd rfl hne
    | cons b rest =>
      refine ⟨{ data := b :: rest ++ tail, len := (b :: rest).length, pos := 1, arg := arg' }, ?_, ?_⟩
      · have hmax : (b :: rest).length < 2 ^ 64 - 1 := 
          hlen.trans_lt (by unfold maxBufLen; norm_num)
        unfold callbackGet
        dsimp only
        rw [if_pos le_rfl, hcall]
        dsimp only
        rw [if_neg]
        · rfl
        · rintro (hzero | hones)
          · cases hzero
          · omega
      · exact gives_rest rest.length rfl (Nat.add_comm _ _) rfl ih

end

/-! ## Sources that give the same -/

section
variable {δ δ' : Type}

/-- The same stream on another source. -/
def Stream.withData (s : Stream δ) (d : δ') : Stream δ' := { s with data := d }

theorem Stream.same_withData (s : Stream δ) (d : δ') : s.Same (s.withData d) :=
  ⟨rfl, rfl, rfl, rfl, rfl⟩

theorem streamUnget_withData (s : Stream δ) (d : δ') (b : UInt8) :
    streamUnget (s.withData d) (.byte b) = (streamUnget s (.byte b)).withData d := by
  unfold streamUnget
  dsimp only
  split_ifs <;> rfl

theorem Stream.next_withData (s : Stream δ) (d : δ') :
    (s.withData d).next = (s.next.1, s.next.2.withData d) := by
  unfold Stream.next
  have hc : (s.withData d).buffer.getD (s.withData d).bufferPos 0 = s.buffer.getD s.bufferPos 0 := rfl
  dsimp only
  rw [hc]
  split_ifs <;> rfl

variable (get : GetFunc δ) (get' : GetFunc δ')

/-- Both sources give `bs`; at most `k` bytes are left with those of the buffer. -/
structure Stream.Shared (k : ℕ) (s : Stream δ) (d : δ') : Prop where
  ok : s.state = .ok
  pos : s.bufferPos ≤ s.buffer.length
  gives : ∃ bs, Gives get s.data bs ∧ Gives get' d bs ∧ s.buffer.length - s.bufferPos + bs.length ≤ k

/-- Both streams are on the same bytes, or have ended. -/
def Twin (k : ℕ) (s : Stream δ) (s' : Stream δ') (_ : Option Error) : Prop :=
  (∃ d, s' = s.withData d ∧ s.Shared get get' k d) ∨ (s.state ≠ .ok ∧ s.Same s')

/-- Both streams have read the same byte. -/
def TwinByte (_ : UInt8) (k : ℕ) (s : Stream δ) (s' : Stream δ') (_ : Option Error) : Prop :=
  0 < s.bufferPos ∧ ∃ k' < k, ∃ d, s' = s.withData d ∧ s.Shared get get' k' d

variable {get get'}

theorem Stream.Shared.mono {k k' : ℕ} {s : Stream δ} {d : δ'} (h : s.Shared get get' k d)
    (hk : k ≤ k') : s.Shared get get' k' d := by
  obtain ⟨bs, hgives, hgives', hle⟩ := h.gives
  exact ⟨h.ok, h.pos, bs, hgives, hgives', hle.trans hk⟩

/-- A byte of the buffer is read. -/
theorem Stream.Shared.next {k : ℕ} {s : Stream δ} {d : δ'} (h : s.Shared get get' k d)
    (hlt : s.bufferPos < s.buffer.length) :
    ∃ b s₁, s.next = (.byte b, s₁) ∧ (s.withData d).next = (.byte b, s₁.withData d) ∧
      ∀ err, TwinByte get get' b k s₁ (s₁.withData d) err := by
  obtain ⟨l, c, lc, p, hnext⟩ := s.next_eq
  obtain ⟨bs, hgives, hgives', hle⟩ := h.gives
  refine ⟨_, _, hnext, ?_, fun err => ⟨Nat.succ_pos _, s.buffer.length - (s.bufferPos + 1) + bs.length,
    by omega, d, rfl, h.ok, hlt, bs, hgives, hgives', le_rfl⟩⟩
  rw [s.next_withData, hnext]

/-- **One reading.**  Both sources give the same, and both streams read the same. -/
theorem Stream.Shared.both {k : ℕ} {s : Stream δ} {d : δ'} (h : s.Shared get get' k d)
    (err : Option Error) :
    ∃ c s₁ s₁', streamGet get s = (c, s₁) ∧ streamGet get' (s.withData d) = (c, s₁') ∧
      match c with
      | .byte b => TwinByte get get' b k s₁ s₁' err
      | .eof | .error => Twin get get' k s₁ s₁' err := by
  obtain ⟨bs, hgives, hgives', hle⟩ := h.gives
  have hbuffer : (s.withData d).buffer.getD (s.withData d).bufferPos 0 =
    s.buffer.getD s.bufferPos 0 := rfl
  unfold streamGet
  rw [show (s.withData d).state = s.state from rfl, h.ok, hbuffer]
  dsimp only
  by_cases hzero : s.buffer.getD s.bufferPos 0 = 0
  swap
  · rw [if_neg hzero, if_neg hzero]
    have hlt : s.bufferPos < s.buffer.length := by
      by_contra hge
      exact hzero (by rw [List.getD_eq_getElem?_getD, List.getElem?_eq_none (by omega)]; rfl)
    obtain ⟨b, s₁, hnext, hnext', hbyte⟩ := h.next hlt
    exact ⟨.byte b, s₁, _, hnext, hnext', hbyte err⟩
  rw [if_pos hzero, if_pos hzero, show (s.withData d).data = d from rfl]
  cases bs with
  | nil =>
    have hnone : (get s.data).1 = none := hgives
    have hnone' : (get' d).1 = none := hgives'
    generalize get s.data = r at hnone ⊢
    generalize get' d = r' at hnone' ⊢
    obtain ⟨c, data⟩ := r
    obtain ⟨c', data'⟩ := r'
    obtain rfl : c = none := hnone
    obtain rfl : c' = none := hnone'
    exact ⟨.eof, _, _, rfl, rfl, .inr ⟨nofun, rfl, rfl, rfl, rfl, rfl⟩⟩
  | cons c cs =>
    obtain ⟨data, hget, hcs⟩ := hgives
    obtain ⟨data', hget', hcs'⟩ := hgives'
    rw [List.length_cons] at hle
    rw [hget, hget']
    dsimp only
    by_cases hascii : c.toNat < 0x80
    · rw [if_pos hascii, if_pos hascii]
      have hshared : ({ s with data := data, buffer := [c], bufferPos := 0, state := .ok } :
          Stream δ).Shared
          get get' k data' := ⟨rfl, Nat.zero_le _, cs, hcs, hcs', by
        show 1 - 0 + cs.length ≤ k
        omega⟩
      obtain ⟨b, s₁, hnext, hnext', hbyte⟩ := hshared.next Nat.one_pos
      exact ⟨.byte b, s₁, _, hnext, hnext', hbyte err⟩
    rw [if_neg hascii, if_neg hascii]
    by_cases hfirst : utf8CheckFirst c = 0
    · rw [if_pos hfirst, if_pos hfirst]
      exact ⟨.error, _, _, rfl, rfl, .inr ⟨nofun, rfl, rfl, rfl, rfl, rfl⟩⟩
    rw [if_neg hfirst, if_neg hfirst]
    -- the rest of the character is there, or both find the end of the source in it
    by_cases hmore : utf8CheckFirst c - 1 ≤ cs.length
    · obtain ⟨hbs, hrest⟩ := getMore_gives _ hcs hmore
      obtain ⟨hbs', hrest'⟩ := getMore_gives _ hcs' hmore
      rw [hbs, hbs']
      by_cases hfull : utf8CheckFull (c :: cs.take (utf8CheckFirst c - 1)) = none
      · rw [if_pos hfull, if_pos hfull]
        exact ⟨.error, _, _, rfl, rfl, .inr ⟨nofun, rfl, rfl, rfl, rfl, rfl⟩⟩
      rw [if_neg hfull, if_neg hfull]
      have hshared : ({ s with
          data := (getMore get (utf8CheckFirst c - 1) data).2
          buffer := c :: cs.take (utf8CheckFirst c - 1)
          bufferPos := 0
          state := .ok } : Stream δ).Shared get get' k (getMore get' (utf8CheckFirst c - 1) data').2 :=
        ⟨rfl, Nat.zero_le _, _, hrest, hrest', by
          simp only [List.length_cons, List.length_take, List.length_drop]
          omega⟩
      obtain ⟨b, s₁, hnext, hnext', hbyte⟩ := hshared.next (Nat.succ_pos _)
      exact ⟨.byte b, s₁, _, hnext, hnext', hbyte err⟩
    · have hnone : ∀ {bs : Bytes}, (0xFF : UInt8) ∈ bs → bs.length = utf8CheckFirst c - 1 →
          utf8CheckFull (c :: bs) = none := by
        intro bs hmem hlen
        by_contra hsome
        obtain ⟨ch, hch⟩ := Option.ne_none_iff_exists'.1 hsome
        have hone := utf8CheckFirst_one_iff.not.2 hascii
        obtain ⟨hscalar, he⟩ := (utf8CheckFull_eq_some (by omega) (by omega)).1 hch
        have := encode_le hscalar 0xFF (he ▸ List.mem_cons_of_mem _ hmem)
        exact absurd this (by decide)
      have hends := getMore_ends _ hcs (Nat.lt_of_not_le hmore)
      have hends' := getMore_ends _ hcs' (Nat.lt_of_not_le hmore)
      rw [hnone hends (getMore_length _ _), hnone hends' (getMore_length _ _), if_pos rfl, if_pos rfl]
      exact ⟨.error, _, _, rfl, rfl, .inr ⟨nofun, rfl, rfl, rfl, rfl, rfl⟩⟩

theorem inStep_twin : InStep get get' (Twin get get') (TwinByte get get') where
  same := by
    intro k s s' err h
    rcases h with ⟨d, rfl, -⟩ | ⟨-, hsame⟩
    · exact s.same_withData d
    · exact hsame
  mono := by
    intro k k' s s' err h hk
    rcases h with ⟨d, rfl, hshared⟩ | hend
    · exact .inl ⟨d, rfl, hshared.mono hk⟩
    · exact .inr hend
  fail := fun _ _ h => h
  get := by
    intro k s s' err h
    rcases h with ⟨d, rfl, hshared⟩ | ⟨hstate, hsame⟩
    · obtain ⟨c, s₁, s₁', hget, hget', hnext⟩ := hshared.both err
      exact ⟨c, s₁, s₁', hget, hget', hnext⟩
    · unfold streamGet
      rw [hsame.state]
      cases hs : s.state with
      | ok => exact absurd hs hstate
      | eof => exact ⟨.eof, s, s', rfl, rfl, .inr ⟨hstate, hsame⟩⟩
      | error => exact ⟨.error, s, s', rfl, rfl, .inr ⟨hstate, hsame⟩⟩
  next := by
    rintro b k s s' err ⟨-, k', hk', d, rfl, hshared⟩
    exact ⟨k', hk', .inl ⟨d, rfl, hshared⟩⟩
  monoByte := by
    rintro b k k' s s' err ⟨hpos, k₁, hk₁, d, rfl, hshared⟩ hk
    exact ⟨hpos, k₁, hk₁.trans_le hk, d, rfl, hshared⟩
  unget := by
    rintro b k s s' err ⟨hpos, k', hk', d, rfl, hshared⟩
    obtain ⟨bs, hgives, hgives', hle⟩ := hshared.gives
    refine .inl ⟨d, streamUnget_withData s d b, ?_⟩
    have hunget : ∃ l c p, streamUnget s (.byte b) =
        { s with bufferPos := s.bufferPos - 1, line := l, column := c, position := p } := by
      unfold streamUnget
      dsimp only
      split_ifs
      · exact ⟨_, _, _, rfl⟩
      · exact ⟨_, _, _, rfl⟩
      · exact ⟨_, _, _, rfl⟩
    obtain ⟨l, c, p, heq⟩ := hunget
    rw [heq]
    have hbuffer := hshared.pos
    exact ⟨hshared.ok, (Nat.sub_le _ _).trans hbuffer, bs, hgives, hgives', by
      dsimp only
      omega⟩
  rest := by
    rintro b k s s' err ⟨-, k', -, d, rfl, -⟩
    rfl
  cached := by
    rintro b k s s' err ⟨-, k', hk', d, rfl, hshared⟩
    obtain ⟨bs, hgives, hgives', hle⟩ := hshared.gives
    have hbuffer := hshared.pos
    refine .inl ⟨d, rfl, hshared.ok, ?_, bs, hgives, hgives', ?_⟩
    · unfold Stream.skipCached
      rw [List.length_drop]
      dsimp only
      omega
    · unfold Stream.skipCached
      rw [List.length_drop]
      dsimp only
      omega

end

/-! ## Chunks -/

section
variable {R σ : Type} {callback : LoadCallback σ}

/-- **Chunks do not matter.** However the callback splits the bytes, `json_load_callback` returns
    what `json_loadb` returns on all of them, and reports the same. -/
theorem jsonLoadCallback_chunks (strtod : Bytes → Option R) (flags : LoadFlags) {arg : σ}
    {chunks : List Bytes} (h : Delivers callback (List.replicate maxBufLen 0) arg chunks) {steps : ℕ}
    (hsteps : chunks.flatten.length < steps) :
    jsonLoadCallback callback strtod flags steps arg =
      ((jsonLoadbError strtod flags chunks.flatten).1,
        { (jsonLoadbError strtod flags chunks.flatten).2 with source := ascii "<callback>" }) := by
  have hsync : Sync (R := R) (Twin bufferGet (callbackGet callback)) chunks.flatten.length
      { stream := { data := chunks.flatten } }
      { stream := { data := ⟨List.replicate maxBufLen 0, 0, 0, arg⟩ } } :=
    ⟨_, rfl, .inl ⟨_, rfl, rfl, Nat.zero_le _, chunks.flatten, gives_bufferGet _, h.gives, by simp⟩⟩
  let e : Conf R Bytes := ⟨bufferGet, strtod, flags, chunks.flatten.length + 1⟩
  let e' : Conf R (CallbackData σ) := ⟨callbackGet callback, strtod, flags, steps⟩
  have halike : e.Alike e' := ⟨rfl, rfl⟩
  obtain ⟨hvalue, ⟨k, -, s', heq, hP⟩, -⟩ :=
    parseJson_both inStep_twin halike (Nat.lt_succ_self _) hsteps hsync
  unfold jsonLoadCallback jsonLoadbError
  rw [← reported_source]
  refine reported_congr _ hvalue ?_ ?_
  · rw [heq]
    rfl
  · rw [heq]
    exact (inStep_twin.same hP).position

/-- A callback that has the chunks in a list. -/
def listCallback : LoadCallback (List Bytes) := fun buffer _ chunks =>
  match chunks with
  | [] => (0, buffer, [])
  | chunk :: chunks => (chunk.length, chunk ++ buffer.drop chunk.length, chunks)

theorem delivers_list : ∀ {chunks : List Bytes} (buffer : Bytes),
    (∀ chunk ∈ chunks, chunk ≠ [] ∧ chunk.length ≤ maxBufLen) →
    Delivers listCallback buffer chunks chunks
  | [], _, _ => .done rfl
  | chunk :: chunks, buffer, h => by
    obtain ⟨hne, hlen⟩ := h chunk List.mem_cons_self
    exact .chunk hne hlen rfl (delivers_list _ fun c hc => h c (List.mem_cons_of_mem _ hc))

/-- A character of two bytes that comes in two chunks. -/
def splitChunks : List Bytes := [[0x5B, 0x22, 0xC3], [0xA9, 0x22, 0x5D]]

theorem jsonLoadCallback_chunks_split :
    jsonLoadCallback (R := Empty) listCallback (fun _ => none) {} 7 splitChunks =
      ((jsonLoadbError (R := Empty) (fun _ => none) {} splitChunks.flatten).1,
        { (jsonLoadbError (R := Empty) (fun _ => none) {} splitChunks.flatten).2 with
          source := ascii "<callback>" }) :=
  jsonLoadCallback_chunks _ _ (delivers_list _ (by decide)) (by decide)

end

end Jansson
