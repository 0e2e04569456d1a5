/-
  What a stream of the decoder gives: the bytes of its source up to the first character that is not
  valid UTF-8. A byte that was read can be put back, except for 0, which the stream then forgets.
-/
import IotLib.Jansson.Load

namespace Jansson

/-! ## Sources -/

/-- The bytes that a source gives, one after the other. -/
def Gives {δ : Type} (get : GetFunc δ) : δ → Bytes → Prop
  | data, [] => (get data).1 = none
  | data, c :: cs => ∃ data', get data = (some c, data') ∧ Gives get data' cs

section
-- the equations of these definitions, which the lemmas below rewrite with
attribute [local simp] streamGet getMore utf8CheckFirst streamUnget
end

theorem gives_stringGet {data : Bytes} (h : 0 ∉ data) : Gives stringGet data data := by
  induction data with
  | nil => rfl
  | cons c cs ih =>
    obtain ⟨hc, hcs⟩ := not_or.1 (List.mem_cons.not.1 h)
    exact ⟨cs, if_neg (Ne.symm hc), ih hcs⟩

theorem gives_bufferGet (data : Bytes) : Gives bufferGet data data := by
  induction data with
  | nil => rfl
  | cons c cs ih => exact ⟨cs, rfl, ih⟩

section
variable {δ : Type} {get : GetFunc δ}

/-- The bytes are there. -/
theorem getMore_gives : ∀ (n : Nat) {data : δ} {bs : Bytes}, Gives get data bs → n ≤ bs.length →
    (getMore get n data).1 = bs.take n ∧ Gives get (getMore get n data).2 (bs.drop n)
  | 0, data, bs, h, _ => ⟨by simp [getMore], h⟩
  | n + 1, data, [], h, hn => absurd hn (by simp)
  | n + 1, data, c :: cs, h, hn => by
    obtain ⟨data', hget, hcs⟩ := h
    obtain ⟨h₁, h₂⟩ := getMore_gives n hcs (by simpa using hn)
    rw [getMore, hget]
    refine ⟨?_, h₂⟩
    dsimp only
    rw [h₁]
    simp

theorem getMore_length : ∀ (n : Nat) (data : δ), (getMore get n data).1.length = n
  | 0, _ => rfl
  | n + 1, data => by
    rw [getMore]
    generalize get data = r
    obtain ⟨c, data'⟩ := r
    cases c with
    | none => exact congrArg (· + 1) (getMore_length n data')
    | some c => exact congrArg (· + 1) (getMore_length n data')

/-- The source ends before; what it gives after that is not known. -/
theorem getMore_ends : ∀ (n : Nat) {data : δ} {bs : Bytes}, Gives get data bs → bs.length < n →
    (0xFF : UInt8) ∈ (getMore get n data).1
  | 0, _, _, _, hn => absurd hn (Nat.not_lt_zero _)
  | n + 1, data, [], h, _ => by
    have hnone : (get data).1 = none := h
    rw [getMore]
    generalize get data = r at hnone
    obtain ⟨c, data'⟩ := r
    obtain rfl : c = none := hnone
    exact List.mem_cons_self
  | n + 1, data, c :: cs, h, hn => by
    obtain ⟨data', hget, hcs⟩ := h
    rw [getMore, hget]
    exact List.mem_cons_of_mem c (getMore_ends n hcs (by simpa using hn))

end

/-- The bytes of a source up to the first character that is not valid, and whether there is one. -/
inductive Split : Bytes → Bytes → Bool → Prop where
  | nil : Split [] [] false
  | cons {c : Nat} {bs text : Bytes} {bad : Bool} :
      IsScalar c → Split bs text bad → Split (encode c ++ bs) (encode c ++ text) bad
  | bad {bs : Bytes} : bs ≠ [] → (∀ c rest, IsScalar c → bs ≠ encode c ++ rest) → Split bs [] true

theorem split_exists (bs : Bytes) : ∃ text bad, Split bs text bad := by
  induction hn : bs.length using Nat.strong_induction_on generalizing bs with
  | _ n ih =>
    by_cases hnil : bs = []
    · rw [hnil]
      exact ⟨[], false, .nil⟩
    · by_cases hchar : ∃ c rest, IsScalar c ∧ bs = encode c ++ rest
      · obtain ⟨c, rest, hc, rfl⟩ := hchar
        have hlt : rest.length < n := by
          have := encode_length_pos c
          rw [List.length_append] at hn
          omega
        obtain ⟨text, bad, h⟩ := ih rest.length hlt rest rfl
        exact ⟨_, _, .cons hc h⟩
      · refine ⟨[], true, .bad hnil fun c rest hc hbs => hchar ⟨c, rest, hc, hbs⟩⟩

section
variable {bs text : Bytes} {bad : Bool}

theorem Split.valid (h : Split bs text bad) : Valid text := by
  induction h with
  | nil => exact .nil
  | cons hc _ ih => exact .cons hc ih
  | bad _ _ => exact .nil

theorem Split.subset (h : Split bs text bad) : text ⊆ bs := by
  induction h with
  | nil => exact fun _ h => h
  | cons _ _ ih =>
    exact List.append_subset.2
      ⟨List.subset_append_left _ _, fun b hb => List.mem_append_right _ (ih hb)⟩
  | bad _ _ => exact List.nil_subset _

theorem Split.length_le (h : Split bs text bad) : text.length ≤ bs.length := by
  induction h with
  | nil => exact le_rfl
  | cons _ _ ih =>
    rw [List.length_append, List.length_append]
    omega
  | bad _ _ => exact Nat.zero_le _

theorem Split.eq_of_not_bad (h : Split bs text false) : text = bs := by
  generalize hb : false = bad at h
  induction h with
  | nil => rfl
  | cons _ _ ih => rw [ih hb]
  | bad _ _ => cases hb

theorem split_of_valid (h : Valid bs) : Split bs bs false := by
  induction h with
  | nil => exact .nil
  | cons hc _ ih => exact .cons hc ih

/-- The first byte of the text is that of a character. -/
theorem Split.head {c : UInt8} {cs : Bytes} (h : Split bs (c :: cs) bad) :
    ∃ ch tail bs' cs', IsScalar ch ∧ encode ch = c :: tail ∧ bs = c :: (tail ++ bs') ∧
      cs = tail ++ cs' ∧ Split bs' cs' bad := by
  generalize ht : c :: cs = t at h
  cases h with
  | nil => cases ht
  | bad _ _ => cases ht
  | @cons ch bs' text' _ hch h =>
    cases he : encode ch with
    | nil => exact absurd (encode_length_pos ch) (by rw [he]; exact Nat.lt_irrefl 0)
    | cons c' tail =>
      rw [he] at ht
      obtain ⟨rfl, rfl⟩ := List.cons.inj ht
      exact ⟨ch, tail, bs', text', hch, he, rfl, rfl, h⟩

end

/-! ## Streams -/

/-- The rest of the character in the buffer. -/
def Stream.pending {δ : Type} (s : Stream δ) : Bytes := (s.buffer.drop s.bufferPos).takeWhile (· ≠ 0)

/-- The stream gives the bytes of `text`, then its end: an error if `bad`. -/
structure Stream.At {δ : Type} (get : GetFunc δ) (s : Stream δ) (text : Bytes) (bad : Bool) : Prop where
  ok : s.state = .ok → s.bufferPos ≤ s.buffer.length ∧ (0 ∉ s.buffer ∨ s.buffer = [0]) ∧
    ∃ bs t, Gives get s.data bs ∧ Split bs t bad ∧ text = s.pending ++ t
  eof : s.state = .eof → text = [] ∧ bad = false
  error : s.state = .error → text = [] ∧ bad = true

/-- `c` was read from `text`, and can be put back. -/
def Stream.Looked {δ : Type} (get : GetFunc δ) (s : Stream δ) (c : Got) (text : Bytes) (bad : Bool) : Prop :=
  match c with
  | .byte c => ∃ cs, text = c :: cs ∧ s.At get cs bad ∧ s.state = .ok ∧ 0 < s.bufferPos ∧
      s.buffer[s.bufferPos - 1]? = some c
  | .eof => text = [] ∧ bad = false ∧ s.At get [] false
  | .error => text = [] ∧ bad = true ∧ s.At get [] true

/-- What is left when the first byte is read and put back. -/
def dropNul : Bytes → Bytes
  | [] => []
  | c :: cs => if c = 0 then cs else c :: cs

theorem dropNul_eq {text : Bytes} (h : 0 ∉ text) : dropNul text = text := by
  cases text with
  | nil => rfl
  | cons c cs => exact if_neg (by rintro rfl; exact h List.mem_cons_self)

section
variable {δ : Type} {get : GetFunc δ} {s : Stream δ} {text : Bytes} {bad : Bool} {c : Got}

theorem Stream.pending_cons {b : UInt8} {cs : Bytes} (h : s.pending = b :: cs) :
    s.bufferPos < s.buffer.length ∧ s.buffer[s.bufferPos]? = some b ∧ b ≠ 0 ∧
      { s with bufferPos := s.bufferPos + 1 }.pending = cs := by
  unfold Stream.pending at h
  cases hd : s.buffer.drop s.bufferPos with
  | nil =>
    rw [hd] at h
    cases h
  | cons b' rest =>
    have hlt : s.bufferPos < s.buffer.length := by
      by_contra hge
      rw [List.drop_eq_nil_of_le (Nat.le_of_not_lt hge)] at hd
      cases hd
    have hget : s.buffer[s.bufferPos]? = some b' := by
      rw [← List.head?_drop, hd]
      rfl
    have hrest : s.buffer.drop (s.bufferPos + 1) = rest := by
      rw [← List.drop_drop, hd]
      rfl
    rw [hd, List.takeWhile_cons] at h
    split_ifs at h with hne
    · obtain ⟨rfl, rfl⟩ := List.cons.inj h
      refine ⟨hlt, hget, by simpa using hne, ?_⟩
      unfold Stream.pending
      rw [hrest]

theorem Stream.pending_nil (h : s.pending = []) : s.buffer.getD s.bufferPos 0 = 0 := by
  unfold Stream.pending at h
  cases hd : s.buffer.drop s.bufferPos with
  | nil =>
    rw [List.getD_eq_getElem?_getD, List.getElem?_eq_none (List.drop_eq_nil_iff.1 hd)]
    rfl
  | cons b rest =>
    have hget : s.buffer[s.bufferPos]? = some b := by
      rw [← List.head?_drop, hd]
      rfl
    rw [hd, List.takeWhile_cons] at h
    split_ifs at h with hne
    · rw [List.getD_eq_getElem?_getD, hget]
      simpa using hne

/-- What the next byte does, up to the counters. -/
theorem Stream.next_eq (s : Stream δ) : ∃ l k lk p, s.next = (.byte (s.buffer.getD s.bufferPos 0),
    { s with bufferPos := s.bufferPos + 1, line := l, column := k, lastColumn := lk, position := p }) := by
  unfold Stream.next
  dsimp only
  split_ifs
  · exact ⟨_, _, _, _, rfl⟩
  · exact ⟨_, _, _, _, rfl⟩
  · exact ⟨_, _, _, _, rfl⟩

theorem Stream.looked_next {b : UInt8} {cs : Bytes} (hok : s.state = .ok)
    (hb : s.buffer[s.bufferPos]? = some b)
    (hat : { s with bufferPos := s.bufferPos + 1 }.At get cs bad) :
    s.next.2.Looked get s.next.1 (b :: cs) bad := by
  obtain ⟨l, k, lk, p, hnext⟩ := s.next_eq
  have hget : s.buffer.getD s.bufferPos 0 = b := by
    rw [List.getD_eq_getElem?_getD, hb]
    rfl
  rw [hnext, hget]
  exact ⟨cs, rfl, ⟨hat.ok, hat.eof, hat.error⟩, hok, Nat.succ_pos _, hb⟩

/-- A new character in the buffer: its first byte is read. -/
theorem Stream.looked_refill {ch : Nat} {b : UInt8} {tail bs t : Bytes} {data : δ}
    (hok : s.state = .ok) (hch : IsScalar ch) (he : encode ch = b :: tail)
    (hgives : Gives get data bs) (hsplit : Split bs t bad) :
    ({ s with data := data, buffer := b :: tail, bufferPos := 0 }.next).2.Looked get
      ({ s with data := data, buffer := b :: tail, bufferPos := 0 }.next).1 (b :: (tail ++ t)) bad := by
  -- only the character 0 has the byte 0
  have hzero : 0 ∉ b :: tail ∨ b :: tail = [0] := by
    by_cases hlt : ch < 0x80
    · rw [encode_ascii hlt] at he
      obtain ⟨rfl, rfl⟩ := List.cons.inj he
      by_cases h0 : UInt8.ofNat ch = 0
      · exact Or.inr (by rw [h0])
      · exact Or.inl (by simpa using Ne.symm h0)
    · refine Or.inl fun hmem => ?_
      have := encode_high hch (Nat.le_of_not_lt hlt) 0 (he ▸ hmem)
      exact absurd this (by decide)
  refine Stream.looked_next hok rfl ⟨fun _ => ?_, ?_, ?_⟩
  · refine ⟨Nat.succ_le_succ (Nat.zero_le _), hzero, bs, t, hgives, hsplit, ?_⟩
    have hpend : (tail.takeWhile (· ≠ 0)) = tail := by
      rcases hzero with h0 | h0
      · refine List.takeWhile_eq_self_iff.2 fun x hx => ?_
        simp only [ne_eq, decide_eq_true_eq]
        rintro rfl
        exact h0 (List.mem_cons_of_mem _ hx)
      · rw [(List.cons.inj h0).2]
        rfl
    change tail ++ t = tail.takeWhile (· ≠ 0) ++ t
    rw [hpend]
  · exact fun h => by rw [hok] at h; cases h
  · exact fun h => by rw [hok] at h; cases h

theorem streamGet_ok (hst : s.state = .ok) (hp : s.pending = []) :
    streamGet get s =
      match get s.data with
      | (none, data) => (.eof, { s with data := data, state := .eof })
      | (some c, data) =>
        if c.toNat < 0x80 then { s with data := data, buffer := [c], bufferPos := 0 }.next
        else if utf8CheckFirst c = 0 then
          (.error, { s with data := data, buffer := [c], bufferPos := 0, state := .error })
        else
          let (bs, data) := getMore get (utf8CheckFirst c - 1) data
          let s := { s with data := data, buffer := c :: bs, bufferPos := 0 }
          if utf8CheckFull (c :: bs) = none then (.error, { s with state := .error })
          else s.next := by
  rw [streamGet]
  split
  · rename_i h
    rw [hst] at h
    cases h
  · rename_i h
    rw [hst] at h
    cases h
  · exact if_pos (s.pending_nil hp)

/-- The buffer is empty and a character comes. -/
theorem streamGet_char {b : UInt8} {bs cs : Bytes} (hst : s.state = .ok) (hp : s.pending = [])
    (hgives : Gives get s.data bs) (hsplit : Split bs (b :: cs) bad) :
    (streamGet get s).2.Looked get (streamGet get s).1 (b :: cs) bad := by
  obtain ⟨ch, tail, bs', cs', hch, he, rfl, rfl, hsplit'⟩ := hsplit.head
  obtain ⟨data', hget, hgives'⟩ := hgives
  rw [streamGet_ok hst hp, hget]
  dsimp only
  by_cases hlt : b.toNat < 0x80
  · rw [if_pos hlt]
    have hch' : ch < 0x80 := (encode_ascii_iff hch he).1 hlt
    rw [encode_ascii hch'] at he
    obtain ⟨rfl, rfl⟩ := List.cons.inj he
    exact Stream.looked_refill hst hch (encode_ascii hch') hgives' hsplit'
  · have hcount := utf8CheckFirst_encode hch he
    rw [if_neg hlt, if_neg (by omega : utf8CheckFirst b ≠ 0), hcount, Nat.add_sub_cancel]
    obtain ⟨hmore, hgives''⟩ := getMore_gives tail.length hgives'
      (by rw [List.length_append]; exact Nat.le_add_right _ _)
    have htwo : 2 ≤ utf8CheckFirst b := by
      have hne := utf8CheckFirst_one_iff.not.2 hlt
      omega
    have hfull : utf8CheckFull (b :: tail) = some ch :=
      (utf8CheckFull_eq_some htwo hcount.symm).2 ⟨hch, he.symm⟩
    rw [List.take_left] at hmore
    rw [List.drop_left] at hgives''
    generalize getMore get tail.length data' = r at hmore hgives''
    obtain ⟨tail', data''⟩ := r
    dsimp only at hmore hgives'' ⊢
    subst hmore
    rw [hfull, if_neg (Option.some_ne_none ch)]
    exact Stream.looked_refill hst hch he hgives'' hsplit'

/-- The bytes of a character are all there. -/
theorem take_of_full {ch n : Nat} {b : UInt8} {bs : Bytes} {data : δ} (hgives : Gives get data bs)
    (hn : utf8CheckFirst b = n + 1) (hone : 1 ≤ n)
    (hfull : utf8CheckFull (b :: (getMore get n data).1) = some ch) :
    IsScalar ch ∧ b :: bs = encode ch ++ bs.drop n := by
  have hlen : (getMore get n data).1.length + 1 = utf8CheckFirst b := by
    rw [getMore_length, hn]
  obtain ⟨hch, he⟩ := (utf8CheckFull_eq_some (by omega) hlen).1 hfull
  refine ⟨hch, ?_⟩
  -- 0xFF stands for the end of the source and is in no encoding
  have hle : n ≤ bs.length := by
    by_contra hgt
    have hmem : (0xFF : UInt8) ∈ encode ch := by
      rw [← he]
      exact List.mem_cons_of_mem _ (getMore_ends n hgives (Nat.lt_of_not_le hgt))
    exact absurd (encode_le hch _ hmem) (by decide)
  rw [(getMore_gives n hgives hle).1] at he
  rw [← he, List.cons_append, List.take_append_drop]

/-- The text ends. -/
theorem streamGet_end {bs : Bytes} (hst : s.state = .ok) (hp : s.pending = []) (hgives : Gives get s.data bs) (hsplit : Split bs [] bad) :
    (streamGet get s).2.Looked get (streamGet get s).1 [] bad := by
  have hend : ∀ t : Stream δ, t.state = .error → t.At get [] true := by
    intro t ht
    refine ⟨fun h => ?_, fun h => ?_, fun _ => ⟨rfl, rfl⟩⟩
    · rw [ht] at h
      cases h
    · rw [ht] at h
      cases h
  rw [streamGet_ok hst hp]
  generalize ht : ([] : Bytes) = t at hsplit
  cases hsplit with
  | nil =>
    have hnone : (get s.data).1 = none := hgives
    generalize get s.data = r at hnone
    obtain ⟨c, data⟩ := r
    obtain rfl : c = none := hnone
    refine ⟨rfl, rfl, ⟨fun h => ?_, fun _ => ⟨rfl, rfl⟩, fun h => ?_⟩⟩
    · cases h
    · cases h
  | @cons c _ text _ hc h =>
    refine absurd (congrArg List.length ht) ?_
    have := encode_length_pos c
    rw [List.length_append, List.length_nil]
    omega
  | bad hnil hbad =>
    cases bs with
    | nil => exact absurd rfl hnil
    | cons b bs =>
      obtain ⟨data', hget, hgives'⟩ := hgives
      rw [hget]
      dsimp only
      have hlt : ¬ b.toNat < 0x80 := fun hlt =>
        hbad b.toNat bs (isScalar_ascii hlt) (by rw [encode_ascii_byte hlt]; rfl)
      rw [if_neg hlt]
      by_cases h0 : utf8CheckFirst b = 0
      · rw [if_pos h0]
        exact ⟨rfl, rfl, hend _ rfl⟩
      · rw [if_neg h0]
        obtain ⟨n, hn⟩ : ∃ n, utf8CheckFirst b = n + 1 := Nat.exists_eq_succ_of_ne_zero h0
        have hone : 1 ≤ n := by
          have hne := utf8CheckFirst_one_iff.not.2 hlt
          omega
        have hfull : utf8CheckFull (b :: (getMore get n data').1) = none := by
          by_contra hsome
          obtain ⟨ch, hch⟩ := Option.ne_none_iff_exists'.1 hsome
          obtain ⟨hsc, hbs⟩ := take_of_full hgives' hn hone hch
          exact hbad ch _ hsc hbs
        rw [hn, Nat.add_sub_cancel]
        rw [if_pos hfull]
        exact ⟨rfl, rfl, hend _ rfl⟩

/-- `stream_get` reads the next byte of the text, or finds its end. -/
theorem streamGet_looked (h : s.At get text bad) :
    (streamGet get s).2.Looked get (streamGet get s).1 text bad := by
  cases hst : s.state with
  | eof =>
    obtain ⟨rfl, rfl⟩ := h.eof hst
    rw [streamGet, hst]
    exact ⟨rfl, rfl, h⟩
  | error =>
    obtain ⟨rfl, rfl⟩ := h.error hst
    rw [streamGet, hst]
    exact ⟨rfl, rfl, h⟩
  | ok =>
    obtain ⟨hpos, hzero, bs, t, hgives, hsplit, rfl⟩ := h.ok hst
    cases hp : s.pending with
    | cons b cs =>
      obtain ⟨hlt, hb, hne, hpend⟩ := s.pending_cons hp
      have hget : s.buffer.getD s.bufferPos 0 = b := by
        rw [List.getD_eq_getElem?_getD, hb]
        rfl
      have heq : streamGet get s = s.next := by
        rw [streamGet]
        split
        · simp_all
        · simp_all
        · rw [hget, if_neg hne]
      rw [heq, List.cons_append]
      refine Stream.looked_next hst hb ⟨fun _ => ⟨hlt, hzero, bs, t, hgives, hsplit, ?_⟩, ?_, ?_⟩
      · rw [hpend]
      · exact fun h => by rw [hst] at h; cases h
      · exact fun h => by rw [hst] at h; cases h
    | nil =>
      cases t with
      | cons b cs => exact streamGet_char hst hp hgives hsplit
      | nil => exact streamGet_end hst hp hgives hsplit

/-- A byte that was read is put back, if it is not 0. -/
theorem streamUnget_at (h : s.Looked get c text bad) :
    (streamUnget s c).At get (dropNul text) bad := by
  cases c with
  | eof =>
    obtain ⟨rfl, rfl, hat⟩ := h
    exact hat
  | error =>
    obtain ⟨rfl, rfl, hat⟩ := h
    exact hat
  | byte b =>
    obtain ⟨cs, rfl, hat, hst, hpos, hb⟩ := h
    obtain ⟨hle, hzero, bs, t, hgives, hsplit, rfl⟩ := hat.ok hst
    -- the buffer has the byte again
    have hdrop : s.buffer.drop (s.bufferPos - 1) = b :: s.buffer.drop s.bufferPos := by
      have hlt : s.bufferPos - 1 < s.buffer.length := by omega
      rw [List.drop_eq_getElem_cons hlt, Nat.sub_add_cancel hpos]
      rw [List.getElem?_eq_getElem hlt, Option.some.injEq] at hb
      rw [hb]
    have hpend : (s.buffer.drop (s.bufferPos - 1)).takeWhile (· ≠ 0) =
        if b = 0 then [] else b :: s.pending := by
      rw [hdrop, List.takeWhile_cons]
      by_cases h0 : b = 0
      · simp [h0]
      · simp [h0, Stream.pending]
    have htext : dropNul (b :: (s.pending ++ t)) =
        (s.buffer.drop (s.bufferPos - 1)).takeWhile (· ≠ 0) ++ t := by
      rw [hpend, dropNul]
      split_ifs with h0
      · rcases hzero with hz | hz
        · refine absurd ?_ hz
          rw [← h0]
          exact List.mem_of_getElem? hb
        · have : s.pending = [] := by
            unfold Stream.pending
            rw [hz] at hle ⊢
            rw [List.drop_eq_nil_of_le (by exact hpos)]
            rfl
          rw [this]
      · rfl
    rw [htext]
    have hat' : ∀ l k p, ({ s with bufferPos := s.bufferPos - 1, line := l, column := k, position := p } :
        Stream δ).At get ((s.buffer.drop (s.bufferPos - 1)).takeWhile (· ≠ 0) ++ t) bad := by
      intro l k p
      refine ⟨fun _ => ⟨(Nat.sub_le _ _).trans hle, hzero, bs, t, hgives, hsplit, rfl⟩, ?_, ?_⟩
      · exact fun h => by rw [hst] at h; cases h
      · exact fun h => by rw [hst] at h; cases h
    unfold streamUnget
    dsimp only
    split_ifs
    · exact hat' _ _ _
    · exact hat' _ _ _
    · exact hat' _ _ _

/-- A stream at its beginning. -/
theorem Stream.at_init {data : δ} {bs : Bytes} (hgives : Gives get data bs) (hsplit : Split bs text bad) :
    ({ data := data } : Stream δ).At get text bad :=
  ⟨fun _ => ⟨le_rfl, Or.inl List.not_mem_nil, bs, text, hgives, hsplit, rfl⟩,
    fun h => (by cases h), fun h => (by cases h)⟩

end

end Jansson
