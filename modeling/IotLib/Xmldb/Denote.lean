/-
  `do_patch` prints what a template denotes.

  By induction on the template: a tag or a text is one turn or more of the loop, and a block is cut out
  as the template that stands in it, with its tags trimmed.
-/
import IotLib.Xmldb.Reload
import IotLib.Xmldb.Template

namespace Xmldb.Patch

/-! ## Reading -/

/-- What has not been read. -/
def Pinfo.unread (pi : Pinfo) : Bytes := pi.fh.getD (pi.buff.drop pi.offset)

/-- The source after `k` bytes. -/
def Pinfo.skip (pi : Pinfo) (k : ℕ) : Pinfo :=
  match pi.fh with
  | some fh => { pi with fh := some (fh.drop k) }
  | none => { pi with offset := pi.offset + k }

/-- The bytes are read from the source as they are. -/
def Pinfo.Clear (pi : Pinfo) (bytes : Bytes) : Prop := pi.fh = none → 0xFF ∉ bytes

variable {msg : Bytes}

section
variable {pi : Pinfo} {k m : ℕ} {c : UInt8} {bytes rest : Bytes}

theorem signed_eq_eof : signed c = -1 ↔ c = 0xFF := by
  have hlt := c.toNat_lt
  have heq : c = 0xFF ↔ c.toNat = 255 := by
    rw [← UInt8.toNat_inj]
    rfl
  rw [heq, signed]
  split_ifs with h
  · have h' : c.toNat < 128 := h
    exact ⟨False.elim, fun heof => by omega⟩
  · omega

@[simp] theorem skip_current : (pi.skip k).current = pi.current := by
  unfold Pinfo.skip
  cases pi.fh <;> rfl

@[simp] theorem skip_max : (pi.skip k).max = pi.max := by
  unfold Pinfo.skip
  cases pi.fh <;> rfl

theorem skip_fh : (pi.skip k).fh = none ↔ pi.fh = none := by
  unfold Pinfo.skip
  cases h : pi.fh with
  | none => simp
  | some fh => simp

theorem skip_unread : (pi.skip k).unread = pi.unread.drop k := by
  unfold Pinfo.skip Pinfo.unread
  cases h : pi.fh with
  | none => simp [Nat.add_comm]
  | some fh => simp

theorem skip_skip : (pi.skip k).skip m = pi.skip (k + m) := by
  unfold Pinfo.skip
  cases h : pi.fh with
  | none => simp [Nat.add_assoc]
  | some fh => simp

theorem skip_zero : pi.skip 0 = pi := by
  obtain ⟨fh, buff, offset, current, max⟩ := pi
  cases fh <;> rfl

theorem size_eq : pi.size = pi.unread.length := by
  unfold Pinfo.size Pinfo.unread
  cases h : pi.fh with
  | none => simp
  | some fh => simp

theorem Pinfo.Clear.skip (h : pi.Clear bytes) : (pi.skip k).Clear bytes := fun hfh => h (skip_fh.1 hfh)

theorem Pinfo.Clear.sub (h : pi.Clear bytes) (hsub : ∀ c ∈ rest, c ∈ bytes) : pi.Clear rest :=
  fun hfh hmem => h hfh (hsub _ hmem)

theorem Pinfo.Clear.append (h₁ : pi.Clear bytes) (h₂ : pi.Clear rest) : pi.Clear (bytes ++ rest) :=
  fun hfh hmem => (List.mem_append.1 hmem).elim (h₁ hfh) (h₂ hfh)

/-- A byte is read. -/
theorem piGetc_cons (h : pi.unread = c :: rest) (hc : pi.Clear [c]) : piGetc pi = (some c, pi.skip 1) := by
  unfold Pinfo.unread at h
  unfold piGetc Pinfo.skip
  cases hfh : pi.fh with
  | none =>
    rw [hfh, Option.getD_none] at h
    have hget : pi.buff[pi.offset]? = some c := by
      rw [← List.head?_drop, h]
      rfl
    have hne : signed c ≠ -1 := fun heof => hc hfh (by rw [signed_eq_eof.1 heof]; exact List.mem_singleton_self _)
    dsimp only
    rw [hget]
    simp [hne]
  | some fh =>
    rw [hfh, Option.getD_some] at h
    subst h
    rfl

theorem piGetc_nil (h : pi.unread = []) : piGetc pi = (none, pi) := by
  unfold Pinfo.unread at h
  unfold piGetc
  cases hfh : pi.fh with
  | none =>
    rw [hfh, Option.getD_none] at h
    have hget : pi.buff[pi.offset]? = none := by
      rw [← List.head?_drop, h]
      rfl
    dsimp only
    rw [hget]
  | some fh =>
    rw [hfh, Option.getD_some] at h
    subst h
    rfl

/-- The loop of `read_tag_msg` on a short tag. -/
theorem readTagLoop_tag {tag buff : Bytes} {n : ℕ} {last : Option UInt8}
    (h : pi.unread = tag ++ 0x7D :: 0x7D :: rest) (hclear : pi.Clear tag) (hbrace : 0x7D ∉ tag)
    (hn : tag.length < n) :
    readTagLoop n last pi buff = (some 0x7D, buff ++ tag, pi.skip (tag.length + 2)) := by
  induction tag generalizing pi buff n last with
  | nil =>
    obtain ⟨n, rfl⟩ := Nat.exists_eq_succ_of_ne_zero (Nat.ne_of_gt hn)
    have hbr : pi.Clear [0x7D] := fun _ => by decide
    have hnext : (pi.skip 1).unread = 0x7D :: rest := by rw [skip_unread, h]; rfl
    rw [readTagLoop, piGetc_cons h hbr]
    dsimp only
    rw [if_pos rfl, piGetc_cons hnext hbr.skip]
    dsimp only
    rw [if_pos rfl, List.append_nil, skip_skip]
    rfl
  | cons c tag ih =>
    obtain ⟨n, rfl⟩ := Nat.exists_eq_succ_of_ne_zero (Nat.ne_of_gt (Nat.zero_lt_of_lt hn))
    simp only [List.mem_cons, not_or] at hbrace
    have hnext : (pi.skip 1).unread = tag ++ 0x7D :: 0x7D :: rest := by rw [skip_unread, h]; rfl
    rw [readTagLoop, piGetc_cons h (hclear.sub (by simp))]
    dsimp only
    rw [if_neg (Ne.symm hbrace.1), ih hnext (hclear.sub fun d hd => List.mem_cons_of_mem c hd).skip hbrace.2 (Nat.lt_of_succ_lt_succ hn),
      List.append_assoc, skip_skip, List.length_cons]
    congr 3
    omega

/-- `read_tag_msg` on a short tag. -/
theorem readTagMsg_tag {tag : Bytes} (h : pi.unread = tag ++ 0x7D :: 0x7D :: rest) (hclear : pi.Clear tag)
    (hbrace : 0x7D ∉ tag) (hlen : tag.length < 250) :
    readTagMsg pi = (some 0x7D, tag, pi.skip (tag.length + 2)) :=
  readTagLoop_tag h hclear hbrace (hlen.trans (by decide))

/-! ## Tags -/

theorem puttag_eq (tag : Bytes) : puttag tag = 0x7B :: 0x7B :: (tag ++ [0x7D, 0x7D]) := by
  have hopen : ascii "\x7b\x7b" = [0x7B, 0x7B] := by decide
  have hclose : ascii "\x7d\x7d" = [0x7D, 0x7D] := by decide
  rw [puttag, hopen, hclose]
  rfl

theorem puttag_length (tag : Bytes) : (puttag tag).length = tag.length + 4 := by
  rw [puttag_eq]
  simp

/-- Three reads take a tag. -/
theorem read_puttag {tag : Bytes} (h : pi.unread = puttag tag ++ rest) (hclear : pi.Clear tag)
    (hbrace : 0x7D ∉ tag) (hlen : tag.length < 250) :
    piGetc pi = (some 0x7B, pi.skip 1) ∧ piGetc (pi.skip 1) = (some 0x7B, pi.skip 2) ∧
      readTagMsg (pi.skip 2) = (some 0x7D, tag, pi.skip (puttag tag).length) ∧
      (pi.skip (puttag tag).length).unread = rest := by
  have hbr : pi.Clear [0x7B] := fun _ => by decide
  rw [puttag_eq] at h
  have h₁ : (pi.skip 1).unread = 0x7B :: ((tag ++ [0x7D, 0x7D]) ++ rest) := by rw [skip_unread, h]; rfl
  have h₂ : (pi.skip 2).unread = tag ++ 0x7D :: 0x7D :: rest := by
    rw [skip_unread, h]
    simp
  refine ⟨piGetc_cons h hbr, ?_, ?_, ?_⟩
  · rw [piGetc_cons h₁ hbr.skip, skip_skip]
  · rw [readTagMsg_tag h₂ hclear.skip hbrace hlen, skip_skip, puttag_length]
    congr 3
    omega
  · rw [skip_unread, h, ← puttag_eq, List.drop_left]

/-! ## Trimmed tags -/

theorem tagMsg_suffix (tag : Bytes) :
    ∃ pre post, cstr tag = pre ++ tagMsg tag ++ post ∧ xmldbReatwhite (cstr tag) = pre ++ tagMsg tag := by
  refine ⟨(xmldbReatwhite (cstr tag)).takeWhile isWhite, ((cstr tag).reverse.takeWhile isWhite).reverse, ?_,
    List.takeWhile_append_dropWhile.symm⟩
  have hpre : (xmldbReatwhite (cstr tag)).takeWhile isWhite ++ tagMsg tag = xmldbReatwhite (cstr tag) :=
    List.takeWhile_append_dropWhile
  rw [hpre, xmldbReatwhite, ← List.reverse_append, List.takeWhile_append_dropWhile, List.reverse_reverse]

theorem mem_of_mem_tagMsg {tag : Bytes} (h : c ∈ tagMsg tag) : c ∈ tag ∧ c ≠ 0 := by
  obtain ⟨pre, post, heq, -⟩ := tagMsg_suffix tag
  have hmem : c ∈ cstr tag := by
    rw [heq]
    simp [h]
  refine ⟨(List.takeWhile_sublist _).subset hmem, ?_⟩
  have hne := List.mem_takeWhile_imp hmem
  simpa using hne

theorem tagMsg_length (tag : Bytes) : (tagMsg tag).length ≤ tag.length := by
  obtain ⟨pre, post, heq, -⟩ := tagMsg_suffix tag
  have hle : (cstr tag).length ≤ tag.length := (List.takeWhile_sublist _).length_le
  rw [heq] at hle
  simp only [List.length_append] at hle
  omega

theorem head_dropWhile {bs : Bytes} (h : (bs.dropWhile isWhite).head? = some c) : isWhite c = false := by
  cases hw : isWhite c with
  | false => rfl
  | true =>
    have hnot := List.head?_dropWhile_not isWhite bs
    rw [h] at hnot
    simp [hw] at hnot

/-- A trimmed tag is trimmed. -/
theorem tagMsg_tagMsg (tag : Bytes) : tagMsg (tagMsg tag) = tagMsg tag := by
  obtain ⟨pre, -, -, hre⟩ := tagMsg_suffix tag
  have hcstr : cstr (tagMsg tag) = tagMsg tag := cstr_eq fun h0 => (mem_of_mem_tagMsg h0).2 rfl
  have heat : xmldbEatwhite (tagMsg tag) = tagMsg tag := dropWhile_of_head fun c hc => head_dropWhile hc
  have hlast : xmldbReatwhite (tagMsg tag) = tagMsg tag := by
    rw [xmldbReatwhite, dropWhile_of_head, List.reverse_reverse]
    intro c hc
    have hrev : (xmldbReatwhite (cstr tag)).reverse.head? = some c := by
      rw [hre, List.reverse_append, List.head?_append, hc]
      rfl
    rw [xmldbReatwhite, List.reverse_reverse] at hrev
    exact head_dropWhile hrev
  conv_lhs => rw [tagMsg, hcstr, hlast, heat]

/-- A tag as it is seen. -/
theorem seen_tag {src : Source} {tag : Bytes} {k : Kind} (h : IsTag k tag) :
    0x7D ∉ src.seen tag ∧ (src.seen tag).length < 250 ∧ tagMsg (src.seen tag) = tagMsg tag := by
  obtain ⟨hbrace, hlen, -⟩ := h
  cases src with
  | block =>
    exact ⟨fun hmem => hbrace (mem_of_mem_tagMsg hmem).1, (tagMsg_length tag).trans_lt hlen, tagMsg_tagMsg tag⟩
  | file => exact ⟨hbrace, hlen, rfl⟩
  | buffer => exact ⟨hbrace, hlen, rfl⟩

/-! ## Kinds of tags -/

/-- Two texts of which none begins with the other begin no tag together. -/
theorem starts_disjoint {p q : String} (hp : starts p msg = true)
    (hpq : (ascii p).isPrefixOf (ascii q) = false) (hqp : (ascii q).isPrefixOf (ascii p) = false) :
    starts q msg = false := by
  rw [Bool.eq_false_iff]
  intro hq
  have hp' := List.isPrefixOf_iff_prefix.1 hp
  have hq' := List.isPrefixOf_iff_prefix.1 hq
  rcases List.prefix_or_prefix_of_prefix hp' hq' with h | h
  · rw [List.isPrefixOf_iff_prefix.2 h] at hpq
    cases hpq
  · rw [List.isPrefixOf_iff_prefix.2 h] at hqp
    cases hqp

/-- The first character of a tag. -/
theorem starts_head {p : String} (h : starts p msg = true) (hp : (ascii p).head? = some c) :
    msg.head? = some c := by
  obtain ⟨post, rfl⟩ := List.isPrefixOf_iff_prefix.1 h
  rw [List.head?_append, hp]
  rfl

theorem kind_arrayStart (h : kind msg = .arrayStart) : starts "$arraystart:" msg = true := by
  unfold kind at h
  split_ifs at h with h₁
  exact h₁

theorem kind_if (h : kind msg = .if_) :
    starts "$if" msg = true ∧ starts "$arraystart:" msg = false := by
  unfold kind at h
  split_ifs at h with h₁ h₂ h₃
  exact ⟨h₃, Bool.eq_false_iff.2 h₁⟩

theorem kind_plain (h : kind msg = .plain) :
    starts "$if" msg = false ∧ starts "$arraystart:" msg = false := by
  unfold kind at h
  split_ifs at h with h₁ h₂ h₃
  exact ⟨Bool.eq_false_iff.2 h₃, Bool.eq_false_iff.2 h₁⟩

theorem arrayTurn_eq (n : ℕ) (msg : Bytes) :
    arrayTurn n msg =
      match kind msg with
      | .arrayStart => .put (n + 1)
      | .arrayEnd => if n - 1 ≠ 0 then .put (n - 1) else .stop false
      | _ => .put n := by
  unfold arrayTurn kind
  by_cases hstart : starts "$arraystart:" msg
  · rw [if_pos hstart, if_pos hstart]
  · by_cases hend : starts "$arrayend" msg
    · rw [if_neg hstart, if_neg hstart, if_pos hend, if_pos hend]
    · rw [if_neg hstart, if_neg hstart, if_neg hend, if_neg hend]
      split_ifs <;> rfl

/-- The tags of arrays are none of those of conditions. -/
theorem array_not_cond (h : starts "$arraystart:" msg = true ∨ starts "$arrayend" msg = true) :
    starts "$if" msg = false ∧ starts "$else" msg = false ∧ starts "$fi" msg = false := by
  rcases h with h | h
  · exact ⟨starts_disjoint h (by decide) (by decide), starts_disjoint h (by decide) (by decide),
      starts_disjoint h (by decide) (by decide)⟩
  · exact ⟨starts_disjoint h (by decide) (by decide), starts_disjoint h (by decide) (by decide),
      starts_disjoint h (by decide) (by decide)⟩

theorem ifTurn_eq (n : ℕ) (msg : Bytes) :
    ifTurn n msg =
      match kind msg with
      | .if_ => .put (n + 1)
      | .else_ => if n = 1 then .stop true else .put n
      | .fi => if n - 1 ≠ 0 then .put (n - 1) else .stop false
      | _ => .put n := by
  unfold ifTurn kind
  by_cases harray : starts "$arraystart:" msg = true ∨ starts "$arrayend" msg = true
  · obtain ⟨h₁, h₂, h₃⟩ := array_not_cond harray
    simp only [h₁, h₂, h₃]
    rcases harray with h | h
    · simp [h]
    · cases hs : starts "$arraystart:" msg <;> simp [h]
  · rw [not_or] at harray
    rw [if_neg harray.1, if_neg harray.2]
    by_cases hif : starts "$if" msg
    · rw [if_pos hif, if_pos hif]
    · by_cases helse : starts "$else" msg
      · rw [if_neg hif, if_neg hif, if_pos helse, if_pos helse]
      · rw [if_neg hif, if_neg hif, if_neg helse, if_neg helse]
        by_cases hfi : starts "$fi" msg
        · rw [if_pos hfi, if_pos hfi]
        · rw [if_neg hfi, if_neg hfi]

theorem elseTurn_eq (n : ℕ) (msg : Bytes) :
    elseTurn n msg =
      match kind msg with
      | .if_ => .put (n + 1)
      | .fi => if n - 1 ≠ 0 then .put (n - 1) else .stop false
      | _ => .put n := by
  have hif := ifTurn_eq n msg
  unfold ifTurn at hif
  unfold elseTurn
  by_cases helse : starts "$else" msg
  · have h₁ : starts "$if" msg = false := starts_disjoint helse (by decide) (by decide)
    have h₂ : starts "$fi" msg = false := starts_disjoint helse (by decide) (by decide)
    have h₃ : starts "$arraystart:" msg = false := starts_disjoint helse (by decide) (by decide)
    have h₄ : starts "$arrayend" msg = false := starts_disjoint helse (by decide) (by decide)
    simp [kind, h₁, h₂, h₃, h₄, helse]
  · rw [if_neg helse] at hif
    rw [hif]
    have hne : kind msg ≠ .else_ := by
      unfold kind
      split_ifs <;> decide
    cases hk : kind msg with
    | else_ => exact (hne hk).elim
    | _ => rfl

/-- How the tags of nested blocks are counted. -/
structure Nests (turn : ℕ → Bytes → Turn) : Prop where
  plain : ∀ n msg, kind msg = .plain → turn n msg = .put n
  array : ∀ n, 1 ≤ n → ∃ m, 1 ≤ m ∧ (∀ msg, kind msg = .arrayStart → turn n msg = .put m) ∧
    ∀ msg, kind msg = .arrayEnd → turn m msg = .put n
  cond : ∀ n, 1 ≤ n → ∃ m, 1 ≤ m ∧ (∀ msg, kind msg = .if_ → turn n msg = .put m) ∧
    (∀ msg, kind msg = .else_ → turn m msg = .put m) ∧ ∀ msg, kind msg = .fi → turn m msg = .put n

theorem nests_array : Nests arrayTurn := by
  refine ⟨fun n msg h => ?_, fun n hn => ⟨n + 1, by omega, fun msg h => ?_, fun msg h => ?_⟩,
    fun n hn => ⟨n, hn, fun msg h => ?_, fun msg h => ?_, fun msg h => ?_⟩⟩
  · rw [arrayTurn_eq, h]
  · rw [arrayTurn_eq, h]
  · rw [arrayTurn_eq, h]
    exact if_pos (Nat.pos_iff_ne_zero.1 hn)
  · rw [arrayTurn_eq, h]
  · rw [arrayTurn_eq, h]
  · rw [arrayTurn_eq, h]

theorem nests_if : Nests ifTurn := by
  refine ⟨fun n msg h => ?_, fun n hn => ⟨n, hn, fun msg h => ?_, fun msg h => ?_⟩,
    fun n hn => ⟨n + 1, by omega, fun msg h => ?_, fun msg h => ?_, fun msg h => ?_⟩⟩
  · rw [ifTurn_eq, h]
  · rw [ifTurn_eq, h]
  · rw [ifTurn_eq, h]
  · rw [ifTurn_eq, h]
  · rw [ifTurn_eq, h]
    exact if_neg (by omega)
  · rw [ifTurn_eq, h]
    exact if_pos (Nat.pos_iff_ne_zero.1 hn)

theorem nests_else : Nests elseTurn := by
  refine ⟨fun n msg h => ?_, fun n hn => ⟨n, hn, fun msg h => ?_, fun msg h => ?_⟩,
    fun n hn => ⟨n + 1, by omega, fun msg h => ?_, fun msg h => ?_, fun msg h => ?_⟩⟩
  · rw [elseTurn_eq, h]
  · rw [elseTurn_eq, h]
  · rw [elseTurn_eq, h]
  · rw [elseTurn_eq, h]
  · rw [elseTurn_eq, h]
  · rw [elseTurn_eq, h]
    exact if_pos (Nat.pos_iff_ne_zero.1 hn)

/-! ## Cutting -/

/-- The buffer with what is kept. -/
def kept (keep : Bool) (buff bytes : Bytes) : Bytes := if keep then buff ++ bytes else buff

theorem kept_append {keep : Bool} {buff bs : Bytes} :
    kept keep (kept keep buff bytes) bs = kept keep buff (bytes ++ bs) := by
  cases keep with
  | false => rfl
  | true => exact List.append_assoc _ _ _

theorem kept_nil {keep : Bool} {buff : Bytes} : kept keep buff [] = buff := by
  cases keep with
  | false => rfl
  | true => exact List.append_nil _

/-- The cutting reads `bytes` and writes `out`; it goes from `o` open tags to `o'`. -/
def Copies (turn : ℕ → Bytes → Turn) (keep : Bool) (o o' : ℕ) (bytes out : Bytes) : Prop :=
  ∀ (pi : Pinfo) (n : ℕ) (rest buff : Bytes), pi.unread = bytes ++ rest → pi.Clear bytes →
    pi.unread.length < n → ∃ m, (pi.skip bytes.length).unread.length < m ∧
      cut turn keep n o pi buff = cut turn keep m o' (pi.skip bytes.length) (kept keep buff out)

section
variable {turn : ℕ → Bytes → Turn} {keep : Bool} {o o₁ o₂ : ℕ} {out bytes₁ bytes₂ out₁ out₂ : Bytes}

theorem Copies.nil : Copies turn keep o o [] [] := by
  intro pi n rest buff h hclear hn
  refine ⟨n, ?_, ?_⟩
  · rw [List.length_nil, skip_zero]
    exact hn
  · rw [List.length_nil, skip_zero, kept_nil]

theorem Copies.append (h₁ : Copies turn keep o o₁ bytes₁ out₁) (h₂ : Copies turn keep o₁ o₂ bytes₂ out₂) :
    Copies turn keep o o₂ (bytes₁ ++ bytes₂) (out₁ ++ out₂) := by
  intro pi n rest buff h hclear hn
  rw [List.append_assoc] at h
  obtain ⟨m, hm, hcut⟩ := h₁ pi n _ buff h (hclear.sub fun d hd => List.mem_append_left _ hd) hn
  have h' : (pi.skip bytes₁.length).unread = bytes₂ ++ rest := by rw [skip_unread, h, List.drop_left]
  obtain ⟨m', hm', hcut'⟩ := h₂ _ m _ (kept keep buff out₁) h'
    (hclear.sub fun d hd => List.mem_append_right _ hd).skip hm
  rw [skip_skip, ← List.length_append] at hm' hcut'
  refine ⟨m', hm', ?_⟩
  rw [hcut, hcut', kept_append]

/-- A byte of the text is copied. -/
theorem Copies.byte (hc : c ≠ 0x7B) : Copies turn keep o o [c] [c] := by
  intro pi n rest buff h hclear hn
  obtain ⟨n, rfl⟩ := Nat.exists_eq_succ_of_ne_zero (Nat.ne_of_gt (Nat.zero_lt_of_lt hn))
  refine ⟨n, ?_, ?_⟩
  · rw [skip_unread, List.length_drop, h]
    rw [h] at hn
    simp only [List.length_append, List.length_cons, List.length_nil] at hn ⊢
    omega
  · rw [cut, piGetc_cons h hclear]
    dsimp only
    rw [if_pos hc]
    rfl

/-- Text is copied. -/
theorem Copies.text (hbrace : 0x7B ∉ bytes) : Copies turn keep o o bytes bytes := by
  induction bytes with
  | nil => exact .nil
  | cons c bytes ih =>
    rw [List.mem_cons, not_or] at hbrace
    exact Copies.append (.byte (Ne.symm hbrace.1)) (ih hbrace.2)

/-- A tag is looked at. -/
theorem cut_tag {src : Source} {tag : Bytes} {k : Kind} {n : ℕ} {buff : Bytes} (htag : IsTag k tag)
    (h : pi.unread = puttag (src.seen tag) ++ rest) (hclear : pi.Clear (puttag (src.seen tag)))
    (hn : pi.unread.length < n) :
    ∃ m, (pi.skip (puttag (src.seen tag)).length).unread.length < m ∧
      cut turn keep n o pi buff =
        match turn o (tagMsg tag) with
        | .stop isElse => ⟨some isElse, buff, pi.skip (puttag (src.seen tag)).length⟩
        | .put o => cut turn keep m o (pi.skip (puttag (src.seen tag)).length)
            (kept keep buff (puttag (tagMsg tag))) := by
  obtain ⟨n, rfl⟩ := Nat.exists_eq_succ_of_ne_zero (Nat.ne_of_gt (Nat.zero_lt_of_lt hn))
  obtain ⟨hbrace, hlen, hmsg⟩ := @seen_tag src tag k htag
  have hclear' : pi.Clear (src.seen tag) := hclear.sub fun d hd => by rw [puttag_eq]; simp [hd]
  obtain ⟨hget, hget', hread, hrest⟩ := read_puttag h hclear' hbrace hlen
  refine ⟨n, ?_, ?_⟩
  · rw [hrest]
    rw [h, List.length_append, puttag_length] at hn
    omega
  · rw [cut, hget]
    dsimp only
    rw [if_neg (by decide), hget']
    dsimp only
    rw [if_neg (by decide), hread]
    dsimp only
    rw [hmsg]
    cases turn o (tagMsg tag) with
    | stop isElse => rfl
    | put o => exact if_neg (by decide)

/-- A tag of the block is copied without the white space in it. -/
theorem Copies.tag {src : Source} {tag : Bytes} {k : Kind} (htag : IsTag k tag)
    (hturn : turn o (tagMsg tag) = .put o₁) :
    Copies turn keep o o₁ (puttag (src.seen tag)) (puttag (tagMsg tag)) := by
  intro pi n rest buff h hclear hn
  obtain ⟨m, hm, hcut⟩ := @cut_tag pi rest turn keep o src tag k n buff htag h hclear hn
  rw [hturn] at hcut
  exact ⟨m, hm, hcut⟩

/-- **A template in a block** is copied with its tags trimmed. -/
theorem Copies.template {src : Source} {t : Template} (hturn : Nests turn) (ho : 1 ≤ o) (hok : t.Ok) :
    Copies turn keep o o (t.render src.seen) (t.render tagMsg) := by
  induction t generalizing o with
  | done => exact .nil
  | text bs next ih => exact (Copies.text hok.1).append (ih ho hok.2)
  | tag msg next ih => exact (Copies.tag hok.1 (hturn.plain o _ hok.1.2.2)).append (ih ho hok.2)
  | array start body stop next ihbody ihnext =>
    obtain ⟨hstart, hbody, hstop, hnext⟩ := hok
    obtain ⟨m, hm, hopen, hclose⟩ := hturn.array o ho
    exact (Copies.tag hstart (hopen _ hstart.2.2)).append ((ihbody hm hbody).append
      ((Copies.tag hstop (hclose _ hstop.2.2)).append (ihnext ho hnext)))
  | cond start yes stop next ihyes ihnext =>
    obtain ⟨hstart, hyes, hstop, hnext⟩ := hok
    obtain ⟨m, hm, hopen, -, hclose⟩ := hturn.cond o ho
    exact (Copies.tag hstart (hopen _ hstart.2.2)).append ((ihyes hm hyes).append
      ((Copies.tag hstop (hclose _ hstop.2.2)).append (ihnext ho hnext)))
  | condElse start yes other no stop next ihyes ihno ihnext =>
    obtain ⟨hstart, hyes, hother, hno, hstop, hnext⟩ := hok
    obtain ⟨m, hm, hopen, helse, hclose⟩ := hturn.cond o ho
    exact (Copies.tag hstart (hopen _ hstart.2.2)).append ((ihyes hm hyes).append
      ((Copies.tag hother (helse _ hother.2.2)).append ((ihno hm hno).append
        ((Copies.tag hstop (hclose _ hstop.2.2)).append (ihnext ho hnext)))))

/-- **A block is cut out** at the tag that ends it. -/
theorem cutBlock_eq {src : Source} {t : Template} {tag buff : Bytes} {k : Kind} {isElse : Bool}
    (hturn : Nests turn) (hok : t.Ok) (htag : IsTag k tag) (hstop : turn 1 (tagMsg tag) = .stop isElse)
    (h : pi.unread = t.render src.seen ++ (puttag (src.seen tag) ++ rest))
    (hclear : pi.Clear (t.render src.seen ++ puttag (src.seen tag))) :
    cutBlock turn keep pi buff = ⟨some isElse, kept keep buff (t.render tagMsg),
      pi.skip (t.render src.seen ++ puttag (src.seen tag)).length⟩ := by
  obtain ⟨m, hm, hcut⟩ := @Copies.template turn keep 1 src t hturn le_rfl hok pi (pi.size + 1) _ buff h
    (hclear.sub fun d hd => List.mem_append_left _ hd) (by rw [size_eq]; exact Nat.lt_succ_self _)
  have h' : (pi.skip (t.render src.seen).length).unread = puttag (src.seen tag) ++ rest := by
    rw [skip_unread, h, List.drop_left]
  obtain ⟨m', -, hcut'⟩ := @cut_tag _ _ turn keep 1 src tag k _ (kept keep buff (t.render tagMsg)) htag h'
    (hclear.sub fun d hd => List.mem_append_right _ hd).skip hm
  rw [cutBlock, hcut, hcut', hstop]
  dsimp only
  rw [skip_skip, List.length_append]

end

end

/-! ## The number of entries -/

variable {tagmsg : Bytes}

section
variable {ctx : Ctx} {vars : Vars} {m : ℤ} {num cstr : Bytes}

theorem readnum_max (h : 0x40 ∉ num) : readnum { ctx with max := m } vars num = readnum ctx vars num := by
  have hne : num.head? ≠ some 0x40 := fun hhead => h (List.mem_of_mem_head? hhead)
  unfold readnum
  rw [if_neg hne, if_neg hne]

/-- What `readnum` leaves is the end of the string. -/
theorem mem_of_readnum {i : ℤ} {rest : Bytes} {c : UInt8} (h : readnum ctx vars num = some (i, rest))
    (hc : c ∈ rest) : c ∈ num := by
  unfold readnum at h
  split_ifs at h
  · obtain ⟨-, rfl⟩ := Prod.mk.inj (Option.some.inj h)
    exact List.mem_of_mem_drop hc
  · obtain ⟨-, rfl⟩ := Prod.mk.inj (Option.some.inj h)
    exact List.mem_of_mem_drop hc
  · obtain ⟨v, -, heq⟩ := Option.map_eq_some_iff.1 h
    obtain ⟨-, rfl⟩ := Prod.mk.inj heq
    exact List.mem_of_mem_drop hc
  · obtain ⟨-, rfl⟩ := Prod.mk.inj (Option.some.inj h)
    exact (List.dropWhile_sublist _).subset hc

theorem not_mem_eatwhite {c : UInt8} (h : c ∉ cstr) : c ∉ xmldbEatwhite cstr :=
  fun hc => h ((List.dropWhile_sublist _).subset hc)

theorem calcLoop_max {ops : List (String × CalcOp)} {skip : Bytes → Bytes} {n : ℕ} {v : ℤ}
    (hskip : ∀ bs : Bytes, 0x40 ∉ bs → 0x40 ∉ skip bs) (h : 0x40 ∉ cstr) :
    calcLoop { ctx with max := m } vars ops skip n v cstr = calcLoop ctx vars ops skip n v cstr := by
  induction n generalizing v cstr with
  | zero => rfl
  | succ n ih =>
    unfold calcLoop
    split_ifs
    · rfl
    · have hnum : ∀ k, 0x40 ∉ xmldbEatwhite ((skip cstr).drop k) := fun k =>
        not_mem_eatwhite fun hc => hskip cstr h (List.mem_of_mem_drop hc)
      dsimp only
      cases ops.find? fun op => starts op.1 (skip cstr) with
      | none => rfl
      | some op =>
        obtain ⟨name, op⟩ := op
        dsimp only
        rw [readnum_max (hnum _)]
        cases hread : readnum ctx vars (xmldbEatwhite ((skip cstr).drop name.length)) with
        | none => rfl
        | some r =>
          obtain ⟨i, rest⟩ := r
          have hrest : 0x40 ∉ rest := fun hc => hnum _ (mem_of_readnum hread hc)
          cases hop : op v i with
          | none => simp [hop]
          | some v' => simpa [hop] using ih hrest

theorem doVariables_max {tag : Bytes} (h : 0x40 ∉ tag.drop 1) :
    doVariables { ctx with max := m } vars tag = doVariables ctx vars tag := by
  unfold doVariables
  split_ifs
  · rfl
  · dsimp only
    split_ifs
    · rfl
    · have hnum : 0x40 ∉ xmldbEatwhite ((xmldbEatwhite (tag.drop 1)).drop 1) :=
        not_mem_eatwhite fun hc => not_mem_eatwhite h (List.mem_of_mem_drop hc)
      rw [readnum_max hnum]
      cases hread : readnum ctx vars (xmldbEatwhite ((xmldbEatwhite (tag.drop 1)).drop 1)) with
      | none => rfl
      | some r =>
        obtain ⟨i, rest⟩ := r
        have hrest : 0x40 ∉ xmldbEatwhite rest := not_mem_eatwhite fun hc => hnum (mem_of_readnum hread hc)
        have hid : ∀ bs : Bytes, 0x40 ∉ bs → 0x40 ∉ id bs := fun _ hb => hb
        dsimp only [Option.bind_eq_bind, Option.bind_some]
        rw [calcLoop_max hid hrest]

theorem mappingValue_max {path : Bytes}
    (h : path.head? = some 0x25 → 0x40 ∉ (path.drop 1).dropWhile fun c => !isCalc c) :
    mappingValue { ctx with max := m } vars path = mappingValue ctx vars path := by
  unfold mappingValue
  by_cases hpath : path.head? = some 0x25
  · have hcalc : ∀ i, doCalculate { ctx with max := m } vars i ((path.drop 1).dropWhile fun c => !isCalc c) =
        doCalculate ctx vars i ((path.drop 1).dropWhile fun c => !isCalc c) :=
      fun i => calcLoop_max (fun _ hb => not_mem_eatwhite hb) (h hpath)
    simp only [hcalc]
    rfl
  · rw [if_neg hpath, if_neg hpath]
    rfl

/-- A tag that does not use the number of entries. -/
theorem leaf_max {s : State} (h : ¬UsesMax tagmsg) :
    leaf { ctx with max := m } s tagmsg = leaf ctx s tagmsg := by
  unfold leaf
  by_cases hdollar : tagmsg.head? = some 0x24
  · rw [if_pos hdollar, if_pos hdollar]
    by_cases hvar : starts "$var" tagmsg
    · rw [UsesMax, if_pos hvar] at h
      rw [if_pos hvar, if_pos hvar, doVariables_max (by rw [List.drop_drop]; exact h)]
    · rw [if_neg hvar, if_neg hvar]
  · have hvar : starts "$var" tagmsg ≠ true := fun hs => hdollar (starts_head hs (by decide))
    rw [UsesMax, if_neg hvar, not_and] at h
    rw [if_neg hdollar, if_neg hdollar, doMapping, mappingValue_max h]
    rfl

end

/-! ## Conditions -/

section
variable {ctx : Ctx} {vars : Vars}

/-- A plain comparison is made as it stands there. -/
theorem evalClause_plain {c : Clause} (h : c.Plain) :
    (if c.entry.head? = some 0x25 then none else evalClause ctx vars Clause.entry c) =
      evalClause ctx vars Clause.oprand c := by
  obtain ⟨hhead, hvar⟩ := h
  rw [if_neg hhead, evalClause, evalClause, if_neg hhead, if_neg hhead]
  by_cases hs : starts "var" c.oprand
  · have hat : varAt vars c.entry = varAt vars c.oprand := by
      rw [varAt, varAt, hvar hs]
    simp only [if_pos hs, hat]
  · simp only [if_neg hs]

theorem condLoop_plain {eval eval' : Clause → Option (Option Bool)} {n : ℕ} {res : Bool} {ptr : Bytes}
    (heval : ∀ c : Clause, c.Plain → eval' c = eval c) (h : PlainFrom eval n ptr) :
    condLoop eval' n res ptr = condLoop eval n res ptr := by
  induction n generalizing res ptr with
  | zero => rfl
  | succ n ih =>
    unfold condLoop
    by_cases hnil : ptr = []
    · rw [if_pos hnil, if_pos hnil]
    · rw [if_neg hnil, if_neg hnil]
      cases hread : readClause ptr with
      | none => rfl
      | some c =>
        obtain ⟨hplain, hnext⟩ := (h.resolve_left hnil) c hread
        dsimp only
        rw [heval c hplain]
        cases hc : eval c with
        | none => rfl
        | some r =>
          cases r with
          | none => rfl
          | some res' =>
            have hgo := hnext res' hc
            dsimp only [Option.bind_eq_bind, Option.bind_some]
            by_cases hand : starts "&&" c.rest = true
            · rw [if_pos hand] at hgo
              rw [if_pos hand, if_pos hand]
              cases res' with
              | true => exact ih (hgo rfl)
              | false => rfl
            · rw [if_neg hand] at hgo
              rw [if_neg hand, if_neg hand]
              by_cases hor : starts "||" c.rest = true
              · rw [if_pos hor, if_pos hor]
                cases res' with
                | true => rfl
                | false => exact ih (hgo ⟨hor, rfl⟩)
              · rw [if_neg hor, if_neg hor]

/-- `do_if_condition` decides a plain condition. -/
theorem doIfCondition_plain (h : ctx.PlainCond vars tagmsg) :
    doIfCondition ctx vars tagmsg = holds ctx vars tagmsg :=
  condLoop_plain (fun _ hc => evalClause_plain hc) h

/-- The number of entries does not matter for a condition. -/
theorem doIfCondition_max {m : ℤ} :
    doIfCondition { ctx with max := m } vars tagmsg = doIfCondition ctx vars tagmsg := rfl

end

/-! ## Arrays -/

section
variable {ctx : Ctx} {path : Bytes}

/-- The node that `do_array` finds has the entries that the array denotes. -/
theorem arrayEntries_parent (h : ctx.Rooted path → ctx.arrayEntries path (ctx.owner path) = []) :
    ctx.arrayEntries path (ctx.parent path) = ctx.arrayEntries path (ctx.owner path) := by
  by_cases hrooted : ctx.Rooted path
  · rw [h hrooted]
    rcases hrooted with hslash | ⟨hno, hnull⟩
    · rw [Ctx.parent, hslash]
      rfl
    · rw [Ctx.parent, hno, hnull]
      rfl
  · unfold Ctx.Rooted at hrooted
    rw [not_or, not_and] at hrooted
    have heq : ctx.parent path = ctx.owner path := by
      unfold Ctx.parent Ctx.owner
      cases hparent : (splitEntry path).1 with
      | none =>
        cases hcurrent : ctx.current with
        | none => exact (hrooted.2 hparent hcurrent).elim
        | some loc => rfl
      | some parent =>
        cases parent with
        | nil => exact (hrooted.1 hparent).elim
        | cons c parent => rfl
    rw [heq]

end

section
variable {child : List XmlNode} {entry : Bytes}

end

/-! ## Loops -/

theorem foldlM_each {α : Type} {P : State → α → Prop} {f g : State → α → Option State} {as : List α}
    {s : State} (h : Each P f s as) (heq : ∀ s, ∀ a ∈ as, P s a → g s a = f s a) :
    as.foldlM g s = as.foldlM f s := by
  induction as generalizing s with
  | nil => rfl
  | cons a as ih =>
    obtain ⟨ha, has⟩ := h
    rw [List.foldlM_cons, List.foldlM_cons, heq s a List.mem_cons_self ha]
    cases hf : f s a with
    | none => rfl
    | some s' => exact ih (has s' hf) fun s b hb => heq s b (List.mem_cons_of_mem a hb)

/-! ## Patching -/

variable {lost : Bool} {ctx : Ctx}

section
variable {tree : XmlNode} {flags : ℕ} {pi : Pinfo} {n : ℕ} {id : ℤ} {s : State} {bytes rest : Bytes} {c : UInt8}

/-- Text is printed. -/
theorem doPatch_text (h : pi.unread = bytes ++ rest) (hclear : pi.Clear bytes) (hbrace : 0x7B ∉ bytes)
    (hn : pi.unread.length < n) :
    ∃ m, (pi.skip bytes.length).unread.length < m ∧
      doPatch tree flags n pi id s = doPatch tree flags m (pi.skip bytes.length) id (s.put bytes) := by
  induction bytes generalizing pi n s with
  | nil =>
    refine ⟨n, ?_, ?_⟩
    · rw [List.length_nil, skip_zero]
      exact hn
    · rw [List.length_nil, skip_zero, State.put, List.append_nil]
  | cons c bytes ih =>
    obtain ⟨n, rfl⟩ := Nat.exists_eq_succ_of_ne_zero (Nat.ne_of_gt (Nat.zero_lt_of_lt hn))
    rw [List.mem_cons, not_or] at hbrace
    have hnext : (pi.skip 1).unread = bytes ++ rest := by rw [skip_unread, h]; rfl
    have hlen : (pi.skip 1).unread.length < n := by
      rw [h] at hn
      rw [hnext]
      simp only [List.length_append, List.length_cons] at hn ⊢
      omega
    obtain ⟨m, hm, hpatch⟩ := @ih _ _ (s.put [c]) hnext
      (hclear.sub fun d hd => List.mem_cons_of_mem c hd).skip hbrace.2 hlen
    rw [skip_skip, Nat.add_comm] at hm hpatch
    refine ⟨m, hm, ?_⟩
    have hc : pi.Clear [c] := hclear.sub fun d hd => by
      rw [List.mem_singleton.1 hd]
      exact List.mem_cons_self
    rw [doPatch, piGetc_cons h hc]
    dsimp only
    rw [if_pos (Ne.symm hbrace.1), hpatch, State.put, State.put, List.append_assoc]
    rfl

/-- A tag is one turn of the loop. -/
theorem doPatch_tag {src : Source} {tag : Bytes} {k : Kind} (htag : IsTag k tag)
    (h : pi.unread = puttag (src.seen tag) ++ rest) (hclear : pi.Clear (puttag (src.seen tag)))
    (hn : pi.unread.length < n) :
    ∃ m, (pi.skip (puttag (src.seen tag)).length).unread.length < m ∧
      doPatch tree flags n pi id s =
        (doTag tree flags (doPatch tree flags m) (pi.skip (puttag (src.seen tag)).length) id s
          (tagMsg tag)).bind fun r =>
            if r.1 < 0 then some (r.1, r.2.1) else doPatch tree flags m r.2.2 id r.2.1 := by
  obtain ⟨n, rfl⟩ := Nat.exists_eq_succ_of_ne_zero (Nat.ne_of_gt (Nat.zero_lt_of_lt hn))
  obtain ⟨hbrace, hlen, hmsg⟩ := @seen_tag src tag k htag
  have hclear' : pi.Clear (src.seen tag) := hclear.sub fun d hd => by rw [puttag_eq]; simp [hd]
  obtain ⟨hget, hget', hread, hrest⟩ := read_puttag h hclear' hbrace hlen
  refine ⟨n, ?_, ?_⟩
  · rw [hrest]
    rw [h, List.length_append, puttag_length] at hn
    omega
  · rw [doPatch, hget]
    dsimp only
    rw [if_neg (by decide), hget']
    dsimp only
    rw [if_neg (by decide), hread]
    dsimp only
    rw [hmsg]
    rfl

variable {patch : Patch}

/-- A tag that is no part of a block. -/
theorem doTag_plain (h : kind tagmsg = .plain) :
    doTag tree flags patch pi id s tagmsg =
      (leaf (pi.ctx tree flags id) s tagmsg).map fun r => (r.1, r.2.1, { pi with current := r.2.2 }) := by
  obtain ⟨hif, harray⟩ := kind_plain h
  unfold doTag leaf
  by_cases hdollar : tagmsg.head? = some 0x24
  · rw [if_pos hdollar, if_pos hdollar, if_neg (by rw [harray]; decide), if_neg (by rw [hif]; decide)]
    by_cases hvar : starts "$var" tagmsg
    · rw [if_pos hvar, if_pos hvar, Option.map_map]
      rfl
    · rw [if_neg hvar, if_neg hvar]
      rfl
  · rw [if_neg hdollar, if_neg hdollar]
    by_cases hat : tagmsg.head? = some 0x40
    · rw [if_pos hat, if_pos hat, Option.map_some]
      by_cases hid : id = 0
      · have hid' : (pi.ctx tree flags id).id = 0 := hid
        rw [if_pos hid, if_pos hid']
      · have hid' : (pi.ctx tree flags id).id ≠ 0 := hid
        rw [if_neg hid, if_neg hid']
        rfl
    · rw [if_neg hat, if_neg hat, Option.map_map]
      rfl

theorem doTag_array (h : kind tagmsg = .arrayStart) :
    doTag tree flags patch pi id s tagmsg = doArray tree flags patch pi (tagmsg.drop 12) s := by
  have hstart := kind_arrayStart h
  rw [doTag, if_pos (starts_head hstart (by decide)), if_pos hstart]

theorem doTag_if (h : kind tagmsg = .if_) :
    doTag tree flags patch pi id s tagmsg = doIf tree flags patch pi (tagmsg.drop 3) id s := by
  obtain ⟨hif, harray⟩ := kind_if h
  rw [doTag, if_pos (starts_head hif (by decide)), if_neg (by rw [harray]; decide), if_pos hif]

/-- `do_array`, where its block ends. -/
theorem doArray_eq {path buff : Bytes} {pi' : Pinfo} {isElse : Bool}
    (hblock : cutBlock arrayTurn true pi [] = ⟨some isElse, buff, pi'⟩) :
    doArray tree flags patch pi path s =
      let ctx := pi.ctx tree flags 0
      let ids := ctx.arrayEntries path (ctx.parent path)
      (ids.foldlM (fun s e => (patch ⟨none, buff, 0, some e.1, ids.length⟩ e.2 s).map Prod.snd) s).map
        fun s => (0, s, pi') := by
  unfold doArray
  rw [hblock]
  dsimp only
  cases hparent : (pi.ctx tree flags 0).parent path with
  | none => rfl
  | some pnode =>
    rw [Ctx.arrayEntries, Option.map_eq_bind]
    simp only [List.length_map, List.foldlM_map]
    rfl

/-- `do_if`, where its block ends at `$fi`. -/
theorem doIf_fi {tagmsg buff : Bytes} {pi' : Pinfo} {res : Bool}
    (hres : doIfCondition (pi.ctx tree flags id) s.vars tagmsg = some res)
    (hcut : cutBlock ifTurn res pi [] = ⟨some false, buff, pi'⟩) :
    doIf tree flags patch pi tagmsg id s =
      (if res then (patch ⟨none, buff, 0, pi.current, 0⟩ id s).map Prod.snd else some s).map
        fun s => (0, s, pi') := by
  unfold doIf
  rw [hres, Option.map_eq_bind]
  dsimp only [Option.bind_eq_bind, Option.bind_some]
  rw [hcut]
  cases res with
  | true => rfl
  | false => rfl

/-- `do_if`, where there is `$else`. -/
theorem doIf_else {tagmsg buff buff' : Bytes} {pi' pi'' : Pinfo} {res : Bool}
    {stop : Option Bool} (hres : doIfCondition (pi.ctx tree flags id) s.vars tagmsg = some res)
    (hcut : cutBlock ifTurn res pi [] = ⟨some true, buff, pi'⟩)
    (hcut' : cutBlock elseTurn (!res) pi' buff = ⟨stop, buff', pi''⟩) :
    doIf tree flags patch pi tagmsg id s =
      (if res then (patch ⟨none, buff, 0, pi.current, 0⟩ id s).map Prod.snd
        else (patch ⟨none, buff', 0, pi.current, 0⟩ id s).map Prod.snd).map fun s => (0, s, pi'') := by
  unfold doIf
  rw [hres, Option.map_eq_bind]
  dsimp only [Option.bind_eq_bind, Option.bind_some]
  rw [hcut]
  dsimp only
  rw [hcut', if_pos rfl]
  cases res with
  | true => rfl
  | false => rfl

/-- A source that stands for what a template is read from and in. -/
structure Reading (tree : XmlNode) (flags : ℕ) (src : Source) (lost : Bool) (ctx : Ctx) (pi : Pinfo) :
    Prop where
  tree : ctx.tree = tree
  flags : ctx.flags = flags
  current : pi.current = ctx.current
  max : pi.max = if lost then 0 else ctx.max
  source : pi.fh = none ↔ src ≠ .file

theorem Reading.ctx_eq {src : Source} (h : Reading tree flags src lost ctx pi) :
    pi.ctx tree flags ctx.id = { ctx with max := if lost then 0 else ctx.max } := by
  obtain ⟨rfl, rfl, hcurrent, hmax, -⟩ := h
  rw [Pinfo.ctx, hcurrent, hmax]

theorem Reading.skip {src : Source} (h : Reading tree flags src lost ctx pi)
    (k : ℕ) : Reading tree flags src lost ctx (pi.skip k) := by
  refine ⟨h.tree, h.flags, ?_, ?_, skip_fh.trans h.source⟩
  · rw [skip_current, h.current]
  · rw [skip_max, h.max]

theorem Reading.clear {src : Source} (h : Reading tree flags src lost ctx pi)
    (hreads : src.Reads bytes) : pi.Clear bytes := fun hfh => hreads (h.source.1 hfh)

/-- Braces are read. -/
theorem Reading.clear_tag {src : Source}
    (h : Reading tree flags src lost ctx pi) {tag : Bytes} (hreads : src.Reads tag) :
    pi.Clear (puttag tag) := by
  intro hfh hmem
  rw [puttag_eq] at hmem
  refine hreads (h.source.1 hfh) ?_
  simpa using hmem

end

/-- Trimming makes a template no longer. -/
theorem render_length (src : Source) (t : Template) :
    (t.render tagMsg).length ≤ (t.render src.seen).length := by
  have htag : ∀ tag, (puttag (tagMsg tag)).length ≤ (puttag (src.seen tag)).length := by
    intro tag
    rw [puttag_length, puttag_length]
    refine Nat.add_le_add_right ?_ 4
    cases src with
    | block => exact le_rfl
    | file => exact tagMsg_length tag
    | buffer => exact tagMsg_length tag
  induction t with
  | done => exact le_rfl
  | text bs next ih => simpa [Template.render] using ih
  | tag msg next ih =>
    have h := htag msg
    simp only [Template.render, List.length_append]
    omega
  | array start body stop next ihbody ihnext =>
    have h₁ := htag start
    have h₂ := htag stop
    simp only [Template.render, List.length_append]
    omega
  | cond start yes stop next ihyes ihnext =>
    have h₁ := htag start
    have h₂ := htag stop
    simp only [Template.render, List.length_append]
    omega
  | condElse start yes other no stop next ihyes ihno ihnext =>
    have h₁ := htag start
    have h₂ := htag other
    have h₃ := htag stop
    simp only [Template.render, List.length_append]
    omega

/-- `do_patch` prints what the template denotes, where this avoids what goes wrong. -/
def Prints (tree : XmlNode) (flags : ℕ) (t : Template) : Prop :=
  ∀ (src : Source) (lost : Bool) (ctx : Ctx) (pi : Pinfo) (s : State) (n : ℕ),
    Reading tree flags src lost ctx pi → pi.unread = t.render src.seen → t.Avoids src lost ctx s →
      pi.unread.length < n → doPatch tree flags n pi ctx.id s = t.denote ctx s

section
variable {tree : XmlNode} {flags : ℕ} {next : Template}

theorem Prints.done : Prints tree flags .done := by
  intro src lost ctx pi s n h hread havoids hn
  obtain ⟨n, rfl⟩ := Nat.exists_eq_succ_of_ne_zero (Nat.ne_of_gt (Nat.zero_lt_of_lt hn))
  rw [doPatch, piGetc_nil hread]
  rfl

section
-- the equations of these definitions, which the lemmas below rewrite with
attribute [local simp] Template.render Template.denote
end

theorem Prints.text {bytes : Bytes} (hbrace : 0x7B ∉ bytes) (hnext : Prints tree flags next) :
    Prints tree flags (.text bytes next) := by
  intro src lost ctx pi s n h hread havoids hn
  obtain ⟨hbytes, hafter⟩ := havoids
  obtain ⟨m, hm, hpatch⟩ := @doPatch_text tree flags pi n ctx.id s bytes _ hread (h.clear hbytes) hbrace hn
  rw [hpatch]
  refine hnext src lost ctx _ _ m (h.skip _) ?_ hafter hm
  rw [skip_unread, hread, Template.render, List.drop_left]

/-- Only a tag that uses the number of entries sees that it is lost. -/
theorem leaf_lost {s : State}
    (h : lost = true → ctx.max ≠ 0 → ¬UsesMax tagmsg) :
    leaf { ctx with max := if lost then 0 else ctx.max } s tagmsg = leaf ctx s tagmsg := by
  cases lost with
  | false => rfl
  | true =>
    by_cases hzero : ctx.max = 0
    · rw [← hzero]
      rfl
    · exact leaf_max (h rfl hzero)

theorem Prints.tag (htag : IsTag .plain msg) (hnext : Prints tree flags next) :
    Prints tree flags (.tag msg next) := by
  intro src lost ctx pi s n h hread havoids hn
  obtain ⟨hbytes, hmax, hafter⟩ := havoids
  obtain ⟨m, hm, hpatch⟩ := @doPatch_tag tree flags pi n ctx.id s _ src msg _ htag hread
    (h.clear_tag hbytes) hn
  have hrest : (pi.skip (puttag (src.seen msg)).length).unread = next.render src.seen := by
    rw [skip_unread, hread, Template.render, List.drop_left]
  rw [hpatch, doTag_plain htag.2.2, (h.skip _).ctx_eq, leaf_lost hmax, Template.denote]
  cases hl : leaf ctx s (tagMsg msg) with
  | none => rfl
  | some r =>
    rw [Option.map_some, Option.bind_some, Option.bind_some]
    by_cases hneg : r.1 < 0
    · rw [if_pos hneg, if_pos hneg]
    · rw [if_neg hneg, if_neg hneg]
      have hskip := h.skip (puttag (src.seen msg)).length
      have hr : Reading tree flags src lost { ctx with current := r.2.2 }
          { pi.skip (puttag (src.seen msg)).length with current := r.2.2 } :=
        ⟨h.tree, h.flags, rfl, hskip.max, hskip.source⟩
      exact hnext src lost _ _ _ m hr hrest (hafter r hl (Int.not_lt.1 hneg)) hm

/-- A block: its first tag is read, and what comes next is what the rest denotes. -/
theorem Prints.block {src : Source} {pi : Pinfo} {s : State} {n : ℕ}
    {start inner : Bytes} {k : Kind} {after : Option State} (hnext : Prints tree flags next)
    (h : Reading tree flags src lost ctx pi) (hstart : IsTag k start) (hbytes : src.Reads (src.seen start))
    (hread : pi.unread = puttag (src.seen start) ++ (inner ++ next.render src.seen))
    (hn : pi.unread.length < n)
    (htag : ∀ m pi₁, Reading tree flags src lost ctx pi₁ →
      pi₁.unread = inner ++ next.render src.seen → pi₁.unread.length < m →
      doTag tree flags (doPatch tree flags m) pi₁ ctx.id s (tagMsg start) =
        after.map fun s => (0, s, pi₁.skip inner.length))
    (hafter : ∀ s' ∈ after, next.Avoids src lost ctx s') :
    doPatch tree flags n pi ctx.id s = after.bind fun s => next.denote ctx s := by
  obtain ⟨m, hm, hpatch⟩ := @doPatch_tag tree flags pi n ctx.id s _ src start _ hstart hread
    (h.clear_tag hbytes) hn
  have hskip := h.skip (puttag (src.seen start)).length
  have hrest : (pi.skip (puttag (src.seen start)).length).unread = inner ++ next.render src.seen := by
    rw [skip_unread, hread, List.drop_left]
  rw [hpatch, htag m _ hskip hrest hm]
  cases after with
  | none => rfl
  | some s' =>
    rw [Option.map_some, Option.bind_some, Option.bind_some, if_neg (lt_irrefl _)]
    refine hnext src lost ctx _ s' m (hskip.skip _) ?_ (hafter s' rfl) ?_
    · rw [skip_unread, hrest, List.drop_left]
    · rw [skip_unread, List.length_drop]
      omega

theorem Prints.array {start stop : Bytes} {body : Template} (hstart : IsTag .arrayStart start)
    (hok : body.Ok) (hstop : IsTag .arrayEnd stop) (hbody : Prints tree flags body)
    (hnext : Prints tree flags next) : Prints tree flags (.array start body stop next) := by
  intro src lost ctx pi s n h hread havoids hn
  obtain ⟨hbytes, hrooted, heach, hafter⟩ := havoids
  have hreads : ∀ bs : Bytes, (∀ c ∈ bs, c ∈ src.seen start ++ (body.render src.seen ++ src.seen stop)) →
      src.Reads bs := fun bs hsub hfile hmem => hbytes hfile (hsub _ hmem)
  have hread' : pi.unread = puttag (src.seen start) ++ ((body.render src.seen ++ puttag (src.seen stop)) ++
      next.render src.seen) := by
    rw [hread, Template.render, List.append_assoc]
  refine Prints.block hnext h hstart (hreads _ fun c hc => List.mem_append_left _ hc) hread' hn ?_ hafter
  intro m pi₁ h₁ hrest hm
  have hclear : pi₁.Clear (body.render src.seen ++ puttag (src.seen stop)) :=
    (h₁.clear (hreads _ fun c hc => by simp [hc])).append
      (h₁.clear_tag (hreads _ fun c hc => by simp [hc]))
  have hend : arrayTurn 1 (tagMsg stop) = .stop false := by
    rw [arrayTurn_eq, hstop.2.2]
    rfl
  have hcut := @cutBlock_eq pi₁ _ arrayTurn true src body stop [] _ false nests_array hok hstop hend
    (hrest.trans (List.append_assoc _ _ _)) hclear
  have hlen : (body.render tagMsg).length < m := by
    have hle := render_length src body
    rw [hrest, List.length_append, List.length_append] at hm
    omega
  have hids : (pi₁.ctx tree flags 0).arrayEntries ((tagMsg start).drop 12)
      ((pi₁.ctx tree flags 0).parent ((tagMsg start).drop 12)) =
      ctx.arrayEntries ((tagMsg start).drop 12) (ctx.owner ((tagMsg start).drop 12)) := by
    rw [← arrayEntries_parent hrooted, Pinfo.ctx, h₁.current, ← h.tree]
    rfl
  have hentry : ∀ (e : Loc × ℤ) (k : ℤ), Reading tree flags .block false
      { ctx with current := some e.1, id := e.2, max := k }
      ⟨none, kept true [] (body.render tagMsg), 0, some e.1, k⟩ :=
    fun e k => ⟨h.tree, h.flags, rfl, rfl, fun _ => nofun, fun _ => rfl⟩
  rw [doTag_array hstart.2.2, doArray_eq hcut]
  dsimp only
  rw [hids]
  refine congrArg _ (foldlM_each heach ?_)
  intro s e he hturn
  exact congrArg _ (hbody _ _ _ _ s m (hentry e _) rfl hturn hlen)

/-- `do_if` decides as the condition says. -/
theorem Reading.condition {src : Source} {pi : Pinfo} {vars : Vars}
    (h : Reading tree flags src lost ctx pi) (hplain : ctx.PlainCond vars tagmsg) :
    doIfCondition (pi.ctx tree flags ctx.id) vars tagmsg = holds ctx vars tagmsg := by
  rw [h.ctx_eq, doIfCondition_max, doIfCondition_plain hplain]

/-- The part of a condition that was cut out. -/
theorem Prints.part {src : Source} {pi : Pinfo} {s : State} {m : ℕ}
    {body : Template} (hbody : Prints tree flags body) (h : Reading tree flags src lost ctx pi)
    (havoids : body.Avoids .block true ctx s) (hlen : (body.render tagMsg).length < m) :
    doPatch tree flags m ⟨none, body.render tagMsg, 0, pi.current, 0⟩ ctx.id s = body.denote ctx s :=
  hbody .block true ctx ⟨none, body.render tagMsg, 0, pi.current, 0⟩ s m
    ⟨h.tree, h.flags, h.current, rfl, fun _ => nofun, fun _ => rfl⟩ rfl havoids hlen

theorem Prints.cond {start stop : Bytes} {yes : Template} (hstart : IsTag .if_ start)
    (hok : yes.Ok) (hstop : IsTag .fi stop) (hyes : Prints tree flags yes)
    (hnext : Prints tree flags next) : Prints tree flags (.cond start yes stop next) := by
  intro src lost ctx pi s n h hread havoids hn
  obtain ⟨hbytes, hplain, hparts⟩ := havoids
  have hreads : ∀ bs : Bytes, (∀ c ∈ bs, c ∈ src.seen start ++ (yes.render src.seen ++ src.seen stop)) →
      src.Reads bs := fun bs hsub hfile hmem => hbytes hfile (hsub _ hmem)
  have hread' : pi.unread = puttag (src.seen start) ++ ((yes.render src.seen ++ puttag (src.seen stop)) ++
      next.render src.seen) := by
    rw [hread, Template.render, List.append_assoc]
  rw [Template.denote, ← Option.bind_assoc]
  refine Prints.block hnext h hstart (hreads _ fun c hc => List.mem_append_left _ hc) hread' hn ?_ ?_
  · intro m pi₁ h₁ hrest hm
    have hclear : pi₁.Clear (yes.render src.seen ++ puttag (src.seen stop)) :=
      (h₁.clear (hreads _ fun c hc => by simp [hc])).append
        (h₁.clear_tag (hreads _ fun c hc => by simp [hc]))
    have hend : ifTurn 1 (tagMsg stop) = .stop false := by
      rw [ifTurn_eq, hstop.2.2]
      rfl
    have hlen : (yes.render tagMsg).length < m := by
      have hle := render_length src yes
      rw [hrest, List.length_append, List.length_append] at hm
      omega
    have hcond := h₁.condition hplain
    rw [doTag_if hstart.2.2]
    cases hres : holds ctx s.vars ((tagMsg start).drop 3) with
    | none =>
      rw [hres] at hcond
      rw [doIf, hcond]
      rfl
    | some res =>
      have hcut := @cutBlock_eq pi₁ _ ifTurn res src yes stop [] _ false nests_if hok hstop hend
        (hrest.trans (List.append_assoc _ _ _)) hclear
      rw [doIf_fi (hcond.trans hres) hcut]
      have hpart := hparts res hres
      cases res with
      | false => rfl
      | true =>
        change ((doPatch tree flags m ⟨none, yes.render tagMsg, 0, pi₁.current, 0⟩ ctx.id s).map
          Prod.snd).map _ = _
        rw [hyes.part h₁ hpart.1 hlen]
        rfl
  · intro s' hs'
    obtain ⟨res, hres, hturn⟩ := Option.mem_bind_iff.1 hs'
    have hpart := hparts res hres
    cases res with
    | false =>
      obtain rfl := Option.some.inj hturn
      exact hpart
    | true =>
      obtain ⟨r, hr, rfl⟩ := Option.map_eq_some_iff.1 hturn
      exact hpart.2 r hr

theorem Prints.condElse {start other stop : Bytes} {yes no : Template} (hstart : IsTag .if_ start)
    (hok : yes.Ok) (hother : IsTag .else_ other) (hok' : no.Ok) (hstop : IsTag .fi stop)
    (hyes : Prints tree flags yes) (hno : Prints tree flags no) (hnext : Prints tree flags next) :
    Prints tree flags (.condElse start yes other no stop next) := by
  intro src lost ctx pi s n h hread havoids hn
  obtain ⟨hbytes, hplain, hparts⟩ := havoids
  have hreads : ∀ bs : Bytes, (∀ c ∈ bs, c ∈ src.seen start ++ (yes.render src.seen ++ (src.seen other ++
      (no.render src.seen ++ src.seen stop)))) → src.Reads bs :=
    fun bs hsub hfile hmem => hbytes hfile (hsub _ hmem)
  have hread' : pi.unread = puttag (src.seen start) ++ (((yes.render src.seen ++ puttag (src.seen other)) ++
      (no.render src.seen ++ puttag (src.seen stop))) ++ next.render src.seen) := by
    rw [hread, Template.render]
    simp only [List.append_assoc]
  rw [Template.denote, ← Option.bind_assoc]
  refine Prints.block hnext h hstart (hreads _ fun c hc => List.mem_append_left _ hc) hread' hn ?_ ?_
  · intro m pi₁ h₁ hrest hm
    have hclear : pi₁.Clear (yes.render src.seen ++ puttag (src.seen other)) :=
      (h₁.clear (hreads _ fun c hc => by simp [hc])).append
        (h₁.clear_tag (hreads _ fun c hc => by simp [hc]))
    have hclear' : pi₁.Clear (no.render src.seen ++ puttag (src.seen stop)) :=
      (h₁.clear (hreads _ fun c hc => by simp [hc])).append
        (h₁.clear_tag (hreads _ fun c hc => by simp [hc]))
    have helse : ifTurn 1 (tagMsg other) = .stop true := by
      rw [ifTurn_eq, hother.2.2]
      rfl
    have hend : elseTurn 1 (tagMsg stop) = .stop false := by
      rw [elseTurn_eq, hstop.2.2]
      rfl
    have hlens : (yes.render tagMsg).length < m ∧ (no.render tagMsg).length < m := by
      have hle := render_length src yes
      have hle' := render_length src no
      rw [hrest] at hm
      simp only [List.length_append] at hm
      omega
    have hcond := h₁.condition hplain
    rw [doTag_if hstart.2.2]
    cases hres : holds ctx s.vars ((tagMsg start).drop 3) with
    | none =>
      rw [hres] at hcond
      rw [doIf, hcond]
      rfl
    | some res =>
      rw [List.append_assoc, List.append_assoc] at hrest
      have hcut := @cutBlock_eq pi₁ _ ifTurn res src yes other [] _ true nests_if hok hother helse
        hrest hclear
      have hrest' : (pi₁.skip (yes.render src.seen ++ puttag (src.seen other)).length).unread =
          no.render src.seen ++ (puttag (src.seen stop) ++ next.render src.seen) := by
        rw [skip_unread, hrest, ← List.append_assoc, List.drop_left, List.append_assoc]
      have hcut' := @cutBlock_eq _ _ elseTurn (!res) src no stop (kept res [] (yes.render tagMsg)) _ false
        nests_else hok' hstop hend hrest' hclear'.skip
      rw [skip_skip, ← List.length_append] at hcut'
      rw [doIf_else (hcond.trans hres) hcut hcut']
      have hpart := hparts res hres
      cases res with
      | false =>
        change ((doPatch tree flags m ⟨none, no.render tagMsg, 0, pi₁.current, 0⟩ ctx.id s).map
          Prod.snd).map _ = _
        rw [hno.part h₁ hpart.1 hlens.2]
        rfl
      | true =>
        change ((doPatch tree flags m ⟨none, yes.render tagMsg, 0, pi₁.current, 0⟩ ctx.id s).map
          Prod.snd).map _ = _
        rw [hyes.part h₁ hpart.1 hlens.1]
        rfl
  · intro s' hs'
    obtain ⟨res, hres, hturn⟩ := Option.mem_bind_iff.1 hs'
    have hpart := hparts res hres
    cases res with
    | false =>
      obtain ⟨r, hr, rfl⟩ := Option.map_eq_some_iff.1 hturn
      exact hpart.2 r hr
    | true =>
      obtain ⟨r, hr, rfl⟩ := Option.map_eq_some_iff.1 hturn
      exact hpart.2 r hr

end

/-- A source from its start. -/
def opened (src : Source) (bytes : Bytes) (ctx : Ctx) : Pinfo :=
  match src with
  | .file => ⟨some bytes, [], 0, ctx.current, ctx.max⟩
  | _ => ⟨none, bytes, 0, ctx.current, ctx.max⟩

theorem Each.of_forall {α : Type} {P : State → α → Prop} {f : State → α → Option State} {as : List α}
    (h : ∀ s a, P s a) (s : State) : Each P f s as := by
  induction as generalizing s with
  | nil => trivial
  | cons a as ih => exact ⟨h s a, fun s' _ => ih s'⟩

end Xmldb.Patch
