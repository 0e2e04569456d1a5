/-
  The lines of the configuration: what the calls of `_pam_assemble_line` make of a file, against its
  lines with the comments removed and the continued ones joined.

  Where every chunk ends with its line, or cuts off blanks only, both are the same up to blanks.
-/
import IotLib.Lib.Forall
import IotLib.Lib.Fuel
import IotLib.Lib.Words
import IotLib.Pam.Assemble

namespace Pam

open Fuel Words

/-! ## The lines of a file -/

/-- The loop of `_pam_parse_conf_file`: the lines, and whether the end of the file was reached. -/
def readLines (bufLen : ℕ) : ℕ → List UInt8 → Option (List (List UInt8) × Bool)
  | 0, _ => none
  | n + 1, file =>
    (pamAssembleLine bufLen n file).bind fun r =>
      if 0 < r.1 then (readLines bufLen n r.2.2).map fun q => (r.2.1 :: q.1, q.2)
      else some ([], decide (r.1 = 0))

/-- A line up to the first `#`. -/
def uncomment (l : List UInt8) : List UInt8 := l.takeWhile (· ≠ hash)

/-- The last character that is not blank is a backslash. -/
def Continued (l : List UInt8) : Prop := (l.rdropWhile blank).getLast? = some backslash

instance (l : List UInt8) : Decidable (Continued l) :=
  inferInstanceAs (Decidable ((l.rdropWhile blank).getLast? = some backslash))

/-- The words of a line, and whether it goes on; the backslash is no part of them. -/
def meaning (l : List UInt8) : List (List UInt8) × Bool :=
  if Continued l then (words blank (l.rdropWhile blank).dropLast, true) else (words blank l, false)

/-- The lines of the file without comments, those that are not blank. -/
def remaining (file : List UInt8) : List (List (List UInt8) × Bool) :=
  (((file.splitOn newline).map uncomment).filter fun l => decide (words blank l ≠ [])).map meaning

/-- The words have room in the buffer, with a blank between two of them and a zero at the end. -/
def Fits (bufLen : ℕ) (ws : List (List UInt8)) : Prop := (ws.map fun w => w.length + 1).sum ≤ bufLen

instance (bufLen : ℕ) (ws : List (List UInt8)) : Decidable (Fits bufLen ws) :=
  inferInstanceAs (Decidable (_ ≤ _))

/-- A line that goes on is joined with the next one (`acc` has the words before). A joined line that
    has no room is an error, and so is one that goes on at the end of the file. -/
def joinLines (bufLen : ℕ) : Option (List (List UInt8)) → List (List (List UInt8) × Bool) →
    List (List (List UInt8)) × Bool
  | acc, [] => ([], acc.isNone)
  | acc, (ws, true) :: ls => joinLines bufLen (some (acc.getD [] ++ ws)) ls
  | acc, (ws, false) :: ls =>
    if Fits bufLen (acc.getD [] ++ ws) then
      ((acc.getD [] ++ ws) :: (joinLines bufLen none ls).1, (joinLines bufLen none ls).2)
    else ([], false)

/-- The lines that are read are those of the file, up to blanks. -/
def ReadsLines (bufLen : ℕ) (file : List UInt8) : Prop :=
  ∃ n lines ok, readLines bufLen n file = some (lines, ok) ∧
    (lines.map (words blank), ok) = joinLines bufLen none (remaining file)

/-! ## The chunks of a file -/

/-- A call starts to read here. -/
inductive CallAt (bufLen : ℕ) (file : List UInt8) : List UInt8 → Prop
  | start : CallAt bufLen file file
  | next {t₀ t chunk rest text : List UInt8} {k length : ℕ} (h : CallAt bufLen file t₀)
      (hj : Joined bufLen t₀ k t) (hlt : k < bufLen)
      (hread : fgets (bufLen - k) t = some (chunk, rest)) (hpart : partOf chunk = .last text length) :
      CallAt bufLen file rest

/-- The chunk goes to the end of its line; or it is blank, or what it cuts off is. -/
def Whole (chunk rest : List UInt8) : Prop :=
  newline ∈ chunk ∨ rest = [] ∨ (∀ x ∈ chunk, blank x = true) ∨
    ∀ x ∈ rest.takeWhile (· ≠ newline), blank x = true

/-- A chunk is no more than a part of its line; there is no zero before a comment, and no backslash
    right before one. -/
structure TidyChunk (chunk rest : List UInt8) : Prop where
  whole : Whole chunk rest
  zero : 0 ∉ uncomment chunk
  comment : hash ∈ chunk → ¬ Continued (uncomment chunk)

/-- All chunks of the file are tidy, and there is always room for one. -/
def TidyFile (bufLen : ℕ) (file : List UInt8) : Prop :=
  ∀ t₀ k t, CallAt bufLen file t₀ → Joined bufLen t₀ k t → k + 1 < bufLen ∧
    ∀ chunk rest, fgets (bufLen - k) t = some (chunk, rest) → TidyChunk chunk rest

/-! ## What a line stands for -/

section
variable {a l u : List UInt8}

theorem blank_ne_hash {c : UInt8} (h : blank c = true) : c ≠ hash := by
  rintro rfl
  cases h

theorem uncomment_blank_left (ha : ∀ x ∈ a, blank x = true) : uncomment (a ++ l) = a ++ uncomment l :=
  List.takeWhile_append_of_pos fun x hx => decide_eq_true (blank_ne_hash (ha x hx))

/-- Trailing blanks are removed with the comment, or stay. -/
theorem uncomment_blank_right (ha : ∀ x ∈ a, blank x = true) :
    uncomment (l ++ a) = uncomment l ∨ uncomment (l ++ a) = uncomment l ++ a := by
  unfold uncomment
  rw [List.takeWhile_append]
  split_ifs with hlen
  · right
    have hall : l.takeWhile (fun x => decide (x ≠ hash)) = l :=
      (List.takeWhile_prefix _).eq_of_length hlen
    rw [hall]
    congr 1
    exact List.takeWhile_eq_self_iff.2 fun x hx => decide_eq_true (blank_ne_hash (ha x hx))
  · exact .inl rfl

theorem continued_blank_right (ha : ∀ x ∈ a, blank x = true) : Continued (u ++ a) ↔ Continued u := by
  unfold Continued
  rw [rdropWhile_append_right ha]

theorem meaning_blank_right (ha : ∀ x ∈ a, blank x = true) : meaning (u ++ a) = meaning u := by
  unfold meaning
  rw [rdropWhile_append_right ha, words_append_right ha]
  exact if_congr (continued_blank_right ha) rfl rfl

theorem meaning_blank_left (ha : ∀ x ∈ a, blank x = true) (hu : words blank u ≠ []) :
    meaning (a ++ u) = meaning u := by
  have hnot : ¬ ∀ x ∈ u, blank x = true := fun h => hu (words_eq_nil_iff.2 h)
  have hne := rdropWhile_ne_nil hnot
  have hcontinued : Continued (a ++ u) ↔ Continued u := by
    unfold Continued
    rw [rdropWhile_append_left hnot, List.getLast?_append_of_ne_nil a hne]
  unfold meaning
  rw [rdropWhile_append_left hnot, words_append_left ha, List.dropLast_append_of_ne_nil hne,
    words_append_left ha]
  exact if_congr hcontinued rfl rfl

/-- What a line adds to those of the file. -/
def entry (l : List UInt8) : List (List (List UInt8) × Bool) :=
  if words blank (uncomment l) = [] then [] else [meaning (uncomment l)]

theorem entry_blank_left (ha : ∀ x ∈ a, blank x = true) : entry (a ++ l) = entry l := by
  unfold entry
  rw [uncomment_blank_left ha, words_append_left ha]
  split_ifs with hnil
  · rfl
  · rw [meaning_blank_left ha hnil]

theorem entry_blank_right (ha : ∀ x ∈ a, blank x = true) : entry (l ++ a) = entry l := by
  unfold entry
  rcases uncomment_blank_right (l := l) ha with h | h
  · rw [h]
  · rw [h, words_append_right ha, meaning_blank_right ha]

theorem entry_of_blank (ha : ∀ x ∈ a, blank x = true) : entry a = [] := by
  have h := entry_blank_left (l := []) ha
  rwa [List.append_nil] at h

theorem remaining_nil : remaining [] = [] := rfl

theorem remaining_line (hl : newline ∉ l) (rest : List UInt8) :
    remaining (l ++ newline :: rest) = entry l ++ remaining rest := by
  unfold remaining entry
  rw [List.splitOn_append_cons_self_of_not_mem hl, List.map_cons, List.filter_cons]
  split_ifs with h h' h'
  · exact (of_decide_eq_true h h').elim
  · rfl
  · rfl
  · exact (h (decide_eq_true h')).elim

theorem remaining_last (hl : newline ∉ l) : remaining l = entry l := by
  unfold remaining entry
  rw [List.splitOn_eq_singleton hl, List.map_cons, List.map_nil, List.filter_cons]
  split_ifs with h h' h'
  · exact (of_decide_eq_true h h').elim
  · rfl
  · rfl
  · exact (h (decide_eq_true h')).elim

/-- The file from its first line on. -/
theorem remaining_split (rest : List UInt8) :
    ∃ more, ∀ c, newline ∉ c →
      remaining (c ++ rest) = entry (c ++ rest.takeWhile (· ≠ newline)) ++ more := by
  have htake : newline ∉ rest.takeWhile (· ≠ newline) := by
    intro h
    have hne := List.mem_takeWhile_imp h
    exact of_decide_eq_true hne rfl
  cases hdrop : rest.dropWhile (· ≠ newline) with
  | nil =>
    refine ⟨[], fun c hc => ?_⟩
    have hrest : rest = rest.takeWhile (· ≠ newline) := by
      conv_lhs => rw [← List.takeWhile_append_dropWhile (p := (· ≠ newline)) (l := rest), hdrop]
      exact List.append_nil _
    rw [List.append_nil, ← hrest, remaining_last]
    rw [hrest]
    exact fun h => (List.mem_append.1 h).elim hc htake
  | cons x more =>
    have hx : x = newline := by
      have h := List.head?_dropWhile_not (· ≠ newline) rest
      rw [hdrop] at h
      simpa using h
    subst hx
    refine ⟨remaining more, fun c hc => ?_⟩
    have hrest : rest = rest.takeWhile (· ≠ newline) ++ newline :: more := by
      conv_lhs => rw [← List.takeWhile_append_dropWhile (p := (· ≠ newline)) (l := rest), hdrop]
    conv_lhs => rw [hrest, ← List.append_assoc]
    exact remaining_line (fun h => (List.mem_append.1 h).elim hc htake) more

/-- A chunk is what it stands for as a line, if it is no more than a part of one. -/
theorem remaining_chunk {chunk rest : List UInt8}
    (hchunk : newline ∉ chunk ∨ ∃ l, chunk = l ++ [newline] ∧ newline ∉ l) (hwhole : Whole chunk rest) :
    remaining (chunk ++ rest) = entry chunk ++ remaining rest := by
  rcases hchunk with hno | ⟨l, rfl, hl⟩
  · obtain ⟨more, hmore⟩ := remaining_split rest
    have hrest := hmore [] List.not_mem_nil
    rw [hmore chunk hno]
    rw [List.nil_append, List.nil_append] at hrest
    rcases hwhole with hmem | rfl | hblank | hblank
    · exact (hno hmem).elim
    · have hmore' : more = [] := by
        rw [remaining_nil] at hrest
        exact (List.append_eq_nil_iff.1 hrest.symm).2
      rw [hmore', List.takeWhile_nil, List.append_nil, List.append_nil, remaining_nil, List.append_nil]
    · rw [hrest, entry_blank_left hblank, entry_of_blank hblank, List.nil_append]
    · rw [hrest, entry_blank_right hblank, entry_of_blank hblank, List.nil_append]
  · have hnl : ∀ x ∈ [newline], blank x = true := by decide
    rw [List.append_assoc, List.singleton_append, remaining_line hl, entry_blank_right hnl]

end

/-! ## What a turn makes of a chunk -/

section
variable {chunk : List UInt8}

theorem chunk_split (chunk : List UInt8) : ∃ v, chunk = uncomment chunk ++ v ∧
    (v = [] ∧ hash ∉ chunk ∨ ∃ v', v = hash :: v' ∧ hash ∈ chunk) := by
  have hsplit : chunk = uncomment chunk ++ chunk.dropWhile (· ≠ hash) :=
    List.takeWhile_append_dropWhile.symm
  refine ⟨_, hsplit, ?_⟩
  cases hdrop : chunk.dropWhile (· ≠ hash) with
  | nil =>
    refine .inl ⟨rfl, fun hmem => ?_⟩
    exact of_decide_eq_true (List.dropWhile_eq_nil_iff.1 hdrop hash hmem) rfl
  | cons x v =>
    have hx : x = hash := by
      have h := List.head?_dropWhile_not (· ≠ hash) chunk
      rw [hdrop] at h
      simpa using h
    subst hx
    refine .inr ⟨v, rfl, ?_⟩
    rw [hsplit, hdrop]
    exact List.mem_append_right _ List.mem_cons_self

theorem hash_not_mem_uncomment (chunk : List UInt8) : hash ∉ uncomment chunk := by
  intro h
  have hne := List.mem_takeWhile_imp h
  exact of_decide_eq_true hne rfl

/-- The string in the buffer: up to the comment it is the chunk. -/
theorem str_split (h0 : 0 ∉ uncomment chunk) : ∃ v, chunk.takeWhile (· ≠ 0) = uncomment chunk ++ v ∧
    (v = [] ∧ hash ∉ chunk ∨ ∃ v', v = hash :: v' ∧ hash ∈ chunk) := by
  obtain ⟨v, hchunk, hv⟩ := chunk_split chunk
  have hpre : ∀ x ∈ uncomment chunk, decide (x ≠ 0) = true := fun x hx =>
    decide_eq_true fun h => h0 (h ▸ hx)
  refine ⟨v.takeWhile (· ≠ 0), ?_, ?_⟩
  · conv_lhs => rw [hchunk]
    exact List.takeWhile_append_of_pos hpre
  · rcases hv with ⟨rfl, hno⟩ | ⟨v', rfl, hmem⟩
    · exact .inl ⟨rfl, hno⟩
    · refine .inr ⟨v'.takeWhile (· ≠ 0), ?_, hmem⟩
      rw [List.takeWhile_cons_of_pos (by decide)]

/-- A chunk with nothing before a comment is skipped. -/
theorem partOf_skip (h0 : 0 ∉ uncomment chunk) (hblank : words blank (uncomment chunk) = []) :
    partOf chunk = .skip := by
  obtain ⟨v, hstr, hv⟩ := str_split h0
  have hall := words_eq_nil_iff.1 hblank
  have hos : (uncomment chunk ++ v).dropWhile blank = v.dropWhile blank :=
    List.dropWhile_append_of_pos hall
  unfold partOf
  dsimp only
  rw [hstr, hos]
  refine if_pos ?_
  rcases hv with ⟨rfl, -⟩ | ⟨v', rfl, -⟩
  · exact .inl rfl
  · rw [List.dropWhile_cons_of_neg (by decide)]
    exact .inr rfl

/-- The string without leading blanks. -/
theorem os_split {v : List UInt8} (hwords : words blank (uncomment chunk) ≠ []) :
    ∃ a x d, uncomment chunk = a ++ x :: d ∧ (∀ y ∈ a, blank y = true) ∧ blank x = false ∧ x ≠ hash ∧
      (uncomment chunk ++ v).dropWhile blank = x :: d ++ v := by
  have hsplit : uncomment chunk = (uncomment chunk).takeWhile blank ++ (uncomment chunk).dropWhile blank :=
    List.takeWhile_append_dropWhile.symm
  cases hdrop : (uncomment chunk).dropWhile blank with
  | nil => exact (hwords (words_eq_nil_iff.2 (List.dropWhile_eq_nil_iff.1 hdrop))).elim
  | cons x d =>
    rw [hdrop] at hsplit
    have hx : blank x = false := by
      have h := List.head?_dropWhile_not blank (uncomment chunk)
      rw [hdrop] at h
      simpa using h
    have hne : x ≠ hash := by
      rintro rfl
      refine hash_not_mem_uncomment chunk ?_
      rw [hsplit]
      exact List.mem_append_right _ List.mem_cons_self
    refine ⟨_, x, d, hsplit, fun _ => List.mem_takeWhile_imp, hx, hne, ?_⟩
    rw [List.dropWhile_append, hdrop]
    rfl

/-- The text before a comment ends the line; and so does a text without a backslash at its end. -/
theorem partOf_last (h0 : 0 ∉ uncomment chunk) (hwords : words blank (uncomment chunk) ≠ [])
    (hend : ¬ Continued (uncomment chunk)) :
    ∃ length, 0 < length ∧ partOf chunk = .last (uncomment chunk) length := by
  obtain ⟨v, hstr, hv⟩ := str_split h0
  obtain ⟨a, x, d, hu, ha, hx, hne, hos⟩ := @os_split chunk v hwords
  have hfirst : ¬ (x :: d ++ v = [] ∨ (x :: d ++ v).head? = some hash) := by
    rintro (h | h)
    · cases h
    · exact hne (Option.some.inj h)
  unfold partOf
  dsimp only
  rw [hstr, hos, if_neg hfirst]
  have hnot := hash_not_mem_uncomment chunk
  rcases hv with ⟨rfl, hno⟩ | ⟨v', rfl, hmem⟩
  · rw [List.append_nil, List.append_nil]
    have hos' : hash ∉ x :: d := fun h => hnot (hu ▸ List.mem_append_right a h)
    have hxd : ¬ ∀ y ∈ x :: d, blank y = true := by
      intro h
      rw [h x List.mem_cons_self] at hx
      cases hx
    have hlast : ¬ ((x :: d).rdropWhile blank).getLast? = some backslash := by
      intro h
      refine hend ?_
      unfold Continued
      rw [hu, rdropWhile_append_left hxd, List.getLast?_append_of_ne_nil a (rdropWhile_ne_nil hxd)]
      exact h
    rw [if_neg hos', if_neg hlast]
    exact ⟨_, Nat.succ_pos _, rfl⟩
  · have hos' : hash ∈ x :: d ++ hash :: v' := List.mem_append_right _ List.mem_cons_self
    have hpre : ∀ y ∈ uncomment chunk, decide (y ≠ hash) = true := fun y hy =>
      decide_eq_true fun h => hnot (h ▸ hy)
    have htake : (uncomment chunk ++ hash :: v').takeWhile (· ≠ hash) = uncomment chunk := by
      rw [List.takeWhile_append_of_pos hpre, List.takeWhile_cons_of_neg (by decide), List.append_nil]
    rw [if_pos hos', htake]
    refine ⟨_, ?_, rfl⟩
    rw [List.cons_append, List.takeWhile_cons_of_pos (by exact decide_eq_true hne)]
    exact Nat.succ_pos _

/-- A text with a backslash at its end is joined with what follows. -/
theorem partOf_joined (h0 : 0 ∉ uncomment chunk) (hwords : words blank (uncomment chunk) ≠ [])
    (hno : hash ∉ chunk) (hend : Continued (uncomment chunk)) : ∃ length, 0 < length ∧
      partOf chunk = .joined (((uncomment chunk).rdropWhile blank).dropLast ++ [32]) length := by
  obtain ⟨v, hstr, hv⟩ := str_split h0
  obtain ⟨a, x, d, hu, ha, hx, hne, hos⟩ := @os_split chunk v hwords
  have hfirst : ¬ (x :: d ++ v = [] ∨ (x :: d ++ v).head? = some hash) := by
    rintro (h | h)
    · cases h
    · exact hne (Option.some.inj h)
  unfold partOf
  dsimp only
  rw [hstr, hos, if_neg hfirst]
  rcases hv with ⟨rfl, -⟩ | ⟨v', -, hmem⟩
  · rw [List.append_nil, List.append_nil]
    have hos' : hash ∉ x :: d := fun h => hash_not_mem_uncomment chunk (hu ▸ List.mem_append_right a h)
    have hxd : ¬ ∀ y ∈ x :: d, blank y = true := by
      intro h
      rw [h x List.mem_cons_self] at hx
      cases hx
    have hlast : ((x :: d).rdropWhile blank).getLast? = some backslash := by
      unfold Continued at hend
      rwa [hu, rdropWhile_append_left hxd,
        List.getLast?_append_of_ne_nil a (rdropWhile_ne_nil hxd)] at hend
    rw [if_neg hos', if_pos hlast]
    exact ⟨_, List.length_pos_of_ne_nil (rdropWhile_ne_nil hxd), rfl⟩
  · exact (hno hmem).elim

end

/-! ## The lines that are read -/

section
variable {bufLen : ℕ} {file : List UInt8}

theorem readChunk_append (n : ℕ) (file : List UInt8) :
    (readChunk n file).1 ++ (readChunk n file).2 = file := by
  induction n generalizing file with
  | zero => rfl
  | succ n ih =>
    cases file with
    | nil => rfl
    | cons c file =>
      rw [readChunk]
      split_ifs
      · rfl
      · exact congrArg (c :: ·) (ih file)

theorem readChunk_length_le (n : ℕ) (file : List UInt8) : (readChunk n file).1.length ≤ n := by
  induction n generalizing file with
  | zero => exact le_rfl
  | succ n ih =>
    cases file with
    | nil => exact Nat.zero_le _
    | cons c file =>
      rw [readChunk]
      split_ifs
      · exact Nat.succ_le_succ (Nat.zero_le n)
      · exact Nat.succ_le_succ (ih file)

/-- A chunk has a newline at its end only. -/
theorem readChunk_newline (n : ℕ) (file : List UInt8) : newline ∉ (readChunk n file).1 ∨
    ∃ l, (readChunk n file).1 = l ++ [newline] ∧ newline ∉ l := by
  induction n generalizing file with
  | zero => exact .inl List.not_mem_nil
  | succ n ih =>
    cases file with
    | nil => exact .inl List.not_mem_nil
    | cons c file =>
      rw [readChunk]
      split_ifs with hc
      · exact .inr ⟨[], by rw [hc]; rfl, List.not_mem_nil⟩
      · have hcons : ∀ l, newline ∉ l → newline ∉ c :: l := by
          intro l hl hmem
          rcases List.mem_cons.1 hmem with h | h
          · exact hc h.symm
          · exact hl h
        rcases ih file with h | ⟨l, hl, hno⟩
        · exact .inl (hcons _ h)
        · refine .inr ⟨c :: l, ?_, hcons l hno⟩
          dsimp only
          rw [hl]
          rfl

/-- What is read: a chunk that has room, up to the end of its line at most. -/
theorem fgets_some {n : ℕ} {chunk rest : List UInt8} (hn : 1 < n)
    (h : fgets n file = some (chunk, rest)) : chunk ++ rest = file ∧ chunk.length < n ∧
      (newline ∉ chunk ∨ ∃ l, chunk = l ++ [newline] ∧ newline ∉ l) := by
  unfold fgets at h
  rw [if_neg (by omega)] at h
  split_ifs at h
  obtain ⟨rfl, rfl⟩ := Prod.mk.inj (Option.some.inj h)
  have hlen := readChunk_length_le (n - 1) file
  exact ⟨readChunk_append _ _, by omega, readChunk_newline _ _⟩

theorem fgets_none {n : ℕ} (h : fgets n file = none) : file = [] := by
  unfold fgets at h
  split_ifs at h with _ hnil
  exact hnil

/-- The words in the buffer. -/
structure Holding (s : LineState) (acc : Option (List (List UInt8))) : Prop where
  words : words blank s.line = acc.getD []
  used : s.used ≠ 0 ↔ acc.isSome
  last : s.line = [] ∨ ∃ l c, s.line = l ++ [c] ∧ blank c = true

/-- What becomes of the result of a call. -/
def afterLine (bufLen : ℕ) (r : Int × List UInt8 × List UInt8) (n : ℕ) :
    Option (List (List UInt8) × Bool) :=
  if 0 < r.1 then (readLines bufLen n r.2.2).map fun q => (r.2.1 :: q.1, q.2)
  else some ([], decide (r.1 = 0))

theorem readLines_converges {r : Int × List UInt8 × List UInt8} {q : List (List UInt8) × Bool}
    (h : Converges (fun n => pamAssembleLine bufLen n file) r)
    (hq : Converges (afterLine bufLen r) q) : Converges (fun n => readLines bufLen n file) q :=
  (h.bind (k := fun r n => afterLine bufLen r n) hq).call fun _ => rfl

/-- The words of a line with those before it have room if the texts do. -/
theorem fits_of_length {line u : List UInt8} (hlen : (line ++ u).length < bufLen) :
    Fits bufLen (words blank (line ++ u)) := (words_length_le (line ++ u)).trans hlen

/-- **From every place of a tidy file on**, the lines that are read are those of the file. -/
theorem reads_from (htidy : TidyFile bufLen file) {t₀ : List UInt8} {s : LineState}
    {acc : Option (List (List UInt8))} (hcall : CallAt bufLen file t₀)
    (hj : Joined bufLen t₀ s.line.length s.file) (hs : Holding s acc) :
    ∃ r q, Converges (fun n => assembleLoop bufLen n s) r ∧ Converges (afterLine bufLen r) q ∧
      (q.1.map (words blank), q.2) = joinLines bufLen acc (remaining s.file) := by
  induction hlen : s.file.length using Nat.strong_induction_on generalizing t₀ s acc with
  | _ m ih =>
    subst hlen
    obtain ⟨hroom, hchunks⟩ := htidy _ _ _ hcall hj
    have hstep := assembleLoop.eq_2 bufLen s
    have hone : ∀ {r}, (∀ n, assembleLoop bufLen (n + 1) s = some r) →
        Converges (fun n => assembleLoop bufLen n s) r := fun h => (Converges.ret _).call h
    rw [assembleStep, if_neg (by omega)] at hstep
    cases hread : fgets (bufLen - s.line.length) s.file with
    | none =>
      -- the end of the file: an error if a line goes on
      rw [hread] at hstep
      have hnil := fgets_none hread
      refine ⟨_, ([], acc.isNone), hone hstep, ⟨0, fun n _ => ?_⟩, ?_⟩
      · unfold afterLine
        cases acc with
        | none =>
          have hused : ¬ s.used ≠ 0 := fun h => by simpa using hs.used.1 h
          rw [if_neg hused]
          rfl
        | some ws =>
          rw [if_pos (hs.used.2 rfl)]
          rfl
      · rw [hnil, remaining_nil]
        rfl
    | some p =>
      obtain ⟨chunk, rest⟩ := p
      obtain ⟨hsplit, hfit, hnewline⟩ := fgets_some (by omega) hread
      have hshort : rest.length < s.file.length := fgets_shorter (by omega) hread
      have hlt : s.line.length < bufLen := by omega
      obtain ⟨hwhole, hzero, hcomment⟩ := hchunks chunk rest hread
      have hrem : remaining s.file = entry chunk ++ remaining rest := by
        rw [← hsplit]
        exact remaining_chunk hnewline hwhole
      rw [hread] at hstep
      dsimp only at hstep
      unfold entry at hrem
      by_cases hblank : words blank (uncomment chunk) = []
      · have hpart := partOf_skip hzero hblank
        rw [hpart] at hstep
        rw [if_pos hblank, List.nil_append] at hrem
        obtain ⟨r, q, hr, hq, heq⟩ := ih _ hshort (s := ⟨s.line, s.used, rest⟩) hcall
          (hj.skip hlt hread hpart) ⟨hs.words, hs.used, hs.last⟩ rfl
        exact ⟨r, q, hr.call hstep, hq, by rw [hrem]; exact heq⟩
      · rw [if_neg hblank] at hrem
        have hu := words_append (b := uncomment chunk) hs.last
        by_cases hend : Continued (uncomment chunk)
        · have hno : hash ∉ chunk := fun h => hcomment h hend
          obtain ⟨length, hpos, hpart⟩ := partOf_joined hzero hblank hno hend
          rw [hpart] at hstep
          set text := ((uncomment chunk).rdropWhile blank).dropLast ++ [32]
          have htext : words blank text = words blank ((uncomment chunk).rdropWhile blank).dropLast :=
            words_append_right (by decide)
          have hnext : Holding ⟨s.line ++ text, s.used + length, rest⟩
              (some (acc.getD [] ++ words blank ((uncomment chunk).rdropWhile blank).dropLast)) := by
            refine ⟨?_, ?_, .inr ⟨s.line ++ ((uncomment chunk).rdropWhile blank).dropLast, 32,
              (List.append_assoc _ _ _).symm, rfl⟩⟩
            · change words blank (s.line ++ text) = _
              rw [words_append hs.last, hs.words, htext]
              rfl
            · change s.used + length ≠ 0 ↔ _
              simp only [Option.isSome_some, iff_true]
              omega
          have hj' := hj.join hlt hread hpart
          rw [← List.length_append] at hj'
          obtain ⟨r, q, hr, hq, heq⟩ := ih _ hshort (s := ⟨s.line ++ text, s.used + length, rest⟩) hcall
            hj' hnext rfl
          refine ⟨r, q, hr.call hstep, hq, ?_⟩
          rw [hrem, meaning, if_pos hend]
          exact heq
        · obtain ⟨length, hpos, hpart⟩ := partOf_last hzero hblank hend
          rw [hpart] at hstep
          dsimp only at hstep
          have hnext : Holding ⟨[], 0, rest⟩ none := ⟨rfl, by simp, .inl rfl⟩
          have hcall' : CallAt bufLen file rest := hcall.next hj hlt hread hpart
          obtain ⟨r, q, hr, hq, heq⟩ := ih _ hshort (s := ⟨[], 0, rest⟩) hcall' .start hnext rfl
          have hrest : Converges (fun n => readLines bufLen n rest) q := readLines_converges hr hq
          refine ⟨_, ((s.line ++ uncomment chunk) :: q.1, q.2), hone hstep, ?_, ?_⟩
          · obtain ⟨n, hn⟩ := hrest
            refine ⟨n, fun fuel hf => ?_⟩
            have hpos' : (0 : Int) < (s.used + length : ℕ) := by omega
            have hread' : readLines bufLen fuel rest = some q := hn fuel hf
            unfold afterLine
            rw [if_pos hpos']
            dsimp only
            rw [hread']
            rfl
          · have hlen : (s.line ++ uncomment chunk).length < bufLen := by
              have hle : (uncomment chunk).length ≤ chunk.length :=
                (List.takeWhile_prefix _).length_le
              rw [List.length_append]
              omega
            have hfits := fits_of_length hlen
            rw [hu, hs.words] at hfits
            rw [hrem, meaning, if_neg hend]
            change _ = joinLines bufLen acc ((words blank (uncomment chunk), false) :: remaining rest)
            rw [joinLines, if_pos hfits, List.map_cons, hu, hs.words, ← heq]

end

/-- **The lines of a tidy file are read as they are written**: without comments and blank lines, and
    with the continued ones joined. -/
theorem readsLines_of_tidy (bufLen : ℕ) (file : List UInt8) (htidy : TidyFile bufLen file) :
    ReadsLines bufLen file := by
  have hstart : Holding ⟨[], 0, file⟩ none := ⟨rfl, by simp, .inl rfl⟩
  obtain ⟨r, q, hr, hq, heq⟩ := reads_from htidy (s := ⟨[], 0, file⟩) .start .start hstart
  obtain ⟨n, hn⟩ := readLines_converges hr hq
  exact ⟨n, q.1, q.2, hn n le_rfl, heq⟩

/-- One line. -/
def shortLine : List UInt8 := [97, newline]

theorem shortLine_tidy : TidyFile 1024 shortLine := by
  have hread : fgets 1024 shortLine = some (shortLine, []) := by decide +kernel
  have hend : fgets 1024 [] = none := by decide +kernel
  have hpart : partOf shortLine = .last shortLine 2 := by decide +kernel
  have hplace : ∀ {t₀ : List UInt8} {k : ℕ} {t : List UInt8}, t₀ = shortLine ∨ t₀ = [] →
      Joined 1024 t₀ k t → k = 0 ∧ t = t₀ := by
    intro t₀ k t ht₀ hj
    induction hj with
    | start => exact ⟨rfl, rfl⟩
    | skip _ _ hread' hpart' ih =>
      obtain ⟨rfl, rfl⟩ := ih
      rcases ht₀ with rfl | rfl
      · obtain ⟨rfl, -⟩ := Prod.mk.inj (Option.some.inj (hread.symm.trans hread'))
        rw [hpart] at hpart'
        cases hpart'
      · cases hend.symm.trans hread'
    | join _ _ hread' hpart' ih =>
      obtain ⟨rfl, rfl⟩ := ih
      rcases ht₀ with rfl | rfl
      · obtain ⟨rfl, -⟩ := Prod.mk.inj (Option.some.inj (hread.symm.trans hread'))
        rw [hpart] at hpart'
        cases hpart'
      · cases hend.symm.trans hread'
  have hcall : ∀ {t₀ : List UInt8}, CallAt 1024 shortLine t₀ → t₀ = shortLine ∨ t₀ = [] := by
    intro t₀ h
    induction h with
    | start => exact .inl rfl
    | next _ hj _ hread' _ ih =>
      obtain ⟨rfl, rfl⟩ := hplace ih hj
      rcases ih with rfl | rfl
      · obtain ⟨-, rfl⟩ := Prod.mk.inj (Option.some.inj (hread.symm.trans hread'))
        exact .inr rfl
      · cases hend.symm.trans hread'
  intro t₀ k t ht₀ hj
  obtain ⟨rfl, rfl⟩ := hplace (hcall ht₀) hj
  refine ⟨by decide, fun chunk rest hread' => ?_⟩
  rcases hcall ht₀ with rfl | rfl
  · obtain ⟨rfl, rfl⟩ := Prod.mk.inj (Option.some.inj (hread.symm.trans hread'))
    exact ⟨.inr (.inl rfl), by decide +kernel, fun h => absurd h (by decide +kernel)⟩
  · cases hend.symm.trans hread'

theorem readsLines_of_tidy_shortLine : ReadsLines 1024 shortLine :=
  readsLines_of_tidy 1024 shortLine shortLine_tidy

/-! ## A comment that is cut -/

theorem assembleLoop_mono {bufLen n m : ℕ} {s : LineState} {r : Int × List UInt8 × List UInt8}
    (hnm : n ≤ m) (h : assembleLoop bufLen n s = some r) : assembleLoop bufLen m s = some r := by
  induction n generalizing m s with
  | zero => cases h
  | succ n ih =>
    obtain ⟨m, rfl⟩ : ∃ m', m = m' + 1 := ⟨m - 1, by omega⟩
    rw [assembleLoop] at h ⊢
    cases hstep : assembleStep bufLen s with
    | ret x line file =>
      rw [hstep] at h
      exact h
    | next s' =>
      rw [hstep] at h
      exact ih (Nat.le_of_succ_le_succ hnm) h

/-- The lines do not depend on the fuel. -/
theorem readLines_mono {bufLen n m : ℕ} {file : List UInt8} {q : List (List UInt8) × Bool}
    (hnm : n ≤ m) (h : readLines bufLen n file = some q) : readLines bufLen m file = some q := by
  induction n generalizing m file q with
  | zero => cases h
  | succ n ih =>
    obtain ⟨m, rfl⟩ : ∃ m', m = m' + 1 := ⟨m - 1, by omega⟩
    have hle := Nat.le_of_succ_le_succ hnm
    rw [readLines] at h ⊢
    obtain ⟨r, hr, hq⟩ := Option.bind_eq_some_iff.1 h
    have hr' : pamAssembleLine bufLen m file = some r := assembleLoop_mono hle hr
    rw [hr', Option.bind_some]
    split_ifs at hq ⊢ with hpos
    · obtain ⟨q', hq', rfl⟩ := Option.map_eq_some_iff.1 hq
      rw [ih hle hq']
      rfl
    · exact hq

/-- A comment of 1023 characters, and one more. -/
def longComment : List UInt8 := hash :: List.replicate 1022 97 ++ [98, newline]

/-- **The rest of a comment that has no room becomes a line.** -/
theorem longComment_cut : readLines 1024 4 longComment = some ([[98, newline]], true) ∧
    remaining longComment = [] ∧ ¬ ReadsLines 1024 longComment := by
  have hread : readLines 1024 4 longComment = some ([[98, newline]], true) := by decide +kernel
  have hrem : remaining longComment = [] := by decide +kernel
  refine ⟨hread, hrem, ?_⟩
  rintro ⟨n, lines, ok, hn, heq⟩
  have h := readLines_mono (Nat.le_max_left n 4) hn
  rw [readLines_mono (Nat.le_max_right n 4) hread] at h
  obtain ⟨rfl, rfl⟩ := Prod.mk.inj (Option.some.inj h)
  rw [hrem] at heq
  cases heq

end Pam
