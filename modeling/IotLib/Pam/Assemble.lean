/-
  Reading the configuration: `_pam_assemble_line` (`libpam/pam_handlers.c`), which joins the lines
  of a file in a buffer, and when it returns.

  The file is read in chunks of at most the room that is left in the buffer.
-/
import Mathlib

namespace Pam

/-! ## The loop -/

/-- The white space of a line. -/
def blank (c : UInt8) : Bool := c == 32 || c == 10 || c == 9

def newline : UInt8 := 10

def hash : UInt8 := 35

def backslash : UInt8 := 92

/-- Up to `n` bytes of the file, not beyond the end of the line, and what is left of the file. -/
def readChunk : ℕ → List UInt8 → List UInt8 × List UInt8
  | 0, file => ([], file)
  | _ + 1, [] => ([], [])
  | n + 1, c :: file =>
    if c = newline then ([c], file) else (c :: (readChunk n file).1, (readChunk n file).2)

/-- `fgets` with room for `n` bytes, one of them for the terminating zero. With room for no other
    byte it stores an empty string, at the end of the file too. -/
def fgets (n : ℕ) (file : List UInt8) : Option (List UInt8 × List UInt8) :=
  if n ≤ 1 then some ([], file)
  else if file = [] then none
  else some (readChunk (n - 1) file)

/-- What is made of a chunk: nothing; the last part of a line; a part that is joined with the next
    one. With the text that stays in the buffer, and the length of it without leading blanks. -/
inductive Part where
  | skip
  | last (text : List UInt8) (length : ℕ)
  | joined (text : List UInt8) (length : ℕ)
deriving DecidableEq

/-- The body of the loop, from the chunk that is read. -/
def partOf (chunk : List UInt8) : Part :=
  let str := chunk.takeWhile (· ≠ 0)
  let os := str.dropWhile blank
  if os = [] ∨ os.head? = some hash then .skip
  else if hash ∈ os then
    .last (str.takeWhile (· ≠ hash)) (os.takeWhile (· ≠ hash)).length
  else if (os.rdropWhile blank).getLast? = some backslash then
    .joined ((str.rdropWhile blank).dropLast ++ [32]) (os.rdropWhile blank).length
  else .last str os.length

/-- The variables of the loop: the buffer up to `p`, `used`, and what is left of the file. -/
structure LineState where
  line : List UInt8
  used : ℕ
  file : List UInt8

/-- A turn of the loop returns, with the line in the buffer, or goes on. -/
inductive LineStep where
  | ret (x : Int) (line file : List UInt8)
  | next (s : LineState)

/-- A turn of the loop. -/
def assembleStep (bufLen : ℕ) (s : LineState) : LineStep :=
  if bufLen ≤ s.line.length then .ret (-1) s.line s.file
  else
    match fgets (bufLen - s.line.length) s.file with
    | none => .ret (if s.used ≠ 0 then -1 else 0) s.line s.file
    | some (chunk, file) =>
      match partOf chunk with
      | .skip => .next ⟨s.line, s.used, file⟩
      | .last text length => .ret (s.used + length : ℕ) (s.line ++ text) file
      | .joined text length => .next ⟨s.line ++ text, s.used + length, file⟩

/-- The loop of `_pam_assemble_line`, with fuel for its turns. -/
def assembleLoop (bufLen : ℕ) : ℕ → LineState → Option (Int × List UInt8 × List UInt8)
  | 0, _ => none
  | n + 1, s =>
    match assembleStep bufLen s with
    | .ret x line file => some (x, line, file)
    | .next s => assembleLoop bufLen n s

/-- `_pam_assemble_line`: what is returned, the line in the buffer, and what is left of the file. -/
def pamAssembleLine (bufLen n : ℕ) (file : List UInt8) : Option (Int × List UInt8 × List UInt8) :=
  assembleLoop bufLen n ⟨[], 0, file⟩

/-! ## When it returns -/

/-- The file starts with chunks that are skipped or joined; the joined ones take up `k` bytes of the
    buffer, and `rest` is behind them. -/
inductive Joined (bufLen : ℕ) (file : List UInt8) : ℕ → List UInt8 → Prop
  | start : Joined bufLen file 0 file
  | skip {k : ℕ} {t chunk rest : List UInt8} (h : Joined bufLen file k t) (hlt : k < bufLen)
      (hread : fgets (bufLen - k) t = some (chunk, rest)) (hpart : partOf chunk = .skip) :
      Joined bufLen file k rest
  | join {k length : ℕ} {t chunk rest text : List UInt8} (h : Joined bufLen file k t)
      (hlt : k < bufLen) (hread : fgets (bufLen - k) t = some (chunk, rest))
      (hpart : partOf chunk = .joined text length) : Joined bufLen file (k + text.length) rest

section
variable {bufLen n : ℕ} {file : List UInt8}

section
-- the equations of these definitions, which the lemmas below rewrite with
attribute [local simp] assembleLoop assembleStep fgets pamAssembleLine readChunk
end

theorem readChunk_length (n : ℕ) (file : List UInt8) :
    (readChunk n file).1.length + (readChunk n file).2.length = file.length := by
  induction n generalizing file with
  | zero => exact Nat.zero_add _
  | succ n ih =>
    cases file with
    | nil => rfl
    | cons c file =>
      rw [readChunk]
      split_ifs with hc
      · simp only [List.length_cons, List.length_nil]
        omega
      · have h := ih file
        simp only [List.length_cons]
        omega

theorem readChunk_ne_nil (hn : 0 < n) (hfile : file ≠ []) : (readChunk n file).1 ≠ [] := by
  obtain ⟨n, rfl⟩ : ∃ m, n = m + 1 := ⟨n - 1, by omega⟩
  cases file with
  | nil => exact (hfile rfl).elim
  | cons c file =>
    rw [readChunk]
    split_ifs <;> exact List.cons_ne_nil _ _

/-- A read with room for a byte takes one from the file. -/
theorem fgets_shorter {chunk rest : List UInt8} (hn : 1 < n) (h : fgets n file = some (chunk, rest)) :
    rest.length < file.length := by
  unfold fgets at h
  rw [if_neg (by omega)] at h
  split_ifs at h with hfile
  have hlen := readChunk_length (n - 1) file
  have hpos := List.length_pos_of_ne_nil (readChunk_ne_nil (n := n - 1) (by omega) hfile)
  rw [Option.some.inj h] at hlen hpos
  dsimp only at hlen hpos
  omega

/-- The loop goes on from a state with these bytes in the buffer. -/
theorem Joined.loop {k : ℕ} {t : List UInt8} (h : Joined bufLen file k t) :
    ∃ line used, line.length = k ∧ ∀ n, (pamAssembleLine bufLen n file).isSome →
      ∃ n', (assembleLoop bufLen n' ⟨line, used, t⟩).isSome := by
  induction h with
  | start => exact ⟨[], 0, rfl, fun n hn => ⟨n, hn⟩⟩
  | @skip k t chunk rest _ hlt hread hpart ih =>
    obtain ⟨line, used, rfl, hgo⟩ := ih
    refine ⟨line, used, rfl, fun n hn => ?_⟩
    obtain ⟨m, hm⟩ := hgo n hn
    cases m with
    | zero => cases hm
    | succ m =>
      refine ⟨m, ?_⟩
      rw [assembleLoop, assembleStep, if_neg (by exact hlt.not_ge), hread] at hm
      dsimp only at hm
      rw [hpart] at hm
      exact hm
  | @join k length t chunk rest text _ hlt hread hpart ih =>
    obtain ⟨line, used, rfl, hgo⟩ := ih
    refine ⟨line ++ text, used + length, List.length_append, fun n hn => ?_⟩
    obtain ⟨m, hm⟩ := hgo n hn
    cases m with
    | zero => cases hm
    | succ m =>
      refine ⟨m, ?_⟩
      rw [assembleLoop, assembleStep, if_neg (by exact hlt.not_ge), hread] at hm
      dsimp only at hm
      rw [hpart] at hm
      exact hm

/-- With no room for a byte the loop does not get on. -/
theorem assembleLoop_stuck {s : LineState} (hs : s.line.length + 1 = bufLen) :
    assembleLoop bufLen n s = none := by
  induction n with
  | zero => rfl
  | succ n ih =>
    have hread : fgets (bufLen - s.line.length) s.file = some ([], s.file) := by
      unfold fgets
      rw [if_pos (by omega)]
    have hskip : partOf [] = .skip := rfl
    rw [assembleLoop, assembleStep, if_neg (by omega), hread]
    dsimp only
    rw [hskip]
    exact ih

/-- Each turn takes a byte from the file, as long as there is room for it. -/
theorem assembleLoop_returns (hroom : ∀ k t, Joined bufLen file k t → k + 1 ≠ bufLen) (s : LineState)
    (hs : Joined bufLen file s.line.length s.file) : ∃ n, (assembleLoop bufLen n s).isSome := by
  induction hlen : s.file.length using Nat.strong_induction_on generalizing s with
  | _ m ih =>
    subst hlen
    cases hstep : assembleStep bufLen s with
    | ret x line rest => exact ⟨1, by rw [assembleLoop, hstep]; rfl⟩
    | next s' =>
      have hnext : s'.file.length < s.file.length ∧ Joined bufLen file s'.line.length s'.file := by
        have hne := hroom _ _ hs
        have hlt : s.line.length < bufLen := by
          by_contra hover
          rw [assembleStep, if_pos (Nat.le_of_not_lt hover)] at hstep
          cases hstep
        rw [assembleStep, if_neg hlt.not_ge] at hstep
        cases hread : fgets (bufLen - s.line.length) s.file with
        | none => rw [hread] at hstep; cases hstep
        | some p =>
          obtain ⟨chunk, rest⟩ := p
          have hshort := fgets_shorter (by omega) hread
          rw [hread] at hstep
          dsimp only at hstep
          cases hpart : partOf chunk with
          | skip =>
            rw [hpart] at hstep
            obtain rfl := LineStep.next.inj hstep
            exact ⟨hshort, hs.skip hlt hread hpart⟩
          | last text length => rw [hpart] at hstep; cases hstep
          | joined text length =>
            rw [hpart] at hstep
            obtain rfl := LineStep.next.inj hstep
            refine ⟨hshort, ?_⟩
            rw [List.length_append]
            exact hs.join hlt hread hpart
      obtain ⟨n, hn⟩ := ih _ hnext.1 s' hnext.2 rfl
      exact ⟨n + 1, by rw [assembleLoop, hstep]; exact hn⟩

end

/-- **`_pam_assemble_line` returns iff a byte of the buffer is left** behind the parts that are
    joined: never may a backslash be the last byte that has room in the buffer. -/
theorem pamAssembleLine_returns_iff (bufLen : ℕ) (file : List UInt8) :
    (∃ n r, pamAssembleLine bufLen n file = some r) ↔
      ∀ k t, Joined bufLen file k t → k + 1 ≠ bufLen := by
  simp only [← Option.isSome_iff_exists]
  constructor
  · rintro ⟨n, hn⟩ k t hjoined hfull
    obtain ⟨line, used, rfl, hgo⟩ := hjoined.loop
    obtain ⟨n', hn'⟩ := hgo n hn
    rw [assembleLoop_stuck hfull] at hn'
    cases hn'
  · intro hroom
    exact assembleLoop_returns hroom ⟨[], 0, file⟩ .start

/-- A line of 1022 characters and a backslash. -/
def fullLine : List UInt8 := List.replicate 1022 97 ++ [backslash, newline]

/-- **A backslash in the last place of the buffer is never left behind.** -/
theorem assemble_fullLine : ¬ ∃ n r, pamAssembleLine 1024 n fullLine = some r := by
  have hread : fgets 1024 fullLine = some (List.replicate 1022 97 ++ [backslash], [newline]) := by
    decide +kernel
  have hpart : partOf (List.replicate 1022 97 ++ [backslash]) =
      .joined (List.replicate 1022 97 ++ [32]) 1023 := by
    decide +kernel
  have hnone : ∀ n, pamAssembleLine 1024 n fullLine = none := by
    intro n
    cases n with
    | zero => rfl
    | succ n =>
      unfold pamAssembleLine
      rw [assembleLoop, assembleStep, if_neg (by decide)]
      dsimp only [List.length_nil]
      rw [hread]
      dsimp only
      rw [hpart]
      have hlen : ([] ++ (List.replicate 1022 (97 : UInt8) ++ [32])).length + 1 = 1024 := by
        rw [List.nil_append, List.length_append, List.length_replicate, List.length_singleton]
      exact assembleLoop_stuck hlen
  rintro ⟨n, r, hr⟩
  rw [hnone] at hr
  cases hr

end Pam
