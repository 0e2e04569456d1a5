/-
  Base64 text: what is written, what is read back, and which texts are accepted.
-/
import IotLib.Lib.Forall
import IotLib.Lib.Sextet

namespace Base64

open Sextet

abbrev Bytes := List UInt8

/-- `Base64`. -/
def base64 : Bytes :=
  "ABCDEFGHIJKLMNOPQRSTUVWXYZabcdefghijklmnopqrstuvwxyz0123456789+/".toList.map
    fun c => UInt8.ofNat c.toNat

/-- `Pad64`. -/
def pad64 : UInt8 := 61

def isspace (ch : UInt8) : Bool := (9 ≤ ch && ch ≤ 13) || ch == 32

/-- How a call ends: by a failed assertion, by an error, or with a length and the target. -/
inductive Outcome where
  | abort
  | error
  | done (length : ℕ) (target : Bytes)

/-- What the caller gets: the length, a `size_t`, is converted to an `int`. -/
def Outcome.value : Outcome → Option ℤ
  | .abort => none
  | .error => some (-1)
  | .done length _ => some ((length : ℤ).bmod (2 ^ 32))

/-- The bytes stored at the target, up to the length. -/
def Outcome.stored : Outcome → Bytes
  | .done length target => target.take length
  | _ => []

/-- The call returns, and not with -1. -/
def Outcome.Succeeds (o : Outcome) : Prop := ∃ value, o.value = some value ∧ value ≠ -1

/-! ## Encoding -/

/-- The character of a group of six bits. -/
def char (d : ℕ) : UInt8 := base64.getD d 0

/-- `target[pos++] = ...`, for some bytes. -/
def store (target : Bytes) (pos : ℕ) : Bytes → Bytes
  | [] => target
  | b :: bs => store (target.set pos b) (pos + 1) bs

/-- The end of `b64_encode`, where the text is terminated. -/
def encodeEnd (target : Bytes) (datalength : ℕ) : Outcome :=
  if datalength ≥ target.length then .error else .done datalength (target.set datalength 0)

/-- `b64_encode` behind the loop, where less than three bytes are left. -/
def encodeTail (src target : Bytes) (datalength : ℕ) : Outcome :=
  if src.length = 0 then encodeEnd target datalength
  else
    let input0 := (src.getD 0 0).toNat
    let input1 := (src.getD 1 0).toNat
    let input2 := 0
    let output0 := input0 >>> 2
    let output1 := ((input0 &&& 0x03) <<< 4) + (input1 >>> 4)
    let output2 := ((input1 &&& 0x0f) <<< 2) + (input2 >>> 6)
    if datalength + 4 > target.length then .error
    else
      encodeEnd (store target datalength
        [char output0, char output1, if src.length = 1 then pad64 else char output2, pad64])
        (datalength + 4)

/-- The loop of `b64_encode`. -/
def encodeLoop : Bytes → Bytes → ℕ → Outcome
  | input0 :: input1 :: input2 :: src, target, datalength =>
    let output0 := input0.toNat >>> 2
    let output1 := ((input0.toNat &&& 0x03) <<< 4) + (input1.toNat >>> 4)
    let output2 := ((input1.toNat &&& 0x0f) <<< 2) + (input2.toNat >>> 6)
    let output3 := input2.toNat &&& 0x3f
    if datalength + 4 > target.length then .error
    else
      encodeLoop src (store target datalength
        [char output0, char output1, char output2, char output3]) (datalength + 4)
  | src, target, datalength => encodeTail src target datalength

/-- `b64_encode`; the size of the target is its length. -/
def b64Encode (src target : Bytes) : Outcome :=
  if target.length = 0 then .abort else encodeLoop src target 0

/-! ## Decoding -/

/-- The variables of `b64_decode`. -/
structure Decoder where
  state : ℕ
  tarindex : ℕ
  target : Bytes

/-- `strchr(Base64, ch) - Base64`. -/
def position (ch : UInt8) : Option ℕ := if ch ∈ base64 then some (base64.idxOf ch) else none

/-- The low bits of a group go to the next byte, if there is one; else they have to be zero. -/
def carry (s : Decoder) (nextbyte : UInt8) (state : ℕ) : Option Decoder :=
  if s.tarindex + 1 < s.target.length then
    some ⟨state, s.tarindex + 1, s.target.set (s.tarindex + 1) nextbyte⟩
  else if nextbyte ≠ 0 then none
  else some ⟨state, s.tarindex + 1, s.target⟩

/-- `target[tarindex] |= b`. -/
def orByte (s : Decoder) (b : UInt8) : Decoder :=
  { s with target := s.target.modify s.tarindex (· ||| b) }

/-- The switch of `b64_decode`. -/
def decodeDigit (pos : ℕ) (s : Decoder) : Option Decoder :=
  match s.state with
  | 0 =>
    if s.tarindex ≥ s.target.length then none
    else some ⟨1, s.tarindex, s.target.set s.tarindex (UInt8.ofNat (pos <<< 2))⟩
  | 1 =>
    if s.tarindex ≥ s.target.length then none
    else carry (orByte s (UInt8.ofNat (pos >>> 4))) (UInt8.ofNat ((pos &&& 0x0f) <<< 4)) 2
  | 2 =>
    if s.tarindex ≥ s.target.length then none
    else carry (orByte s (UInt8.ofNat (pos >>> 2))) (UInt8.ofNat ((pos &&& 0x03) <<< 6)) 3
  | _ =>
    if s.tarindex ≥ s.target.length then none
    else some ⟨0, s.tarindex + 1, (orByte s (UInt8.ofNat pos)).target⟩

/-- The end of `b64_decode`, where the bytes are terminated if there is room. -/
def decodeDone (s : Decoder) : Outcome :=
  .done s.tarindex (if s.tarindex < s.target.length then s.target.set s.tarindex 0 else s.target)

/-- Only white space may follow the padding, and the extra bits have to be zero. -/
def decodePadded (src : Bytes) (s : Decoder) : Outcome :=
  if (src.takeWhile (· ≠ 0)).all isspace then
    if s.tarindex < s.target.length ∧ s.target.getD s.tarindex 0 ≠ 0 then .error
    else decodeDone s
  else .error

/-- `b64_decode` behind the loop, for the character that the loop stopped at. -/
def decodeEnd (ch : UInt8) (src : Bytes) (s : Decoder) : Outcome :=
  if ch = pad64 then
    match s.state with
    | 0 => .error
    | 1 => .error
    | 2 =>
      match src.dropWhile isspace with
      | ch :: src => if ch ≠ pad64 then .error else decodePadded src s
      | [] => .error
    | _ => decodePadded src s
  else if s.state ≠ 0 then .error
  else decodeDone s

/-- The loop of `b64_decode`; a string ends at its first NUL or at the end of the list. -/
def decodeLoop : Bytes → Decoder → Outcome
  | [], s => decodeEnd 0 [] s
  | ch :: src, s =>
    if ch = 0 then decodeEnd ch src s
    else if isspace ch then decodeLoop src s
    else if ch = pad64 then decodeEnd ch src s
    else
      match position ch with
      | none => .error
      | some pos =>
        match decodeDigit pos s with
        | none => .error
        | some s => decodeLoop src s

/-- `b64_decode`; the size of the target is its length. -/
def b64Decode (src target : Bytes) : Outcome :=
  if target.length = 0 then .abort else decodeLoop src ⟨0, 0, target⟩

section
-- the equations of these definitions, which the lemmas below rewrite with
attribute [local simp] char store encodeEnd encodeTail encodeLoop b64Encode position carry orByte
  decodeDigit decodeDone decodePadded decodeEnd decodeLoop b64Decode isspace
end

/-! ## The alphabet -/

theorem base64_length : base64.length = 64 := by decide

theorem base64_mem (ch : UInt8) (h : ch ∈ base64) :
    ch ≠ 0 ∧ isspace ch = false ∧ ch ≠ pad64 := by
  have hall : ∀ ch ∈ base64, ch ≠ 0 ∧ isspace ch = false ∧ ch ≠ pad64 := by decide
  exact hall ch h

theorem char_mem {d : ℕ} (h : d < 64) : char d ∈ base64 := by
  have hlen : d < base64.length := by rwa [base64_length]
  rw [char, List.getD_eq_getElem _ _ hlen]
  exact List.getElem_mem hlen

/-- Each character stands once in the alphabet. -/
theorem position_char {d : ℕ} (h : d < 64) : position (char d) = some d := by
  have hlen : d < base64.length := by rwa [base64_length]
  have hnodup : base64.Nodup := by decide
  rw [position, if_pos (char_mem h), char, List.getD_eq_getElem _ _ hlen,
    hnodup.idxOf_getElem d hlen]

variable {ch : UInt8}

theorem position_some {d : ℕ} (h : position ch = some d) : d < 64 ∧ char d = ch := by
  unfold position at h
  split at h
  · rename_i hmem
    cases h
    have hlt := List.idxOf_lt_length_of_mem hmem
    refine ⟨by rwa [base64_length] at hlt, ?_⟩
    rw [char, List.getD_eq_getElem _ _ hlt, List.getElem_idxOf hlt]
  · cases h

theorem position_none (h : position ch = none) : ch ∉ base64 := by
  unfold position at h
  split at h
  · cases h
  · assumption

/-! ## What is written -/

/-- The Base64 text of some bytes. -/
def text (src : Bytes) : Bytes :=
  (digits src).map char ++ List.replicate ((3 - src.length % 3) % 3) pad64

theorem text_length (src : Bytes) : (text src).length = 4 * ((src.length + 2) / 3) := by
  rw [text, List.length_append, List.length_map, digits_length, List.length_replicate]
  omega

theorem text_cons (a b c : UInt8) (src : Bytes) :
    text (a :: b :: c :: src) =
      [char (a.toNat / 4), char (a.toNat % 4 * 16 + b.toNat / 16),
        char (b.toNat % 16 * 4 + c.toNat / 64), char (c.toNat % 64)] ++ text src := by
  have hlen : (a :: b :: c :: src).length % 3 = src.length % 3 := by
    simp only [List.length_cons]
    omega
  rw [text, hlen, digits, text]
  rfl

theorem and_three (n : ℕ) : n &&& 0x03 = n % 4 := Nat.and_two_pow_sub_one_eq_mod n 2

theorem and_fifteen (n : ℕ) : n &&& 0x0f = n % 16 := Nat.and_two_pow_sub_one_eq_mod n 4

theorem and_sixtyThree (n : ℕ) : n &&& 0x3f = n % 64 := Nat.and_two_pow_sub_one_eq_mod n 6

/-- Bytes are stored in place of the first ones behind a position. -/
theorem store_append (A R bs : Bytes) (h : bs.length ≤ R.length) :
    store (A ++ R) A.length bs = A ++ bs ++ R.drop bs.length := by
  induction bs generalizing A R with
  | nil => simp [store]
  | cons b bs ih =>
    cases R with
    | nil => simp at h
    | cons r R =>
      have hset : (A ++ r :: R).set A.length b = (A ++ [b]) ++ R := by simp
      have hnext := ih (A ++ [b]) R (by simpa using h)
      rw [List.length_append, List.length_singleton] at hnext
      rw [store, hset, hnext]
      simp

/-- What is written into the rest of a target. -/
def written (A R bs : Bytes) : Outcome :=
  if bs.length < R.length then
    .done (A.length + bs.length) (A ++ bs ++ 0 :: R.drop (bs.length + 1))
  else .error

theorem encodeEnd_append (A R : Bytes) : encodeEnd (A ++ R) A.length = written A R [] := by
  cases R with
  | nil => simp [encodeEnd, written]
  | cons r R => simp [encodeEnd, written]

/-- A group of four characters is written in front of the rest. -/
theorem written_append {A R bs : Bytes} (cs : Bytes) (h : bs.length ≤ R.length) :
    written (A ++ bs) (R.drop bs.length) cs = written A R (bs ++ cs) := by
  unfold written
  rw [List.length_drop, List.length_append, List.length_append]
  by_cases hfit : bs.length + cs.length < R.length
  · rw [if_pos (by omega), if_pos hfit, List.drop_drop, Nat.add_assoc, Nat.add_assoc,
      List.append_assoc A bs cs]
  · rw [if_neg (by omega), if_neg hfit]

theorem written_error {A R bs : Bytes} (h : R.length ≤ bs.length) : written A R bs = .error :=
  if_neg (by omega)

/-- The last group is written, if there is room for it. -/
theorem encodeEnd_store (A R bs : Bytes) (hbs : bs.length = 4) :
    (if A.length + 4 > (A ++ R).length then Outcome.error
      else encodeEnd (store (A ++ R) A.length bs) (A.length + 4)) = written A R bs := by
  rw [List.length_append]
  by_cases hfit : R.length < 4
  · rw [if_pos (by omega), written_error (by omega)]
  · have hlen : A.length + 4 = (A ++ bs).length := by rw [List.length_append, hbs]
    rw [if_neg (by omega), store_append A R bs (by omega), hlen, encodeEnd_append,
      written_append [] (by omega), List.append_nil]

/-- The text of the bytes that are left is written behind what has been written. -/
theorem encodeLoop_append (src A R : Bytes) :
    encodeLoop src (A ++ R) A.length = written A R (text src) := by
  induction src using digits.induct generalizing A R with
  | case1 => exact encodeEnd_append A R
  | case2 a =>
    have h := encodeEnd_store A R (text [a]) (by simp [text_length])
    simpa [encodeLoop, encodeTail, text, digits, and_three, Nat.shiftRight_eq_div_pow,
      Nat.shiftLeft_eq] using h
  | case3 a b =>
    have h := encodeEnd_store A R (text [a, b]) (by simp [text_length])
    simpa [encodeLoop, encodeTail, text, digits, and_three, and_fifteen,
      Nat.shiftRight_eq_div_pow, Nat.shiftLeft_eq] using h
  | case4 a b c src ih =>
    rw [encodeLoop, text_cons, List.length_append]
    simp only [and_three, and_fifteen, and_sixtyThree, Nat.shiftRight_eq_div_pow, Nat.shiftLeft_eq]
    by_cases hfit : R.length < 4
    · rw [if_pos (by omega), written_error (by simp; omega)]
    · rw [if_neg (by omega), store_append A R _ (by simpa using hfit)]
      have hnext := ih (A ++ [char (a.toNat / 4), char (a.toNat % 4 * 16 + b.toNat / 16),
        char (b.toNat % 16 * 4 + c.toNat / 64), char (c.toNat % 64)]) (R.drop 4)
      rw [List.length_append] at hnext
      exact hnext.trans (written_append (text src) (by simpa using hfit))

/-- **What is written**: the text, if it and its terminator fit. -/
theorem b64Encode_eq (src target : Bytes) :
    b64Encode src target = if target.length = 0 then .abort else written [] target (text src) := by
  unfold b64Encode
  split
  · rfl
  · exact encodeLoop_append src [] target

/-! ## White space -/

/-- A string with its white space removed. -/
def strip (str : Bytes) : Bytes := str.filter fun ch => !isspace ch

theorem strip_space (h : isspace ch = true) (str : Bytes) :
    strip (ch :: str) = strip str := by
  simp [strip, h]

theorem strip_cons (h : isspace ch = false) (str : Bytes) :
    strip (ch :: str) = ch :: strip str := by
  simp [strip, h]

variable {str : Bytes}

theorem not_mem_strip (h : 0 ∉ str) : 0 ∉ strip str := by
  intro hmem
  exact h (List.mem_of_mem_filter hmem)

/-- What is in front of the first NUL, for a string without one. -/
theorem takeWhile_string (h : 0 ∉ str) : str.takeWhile (· ≠ 0) = str := by
  rw [List.takeWhile_eq_self_iff]
  intro ch hch
  simpa using ne_of_mem_of_not_mem hch h

theorem all_isspace_strip (str : Bytes) : (strip str).all isspace = str.all isspace := by
  induction str with
  | nil => rfl
  | cons ch str ih =>
    cases hch : isspace ch with
    | true => rw [strip_space hch, List.all_cons, ih, hch, Bool.true_and]
    | false => rw [strip_cons hch, List.all_cons, List.all_cons, hch, Bool.false_and, Bool.false_and]

theorem decodePadded_strip (h : 0 ∉ str) (s : Decoder) :
    decodePadded (strip str) s = decodePadded str s := by
  unfold decodePadded
  rw [takeWhile_string h, takeWhile_string (not_mem_strip h), all_isspace_strip]

/-- The first character behind white space is that of the stripped string. -/
theorem dropWhile_strip (str : Bytes) :
    (strip str).dropWhile isspace = strip (str.dropWhile isspace) ∧
      (str.dropWhile isspace = [] ∨
        ∃ ch rest, str.dropWhile isspace = ch :: rest ∧ isspace ch = false ∧ rest ⊆ str) := by
  induction str with
  | nil => exact ⟨rfl, Or.inl rfl⟩
  | cons ch str ih =>
    cases hch : isspace ch with
    | true =>
      rw [strip_space hch, List.dropWhile_cons_of_pos hch]
      refine ⟨ih.1, ih.2.imp_right ?_⟩
      rintro ⟨c, rest, hc, hs, hsub⟩
      exact ⟨c, rest, hc, hs, List.Subset.trans hsub (List.subset_cons_self ch str)⟩
    | false =>
      rw [List.dropWhile_cons_of_neg (by simp [hch]), strip_cons hch,
        List.dropWhile_cons_of_neg (by simp [hch])]
      exact ⟨rfl, Or.inr ⟨ch, str, rfl, hch, List.subset_cons_self ch str⟩⟩

theorem decodeEnd_strip (h : 0 ∉ str) (ch : UInt8) (s : Decoder) :
    decodeEnd ch (strip str) s = decodeEnd ch str s := by
  obtain ⟨hdrop, hnil | ⟨c, rest, hc, hs, hsub⟩⟩ := dropWhile_strip str
  · unfold decodeEnd
    rw [hdrop, hnil, decodePadded_strip h]
    rfl
  · have hrest : 0 ∉ rest := fun hmem => h (hsub hmem)
    unfold decodeEnd
    rw [hdrop, hc, strip_cons hs]
    simp only [decodePadded_strip h, decodePadded_strip hrest]

/-- White space does not count, wherever it stands. -/
theorem decodeLoop_strip (h : 0 ∉ str) (s : Decoder) :
    decodeLoop (strip str) s = decodeLoop str s := by
  induction str generalizing s with
  | nil => rfl
  | cons ch str ih =>
    have hrest : 0 ∉ str := fun hmem => h (List.mem_cons_of_mem ch hmem)
    cases hch : isspace ch with
    | true =>
      have hne : ch ≠ 0 := by
        rintro rfl
        exact h List.mem_cons_self
      rw [strip_space hch, decodeLoop, if_neg hne, if_pos hch]
      exact ih hrest s
    | false =>
      rw [strip_cons hch, decodeLoop, decodeLoop, decodeEnd_strip hrest]
      simp only [ih hrest]

/-! ## What is read -/

/-- The groups of six bits one after another. -/
def decodeDigits : List ℕ → Decoder → Option Decoder
  | [], s => some s
  | d :: ds, s => (decodeDigit d s).bind (decodeDigits ds)

/-- The loop on characters of the alphabet. -/
theorem decodeLoop_digits {ds : List ℕ} (h : ∀ d ∈ ds, d < 64) (tail : Bytes) (s : Decoder) :
    decodeLoop (ds.map char ++ tail) s =
      match decodeDigits ds s with
      | none => .error
      | some s => decodeLoop tail s := by
  induction ds generalizing s with
  | nil => rfl
  | cons d ds ih =>
    have hd := h d List.mem_cons_self
    obtain ⟨h0, hspace, hpad⟩ := base64_mem _ (char_mem hd)
    rw [List.map_cons, List.cons_append, decodeLoop, if_neg h0, hspace, if_neg Bool.false_ne_true,
      if_neg hpad, position_char hd, decodeDigits]
    dsimp only
    cases decodeDigit d s with
    | none => rfl
    | some s' => exact ih (fun x hx => h x (List.mem_cons_of_mem d hx)) s'

/-- The byte made of two parts that do not overlap. -/
theorem or_parts {x y i : ℕ} (h : y < 2 ^ i) :
    UInt8.ofNat (x <<< i) ||| UInt8.ofNat y = UInt8.ofNat (x * 2 ^ i + y) := by
  rw [← UInt8.ofNat_or, ← Nat.shiftLeft_add_eq_or_of_lt h, Nat.shiftLeft_eq]

theorem or_first {a b : ℕ} (hb : b < 64) :
    UInt8.ofNat (a <<< 2) ||| UInt8.ofNat (b >>> 4) = UInt8.ofNat (4 * a + b / 16) := by
  rw [Nat.shiftRight_eq_div_pow, or_parts (by omega), Nat.mul_comm]
  rfl

theorem or_second {b c : ℕ} (hc : c < 64) :
    UInt8.ofNat ((b &&& 0x0f) <<< 4) ||| UInt8.ofNat (c >>> 2) =
      UInt8.ofNat (b % 16 * 16 + c / 4) := by
  rw [and_fifteen, Nat.shiftRight_eq_div_pow, or_parts (by omega)]
  rfl

theorem or_third {c d : ℕ} (hd : d < 64) :
    UInt8.ofNat ((c &&& 0x03) <<< 6) ||| UInt8.ofNat d = UInt8.ofNat (c % 4 * 64 + d) := by
  rw [and_three, or_parts hd]
  rfl

/-- The bits carried over are zero if none are left over. -/
theorem carry_second_eq_zero (b : ℕ) : UInt8.ofNat ((b &&& 0x0f) <<< 4) = 0 ↔ b % 16 = 0 := by
  rw [and_fifteen, Nat.shiftLeft_eq, ← UInt8.toNat_inj, UInt8.toNat_ofNat']
  show b % 16 * 2 ^ 4 % 2 ^ 8 = 0 ↔ _
  omega

theorem carry_third_eq_zero (c : ℕ) : UInt8.ofNat ((c &&& 0x03) <<< 6) = 0 ↔ c % 4 = 0 := by
  rw [and_three, Nat.shiftLeft_eq, ← UInt8.toNat_inj, UInt8.toNat_ofNat']
  show c % 4 * 2 ^ 6 % 2 ^ 8 = 0 ↔ _
  omega

section
variable {A R : Bytes} {a b c d : ℕ}

/-- The rest of a target with bits carried over to it. -/
def carried (nextbyte : UInt8) : Bytes → Option Bytes
  | [] => if nextbyte ≠ 0 then none else some []
  | _ :: R => some (nextbyte :: R)

theorem carry_append (state : ℕ) (x nextbyte : UInt8) (next : ℕ) :
    carry ⟨state, A.length, A ++ x :: R⟩ nextbyte next =
      (carried nextbyte R).map fun R => ⟨next, (A ++ [x]).length, (A ++ [x]) ++ R⟩ := by
  cases R with
  | nil =>
    by_cases h : nextbyte = 0
    · simp [carry, carried, h]
    · simp [carry, carried, h]
  | cons y R => simp [carry, carried]

theorem orByte_append (state : ℕ) (x b : UInt8) :
    orByte ⟨state, A.length, A ++ x :: R⟩ b = ⟨state, A.length, A ++ (x ||| b) :: R⟩ := by
  have hmod : (A ++ x :: R).modify A.length (· ||| b) = A ++ (x ||| b) :: R := by
    induction A with
    | nil => rfl
    | cons y A ih => exact congrArg (List.cons y) ih
  rw [orByte, hmod]

/-- A full target takes no more digits. -/
theorem decodeDigit_full (state : ℕ) : decodeDigit d ⟨state, A.length, A⟩ = none := by
  unfold decodeDigit
  split <;> exact if_pos (le_refl A.length)

theorem decodeDigit_first (r : UInt8) :
    decodeDigit a ⟨0, A.length, A ++ r :: R⟩ =
      some ⟨1, A.length, A ++ UInt8.ofNat (a <<< 2) :: R⟩ := by
  simp [decodeDigit]

theorem decodeDigit_second (hb : b < 64) :
    decodeDigit b ⟨1, A.length, A ++ UInt8.ofNat (a <<< 2) :: R⟩ =
      (carried (UInt8.ofNat ((b &&& 0x0f) <<< 4)) R).map fun R =>
        ⟨2, (A ++ [UInt8.ofNat (4 * a + b / 16)]).length,
          (A ++ [UInt8.ofNat (4 * a + b / 16)]) ++ R⟩ := by
  have hlt : ¬ A.length ≥ (A ++ UInt8.ofNat (a <<< 2) :: R).length := by simp
  refine (if_neg hlt).trans ?_
  rw [orByte_append, or_first hb, carry_append]

theorem decodeDigit_third (hc : c < 64) :
    decodeDigit c ⟨2, A.length, A ++ UInt8.ofNat ((b &&& 0x0f) <<< 4) :: R⟩ =
      (carried (UInt8.ofNat ((c &&& 0x03) <<< 6)) R).map fun R =>
        ⟨3, (A ++ [UInt8.ofNat (b % 16 * 16 + c / 4)]).length,
          (A ++ [UInt8.ofNat (b % 16 * 16 + c / 4)]) ++ R⟩ := by
  have hlt : ¬ A.length ≥ (A ++ UInt8.ofNat ((b &&& 0x0f) <<< 4) :: R).length := by simp
  refine (if_neg hlt).trans ?_
  rw [orByte_append, or_second hc, carry_append]

theorem decodeDigit_fourth (hd : d < 64) :
    decodeDigit d ⟨3, A.length, A ++ UInt8.ofNat ((c &&& 0x03) <<< 6) :: R⟩ =
      some ⟨0, (A ++ [UInt8.ofNat (c % 4 * 64 + d)]).length,
        (A ++ [UInt8.ofNat (c % 4 * 64 + d)]) ++ R⟩ := by
  have hlt : ¬ A.length ≥ (A ++ UInt8.ofNat ((c &&& 0x03) <<< 6) :: R).length := by simp
  refine (if_neg hlt).trans ?_
  rw [orByte_append, or_third hd]
  simp

/-- Without room, nothing is read. -/
theorem decodeDigits_full (state : ℕ) (ds : List ℕ) :
    decodeDigits (d :: ds) ⟨state, A.length, A ++ []⟩ = none := by
  rw [decodeDigits, List.append_nil, decodeDigit_full]
  rfl

theorem decodeDigits_two (hb : b < 64) (ds : List ℕ) (r : UInt8) :
    decodeDigits (a :: b :: ds) ⟨0, A.length, A ++ r :: R⟩ =
      (carried (UInt8.ofNat ((b &&& 0x0f) <<< 4)) R).bind fun R =>
        decodeDigits ds ⟨2, (A ++ [UInt8.ofNat (4 * a + b / 16)]).length,
          (A ++ [UInt8.ofNat (4 * a + b / 16)]) ++ R⟩ := by
  rw [decodeDigits, decodeDigit_first, Option.bind_some, decodeDigits, decodeDigit_second hb,
    Option.bind_map]
  rfl

theorem decodeDigits_third (hc : c < 64) (ds : List ℕ) :
    decodeDigits (c :: ds) ⟨2, A.length, A ++ UInt8.ofNat ((b &&& 0x0f) <<< 4) :: R⟩ =
      (carried (UInt8.ofNat ((c &&& 0x03) <<< 6)) R).bind fun R =>
        decodeDigits ds ⟨3, (A ++ [UInt8.ofNat (b % 16 * 16 + c / 4)]).length,
          (A ++ [UInt8.ofNat (b % 16 * 16 + c / 4)]) ++ R⟩ := by
  rw [decodeDigits, decodeDigit_third hc, Option.bind_map]
  rfl

theorem decodeDigits_fourth (hd : d < 64) (ds : List ℕ) :
    decodeDigits (d :: ds) ⟨3, A.length, A ++ UInt8.ofNat ((c &&& 0x03) <<< 6) :: R⟩ =
      decodeDigits ds ⟨0, (A ++ [UInt8.ofNat (c % 4 * 64 + d)]).length,
        (A ++ [UInt8.ofNat (c % 4 * 64 + d)]) ++ R⟩ := by
  rw [decodeDigits, decodeDigit_fourth hd, Option.bind_some]

end

/-- What is stored behind `A`, in the place of `R`, when some digits have been read. -/
structure Stored (ds : List ℕ) (A R : Bytes) (s : Decoder) : Prop where
  state : s.state = ds.length % 4
  tarindex : s.tarindex = (A ++ bytes ds).length
  room : (bytes ds).length ≤ R.length
  target : ∃ R', s.target = A ++ bytes ds ++ R' ∧ (bytes ds).length + R'.length = R.length ∧
    (1 < ds.length % 4 → (R'.headD 0 = 0 ↔ slack ds = 0))

/-- Digits for which there is no room, or which are not those of whole bytes. -/
def Refused (ds : List ℕ) (R : Bytes) : Prop :=
  R.length < (bytes ds).length ∨ slack ds ≠ 0 ∨ ds.length % 4 = 1

/-- Four digits in front make three bytes in front. -/
theorem Stored.group {a b c d : ℕ} {ds : List ℕ} {A R : Bytes} {x y z : UInt8} {s : Decoder}
    (h : Stored ds (A ++ [UInt8.ofNat (4 * a + b / 16), UInt8.ofNat (b % 16 * 16 + c / 4),
      UInt8.ofNat (c % 4 * 64 + d)]) R s) :
    Stored (a :: b :: c :: d :: ds) A (x :: y :: z :: R) s := by
  obtain ⟨R', htarget, hlen, hslack⟩ := h.target
  have hstate : (a :: b :: c :: d :: ds).length % 4 = ds.length % 4 := by
    simp only [List.length_cons]
    omega
  refine ⟨h.state.trans hstate.symm, ?_, ?_, R', ?_, ?_, ?_⟩
  · rw [h.tarindex, bytes, List.append_assoc]
    rfl
  · have hroom := h.room
    simp only [bytes, List.length_cons]
    omega
  · rw [htarget, bytes]
    simp
  · simp only [bytes, List.length_cons]
    omega
  · rw [hstate]
    exact hslack

/-- **Digits** are stored as the bytes that they make, or refused. -/
theorem decodeDigits_cases {ds : List ℕ} (h : ∀ d ∈ ds, d < 64) (A R : Bytes) :
    (∃ s, decodeDigits ds ⟨0, A.length, A ++ R⟩ = some s ∧ Stored ds A R s) ∨
      decodeDigits ds ⟨0, A.length, A ++ R⟩ = none ∧ Refused ds R := by
  induction ds using bytes.induct generalizing A R with
  | case1 =>
    refine Or.inl ⟨_, rfl, rfl, by simp [bytes], Nat.zero_le _, R, by simp [bytes], by simp [bytes], ?_⟩
    intro hlt
    simp at hlt
  | case2 a =>
    refine (em (R = [])).symm.imp ?_ ?_
    · intro hR
      obtain ⟨r, R, rfl⟩ := List.exists_cons_of_ne_nil hR
      refine ⟨_, congrArg (Option.bind · _) (decodeDigit_first r), rfl, by simp [bytes],
        Nat.zero_le _, UInt8.ofNat (a <<< 2) :: R, by simp [bytes], by simp [bytes], ?_⟩
      intro hlt
      simp at hlt
    · rintro rfl
      exact ⟨decodeDigits_full 0 [], Or.inr (Or.inr rfl)⟩
  | case3 a b =>
    have ha := h a (by simp)
    have hb := h b (by simp)
    have hz := carry_second_eq_zero b
    rcases R with _ | ⟨r, _ | ⟨r', R⟩⟩
    · exact Or.inr ⟨decodeDigits_full 0 [b], Or.inl (Nat.zero_lt_one)⟩
    · rw [decodeDigits_two hb, carried]
      by_cases hs : b % 16 = 0
      · rw [if_neg (not_not_intro (hz.2 hs))]
        refine Or.inl ⟨_, rfl, rfl, by simp [bytes], by simp [bytes], [], by simp [bytes],
          by simp [bytes], fun _ => by simp [slack, hs]⟩
      · rw [if_pos (mt hz.1 hs)]
        exact Or.inr ⟨rfl, Or.inr (Or.inl hs)⟩
    · rw [decodeDigits_two hb, carried]
      refine Or.inl ⟨_, rfl, rfl, by simp [bytes], by simp [bytes], _ :: R, rfl, ?_, fun _ => hz⟩
      simp only [bytes, List.length_cons, List.length_nil]
      omega
  | case4 a b c =>
    have ha := h a (by simp)
    have hb := h b (by simp)
    have hc := h c (by simp)
    have hz := carry_third_eq_zero c
    rcases R with _ | ⟨r, _ | ⟨r', _ | ⟨r'', R⟩⟩⟩
    · exact Or.inr ⟨decodeDigits_full 0 [b, c], Or.inl (by simp [bytes])⟩
    · refine Or.inr ⟨?_, Or.inl (by simp [bytes])⟩
      rw [decodeDigits_two hb, carried]
      split
      · rfl
      · exact decodeDigits_full 2 []
    · rw [decodeDigits_two hb, carried, Option.bind_some, decodeDigits_third hc, carried]
      by_cases hs : c % 4 = 0
      · rw [if_neg (not_not_intro (hz.2 hs))]
        refine Or.inl ⟨_, rfl, rfl, by simp [bytes], by simp [bytes], [], by simp [bytes],
          by simp [bytes], fun _ => by simp [slack, hs]⟩
      · rw [if_pos (mt hz.1 hs)]
        exact Or.inr ⟨rfl, Or.inr (Or.inl hs)⟩
    · rw [decodeDigits_two hb, carried, Option.bind_some, decodeDigits_third hc, carried]
      refine Or.inl ⟨_, rfl, rfl, by simp [bytes], by simp [bytes],
        UInt8.ofNat ((c &&& 0x03) <<< 6) :: R, ?_, ?_, fun _ => hz⟩
      · rw [bytes, List.append_assoc A]
        rfl
      · simp only [bytes, List.length_cons, List.length_nil]
        omega
  | case5 a b c d ds ih =>
    have ha := h a (by simp)
    have hb := h b (by simp)
    have hc := h c (by simp)
    have hd := h d (by simp)
    rcases R with _ | ⟨x, _ | ⟨y, _ | ⟨z, R⟩⟩⟩
    · exact Or.inr ⟨decodeDigits_full 0 _, Or.inl (by simp [bytes])⟩
    · refine Or.inr ⟨?_, Or.inl (by simp [bytes])⟩
      rw [decodeDigits_two hb, carried]
      split
      · rfl
      · exact decodeDigits_full 2 _
    · refine Or.inr ⟨?_, Or.inl (by simp [bytes])⟩
      rw [decodeDigits_two hb, carried, Option.bind_some, decodeDigits_third hc, carried]
      split
      · rfl
      · exact decodeDigits_full 3 _
    · rw [decodeDigits_two hb, carried, Option.bind_some, decodeDigits_third hc, carried,
        Option.bind_some, decodeDigits_fourth hd]
      have hnext := ih (fun e he => h e (by simp [he])) (A ++ [UInt8.ofNat (4 * a + b / 16)] ++
        [UInt8.ofNat (b % 16 * 16 + c / 4)] ++ [UInt8.ofNat (c % 4 * 64 + d)]) R
      refine hnext.imp ?_ ?_
      · rintro ⟨s, hs, hstored⟩
        refine ⟨s, hs, Stored.group ?_⟩
        simpa using hstored
      · rintro ⟨hnone, hrefused⟩
        refine ⟨hnone, hrefused.imp ?_ (Or.imp id ?_)⟩
        · intro hlt
          simp only [bytes, List.length_cons]
          omega
        · intro hlen
          simp only [List.length_cons]
          omega

/-! ## Which texts are read -/

/-- The padding behind some digits. -/
def padding (ds : List ℕ) : Bytes := List.replicate ((4 - ds.length % 4) % 4) pad64

theorem text_bytes {ds : List ℕ} (h : Canonical ds) :
    text (bytes ds) = ds.map char ++ padding ds := by
  have hlen := h.length
  have hdiv : 3 * ds.length / 4 = 3 * (ds.length / 4) + 3 * (ds.length % 4) / 4 := by omega
  have hmod : ds.length % 4 = 0 ∨ ds.length % 4 = 2 ∨ ds.length % 4 = 3 := by omega
  have hpad : (3 - 3 * ds.length / 4 % 3) % 3 = (4 - ds.length % 4) % 4 := by
    rcases hmod with h0 | h2 | h3 <;> omega
  rw [text, digits_bytes h, bytes_length, padding, hpad]

theorem decodePadded_cons {s : Decoder} (hch : ch ≠ 0)
    (hspace : isspace ch = false) : decodePadded (ch :: str) s = .error := by
  refine if_neg ?_
  rw [List.takeWhile_cons_of_pos (by simpa using hch), List.all_cons, hspace, Bool.false_and]
  exact Bool.false_ne_true

section
variable {ds : List ℕ} {R : Bytes} {s : Decoder}

/-- What is returned, once the text has been accepted. -/
theorem Stored.decodeDone (h : Stored ds [] R s) :
    ∃ t, decodeDone s = .done (bytes ds).length t ∧ t.take (bytes ds).length = bytes ds := by
  obtain ⟨R', htarget, -, -⟩ := h.target
  have hidx : s.tarindex = (bytes ds).length := h.tarindex
  rw [List.nil_append] at htarget
  refine ⟨_, congrArg (Outcome.done · _) hidx, ?_⟩
  rw [hidx, htarget]
  split
  · rw [List.take_set_of_le (le_refl _)]
    exact List.take_left
  · exact List.take_left

/-- The bits that are left over have to be zero. -/
theorem Stored.decodePadded (h : Stored ds [] R s) (hpart : 1 < ds.length % 4) :
    Base64.decodePadded [] s = if slack ds = 0 then Base64.decodeDone s else .error := by
  obtain ⟨R', htarget, hlen, hslack⟩ := h.target
  have hidx : s.tarindex = (bytes ds).length := h.tarindex
  rw [List.nil_append] at htarget
  have hcond : (s.tarindex < s.target.length ∧ s.target.getD s.tarindex 0 ≠ 0) ↔
      ¬ slack ds = 0 := by
    rw [hidx, htarget, ← hslack hpart]
    cases R' with
    | nil => simp
    | cons r R' => simp
  unfold Base64.decodePadded
  rw [if_pos (by rfl)]
  by_cases hs : slack ds = 0
  · rw [if_neg (hcond.not.2 (not_not_intro hs)), if_pos hs]
  · rw [if_pos (hcond.2 hs), if_neg hs]

/-- The right padding is accepted. -/
theorem Stored.accepts (h : Stored ds [] R s) (hc : Canonical ds) :
    decodeLoop (padding ds) s = Base64.decodeDone s := by
  have hlen := hc.length
  have hstate := h.state
  have hmod : ds.length % 4 = 0 ∨ ds.length % 4 = 2 ∨ ds.length % 4 = 3 := by omega
  rcases hmod with h0 | h2 | h3
  · rw [h0] at hstate
    rw [padding, h0]
    simp [decodeLoop, decodeEnd, pad64, hstate]
  · have hpad := h.decodePadded (by omega)
    rw [if_pos hc.slack] at hpad
    rw [h2] at hstate
    rw [padding, h2, ← hpad]
    simp [List.replicate, decodeLoop, decodeEnd, pad64, isspace, hstate]
  · have hpad := h.decodePadded (by omega)
    rw [if_pos hc.slack] at hpad
    rw [h3] at hstate
    rw [padding, h3, ← hpad]
    simp [decodeLoop, decodeEnd, pad64, isspace, hstate]

/-- Behind the padding, the text has to end. -/
theorem Stored.ends (h : Stored ds [] R s) (hlt : ∀ d ∈ ds, d < 64) (hpart : 1 < ds.length % 4)
    {n : ℕ} {t : Bytes} (h0 : 0 ∉ str) (hspace : ∀ ch ∈ str, isspace ch = false)
    (hdone : Base64.decodePadded str s = .done n t) :
    Canonical ds ∧ str = [] ∧ Base64.decodeDone s = .done n t := by
  cases str with
  | cons ch str =>
    have hne : ch ≠ 0 := by
      rintro rfl
      exact h0 List.mem_cons_self
    rw [decodePadded_cons hne (hspace ch List.mem_cons_self)] at hdone
    cases hdone
  | nil =>
    rw [h.decodePadded hpart] at hdone
    by_cases hs : slack ds = 0
    · rw [if_pos hs] at hdone
      exact ⟨⟨hlt, by omega, hs⟩, rfl, hdone⟩
    · rw [if_neg hs] at hdone
      cases hdone

/-- Nothing but the right padding is accepted. -/
theorem Stored.accepted (h : Stored ds [] R s) (hlt : ∀ d ∈ ds, d < 64) {tail : Bytes} {n : ℕ}
    {t : Bytes} (h0 : 0 ∉ tail) (hspace : ∀ ch ∈ tail, isspace ch = false)
    (hhead : ∀ ch ∈ tail.head?, ch ∉ base64) (hdone : decodeLoop tail s = .done n t) :
    Canonical ds ∧ tail = padding ds ∧ Base64.decodeDone s = .done n t := by
  have hstate := h.state
  have hmod : ds.length % 4 = 0 ∨ ds.length % 4 = 1 ∨ ds.length % 4 = 2 ∨ ds.length % 4 = 3 := by
    omega
  cases tail with
  | nil =>
    rw [decodeLoop, decodeEnd, if_neg (by decide)] at hdone
    by_cases hs : s.state = 0
    · rw [if_neg (not_not_intro hs)] at hdone
      rw [hs] at hstate
      refine ⟨⟨hlt, by omega, slack_eq_zero hstate.symm⟩, ?_, hdone⟩
      rw [padding, ← hstate]
      rfl
    · rw [if_pos hs] at hdone
      cases hdone
  | cons ch rest =>
    have hch := hspace ch List.mem_cons_self
    have hne : ch ≠ 0 := by
      rintro rfl
      exact h0 List.mem_cons_self
    have h0' : 0 ∉ rest := fun hmem => h0 (List.mem_cons_of_mem ch hmem)
    have hspace' : ∀ c ∈ rest, isspace c = false := fun c hc => hspace c (List.mem_cons_of_mem ch hc)
    have hpos : position ch = none := if_neg (hhead ch rfl)
    rw [decodeLoop, if_neg hne, hch, if_neg Bool.false_ne_true, hpos] at hdone
    by_cases hpad : ch = pad64
    · rw [if_pos hpad, decodeEnd, if_pos hpad] at hdone
      rcases hmod with hm | hm | hm | hm
      · rw [hstate, hm] at hdone
        cases hdone
      · rw [hstate, hm] at hdone
        cases hdone
      · rw [hstate, hm] at hdone
        -- two characters of padding
        cases rest with
        | nil => cases hdone
        | cons ch' rest =>
          have hdrop : (ch' :: rest).dropWhile isspace = ch' :: rest :=
            List.dropWhile_cons_of_neg (by simp [hspace' ch' List.mem_cons_self])
          simp only [hdrop] at hdone
          by_cases hpad' : ch' = pad64
          · rw [if_neg (not_not_intro hpad')] at hdone
            obtain ⟨hc, rfl, hd⟩ := h.ends hlt (by omega)
              (fun hmem => h0' (List.mem_cons_of_mem ch' hmem))
              (fun c hc => hspace' c (List.mem_cons_of_mem ch' hc)) hdone
            refine ⟨hc, ?_, hd⟩
            rw [padding, hm, hpad, hpad']
            rfl
          · rw [if_pos hpad'] at hdone
            cases hdone
      · rw [hstate, hm] at hdone
        obtain ⟨hc, rfl, hd⟩ := h.ends hlt (by omega) h0' hspace' hdone
        refine ⟨hc, ?_, hd⟩
        rw [padding, hm, hpad]
        rfl
    · rw [if_neg hpad] at hdone
      cases hdone

end

/-- A text without white space: characters of the alphabet, and what follows them. -/
theorem exists_digits (str : Bytes) :
    ∃ (ds : List ℕ) (tail : Bytes), str = ds.map char ++ tail ∧ (∀ d ∈ ds, d < 64) ∧
      ∀ ch ∈ tail.head?, ch ∉ base64 := by
  induction str with
  | nil => exact ⟨[], [], rfl, by simp, by simp⟩
  | cons ch str ih =>
    cases hpos : position ch with
    | none =>
      refine ⟨[], ch :: str, rfl, by simp, ?_⟩
      intro c hc
      cases hc
      exact position_none hpos
    | some d =>
      obtain ⟨ds, tail, rfl, hlt, hhead⟩ := ih
      obtain ⟨hd, hchar⟩ := position_some hpos
      refine ⟨d :: ds, tail, ?_, ?_, hhead⟩
      · rw [List.map_cons, hchar]
        rfl
      · exact List.forall_mem_cons.2 ⟨hd, hlt⟩

/-- **The text of some bytes is read**, where there is room for them. -/
theorem decodeLoop_text (src R : Bytes) (h : src.length ≤ R.length) :
    ∃ t, decodeLoop (text src) ⟨0, 0, R⟩ = .done src.length t ∧ t.take src.length = src := by
  have hc := canonical_digits src
  have hpad : text src = (digits src).map char ++ padding (digits src) := by
    rw [← text_bytes hc, bytes_digits]
  rcases decodeDigits_cases hc.lt [] R with ⟨s, hs, hstored⟩ | ⟨-, hlong | hslack | hlen⟩
  · obtain ⟨t, hdone, ht⟩ := hstored.decodeDone
    rw [bytes_digits] at hdone ht
    rw [List.nil_append, List.length_nil] at hs
    refine ⟨t, ?_, ht⟩
    rw [hpad, decodeLoop_digits hc.lt, hs]
    exact (hstored.accepts hc).trans hdone
  · rw [bytes_digits] at hlong
    omega
  · exact absurd hc.slack hslack
  · exact absurd hlen hc.length

/-- **Only the text of the bytes that are read is accepted.** -/
theorem text_of_decodeLoop {str R t : Bytes} {n : ℕ} (h0 : 0 ∉ str)
    (hspace : ∀ ch ∈ str, isspace ch = false) (h : decodeLoop str ⟨0, 0, R⟩ = .done n t) :
    str = text (t.take n) ∧ n = (t.take n).length := by
  obtain ⟨ds, tail, rfl, hlt, hhead⟩ := exists_digits str
  rw [decodeLoop_digits hlt] at h
  rcases decodeDigits_cases hlt [] R with ⟨s, hs, hstored⟩ | ⟨hnone, -⟩
  · rw [List.nil_append, List.length_nil] at hs
    rw [hs] at h
    obtain ⟨hc, rfl, hdone⟩ := hstored.accepted hlt
      (fun hmem => h0 (List.mem_append_right _ hmem))
      (fun ch hch => hspace ch (List.mem_append_right _ hch)) hhead h
    obtain ⟨t', hdone', ht'⟩ := hstored.decodeDone
    rw [hdone] at hdone'
    cases hdone'
    rw [ht', text_bytes hc]
    exact ⟨rfl, rfl⟩
  · rw [List.nil_append, List.length_nil] at hnone
    rw [hnone] at h
    cases h

/-! ## Behind the terminator -/

theorem takeWhile_terminated (h : 0 ∉ str) (rest : Bytes) :
    (str ++ 0 :: rest).takeWhile (· ≠ 0) = str := by
  rw [List.takeWhile_append_of_pos, List.takeWhile_cons_of_neg (by simp), List.append_nil]
  intro ch hch
  simpa using ne_of_mem_of_not_mem hch h

theorem decodePadded_terminated (h : 0 ∉ str) (rest : Bytes) (s : Decoder) :
    decodePadded (str ++ 0 :: rest) s = decodePadded str s := by
  unfold decodePadded
  rw [takeWhile_terminated h, takeWhile_string h]

theorem decodeEnd_terminated (h : 0 ∉ str) (rest : Bytes) (ch : UInt8) (s : Decoder) :
    decodeEnd ch (str ++ 0 :: rest) s = decodeEnd ch str s := by
  have hnul : isspace 0 = false := by decide
  unfold decodeEnd
  rw [decodePadded_terminated h]
  rcases dropWhile_strip str with ⟨-, hnil | ⟨c, more, hc, -, hsub⟩⟩
  · have hspaces : ∀ c ∈ str, isspace c = true := List.dropWhile_eq_nil_iff.1 hnil
    rw [List.dropWhile_append_of_pos hspaces, List.dropWhile_cons_of_neg (by simp [hnul]), hnil]
    rfl
  · have hdrop : (str ++ 0 :: rest).dropWhile isspace = c :: (more ++ 0 :: rest) := by
      rw [List.dropWhile_append, hc]
      rfl
    rw [hdrop, hc]
    simp only [decodePadded_terminated fun hmem => h (hsub hmem)]

/-- What follows the terminator is not read. -/
theorem decodeLoop_terminated (h : 0 ∉ str) (rest : Bytes) (s : Decoder) :
    decodeLoop (str ++ 0 :: rest) s = decodeLoop str s := by
  induction str generalizing s with
  | nil => exact decodeEnd_terminated (List.not_mem_nil) rest 0 s
  | cons ch str ih =>
    have hstr : 0 ∉ str := fun hmem => h (List.mem_cons_of_mem ch hmem)
    rw [List.cons_append, decodeLoop, decodeLoop, decodeEnd_terminated hstr]
    simp only [ih hstr]

/-! ## The round trip -/

/-- `b64_encode` succeeds exactly if the text and its terminator fit. -/
def Writes (src : Bytes) : Prop :=
  ∀ dest : Bytes, (b64Encode src dest).Succeeds ↔ 4 * ((src.length + 2) / 3) + 1 ≤ dest.length

/-- `b64_decode` returns the number of bytes, and the bytes, that `b64_encode` was given. -/
def ReadsBack (src : Bytes) : Prop :=
  ∀ (dest out buf : Bytes) (k : ℕ), b64Encode src dest = .done k out →
    max 1 src.length ≤ buf.length →
    (b64Decode out buf).value = some (src.length : ℤ) ∧ (b64Decode out buf).stored = src

/-- The bytes of a string that `b64_decode` accepts have that string as their text. -/
def Reencodes (str : Bytes) : Prop :=
  ∀ buf : Bytes, (b64Decode str buf).Succeeds →
    ∀ dest : Bytes, 4 * (((b64Decode str buf).stored.length + 2) / 3) + 1 ≤ dest.length →
      (b64Encode (b64Decode str buf).stored dest).stored = strip str

/-- Accepted strings without white space are different if their bytes are. -/
def Distinguishes (str str' : Bytes) : Prop :=
  ∀ buf buf' : Bytes, (b64Decode str buf).Succeeds → (b64Decode str' buf').Succeeds →
    (b64Decode str buf).stored = (b64Decode str' buf').stored → str = str'

theorem text_mem {src : Bytes} (h : ch ∈ text src) : ch ≠ 0 ∧ isspace ch = false := by
  rcases List.mem_append.1 h with hmem | hmem
  · obtain ⟨d, hd, rfl⟩ := List.mem_map.1 hmem
    obtain ⟨h0, hspace, -⟩ := base64_mem _ (char_mem (digits_lt src d hd))
    exact ⟨h0, hspace⟩
  · rw [List.eq_of_mem_replicate hmem]
    decide

theorem text_string (src : Bytes) : 0 ∉ text src := fun hmem => (text_mem hmem).1 rfl

/-- What `b64_encode` returns. -/
theorem b64Encode_done {src dest : Bytes} (h : (text src).length < dest.length) :
    b64Encode src dest =
      .done (text src).length (text src ++ 0 :: dest.drop ((text src).length + 1)) := by
  rw [b64Encode_eq, if_neg (by omega), written, if_pos h, List.length_nil, Nat.zero_add]
  rfl

theorem writes (src : Bytes) : Writes src := by
  intro dest
  have hlen := text_length src
  by_cases hfit : (text src).length < dest.length
  · rw [b64Encode_done hfit]
    refine iff_of_true ⟨_, rfl, ?_⟩ (by omega)
    -- the length is a multiple of four
    intro hneg
    have hmod := Int.emod_bmod ((text src).length : ℤ) (2 ^ 32)
    have hdvd : ((text src).length : ℤ) ≡ -1 [ZMOD 4] := by
      have h4 : (4 : ℤ) ∣ 2 ^ 32 := by norm_num
      have hself : ((text src).length : ℤ).bmod (2 ^ 32) ≡ (text src).length [ZMOD 2 ^ 32] :=
        Int.bmod_emod
      rw [hneg] at hself
      exact (hself.of_dvd h4).symm
    have h4 := Int.ModEq.dvd hdvd
    omega
  · rw [b64Encode_eq]
    refine iff_of_false ?_ (by omega)
    rintro ⟨value, hvalue, hne⟩
    split at hvalue
    · cases hvalue
    · rw [written_error (by omega)] at hvalue
      cases hvalue
      exact hne rfl

/-- What was written is read back, with its length converted to an `int`. -/
theorem b64Decode_written {src dest out buf : Bytes} {k : ℕ} (h : b64Encode src dest = .done k out)
    (hbuf : max 1 src.length ≤ buf.length) :
    (b64Decode out buf).value = some ((src.length : ℤ).bmod (2 ^ 32)) ∧
      (b64Decode out buf).stored = src := by
  have hfit : (text src).length < dest.length := by
    by_contra hlong
    rw [b64Encode_eq] at h
    split at h
    · cases h
    · rw [written_error (by omega)] at h
      cases h
  rw [b64Encode_done hfit] at h
  cases h
  obtain ⟨t, hdone, ht⟩ := decodeLoop_text src buf (by omega)
  rw [b64Decode, if_neg (by omega), decodeLoop_terminated (text_string src), hdone]
  exact ⟨rfl, ht⟩

theorem readsBack_iff (src : Bytes) : ReadsBack src ↔ src.length < 2 ^ 31 := by
  constructor
  · intro h
    have hdest : (text src).length < (List.replicate ((text src).length + 1) (0 : UInt8)).length := by
      rw [List.length_replicate]
      omega
    have hbuf : max 1 src.length ≤ (List.replicate (max 1 src.length) (0 : UInt8)).length := by
      rw [List.length_replicate]
    have hwritten := b64Encode_done hdest
    have hread := (h _ _ _ _ hwritten hbuf).1
    rw [(b64Decode_written hwritten hbuf).1, Option.some_inj] at hread
    have hlt := Int.bmod_lt (x := (src.length : ℤ)) (m := 2 ^ 32) (by norm_num)
    rw [hread] at hlt
    norm_num at hlt
    omega
  · intro h dest out buf k hdone hbuf
    obtain ⟨hvalue, hstored⟩ := b64Decode_written hdone hbuf
    have hself : (src.length : ℤ).bmod (2 ^ 32) = src.length :=
      Int.bmod_eq_of_le (by norm_num) (by norm_num; omega)
    rw [hself] at hvalue
    exact ⟨hvalue, hstored⟩

/-- An accepted string is the text of its bytes, but for white space. -/
theorem strip_eq_text {str buf : Bytes} (h0 : 0 ∉ str) (h : (b64Decode str buf).Succeeds) :
    strip str = text (b64Decode str buf).stored := by
  obtain ⟨value, hvalue, hne⟩ := h
  have hloop : b64Decode str buf = .abort ∨ b64Decode str buf = decodeLoop (strip str) ⟨0, 0, buf⟩ := by
    unfold b64Decode
    split
    · exact Or.inl rfl
    · exact Or.inr (decodeLoop_strip h0 _).symm
  cases hdone : b64Decode str buf with
  | abort =>
    rw [hdone] at hvalue
    cases hvalue
  | error =>
    rw [hdone] at hvalue
    cases hvalue
    exact absurd rfl hne
  | done n t =>
    rw [hdone] at hloop
    have hrun := hloop.resolve_left nofun
    refine (text_of_decodeLoop (not_mem_strip h0) ?_ hrun.symm).1
    intro ch hch
    simpa using List.of_mem_filter hch

theorem reencodes (h0 : 0 ∉ str) : Reencodes str := by
  intro buf hsucceeds dest hdest
  have htext := strip_eq_text h0 hsucceeds
  have hlen := text_length (b64Decode str buf).stored
  rw [b64Encode_done (by omega), htext]
  exact List.take_left

theorem strip_eq_self (h : ∀ ch ∈ str, isspace ch = false) : strip str = str :=
  List.filter_eq_self.2 fun ch hch => by simp [h ch hch]

theorem distinguishes {str str' : Bytes} (h0 : 0 ∉ str) (h0' : 0 ∉ str')
    (hspace : ∀ ch ∈ str, isspace ch = false) (hspace' : ∀ ch ∈ str', isspace ch = false) :
    Distinguishes str str' := by
  intro buf buf' hs hs' heq
  have htext := strip_eq_text h0 hs
  have htext' := strip_eq_text h0' hs'
  rw [strip_eq_self hspace] at htext
  rw [strip_eq_self hspace'] at htext'
  rw [htext, htext', heq]

/-- **Base64**: the round trip holds for the byte strings whose length is an `int`. -/
theorem roundTrip_iff (src : Bytes) :
    (Writes src ∧ ReadsBack src ∧ (∀ str, 0 ∉ str → Reencodes str) ∧
      ∀ str str', 0 ∉ str → 0 ∉ str' → (∀ ch ∈ str, isspace ch = false) →
        (∀ ch ∈ str', isspace ch = false) → Distinguishes str str') ↔
      src.length < 2 ^ 31 := by
  rw [← readsBack_iff]
  constructor
  · intro h
    exact h.2.1
  · intro h
    exact ⟨writes src, h, fun str h0 => reencodes h0,
      fun str str' h0 h0' hspace hspace' => distinguishes h0 h0' hspace hspace'⟩

/-- The length of 2^31 bytes is returned as a negative number. -/
theorem readsBack_wraps : ¬ ∀ src : Bytes, Writes src ∧ ReadsBack src := by
  intro h
  have hlt := (readsBack_iff (List.replicate (2 ^ 31) 0)).1 (h _).2
  rw [List.length_replicate] at hlt
  exact lt_irrefl _ hlt

end Base64
