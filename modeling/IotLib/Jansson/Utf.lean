/-
  The UTF-8 codec of jansson (`utf.c`): encoding a code point, and checking and
  decoding the bytes of a character.

  `encode` is the standard encoding; a byte string is valid (`Valid`) if it is a
  concatenation of encodings of Unicode scalar values.
-/
import IotLib.Lib.Forall

namespace Jansson

abbrev Bytes := List UInt8

/-! ## The functions of the source -/

/-- `utf8_encode` -/
def utf8Encode (codepoint : Nat) : Option Bytes :=
  if codepoint < 0x80 then some [.ofNat codepoint]
  else if codepoint < 0x800 then
    some [.ofNat (0xC0 + (codepoint &&& 0x7C0) >>> 6), .ofNat (0x80 + (codepoint &&& 0x3F))]
  else if codepoint < 0x10000 then
    some [.ofNat (0xE0 + (codepoint &&& 0xF000) >>> 12),
      .ofNat (0x80 + (codepoint &&& 0xFC0) >>> 6), .ofNat (0x80 + (codepoint &&& 0x3F))]
  else if codepoint ≤ 0x10FFFF then
    some [.ofNat (0xF0 + (codepoint &&& 0x1C0000) >>> 18),
      .ofNat (0x80 + (codepoint &&& 0x3F000) >>> 12),
      .ofNat (0x80 + (codepoint &&& 0xFC0) >>> 6), .ofNat (0x80 + (codepoint &&& 0x3F))]
  else none

/-- `utf8_check_first` -/
def utf8CheckFirst (byte : UInt8) : Nat :=
  let u := byte.toNat
  if u < 0x80 then 1
  else if 0x80 ≤ u ∧ u ≤ 0xBF then 0
  else if u = 0xC0 ∨ u = 0xC1 then 0
  else if 0xC2 ≤ u ∧ u ≤ 0xDF then 2
  else if 0xE0 ≤ u ∧ u ≤ 0xEF then 3
  else if 0xF0 ≤ u ∧ u ≤ 0xF4 then 4
  else 0

/-- The loop of `utf8_check_full` over the bytes after the first. -/
def checkTail : Nat → Bytes → Option Nat
  | value, [] => some value
  | value, b :: bs =>
    let u := b.toNat
    if u < 0x80 ∨ 0xBF < u then none else checkTail (value <<< 6 + (u &&& 0x3F)) bs

/-- `utf8_check_full` on the bytes of one character, and the code point. -/
def utf8CheckFull (buffer : Bytes) : Option Nat :=
  let size := buffer.length
  let u := (buffer.headD 0).toNat
  let value :=
    if size = 2 then some (u &&& 0x1F)
    else if size = 3 then some (u &&& 0xF)
    else if size = 4 then some (u &&& 0x7)
    else none
  match value.bind fun value => checkTail value buffer.tail with
  | none => none
  | some value =>
    if 0x10FFFF < value then none
    else if 0xD800 ≤ value ∧ value ≤ 0xDFFF then none
    else if size = 2 ∧ value < 0x80 ∨ size = 3 ∧ value < 0x800 ∨ size = 4 ∧ value < 0x10000 then none
    else some value

/-- `utf8_iterate` on a buffer that is not empty: the code point, and the rest. -/
def utf8Iterate (buffer : Bytes) : Option (Nat × Bytes) :=
  let count := utf8CheckFirst (buffer.headD 0)
  if count = 0 then none
  else if count = 1 then some ((buffer.headD 0).toNat, buffer.tail)
  else if buffer.length < count then none
  else (utf8CheckFull (buffer.take count)).map fun codepoint => (codepoint, buffer.drop count)

/-! ## Scalar values -/

/-- The Unicode scalar values. -/
def IsScalar (c : Nat) : Prop := c < 0xD800 ∨ 0xDFFF < c ∧ c ≤ 0x10FFFF

instance (c : Nat) : Decidable (IsScalar c) := inferInstanceAs (Decidable (_ ∨ _))

/-- The encoding of a scalar value. -/
def encode (c : Nat) : Bytes :=
  if c < 0x80 then [.ofNat c]
  else if c < 0x800 then [.ofNat (0xC0 + c / 64), .ofNat (0x80 + c % 64)]
  else if c < 0x10000 then
    [.ofNat (0xE0 + c / 4096), .ofNat (0x80 + c / 64 % 64), .ofNat (0x80 + c % 64)]
  else
    [.ofNat (0xF0 + c / 262144), .ofNat (0x80 + c / 4096 % 64), .ofNat (0x80 + c / 64 % 64),
      .ofNat (0x80 + c % 64)]

inductive Valid : Bytes → Prop where
  | nil : Valid []
  | cons {c : Nat} {bs : Bytes} : IsScalar c → Valid bs → Valid (encode c ++ bs)

section
variable {c : Nat} {b : UInt8} {bs : Bytes}

theorem and_low (x n : Nat) : x &&& (2 ^ n - 1) = x % 2 ^ n := Nat.and_two_pow_sub_one_eq_mod x n

theorem and_field (x m n : Nat) : (x &&& (2 ^ n - 1) <<< m) >>> m = x / 2 ^ m % 2 ^ n := by
  rw [Nat.shiftRight_and_distrib, Nat.shiftLeft_shiftRight, and_low, Nat.shiftRight_eq_div_pow]

/-- The fields of a code point. -/
theorem utf8Encode_eq (h : c ≤ 0x10FFFF) : utf8Encode c = some (encode c) := by
  have low : c &&& 0x3F = c % 64 := and_low c 6
  have f₁ : (c &&& 0x7C0) >>> 6 = c / 64 % 32 := and_field c 6 5
  have f₂ : (c &&& 0xFC0) >>> 6 = c / 64 % 64 := and_field c 6 6
  have f₃ : (c &&& 0xF000) >>> 12 = c / 4096 % 16 := and_field c 12 4
  have f₄ : (c &&& 0x3F000) >>> 12 = c / 4096 % 64 := and_field c 12 6
  have f₅ : (c &&& 0x1C0000) >>> 18 = c / 262144 % 8 := and_field c 18 3
  unfold utf8Encode encode
  rw [low, f₁, f₂, f₃, f₄, f₅, if_pos h]
  split_ifs with h₁ h₂ h₃
  · rfl
  · rw [Nat.mod_eq_of_lt (by omega : c / 64 < 32)]
  · rw [Nat.mod_eq_of_lt (by omega : c / 4096 < 16)]
  · rw [Nat.mod_eq_of_lt (by omega : c / 262144 < 8)]

theorem encode_ascii (h : c < 0x80) : encode c = [.ofNat c] := if_pos h

theorem encode_length_pos (c : Nat) : 0 < (encode c).length := by
  unfold encode
  split_ifs <;> exact Nat.succ_pos _

/-- A byte after the first. -/
def IsTail (b : UInt8) : Prop := 0x80 ≤ b.toNat ∧ b.toNat ≤ 0xBF

theorem checkTail_cons {value : Nat} {r : Nat} :
    checkTail value (b :: bs) = some r ↔
      IsTail b ∧ checkTail (value * 64 + (b.toNat - 0x80)) bs = some r := by
  have low : b.toNat &&& 0x3F = b.toNat % 64 := and_low _ 6
  have hshift : value <<< 6 = value * 64 := Nat.shiftLeft_eq value 6
  rw [checkTail, low, hshift]
  by_cases ht : IsTail b
  · obtain ⟨h₁, h₂⟩ := ht
    rw [if_neg (by omega), show b.toNat % 64 = b.toNat - 0x80 by omega]
    exact ⟨fun h => ⟨⟨h₁, h₂⟩, h⟩, fun h => h.2⟩
  · rw [if_pos (by unfold IsTail at ht; omega)]
    exact ⟨fun h => (by cases h), fun h => absurd h.1 ht⟩

/-- The first bits of the first byte, and the least code point, by size. -/
theorem utf8CheckFull_iff (h : bs.length = 1 ∨ bs.length = 2 ∨ bs.length = 3) :
    utf8CheckFull (b :: bs) = some c ↔
      checkTail (b.toNat % 2 ^ (6 - bs.length)) bs = some c ∧ IsScalar c ∧
        2 ^ (if bs.length = 1 then 7 else if bs.length = 2 then 11 else 16) ≤ c := by
  have f₁ : b.toNat &&& 0x1F = b.toNat % 32 := and_low _ 5
  have f₂ : b.toNat &&& 0xF = b.toNat % 16 := and_low _ 4
  have f₃ : b.toNat &&& 0x7 = b.toNat % 8 := and_low _ 3
  unfold IsScalar
  simp only [utf8CheckFull, List.length_cons, List.headD_cons, List.tail_cons, f₁, f₂, f₃]
  rcases h with h | h | h <;> simp only [h] <;> norm_num
  all_goals
    generalize checkTail _ bs = r
    cases r with
    | none => simp
    | some v =>
      simp only [Option.some.injEq]
      split_ifs with h₁ h₂ h₃
      · simp only [false_iff]
        omega
      · simp only [false_iff]
        omega
      · simp only [false_iff]
        omega
      · simp only [Option.some.injEq]
        omega

theorem toNat_byte {n : Nat} (h : n < 256) : (UInt8.ofNat n).toNat = n :=
  UInt8.toNat_ofNat_of_lt' h

theorem eq_ofNat_iff {n : Nat} (h : n < 256) : b = .ofNat n ↔ b.toNat = n := by
  rw [← UInt8.toNat_inj, toNat_byte h]

theorem checkTail_nil {value : Nat} : checkTail value [] = some c ↔ value = c := by
  rw [checkTail, Option.some.injEq]

/-- The check of a character of several bytes accepts the encodings. -/
theorem utf8CheckFull_eq_some (h : 2 ≤ utf8CheckFirst b) (hlen : bs.length + 1 = utf8CheckFirst b) :
    utf8CheckFull (b :: bs) = some c ↔ IsScalar c ∧ b :: bs = encode c := by
  have hfirst : (bs.length = 1 ∧ 0xC2 ≤ b.toNat ∧ b.toNat ≤ 0xDF) ∨
      (bs.length = 2 ∧ 0xE0 ≤ b.toNat ∧ b.toNat ≤ 0xEF) ∨
      (bs.length = 3 ∧ 0xF0 ≤ b.toNat ∧ b.toNat ≤ 0xF4) := by
    unfold utf8CheckFirst at h hlen
    dsimp only at h hlen
    split_ifs at h hlen <;> omega
  rw [utf8CheckFull_iff (by omega)]
  by_cases hc : IsScalar c
  swap
  · exact ⟨fun h => absurd h.2.1 hc, fun h => absurd h.1 hc⟩
  have hmax : c ≤ 0x10FFFF := by
    unfold IsScalar at hc
    omega
  rcases hfirst with ⟨hn, h₁, h₂⟩ | ⟨hn, h₁, h₂⟩ | ⟨hn, h₁, h₂⟩
  · rw [hn, if_pos rfl]
    obtain ⟨b₁, rfl⟩ := List.length_eq_one_iff.1 hn
    simp only [checkTail_cons, checkTail_nil, IsTail, IsScalar]
    unfold encode
    split_ifs <;>
      simp only [List.cons.injEq, and_true, reduceCtorEq, and_false, iff_false] <;>
      first
        | omega
        | rw [eq_ofNat_iff (by omega), eq_ofNat_iff (by omega)]; omega
  · rw [hn, if_neg (by omega), if_pos rfl]
    obtain ⟨b₁, b₂, rfl⟩ := List.length_eq_two.1 hn
    simp only [checkTail_cons, checkTail_nil, IsTail, IsScalar]
    unfold encode
    split_ifs <;>
      simp only [List.cons.injEq, and_true, reduceCtorEq, and_false, iff_false] <;>
      first
        | omega
        | rw [eq_ofNat_iff (by omega), eq_ofNat_iff (by omega), eq_ofNat_iff (by omega)]; omega
  · rw [hn, if_neg (by omega), if_neg (by omega)]
    obtain ⟨b₁, b₂, b₃, rfl⟩ := List.length_eq_three.1 hn
    simp only [checkTail_cons, checkTail_nil, IsTail, IsScalar]
    unfold encode
    split_ifs <;>
      simp only [List.cons.injEq, and_true, reduceCtorEq, and_false, iff_false] <;>
      first
        | omega
        | rw [eq_ofNat_iff (by omega), eq_ofNat_iff (by omega), eq_ofNat_iff (by omega),
            eq_ofNat_iff (by omega)]; omega

theorem utf8CheckFirst_ascii (h : b.toNat < 0x80) : utf8CheckFirst b = 1 := if_pos h

theorem utf8CheckFirst_one_iff : utf8CheckFirst b = 1 ↔ b.toNat < 0x80 := by
  refine ⟨fun h => ?_, utf8CheckFirst_ascii⟩
  unfold utf8CheckFirst at h
  dsimp only at h
  split_ifs at h <;> omega

/-- The first byte of an encoding tells its length. -/
theorem utf8CheckFirst_encode (hc : IsScalar c) (h : encode c = b :: bs) :
    utf8CheckFirst b = bs.length + 1 := by
  have hmax : c ≤ 0x10FFFF := by
    unfold IsScalar at hc
    omega
  unfold encode at h
  unfold utf8CheckFirst
  split_ifs at h with h₁ h₂ h₃ <;> obtain ⟨rfl, rfl⟩ := List.cons.inj h <;>
    rw [toNat_byte (by omega)] <;> dsimp only [List.length] <;> split_ifs <;> omega

/-- All bytes of a character of several bytes are above the ASCII range. -/
theorem encode_high (hc : IsScalar c) (h : 0x80 ≤ c) : ∀ b ∈ encode c, 0x80 ≤ b.toNat := by
  have hmax : c ≤ 0x10FFFF := by
    unfold IsScalar at hc
    omega
  intro b hb
  unfold encode at hb
  split_ifs at hb with h₁ h₂ h₃ <;>
    simp only [List.mem_cons, List.not_mem_nil, or_false] at hb <;>
    rcases hb with rfl | rfl | rfl | rfl <;>
    rw [toNat_byte (by omega)] <;> omega

theorem encode_le (hc : IsScalar c) : ∀ b ∈ encode c, b.toNat ≤ 0xF4 := by
  have hmax : c ≤ 0x10FFFF := by
    unfold IsScalar at hc
    omega
  intro b hb
  unfold encode at hb
  split_ifs at hb with h₁ h₂ h₃ <;>
    simp only [List.mem_cons, List.not_mem_nil, or_false] at hb <;>
    rcases hb with rfl | rfl | rfl | rfl <;>
    rw [toNat_byte (by omega)] <;> omega

/-- The first byte of a character is below 0x80 only for an ASCII character. -/
theorem encode_ascii_iff (hc : IsScalar c) (h : encode c = b :: bs) :
    b.toNat < 0x80 ↔ c < 0x80 := by
  refine ⟨fun hb => ?_, fun hlt => ?_⟩
  · by_contra hge
    have := encode_high hc (Nat.le_of_not_lt hge) b (h ▸ List.mem_cons_self)
    omega
  · rw [encode_ascii hlt] at h
    obtain ⟨rfl, -⟩ := List.cons.inj h
    rw [toNat_byte (by omega)]
    exact hlt

/-! ## Valid strings -/

theorem encode_ascii_byte (h : b.toNat < 0x80) : encode b.toNat = [b] := by
  rw [encode_ascii h, UInt8.ofNat_toNat]

theorem isScalar_ascii (h : c < 0x80) : IsScalar c := Or.inl (by omega)

/-- An ASCII byte in front of a valid string. -/
theorem Valid.ascii (h : b.toNat < 0x80) (hbs : Valid bs) : Valid (b :: bs) := by
  have := Valid.cons (isScalar_ascii h) hbs
  rwa [encode_ascii_byte h] at this

theorem Valid.tail (h : Valid (b :: bs)) (hb : b.toNat < 0x80) : Valid bs := by
  generalize hs : b :: bs = s at h
  cases h with
  | nil => cases hs
  | @cons c rest hc hrest =>
    cases he : encode c with
    | nil => exact absurd (encode_length_pos c) (by rw [he]; exact Nat.lt_irrefl 0)
    | cons b' bs' =>
      rw [he] at hs
      obtain ⟨rfl, rfl⟩ := List.cons.inj hs
      rw [encode_ascii ((encode_ascii_iff hc he).1 hb)] at he
      obtain ⟨-, rfl⟩ := List.cons.inj he
      exact hrest

theorem Valid.drop_ascii {pre : Bytes} (h : Valid (pre ++ bs)) (hpre : ∀ b ∈ pre, b.toNat < 0x80) :
    Valid bs := by
  induction pre with
  | nil => exact h
  | cons b pre ih =>
    obtain ⟨hb, hpre⟩ := List.forall_mem_cons.1 hpre
    exact ih (Valid.tail h hb) hpre

/-- A valid string that does not begin with an ASCII byte begins with a character of
    several bytes. -/
theorem Valid.high (h : Valid (b :: bs)) (hb : 0x80 ≤ b.toNat) :
    ∃ c rest, IsScalar c ∧ 0x80 ≤ c ∧ b :: bs = encode c ++ rest ∧ Valid rest := by
  generalize hs : b :: bs = s at h
  cases h with
  | nil => cases hs
  | @cons c rest hc hrest =>
    refine ⟨c, rest, hc, ?_, rfl, hrest⟩
    by_contra hlt
    have hlt' : c < 0x80 := Nat.lt_of_not_le hlt
    rw [encode_ascii hlt'] at hs
    obtain ⟨rfl, -⟩ := List.cons.inj hs
    rw [toNat_byte (by omega)] at hb
    omega

end

end Jansson
