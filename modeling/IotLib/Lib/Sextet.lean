/-
  Bytes as groups of six bits, and back.
-/
import Mathlib

namespace Sextet

/-! ## The two directions -/

/-- The groups of six bits of some bytes; the last group is filled with zero bits. -/
def digits : List UInt8 → List ℕ
  | [] => []
  | [a] => [a.toNat / 4, a.toNat % 4 * 16]
  | [a, b] => [a.toNat / 4, a.toNat % 4 * 16 + b.toNat / 16, b.toNat % 16 * 4]
  | a :: b :: c :: src =>
    a.toNat / 4 :: (a.toNat % 4 * 16 + b.toNat / 16) :: (b.toNat % 16 * 4 + c.toNat / 64) ::
      c.toNat % 64 :: digits src

/-- The whole bytes in some groups of six bits. -/
def bytes : List ℕ → List UInt8
  | [] => []
  | [_] => []
  | [a, b] => [UInt8.ofNat (4 * a + b / 16)]
  | [a, b, c] => [UInt8.ofNat (4 * a + b / 16), UInt8.ofNat (b % 16 * 16 + c / 4)]
  | a :: b :: c :: d :: ds =>
    UInt8.ofNat (4 * a + b / 16) :: UInt8.ofNat (b % 16 * 16 + c / 4) ::
      UInt8.ofNat (c % 4 * 64 + d) :: bytes ds

/-- The bits that are left over. -/
def slack : List ℕ → ℕ
  | [] => 0
  | [a] => a
  | [_, b] => b % 16
  | [_, _, c] => c % 4
  | _ :: _ :: _ :: _ :: ds => slack ds

-- the equations, once for the lemmas below
section
attribute [local simp] digits bytes
end

/-- Four groups of six bits are whole bytes. -/
theorem slack_eq_zero {ds : List ℕ} (h : ds.length % 4 = 0) : slack ds = 0 := by
  induction ds using bytes.induct with
  | case1 => rfl
  | case2 a => simp at h
  | case3 a b => simp at h
  | case4 a b c => simp at h
  | case5 a b c d ds ih =>
    simp only [List.length_cons] at h
    exact ih (by omega)

/-- Groups of six bits that some bytes have. -/
structure Canonical (ds : List ℕ) : Prop where
  lt : ∀ d ∈ ds, d < 64
  length : ds.length % 4 ≠ 1
  slack : slack ds = 0

/-! ## One is the inverse of the other -/

theorem digits_length (src : List UInt8) : (digits src).length = (4 * src.length + 2) / 3 := by
  induction src using digits.induct with
  | case1 => rfl
  | case2 a => simp [digits]
  | case3 a b => simp [digits]
  | case4 a b c src ih =>
    simp only [digits, List.length_cons, ih]
    omega

theorem bytes_length (ds : List ℕ) : (bytes ds).length = 3 * ds.length / 4 := by
  induction ds using bytes.induct with
  | case1 => rfl
  | case2 a => simp [bytes]
  | case3 a b => simp [bytes]
  | case4 a b c => simp [bytes]
  | case5 a b c d ds ih =>
    simp only [bytes, List.length_cons, ih]
    omega

theorem digits_lt (src : List UInt8) : ∀ d ∈ digits src, d < 64 := by
  induction src using digits.induct with
  | case1 => simp [digits]
  | case2 a =>
    have ha := a.toNat_lt
    simp only [digits, List.mem_cons, List.not_mem_nil, or_false, forall_eq_or_imp, forall_eq]
    omega
  | case3 a b =>
    have ha := a.toNat_lt
    have hb := b.toNat_lt
    simp only [digits, List.mem_cons, List.not_mem_nil, or_false, forall_eq_or_imp, forall_eq]
    omega
  | case4 a b c src ih =>
    have ha := a.toNat_lt
    have hb := b.toNat_lt
    have hc := c.toNat_lt
    simp only [digits, List.mem_cons, forall_eq_or_imp]
    refine ⟨by omega, by omega, by omega, by omega, ih⟩

theorem slack_digits (src : List UInt8) : slack (digits src) = 0 := by
  induction src using digits.induct with
  | case1 => rfl
  | case2 a => simp [digits, slack]
  | case3 a b => simp [digits, slack]
  | case4 a b c src ih => exact ih

theorem canonical_digits (src : List UInt8) : Canonical (digits src) where
  lt := digits_lt src
  length := by
    rw [digits_length]
    omega
  slack := slack_digits src

theorem ofNat_eq {n : ℕ} {a : UInt8} (h : n = a.toNat) : UInt8.ofNat n = a := by
  rw [h, UInt8.ofNat_toNat]

/-- The bytes of their own groups of six bits. -/
theorem bytes_digits (src : List UInt8) : bytes (digits src) = src := by
  induction src using digits.induct with
  | case1 => rfl
  | case2 a =>
    rw [digits, bytes, ofNat_eq (a := a) (by omega)]
  | case3 a b =>
    have hb := b.toNat_lt
    rw [digits, bytes, ofNat_eq (a := a) (by omega), ofNat_eq (a := b) (by omega)]
  | case4 a b c src ih =>
    have hb := b.toNat_lt
    have hc := c.toNat_lt
    rw [digits, bytes, ofNat_eq (a := a) (by omega), ofNat_eq (a := b) (by omega),
      ofNat_eq (a := c) (by omega), ih]

theorem toNat_ofNat {n : ℕ} (h : n < 256) : (UInt8.ofNat n).toNat = n :=
  UInt8.toNat_ofNat_of_lt' h

/-- Groups of six bits are those of their bytes, if there are no bits left over. -/
theorem digits_bytes {ds : List ℕ} (h : Canonical ds) : digits (bytes ds) = ds := by
  induction ds using bytes.induct with
  | case1 => rfl
  | case2 a => exact absurd rfl h.length
  | case3 a b =>
    have ha := h.lt a (by simp)
    have hb := h.lt b (by simp)
    have hs : b % 16 = 0 := h.slack
    rw [bytes, digits, toNat_ofNat (by omega)]
    congr 2 <;> omega
  | case4 a b c =>
    have ha := h.lt a (by simp)
    have hb := h.lt b (by simp)
    have hc := h.lt c (by simp)
    have hs : c % 4 = 0 := h.slack
    rw [bytes, digits, toNat_ofNat (by omega), toNat_ofNat (by omega)]
    congr 3 <;> omega
  | case5 a b c d ds ih =>
    have ha := h.lt a (by simp)
    have hb := h.lt b (by simp)
    have hc := h.lt c (by simp)
    have hd := h.lt d (by simp)
    have hrest : Canonical ds := by
      refine ⟨fun x hx => h.lt x (by simp [hx]), ?_, h.slack⟩
      have hlen := h.length
      simp only [List.length_cons] at hlen
      omega
    rw [bytes, digits, toNat_ofNat (by omega), toNat_ofNat (by omega), toNat_ofNat (by omega),
      ih hrest]
    congr 1
    · omega
    · congr 1
      · omega
      · congr 1
        · omega
        · congr 1
          omega

end Sextet
