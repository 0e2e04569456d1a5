/-
  Slash escaping of libcgi (`string.c`): `addslashes` and `stripslashes`.

  Lengths and counts are kept in an `int`. An `int` that overflows, an allocation of a negative size
  and an access behind the terminator of a string have no result.
-/
import Mathlib

namespace Libcgi

abbrev Bytes := List UInt8

/-! ## Numbers and buffers -/

/-- A `size_t` that is stored in an `int`. -/
def toInt (n : ℕ) : ℤ :=
  if n % 4294967296 < 2147483648 then (n % 4294967296 : ℕ) else (n % 4294967296 : ℕ) - 4294967296

/-- `++n` -/
def increment (n : ℤ) : Option ℤ := if n = 2147483647 then none else some (n + 1)

/-- `--n` -/
def decrement (n : ℤ) : Option ℤ := if n = -2147483648 then none else some (n - 1)

/-- The buffer `tmp`: what has been stored in it, its size, and whether every store was inside. -/
structure Buffer where
  text : Bytes
  size : ℤ
  inside : Bool

/-- `tmp[j++] = c` -/
def Buffer.store (tmp : Buffer) (c : UInt8) : Buffer :=
  { tmp with text := tmp.text ++ [c], inside := tmp.inside && decide (tmp.text.length < tmp.size) }

/-- `malloc` and `realloc`, given an `int`. -/
def Buffer.realloc (tmp : Buffer) (size : ℤ) : Option Buffer :=
  if size < 0 then none else some { tmp with size }

/-- The string in a buffer, in front of its terminator. -/
def Buffer.string (tmp : Buffer) : Bytes := tmp.text.dropLast

/-! ## The functions -/

/-- What gets a slash. -/
def isSpecial (c : UInt8) : Bool := c = 0x22 || c = 0x27 || c = 0x5C

/-- The loop of `addnslashes`. -/
def addLoop : Bytes → ℤ → ℤ → Buffer → Option Buffer
  | [], _, _, tmp => some (tmp.store 0)
  | c :: s, n, len, tmp => do
    let n' ← decrement n
    if 0 < n ∧ isSpecial c then
      let len ← increment len
      let tmp ← tmp.realloc len
      addLoop s n' len ((tmp.store 0x5C).store c)
    else addLoop s n' len (tmp.store c)

/-- `addnslashes` -/
def addnslashes (s : Bytes) (n : ℤ) : Option Buffer := do
  let len := toInt s.length
  let size ← increment len
  let tmp ← Buffer.realloc ⟨[], 0, true⟩ size
  addLoop s n len tmp

def addslashes (s : Bytes) : Option Buffer := addnslashes s (toInt s.length)

/-- The loop of `stripnslashes`. A slash at the end makes it copy the terminator and go on behind it. -/
def stripLoop : Bytes → ℤ → Bytes → Option Bytes
  | [], _, tmp => some tmp
  | c :: s, n, tmp => do
    let n' ← decrement n
    if 0 < n ∧ c = 0x5C then
      match s with
      | [] => none
      | d :: s => stripLoop s n' (tmp ++ [d])
    else stripLoop s n' (tmp ++ [c])

/-- `stripnslashes` -/
def stripnslashes (s : Bytes) (n : ℤ) : Option Bytes := stripLoop s n []

def stripslashes (str : Bytes) : Option Bytes := stripnslashes str (toInt str.length)

/-! ## What is meant -/

/-- A text in which every quote and apostrophe stands behind a slash that escapes it. -/
inductive Escaped : Bytes → Prop
  | nil : Escaped []
  | plain {c : UInt8} {s : Bytes} (hc : isSpecial c = false) (hs : Escaped s) : Escaped (c :: s)
  | pair {c : UInt8} {s : Bytes} (hs : Escaped s) : Escaped (0x5C :: c :: s)

/-- The slashes at the end of a string. -/
def trailing : Bytes → ℕ
  | [] => 0
  | c :: s => if c = 0x5C ∧ trailing s = s.length then s.length + 1 else trailing s

/-- A string with its slashes. -/
def escape (s : Bytes) : Bytes := s.flatMap fun c => if isSpecial c then [0x5C, c] else [c]

section
variable {s t : Bytes} {n len : ℤ} {tmp b : Buffer}

section
-- the equations of these definitions, which the lemmas below rewrite with
attribute [local simp] Buffer.store addLoop addnslashes addslashes decrement escape increment
  stripLoop stripnslashes stripslashes toInt trailing
end

theorem toInt_eq (h : s.length < 2147483648) : toInt s.length = s.length := by
  unfold toInt
  rw [Nat.mod_eq_of_lt (by omega), if_pos h]

/-- A number of characters that does not fit in an `int` wraps to one that is much less. -/
theorem toInt_bounds (h : 2147483648 ≤ s.length) :
    -2147483648 ≤ toInt s.length ∧ toInt s.length ≤ 2147483647 ∧
      toInt s.length + 2147483648 < s.length ∧
      2 * toInt s.length + 2147483648 < s.length := by
  unfold toInt
  split_ifs <;> omega

theorem decrement_eq (h : -2147483648 < n) : decrement n = some (n - 1) := if_neg (by omega)

theorem increment_some {m : ℤ} (h : increment n = some m) : m = n + 1 := by
  unfold increment at h
  split_ifs at h
  exact (Option.some.inj h).symm

theorem decrement_some {m : ℤ} (h : decrement n = some m) : n ≠ -2147483648 ∧ m = n - 1 := by
  unfold decrement at h
  split_ifs at h with hn
  exact ⟨hn, (Option.some.inj h).symm⟩

theorem realloc_some (h : tmp.realloc n = some b) : b = { tmp with size := n } := by
  unfold Buffer.realloc at h
  split_ifs at h
  exact (Option.some.inj h).symm

@[simp] theorem store_text (c : UInt8) : (tmp.store c).text = tmp.text ++ [c] := rfl

@[simp] theorem store_size (c : UInt8) : (tmp.store c).size = tmp.size := rfl

/-! ## Strings without special characters -/

theorem addLoop_plain (hs : ∀ c ∈ s, isSpecial c = false) (hn : -2147483648 + s.length ≤ n)
    (hsize : tmp.text.length + s.length < tmp.size) :
    ∃ b, addLoop s n len tmp = some b ∧ b.text = tmp.text ++ s ++ [0] ∧ b.inside = tmp.inside := by
  induction s generalizing n tmp with
  | nil =>
    have hin : (decide ((tmp.text.length : ℤ) < tmp.size)) = true :=
      decide_eq_true (by simpa using hsize)
    exact ⟨_, rfl, by simp, by simp only [Buffer.store, hin, Bool.and_true]⟩
  | cons c s ih =>
    obtain ⟨hc, hs⟩ := List.forall_mem_cons.1 hs
    rw [List.length_cons, Nat.cast_succ] at hn hsize
    obtain ⟨b, hb, htext, hinside⟩ := @ih (n - 1) (tmp.store c) hs (by omega) (by simp; omega)
    have hin : (decide ((tmp.text.length : ℤ) < tmp.size)) = true := decide_eq_true (by omega)
    refine ⟨b, ?_, by rw [htext]; simp, ?_⟩
    · rw [addLoop, decrement_eq (by omega), Option.bind_eq_bind, Option.bind_some,
        if_neg (by rw [hc]; exact fun h => Bool.false_ne_true h.2)]
      exact hb
    · rw [hinside]
      simp only [Buffer.store, hin, Bool.and_true]

theorem escaped_plain (hs : ∀ c ∈ s, isSpecial c = false) : Escaped s := by
  induction s with
  | nil => exact .nil
  | cons c s ih =>
    obtain ⟨hc, hs⟩ := List.forall_mem_cons.1 hs
    exact .plain hc (ih hs)

/-! ## Strings with special characters -/

/-- Where the buffer is no longer than the rest, the terminator is stored behind it. -/
theorem addLoop_outside (hlen : tmp.text.length + s.length = len) (hsize : tmp.size ≤ len)
    (h : addLoop s n len tmp = some b) : b.inside = false := by
  induction s generalizing n len tmp with
  | nil =>
    obtain rfl := Option.some.inj h
    have : ¬ (tmp.text.length : ℤ) < tmp.size := by
      simp only [List.length_nil] at hlen
      omega
    simp only [Buffer.store, decide_eq_false this, Bool.and_false]
  | cons c s ih =>
    rw [addLoop] at h
    rw [List.length_cons, Nat.cast_succ] at hlen
    obtain ⟨n', -, h⟩ := Option.bind_eq_some_iff.1 h
    split_ifs at h
    · obtain ⟨len', hlen', h⟩ := Option.bind_eq_some_iff.1 h
      obtain ⟨tmp', htmp', h⟩ := Option.bind_eq_some_iff.1 h
      obtain rfl := increment_some hlen'
      obtain rfl := realloc_some htmp'
      refine ih ?_ ?_ h
      · simp only [store_text, List.length_append, List.length_singleton]
        omega
      · exact le_rfl
    · refine @ih n' len (tmp.store c) ?_ hsize h
      simp only [store_text, List.length_append, List.length_singleton]
      omega

/-- The first special character makes the buffer too short. -/
theorem addLoop_special (hs : ∃ c ∈ s, isSpecial c = true) (hn : s.length ≤ n)
    (hlen : tmp.text.length + s.length = len) (h : addLoop s n len tmp = some b) :
    b.inside = false := by
  induction s generalizing n tmp with
  | nil => exact absurd hs (by simp)
  | cons c s ih =>
    rw [addLoop] at h
    rw [List.length_cons, Nat.cast_succ] at hn hlen
    obtain ⟨n', hn', h⟩ := Option.bind_eq_some_iff.1 h
    obtain ⟨-, rfl⟩ := decrement_some hn'
    split_ifs at h with hc
    · obtain ⟨len', hlen', h⟩ := Option.bind_eq_some_iff.1 h
      obtain ⟨tmp', htmp', h⟩ := Option.bind_eq_some_iff.1 h
      obtain rfl := increment_some hlen'
      obtain rfl := realloc_some htmp'
      refine addLoop_outside ?_ ?_ h
      · simp only [store_text, List.length_append, List.length_singleton]
        omega
      · exact le_rfl
    · have hc' : isSpecial c ≠ true := fun h' => hc ⟨by omega, h'⟩
      obtain ⟨d, hd, hd'⟩ := hs
      rcases List.mem_cons.1 hd with rfl | hd
      · exact absurd hd' hc'
      · refine ih ⟨d, hd, hd'⟩ (by omega) ?_ h
        simp only [store_text, List.length_append, List.length_singleton]
        omega

/-! ## Strings that are too long -/

theorem addLoop_long (hn : -2147483648 ≤ n) (h : n + 2147483648 < s.length) :
    addLoop s n len tmp = none := by
  induction s generalizing n len tmp with
  | nil =>
    simp only [List.length_nil, Nat.cast_zero] at h
    omega
  | cons c s ih =>
    rw [List.length_cons, Nat.cast_succ] at h
    rw [addLoop]
    cases hn' : decrement n with
    | none => rfl
    | some n' =>
      obtain ⟨hne, rfl⟩ := decrement_some hn'
      rw [Option.bind_eq_bind, Option.bind_some]
      split_ifs
      · rw [Option.bind_eq_bind, Option.bind_eq_none_iff]
        intro len' _
        rw [Option.bind_eq_none_iff]
        intro tmp' _
        exact ih (by omega) (by omega)
      · exact ih (by omega) (by omega)

/-- A turn takes two characters only while `n` is positive. -/
theorem stripLoop_long {tmp : Bytes} (hn : -2147483648 ≤ n) (h : n + 2147483648 < t.length)
    (h' : 2 * n + 2147483648 < t.length) : stripLoop t n tmp = none := by
  induction hl : t.length using Nat.strong_induction_on generalizing t n tmp with
  | _ l ih =>
    subst hl
    cases t with
    | nil =>
      simp only [List.length_nil, Nat.cast_zero] at h
      omega
    | cons c s =>
      rw [List.length_cons, Nat.cast_succ] at h h'
      rw [stripLoop.eq_def]
      dsimp only
      cases hn' : decrement n with
      | none => rfl
      | some n' =>
        obtain ⟨hne, rfl⟩ := decrement_some hn'
        rw [Option.bind_eq_bind, Option.bind_some]
        split_ifs with hc
        · cases s with
          | nil => rfl
          | cons d s =>
            rw [List.length_cons, Nat.cast_succ] at h h'
            exact ih s.length (by simp only [List.length_cons]; omega) (by omega) (by omega) (by omega)
              rfl
        · exact ih s.length (by simp only [List.length_cons]; omega) (by omega) (by omega) (by omega) rfl

/-! ## Stripping -/

theorem trailing_le (s : Bytes) : trailing s ≤ s.length := by
  induction s with
  | nil => exact le_rfl
  | cons c s ih =>
    rw [trailing, List.length_cons]
    split_ifs
    · exact le_rfl
    · omega

/-- A slash and what it escapes do not change the parity. -/
theorem trailing_pair {d : UInt8} : trailing (0x5C :: d :: s) % 2 = trailing s % 2 := by
  have hle := trailing_le s
  rw [trailing, trailing, List.length_cons]
  by_cases hd : d = 0x5C ∧ trailing s = s.length
  · rw [if_pos hd, if_pos ⟨rfl, rfl⟩, hd.2]
    omega
  · rw [if_neg hd, if_neg fun h => by omega]

/-- As long as `n` suffices, the loop ends inside if and only if the slashes at the end pair up. -/
theorem stripLoop_isSome {tmp : Bytes} (hn : (t.length : ℤ) ≤ n) :
    (stripLoop t n tmp).isSome ↔ trailing t % 2 = 0 := by
  induction hl : t.length using Nat.strong_induction_on generalizing t n tmp with
  | _ l ih =>
    subst hl
    cases t with
    | nil => exact iff_of_true rfl rfl
    | cons c s =>
      rw [List.length_cons, Nat.cast_succ] at hn
      rw [stripLoop.eq_def]
      dsimp only
      rw [decrement_eq (by omega), Option.bind_eq_bind, Option.bind_some]
      by_cases hc : c = 0x5C
      · rw [if_pos ⟨by omega, hc⟩]
        cases s with
        | nil => exact iff_of_false Bool.false_ne_true (by simp [trailing, hc])
        | cons d s =>
          rw [List.length_cons, Nat.cast_succ] at hn
          rw [hc, trailing_pair]
          exact ih s.length (by simp only [List.length_cons]; omega) (by omega) rfl
      · rw [if_neg (fun h => hc h.2), trailing, if_neg (fun h => hc h.1)]
        exact ih s.length (by simp only [List.length_cons]; omega) (by omega) rfl

/-- **The inverse law.** -/
theorem stripLoop_escape {tmp : Bytes} (hn : (s.length : ℤ) ≤ n) :
    stripLoop (escape s) n tmp = some (tmp ++ s) := by
  induction s generalizing n tmp with
  | nil => exact congrArg some (List.append_nil _).symm
  | cons c s ih =>
    rw [List.length_cons, Nat.cast_succ] at hn
    unfold escape
    rw [List.flatMap_cons]
    split_ifs with hc
    · rw [List.cons_append, List.cons_append, List.nil_append, stripLoop.eq_def]
      dsimp only
      rw [decrement_eq (by omega), Option.bind_eq_bind, Option.bind_some, if_pos ⟨by omega, rfl⟩]
      exact (ih (by omega)).trans (by rw [List.append_assoc]; rfl)
    · have hne : c ≠ 0x5C := by
        rintro rfl
        exact hc rfl
      rw [List.cons_append, List.nil_append, stripLoop.eq_def]
      dsimp only
      rw [decrement_eq (by omega), Option.bind_eq_bind, Option.bind_some, if_neg fun h => hne h.2]
      exact (ih (by omega)).trans (by rw [List.append_assoc]; rfl)

theorem escape_plain (hs : ∀ c ∈ s, isSpecial c = false) : escape s = s := by
  induction s with
  | nil => rfl
  | cons c s ih =>
    obtain ⟨hc, hs⟩ := List.forall_mem_cons.1 hs
    unfold escape at ih ⊢
    rw [List.flatMap_cons, ih hs, if_neg (by rw [hc]; exact Bool.false_ne_true)]
    rfl

end

/-! ## The laws -/

/-- `addslashes` stores inside its buffer, escapes what it has to, and is undone by `stripslashes`. -/
def SlashesOk (s : Bytes) : Prop :=
  ∃ tmp, addslashes s = some tmp ∧ tmp.inside = true ∧ Escaped tmp.string ∧
    stripslashes tmp.string = some s

/-- `stripslashes` reads nothing behind the terminator. -/
def StripOk (t : Bytes) : Prop := (stripslashes t).isSome

/-- **When the slash functions do what they are for**: the buffer of `addslashes` has room for the
    terminator only if nothing is escaped, and a slash at the end takes `stripslashes` out of the string. -/
theorem slashes_iff (s t : Bytes) :
    (SlashesOk s ↔ s.length < 2147483647 ∧ ∀ c ∈ s, isSpecial c = false) ∧
      (StripOk t ↔ t.length < 2147483648 ∧ trailing t % 2 = 0) := by
  refine ⟨⟨fun h => ?_, fun h => ?_⟩, ?_⟩
  · obtain ⟨tmp, htmp, hinside, -, -⟩ := h
    unfold addslashes addnslashes at htmp
    obtain ⟨size, hsize, htmp⟩ := Option.bind_eq_some_iff.1 htmp
    obtain ⟨buf, hbuf, htmp⟩ := Option.bind_eq_some_iff.1 htmp
    obtain rfl := realloc_some hbuf
    by_cases hlong : 2147483648 ≤ s.length
    · obtain ⟨h₁, -, h₂, -⟩ := toInt_bounds hlong
      rw [addLoop_long h₁ h₂] at htmp
      cases htmp
    have hlen := toInt_eq (s := s) (by omega)
    rw [hlen] at hsize htmp
    have hlt : s.length ≠ 2147483647 := by
      rintro heq
      rw [heq] at hsize
      cases hsize
    refine ⟨by omega, fun c hc => ?_⟩
    by_contra hspecial
    have hout := addLoop_special ⟨c, hc, Bool.eq_true_of_not_eq_false hspecial⟩ le_rfl
      (by simp) htmp
    rw [hout] at hinside
    cases hinside
  · obtain ⟨hlen, hs⟩ := h
    have heq := toInt_eq (s := s) (by omega)
    obtain ⟨b, hb, htext, hinside⟩ := @addLoop_plain s s.length s.length ⟨[], s.length + 1, true⟩ hs
      (by omega) (by simp)
    have hstring : b.string = s := by
      unfold Buffer.string
      rw [htext, List.nil_append, List.dropLast_concat]
    refine ⟨b, ?_, hinside, hstring ▸ escaped_plain hs, ?_⟩
    · unfold addslashes addnslashes
      simp only [heq, increment, Buffer.realloc]
      rw [if_neg (by omega), Option.bind_eq_bind, Option.bind_some, if_neg (by omega)]
      exact hb
    · unfold stripslashes stripnslashes
      rw [hstring, heq]
      have hstrip := @stripLoop_escape s s.length [] le_rfl
      rwa [escape_plain hs] at hstrip
  · unfold StripOk stripslashes stripnslashes
    by_cases hlong : 2147483648 ≤ t.length
    · obtain ⟨h₁, -, h₂, h₃⟩ := toInt_bounds hlong
      rw [stripLoop_long h₁ h₂ h₃]
      exact iff_of_false Bool.false_ne_true fun h => by omega
    · have hlt : t.length < 2147483648 := by omega
      rw [toInt_eq hlt, stripLoop_isSome le_rfl]
      exact ⟨fun h => ⟨hlt, h⟩, fun h => h.2⟩

/-- One quote, for which the terminator is stored behind a buffer of two bytes, and one slash. -/
theorem slashes_fail : ¬ ((∀ s, SlashesOk s) ∧ ∀ t, StripOk t) ∧ ¬ SlashesOk [0x22] ∧ ¬ StripOk [0x5C] := by
  have hquote : ¬ SlashesOk [0x22] := by
    rintro ⟨tmp, htmp, hinside, -⟩
    obtain rfl := Option.some.inj htmp
    exact absurd hinside (by decide)
  exact ⟨fun h => hquote (h.1 _), hquote, Bool.false_ne_true⟩

end Libcgi
