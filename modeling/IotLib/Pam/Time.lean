/-
  The times in the rules of pam_time (`pam_time.c`): `check_time`, given a day and a time.

  A token is what `logic_member` cuts out of a field: it is followed by the end of the field or by a
  character that is in no token.
-/
import IotLib.Pam.Control

namespace Pam.Time

/-! ## The functions -/

def isalpha (c : UInt8) : Bool := (65 ≤ c && c ≤ 90) || (97 ≤ c && c ≤ 122)

def tolower (c : UInt8) : UInt8 := if 65 ≤ c && c ≤ 90 then c + 32 else c

/-- What tokens are made of in `logic_member`. -/
def isMember (c : UInt8) : Bool := isalpha c || isdigit c || c ∈ chars "*_-./:"

/-- `days` -/
def days : List (String × ℕ) :=
  [("su", 0o1), ("mo", 0o2), ("tu", 0o4), ("we", 0o10), ("th", 0o20), ("fr", 0o40), ("sa", 0o100),
    ("wk", 0o76), ("wd", 0o101), ("al", 0o177)]

/-- `TIME` -/
structure TIME where
  day : ℕ
  minute : ℕ

/-- `time_now`, of the fields of `localtime`. -/
def timeNow (wday : Fin 7) (hour min : ℕ) : TIME := ⟨(days.map Prod.snd).getD wday 0, hour * 100 + min⟩

/-- The bits of a day code. -/
def findDay (a b : UInt8) : Option ℕ :=
  (days.find? fun d => chars d.1 = [tolower a, tolower b]).map Prod.snd

/-- The loop over the day codes: the marked days, `len`, and the rest; none for a bad day. -/
def dayLoop : ℕ → ℕ → List UInt8 → Option (ℕ × ℕ × List UInt8)
  | 0, marked, times => some (marked, 0, times)
  | len + 1, marked, times =>
    if isalpha (times.headD 0) then
      match findDay (times.headD 0) (times.getD 1 0) with
      | none => none
      | some bit => dayLoop len (marked ^^^ bit) (times.drop 2)
    else some (marked, len + 1, times)

/-- A loop over at most `room` digits: the number, the room that is left, `len`, and the rest. -/
def number : ℕ → ℕ → ℕ → List UInt8 → ℕ × ℕ × ℕ × List UInt8
  | room + 1, len + 1, time, c :: times =>
    if isdigit c then number room len (time * 10 + (c.toNat - 48)) times
    else (time, room + 1, len + 1, c :: times)
  | room, len, time, times => (time, room, len, times)

/-- The comparison with the time now. -/
def passes (at_ : TIME) (marked start end_ : ℕ) : Bool :=
  if start < end_ then at_.day &&& marked ≠ 0 && at_.minute ≥ start && at_.minute < end_
  else if at_.day &&& marked ≠ 0 && at_.minute ≥ start then true
  else
    let marked := marked <<< 1
    let marked := marked ||| (if marked &&& 0o200 ≠ 0 then 1 else 0)
    at_.day &&& marked ≠ 0 && at_.minute ≤ end_

/-- What follows the days in `check_time`. -/
def checkRange (at_ : TIME) (not : Bool) (marked len : ℕ) (times : List UInt8) : Bool :=
  let (start, _, len, times) := number 4 len 0 times
  if times.headD 0 = 0x2D then
    let (end_, room, _, _) := number 4 len 0 times.tail
    if room ≠ 0 then true else xor not (passes at_ marked start end_)
  else true

/-- `check_time` -/
def checkTime (at_ : TIME) (times : List UInt8) (len : ℕ) : Bool :=
  let not := times.headD 0 = 0x21
  match dayLoop len 0 (if not then times.tail else times) with
  | none => false
  | some (marked, len, times) => if marked = 0 then false else checkRange at_ not marked len times

/-! ## Specifications -/

/-- Day codes, and the days that they mark; a code that is repeated unmarks its days. -/
inductive DayPart : List UInt8 → ℕ → Prop
  | nil : DayPart [] 0
  | cons {a b : UInt8} {d : List UInt8} {bit marked : ℕ} (hday : findDay a b = some bit)
      (hd : DayPart d marked) : DayPart (a :: b :: d) (bit ^^^ marked)

def value (time : ℕ) (digits : List UInt8) : ℕ := digits.foldl (fun n c => n * 10 + (c.toNat - 48)) time

/-- A clock time `HHMM`; 2400 is the end of the day. -/
def IsClock (digits : List UInt8) (time : ℕ) : Prop :=
  (∀ c ∈ digits, isdigit c = true) ∧ digits.length = 4 ∧ value 0 digits = time ∧
    (time / 100 < 24 ∧ time % 100 < 60 ∨ time = 2400)

/-- A specification: day codes with a day that is left marked, and a time range. -/
def Spec (tok : List UInt8) (marked start end_ : ℕ) : Prop :=
  ∃ d s e, tok = d ++ (s ++ 0x2D :: e) ∧ DayPart d marked ∧ marked ≠ 0 ∧ IsClock s start ∧ IsClock e end_

/-- The times of a specification: from `start` to `end_` on a marked day, or over midnight to the day
    after a marked day. -/
def Inside (marked start end_ : ℕ) (wday : Fin 7) (now : ℕ) : Prop :=
  if start < end_ then marked.testBit wday ∧ start ≤ now ∧ now < end_
  else (marked.testBit wday ∧ start ≤ now) ∨ (marked.testBit (wday + 6 : Fin 7) ∧ now < end_)

/-- The end of a range over midnight, which is taken as inside. -/
def AtEnd (marked start end_ : ℕ) (wday : Fin 7) (now : ℕ) : Prop :=
  end_ ≤ start ∧ now = end_ ∧ marked.testBit (wday + 6 : Fin 7) ∧ ¬ (marked.testBit wday ∧ start = end_)

/-- The day part of a token is well formed. -/
def DaysOk (tok : List UInt8) : Prop :=
  ∃ d t marked, tok = d ++ t ∧ DayPart d marked ∧ marked ≠ 0 ∧ ∀ c ∈ t.head?, isalpha c = false

/-- A token that is taken for a specification: the start may have fewer digits, no time has to be one of
    the clock, and anything may follow. -/
def Reads (tok : List UInt8) (marked start end_ : ℕ) : Prop :=
  ∃ d s e extra, tok = d ++ (s ++ 0x2D :: (e ++ extra)) ∧ DayPart d marked ∧ marked ≠ 0 ∧
    ((∀ c ∈ s, isdigit c = true) ∧ s.length ≤ 4 ∧ value 0 s = start) ∧
    ((∀ c ∈ e, isdigit c = true) ∧ e.length = 4 ∧ value 0 e = end_)

section
variable {tok rest d t s u : List UInt8} {marked start end_ len room n : ℕ} {at_ : TIME}

/-! ## Days -/

theorem isalpha_of_tolower {a b : UInt8} {bit : ℕ} (h : findDay a b = some bit) :
    isalpha a = true ∧ isalpha b = true := by
  have hletter : ∀ c : UInt8, isalpha (tolower c) = true → isalpha c = true := by
    intro c
    unfold isalpha tolower
    split_ifs with hc
    · intro _
      rw [hc, Bool.true_or]
    · exact id
  have hdays : ∀ d ∈ days, ∀ c ∈ chars d.1, isalpha c = true := by decide
  obtain ⟨d, hd, -⟩ := Option.map_eq_some_iff.1 h
  have hmem := List.mem_of_find?_eq_some hd
  have hchars : chars d.1 = [tolower a, tolower b] := by simpa using List.find?_some hd
  refine ⟨hletter a (hdays d hmem _ ?_), hletter b (hdays d hmem _ ?_)⟩ <;>
    simp [hchars]

theorem DayPart.letters (h : DayPart d marked) : ∀ c ∈ d, isalpha c = true := by
  induction h with
  | nil => exact nofun
  | cons hday _ ih =>
    obtain ⟨ha, hb⟩ := isalpha_of_tolower hday
    exact List.forall_mem_cons.2 ⟨ha, List.forall_mem_cons.2 ⟨hb, ih⟩⟩

theorem dayLoop_days {m : ℕ} (h : DayPart d marked) (ht : ∀ c ∈ t.head?, isalpha c = false)
    (hlen : d.length ≤ 2 * len) : dayLoop len m (d ++ t) = some (m ^^^ marked, len - d.length / 2, t) := by
  induction h generalizing len m with
  | nil =>
    rw [List.nil_append, Nat.xor_zero]
    cases len with
    | zero => rfl
    | succ len =>
      have hhead : isalpha (t.headD 0) = false := by
        cases t with
        | nil => rfl
        | cons c t => exact ht c rfl
      rw [dayLoop, hhead, if_neg Bool.false_ne_true]
      rfl
  | @cons a b d bit marked hday _ ih =>
    simp only [List.length_cons] at hlen ⊢
    obtain ⟨len, rfl⟩ := Nat.exists_eq_succ_of_ne_zero (show len ≠ 0 by omega)
    rw [dayLoop]
    simp only [List.cons_append, List.headD_cons, List.getD_cons_succ, List.getD_cons_zero,
      (isalpha_of_tolower hday).1, if_true, hday, List.drop_succ_cons, List.drop_zero]
    rw [ih (by omega), Nat.xor_assoc]
    congr 3
    omega

theorem dayLoop_some {m m' len' : ℕ} {times : List UInt8} (h : dayLoop len m times = some (m', len', t)) :
    ∃ d marked, times = d ++ t ∧ DayPart d marked ∧ m' = m ^^^ marked ∧
      (len' = 0 ∨ ∀ c ∈ t.head?, isalpha c = false) ∧ 2 * len' + d.length = 2 * len := by
  induction len generalizing m times with
  | zero =>
    obtain ⟨rfl, h'⟩ := Prod.mk.inj (Option.some.inj h)
    obtain ⟨rfl, rfl⟩ := Prod.mk.inj h'
    exact ⟨[], 0, rfl, .nil, (Nat.xor_zero _).symm, .inl rfl, rfl⟩
  | succ len ih =>
    rw [dayLoop] at h
    by_cases halpha : isalpha (times.headD 0) = true
    · rw [if_pos halpha] at h
      cases hday : findDay (times.headD 0) (times.getD 1 0) with
      | none =>
        rw [hday] at h
        cases h
      | some bit =>
        rw [hday] at h
        obtain ⟨d, marked, hd, hpart, rfl, hend, hlen⟩ := ih h
        match times, halpha, hday, hd with
        | [], halpha, _, _ => exact absurd halpha (by decide)
        | [a], _, hday, _ =>
          have hnul : isalpha 0 = true := (isalpha_of_tolower hday).2
          exact absurd hnul (by decide)
        | a :: b :: times, _, hday, hd =>
          refine ⟨a :: b :: d, bit ^^^ marked, ?_, .cons hday hpart, Nat.xor_assoc _ _ _, hend, ?_⟩
          · rw [List.cons_append, List.cons_append, ← hd]
            rfl
          · simp only [List.length_cons]
            omega
    · rw [if_neg halpha] at h
      obtain ⟨rfl, h'⟩ := Prod.mk.inj (Option.some.inj h)
      obtain ⟨rfl, rfl⟩ := Prod.mk.inj h'
      refine ⟨[], 0, rfl, .nil, (Nat.xor_zero _).symm, .inr fun c hc => ?_, rfl⟩
      cases times with
      | nil => cases hc
      | cons e times =>
        obtain rfl := Option.some.inj hc
        exact Bool.eq_false_of_not_eq_true halpha

/-! ## Numbers -/

theorem number_digits (hs : ∀ c ∈ s, isdigit c = true) (hroom : s.length ≤ room) (hlen : s.length ≤ len)
    (hu : s.length = room ∨ ∀ c ∈ u.head?, isdigit c = false) :
    number room len n (s ++ u) = (value n s, room - s.length, len - s.length, u) := by
  induction s generalizing room len n with
  | nil =>
    rw [List.nil_append]
    cases room with
    | zero => rfl
    | succ room =>
      have hu : ∀ c ∈ u.head?, isdigit c = false := hu.resolve_left (Nat.succ_ne_zero room).symm
      cases len with
      | zero => rfl
      | succ len =>
        cases u with
        | nil => rfl
        | cons c u =>
          rw [number, hu c rfl, if_neg Bool.false_ne_true]
          rfl
  | cons c s ih =>
    obtain ⟨hc, hs⟩ := List.forall_mem_cons.1 hs
    simp only [List.length_cons] at hroom hlen hu ⊢
    obtain ⟨room, rfl⟩ := Nat.exists_eq_succ_of_ne_zero (show room ≠ 0 by omega)
    obtain ⟨len, rfl⟩ := Nat.exists_eq_succ_of_ne_zero (show len ≠ 0 by omega)
    rw [List.cons_append, number, if_pos hc, ih hs (by omega) (by omega) (hu.imp_left Nat.succ.inj)]
    simp only [Nat.succ_sub_succ]
    rfl

/-- Every text begins with some digits, up to a number of them. -/
theorem exists_digits (room : ℕ) (t : List UInt8) : ∃ s u, t = s ++ u ∧ (∀ c ∈ s, isdigit c = true) ∧
    s.length ≤ room ∧ (s.length = room ∨ ∀ c ∈ u.head?, isdigit c = false) := by
  induction room generalizing t with
  | zero => exact ⟨[], t, rfl, nofun, le_rfl, .inl rfl⟩
  | succ room ih =>
    cases t with
    | nil => exact ⟨[], [], rfl, nofun, Nat.zero_le _, .inr nofun⟩
    | cons c t =>
      by_cases hc : isdigit c = true
      · obtain ⟨s, u, rfl, hs, hlen, hu⟩ := ih t
        exact ⟨c :: s, u, rfl, List.forall_mem_cons.2 ⟨hc, hs⟩, Nat.succ_le_succ hlen,
          hu.imp_left (congrArg Nat.succ)⟩
      · refine ⟨[], c :: t, rfl, nofun, Nat.zero_le _, .inr fun e he => ?_⟩
        obtain rfl := Option.some.inj he
        exact Bool.eq_false_of_not_eq_true hc

/-! ## Tokens -/

/-- Behind a token there is no letter, no digit and no hyphen. -/
def Follows (rest : List UInt8) : Prop := ∀ c ∈ rest.head?, isMember c = false

theorem head_append {p : UInt8 → Bool} (ht : ∀ c ∈ t.head?, p c = false)
    (hrest : ∀ c ∈ rest.head?, p c = false) : ∀ c ∈ (t ++ rest).head?, p c = false := by
  cases t with
  | nil => exact hrest
  | cons c t => exact ht

/-- A time range does not begin with a letter. -/
theorem range_head (hs : ∀ c ∈ s, isdigit c = true) : ∀ c ∈ (s ++ 0x2D :: u).head?, isalpha c = false := by
  refine head_append (fun c hc => ?_) fun c hc => ?_
  · have hdigit := hs c (List.mem_of_mem_head? hc)
    unfold isdigit at hdigit
    unfold isalpha
    simp only [Bool.and_eq_true, decide_eq_true_eq, Bool.or_eq_false_iff, Bool.and_eq_false_iff,
      decide_eq_false_iff_not, UInt8.le_iff_toNat_le, UInt8.reduceToNat] at hdigit ⊢
    omega
  · obtain rfl := Option.some.inj hc
    rfl

theorem Follows.alpha (h : Follows rest) : ∀ c ∈ rest.head?, isalpha c = false := by
  intro c hc
  have := h c hc
  simp only [isMember, Bool.or_eq_false_iff] at this
  exact this.1.1

theorem Follows.digit (h : Follows rest) : ∀ c ∈ rest.head?, isdigit c = false := by
  intro c hc
  have := h c hc
  simp only [isMember, Bool.or_eq_false_iff] at this
  exact this.1.2

theorem Follows.hyphen (h : Follows rest) (hu : (u ++ rest).headD 0 = 0x2D) : ∃ v, u = 0x2D :: v := by
  cases u with
  | cons c u =>
    obtain rfl : c = 0x2D := hu
    exact ⟨u, rfl⟩
  | nil =>
    cases rest with
    | nil => exact absurd hu (by decide)
    | cons c rest =>
      obtain rfl : c = 0x2D := hu
      exact absurd (h _ rfl) (by decide)

/-- The days of a token are marked. -/
theorem checkTime_days (hrest : Follows rest) (heq : tok = d ++ t)
    (hd : DayPart d marked) (hm : marked ≠ 0) (ht : ∀ c ∈ t.head?, isalpha c = false) :
    checkTime at_ (tok ++ rest) tok.length =
      checkRange at_ false marked (tok.length - d.length / 2) (t ++ rest) := by
  have hne : d ≠ [] := by
    rintro rfl
    cases hd
    exact hm rfl
  have hnot : ¬ (tok ++ rest).headD 0 = 0x21 := by
    obtain ⟨c, d', rfl⟩ := List.exists_cons_of_ne_nil hne
    rw [heq, List.cons_append, List.cons_append, List.headD_cons]
    rintro rfl
    exact absurd (hd.letters _ List.mem_cons_self) (by decide)
  have hloop := dayLoop_days (m := 0) (t := t ++ rest) hd (head_append ht hrest.alpha)
    (show d.length ≤ 2 * tok.length by rw [heq, List.length_append]; omega)
  unfold checkTime
  dsimp only
  rw [if_neg hnot, decide_eq_false hnot, show tok ++ rest = d ++ (t ++ rest) by rw [heq, List.append_assoc],
    hloop, Nat.zero_xor]
  exact if_neg hm

/-- A bad day part is never passed. -/
theorem checkTime_bad (htok : ∀ c ∈ tok, isMember c = true) (hrest : Follows rest) (h : ¬ DaysOk tok) :
    checkTime at_ (tok ++ rest) tok.length = false := by
  have hnot : tok ≠ [] → ¬ (tok ++ rest).headD 0 = 0x21 := by
    intro hne
    obtain ⟨c, tok', rfl⟩ := List.exists_cons_of_ne_nil hne
    rintro (rfl : c = 0x21)
    exact absurd (htok _ List.mem_cons_self) (by decide)
  by_cases hne : tok = []
  · subst hne
    unfold checkTime
    rfl
  unfold checkTime
  dsimp only
  rw [if_neg (hnot hne)]
  cases hloop : dayLoop tok.length 0 (tok ++ rest) with
  | none => rfl
  | some r =>
    obtain ⟨m, len', t⟩ := r
    refine if_pos (not_not.1 fun hm => h ?_)
    obtain ⟨d, marked, heq, hd, hm', hend, hlen⟩ := dayLoop_some hloop
    rw [Nat.zero_xor] at hm'
    subst hm'
    have hpos : 0 < tok.length := List.length_pos_of_ne_nil hne
    rcases List.append_eq_append_iff.1 heq with ⟨x, rfl, hx⟩ | ⟨x, rfl, rfl⟩
    · -- the codes do not go on behind the token
      cases x with
      | nil =>
        rw [List.append_nil] at hd
        exact ⟨tok, [], m, (List.append_nil _).symm, hd, hm, nofun⟩
      | cons c x =>
        have hc := hd.letters c (List.mem_append_right _ List.mem_cons_self)
        rw [hx] at hrest
        rw [hrest.alpha c rfl] at hc
        cases hc
    · refine ⟨d, x, m, rfl, hd, hm, fun c hc => ?_⟩
      rw [List.length_append] at hlen hpos
      refine hend.resolve_left (by omega) c ?_
      cases x with
      | nil => cases hc
      | cons e x => exact hc

/-- A token that is taken for a specification is compared with the time now. -/
theorem checkTime_reads (hrest : Follows rest) (h : Reads tok marked start end_) :
    checkTime at_ (tok ++ rest) tok.length = passes at_ marked start end_ := by
  obtain ⟨d, s, e, extra, heq, hd, hm, ⟨hs, hslen, rfl⟩, he, helen, rfl⟩ := h
  rw [checkTime_days hrest heq hd hm (range_head hs)]
  have hlen : tok.length = d.length + (s.length + (e.length + extra.length + 1)) := by
    rw [heq]
    simp only [List.length_append, List.length_cons]
  have h₁ : number 4 (tok.length - d.length / 2) 0 (s ++ 0x2D :: (e ++ extra) ++ rest) =
      (value 0 s, 4 - s.length, tok.length - d.length / 2 - s.length, 0x2D :: (e ++ extra ++ rest)) := by
    rw [List.append_assoc]
    refine number_digits hs hslen (by omega) (Or.inr fun c hc => ?_)
    obtain rfl := Option.some.inj hc
    rfl
  have h₂ : number 4 (tok.length - d.length / 2 - s.length) 0 (e ++ extra ++ rest) =
      (value 0 e, 4 - e.length, tok.length - d.length / 2 - s.length - e.length, extra ++ rest) := by
    rw [List.append_assoc]
    exact number_digits he helen.le (by omega) (Or.inl helen)
  unfold checkRange
  rw [h₁]
  refine (if_pos rfl).trans ?_
  rw [List.tail_cons, h₂, helen]
  exact Bool.false_xor _

/-- A token with days that is not taken for a specification is passed. -/
theorem checkTime_other (hrest : Follows rest) (hdays : DaysOk tok)
    (h : ¬ ∃ marked start end_, Reads tok marked start end_) :
    checkTime at_ (tok ++ rest) tok.length = true := by
  obtain ⟨d, t, marked, heq, hd, hm, ht⟩ := hdays
  rw [checkTime_days hrest heq hd hm ht]
  obtain ⟨s, u, rfl, hs, hslen, hu⟩ := exists_digits 4 t
  have hlen : tok.length = d.length + (s.length + u.length) := by
    rw [heq]
    simp only [List.length_append]
  have h₁ := number_digits (n := 0) (u := u ++ rest) hs hslen
    (show s.length ≤ tok.length - d.length / 2 by omega)
    (hu.imp_right fun hu => head_append hu hrest.digit)
  unfold checkRange
  rw [List.append_assoc, h₁]
  dsimp only
  by_cases hhyphen : (u ++ rest).headD 0 = 0x2D
  swap
  · exact if_neg hhyphen
  obtain ⟨v, rfl⟩ := hrest.hyphen hhyphen
  obtain ⟨e, extra, rfl, he, helen, hextra⟩ := exists_digits 4 v
  simp only [List.length_cons, List.length_append] at hlen
  have h₂ := number_digits (n := 0) (u := extra ++ rest) he helen
    (show e.length ≤ tok.length - d.length / 2 - s.length by omega)
    (hextra.imp_right fun hu => head_append hu hrest.digit)
  rw [if_pos hhyphen, List.cons_append, List.tail_cons, List.append_assoc, h₂]
  refine if_pos fun hroom => h ⟨marked, _, _, d, s, e, extra, heq, hd, hm, ⟨hs, hslen, rfl⟩, he, ?_, rfl⟩
  have hroom : 4 - e.length = 0 := hroom
  omega

/-- What a token is taken for is unique. -/
theorem Reads.unique {marked' start' end_' : ℕ} (h : Reads tok marked start end_)
    (h' : Reads tok marked' start' end_') : marked = marked' ∧ start = start' ∧ end_ = end_' := by
  obtain ⟨d, s, e, x, rfl, hd, -, ⟨hs, hslen, rfl⟩, he, helen, rfl⟩ := h
  obtain ⟨d', s', e', x', heq, hd', -, ⟨hs', hslen', rfl⟩, he', helen', rfl⟩ := h'
  -- the loops are functions of the text
  have hdays := dayLoop_days (m := 0) hd (range_head (u := e ++ x) hs)
    (show d.length ≤ 2 * (d.length + d'.length) by omega)
  have hdays' := dayLoop_days (m := 0) hd' (range_head (u := e' ++ x') hs')
    (show d'.length ≤ 2 * (d.length + d'.length) by omega)
  rw [heq, hdays'] at hdays
  obtain ⟨hmarked, hrange⟩ := Prod.mk.inj (Option.some.inj hdays)
  obtain ⟨-, hrange⟩ := Prod.mk.inj hrange
  have hhyphen : ∀ v : List UInt8, ∀ c ∈ (0x2D :: v : List UInt8).head?, isdigit c = false := by
    intro v c hc
    obtain rfl := Option.some.inj hc
    rfl
  have hstart := number_digits (n := 0) hs hslen (show s.length ≤ s.length + s'.length by omega)
    (.inr (hhyphen (e ++ x)))
  have hstart' := number_digits (n := 0) hs' hslen' (show s'.length ≤ s.length + s'.length by omega)
    (.inr (hhyphen (e' ++ x')))
  rw [← hrange, hstart'] at hstart
  obtain ⟨hstart, htail⟩ := Prod.mk.inj hstart
  obtain ⟨-, htail⟩ := Prod.mk.inj htail
  obtain ⟨-, htail⟩ := (List.cons.inj (Prod.mk.inj htail).2)
  have hend := number_digits (n := 0) (u := x) he helen.le (show e.length ≤ 4 by omega) (.inl helen)
  have hend' := number_digits (n := 0) (u := x') he' helen'.le (show e'.length ≤ 4 by omega) (.inl helen')
  rw [← htail, hend'] at hend
  rw [Nat.zero_xor, Nat.zero_xor] at hmarked
  exact ⟨hmarked.symm, hstart.symm, (Prod.mk.inj hend).1.symm⟩

theorem Spec.reads (h : Spec tok marked start end_) : Reads tok marked start end_ := by
  obtain ⟨d, s, e, rfl, hd, hm, ⟨hs, hslen, hsval, -⟩, he, helen, heval, -⟩ := h
  exact ⟨d, s, e, [], by rw [List.append_nil], hd, hm, ⟨hs, hslen.le, hsval⟩, he, helen, heval⟩

theorem Reads.daysOk (h : Reads tok marked start end_) : DaysOk tok := by
  obtain ⟨d, s, e, x, rfl, hd, hm, ⟨hs, -, -⟩, -⟩ := h
  exact ⟨d, _, marked, rfl, hd, hm, range_head hs⟩

/-! ## Days as bits -/

variable {wday : Fin 7} {hour min : ℕ}

theorem timeNow_day : (timeNow wday hour min).day = 2 ^ wday.val := by
  show (days.map Prod.snd).getD wday 0 = 2 ^ wday.val
  revert wday
  decide

theorem day_and {m : ℕ} : (timeNow wday hour min).day &&& m ≠ 0 ↔ m.testBit wday := by
  rw [timeNow_day, Nat.two_pow_and, ne_eq, Nat.mul_eq_zero, not_or]
  have hpow : 2 ^ wday.val ≠ 0 := (Nat.two_pow_pos _).ne'
  cases m.testBit wday <;> simp

/-- The days after the marked days: Sunday comes after Saturday. -/
theorem nextDay :
    (marked <<< 1 ||| (if marked <<< 1 &&& 0o200 ≠ 0 then 1 else 0)).testBit wday =
      marked.testBit (wday + 6 : Fin 7) := by
  have hbit : (marked <<< 1 &&& 0o200 ≠ 0) ↔ marked.testBit 6 = true := by
    rw [show (0o200 : ℕ) = 2 ^ 7 from rfl, Nat.and_two_pow, ne_eq, Nat.mul_eq_zero, not_or,
      Nat.testBit_shiftLeft]
    cases marked.testBit 6 <;> simp
  rw [Nat.testBit_or, Nat.testBit_shiftLeft]
  match wday with
  | ⟨0, _⟩ =>
    simp only [hbit]
    cases h : marked.testBit 6 <;> simp [h]
  | ⟨k + 1, hk⟩ =>
    have hval : ((⟨k + 1, hk⟩ : Fin 7) + 6 : Fin 7).val = k := by
      show (k + 1 + 6) % 7 = k
      omega
    rw [hval]
    have hone : (if marked <<< 1 &&& 0o200 ≠ 0 then 1 else 0 : ℕ).testBit (k + 1) = false := by
      split_ifs
      · exact Nat.testBit_lt_two_pow (Nat.one_lt_two_pow (Nat.succ_ne_zero k))
      · exact Nat.zero_testBit _
    rw [hone, Bool.or_false, Nat.add_sub_cancel, decide_eq_true (Nat.succ_le_succ (Nat.zero_le k)),
      Bool.true_and]

/-- The comparison is that of the specification, but at the end of a range over midnight. -/
theorem passes_iff :
    passes (timeNow wday hour min) marked start end_ = true ↔
      Inside marked start end_ wday (hour * 100 + min) ∨ AtEnd marked start end_ wday (hour * 100 + min) := by
  have hday : ∀ m : ℕ, decide ((timeNow wday hour min).day &&& m ≠ 0) = true ↔ m.testBit wday = true :=
    fun m => decide_eq_true_iff.trans day_and
  have hminute : (timeNow wday hour min).minute = hour * 100 + min := rfl
  unfold passes Inside AtEnd
  by_cases hlt : start < end_
  · rw [if_pos hlt, if_pos hlt]
    simp only [Bool.and_eq_true, hday, hminute, decide_eq_true_eq, ge_iff_le]
    rw [and_assoc]
    exact ⟨Or.inl, fun h => h.resolve_right fun h => absurd h.1 (Nat.not_le_of_lt hlt)⟩
  · rw [if_neg hlt, if_neg hlt]
    by_cases hfirst : marked.testBit wday = true ∧ start ≤ hour * 100 + min
    · rw [if_pos (by simpa only [Bool.and_eq_true, hday, hminute, decide_eq_true_eq, ge_iff_le] using hfirst)]
      exact iff_of_true rfl (Or.inl (Or.inl hfirst))
    · rw [if_neg (by simpa only [Bool.and_eq_true, hday, hminute, decide_eq_true_eq, ge_iff_le] using hfirst)]
      simp only [Bool.and_eq_true, hday, hminute, decide_eq_true_eq, nextDay]
      constructor
      · rintro ⟨hnext, hle⟩
        rcases Nat.lt_or_eq_of_le hle with hlt' | heq
        · exact Or.inl (Or.inr ⟨hnext, hlt'⟩)
        · exact Or.inr ⟨Nat.le_of_not_lt hlt, heq, hnext, fun h => hfirst ⟨h.1, by omega⟩⟩
      · rintro ((h | h) | h)
        · exact absurd h hfirst
        · exact ⟨h.1, h.2.le⟩
        · exact ⟨h.2.2.1, h.2.1.le⟩

end

/-! ## The check -/

/-- What `check_time` is for: it tells whether the time is in that of a specification, and does not pass
    what is none. -/
def TimeOk (wday : Fin 7) (hour min : ℕ) (tok rest : List UInt8) : Prop :=
  let r := checkTime (timeNow wday hour min) (tok ++ rest) tok.length
  (∀ marked start end_, Spec tok marked start end_ →
    (r = true ↔ Inside marked start end_ wday (hour * 100 + min))) ∧
  ((¬ ∃ marked start end_, Spec tok marked start end_) → r = false)

/-- **When `check_time` is right**: if the days are well formed, the text has to be taken for a
    specification. The time may not be the end of one over midnight, and not be in one that is malformed. -/
theorem checkTime_iff (wday : Fin 7) (hour min : ℕ) (tok rest : List UInt8)
    (htok : ∀ c ∈ tok, isMember c = true) (hrest : Follows rest) :
    TimeOk wday hour min tok rest ↔
      (DaysOk tok → ∃ marked start end_, Reads tok marked start end_ ∧
        ¬ AtEnd marked start end_ wday (hour * 100 + min) ∧
        (Inside marked start end_ wday (hour * 100 + min) → Spec tok marked start end_)) := by
  unfold TimeOk
  dsimp only
  by_cases hdays : DaysOk tok
  swap
  · rw [checkTime_bad htok hrest hdays]
    exact iff_of_true ⟨fun m s e h => absurd h.reads.daysOk hdays, fun _ => rfl⟩ fun h => absurd h hdays
  by_cases hreads : ∃ marked start end_, Reads tok marked start end_
  swap
  · rw [checkTime_other hrest hdays hreads]
    refine iff_of_false (fun h => ?_) fun h => ?_
    · refine absurd (h.2 ?_) Bool.noConfusion
      rintro ⟨m, s, e, hspec⟩
      exact hreads ⟨m, s, e, hspec.reads⟩
    · obtain ⟨m, s, e, hr, -⟩ := h hdays
      exact hreads ⟨m, s, e, hr⟩
  obtain ⟨marked, start, end_, hr⟩ := hreads
  have hpass : passes (timeNow wday hour min) marked start end_ = true ↔ _ := passes_iff
  have hend : AtEnd marked start end_ wday (hour * 100 + min) →
      ¬ Inside marked start end_ wday (hour * 100 + min) := by
    rintro ⟨hle, hnow, -, hfirst⟩ hin
    unfold Inside at hin
    rw [if_neg (Nat.not_lt_of_le hle)] at hin
    rcases hin with ⟨hday, hs⟩ | ⟨-, hlt⟩
    · exact hfirst ⟨hday, by omega⟩
    · exact absurd hnow hlt.ne
  rw [checkTime_reads hrest hr]
  constructor
  · rintro ⟨hspec, hbad⟩ -
    refine ⟨marked, start, end_, hr, fun hat => ?_, fun hin => ?_⟩
    · by_cases h : ∃ m s e, Spec tok m s e
      · obtain ⟨m, s, e, hs⟩ := h
        obtain ⟨rfl, rfl, rfl⟩ := hr.unique hs.reads
        exact hend hat ((hspec _ _ _ hs).1 (hpass.2 (.inr hat)))
      · exact absurd (hbad h) (by rw [hpass.2 (.inr hat)]; exact Bool.noConfusion)
    · by_contra hno
      refine absurd (hbad ?_) (by rw [hpass.2 (.inl hin)]; exact Bool.noConfusion)
      rintro ⟨m, s, e, hs⟩
      obtain ⟨rfl, rfl, rfl⟩ := hr.unique hs.reads
      exact hno hs
  · intro h
    obtain ⟨m, s, e, hr', hat, hin⟩ := h hdays
    obtain ⟨rfl, rfl, rfl⟩ := hr.unique hr'
    refine ⟨fun m s e hs => ?_, fun hno => Bool.eq_false_of_not_eq_true fun htrue => ?_⟩
    · obtain ⟨rfl, rfl, rfl⟩ := hr.unique hs.reads
      rw [hpass]
      exact or_iff_left hat
    · rcases hpass.1 htrue with h | h
      · exact hno ⟨_, _, _, hin h⟩
      · exact hat h

/-- Monday to Friday from 0800 to 1800, on a Monday at 0900. -/
theorem checkTime_weekday : TimeOk 1 9 0 (chars "Wk0800-1800") [] ↔
    (DaysOk (chars "Wk0800-1800") → ∃ marked start end_, Reads (chars "Wk0800-1800") marked start end_ ∧
      ¬ AtEnd marked start end_ 1 900 ∧ (Inside marked start end_ 1 900 →
        Spec (chars "Wk0800-1800") marked start end_)) :=
  checkTime_iff 1 9 0 _ [] (by decide) nofun

/-- The weekend from 1800 to 0800 is passed on a Monday at 0800; and days without times are passed. -/
theorem checkTime_fails : ¬ (∀ wday hour min tok rest, (∀ c ∈ tok, isMember c = true) → Follows rest →
    TimeOk wday hour min tok rest) ∧ ¬ TimeOk 1 8 0 (chars "Wd1800-0800") [] ∧ ¬ TimeOk 1 8 0 (chars "Su") [] := by
  have hend : ¬ TimeOk 1 8 0 (chars "Wd1800-0800") [] := by
    intro h
    have hday : DayPart [0x57, 0x64] (0o101 ^^^ 0) := .cons (by decide) .nil
    have hspec : Spec (chars "Wd1800-0800") 0o101 1800 800 :=
      ⟨chars "Wd", chars "1800", chars "0800", by decide, hday, by decide,
        ⟨by decide, rfl, by decide, by decide⟩, by decide, rfl, by decide, by decide⟩
    have hin := (h.1 _ _ _ hspec).1 (by decide)
    unfold Inside at hin
    exact absurd hin (by decide)
  have hnone : ¬ TimeOk 1 8 0 (chars "Su") [] := by
    intro h
    refine absurd (h.2 ?_) (by decide)
    rintro ⟨m, s, e, hspec⟩
    obtain ⟨d, s, e, heq, -, -, ⟨-, hs, -⟩, -⟩ := hspec
    have hlen := congrArg List.length heq
    rw [List.length_append, List.length_append, hs] at hlen
    have : (chars "Su").length = 2 := rfl
    omega
  exact ⟨fun h => hend (h 1 8 0 _ [] (by decide) nofun), hend, hnone⟩

end Pam.Time
