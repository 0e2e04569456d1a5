/-
  The chunks of a dump are a text of the grammar.

  A string is written as runs of characters and as escapes; `Chars` reads each of them
  back as the bytes from which it came.
-/
import IotLib.Jansson.Canonical
import IotLib.Jansson.Accept

namespace Jansson

/-! ## Characters -/

section
variable {c : Nat} {str rest : Bytes}

/-- `utf8_iterate` takes the encoding of one character away. -/
theorem utf8Iterate_eq_some (hne : str ≠ []) :
    utf8Iterate str = some (c, rest) ↔ IsScalar c ∧ str = encode c ++ rest := by
  obtain ⟨b, bs, rfl⟩ := List.exists_cons_of_ne_nil hne
  unfold utf8Iterate
  rw [List.headD_cons, List.tail_cons]
  dsimp only
  constructor
  · intro h
    split_ifs at h with h₀ h₁ hlen
    · have hb := utf8CheckFirst_one_iff.1 h₁
      obtain ⟨rfl, rfl⟩ := Prod.mk.inj (Option.some.inj h)
      rw [encode_ascii_byte hb]
      exact ⟨isScalar_ascii hb, rfl⟩
    · obtain ⟨c', hfull, h⟩ := Option.map_eq_some_iff.1 h
      obtain ⟨rfl, rfl⟩ := Prod.mk.inj h
      obtain ⟨k, hk⟩ : ∃ k, utf8CheckFirst b = k + 1 := ⟨utf8CheckFirst b - 1, by omega⟩
      rw [List.length_cons] at hlen
      rw [hk, List.take_succ_cons] at hfull
      have htake : (bs.take k).length + 1 = utf8CheckFirst b := by
        rw [List.length_take]
        omega
      obtain ⟨hc, heq⟩ := (utf8CheckFull_eq_some (by omega) htake).1 hfull
      refine ⟨hc, ?_⟩
      rw [← heq, hk, List.drop_succ_cons, List.cons_append, List.take_append_drop]
  · rintro ⟨hc, h⟩
    cases he : encode c with
    | nil => exact absurd (encode_length_pos c) (by simp [he])
    | cons b' bs' =>
      rw [he, List.cons_append] at h
      obtain ⟨rfl, rfl⟩ := List.cons.inj h
      have hfirst := utf8CheckFirst_encode hc he
      by_cases hb : b.toNat < 0x80
      · have hlt := (encode_ascii_iff hc he).1 hb
        rw [encode_ascii hlt] at he
        obtain ⟨rfl, rfl⟩ := List.cons.inj he
        rw [utf8CheckFirst_ascii hb, if_neg (by decide), if_pos rfl, toNat_byte (by omega)]
        rfl
      · have hne : utf8CheckFirst b ≠ 1 := mt utf8CheckFirst_one_iff.1 hb
        rw [if_neg (by omega), if_neg hne, if_neg (by simp [hfirst]), hfirst, List.take_succ_cons,
          List.take_left, List.drop_succ_cons, List.drop_left,
          (utf8CheckFull_eq_some (by omega) hfirst.symm).2 ⟨hc, he.symm⟩]
        rfl

/-- A character in front tells nothing about the rest. -/
theorem valid_encode_iff (hc : IsScalar c) : Valid (encode c ++ rest) ↔ Valid rest := by
  refine ⟨fun h => ?_, Valid.cons hc⟩
  generalize hs : encode c ++ rest = s at h
  have hne : encode c ++ rest ≠ [] :=
    List.append_ne_nil_of_left_ne_nil (List.ne_nil_of_length_pos (encode_length_pos c)) _
  cases h with
  | nil => exact absurd hs hne
  | @cons c' rest' hc' h =>
    have h₁ := (utf8Iterate_eq_some hne).2 ⟨hc, rfl⟩
    have h₂ := (utf8Iterate_eq_some hne).2 ⟨hc', hs⟩
    rw [h₁] at h₂
    obtain ⟨-, rfl⟩ := Prod.mk.inj (Option.some.inj h₂)
    exact h

theorem Valid.exists_encode (h : Valid str) (hne : str ≠ []) :
    ∃ c rest, IsScalar c ∧ str = encode c ++ rest := by
  cases h with
  | nil => exact absurd rfl hne
  | cons hc _ => exact ⟨_, _, hc, rfl⟩

/-! ## Runs and escapes -/

/-- Characters that stand for themselves. -/
def PlainRun (run : Bytes) : Prop := ∀ {v inp rest : Bytes}, Chars v inp rest →
  Chars (run ++ v) (run ++ inp) rest

/-- What the inner loop of `dump_string` finds. -/
def RunSpec (flags : DumpFlags) (str : Bytes) : Option (Bytes × Option (Nat × Bytes)) → Prop
  | none => ¬Valid str
  | some (run, none) => run = str ∧ Valid str ∧ PlainRun run
  | some (run, some (c, rest)) =>
    str = run ++ (encode c ++ rest) ∧ IsScalar c ∧ isEscaped flags c = true ∧ PlainRun run ∧
      (Valid str ↔ Valid rest)

theorem plainRun_nil : PlainRun [] := fun h => h

/-- A character that is not escaped stands for itself. -/
theorem plainRun_encode {flags : DumpFlags} {run : Bytes} (hc : IsScalar c)
    (hesc : isEscaped flags c = false) (hrun : PlainRun run) : PlainRun (encode c ++ run) := by
  intro v inp rest h
  simp only [isEscaped, Bool.or_eq_false_iff, decide_eq_false_iff_not, Nat.not_lt] at hesc
  obtain ⟨⟨⟨⟨h₁, h₂⟩, h₃⟩, -⟩, -⟩ := hesc
  rw [List.append_assoc, List.append_assoc]
  exact Chars.plain hc h₃ h₂ h₁ (hrun h)

theorem dumpRun_spec (flags : DumpFlags) : ∀ (n : Nat) (str : Bytes), str.length ≤ n →
    RunSpec flags str (dumpRun flags n str)
  | 0, str, hn => by
    obtain rfl := List.length_eq_zero_iff.1 (Nat.le_zero.1 hn)
    exact ⟨rfl, .nil, plainRun_nil⟩
  | n + 1, str, hn => by
    rw [dumpRun]
    by_cases hne : str = []
    · rw [if_pos hne]
      subst hne
      exact ⟨rfl, .nil, plainRun_nil⟩
    rw [if_neg hne]
    cases hit : utf8Iterate str with
    | none =>
      intro hvalid
      obtain ⟨c, rest, hc, hstr⟩ := hvalid.exists_encode hne
      rw [(utf8Iterate_eq_some hne).2 ⟨hc, hstr⟩] at hit
      cases hit
    | some p =>
      obtain ⟨c, rest⟩ := p
      obtain ⟨hc, rfl⟩ := (utf8Iterate_eq_some hne).1 hit
      dsimp only
      by_cases hesc : isEscaped flags c = true
      · rw [if_pos hesc]
        exact ⟨rfl, hc, hesc, plainRun_nil, valid_encode_iff hc⟩
      rw [if_neg hesc]
      have hpos := encode_length_pos c
      have htake : (encode c ++ rest).take ((encode c ++ rest).length - rest.length) = encode c := by
        rw [List.length_append, Nat.add_sub_cancel, List.take_left]
      rw [htake]
      rw [List.length_append] at hn
      have ih := dumpRun_spec flags n rest (by omega)
      cases hrun : dumpRun flags n rest with
      | none =>
        rw [hrun] at ih
        exact mt (valid_encode_iff hc).1 ih
      | some q =>
        rw [hrun] at ih
        obtain ⟨run, _ | ⟨c', rest'⟩⟩ := q
        · obtain ⟨rfl, hvalid, hplain⟩ := ih
          exact ⟨rfl, .cons hc hvalid, plainRun_encode hc (eq_false_of_ne_true hesc) hplain⟩
        · obtain ⟨hrest, hc', hesc', hplain, hiff⟩ := ih
          refine ⟨?_, hc', hesc', plainRun_encode hc (eq_false_of_ne_true hesc) hplain, ?_⟩
          · dsimp only
            rw [hrest, List.append_assoc]
          · rw [valid_encode_iff hc]
            exact hiff

/-! ## Hexadecimal digits -/

theorem hexDigit_spec {n : Nat} (h : n < 16) :
    isXdigit (hexDigit true n) = true ∧ hexVal (hexDigit true n) = n := by
  interval_cases n <;> decide

theorem hex4_spec {n : Nat} (h : n < 0x10000) : Hex4 (hex4 n) n := by
  have hdigit : ∀ m, isXdigit (hexDigit true (m % 16)) = true ∧ hexVal (hexDigit true (m % 16)) = m % 16 :=
    fun m => hexDigit_spec (Nat.mod_lt _ (by decide))
  have hsum : ((n / 4096 % 16 * 16 + n / 256 % 16) * 16 + n / 16 % 16) * 16 + n % 16 = n := by
    omega
  have := Hex4.intro (hdigit (n / 4096)).1 (hdigit (n / 256)).1 (hdigit (n / 16)).1 (hdigit n).1
  rwa [(hdigit (n / 4096)).2, (hdigit (n / 256)).2, (hdigit (n / 16)).2, (hdigit n).2, hsum] at this

/-- The surrogates of a character. -/
theorem surrogates {d : Nat} (h : d < 0x100000) :
    0xD800 ||| ((d &&& 0xFFC00) >>> 10) = 0xD800 + d / 1024 ∧
      0xDC00 ||| (d &&& 0x003FF) = 0xDC00 + d % 1024 := by
  have f₁ : (d &&& 0xFFC00) >>> 10 = d / 1024 % 1024 := and_field d 10 10
  have f₂ : d &&& 0x3FF = d % 1024 := and_low d 10
  have hor : ∀ k x : Nat, x < 1024 → (k * 1024) ||| x = k * 1024 + x := by
    intro k x hx
    have := Nat.shiftLeft_add_eq_or_of_lt (show x < 2 ^ 10 from hx) k
    rw [Nat.shiftLeft_eq] at this
    exact this.symm
  rw [f₁, f₂]
  refine ⟨?_, hor 55 _ (Nat.mod_lt _ (by decide))⟩
  rw [Nat.mod_eq_of_lt (by omega)]
  exact hor 54 _ (by omega)

/-- An escape is read back as the character. -/
theorem escapeText_chars {v inp : Bytes} (hc : IsScalar c) (h : Chars v inp rest) :
    Chars (encode c ++ v) (escapeText c ++ inp) rest := by
  have hmax : c ≤ 0x10FFFF := by
    unfold IsScalar at hc
    omega
  have hone : ∀ {b x : UInt8}, Escape x b → c = b.toNat → b.toNat < 0x80 →
      Chars (encode c ++ v) ([0x5C, x] ++ inp) rest := by
    rintro b x hx rfl hb
    rw [encode_ascii_byte hb]
    exact Chars.escape hx h
  unfold escapeText
  dsimp only
  split_ifs with h₁ h₂ h₃ h₄ h₅ h₆ h₇ h₈ h₉
  · exact hone .backslash h₁ (by decide)
  · exact hone .quote h₂ (by decide)
  · exact hone .backspace h₃ (by decide)
  · exact hone .formFeed h₄ (by decide)
  · exact hone .lineFeed h₅ (by decide)
  · exact hone .carriageReturn h₆ (by decide)
  · exact hone .tab h₇ (by decide)
  · exact hone .slash h₈ (by decide)
  · exact Chars.unicode (hex4_spec h₉) hc h
  · obtain ⟨hfirst, hlast⟩ := @surrogates (c - 0x10000) (by omega)
    rw [hfirst, hlast]
    have hpair := Chars.pair (@hex4_spec (0xD800 + (c - 0x10000) / 1024) (by omega))
      (@hex4_spec (0xDC00 + (c - 0x10000) % 1024) (by omega)) (by omega) (by omega) h
    have hval : 0x10000 + (0xD800 + (c - 0x10000) / 1024 - 0xD800) * 1024 +
        (0xDC00 + (c - 0x10000) % 1024 - 0xDC00) = c := by
      omega
    rw [hval] at hpair
    rw [List.append_assoc, List.append_assoc, List.append_assoc]
    exact hpair

/-! ## Strings -/

theorem bodyChunks_spec (flags : DumpFlags) : ∀ (n : Nat) (str : Bytes), str.length < n →
    ((bodyChunks flags n str).2 = true ↔ Valid str) ∧
      ((bodyChunks flags n str).2 = true → ∀ rest,
        Chars str ((bodyChunks flags n str).1.flatten ++ rest) rest)
  | 0, _, hn => absurd hn (Nat.not_lt_zero _)
  | n + 1, str, hn => by
    have hspec := dumpRun_spec flags str.length str le_rfl
    have hfirst : ∀ run : Bytes, (if run ≠ [] then [run] else []).flatten = run := by
      intro run
      by_cases hr : run = [] <;> simp [hr]
    rw [bodyChunks]
    cases hrun : dumpRun flags str.length str with
    | none =>
      rw [hrun] at hspec
      exact ⟨iff_of_false Bool.false_ne_true hspec, fun h => absurd h Bool.false_ne_true⟩
    | some p =>
      rw [hrun] at hspec
      obtain ⟨run, _ | ⟨c, rest⟩⟩ := p
      · obtain ⟨rfl, hvalid, hplain⟩ := hspec
        refine ⟨iff_of_true rfl hvalid, fun _ rest => ?_⟩
        dsimp only
        rw [List.flatten_append, hfirst, List.append_assoc]
        have := hplain (@Chars.close rest)
        rwa [List.append_nil] at this
      · obtain ⟨hstr, hc, -, hplain, hiff⟩ := hspec
        have hpos := encode_length_pos c
        have hlen : rest.length < n := by
          rw [hstr, List.length_append, List.length_append] at hn
          omega
        obtain ⟨ih₁, ih₂⟩ := bodyChunks_spec flags n rest hlen
        refine ⟨ih₁.trans hiff.symm, fun hclosed rest' => ?_⟩
        dsimp only
        rw [List.flatten_append, hfirst, List.flatten_cons, List.append_assoc, List.append_assoc, hstr]
        exact hplain (escapeText_chars hc (ih₂ hclosed rest'))

/-- A string is closed if and only if it is valid. -/
theorem stringChunks_closed (flags : DumpFlags) (str : Bytes) :
    (stringChunks flags str).2 = true ↔ Valid str :=
  (bodyChunks_spec flags (str.length + 1) str (Nat.lt_succ_self _)).1

/-- The chunks of a valid string are its text. -/
theorem stringChunks_chars (flags : DumpFlags) (hvalid : Valid str) (rest : Bytes) :
    ∃ inp, (stringChunks flags str).1.flatten = 0x22 :: inp ∧ Chars str (inp ++ rest) rest := by
  obtain ⟨h₁, h₂⟩ := bodyChunks_spec flags (str.length + 1) str (Nat.lt_succ_self _)
  exact ⟨_, rfl, h₂ (h₁.2 hvalid) rest⟩

/-! ## Integers -/

theorem digit_spec {k : Nat} (h : k < 10) :
    isDigit (.ofNat (0x30 + k)) = true ∧ (UInt8.ofNat (0x30 + k)).toNat - 0x30 = k := by
  interval_cases k <;> decide

theorem digitsVal_concat (ds : Bytes) (d : UInt8) :
    digitsVal (ds ++ [d]) = digitsVal ds * 10 + (d.toNat - 0x30) := by
  unfold digitsVal
  rw [List.foldl_append, List.foldl_cons, List.foldl_nil]

/-- The digits of a number. -/
theorem decimal_spec : ∀ (n k : Nat), k < 10 ^ n → 0 < n → Digits (decimal n k) ∧
    digitsVal (decimal n k) = k ∧ (0 < k → (decimal n k).head? ≠ some 0x30)
  | n + 1, k, hk, _ => by
    rw [decimal]
    by_cases hlt : k < 10
    · obtain ⟨hdigit, hval⟩ := digit_spec hlt
      rw [if_pos hlt]
      refine ⟨⟨List.cons_ne_nil _ _, by simpa using hdigit⟩, ?_, fun hpos heq => ?_⟩
      · simpa [digitsVal] using hval
      · rw [Option.some.inj heq] at hval
        exact absurd hval (Nat.ne_of_lt hpos)
    · obtain ⟨hdigit, hval⟩ := @digit_spec (k % 10) (Nat.mod_lt _ (by decide))
      have hn : 0 < n := by
        rcases n with _ | n
        · omega
        · exact Nat.succ_pos n
      have hdiv : k / 10 < 10 ^ n := by
        rw [Nat.pow_succ] at hk
        omega
      obtain ⟨⟨hne, hds⟩, ihval, ihead⟩ := decimal_spec n (k / 10) hdiv hn
      rw [if_neg hlt]
      refine ⟨⟨by simp, ?_⟩, ?_, fun _ => ?_⟩
      · exact List.forall_mem_append.2 ⟨hds, by simpa using hdigit⟩
      · rw [digitsVal_concat, ihval, hval]
        omega
      · rw [List.head?_append_of_ne_nil _ hne]
        exact ihead (by omega)

theorem decimal_intText (k : Nat) (hk : k < 10 ^ 20) : IntText (decimal 20 k) := by
  obtain ⟨hds, -, hhead⟩ := decimal_spec 20 k hk (by decide)
  rcases Nat.eq_zero_or_pos k with rfl | hpos
  · exact Or.inl rfl
  · exact Or.inr ⟨hds, hhead hpos⟩

theorem intVal_digits {ds : Bytes} (h : Digits ds) : intVal ds = digitsVal ds := by
  obtain ⟨hne, hds⟩ := h
  obtain ⟨d, ds, rfl⟩ := List.exists_cons_of_ne_nil hne
  have hd : d ≠ 0x2D := by
    rintro rfl
    exact absurd (hds _ (List.mem_cons_self ..)) (by decide)
  rw [intVal, if_neg hd]

/-- The text of an integer has its value. -/
theorem integerText_spec (i : Int64) : ∃ m ds, integerText i = m ++ ds ∧ Minus m ∧ IntText ds ∧
    i.toInt = intVal (m ++ ds) := by
  have hlo := i.le_toInt
  have hhi := i.toInt_lt
  have habs : i.toInt.natAbs < 10 ^ 20 := by omega
  obtain ⟨hds, hval, -⟩ := decimal_spec 20 _ habs (by decide)
  have hint := decimal_intText _ habs
  unfold integerText
  by_cases hneg : i.toInt < 0
  · refine ⟨[0x2D], _, by rw [if_pos hneg]; rfl, Or.inr rfl, hint, ?_⟩
    rw [List.singleton_append, intVal, if_pos rfl, hval]
    omega
  · refine ⟨[], _, by rw [if_neg hneg]; rfl, Or.inl rfl, hint, ?_⟩
    rw [List.nil_append, intVal_digits hds, hval]
    omega

end

/-! ## The text of a script -/

/-- What a step writes when nothing fails. -/
def Step.text : Step → Bytes
  | .write c => c
  | .key chunks _ => chunks.flatten
  | .fail => []

def stepsText (steps : List Step) : Bytes := steps.flatMap Step.text

/-- A step that can be done as a whole; whether a failure is one is given. -/
def Step.Sound (failOk : Prop) : Step → Prop
  | .write _ => True
  | .key _ closed => closed = true
  | .fail => failOk

theorem stepsText_append (xs ys : List Step) :
    stepsText (xs ++ ys) = stepsText xs ++ stepsText ys := List.flatMap_append

theorem stepsText_write (chunk : Bytes) : stepsText [.write chunk] = chunk :=
  List.append_nil chunk

theorem stepsText_writes (chunks : List Bytes) : stepsText (chunks.map .write) = chunks.flatten := by
  induction chunks with
  | nil => rfl
  | cons c chunks ih =>
    rw [List.map_cons, List.flatten_cons, ← ih]
    rfl

theorem spaceChunks_spaces : ∀ (n spaces : Nat), ∀ c ∈ (spaceChunks n spaces).flatten, c = 0x20
  | 0, _ => List.forall_mem_nil _
  | n + 1, spaces => by
    rw [spaceChunks]
    by_cases h : spaces = 0
    · rw [if_pos h]
      exact List.forall_mem_nil _
    · rw [if_neg h]
      dsimp only
      rw [List.flatten_cons]
      exact List.forall_mem_append.2
        ⟨fun c hc => (List.mem_replicate.1 hc).2, spaceChunks_spaces n _⟩

/-- Indentation is whitespace. -/
theorem indentSteps_ws (flags : DumpFlags) (depth : Nat) (space : Bool) (rest : Bytes) :
    Ws (stepsText (indentSteps flags depth space) ++ rest) rest := by
  refine ⟨_, ?_, rfl⟩
  rw [indentSteps, stepsText_writes, indentChunks]
  split_ifs
  · rw [List.flatten_cons]
    refine List.forall_mem_append.2 ⟨by decide, fun c hc => ?_⟩
    rw [spaceChunks_spaces _ _ c hc]
    rfl
  · decide
  · exact List.forall_mem_nil _

section
variable {R : Type} {V : Json R → Bytes → Bytes → Prop} {nulKeys : Bool} {flags : DumpFlags}
  {depth : Nat}

/-- The elements of an array. -/
theorem itemSteps_elems (flags : DumpFlags) (depth : Nat) {rest : Bytes} : ∀ {vs : List (Json R)} {items : List (List Step)},
    List.Forall₂ (fun v steps => ∀ rest, V v (stepsText steps ++ rest) rest) vs items → vs ≠ [] →
    Elems V vs (stepsText (itemSteps flags depth items) ++ 0x5D :: rest) rest
  | [_], _, .cons hv .nil, _ => by
    rw [itemSteps, stepsText_append, List.append_assoc]
    exact .last (hv _) (indentSteps_ws _ _ _ _)
  | _ :: _ :: _, _, .cons hv (.cons hw hvs), _ => by
    rw [itemSteps, stepsText_append, stepsText_append, stepsText_append, List.append_assoc,
      List.append_assoc, List.append_assoc]
    · exact .more (hv _) (ws_refl _) (indentSteps_ws _ _ _ _)
        (itemSteps_elems flags depth (.cons hw hvs) (List.cons_ne_nil _ _))
    · exact List.cons_ne_nil _ _

/-- The members of an object. -/
theorem itemSteps_members (flags : DumpFlags) (depth : Nat) {rest : Bytes} : ∀ {ms : List (Bytes × Json R)}
    {items : List (List Step)},
    List.Forall₂ (fun m steps => ∀ rest, Member V nulKeys m.1 m.2 (stepsText steps ++ rest) rest)
      ms items → ms ≠ [] →
    Members V nulKeys ms (stepsText (itemSteps flags depth items) ++ 0x7D :: rest) rest
  | [_], _, .cons hm .nil, _ => by
    rw [itemSteps, stepsText_append, List.append_assoc]
    exact .last (hm _) (indentSteps_ws _ _ _ _)
  | _ :: _ :: _, _, .cons hm (.cons hm' hms), _ => by
    rw [itemSteps, stepsText_append, stepsText_append, stepsText_append, List.append_assoc,
      List.append_assoc, List.append_assoc]
    · exact .more (hm _) (ws_refl _) (indentSteps_ws _ _ _ _)
        (itemSteps_members flags depth (.cons hm' hms) (List.cons_ne_nil _ _))
    · exact List.cons_ne_nil _ _

theorem memberSteps_member {key : Bytes} {v : Json R} {steps : List Step} (hkey : Valid key)
    (hnul : nulKeys = true ∨ 0 ∉ key) (hv : ∀ rest, V v (stepsText steps ++ rest) rest)
    (rest : Bytes) : Member V nulKeys key v (stepsText (memberSteps flags key steps) ++ rest) rest := by
  have hcolon : ∃ ws, (∀ c ∈ ws, isSpace c = true) ∧
      (if flags.compact then ascii ":" else ascii ": ") = 0x3A :: ws := by
    cases flags.compact with
    | true => exact ⟨[], List.forall_mem_nil _, rfl⟩
    | false => exact ⟨[0x20], by decide, rfl⟩
  obtain ⟨ws, hws, hcolon⟩ := hcolon
  obtain ⟨inp, hinp, hchars⟩ := stringChunks_chars flags hkey
    (0x3A :: (ws ++ (stepsText steps ++ rest)))
  have htext : stepsText (memberSteps flags key steps) ++ rest =
      0x22 :: (inp ++ 0x3A :: (ws ++ (stepsText steps ++ rest))) := by
    rw [memberSteps, stepsText_append, stepsText_append, hcolon]
    change ((stringChunks flags key).1.flatten ++ []) ++ ((0x3A :: ws ++ []) ++ stepsText steps) ++ rest = _
    rw [hinp]
    simp
  rw [htext]
  exact .intro hchars hnul (ws_refl _) ⟨ws, hws, rfl⟩ (hv rest)

/-- The brackets and what is between them, unless it is embedded. -/
theorem bracketSteps_text (first last : UInt8) (items : List (List Step)) :
    stepsText (bracketSteps flags false depth first last items) =
      first :: (stepsText (bracketSteps flags true depth first last items) ++ [last]) := by
  unfold bracketSteps
  cases items with
  | nil => rfl
  | cons x xs =>
    simp [stepsText, Step.text]

/-! ## The text of a tree -/

mutual

/-- The keys of every object are distinct. -/
def Json.Distinct : Json R → Prop
  | .object ms => (ms.map Prod.fst).Nodup ∧ distinctMembers ms
  | .array vs => distinctElems vs
  | _ => True

def distinctElems : List (Json R) → Prop
  | [] => True
  | v :: vs => v.Distinct ∧ distinctElems vs

def distinctMembers : List (Bytes × Json R) → Prop
  | [] => True
  | (_, v) :: ms => v.Distinct ∧ distinctMembers ms

end

theorem distinctElems_iff {vs : List (Json R)} : distinctElems vs ↔ ∀ v ∈ vs, v.Distinct := by
  induction vs with
  | nil => simp [distinctElems]
  | cons v vs ih => rw [distinctElems, ih, List.forall_mem_cons]

variable {ms : List (Bytes × Json R)}

theorem distinctMembers_iff :
    distinctMembers ms ↔ ∀ m ∈ ms, m.2.Distinct := by
  induction ms with
  | nil => simp [distinctMembers]
  | cons m ms ih => rw [distinctMembers, ih, List.forall_mem_cons]

mutual

/-- The tree with other reals. -/
def Json.mapReals {S : Type} (f : R → S) : Json R → Json S
  | .object ms => .object (mapMembers f ms)
  | .array vs => .array (mapElems f vs)
  | .string s => .string s
  | .integer i => .integer i
  | .real r => .real (f r)
  | .true => .true
  | .false => .false
  | .null => .null

def mapElems {S : Type} (f : R → S) : List (Json R) → List (Json S)
  | [] => []
  | v :: vs => v.mapReals f :: mapElems f vs

def mapMembers {S : Type} (f : R → S) : List (Bytes × Json R) → List (Bytes × Json S)
  | [] => []
  | (key, v) :: ms => (key, v.mapReals f) :: mapMembers f ms

end

theorem mapElems_eq {S : Type} (f : R → S) (vs : List (Json R)) :
    mapElems f vs = vs.map (Json.mapReals f) := by
  induction vs with
  | nil => rfl
  | cons v vs ih => rw [mapElems, ih, List.map_cons]

theorem mapMembers_eq {S : Type} (f : R → S) (ms : List (Bytes × Json R)) :
    mapMembers f ms = ms.map fun m => (m.1, m.2.mapReals f) := by
  induction ms with
  | nil => rfl
  | cons m ms ih => rw [mapMembers, ih, List.map_cons]

theorem mapMembers_keys {S : Type} (f : R → S) (ms : List (Bytes × Json R)) :
    (mapMembers f ms).map Prod.fst = ms.map Prod.fst := by
  rw [mapMembers_eq, List.map_map]
  rfl

/-- A number with a fraction or an exponent. -/
def RealText (text : Bytes) : Prop :=
  ∃ m ds fs xs, text = m ++ ds ++ fs ++ xs ∧ Minus m ∧ IntText ds ∧ Frac fs ∧ Expo xs ∧ fs ++ xs ≠ []

/-- A value that can be written, and that is read back with the real `f r` for `r`. -/
def Dumpable {S : Type} (dtostr : Nat → R → Option Bytes) (strtod : Bytes → Option S) (f : R → S)
    (precision : Nat) : Json R → Prop
  | .string s => Valid s
  | .real r => ∃ text, dtostr precision r = some text ∧ RealText text ∧ strtod text = some (f r)
  | _ => True

/-- Distinct bindings are kept in their order. -/
theorem bindings_eq (h : (ms.map Prod.fst).Nodup) :
    bindings ms = ms := by
  have hfold : ∀ object : List (Bytes × Json R), (object.map Prod.fst ++ ms.map Prod.fst).Nodup →
      ms.foldl (fun object m => objectSet m.1 m.2 object) object = object ++ ms := by
    clear h
    induction ms with
    | nil => exact fun object _ => (List.append_nil object).symm
    | cons m ms ih =>
      intro object hnodup
      have hfresh : m.1 ∉ object.map Prod.fst := by
        intro hm
        exact (List.nodup_append.1 hnodup).2.2 _ hm _ (List.mem_cons_self ..) rfl
      rw [List.foldl_cons, objectSet_fresh hfresh, ih, List.append_assoc]
      · rfl
      · rw [List.map_append, List.append_assoc]
        exact hnodup
  exact hfold [] h

variable {S : Type} {dtostr : Nat → R → Option Bytes} {strtod : Bytes → Option S} {f : R → S}
  {loadFlags : LoadFlags}

/-- **The text of a tree denotes the tree.** -/
theorem script_value (hnul : loadFlags.allowNul = true)
    (hint : loadFlags.decodeIntAsReal = false) :
    ∀ (n : Nat) {v : Json R} (depth : Nat), v.nest ≤ n → v.Distinct →
      v.Every (Dumpable dtostr strtod f flags.precision)
        (fun key => Valid key ∧ (nulKeys = true ∨ 0 ∉ key)) →
      ∀ rest, Value nulKeys strtod loadFlags n (v.mapReals f)
        (stepsText (script dtostr flags false depth v) ++ rest) rest
  | 0, v, _, hn, _, _ => by
    cases v <;> exact absurd hn (Nat.not_succ_le_zero _)
  | n + 1, .object ms, depth, hn, hd, he => by
    intro rest
    rw [Json.Distinct] at hd
    have hms : List.Forall₂ (fun m steps => ∀ rest,
        Member (Value nulKeys strtod loadFlags n) nulKeys m.1 m.2 (stepsText steps ++ rest) rest)
        (mapMembers f ms) (scriptMembers dtostr flags (depth + 1) ms) := by
      rw [scriptMembers_eq, mapMembers_eq]
      refine List.forall₂_map_left_iff.2 (List.forall₂_map_right_iff.2
        (List.forall₂_same.2 fun m hm => ?_))
      obtain ⟨⟨hkey, h0⟩, hm'⟩ := everyMember_iff.1 he m hm
      exact memberSteps_member hkey h0 (script_value hnul hint n _
        ((nest_mem_members hm).trans (Nat.le_of_succ_le_succ hn))
        (distinctMembers_iff.1 hd.2 m hm) hm')
    rw [script, bracketSteps_text, List.cons_append, List.append_assoc, List.singleton_append]
    cases ms with
    | nil => exact Rule.emptyObject (ws_refl _)
    | cons m ms =>
      have hnodup : ((mapMembers f (m :: ms)).map Prod.fst).Nodup := by
        rw [mapMembers_keys]
        exact hd.1
      have hrule := @Rule.object _ _ nulKeys strtod loadFlags _ _ _ rest
        (indentSteps_ws flags (depth + 1) false _)
        (itemSteps_members flags depth hms (List.cons_ne_nil _ _)) (fun _ => hnodup)
      rw [bindings_eq hnodup] at hrule
      rw [Value, Json.mapReals]
      simpa [bracketSteps, scriptMembers, stepsText_append] using hrule
  | n + 1, .array vs, depth, hn, hd, he => by
    intro rest
    rw [Json.Distinct] at hd
    have hvs : List.Forall₂ (fun v steps => ∀ rest,
        Value nulKeys strtod loadFlags n v (stepsText steps ++ rest) rest)
        (mapElems f vs) (scriptElems dtostr flags (depth + 1) vs) := by
      rw [scriptElems_eq, mapElems_eq]
      refine List.forall₂_map_left_iff.2 (List.forall₂_map_right_iff.2
        (List.forall₂_same.2 fun v hv => ?_))
      exact script_value hnul hint n _ ((nest_mem_elems hv).trans (Nat.le_of_succ_le_succ hn))
        (distinctElems_iff.1 hd v hv) (everyElem_iff.1 he v hv)
    rw [script, bracketSteps_text, List.cons_append, List.append_assoc, List.singleton_append]
    cases vs with
    | nil => exact Rule.emptyArray (ws_refl _)
    | cons v vs =>
      have hrule := @Rule.array _ _ nulKeys strtod loadFlags _ _ _ rest
        (indentSteps_ws flags (depth + 1) false _)
        (itemSteps_elems flags depth hvs (List.cons_ne_nil _ _))
      rw [Value, Json.mapReals]
      simpa [bracketSteps, scriptElems, stepsText_append] using hrule
  | n + 1, .string s, _, _, _, he => by
    intro rest
    obtain ⟨inp, hinp, hchars⟩ := stringChunks_chars flags (show Valid s from he) rest
    have hclosed := (stringChunks_closed flags s).2 he
    rw [script, chunkSteps, hclosed, if_pos rfl, List.append_nil, stepsText_writes, hinp]
    exact Rule.string hchars (Or.inl hnul)
  | n + 1, .integer i, _, _, _, _ => by
    intro rest
    obtain ⟨m, ds, htext, hm, hds, hval⟩ := integerText_spec i
    rw [script, stepsText_write, htext]
    exact Rule.integer hint hm hds hval
  | n + 1, .real r, _, _, _, he => by
    intro rest
    obtain ⟨text, htext, ⟨m, ds, fs, xs, rfl, hm, hds, hfs, hxs, hne⟩, hval⟩ := he
    rw [script, htext]
    dsimp only
    rw [stepsText_write]
    exact Rule.real (Or.inr hne) hm hds hfs hxs hval
  | n + 1, .true, _, _, _, _ => fun _ => Rule.true
  | n + 1, .false, _, _, _, _ => fun _ => Rule.false
  | n + 1, .null, _, _, _, _ => fun _ => Rule.null

/-! ## Scripts without a failure -/

theorem nestElems_le_iff {n : Nat} {vs : List (Json R)} :
    nestElems vs ≤ n ↔ ∀ v ∈ vs, v.nest ≤ n := by
  induction vs with
  | nil => simp [nestElems]
  | cons v vs ih => rw [nestElems, Nat.max_le, ih, List.forall_mem_cons]

theorem nestMembers_le_iff {n : Nat} :
    nestMembers ms ≤ n ↔ ∀ m ∈ ms, m.2.nest ≤ n := by
  induction ms with
  | nil => simp [nestMembers]
  | cons m ms ih => rw [nestMembers, Nat.max_le, ih, List.forall_mem_cons]

/-- Induction over trees. -/
theorem Json.induction {P : Json R → Prop}
    (hobject : ∀ ms : List (Bytes × Json R), (∀ m ∈ ms, P m.2) → P (.object ms))
    (harray : ∀ vs : List (Json R), (∀ v ∈ vs, P v) → P (.array vs))
    (hatom : ∀ v : Json R, ¬v.IsContainer → P v) (v : Json R) : P v := by
  have h : ∀ (n : Nat) (v : Json R), v.nest ≤ n → P v := by
    intro n
    induction n with
    | zero => intro v hv; cases v <;> exact absurd hv (Nat.not_succ_le_zero _)
    | succ n ih =>
      intro v hv
      cases v with
      | object ms =>
        exact hobject ms fun m hm =>
          ih m.2 (nestMembers_le_iff.1 (Nat.le_of_succ_le_succ hv) m hm)
      | array vs =>
        exact harray vs fun v hv' => ih v (nestElems_le_iff.1 (Nat.le_of_succ_le_succ hv) v hv')
      | _ => exact hatom _ id
  exact h v.nest v le_rfl

def AllSound (failOk : Prop) (steps : List Step) : Prop := ∀ x ∈ steps, x.Sound failOk

variable {failOk : Prop}

theorem allSound_append {xs ys : List Step} :
    AllSound failOk (xs ++ ys) ↔ AllSound failOk xs ∧ AllSound failOk ys :=
  List.forall_mem_append

theorem allSound_writes (chunks : List Bytes) : AllSound failOk (chunks.map .write) := by
  intro x hx
  obtain ⟨c, -, rfl⟩ := List.mem_map.1 hx
  trivial

theorem allSound_fail : AllSound failOk [.fail] ↔ failOk := List.forall_mem_singleton

theorem allSound_indent (flags : DumpFlags) (depth : Nat) (space : Bool) :
    AllSound failOk (indentSteps flags depth space) := allSound_writes _

theorem allSound_string {s : Bytes} :
    AllSound failOk (chunkSteps (stringChunks flags s)) ↔ failOk ∨ Valid s := by
  rw [← stringChunks_closed flags s, chunkSteps, allSound_append]
  refine (and_iff_right (allSound_writes _)).trans ?_
  cases (stringChunks flags s).2 with
  | true => exact iff_of_true (List.forall_mem_nil _) (Or.inr rfl)
  | false => exact allSound_fail.trans (or_iff_left Bool.false_ne_true).symm

theorem allSound_items (depth : Nat) : ∀ (items : List (List Step)),
    AllSound failOk (itemSteps flags depth items) ↔ ∀ steps ∈ items, AllSound failOk steps
  | [] => iff_of_true (List.forall_mem_nil _) (List.forall_mem_nil _)
  | [x] => by
    rw [itemSteps, allSound_append, List.forall_mem_singleton]
    exact and_iff_left (allSound_indent _ _ _)
  | x :: y :: xs => by
    rw [itemSteps, allSound_append, allSound_append, allSound_append, allSound_items depth (y :: xs)]
    · refine Iff.trans (and_congr_right fun _ => ?_) List.forall_mem_cons.symm
      exact ⟨fun h => h.2.2, fun h => ⟨allSound_writes [[0x2C]], allSound_indent _ _ _, h⟩⟩
    · exact List.cons_ne_nil _ _

theorem allSound_bracket (embed : Bool) (depth : Nat) (first last : UInt8)
    (items : List (List Step)) :
    AllSound failOk (bracketSteps flags embed depth first last items) ↔
      ∀ steps ∈ items, AllSound failOk steps := by
  have hopt : ∀ c : UInt8, AllSound failOk (if embed then [] else [.write [c]]) := by
    intro c
    cases embed with
    | true => exact List.forall_mem_nil _
    | false => exact allSound_writes [[c]]
  rw [bracketSteps, allSound_append, ← allSound_items depth]
  refine (and_iff_right (hopt first)).trans ?_
  cases items with
  | nil => exact iff_of_true (hopt last) (List.forall_mem_nil _)
  | cons x xs =>
    rw [if_neg (by simp), allSound_append, allSound_append]
    exact ⟨fun h => h.2.1, fun h => ⟨allSound_indent _ _ _, h, hopt last⟩⟩

theorem allSound_member {key : Bytes} {steps : List Step} :
    AllSound failOk (memberSteps flags key steps) ↔ Valid key ∧ AllSound failOk steps := by
  rw [memberSteps, allSound_append, allSound_append, ← stringChunks_closed flags key]
  refine and_congr ?_ (and_iff_right (allSound_writes [_]))
  exact List.forall_mem_singleton

/-- A value that can be written, or a failure is no harm. -/
def Writable (failOk : Prop) (dtostr : Nat → R → Option Bytes) (precision : Nat) : Json R → Prop
  | .string s => failOk ∨ Valid s
  | .real r => failOk ∨ dtostr precision r ≠ none
  | _ => True

/-- A script has no failure if and only if all strings and keys are valid and all reals
    have a text. -/
theorem script_allSound_iff (embed : Bool) (depth : Nat) (v : Json R) :
    AllSound failOk (script dtostr flags embed depth v) ↔
      v.Every (Writable failOk dtostr flags.precision) Valid := by
  induction v using Json.induction generalizing embed depth with
  | hobject ms ih =>
    rw [script, allSound_bracket, scriptMembers_eq, List.forall_mem_map]
    refine Iff.trans ?_ everyMember_iff.symm
    refine forall₂_congr fun m hm => ?_
    rw [allSound_member, ih m hm]
  | harray vs ih =>
    rw [script, allSound_bracket, scriptElems_eq, List.forall_mem_map]
    refine Iff.trans ?_ everyElem_iff.symm
    exact forall₂_congr fun v hv => ih v hv _ _
  | hatom v hv =>
    cases v with
    | object ms => exact absurd trivial hv
    | array vs => exact absurd trivial hv
    | string s => exact allSound_string
    | real r =>
      rw [script, Json.Every, Writable]
      cases hr : dtostr flags.precision r with
      | none => exact allSound_fail.trans (or_iff_left fun h => h rfl).symm
      | some text => exact iff_of_true (allSound_writes [text]) (Or.inr (by simp))
    | integer i => exact iff_of_true (allSound_writes [_]) trivial
    | true => exact iff_of_true (allSound_writes [_]) trivial
    | false => exact iff_of_true (allSound_writes [_]) trivial
    | null => exact iff_of_true (allSound_writes [_]) trivial

end

end Jansson
