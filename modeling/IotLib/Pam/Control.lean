/-
  The control strings of the configuration: `_pam_parse_control` and
  `_pam_set_default_control` (`libpam/pam_misc.c`), which fill the array of actions of a
  handler from a text such as `success=ok new_authtok_reqd=2 default=bad`.
-/
import IotLib.Lib.Forall
import IotLib.Pam.Dispatch

namespace Pam

/-! ## The parser -/

/-- A text of the source. -/
def chars (str : String) : List UInt8 := str.toList.map fun c => UInt8.ofNat c.toNat

def isspace (c : UInt8) : Bool := (9 ≤ c && c ≤ 13) || c == 32

def isdigit (c : UInt8) : Bool := 48 ≤ c && c ≤ 57

/-- `_pam_token_actions`: the action `- i` is called by the word at `i`. -/
def pamTokenActions : List (List UInt8) :=
  ["ignore", "ok", "done", "bad", "die", "reset"].map chars

/-- `_pam_token_returns`; the last word is for the return codes that are not set. -/
def pamTokenReturns : List (List UInt8) :=
  ["success", "open_err", "symbol_err", "service_err", "system_err", "buf_err", "perm_denied",
    "auth_err", "cred_insufficient", "authinfo_unavail", "user_unknown", "maxtries",
    "new_authtok_reqd", "acct_expired", "session_err", "cred_unavail", "cred_expired", "cred_err",
    "no_module_data", "conv_err", "authtok_err", "authtok_recover_err", "authtok_lock_busy",
    "authtok_disable_aging", "try_again", "ignore", "abort", "authtok_expired", "module_unknown",
    "bad_item", "conv_again", "incomplete", "default"].map chars

/-- `_PAM_RETURN_VALUES`, the size of the array; the word at this place is `default`. -/
def returnValues : ℕ := 32

/-- `_PAM_ACTION_BAD` -/
def actionBad : Int := -3

/-- `_PAM_ACTION_UNDEF` -/
def actionUndef : Int := -6

/-- The first of the words that the text starts with, and the text behind it. -/
def findToken : List (List UInt8) → ℕ → List UInt8 → Option (ℕ × List UInt8)
  | [], _, _ => none
  | word :: words, i, tok =>
    if word <+: tok then some (i, tok.drop word.length) else findToken words (i + 1) tok

/-- The value that an `int` takes. -/
def cInt (x : Int) : Int := x.bmod 4294967296

/-- The number that the digits stand for, in an `int`. -/
def jumpNumber (digits : List UInt8) : Int :=
  digits.foldl (fun act c => cInt (cInt (act * 10) + (c.toNat - 48 : ℕ))) 0

/-- What a turn of the loop does. -/
inductive Turn where
  | done
  | error (text : String)
  | set (ret : ℕ) (act : Int) (tok : List UInt8)
deriving DecidableEq

/-- The action behind the `=`. -/
def parseAction (ret : ℕ) (tok : List UInt8) : Turn :=
  if tok = [] then .error "expecting action"
  else
    match findToken pamTokenActions 0 tok with
    | some (act, tok) => .set ret (-act) tok
    | none =>
      let digits := tok.takeWhile isdigit
      if digits = [] then .error "expecting jump number"
      else if jumpNumber digits = 0 then .error "expecting non-zero"
      else .set ret (jumpNumber digits) (tok.dropWhile isdigit)

/-- A turn of the loop, up to the change of the array. -/
def parsePair (tok : List UInt8) : Turn :=
  let tok := tok.dropWhile isspace
  if tok = [] then .done
  else
    match findToken pamTokenReturns 0 tok with
    | none | some (_, []) => .error "expecting return value"
    | some (ret, c :: tok) =>
      match (c :: tok).dropWhile isspace with
      | 61 :: tok => parseAction ret (tok.dropWhile isspace)
      | _ => .error "expecting '='"

/-- `_pam_set_default_control` -/
def pamSetDefaultControl (control : ℕ → Int) (default : Int) : ℕ → Int := fun i =>
  if i < returnValues ∧ control i = actionUndef then default else control i

/-- An element of the array is set, or all that are not yet. -/
def setControl (control : ℕ → Int) (ret : ℕ) (act : Int) : ℕ → Int :=
  if ret ≠ returnValues then Function.update control ret act else pamSetDefaultControl control act

theorem dropWhile_length_le (p : UInt8 → Bool) (tok : List UInt8) :
    (tok.dropWhile p).length ≤ tok.length := (List.dropWhile_suffix p).length_le

variable {tok : List UInt8}

theorem findToken_length {words : List (List UInt8)} {i : ℕ} {k : ℕ}
    {rest : List UInt8} (h : findToken words i tok = some (k, rest)) : rest.length ≤ tok.length := by
  induction words generalizing i with
  | nil => cases h
  | cons word words ih =>
    rw [findToken] at h
    split_ifs at h with hpre
    · obtain ⟨-, rfl⟩ := Prod.mk.inj (Option.some.inj h)
      rw [List.length_drop]
      omega
    · exact ih h

theorem parseAction_length {ret : ℕ} {k : ℕ} {act : Int} {rest : List UInt8}
    (h : parseAction ret tok = .set k act rest) : rest.length ≤ tok.length := by
  unfold parseAction at h
  split_ifs at h
  cases hfind : findToken pamTokenActions 0 tok with
  | some p =>
    rw [hfind] at h
    obtain ⟨-, -, rfl⟩ := Turn.set.inj h
    exact findToken_length hfind
  | none =>
    rw [hfind] at h
    dsimp only at h
    split_ifs at h
    obtain ⟨-, -, rfl⟩ := Turn.set.inj h
    exact dropWhile_length_le _ _

/-- A turn of the loop consumes a part of the text. -/
theorem parsePair_length {ret : ℕ} {act : Int} {rest : List UInt8}
    (h : parsePair tok = .set ret act rest) : rest.length < tok.length := by
  have hspace := dropWhile_length_le isspace tok
  unfold parsePair at h
  dsimp only at h
  split_ifs at h
  split at h
  · cases h
  · cases h
  · rename_i k c t hfind
    have hfound := findToken_length hfind
    have hspace' := dropWhile_length_le isspace (c :: t)
    split at h
    · rename_i t' heq
      have hlen := parseAction_length h
      have hspace'' := dropWhile_length_le isspace t'
      rw [heq, List.length_cons] at hspace'
      omega
    · cases h

/-- `_pam_parse_control` -/
def pamParseControl (control : ℕ → Int) (tok : List UInt8) : ℕ → Int :=
  match h : parsePair tok with
  | .done => control
  | .error _ => fun i => if i < returnValues then actionBad else control i
  | .set ret act rest =>
    have := parsePair_length h
    pamParseControl (setControl control ret act) rest
termination_by tok.length

/-! ## What is written -/

/-- The action of a pair, as it is written. -/
inductive Written where
  | symbol (act : ℕ)
  | number (n : ℕ)
deriving DecidableEq

/-- The entry of the array that stands for the action: a positive one is a jump. -/
def Written.code : Written → Int
  | .symbol act => -act
  | .number n => n

/-- The number that the digits stand for. -/
def digitsNumber (digits : List UInt8) : ℕ := digits.foldl (fun n c => n * 10 + (c.toNat - 48)) 0

/-- The text starts with a pair, `rest` is behind it. -/
inductive PairText : List UInt8 → ℕ → Written → List UInt8 → Prop
  | symbol {a b c name word rest : List UInt8} {ret act : ℕ} (ha : ∀ x ∈ a, isspace x = true)
      (hb : ∀ x ∈ b, isspace x = true) (hc : ∀ x ∈ c, isspace x = true)
      (hret : pamTokenReturns[ret]? = some name) (hact : pamTokenActions[act]? = some word) :
      PairText (a ++ (name ++ (b ++ 61 :: (c ++ (word ++ rest))))) ret (.symbol act) rest
  | number {a b c name digits rest : List UInt8} {ret : ℕ} (ha : ∀ x ∈ a, isspace x = true)
      (hb : ∀ x ∈ b, isspace x = true) (hc : ∀ x ∈ c, isspace x = true)
      (hret : pamTokenReturns[ret]? = some name) (hne : digits ≠ [])
      (hdigits : ∀ x ∈ digits, isdigit x = true) (hrest : ∀ x ∈ rest.head?, isdigit x = false) :
      PairText (a ++ (name ++ (b ++ 61 :: (c ++ (digits ++ rest))))) ret
        (.number (digitsNumber digits)) rest

/-- The text starts with some pairs, one after the other. -/
inductive Pairs (tok : List UInt8) : List (ℕ × Written) → List UInt8 → Prop
  | nil : Pairs tok [] tok
  | snoc {ps : List (ℕ × Written)} {t rest : List UInt8} {ret : ℕ} {w : Written}
      (h : Pairs tok ps t) (hp : PairText t ret w rest) : Pairs tok (ps ++ [(ret, w)]) rest

/-! ## Words and numbers -/

/-- No word is the start of another one. -/
def PrefixFree (words : List (List UInt8)) : Prop :=
  words.Pairwise fun v w => ¬ v <+: w ∧ ¬ w <+: v

theorem pamTokens_prefixFree : PrefixFree pamTokenReturns ∧ PrefixFree pamTokenActions := by
  unfold PrefixFree
  decide +kernel

section
variable {words : List (List UInt8)} {i k : ℕ} {name tok rest : List UInt8}

theorem findToken_word (hfree : PrefixFree words) (hname : words[i]? = some name) :
    findToken words k (name ++ rest) = some (k + i, rest) := by
  induction words generalizing i k with
  | nil => cases hname
  | cons word words ih =>
    obtain ⟨hword, hfree⟩ := List.pairwise_cons.1 hfree
    rw [findToken]
    cases i with
    | zero =>
      obtain rfl := Option.some.inj hname
      rw [if_pos (List.prefix_append _ _), List.drop_left, Nat.add_zero]
    | succ i =>
      rw [List.getElem?_cons_succ] at hname
      have hne := hword name (List.mem_of_getElem? hname)
      have hno : ¬ word <+: name ++ rest := by
        intro hpre
        rcases List.prefix_or_prefix_of_prefix hpre (List.prefix_append name rest) with h | h
        · exact hne.1 h
        · exact hne.2 h
      rw [if_neg hno, ih hfree hname, Nat.add_right_comm, Nat.add_assoc]

theorem findToken_some {j : ℕ} (h : findToken words k tok = some (j, rest)) :
    ∃ i name, j = k + i ∧ words[i]? = some name ∧ tok = name ++ rest := by
  induction words generalizing k with
  | nil => cases h
  | cons word words ih =>
    rw [findToken] at h
    split_ifs at h with hpre
    · obtain ⟨rfl, rfl⟩ := Prod.mk.inj (Option.some.inj h)
      obtain ⟨t, rfl⟩ := hpre
      exact ⟨0, word, rfl, rfl, by rw [List.drop_left]⟩
    · obtain ⟨i, name, rfl, hname, rfl⟩ := ih h
      exact ⟨i + 1, name, by omega, hname, rfl⟩

theorem findToken_none (h : ∀ word ∈ words, ¬ word <+: tok) : findToken words k tok = none := by
  induction words generalizing k with
  | nil => rfl
  | cons word words ih =>
    rw [findToken, if_neg (h word List.mem_cons_self)]
    exact ih fun w hw => h w (List.mem_cons_of_mem word hw)

end

/-- The text starts with something. -/
def Starts (p : UInt8 → Prop) (tok : List UInt8) : Prop := ∃ c t, tok = c :: t ∧ p c

theorem Starts.append {p : UInt8 → Prop} (h : Starts p tok) (rest : List UInt8) :
    Starts p (tok ++ rest) := by
  obtain ⟨c, t, rfl, hc⟩ := h
  exact ⟨c, t ++ rest, rfl, hc⟩

/-- White space is skipped. -/
theorem dropWhile_space {a tok : List UInt8} (ha : ∀ x ∈ a, isspace x = true)
    (htok : Starts (fun c => isspace c = false) tok) : (a ++ tok).dropWhile isspace = tok := by
  obtain ⟨c, t, rfl, hc⟩ := htok
  rw [List.dropWhile_append_of_pos ha, List.dropWhile_cons_of_neg (by rw [hc]; exact Bool.false_ne_true)]

/-- A word starts with a character that is neither white space nor a digit. -/
def isWord (c : UInt8) : Bool := !isspace c && !isdigit c

theorem pamTokens_start : ∀ name ∈ pamTokenReturns ++ pamTokenActions, name.head?.any isWord = true := by
  decide +kernel

theorem starts_of_head {name : List UInt8} (h : name.head?.any isWord = true) :
    Starts (fun c => isspace c = false ∧ isdigit c = false) name := by
  cases name with
  | nil => cases h
  | cons c t =>
    refine ⟨c, t, rfl, ?_⟩
    simpa [isWord] using h

theorem Starts.mono {p q : UInt8 → Prop} (h : Starts p tok) (hpq : ∀ c, p c → q c) :
    Starts q tok := by
  obtain ⟨c, t, rfl, hc⟩ := h
  exact ⟨c, t, rfl, hpq c hc⟩

theorem isspace_of_isdigit {c : UInt8} (h : isdigit c = true) : isspace c = false := by
  unfold isdigit at h
  unfold isspace
  simp only [Bool.and_eq_true, decide_eq_true_eq, UInt8.le_iff_toNat_le] at h
  obtain ⟨h48, -⟩ := h
  have hn : (48 : UInt8).toNat = 48 := rfl
  rw [hn] at h48
  simp only [Bool.or_eq_false_iff, Bool.and_eq_false_iff, decide_eq_false_iff_not,
    UInt8.le_iff_toNat_le, beq_eq_false_iff_ne, ne_eq, UInt8.ext_iff]
  have h13 : (13 : UInt8).toNat = 13 := rfl
  have h32 : (32 : UInt8).toNat = 32 := rfl
  rw [h13, h32]
  omega

theorem cInt_cInt_add (x y : Int) : cInt (cInt x + y) = cInt (x + y) := Int.bmod_add_bmod

theorem cInt_cInt_mul (x y : Int) : cInt (cInt x * y) = cInt (x * y) := Int.bmod_mul_bmod

/-- The digits are taken for the number that is left of theirs in an `int`. -/
theorem jumpNumber_eq (digits : List UInt8) : jumpNumber digits = cInt (digitsNumber digits) := by
  have hfold : ∀ (ds : List UInt8) (n : ℕ),
      ds.foldl (fun act c => cInt (cInt (act * 10) + (c.toNat - 48 : ℕ))) (cInt n) =
        cInt (ds.foldl (fun n c => n * 10 + (c.toNat - 48)) n : ℕ) := by
    intro ds
    induction ds with
    | nil => exact fun n => by rw [List.foldl_nil, List.foldl_nil]
    | cons c ds ih =>
      intro n
      rw [List.foldl_cons, List.foldl_cons, ← ih, cInt_cInt_mul, cInt_cInt_add]
      push_cast
      rfl
  have hzero : cInt (0 : ℕ) = 0 := by rw [Nat.cast_zero, cInt, Int.zero_bmod]
  have h := hfold digits 0
  rw [hzero] at h
  exact h

/-! ## A turn of the loop -/

/-- What a turn does at a pair. -/
def Written.turn (ret : ℕ) (rest : List UInt8) : Written → Turn
  | .symbol act => .set ret (-act) rest
  | .number n => if cInt n = 0 then .error "expecting non-zero" else .set ret (cInt n) rest

section
variable {tok rest : List UInt8} {ret : ℕ} {w : Written}

theorem takeWhile_digits {digits rest : List UInt8} (hdigits : ∀ x ∈ digits, isdigit x = true)
    (hrest : ∀ x ∈ rest.head?, isdigit x = false) :
    (digits ++ rest).takeWhile isdigit = digits ∧ (digits ++ rest).dropWhile isdigit = rest := by
  rw [List.takeWhile_append_of_pos hdigits, List.dropWhile_append_of_pos hdigits]
  cases rest with
  | nil => exact ⟨List.append_nil _, rfl⟩
  | cons c rest =>
    have hc : ¬ isdigit c = true := by
      rw [hrest c rfl]
      exact Bool.false_ne_true
    rw [List.takeWhile_cons_of_neg hc, List.dropWhile_cons_of_neg hc]
    exact ⟨List.append_nil _, rfl⟩

theorem parseAction_symbol {act : ℕ} {word : List UInt8} (hact : pamTokenActions[act]? = some word) :
    parseAction ret (word ++ rest) = .set ret (-act) rest := by
  have hstart := starts_of_head (pamTokens_start word (List.mem_append_right _ (List.mem_of_getElem? hact)))
  have hne : ¬ word ++ rest = [] := by
    obtain ⟨c, t, ht, -⟩ := hstart.append rest
    rw [ht]
    exact List.cons_ne_nil _ _
  unfold parseAction
  rw [if_neg hne, findToken_word pamTokens_prefixFree.2 hact]
  dsimp only
  rw [Nat.zero_add]

theorem parseAction_number {digits : List UInt8} (hne : digits ≠ [])
    (hdigits : ∀ x ∈ digits, isdigit x = true) (hrest : ∀ x ∈ rest.head?, isdigit x = false) :
    parseAction ret (digits ++ rest) = (Written.number (digitsNumber digits)).turn ret rest := by
  have hnil : ¬ digits ++ rest = [] := fun h => hne (List.append_eq_nil_iff.1 h).1
  have hno : ∀ word ∈ pamTokenActions, ¬ word <+: digits ++ rest := by
    intro word hword hpre
    obtain ⟨c, t, rfl, -, hc⟩ := starts_of_head (pamTokens_start word (List.mem_append_right _ hword))
    cases digits with
    | nil => exact hne rfl
    | cons d digits =>
      obtain ⟨u, hu⟩ := hpre
      obtain ⟨rfl, -⟩ := List.cons.inj hu
      rw [hdigits c List.mem_cons_self] at hc
      cases hc
  obtain ⟨htake, hdrop⟩ := takeWhile_digits hdigits hrest
  unfold parseAction
  rw [if_neg hnil, findToken_none hno]
  dsimp only
  rw [htake, hdrop, if_neg hne, jumpNumber_eq]
  rfl

/-- The loop reads a pair. -/
theorem parsePair_text (h : PairText tok ret w rest) : parsePair tok = w.turn ret rest := by
  have hpair : ∀ {a b c name u : List UInt8}, (∀ x ∈ a, isspace x = true) →
      (∀ x ∈ b, isspace x = true) → (∀ x ∈ c, isspace x = true) →
      pamTokenReturns[ret]? = some name → Starts (fun c => isspace c = false) u →
      parsePair (a ++ (name ++ (b ++ 61 :: (c ++ u)))) = parseAction ret u := by
    intro a b c name u ha hb hc hret hu
    have hname := starts_of_head (pamTokens_start name (List.mem_append_left _ (List.mem_of_getElem? hret)))
    have hskip := dropWhile_space ha ((hname.mono fun _ h => h.1).append (b ++ 61 :: (c ++ u)))
    have heq : Starts (fun c => isspace c = false) (61 :: (c ++ u)) := ⟨61, c ++ u, rfl, by decide⟩
    have hskip' := dropWhile_space hb heq
    have hne : ¬ name ++ (b ++ 61 :: (c ++ u)) = [] := by
      obtain ⟨d, t, ht, -⟩ := hname.append (b ++ 61 :: (c ++ u))
      rw [ht]
      exact List.cons_ne_nil _ _
    have hcons : ∃ d t, b ++ 61 :: (c ++ u) = d :: t := by
      cases b with
      | nil => exact ⟨61, c ++ u, rfl⟩
      | cons d b => exact ⟨d, b ++ 61 :: (c ++ u), rfl⟩
    obtain ⟨d, t, ht⟩ := hcons
    unfold parsePair
    dsimp only
    rw [hskip, if_neg hne, findToken_word pamTokens_prefixFree.1 hret, Nat.zero_add, ht]
    dsimp only
    rw [← ht, hskip']
    exact congrArg (parseAction ret) (dropWhile_space hc hu)
  cases h with
  | symbol ha hb hc hret hact =>
    have hstart := starts_of_head (pamTokens_start _ (List.mem_append_right _ (List.mem_of_getElem? hact)))
    rw [hpair ha hb hc hret ((hstart.mono fun _ h => h.1).append _), parseAction_symbol hact]
    rfl
  | @number a b c name digits rest ret ha hb hc hret hne hdigits hrest =>
    have hstart : Starts (fun c => isspace c = false) digits := by
      cases digits with
      | nil => exact (hne rfl).elim
      | cons d ds => exact ⟨d, ds, rfl, isspace_of_isdigit (hdigits d List.mem_cons_self)⟩
    rw [hpair ha hb hc hret (hstart.append rest), parseAction_number hne hdigits hrest]

/-- The text before something that is not white space. -/
theorem exists_space (tok : List UInt8) :
    ∃ a, (∀ x ∈ a, isspace x = true) ∧ tok = a ++ tok.dropWhile isspace :=
  ⟨tok.takeWhile isspace, fun _ => List.mem_takeWhile_imp, List.takeWhile_append_dropWhile.symm⟩

/-- An element of the array is set for a pair only. -/
theorem parsePair_set {act : Int} (h : parsePair tok = .set ret act rest) :
    ∃ w, PairText tok ret w rest := by
  obtain ⟨a, ha, htok⟩ := exists_space tok
  unfold parsePair at h
  dsimp only at h
  split_ifs at h
  split at h
  · cases h
  · cases h
  · rename_i k c t hfind
    obtain ⟨i, name, rfl, hname, ht⟩ := findToken_some hfind
    obtain ⟨b, hb, hb'⟩ := exists_space (c :: t)
    split at h
    · rename_i u heq
      obtain ⟨d, hd, hd'⟩ := exists_space u
      rw [Nat.zero_add] at h
      rw [ht, hb', heq, hd'] at htok
      unfold parseAction at h
      split_ifs at h
      cases hfind' : findToken pamTokenActions 0 (u.dropWhile isspace) with
      | some p =>
        rw [hfind'] at h
        obtain ⟨rfl, -, rfl⟩ := Turn.set.inj h
        obtain ⟨j, word, -, hword, hw⟩ := @findToken_some pamTokenActions 0 _ p.2 p.1 hfind'
        rw [htok, hw]
        exact ⟨_, .symbol ha hb hd hname hword⟩
      | none =>
        rw [hfind'] at h
        dsimp only at h
        split_ifs at h with hnil
        obtain ⟨rfl, -, rfl⟩ := Turn.set.inj h
        rw [htok]
        have hsplit := (@List.takeWhile_append_dropWhile _ isdigit (u.dropWhile isspace)).symm
        refine ⟨.number (digitsNumber ((u.dropWhile isspace).takeWhile isdigit)), ?_⟩
        have hhead : ∀ x ∈ ((u.dropWhile isspace).dropWhile isdigit).head?, isdigit x = false := by
          intro x hx
          have hnot := List.head?_dropWhile_not isdigit (u.dropWhile isspace)
          rw [hx] at hnot
          simpa using hnot
        have hpair := PairText.number ha hb hd hname hnil (fun _ => List.mem_takeWhile_imp) hhead
        rw [← hsplit] at hpair
        exact hpair
    · cases h

end

/-! ## Runs -/

/-- The loop comes to the text `t`, with these actions in the array. -/
inductive ControlRun (control : ℕ → Int) (tok : List UInt8) : (ℕ → Int) → List UInt8 → Prop
  | start : ControlRun control tok control tok
  | next {c : ℕ → Int} {t rest : List UInt8} {ret : ℕ} {act : Int} (h : ControlRun control tok c t)
      (hp : parsePair t = .set ret act rest) : ControlRun control tok (setControl c ret act) rest

/-- No number of the pairs is a multiple of `2 ^ 32`, which an `int` takes for zero. -/
def Counts (ps : List (ℕ × Written)) : Prop := ∀ p ∈ ps, ∀ n, p.2 = .number n → ¬ 4294967296 ∣ n

/-- The numbers that the parser comes to fit in an `int`, or are taken for zero. -/
def JumpsFit (tok : List UInt8) : Prop :=
  ∀ ps t ret n rest, Pairs tok ps t → Counts ps → PairText t ret (.number n) rest →
    n < 2147483648 ∨ 4294967296 ∣ n

/-- The action that the pairs give to a return code: that of the last pair for it, or that of the
    first `default`. -/
def controlOf (control : ℕ → Int) (ps : List (ℕ × Written)) (ret : ℕ) : Int :=
  match (ps.filter fun p => p.1 = ret).getLast? with
  | some p => p.2.code
  | none =>
    if control ret = actionUndef then
      match ps.find? fun p => p.1 = returnValues with
      | some p => p.2.code
      | none => actionUndef
    else control ret

/-- A control string is parsed as it is meant: a number is an error or the jump that is written; the
    pairs for a return code go before the default; after an error every action is `bad`. -/
structure FailSafe (tok : List UInt8) : Prop where
  jump : ∀ control c t ret n rest, ControlRun control tok c t → PairText t ret (.number n) rest →
    (∃ e, parsePair t = .error e) ∨ 0 < n ∧ parsePair t = .set ret n rest
  explicit : ∀ control ps t, Pairs tok ps t → Counts ps → (∀ x ∈ t, isspace x = true) →
    ∀ ret < returnValues, pamParseControl control tok ret = controlOf control ps ret
  error : ∀ control c t e, ControlRun control tok c t → parsePair t = .error e →
    ∀ ret < returnValues, pamParseControl control tok ret = actionBad

section
variable {control c : ℕ → Int} {tok t rest : List UInt8} {ret n : ℕ} {w : Written}
  {ps : List (ℕ × Written)}

theorem cInt_eq_zero : cInt n = 0 ↔ 4294967296 ∣ n := by
  unfold cInt
  rw [← Int.dvd_iff_bmod_eq_zero]
  exact Int.natCast_dvd_natCast

theorem cInt_of_lt (h : n < 2147483648) : cInt n = n := by
  unfold cInt
  exact Int.bmod_eq_of_le (by omega) (by omega)

theorem lt_of_cInt (h : cInt n = n) : n < 2147483648 := by
  have hlt := @Int.bmod_lt (n : ℤ) 4294967296 (by norm_num)
  unfold cInt at h
  rw [h] at hlt
  omega

theorem pamParseControl_done (h : parsePair tok = .done) : pamParseControl control tok = control := by
  rw [pamParseControl]
  split
  · rfl
  · rename_i e he
    rw [h] at he
    cases he
  · rename_i ret act rest he
    rw [h] at he
    cases he

theorem pamParseControl_error {e : String} (h : parsePair tok = .error e) (hret : ret < returnValues) :
    pamParseControl control tok ret = actionBad := by
  have heq : pamParseControl control tok =
      fun i => if i < returnValues then actionBad else control i := by
    rw [pamParseControl]
    split
    · rename_i he
      rw [h] at he
      cases he
    · rfl
    · rename_i ret act rest he
      rw [h] at he
      cases he
  rw [heq]
  exact if_pos hret

theorem pamParseControl_set {act : Int} (h : parsePair tok = .set ret act rest) :
    pamParseControl control tok = pamParseControl (setControl control ret act) rest := by
  rw [pamParseControl]
  split
  · rename_i he
    rw [h] at he
    cases he
  · rename_i e he
    rw [h] at he
    cases he
  · rename_i ret act rest he
    obtain ⟨rfl, rfl, rfl⟩ := Turn.set.inj (h.symm.trans he)
    rfl

theorem ControlRun.eq (h : ControlRun control tok c t) :
    pamParseControl control tok = pamParseControl c t := by
  induction h with
  | start => rfl
  | next _ hp ih => rw [ih, pamParseControl_set hp]

/-- The turns of a run are pairs of the text. -/
theorem ControlRun.pairs (h : ControlRun control tok c t) : ∃ ps, Pairs tok ps t ∧ Counts ps := by
  induction h with
  | start => exact ⟨[], .nil, nofun⟩
  | @next c t rest ret act _ hp ih =>
    obtain ⟨ps, hps, hcounts⟩ := ih
    obtain ⟨w, hw⟩ := parsePair_set hp
    refine ⟨ps ++ [(ret, w)], hps.snoc hw, fun p hmem n hn hdvd => ?_⟩
    rcases List.mem_append.1 hmem with hmem | hmem
    · exact hcounts p hmem n hn hdvd
    · obtain rfl := List.mem_singleton.1 hmem
      obtain rfl : w = .number n := hn
      rw [parsePair_text hw, Written.turn, if_pos (cInt_eq_zero.2 hdvd)] at hp
      cases hp

theorem Counts.init {p : ℕ × Written} (h : Counts (ps ++ [p])) : Counts ps :=
  fun q hq => h q (List.mem_append_left _ hq)

/-- The pairs of the text are the turns of a run. -/
theorem Pairs.run (h : Pairs tok ps t) (hcounts : Counts ps) (control : ℕ → Int) :
    ∃ c, ControlRun control tok c t := by
  induction h with
  | nil => exact ⟨control, .start⟩
  | @snoc ps t rest ret w h hp ih =>
    obtain ⟨c, hc⟩ := ih hcounts.init
    have hturn := parsePair_text hp
    cases w with
    | symbol act => exact ⟨_, hc.next hturn⟩
    | number n =>
      have hne : ¬ cInt n = 0 :=
        fun h0 => hcounts _ (List.mem_append_right _ (List.mem_singleton_self _)) n rfl
          (cInt_eq_zero.1 h0)
      rw [Written.turn, if_neg hne] at hturn
      exact ⟨_, hc.next hturn⟩

theorem Pairs.fits (hfit : JumpsFit tok) (h : Pairs tok ps t) (hcounts : Counts ps) :
    ∀ p ∈ ps, ∀ n, p.2 = .number n → 0 < n ∧ n < 2147483648 := by
  induction h with
  | nil => exact nofun
  | @snoc ps t rest ret w h hp ih =>
    intro p hmem n hn
    have hcount := hcounts p hmem n hn
    rcases List.mem_append.1 hmem with hmem | hmem
    · exact ih hcounts.init p hmem n hn
    · obtain rfl := List.mem_singleton.1 hmem
      obtain rfl : w = .number n := hn
      rcases hfit ps t ret n rest h hcounts.init hp with hlt | hdvd
      · refine ⟨Nat.pos_of_ne_zero ?_, hlt⟩
        rintro rfl
        exact hcount (dvd_zero _)
      · exact (hcount hdvd).elim

/-- The changes of the array that the pairs stand for. -/
def applyPairs (control : ℕ → Int) (ps : List (ℕ × Written)) : ℕ → Int :=
  ps.foldl (fun c p => setControl c p.1 p.2.code) control

theorem Pairs.run_apply (hfit : JumpsFit tok) (h : Pairs tok ps t) (hcounts : Counts ps)
    (control : ℕ → Int) : ControlRun control tok (applyPairs control ps) t := by
  induction h with
  | nil => exact .start
  | @snoc ps t rest ret w h hp ih =>
    have hrun := ih hcounts.init
    have hturn := parsePair_text hp
    have happly : applyPairs control (ps ++ [(ret, w)]) =
        setControl (applyPairs control ps) ret w.code := by
      unfold applyPairs
      rw [List.foldl_append, List.foldl_cons, List.foldl_nil]
    rw [happly]
    cases w with
    | symbol act => exact hrun.next hturn
    | number n =>
      obtain ⟨hpos, hlt⟩ := (h.snoc hp).fits hfit hcounts _
        (List.mem_append_right _ (List.mem_singleton_self _)) n rfl
      have hcode := cInt_of_lt hlt
      have hne : ¬ cInt n = 0 := by
        rw [hcode]
        omega
      rw [Written.turn, if_neg hne, hcode] at hturn
      exact hrun.next hturn

/-- Pairs for a return code go before the default. -/
theorem applyPairs_eq (hcode : ∀ p ∈ ps, p.2.code ≠ actionUndef) (hret : ret < returnValues) :
    applyPairs control ps ret = controlOf control ps ret := by
  induction ps using List.reverseRecOn with
  | nil =>
    unfold applyPairs controlOf
    simp only [List.foldl_nil, List.filter_nil, List.getLast?_nil, List.find?_nil]
    split_ifs with h
    · exact h
    · rfl
  | append_singleton ps p ih =>
    have ih' := ih fun q hq => hcode q (List.mem_append_left _ hq)
    have hundef : ∀ q ∈ ps, q.2.code ≠ actionUndef := fun q hq => hcode q (List.mem_append_left _ hq)
    have happly : applyPairs control (ps ++ [p]) = setControl (applyPairs control ps) p.1 p.2.code := by
      unfold applyPairs
      rw [List.foldl_append, List.foldl_cons, List.foldl_nil]
    rw [happly]
    unfold controlOf at ih' ⊢
    rw [List.filter_append, List.find?_append]
    unfold setControl
    by_cases hdefault : p.1 = returnValues
    · -- a default changes only what is not yet set
      have hne : ¬ p.1 = ret := by omega
      have hfilter : [p].filter (fun p => p.1 = ret) = [] := by simp [hne]
      have hfind : [p].find? (fun p => p.1 = returnValues) = some p := by simp [hdefault]
      rw [if_neg (not_not.2 hdefault), hfilter, List.append_nil, hfind]
      unfold pamSetDefaultControl
      rw [ih']
      cases hlast : (ps.filter fun p => p.1 = ret).getLast? with
      | some q =>
        have hq : q ∈ ps := List.mem_of_mem_filter (List.mem_of_getLast? hlast)
        rw [if_neg fun h => hundef q hq h.2]
      | none =>
        dsimp only
        by_cases hcontrol : control ret = actionUndef
        · rw [if_pos hcontrol]
          cases hfirst : ps.find? fun p => p.1 = returnValues with
          | some q =>
            have hq : q ∈ ps := List.mem_of_find?_eq_some hfirst
            rw [if_pos hcontrol]
            exact if_neg fun h => hundef q hq h.2
          | none =>
            rw [if_pos hcontrol]
            exact if_pos ⟨hret, rfl⟩
        · rw [if_neg hcontrol, if_neg fun h => hcontrol h.2, if_neg hcontrol]
    · have hfind : [p].find? (fun p => p.1 = returnValues) = none := by simp [hdefault]
      rw [if_pos hdefault, hfind, Option.or_none]
      by_cases heq : p.1 = ret
      · have hfilter : [p].filter (fun p => p.1 = ret) = [p] := by simp [heq]
        rw [hfilter, List.getLast?_concat, heq, Function.update_self]
      · have hfilter : [p].filter (fun p => p.1 = ret) = [] := by simp [heq]
        rw [hfilter, List.append_nil, Function.update_of_ne (Ne.symm heq), ih']

theorem parsePair_blank (h : ∀ x ∈ t, isspace x = true) : parsePair t = .done := by
  unfold parsePair
  dsimp only
  rw [List.dropWhile_eq_nil_iff.2 h]
  rfl

/-- The word of an action is not that of an element that is not set. -/
theorem Pairs.code (h : Pairs tok ps t) : ∀ p ∈ ps, p.2.code ≠ actionUndef := by
  induction h with
  | nil => exact nofun
  | @snoc ps t rest ret w h hp ih =>
    intro p hmem
    rcases List.mem_append.1 hmem with hmem | hmem
    · exact ih p hmem
    · obtain rfl := List.mem_singleton.1 hmem
      unfold actionUndef
      cases hp with
      | @symbol _ _ _ _ _ _ _ act _ _ _ _ hact =>
        obtain ⟨hlt, -⟩ := List.getElem?_eq_some_iff.1 hact
        have hlen : pamTokenActions.length = 6 := rfl
        change -(act : ℤ) ≠ -6
        omega
      | @number _ _ _ _ digits =>
        change (digitsNumber digits : ℤ) ≠ -6
        omega

/-- After an error every action is `bad`. -/
theorem ControlRun.error {e : String} (h : ControlRun control tok c t) (he : parsePair t = .error e)
    (hret : ret < returnValues) : pamParseControl control tok ret = actionBad := by
  rw [h.eq]
  exact pamParseControl_error he hret

end

/-- **Control strings are parsed as they are meant iff their numbers fit.** A number from `2 ^ 31`
    on is taken for another jump or for one of the actions that have a word, unless it is taken for
    zero, which is an error. -/
theorem pamParseControl_failSafe_iff (tok : List UInt8) : FailSafe tok ↔ JumpsFit tok := by
  constructor
  · intro hsafe ps t ret n rest hps hcounts hpair
    obtain ⟨c, hrun⟩ := hps.run hcounts fun _ => actionUndef
    have hturn := parsePair_text hpair
    unfold Written.turn at hturn
    dsimp only at hturn
    rcases hsafe.jump _ c t ret n rest hrun hpair with ⟨e, he⟩ | ⟨-, hset⟩
    · by_cases hzero : cInt n = 0
      · exact .inr (cInt_eq_zero.1 hzero)
      · rw [if_neg hzero, he] at hturn
        cases hturn
    · by_cases hzero : cInt n = 0
      · exact .inr (cInt_eq_zero.1 hzero)
      · rw [if_neg hzero, hset] at hturn
        obtain ⟨-, hcode, -⟩ := Turn.set.inj hturn
        exact .inl (lt_of_cInt hcode.symm)
  · intro hfit
    refine ⟨?_, ?_, fun control c t e hrun he ret hret => hrun.error he hret⟩
    · intro control c t ret n rest hrun hpair
      obtain ⟨ps, hps, hcounts⟩ := hrun.pairs
      have hturn := parsePair_text hpair
      unfold Written.turn at hturn
      dsimp only at hturn
      by_cases hdvd : 4294967296 ∣ n
      · rw [if_pos (cInt_eq_zero.2 hdvd)] at hturn
        exact .inl ⟨_, hturn⟩
      · have hzero : ¬ cInt n = 0 := fun h => hdvd (cInt_eq_zero.1 h)
        have hlt : n < 2147483648 := (hfit ps t ret n rest hps hcounts hpair).resolve_right hdvd
        rw [if_neg hzero, cInt_of_lt hlt] at hturn
        refine .inr ⟨Nat.pos_of_ne_zero ?_, hturn⟩
        rintro rfl
        exact hdvd (dvd_zero _)
    · intro control ps t hps hcounts hblank ret hret
      rw [(hps.run_apply hfit hcounts control).eq, pamParseControl_done (parsePair_blank hblank)]
      exact applyPairs_eq hps.code hret

/-- **A jump of `2 ^ 32 - 1` is the action `ok`.** -/
theorem jump_taken_for_ok : ¬ FailSafe (chars "success=4294967295") ∧
    pamParseControl (fun _ => actionUndef) (chars "success=4294967295") 0 = -1 := by
  have hturn : parsePair (chars "success=4294967295") = .set 0 (-1) [] := by decide +kernel
  have hpair : PairText (chars "success=4294967295") 0 (.number 4294967295) [] := by
    exact @PairText.number [] [] [] (chars "success") (chars "4294967295") [] 0 nofun nofun nofun rfl
      (by decide) (by decide) nofun
  constructor
  · intro hsafe
    rcases hsafe.jump (fun _ => actionUndef) _ _ 0 4294967295 [] .start hpair with ⟨e, he⟩ | ⟨-, hset⟩
    · rw [hturn] at he
      cases he
    · rw [hturn] at hset
      obtain ⟨-, hact, -⟩ := Turn.set.inj hset
      omega
  · rw [pamParseControl_set hturn, pamParseControl_done rfl]
    rfl

end Pam
