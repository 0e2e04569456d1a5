/-
  Reading a dumped file gives the tree back.
-/
import IotLib.Xmldb.File

namespace Xmldb

/-! ## Trees that can be dumped -/

def isNameChar (c : UInt8) : Bool :=
  (0x41 ≤ c && c ≤ 0x5A) || (0x61 ≤ c && c ≤ 0x7A) || isDigit c || c == 0x5F || c == 0x2D

/-- A non-empty name of letters, digits, `_` and `-`. -/
structure NameOk (name : Bytes) : Prop where
  ne_nil : name ≠ []
  length : name.length ≤ 200
  chars : ∀ c ∈ name, isNameChar c = true

/-- A non-empty value that neither begins nor ends with white space. -/
structure ValueOk (value : Bytes) : Prop where
  ne_nil : value ≠ []
  nul : 0 ∉ value
  head : ∀ c, value.head? = some c → isWhite c = false
  last : ∀ c, value.getLast? = some c → isWhite c = false

mutual

/-- A node at a depth, and what is below it. -/
def NodeOk (depth : Nat) : XmlNode → Prop
  | ⟨name, id, value, _, child⟩ =>
    NameOk name ∧ 0 ≤ id ∧ id < 2 ^ 31 ∧ depth < 200 ∧ isSkipped false depth name = false ∧
      (∀ v, value = some v → ValueOk v ∧ (escape v).length + depth ≤ 250) ∧
      NodesOk (depth + 1) child

def NodesOk (depth : Nat) : List XmlNode → Prop
  | [] => True
  | node :: nodes => NodeOk depth node ∧ NodesOk depth nodes

end

mutual

/-- The node without its notifications, which are not dumped. -/
def bare : XmlNode → XmlNode
  | ⟨name, id, value, _, child⟩ => ⟨name, id, value, none, bares child⟩

def bares : List XmlNode → List XmlNode
  | [] => []
  | node :: nodes => bare node :: bares nodes

end

/-! ## Characters of names -/

theorem isNameChar_ne {c : UInt8} (h : isNameChar c = true) :
    c ≠ 0 ∧ isWhite c = false ∧ c ≠ 0x3E ∧ c ≠ 0x3D ∧ c ≠ 0x2F ∧ c ≠ 0x21 ∧ c ≠ 0x3F := by
  refine ⟨?_, ?_, ?_, ?_, ?_, ?_, ?_⟩
  · rintro rfl; cases h
  · refine eq_false_of_ne_true fun hw => ?_
    simp only [isWhite, Bool.or_eq_true, beq_iff_eq] at hw
    rcases hw with ((rfl | rfl) | rfl) | rfl <;> cases h
  all_goals rintro rfl; cases h

/-! ## Reading a tag -/

/-- A tag that the reader takes as a whole. -/
structure IsTag (tag : Bytes) : Prop where
  inner : ∃ c cs, tag = 0x3C :: (c :: cs ++ [0x3E]) ∧ 0x3E ∉ c :: cs ∧ c ≠ 0x21 ∧ c ≠ 0x3F
  nul : 0 ∉ tag
  length : tag.length ≤ MAX_TAG_LEN

theorem readLoop_tag {tsize : Nat} {raw : Bytes} : ∀ {inner tag rest : Bytes}, 0x3E ∉ inner →
    tag.length + inner.length < tsize → isComment (tag ++ inner ++ [0x3E]) = false →
    readLoop tsize (inner ++ 0x3E :: rest) true raw tag = (raw, tag ++ inner ++ [0x3E], rest)
  | [], tag, rest, _, hlen, hcom => by
    rw [List.append_nil] at hcom
    rw [List.nil_append, readLoop, if_neg (by simpa using hlen), if_pos rfl, hcom, List.append_nil]
    rfl
  | c :: inner, tag, rest, hno, hlen, hcom => by
    rw [List.mem_cons, not_or] at hno
    rw [List.length_cons] at hlen
    have happ : tag ++ c :: inner = tag ++ [c] ++ inner := by simp
    rw [happ] at hcom ⊢
    rw [List.cons_append, readLoop, if_neg (by omega), if_neg (Ne.symm hno.1)]
    refine readLoop_tag hno.2 ?_ hcom
    rw [List.length_append, List.length_singleton]
    omega

theorem readLoop_text {tsize : Nat} {fh : Bytes} : ∀ {text raw : Bytes}, 0x3C ∉ text →
    raw.length + text.length < MAX_VAL_LEN →
    readLoop tsize (text ++ 0x3C :: fh) false raw [] = readLoop tsize fh true (raw ++ text) [0x3C]
  | [], raw, _, _ => by
    rw [List.nil_append, readLoop, if_pos rfl, List.append_nil]
    rfl
  | c :: text, raw, hno, hlen => by
    rw [List.mem_cons, not_or] at hno
    rw [List.length_cons] at hlen
    rw [List.cons_append, readLoop, if_neg (Ne.symm hno.1), if_neg (by omega),
      readLoop_text hno.2 (by rw [List.length_append, List.length_singleton]; omega),
      List.append_assoc]
    rfl

theorem cstr_eq {buff : Bytes} (h : 0 ∉ buff) : cstr buff = buff := by
  refine List.takeWhile_eq_self_iff.2 fun c hc => ?_
  exact decide_eq_true fun h0 => h (h0 ▸ hc)

/-- `read_tag` on a text and a tag. -/
theorem readTag_eq {text tag rest : Bytes} (vsize : Nat) (htag : IsTag tag) (htext : 0x3C ∉ text)
    (hnul : 0 ∉ text) (hlen : text.length < MAX_VAL_LEN) :
    readTag (text ++ (tag ++ rest)) vsize MAX_TAG_LEN = (unescape vsize text, tag, rest) := by
  obtain ⟨⟨c, cs, rfl, hgt, h₁, h₂⟩, h0, hsize⟩ := htag
  have hcom : isComment ([0x3C] ++ (c :: cs) ++ [0x3E]) = false := by
    simp [isComment, ascii, h₁, h₂]
  have hloop : readLoop MAX_TAG_LEN (text ++ (0x3C :: (c :: cs ++ [0x3E]) ++ rest)) false [] [] =
      (text, 0x3C :: (c :: cs ++ [0x3E]), rest) := by
    have happ : text ++ (0x3C :: (c :: cs ++ [0x3E]) ++ rest) =
        text ++ 0x3C :: (c :: cs ++ 0x3E :: rest) := by simp
    rw [happ, readLoop_text htext (by simpa using hlen), readLoop_tag hgt _ hcom]
    · simp
    · simp only [List.length_cons, List.length_append, List.length_nil] at hsize ⊢
      omega
  rw [readTag, hloop]
  dsimp only
  rw [cstr_eq hnul, cstr_eq h0]

/-! ## Values -/

/-- The escape of a character is an entity, or the character. -/
theorem entityAt_escapeByte (c : UInt8) (rest : Bytes) :
    (entityAt (escapeByte c ++ rest) = some (c, rest)) ∨
      (escapeByte c = [c] ∧ entityAt (c :: rest) = none) := by
  by_cases h₁ : c = 0x26
  · subst h₁
    exact Or.inl rfl
  by_cases h₂ : c = 0x3C
  · subst h₂
    exact Or.inl rfl
  by_cases h₃ : c = 0x3E
  · subst h₃
    exact Or.inl rfl
  by_cases h₄ : c = 0x22
  · subst h₄
    exact Or.inl rfl
  by_cases h₅ : c = 0x27
  · subst h₅
    exact Or.inl rfl
  · refine Or.inr ⟨by simp [escapeByte, h₁, h₂, h₃, h₄, h₅], ?_⟩
    have hamp : ¬(0x26 : UInt8) = c := Ne.symm h₁
    simp [entityAt, entities, ascii, List.isPrefixOf, hamp]

theorem unescape_escape : ∀ {value ws : Bytes} {n : Nat}, 0x26 ∉ ws →
    value.length + ws.length ≤ n → unescape n (escape value ++ ws) = value ++ ws
  | [], [], n, _, _ => by cases n <;> rfl
  | [], c :: ws, 0, _, h => absurd h (by simp)
  | [], c :: ws, n + 1, hamp, h => by
    rw [List.mem_cons, not_or] at hamp
    have hent : entityAt (c :: ws) = none := by
      simp [entityAt, entities, ascii, List.isPrefixOf, hamp.1]
    have ih := @unescape_escape [] ws n hamp.2 (by simpa using h)
    rw [escape, List.flatMap_nil, List.nil_append] at ih ⊢
    rw [unescape, hent, ih]
  | c :: value, ws, 0, _, h => absurd h (by simp)
  | c :: value, ws, n + 1, hamp, h => by
    have hlen : value.length + ws.length ≤ n := by
      rw [List.length_cons] at h
      omega
    have ih := unescape_escape hamp hlen
    rw [escape, List.flatMap_cons, List.append_assoc]
    rw [escape] at ih
    rcases entityAt_escapeByte c (value.flatMap escapeByte ++ ws) with hent | ⟨hc, hent⟩
    · cases hesc : escapeByte c ++ (value.flatMap escapeByte ++ ws) with
      | nil =>
        rw [hesc] at hent
        cases hent
      | cons b raw =>
        rw [hesc] at hent
        rw [unescape, hent]
        dsimp only
        rw [ih, List.cons_append]
    · rw [hc, List.singleton_append, unescape, hent]
      dsimp only
      rw [ih, List.cons_append]

/-- Escaped text has no tags. -/
theorem escape_chars {value : Bytes} (h0 : 0 ∉ value) :
    0x3C ∉ escape value ∧ 0 ∉ escape value := by
  have hbyte : ∀ c : UInt8, c ≠ 0 → 0x3C ∉ escapeByte c ∧ 0 ∉ escapeByte c := by
    intro c hc
    unfold escapeByte
    split_ifs with h₁ h₂ h₃ h₄ h₅
    · decide
    · decide
    · decide
    · decide
    · decide
    · exact ⟨by simpa using Ne.symm h₂, by simpa using Ne.symm hc⟩
  constructor
  · intro hm
    obtain ⟨c, hc, hm⟩ := List.mem_flatMap.1 hm
    exact (hbyte c fun hc0 => h0 (hc0 ▸ hc)).1 hm
  · intro hm
    obtain ⟨c, hc, hm⟩ := List.mem_flatMap.1 hm
    exact (hbyte c fun hc0 => h0 (hc0 ▸ hc)).2 hm

theorem escape_length_le (value : Bytes) : value.length ≤ (escape value).length := by
  induction value with
  | nil => exact le_rfl
  | cons c value ih =>
    have hc : 1 ≤ (escapeByte c).length := by
      unfold escapeByte
      split_ifs <;> exact Nat.succ_le_succ (Nat.zero_le _)
    rw [escape, List.flatMap_cons, List.length_append, List.length_cons]
    rw [escape] at ih
    omega

theorem dropWhile_white {ws : Bytes} (h : ∀ c ∈ ws, isWhite c = true) (rest : Bytes) :
    (ws ++ rest).dropWhile isWhite = rest.dropWhile isWhite :=
  List.dropWhile_append_of_pos h

theorem dropWhile_of_head {value : Bytes} (h : ∀ c, value.head? = some c → isWhite c = false) :
    value.dropWhile isWhite = value := by
  cases value with
  | nil => rfl
  | cons c value => rw [List.dropWhile_cons_of_neg (by rw [h c rfl]; exact Bool.false_ne_true)]

/-- White space after a value is taken away. -/
theorem trimmed_value {value ws : Bytes} (h : ValueOk value) (hws : ∀ c ∈ ws, isWhite c = true) :
    trimmed (value ++ ws) = some value := by
  have hre : xmldbReatwhite (value ++ ws) = value := by
    rw [xmldbReatwhite, List.reverse_append, dropWhile_white (fun c hc => hws c (List.mem_reverse.1 hc)),
      dropWhile_of_head (fun c hc => h.last c (by rwa [← List.head?_reverse])), List.reverse_reverse]
  have heat : xmldbEatwhite value = value := dropWhile_of_head h.head
  rw [trimmed, hre, heat, if_pos h.ne_nil]

theorem trimmed_white {ws : Bytes} (hws : ∀ c ∈ ws, isWhite c = true) : trimmed ws = none := by
  have hre : xmldbReatwhite ws = [] := by
    rw [xmldbReatwhite, List.dropWhile_eq_nil_iff.2 (fun c hc => hws c (List.mem_reverse.1 hc))]
    rfl
  rw [trimmed, hre, if_neg (fun h => h rfl)]

/-! ## Names and ids -/

/-- The end tag of a name. -/
def endTag (name : Bytes) : Bytes := ascii "</" ++ name ++ ascii ">"

theorem takeWhile_stop {p : UInt8 → Bool} {pre rest : Bytes} {c : UInt8} (hpre : ∀ b ∈ pre, p b = true)
    (hc : p c = false) : (pre ++ c :: rest).takeWhile p = pre := by
  rw [List.takeWhile_append_of_pos hpre, List.takeWhile_cons_of_neg (by rw [hc]; exact Bool.false_ne_true),
    List.append_nil]

/-- A name is read up to the blank or the bracket after it. -/
theorem getNameFromTag_eq {name rest : Bytes} {c : UInt8} {size : Nat}
    (hname : ∀ b ∈ name, isWhite b = false ∧ b ≠ 0x3E) (hc : isWhite c = true ∨ c = 0x3E)
    (hlen : name.length < size) : getNameFromTag (0x3C :: (name ++ c :: rest)) size = name := by
  rw [getNameFromTag, takeWhile_stop]
  · exact List.take_of_length_le (Nat.le_sub_one_of_lt hlen)
  · intro b hb
    obtain ⟨h₁, h₂⟩ := hname b hb
    simp [h₁, h₂]
  · rcases hc with hc | rfl
    · simp [hc]
    · rfl

theorem NameOk.nameChars {name : Bytes} (h : NameOk name) :
    ∀ b ∈ name, isWhite b = false ∧ b ≠ 0x3E := by
  intro b hb
  obtain ⟨-, hw, hgt, -⟩ := isNameChar_ne (h.chars b hb)
  exact ⟨hw, hgt⟩

theorem getNameFromTag_endTag {name : Bytes} (h : NameOk name) (size : Nat) (hsize : size = 256) :
    getNameFromTag (endTag name) size = 0x2F :: name := by
  have htag : endTag name = 0x3C :: ((0x2F :: name) ++ 0x3E :: []) := rfl
  rw [htag]
  refine getNameFromTag_eq ?_ (Or.inr rfl) ?_
  · exact List.forall_mem_cons.2 ⟨by decide, h.nameChars⟩
  · have := h.length
    rw [List.length_cons]
    omega

/-- What follows the name in a start tag. -/
theorem startTag_eq (node : XmlNode) : ∃ c rest, startTag node = 0x3C :: (node.name ++ c :: rest) ∧
    (isWhite c = true ∨ c = 0x3E) := by
  unfold startTag
  split_ifs with hid
  · exact ⟨0x20, ascii "id=\"" ++ decimal node.id.toNat ++ ascii "\"" ++ ascii ">",
      by simp [ascii], Or.inl rfl⟩
  · exact ⟨0x3E, [], by simp [ascii], Or.inr rfl⟩

variable {node : XmlNode}

theorem getNameFromTag_startTag (h : NameOk node.name) (size : Nat)
    (hsize : size = 256) : getNameFromTag (startTag node) size = node.name := by
  obtain ⟨c, rest, htag, hc⟩ := startTag_eq node
  rw [htag]
  refine getNameFromTag_eq h.nameChars hc ?_
  have := h.length
  omega

theorem NameOk.head? {name : Bytes} (h : NameOk name) : name.head? ≠ some 0x2F := by
  obtain ⟨c, cs, rfl⟩ := List.exists_cons_of_ne_nil h.ne_nil
  rw [List.head?_cons, Ne, Option.some.injEq]
  exact (isNameChar_ne (h.chars c (List.mem_cons_self ..))).2.2.2.2.1

/-- The digits of a number. -/
theorem decimal_chars (n : Nat) : ∀ c ∈ decimal n, isDigit c = true := by
  intro c hc
  obtain ⟨d, hd, rfl⟩ := List.mem_map.1 hc
  have hlt : d < 10 := Nat.digits_lt_base (by decide) (List.mem_reverse.1 hd)
  interval_cases d <;> rfl

theorem digitsVal_decimal (n : Nat) : digitsVal (decimal n) = n := by
  have hfold : ∀ ds : List Nat, (∀ d ∈ ds, d < 10) →
      digitsVal (ds.reverse.map fun d => .ofNat (0x30 + d)) = Nat.ofDigits 10 ds := by
    intro ds hds
    induction ds with
    | nil => rfl
    | cons d ds ih =>
      obtain ⟨hd, hds⟩ := List.forall_mem_cons.1 hds
      have hval : (UInt8.ofNat (0x30 + d)).toNat - 0x30 = d := by
        interval_cases d <;> rfl
      rw [List.reverse_cons, List.map_append, digitsVal, List.foldl_append]
      rw [digitsVal] at ih
      rw [ih hds, Nat.ofDigits_cons]
      simp only [List.map_cons, List.map_nil, List.foldl_cons, List.foldl_nil, hval]
      omega
  rw [decimal, hfold _ fun d hd => Nat.digits_lt_base (by decide) hd, Nat.ofDigits_digits]

theorem decimal_length {n : Nat} (h : n < 2 ^ 31) : (decimal n).length ≤ 10 := by
  rw [decimal, List.length_map, List.length_reverse]
  rcases Nat.eq_zero_or_pos n with rfl | hpos
  · decide
  · rw [Nat.digits_length_le_iff (by decide)]
    omega

theorem strstrId_none : ∀ {tag : Bytes}, 0x3D ∉ tag → strstrId tag = none
  | [], _ => rfl
  | c :: tag, h => by
    have hno : ¬(ascii "id=").isPrefixOf (c :: tag) = true := by
      intro hp
      obtain ⟨t, ht⟩ := List.isPrefixOf_iff_prefix.1 hp
      exact h (ht ▸ List.mem_append_left t (by decide))
    rw [strstrId, if_neg hno]
    exact strstrId_none fun hm => h (List.mem_cons_of_mem c hm)

/-- The first `id=` is the one of the attribute. -/
theorem strstrId_some : ∀ {pre rest : Bytes}, 0x3D ∉ pre →
    strstrId (pre ++ (ascii "id=" ++ rest)) = some (ascii "id=" ++ rest)
  | [], _, _ => rfl
  | c :: pre, rest, h => by
    rw [List.mem_cons, not_or] at h
    have hno : ¬(ascii "id=").isPrefixOf (c :: (pre ++ (ascii "id=" ++ rest))) = true := by
      intro hp
      rcases pre with _ | ⟨c₁, _ | ⟨c₂, pre⟩⟩
      · simp [ascii, List.isPrefixOf] at hp
      · simp [ascii, List.isPrefixOf] at hp
      · simp only [List.mem_cons, not_or] at h
        simp [ascii, List.isPrefixOf] at hp
        exact h.2.2.1 hp.2.2
    rw [List.cons_append, strstrId, if_neg hno]
    exact strstrId_some h.2

theorem atoi_decimal {n : Nat} (hpos : 0 < n) (h : n < 2 ^ 31) : atoi (decimal n) = n := by
  have hne : decimal n ≠ [] := by
    intro hnil
    have := digitsVal_decimal n
    rw [hnil] at this
    exact absurd this (Nat.ne_of_lt hpos)
  obtain ⟨d, ds, hds⟩ := List.exists_cons_of_ne_nil hne
  have hdigits := decimal_chars n
  have hval := digitsVal_decimal n
  rw [hds] at hdigits hval ⊢
  have hd := hdigits d (List.mem_cons_self ..)
  have hspace : (d :: ds).dropWhile isSpace = d :: ds := by
    refine List.dropWhile_cons_of_neg fun hsp => ?_
    simp only [isSpace, isDigit, Bool.or_eq_true, Bool.and_eq_true, beq_iff_eq, decide_eq_true_eq,
      UInt8.le_iff_toNat_le, ← UInt8.toNat_inj] at hsp hd
    rcases hsp with hsp | hsp
    · rw [hsp] at hd
      exact absurd hd.1 (by decide)
    · exact absurd (hd.1.trans hsp.2) (by decide)
  have hclamp : max (-2 ^ 31) (min (2 ^ 31 - 1) (n : Int)) = n := by
    rw [min_eq_right (by omega), max_eq_right (by omega)]
  have htake : (d :: ds).takeWhile isDigit = d :: ds := List.takeWhile_eq_self_iff.2 hdigits
  have hminus : d ≠ 0x2D := by rintro rfl; cases hd
  have hplus : d ≠ 0x2B := by rintro rfl; cases hd
  rw [atoi, hspace]
  dsimp only
  split
  · rename_i heq
    exact absurd (List.cons.inj heq).1 hminus
  · rename_i heq
    exact absurd (List.cons.inj heq).1 hplus
  · rw [htake, hval, hclamp]

theorem getIdFromTag_startTag (hname : NameOk node.name) (h₀ : 0 ≤ node.id)
    (h₁ : node.id < 2 ^ 31) : getIdFromTag (startTag node) = node.id := by
  have heq : 0x3D ∉ ascii "<" ++ node.name := by
    intro hm
    rcases List.mem_append.1 hm with hm | hm
    · exact absurd hm (by decide)
    · exact (isNameChar_ne (hname.chars _ hm)).2.2.2.1 rfl
  by_cases hid : node.id > 0
  · have htag : startTag node = (ascii "<" ++ node.name ++ [0x20]) ++
        (ascii "id=" ++ (0x22 :: (decimal node.id.toNat ++ 0x22 :: ascii ">"))) := by
      rw [startTag, if_pos hid]
      simp [ascii]
    have heq' : 0x3D ∉ ascii "<" ++ node.name ++ [0x20] := by
      rw [List.mem_append, not_or]
      exact ⟨heq, by decide⟩
    have hquote : ∀ d ∈ decimal node.id.toNat, decide (d ≠ 0x22) = true := by
      intro d hd
      refine decide_eq_true ?_
      rintro rfl
      exact absurd (decimal_chars _ _ hd) (by decide)
    rw [getIdFromTag, htag, strstrId_some heq']
    change atoi ((decimal node.id.toNat ++ 0x22 :: ascii ">").takeWhile fun c => decide (c ≠ 0x22)) = _
    rw [takeWhile_stop hquote rfl, atoi_decimal (by omega) (by omega)]
    omega
  · have htag : startTag node = ascii "<" ++ node.name ++ ascii ">" := by
      rw [startTag, if_neg hid, List.append_nil]
    have heq' : 0x3D ∉ startTag node := by
      rw [htag, List.mem_append, not_or]
      exact ⟨heq, by decide⟩
    rw [getIdFromTag, strstrId_none heq']
    dsimp only
    omega

theorem NameOk.not_mem {name : Bytes} (h : NameOk name) : 0 ∉ name ∧ 0x3E ∉ name := by
  constructor
  · exact fun hm => (isNameChar_ne (h.chars _ hm)).1 rfl
  · exact fun hm => (isNameChar_ne (h.chars _ hm)).2.2.1 rfl

theorem isTag_endTag {name : Bytes} (h : NameOk name) : IsTag (endTag name) where
  inner := by
    refine ⟨0x2F, name, rfl, ?_, by decide, by decide⟩
    rw [List.mem_cons, not_or]
    exact ⟨by decide, h.not_mem.2⟩
  nul := by
    rw [endTag, List.mem_append, List.mem_append, not_or, not_or]
    exact ⟨⟨by decide, h.not_mem.1⟩, by decide⟩
  length := by
    have := h.length
    rw [endTag, List.length_append, List.length_append]
    change 2 + name.length + 1 ≤ 256
    omega

theorem isTag_startTag (hname : NameOk node.name) (h₁ : node.id < 2 ^ 31) :
    IsTag (startTag node) := by
  obtain ⟨c, cs, hcs⟩ := List.exists_cons_of_ne_nil hname.ne_nil
  have hc := isNameChar_ne (hname.chars c (by rw [hcs]; exact List.mem_cons_self ..))
  -- the attribute, or nothing
  obtain ⟨attr, htag, hgt, h0, hlen⟩ : ∃ attr, startTag node = 0x3C :: (node.name ++ attr ++ [0x3E]) ∧
      0x3E ∉ attr ∧ 0 ∉ attr ∧ attr.length ≤ 20 := by
    by_cases hid : node.id > 0
    · refine ⟨ascii " id=\"" ++ decimal node.id.toNat ++ ascii "\"", ?_, ?_, ?_, ?_⟩
      · rw [startTag, if_pos hid]
        simp [ascii]
      · rw [List.mem_append, List.mem_append, not_or, not_or]
        exact ⟨⟨by decide, fun hm => absurd (decimal_chars _ _ hm) (by decide)⟩, by decide⟩
      · rw [List.mem_append, List.mem_append, not_or, not_or]
        exact ⟨⟨by decide, fun hm => absurd (decimal_chars _ _ hm) (by decide)⟩, by decide⟩
      · have := @decimal_length node.id.toNat (by omega)
        rw [List.length_append, List.length_append]
        change 5 + (decimal node.id.toNat).length + 1 ≤ 20
        omega
    · refine ⟨[], ?_, List.not_mem_nil, List.not_mem_nil, Nat.zero_le _⟩
      rw [startTag, if_neg hid]
      simp [ascii]
  constructor
  · refine ⟨c, cs ++ attr, ?_, ?_, hc.2.2.2.2.2.1, hc.2.2.2.2.2.2⟩
    · rw [htag, hcs]
      simp
    · rw [← List.cons_append, ← hcs, List.mem_append, not_or]
      exact ⟨hname.not_mem.2, hgt⟩
  · rw [htag, List.mem_cons, List.mem_append, List.mem_append, not_or, not_or, not_or]
    exact ⟨by decide, ⟨hname.not_mem.1, h0⟩, by decide⟩
  · have := hname.length
    rw [htag]
    simp only [List.length_cons, List.length_append, List.length_nil, MAX_TAG_LEN]
    omega

/-! ## Reading what was dumped -/

theorem tabs_white {n : Nat} : ∀ c ∈ tabs n, c = 0x09 := fun _ hc => (List.mem_replicate.1 hc).2

/-- White space between tags. -/
structure Blank (ws : Bytes) : Prop where
  chars : ∀ c ∈ ws, c = 0x09 ∨ c = 0x0A
  length : ws.length ≤ 201

theorem Blank.white {ws : Bytes} (h : Blank ws) : ∀ c ∈ ws, isWhite c = true := by
  intro c hc
  rcases h.chars c hc with rfl | rfl <;> rfl

theorem Blank.not_mem {ws : Bytes} (h : Blank ws) {c : UInt8} (h₁ : c ≠ 0x09) (h₂ : c ≠ 0x0A) :
    c ∉ ws := by
  intro hc
  rcases h.chars c hc with h | h
  · exact h₁ h
  · exact h₂ h

theorem blank_tabs {n : Nat} (h : n ≤ 200) : Blank (0x0A :: tabs n) where
  chars := List.forall_mem_cons.2 ⟨Or.inr rfl, fun c hc => Or.inl (tabs_white c hc)⟩
  length := by
    rw [List.length_cons, tabs, List.length_replicate]
    omega

/-- `read_tag` on white space and a tag. -/
theorem readTag_blank {ws tag : Bytes} (hws : Blank ws) (htag : IsTag tag) (vsize : Nat)
    (rest : Bytes) : readTag (ws ++ (tag ++ rest)) vsize MAX_TAG_LEN =
      (unescape vsize ws, tag, rest) := by
  refine readTag_eq vsize htag (hws.not_mem (by decide) (by decide))
    (hws.not_mem (by decide) (by decide)) ?_
  have := hws.length
  change ws.length < 256
  omega

variable {depth : Nat}

/-- `read_tag` on a value, white space and a tag. -/
theorem readTag_value {value : Option Bytes} {ws tag : Bytes} (hws : Blank ws)
    (htag : IsTag tag) (hlen : ws.length ≤ depth + 2)
    (hvalue : ∀ v, value = some v → ValueOk v ∧ (escape v).length + depth ≤ 250) (rest : Bytes) :
    ∃ val, readTag ((value.map escape).getD [] ++ (ws ++ (tag ++ rest))) MAX_VAL_LEN MAX_TAG_LEN =
        (val, tag, rest) ∧ trimmed val = value := by
  cases value with
  | none =>
    refine ⟨ws, ?_, trimmed_white hws.white⟩
    have hw := hws.length
    have hval := @unescape_escape [] _ _ (hws.not_mem (by decide) (by decide))
      (show ([] : Bytes).length + ws.length ≤ MAX_VAL_LEN by
        change 0 + ws.length ≤ 256
        omega)
    rw [Option.map_none, Option.getD_none, List.nil_append,
      readTag_eq MAX_VAL_LEN htag (hws.not_mem (by decide) (by decide))
        (hws.not_mem (by decide) (by decide)) (show ws.length < 256 by omega)]
    exact congrArg (·, tag, rest) hval
  | some v =>
    obtain ⟨hv, hsize⟩ := hvalue v rfl
    obtain ⟨hlt, h0⟩ := escape_chars hv.nul
    refine ⟨v ++ ws, ?_, trimmed_value hv hws.white⟩
    have hval := unescape_escape (hws.not_mem (by decide) (by decide))
      (show v.length + ws.length ≤ MAX_VAL_LEN by
        have := escape_length_le v
        change v.length + ws.length ≤ 256
        omega)
    have hlt' : 0x3C ∉ escape v ++ ws := by
      rw [List.mem_append, not_or]
      exact ⟨hlt, hws.not_mem (by decide) (by decide)⟩
    have h0' : 0 ∉ escape v ++ ws := by
      rw [List.mem_append, not_or]
      exact ⟨h0, hws.not_mem (by decide) (by decide)⟩
    have hsize' : (escape v ++ ws).length < MAX_VAL_LEN := by
      rw [List.length_append]
      change (escape v).length + ws.length < 256
      omega
    rw [Option.map_some, Option.getD_some, ← List.append_assoc,
      readTag_eq MAX_VAL_LEN htag hlt' h0' hsize', hval]

/-- The part of a dumped node after its start tag, up to the end tag. -/
def contents (depth : Nat) (node : XmlNode) : Bytes :=
  (node.value.map escape).getD [] ++
    if node.child.isEmpty then []
    else [0x0A] ++ xmldbDumpNodes false (depth + 1) node.child ++ tabs depth

theorem xmldbDumpNode_eq (h : isSkipped false depth node.name = false) :
    xmldbDumpNode false depth node =
      tabs depth ++ (startTag node ++ (contents depth node ++ (endTag node.name ++ [0x0A]))) := by
  obtain ⟨name, id, value, notify, child⟩ := node
  rw [xmldbDumpNode, if_neg (by rw [h]; exact Bool.false_ne_true), dumpNodeStart, contents]
  dsimp only
  cases child with
  | nil =>
    simp [startTag, endTag, dumpNodeEnd, tabs, ascii]
  | cons c cs =>
    simp [startTag, endTag, dumpNodeEnd, tabs, ascii]

theorem NodeOk.name (h : NodeOk depth node) : NameOk node.name := by
  cases node
  rw [NodeOk] at h
  exact h.1

theorem NodeOk.id (h : NodeOk depth node) :
    0 ≤ node.id ∧ node.id < 2 ^ 31 := by
  cases node
  rw [NodeOk] at h
  exact ⟨h.2.1, h.2.2.1⟩

theorem NodeOk.skipped (h : NodeOk depth node) :
    isSkipped false depth node.name = false := by
  cases node
  rw [NodeOk] at h
  exact h.2.2.2.2.1

theorem NodeOk.isTag (h : NodeOk depth node) :
    IsTag (startTag node) := isTag_startTag h.name h.id.2

/-- Siblings, from the start tag of the first one. -/
theorem xmldbDumpNodes_cons {next : List XmlNode}
    (h : NodeOk depth node) (rest : Bytes) :
    0x0A :: (xmldbDumpNodes false depth (node :: next) ++ rest) =
      (0x0A :: tabs depth) ++ (startTag node ++ (contents depth node ++ (endTag node.name ++
        (0x0A :: (xmldbDumpNodes false depth next ++ rest))))) := by
  rw [xmldbDumpNodes, xmldbDumpNode_eq h.skipped]
  simp

/-- A call of `parse_xmltree` on siblings that are followed by the end tag of their parent. -/
def ReadsBack (n : Nat) : Prop :=
  ∀ ⦃depth k : Nat⦄ ⦃node : XmlNode⦄ ⦃next : List XmlNode⦄ ⦃parent rest fh : Bytes⦄,
    NodeOk depth node → NodesOk depth next → NameOk parent → k ≤ 200 →
    fh = contents depth node ++ (endTag node.name ++ (0x0A ::
      (xmldbDumpNodes false depth next ++ (tabs k ++ (endTag parent ++ rest))))) →
    fh.length < n →
    parseXmltree n (startTag node) fh = (bare node :: bares next, endTag parent, rest)

/-- The value and the children of a node. -/
theorem readContents {n depth : Nat} {tail fh : Bytes} (hreads : ReadsBack n)
    (hnode : NodeOk depth node)
    (hfh : fh = contents depth node ++ (endTag node.name ++ tail)) (hn : fh.length < n + 1) :
    ∃ val tag fh₁, readTag fh MAX_VAL_LEN MAX_TAG_LEN = (val, tag, fh₁) ∧
      trimmed val = node.value ∧ getNameFromTag tag MAX_TAG_LEN ≠ [] ∧
      (if (getNameFromTag tag MAX_TAG_LEN).head? ≠ some 0x2F then parseXmltree n tag fh₁
        else ([], tag, fh₁)) = (bares node.child, endTag node.name, tail) := by
  obtain ⟨name, id, value, notify, child⟩ := node
  rw [NodeOk] at hnode
  obtain ⟨hname, h₀, h₁, hdepth, -, hvalue, hchild⟩ := hnode
  dsimp only at hfh ⊢
  cases child with
  | nil =>
    have hblank : Blank [] := ⟨List.forall_mem_nil _, Nat.zero_le _⟩
    obtain ⟨val, hread, htrim⟩ := readTag_value hblank (isTag_endTag hname) (Nat.zero_le _) hvalue tail
    have hget : getNameFromTag (endTag name) MAX_TAG_LEN = 0x2F :: name :=
      getNameFromTag_endTag hname MAX_TAG_LEN rfl
    rw [List.nil_append] at hread
    refine ⟨val, endTag name, tail, ?_, htrim, ?_, ?_⟩
    · rw [hfh, contents]
      dsimp only
      rw [List.isEmpty_nil, if_pos rfl, List.append_nil]
      exact hread
    · rw [hget]
      exact List.cons_ne_nil _ _
    · rw [hget, List.head?_cons, if_neg (fun h => h rfl), bares]
  | cons c cs =>
    rw [NodesOk] at hchild
    obtain ⟨hc, hcs⟩ := hchild
    have hfh' : fh = (value.map escape).getD [] ++ ((0x0A :: tabs (depth + 1)) ++ (startTag c ++
        (contents (depth + 1) c ++ (endTag c.name ++ (0x0A ::
          (xmldbDumpNodes false (depth + 1) cs ++ (tabs depth ++ (endTag name ++ tail)))))))) := by
      rw [hfh, contents, ← xmldbDumpNodes_cons hc]
      simp
    have hlen : (0x0A :: tabs (depth + 1)).length ≤ depth + 2 := by
      rw [List.length_cons, tabs, List.length_replicate]
    obtain ⟨val, hread, htrim⟩ := readTag_value (blank_tabs (show depth + 1 ≤ 200 by omega)) hc.isTag
      hlen hvalue (contents (depth + 1) c ++ (endTag c.name ++ (0x0A ::
        (xmldbDumpNodes false (depth + 1) cs ++ (tabs depth ++ (endTag name ++ tail))))))
    have hget : getNameFromTag (startTag c) MAX_TAG_LEN = c.name := getNameFromTag_startTag hc.name MAX_TAG_LEN rfl
    rw [← hfh'] at hread
    refine ⟨val, startTag c, _, hread, htrim, ?_, ?_⟩
    · rw [hget]
      exact hc.name.ne_nil
    · rw [hget, if_pos hc.name.head?, hreads hc hcs hname (show depth ≤ 200 by omega) rfl, bares]
      rw [hfh'] at hn
      simp only [List.length_append, List.length_cons] at hn ⊢
      omega

/-- **Siblings are read back.** -/
theorem readsBack : ∀ n : Nat, ReadsBack n
  | 0 => fun _ _ _ _ _ _ _ _ _ _ _ _ hn => absurd hn (Nat.not_lt_zero _)
  | n + 1 => by
    intro depth k node next parent rest fh hnode hnext hparent hk hfh hn
    have hreads := readsBack n
    obtain ⟨val, tag, fh₁, hread, htrim, hne, hchild⟩ := readContents hreads hnode hfh hn
    have hget : getNameFromTag (startTag node) MAX_TAG_LEN = node.name :=
      getNameFromTag_startTag hnode.name MAX_TAG_LEN rfl
    have hend : getNameFromTag (endTag node.name) MAX_TAG_LEN = 0x2F :: node.name :=
      getNameFromTag_endTag hnode.name MAX_TAG_LEN rfl
    have hbare : (⟨node.name, node.id, node.value, none, bares node.child⟩ : XmlNode) = bare node := by
      cases node
      rw [bare]
    rw [parseXmltree]
    dsimp only
    rw [hget, if_neg hnode.name.ne_nil, hread]
    dsimp only
    rw [if_neg hne, hchild]
    dsimp only
    rw [hend, if_neg (List.cons_ne_nil _ _), List.head?_cons, if_neg (fun h => h rfl),
      List.drop_succ_cons, List.drop_zero, if_neg (fun h => h rfl), htrim,
      getIdFromTag_startTag hnode.name hnode.id.1 hnode.id.2, hbare]
    cases next with
    | nil =>
      have hread₂ := readTag_blank (blank_tabs hk) (isTag_endTag hparent) 0 rest
      rw [xmldbDumpNodes, List.nil_append, ← List.cons_append, hread₂]
      dsimp only
      rw [getNameFromTag_endTag hparent MAX_TAG_LEN rfl, if_neg (fun h => h.2 rfl), bares]
    | cons y ys =>
      rw [NodesOk] at hnext
      obtain ⟨hy, hys⟩ := hnext
      have hdepth : depth ≤ 200 := by
        cases node
        rw [NodeOk] at hnode
        omega
      have hread₂ := readTag_blank (blank_tabs hdepth) hy.isTag 0 (contents depth y ++
        (endTag y.name ++ (0x0A :: (xmldbDumpNodes false depth ys ++
          (tabs k ++ (endTag parent ++ rest))))))
      rw [xmldbDumpNodes_cons hy, hread₂]
      dsimp only
      rw [getNameFromTag_startTag hy.name MAX_TAG_LEN rfl, if_pos ⟨hy.name.ne_nil, hy.name.head?⟩,
        hreads hy hys hparent hk rfl, bares]
      rw [hfh, xmldbDumpNodes_cons hy] at hn
      simp only [List.length_append, List.length_cons] at hn ⊢
      omega

/-- What is read after the value does not depend on the room for it. -/
theorem readTag_snd (fh : Bytes) (vsize vsize' tsize : Nat) :
    (readTag fh vsize tsize).2 = (readTag fh vsize' tsize).2 := rfl

/-- The root at depth 0, with a child. -/
structure RootOk (root : XmlNode) : Prop where
  node : NodeOk 0 root
  child : root.child ≠ []

/-- **Reading a dumped file gives the tree back.** -/
theorem xmldbReadXml_xmldbDumpNodes {root : XmlNode} (h : RootOk root) (old : XmlNode) :
    xmldbReadXml root.name old (some (xmldbDumpNodes false 0 [root])) false =
      ({ old with child := bares root.child }, 0) := by
  obtain ⟨hroot, hne⟩ := h
  have hname := hroot.name
  have htag := hroot.isTag
  have hskip := hroot.skipped
  obtain ⟨name, id, value, notify, child⟩ := root
  obtain ⟨c, cs, rfl⟩ := List.exists_cons_of_ne_nil hne
  rw [NodeOk] at hroot
  obtain ⟨-, -, hid, -, -, hvalue, hchild⟩ := hroot
  rw [NodesOk] at hchild
  obtain ⟨hc, hcs⟩ := hchild
  dsimp only at hname hskip ⊢
  -- the file, from the start tag of the root and from that of its first child
  generalize hfh : contents 1 c ++ (endTag c.name ++ (0x0A ::
    (xmldbDumpNodes false 1 cs ++ (tabs 0 ++ (endTag name ++ [0x0A]))))) = fh
  generalize hfh₀ : (value.map escape).getD [] ++ ((0x0A :: tabs 1) ++ (startTag c ++ fh)) = fh₀
  have hfile : xmldbDumpNodes false 0 [⟨name, id, value, notify, c :: cs⟩] =
      [] ++ (startTag ⟨name, id, value, notify, c :: cs⟩ ++ fh₀) := by
    rw [← hfh₀, ← hfh, xmldbDumpNodes, xmldbDumpNode_eq hskip, contents, ← xmldbDumpNodes_cons hc]
    simp [xmldbDumpNodes, tabs]
  have hblank : Blank [] := ⟨List.forall_mem_nil _, Nat.zero_le _⟩
  have hread₁ := readTag_blank hblank htag 0 fh₀
  obtain ⟨val, hread₂, -⟩ := readTag_value (blank_tabs (show 1 ≤ 200 by decide)) hc.isTag
    (show (0x0A :: tabs 1).length ≤ 0 + 2 from le_rfl) hvalue fh
  rw [hfh₀] at hread₂
  have hread₂' : readTag fh₀ 0 MAX_TAG_LEN = ((readTag fh₀ 0 MAX_TAG_LEN).1, startTag c, fh) := by
    refine Prod.ext rfl ?_
    rw [readTag_snd _ 0 MAX_VAL_LEN, hread₂]
  have hparse := readsBack (fh.length + 1) hc hcs hname (Nat.zero_le 200) hfh.symm
    (Nat.lt_succ_self _)
  have hget := @getNameFromTag_startTag ⟨name, id, value, notify, c :: cs⟩ hname MAX_VAL_LEN rfl
  have hcond : name ≠ [] ∧ name = name := ⟨hname.ne_nil, rfl⟩
  rw [xmldbReadXml, hfile, if_neg Bool.false_ne_true]
  dsimp only
  rw [hread₁]
  dsimp only
  rw [hget]
  dsimp only
  rw [if_pos hcond, hread₂']
  dsimp only
  rw [getNameFromTag_startTag hc.name MAX_VAL_LEN rfl, if_pos hc.name.ne_nil, hparse, bares]
  rfl

/-- A value with special characters, and a child. -/
def sample : XmlNode :=
  ⟨ascii "root", 0, none, none,
    [⟨ascii "a", 3, some (ascii "x<y &lt; z"), none, [⟨ascii "b-1", 0, none, none, []⟩]⟩,
      ⟨ascii "a", 4, none, some (ascii "n"), []⟩]⟩

theorem xmldbReadXml_xmldbDumpNodes_sample :
    xmldbReadXml (ascii "root") ⟨ascii "root", 0, none, none, []⟩
        (some (xmldbDumpNodes false 0 [sample])) false =
      (⟨ascii "root", 0, none, none, bares sample.child⟩, 0) := by
  have hname : ∀ name ∈ [ascii "root", ascii "a", ascii "b-1"], NameOk name := by
    intro name hname
    simp only [List.mem_cons, List.not_mem_nil, or_false] at hname
    rcases hname with rfl | rfl | rfl <;> exact ⟨by decide, by decide, by decide⟩
  have hvalue : ValueOk (ascii "x<y &lt; z") := by
    refine ⟨by decide, by decide, fun c hc => ?_, fun c hc => ?_⟩
    · obtain rfl : 0x78 = c := Option.some.inj hc
      rfl
    · obtain rfl : 0x7A = c := Option.some.inj hc
      rfl
  have hok : RootOk sample := by
    refine ⟨?_, List.cons_ne_nil _ _⟩
    simp only [sample, NodeOk, NodesOk, and_true]
    refine ⟨hname _ (by decide), by decide, by decide, by decide, by decide, nofun,
      ⟨hname _ (by decide), by decide, by decide, by decide, by decide, ?_,
        hname _ (by decide), by decide, by decide, by decide, by decide, nofun⟩,
      hname _ (by decide), by decide, by decide, by decide, by decide, nofun⟩
    intro v hv
    rw [← Option.some.inj hv]
    exact ⟨hvalue, by decide⟩
  exact xmldbReadXml_xmldbDumpNodes hok _

end Xmldb
